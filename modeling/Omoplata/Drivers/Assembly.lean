-- SUMMARY: What a structural merge puts together: settled base items, then the items either side added.
import Omoplata.Drivers.Pairing

/-!
# Putting a merge together

The output of a structural merge is a row of pieces: the settled base items behind the
gaps of the base, the items the left side added behind its gaps, those of the right
side that are not the same, and the last gap of the base.
-/

namespace Omoplata

/-! ## Settled base items -/

namespace Resolution

/-- What a settled item leaves in the output. -/
def body : Resolution → Option Str
  | keep body => some body
  | drop => none
  | conflict rendered _ => some rendered
  | carry rendered _ => some rendered

def conflicts : Resolution → List Conflict
  | conflict _ cs => cs
  | _ => []

end Resolution

/-- The counterpart of a base item on one side. -/
def counterpart (side : Segmentation) (p : Pairing) (i : Nat) : Option Item :=
  (p.baseToSide.getD i none).bind fun n => side.items[n]?

theorem mem_of_counterpart {side : Segmentation} {p : Pairing} {i : Nat} {s : Item}
    (h : counterpart side p i = some s) : s ∈ side.items := by
  obtain ⟨j, -, hj⟩ := Option.bind_eq_some_iff.mp h
  exact List.mem_of_getElem? hj

namespace Assembly

theorem emit_out (a : Assembly) (leading : Str) (r : Resolution) :
    (a.emit leading r).out = a.out ++ (r.body.map fun body => (leading, body)).toList := by
  cases r with
  | drop => exact (List.append_nil _).symm
  | _ => rfl

theorem emit_conflicts (a : Assembly) (leading : Str) (r : Resolution) :
    (a.emit leading r).conflicts = a.conflicts ++ r.conflicts := by
  cases r with
  | conflict rendered cs => rfl
  | _ => exact (List.append_nil _).symm

end Assembly

/-- What a base item comes out as. -/
def settled (resolve : Item → Option Item → Option Item → Resolution) (left right : Segmentation)
    (lp rp : Pairing) (entry : Item × Nat) : Resolution :=
  resolve entry.1 (counterpart left lp entry.2) (counterpart right rp entry.2)

/-- The piece a base item leaves, behind its gap. -/
def settledPiece (resolve : Item → Option Item → Option Item → Resolution) (base left right : Segmentation)
    (lp rp : Pairing) (entry : Item × Nat) : Option (Str × Str) :=
  (settled resolve left right lp rp entry).body.map fun body => (base.gaps.getD entry.2 [], body)

section

variable (resolve : Item → Option Item → Option Item → Resolution) (base left right : Segmentation)
  (lp rp : Pairing)

theorem settleBase_eq (a : Assembly) :
    (settleBase resolve base left right lp rp a).out =
        a.out ++ base.items.zipIdx.filterMap (settledPiece resolve base left right lp rp) ∧
      (settleBase resolve base left right lp rp a).conflicts =
        a.conflicts ++ base.items.zipIdx.flatMap fun entry =>
          (settled resolve left right lp rp entry).conflicts := by
  unfold settleBase
  induction base.items.zipIdx generalizing a with
  | nil => simp
  | cons entry entries ih =>
      obtain ⟨it, i⟩ := entry
      rw [List.foldl_cons]
      obtain ⟨hout, hconflicts⟩ := ih (a.emit (base.gaps.getD i [])
        (resolve it (counterpart left lp i) (counterpart right rp i)))
      refine ⟨hout.trans ?_, hconflicts.trans ?_⟩
      · rw [Assembly.emit_out, List.append_assoc, List.filterMap_cons]
        unfold settledPiece settled
        dsimp only
        cases (resolve it (counterpart left lp i) (counterpart right rp i)).body <;> rfl
      · rw [Assembly.emit_conflicts, List.append_assoc, List.flatMap_cons]
        rfl

end

/-! ## Added items -/

/-- The piece of an added item, behind its own gap. -/
def Segmentation.piece (seg : Segmentation) (j : Nat) : Option (Str × Str) :=
  seg.items[j]?.map fun it => (seg.gaps.getD j [], it.originalText)

/-- Emit one added item. -/
def Assembly.pushItem (side : Segmentation) (a : Assembly) (j : Nat) : Assembly :=
  match side.items[j]? with
  | none => a
  | some it => a.pushAdded (side.gaps.getD j []) it

theorem Assembly.pushItem_out (side : Segmentation) (a : Assembly) (j : Nat) :
    (a.pushItem side j).out = a.out ++ (side.piece j).toList ∧ (a.pushItem side j).conflicts = a.conflicts := by
  unfold pushItem Segmentation.piece
  cases side.items[j]? with
  | none => exact ⟨(List.append_nil _).symm, rfl⟩
  | some it => exact ⟨rfl, rfl⟩

theorem foldl_pushItem (side : Segmentation) (js : List Nat) (a : Assembly) :
    (js.foldl (Assembly.pushItem side) a).out = a.out ++ js.filterMap side.piece ∧
      (js.foldl (Assembly.pushItem side) a).conflicts = a.conflicts := by
  induction js generalizing a with
  | nil => simp
  | cons j js ih =>
      obtain ⟨hout, hconflicts⟩ := ih (a.pushItem side j)
      rw [List.foldl_cons]
      refine ⟨hout.trans ?_, hconflicts.trans (a.pushItem_out side j).2⟩
      rw [(a.pushItem_out side j).1, List.append_assoc, List.filterMap_cons]
      cases side.piece j <;> rfl

theorem addRight_eq (right : Segmentation) (rp : Pairing) (consumed : List Bool) (a : Assembly) :
    addRight right rp consumed a =
      (rp.added.filter fun j => !consumed.getD j false).foldl (Assembly.pushItem right) a := by
  unfold addRight
  induction rp.added generalizing a with
  | nil => rfl
  | cons j js ih =>
      rw [List.foldl_cons, ih, List.filter_cons]
      cases hconsumed : consumed.getD j false with
      | true => rw [if_pos rfl, Bool.not_true, if_neg Bool.false_ne_true]
      | false =>
          rw [if_neg Bool.false_ne_true, Bool.not_false, if_pos rfl, List.foldl_cons]
          rfl

/-- One step of the loop over the items added on the left. -/
def addLeftStep (left right : Segmentation) (rp : Pairing) (s : Assembly × List Bool) (lj : Nat) :
    Assembly × List Bool :=
  match left.items[lj]? with
  | none => s
  | some litem =>
      let leading := left.gaps.getD lj []
      match rp.added.find? fun rj =>
          !s.2.getD rj true &&
            (right.items[rj]?).any fun ri =>
              ri.definition.kind == litem.definition.kind && ri.definition.path == litem.definition.path with
      | some rj =>
          let rtext := ((right.items[rj]?).map Item.originalText).getD []
          (if rtext = litem.originalText then s.1.pushAdded leading litem
          else
            { s.1 with
              conflicts := s.1.conflicts ++ [⟨[], lines litem.originalText, lines rtext⟩]
              out := s.1.out ++ [(leading, renderConflict litem.originalText rtext)] },
            s.2.set rj true)
      | none => (s.1.pushAdded leading litem, s.2)

theorem addLeft_eq (left right : Segmentation) (lp rp : Pairing) (a : Assembly) :
    addLeft left right lp rp a =
      lp.added.foldl (addLeftStep left right rp) (a, right.items.map fun _ => false) := rfl

/-- An item of one side with the text of an item of the other. -/
def SameText (left right : Segmentation) (lj rj : Nat) : Prop :=
  ∃ litem ritem, left.items[lj]? = some litem ∧ right.items[rj]? = some ritem ∧
    ritem.originalText = litem.originalText

theorem addLeftStep_ok {left right : Segmentation} {rp : Pairing} {s : Assembly × List Bool} {lj : Nat}
    (h : (addLeftStep left right rp s lj).1.conflicts = []) :
    (addLeftStep left right rp s lj).1 = s.1.pushItem left lj ∧
      ((addLeftStep left right rp s lj).2 = s.2 ∨
        ∃ rj, SameText left right lj rj ∧ (addLeftStep left right rp s lj).2 = s.2.set rj true) := by
  unfold addLeftStep Assembly.pushItem at *
  cases hl : left.items[lj]? with
  | none => exact ⟨rfl, .inl rfl⟩
  | some litem =>
      simp only [hl] at h ⊢
      cases hfind : rp.added.find? fun rj => !s.2.getD rj true && (right.items[rj]?).any fun ri =>
          ri.definition.kind == litem.definition.kind && ri.definition.path == litem.definition.path with
      | none => exact ⟨rfl, .inl rfl⟩
      | some rj =>
          simp only [hfind] at h ⊢
          have hfound := List.find?_some hfind
          cases hr : right.items[rj]? with
          | none => simp [hr] at hfound
          | some ritem =>
              simp only [hr, Option.map_some, Option.getD_some] at h ⊢
              by_cases hsame : ritem.originalText = litem.originalText
              · rw [if_pos hsame]
                exact ⟨rfl, .inr ⟨rj, ⟨litem, ritem, hl, hr, hsame⟩, rfl⟩⟩
              · rw [if_neg hsame] at h
                simp at h

theorem addLeftStep_conflicts (left right : Segmentation) (rp : Pairing) (s : Assembly × List Bool) (lj : Nat) :
    ∃ cs, (addLeftStep left right rp s lj).1.conflicts = s.1.conflicts ++ cs := by
  unfold addLeftStep
  split
  · exact ⟨[], (List.append_nil _).symm⟩
  · dsimp only
    split
    · split
      · exact ⟨[], (List.append_nil _).symm⟩
      · exact ⟨_, rfl⟩
    · exact ⟨[], (List.append_nil _).symm⟩

/-- Without a conflict every item added on the left comes out, and what is left out of the
    right side stands on the left. -/
theorem addLeft_ok {left right : Segmentation} {lp rp : Pairing} {a : Assembly}
    (h : (addLeft left right lp rp a).1.conflicts = []) :
    (addLeft left right lp rp a).1.out = a.out ++ lp.added.filterMap left.piece ∧ a.conflicts = [] ∧
      ∀ rj, (addLeft left right lp rp a).2.getD rj false = true → ∃ lj ∈ lp.added, SameText left right lj rj := by
  have hloop : ∀ (js : List Nat) (s : Assembly × List Bool),
      (js.foldl (addLeftStep left right rp) s).1.conflicts = [] →
      (js.foldl (addLeftStep left right rp) s).1.out = s.1.out ++ js.filterMap left.piece ∧
        s.1.conflicts = [] ∧ ∀ rj, (js.foldl (addLeftStep left right rp) s).2.getD rj false = true →
          s.2.getD rj false = true ∨ ∃ lj ∈ js, SameText left right lj rj := by
    intro js
    induction js with
    | nil => exact fun s hs => ⟨(List.append_nil _).symm, hs, fun rj hrj => .inl hrj⟩
    | cons lj js ih =>
        intro s hs
        rw [List.foldl_cons] at hs ⊢
        obtain ⟨hout, hstep, hconsumed⟩ := ih _ hs
        obtain ⟨hpush, hflags⟩ := addLeftStep_ok hstep
        obtain ⟨cs, hcs⟩ := addLeftStep_conflicts left right rp s lj
        refine ⟨?_, (List.append_eq_nil_iff.mp (hcs.symm.trans hstep)).1, fun rj hrj => ?_⟩
        · rw [hout, hpush, (s.1.pushItem_out left lj).1, List.append_assoc, List.filterMap_cons]
          cases left.piece lj <;> rfl
        · rcases hconsumed rj hrj with hflag | ⟨lj', hlj', hsame⟩
          · rcases hflags with hkept | ⟨rj', hsame, hset⟩
            · exact .inl (hkept ▸ hflag)
            · rw [hset, List.getD_eq_getElem?_getD, List.getElem?_set] at hflag
              by_cases heq : rj' = rj
              · exact .inr ⟨lj, List.mem_cons_self, heq ▸ hsame⟩
              · rw [if_neg heq, ← List.getD_eq_getElem?_getD] at hflag
                exact .inl hflag
          · exact .inr ⟨lj', List.mem_cons_of_mem _ hlj', hsame⟩
  rw [addLeft_eq] at h ⊢
  obtain ⟨hout, hconflicts, hconsumed⟩ := hloop lp.added _ h
  refine ⟨hout, hconflicts, fun rj hrj => (hconsumed rj hrj).resolve_left ?_⟩
  have hfalse : flagged (right.items.map fun _ => false) rj = false := flagged_map_false right.items rj
  exact fun hflag => absurd (hflag.symm.trans hfalse) (by decide)

/-- Without items added on the right those on the left just come out. -/
theorem addLeft_nil {left right : Segmentation} {lp rp : Pairing} (h : rp.added = []) (a : Assembly) :
    addLeft left right lp rp a =
      (lp.added.foldl (Assembly.pushItem left) a, right.items.map fun _ => false) := by
  rw [addLeft_eq]
  induction lp.added generalizing a with
  | nil => rfl
  | cons lj js ih =>
      have hstep : addLeftStep left right rp (a, right.items.map fun _ => false) lj =
          (a.pushItem left lj, right.items.map fun _ => false) := by
        unfold addLeftStep Assembly.pushItem
        rw [h]
        cases left.items[lj]? <;> rfl
      rw [List.foldl_cons, List.foldl_cons, hstep]
      exact ih _

/-- Items that both sides add alike come out once. -/
theorem addLeft_self {side : Segmentation} {p : Pairing} {olds : Nat} (hp : p.Ok olds side.items.length)
    (a : Assembly) :
    (addLeft side side p p a).1 = p.added.foldl (Assembly.pushItem side) a ∧
      ∀ j ∈ p.added, (addLeft side side p p a).2.getD j false = true := by
  -- every item in front has been consumed, and no other
  have hloop : ∀ (suf pre : List Nat) (s : Assembly × List Bool), pre ++ suf = p.added →
      s.2.length = side.items.length → (∀ j, flagged s.2 j = true ↔ j ∈ pre) →
      (suf.foldl (addLeftStep side side p) s).1 = suf.foldl (Assembly.pushItem side) s.1 ∧
        ∀ j ∈ p.added, flagged (suf.foldl (addLeftStep side side p) s).2 j = true := by
    intro suf
    induction suf with
    | nil =>
        rintro pre s hpre - hflags
        rw [List.append_nil] at hpre
        exact ⟨rfl, fun j hj => (hflags j).mpr (hpre ▸ hj)⟩
    | cons lj suf ih =>
        intro pre s hpre hlength hflags
        have hmem : lj ∈ p.added := hpre ▸ List.mem_append_right pre List.mem_cons_self
        have hlt : lj < side.items.length := ((hp.mem_added lj).mp hmem).1
        have hfresh : lj ∉ pre := by
          have hnodup := hpre ▸ hp.nodup
          exact fun hin => (List.nodup_append.mp hnodup).2.2 lj hin lj List.mem_cons_self rfl
        obtain ⟨litem, hl⟩ : ∃ litem, side.items[lj]? = some litem := ⟨_, List.getElem?_eq_getElem hlt⟩
        have hfind : (p.added.find? fun rj => !s.2.getD rj true && (side.items[rj]?).any fun ri =>
            ri.definition.kind == litem.definition.kind && ri.definition.path == litem.definition.path) = some lj := by
          have hgetD : ∀ j < side.items.length, s.2.getD j true = flagged s.2 j := by
            intro j hj
            unfold flagged
            rw [List.getD_eq_getElem?_getD, List.getD_eq_getElem?_getD,
              List.getElem?_eq_getElem (hlength ▸ hj), Option.getD_some, Option.getD_some]
          have hfront : (pre.find? fun rj => !s.2.getD rj true && (side.items[rj]?).any fun ri =>
              ri.definition.kind == litem.definition.kind && ri.definition.path == litem.definition.path) = none := by
            refine List.find?_eq_none.mpr fun rj hrj => ?_
            have hin : rj ∈ p.added := hpre ▸ List.mem_append_left _ hrj
            rw [hgetD rj ((hp.mem_added rj).mp hin).1, (hflags rj).mpr hrj]
            simp
          have hunflagged : flagged s.2 lj = false :=
            Bool.eq_false_iff.mpr fun hflag => hfresh ((hflags lj).mp hflag)
          rw [← hpre, List.find?_append, hfront, Option.none_or, List.find?_cons_of_pos]
          rw [hgetD lj hlt, hunflagged, hl]
          simp
        have hstep : addLeftStep side side p s lj = (s.1.pushItem side lj, s.2.set lj true) := by
          unfold addLeftStep Assembly.pushItem
          simp only [hl, hfind, Option.map_some, Option.getD_some, if_true]
        rw [List.foldl_cons, List.foldl_cons, hstep]
        refine ih (pre ++ [lj]) _ (by simpa using hpre) (by simpa using hlength) fun j => ?_
        rw [flagged_set (hlength ▸ hlt), hflags, List.mem_append, List.mem_singleton, or_comm]
  rw [addLeft_eq]
  refine hloop p.added [] _ rfl (List.length_map _) fun j => ?_
  rw [flagged_map_false]
  simp

/-! ## The whole output -/

/-- Pieces in a row. -/
def rowText (pieces : List (Str × Str)) : Str := pieces.flatMap fun p => p.1 ++ p.2

/-- One step of the loop over the items added on the left, for the flags of the right items. -/
def consumeStep (left right : Segmentation) (rp : Pairing) (flags : List Bool) (lj : Nat) : List Bool :=
  match left.items[lj]? with
  | none => flags
  | some litem =>
      match rp.added.find? fun rj =>
          !flags.getD rj true &&
            (right.items[rj]?).any fun ri =>
              ri.definition.kind == litem.definition.kind && ri.definition.path == litem.definition.path with
      | some rj => flags.set rj true
      | none => flags

/-- The right items that come out together with one added on the left. -/
def consumed (left right : Segmentation) (lp rp : Pairing) : List Bool :=
  lp.added.foldl (consumeStep left right rp) (right.items.map fun _ => false)

theorem addLeft_snd (left right : Segmentation) (lp rp : Pairing) (a : Assembly) :
    (addLeft left right lp rp a).2 = consumed left right lp rp := by
  have hstep : ∀ (s : Assembly × List Bool) (lj : Nat),
      (addLeftStep left right rp s lj).2 = consumeStep left right rp s.2 lj := by
    intro s lj
    unfold addLeftStep consumeStep
    cases left.items[lj]? with
    | none => rfl
    | some litem =>
        dsimp only
        split <;> rfl
  have hloop : ∀ (js : List Nat) (s : Assembly × List Bool),
      (js.foldl (addLeftStep left right rp) s).2 = js.foldl (consumeStep left right rp) s.2 := by
    intro js
    induction js with
    | nil => exact fun _ => rfl
    | cons lj js ih =>
        intro s
        rw [List.foldl_cons, List.foldl_cons, ih, hstep]
  rw [addLeft_eq, hloop]
  rfl

/-- A place in the output: an item of the base, or one that a side added. -/
inductive Slot where
  | base (i : Nat)
  | left (j : Nat)
  | right (j : Nat)
  deriving DecidableEq, Repr

section

variable (base left right : Segmentation)

/-- The base items that both sides have. -/
def survivors : List Nat :=
  (List.range base.items.length).filter fun i =>
    (counterpart left (pair base left) i).isSome && (counterpart right (pair base right) i).isSome

/-- The items added on the right that do not come out together with one added on the left. -/
def others : List Nat :=
  (pair base right).added.filter fun j =>
    !(consumed left right (pair base left) (pair base right)).getD j false

/-- The places of an output without conflicts, in order. -/
def slots : List Slot :=
  (survivors base left right).map .base ++ (pair base left).added.map .left ++
    (others base left right).map .right

namespace Slot

/-- The place of an item in its own segmentation. -/
def index : Slot → Nat
  | .base i => i
  | .left j => j
  | .right j => j

/-- The segmentation an item comes from. -/
def source : Slot → Segmentation
  | .base _ => base
  | .left _ => left
  | .right _ => right

/-- The gap in front of an item. -/
def gap (s : Slot) : Str := (s.source base left right).gaps.getD s.index []

/-- What an item comes out as. -/
def body (resolve : Item → Option Item → Option Item → Resolution) : Slot → Str
  | .base i => (base.items[i]?.bind fun it =>
      (settled resolve left right (pair base left) (pair base right) (it, i)).body).getD []
  | .left j => (left.items[j]?.map Item.originalText).getD []
  | .right j => (right.items[j]?.map Item.originalText).getD []

end Slot

/-- A structural merge without conflicts: no item has one, and what is added on the right comes
    out or stands on the left. -/
structure Clean (resolve : Item → Option Item → Option Item → Resolution) : Prop where
  settled : ∀ (i : Nat) (it : Item), base.items[i]? = some it →
    (settled resolve left right (pair base left) (pair base right) (it, i)).conflicts = []
  added : ∀ rj ∈ (pair base right).added, rj ∈ others base left right ∨
    ∃ lj ∈ (pair base left).added, SameText left right lj rj

end

variable {resolve : Item → Option Item → Option Item → Resolution} {base left right : Segmentation}

theorem filterMap_zipIdx {α β : Type} (xs : List α) (f : α × Nat → Option β) :
    xs.zipIdx.filterMap f = (List.range xs.length).filterMap fun i => xs[i]?.bind fun x => f (x, i) := by
  induction xs using List.reverseRecOn with
  | nil => rfl
  | append_singleton xs x ih =>
      have hfront : (List.range xs.length).filterMap (fun i => (xs ++ [x])[i]?.bind fun x => f (x, i)) =
          (List.range xs.length).filterMap fun i => xs[i]?.bind fun x => f (x, i) :=
        List.filterMap_congr fun i hi => by rw [List.getElem?_append_left (List.mem_range.mp hi)]
      rw [List.zipIdx_append, List.filterMap_append, ih, List.length_append, List.length_singleton, List.range_succ,
        List.filterMap_append, hfront]
      congr 1
      simp [List.filterMap_cons]

/-- What a structural merge puts together, before it is written out. -/
def assemble (resolve : Item → Option Item → Option Item → Resolution) (base left right : Segmentation) : Assembly :=
  let a := settleBase resolve base left right (pair base left) (pair base right) ⟨[], [], []⟩
  let (a, consumed) := addLeft left right (pair base left) (pair base right) a
  addRight right (pair base right) consumed a

theorem structuralMergeWith_eq (resolve : Item → Option Item → Option Item → Resolution) (base left right : Segmentation) :
    structuralMergeWith resolve base left right =
      let a := assemble resolve base left right
      ⟨rowText a.out ++ (base.gaps.getLast?).getD [], a.conflicts, a.carried, "rust-structural".toList⟩ := rfl

/-- Without conflicts the pieces put together are those of the places, in order. -/
theorem assemble_clean
    (hresolve : ∀ (it : Item) (l r : Option Item), (resolve it l r).conflicts = [] →
      (resolve it l r).body.isSome = (l.isSome && r.isSome))
    (h : (assemble resolve base left right).conflicts = []) :
    Clean base left right resolve ∧ (assemble resolve base left right).out =
      (slots base left right).map fun s => (s.gap base left right, s.body base left right resolve) := by
  unfold assemble at *
  dsimp only at h ⊢
  generalize hbase : settleBase resolve base left right (pair base left) (pair base right) ⟨[], [], []⟩ = a at h ⊢
  obtain ⟨houtBase, hconflictsBase⟩ := settleBase_eq resolve base left right (pair base left) (pair base right) ⟨[], [], []⟩
  rw [hbase, List.nil_append] at houtBase hconflictsBase
  rw [addRight_eq, addLeft_snd] at h ⊢
  obtain ⟨houtRight, hconflictsRight⟩ := foldl_pushItem right (others base left right)
    (addLeft left right (pair base left) (pair base right) a).1
  unfold others at houtRight hconflictsRight
  rw [hconflictsRight] at h
  obtain ⟨houtLeft, hconflicts, hconsumed⟩ := addLeft_ok h
  rw [addLeft_snd] at hconsumed
  have hsettled : ∀ (i : Nat) (it : Item), base.items[i]? = some it →
      (settled resolve left right (pair base left) (pair base right) (it, i)).conflicts = [] := by
    intro i it hit
    rw [hconflicts] at hconflictsBase
    exact List.flatMap_eq_nil_iff.mp hconflictsBase.symm (it, i) (List.mk_mem_zipIdx_iff_getElem?.mpr hit)
  refine ⟨⟨hsettled, fun rj hrj => ?_⟩, ?_⟩
  · cases hflag : (consumed left right (pair base left) (pair base right)).getD rj false with
    | true => exact .inr (hconsumed rj hflag)
    | false => exact .inl (List.mem_filter.mpr ⟨hrj, by simp only [hflag, Bool.not_false]⟩)
  · rw [houtRight, houtLeft, houtBase]
    have hsurvivors : base.items.zipIdx.filterMap (settledPiece resolve base left right (pair base left)
        (pair base right)) = (survivors base left right).map fun i =>
          ((Slot.base i).gap base left right, (Slot.base i).body base left right resolve) := by
      unfold survivors
      rw [filterMap_zipIdx, ← List.filterMap_eq_map, List.filterMap_filter]
      refine List.filterMap_congr fun i hi => ?_
      obtain ⟨it, hit⟩ : ∃ it, base.items[i]? = some it := ⟨_, List.getElem?_eq_getElem (List.mem_range.mp hi)⟩
      have hsome := hresolve _ _ _ (hsettled i _ hit)
      rw [← hsome, hit, Option.bind_some]
      have hpiece : (Slot.base i).body base left right resolve =
          (settled resolve left right (pair base left) (pair base right) (it, i)).body.getD [] := by
        unfold Slot.body
        dsimp only
        rw [hit, Option.bind_some]
      rw [Function.comp_apply, hpiece]
      change Option.map _ _ = if (settled resolve left right (pair base left) (pair base right) (_, i)).body.isSome =
        true then _ else none
      cases (settled resolve left right (pair base left) (pair base right) (it, i)).body <;> rfl
    have hpieces : ∀ (side : Segmentation) (js : List Nat), (∀ j ∈ js, j < side.items.length) →
        js.filterMap side.piece = js.map fun j =>
          (side.gaps.getD j [], (side.items[j]?.map Item.originalText).getD []) := by
      intro side js hjs
      rw [← List.filterMap_eq_map]
      refine List.filterMap_congr fun j hj => ?_
      unfold Segmentation.piece
      rw [Function.comp_apply, List.getElem?_eq_getElem (hjs j hj)]
      rfl
    have hlt : ∀ side : Segmentation, ∀ j ∈ (pair base side).added, j < side.items.length := fun side j hj =>
      (((pair_ok base side).mem_added j).mp hj).1
    rw [hsurvivors, hpieces left _ (hlt left)]
    have hright := hpieces right (others base left right) fun j hj => hlt right j (List.mem_filter.mp hj).1
    unfold others at hright
    rw [hright, slots, List.map_append, List.map_append, List.map_map, List.map_map, List.map_map]
    rfl

/-- Without conflicts the output is the row of its places. -/
theorem structuralMergeWith_clean
    (hresolve : ∀ (it : Item) (l r : Option Item), (resolve it l r).conflicts = [] →
      (resolve it l r).body.isSome = (l.isSome && r.isSome))
    (h : (structuralMergeWith resolve base left right).conflicts = []) :
    Clean base left right resolve ∧ (structuralMergeWith resolve base left right).merged =
      rowText ((slots base left right).map fun s => (s.gap base left right, s.body base left right resolve)) ++
        (base.gaps.getLast?).getD [] := by
  rw [structuralMergeWith_eq] at h ⊢
  obtain ⟨hclean, hout⟩ := assemble_clean hresolve h
  exact ⟨hclean, by rw [← hout]⟩

end Omoplata
