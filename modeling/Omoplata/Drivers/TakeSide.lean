-- SUMMARY: What the structural driver does where one side, or both alike, moved from the base.
import Omoplata.Drivers.Assembly
import Omoplata.Drivers.Segment

/-!
# Taking one side

Where only one side moved, or both did alike, the structural driver reports no conflict
and puts the items of that side together in its own order: the items that survive in
base order behind the gaps of the base, then the added ones behind theirs, then the
last gap of the base. Where the side left the gaps alone these are its own, so that
nothing of it is lost; and it comes out as it is where it also keeps to that order.
-/

namespace Omoplata

/-! ## The order of reassembly -/

/-- A side put together over a base; `body` is what an item comes out as. -/
def reassemble (body : Item → Item → Str) (base side : Segmentation) : Str :=
  let p := pair base side
  rowText (base.items.zipIdx.filterMap (fun (it, i) =>
      (counterpart side p i).map fun s => (base.gaps.getD i [], body it s)) ++
    p.added.filterMap side.piece) ++ (base.gaps.getLast?).getD []

/-- A side that leaves the text in front of the items it shares with the base, and behind
    the last item, as it is. -/
structure KeepsGaps (base side : Segmentation) : Prop where
  gaps : ∀ i j : Nat, (pair base side).baseToSide[i]? = some (some j) →
    side.gaps.getD j [] = base.gaps.getD i []
  trailing : side.gaps.getLast? = base.gaps.getLast?

/-- A side that has the surviving items of a base in base order and behind the same gaps,
    added items only behind them, and the same last gap. -/
structure KeepsLayout (base side : Segmentation) : Prop extends KeepsGaps base side where
  order : (List.range base.items.length).filterMap (fun i => (pair base side).baseToSide.getD i none) ++
    (pair base side).added = List.range side.items.length

/-- A side with its items in another order, each behind its own gap: those that survive from
    the base in base order, then the added ones. -/
def rearrange (body : Item → Item → Str) (base side : Segmentation) : Str :=
  let p := pair base side
  rowText (base.items.zipIdx.filterMap (fun (it, i) =>
      (p.baseToSide.getD i none).bind fun j => side.items[j]?.map fun s => (side.gaps.getD j [], body it s)) ++
    p.added.filterMap side.piece) ++ (side.gaps.getLast?).getD []

/-- A container with the same kind, header and footer on two sides, split on both. -/
def sharedContainer (G : Grammar) (base side : Item) : Option (ContainerParts × ContainerParts) :=
  if !(recursable base.definition.kind && side.definition.kind == base.definition.kind) then none
  else do
    let bp ← splitContainer G base.text
    let sp ← splitContainer G side.text
    if bp.header == sp.header && bp.footer == sp.footer then some (bp, sp) else none

/-- What an item that both sides moved alike comes out as: a container member by member. -/
def agreedBody (G : Grammar) (merge : Segmentation → Segmentation → Str) (base side : Item) : Str :=
  if side.originalText = base.originalText then side.originalText
  else
    match sharedContainer G base side with
    | some (bp, sp) => bp.header ++ merge bp.members sp.members ++ bp.footer
    | none => side.originalText

/-- A side that both sides moved to, put together over a base. -/
def agreedText (G : Grammar) : Nat → Segmentation → Segmentation → Str
  | 0 => reassemble fun _ side => side.originalText
  | depth + 1 => reassemble (agreedBody G (agreedText G depth))

/-- The same with the members in another order, each behind its own gap. -/
def rearrangedText (G : Grammar) : Nat → Segmentation → Segmentation → Str
  | 0 => rearrange fun _ side => side.originalText
  | depth + 1 => rearrange (agreedBody G (rearrangedText G depth))

/-- A side that leaves the gaps alone, down to those between the members of the containers it
    edits. -/
def KeepsGapsWithin (G : Grammar) : Nat → Segmentation → Segmentation → Prop
  | 0, base, side => KeepsGaps base side
  | depth + 1, base, side => KeepsGaps base side ∧
      ∀ (i : Nat) (it s : Item) (bp sp : ContainerParts), base.items[i]? = some it →
        counterpart side (pair base side) i = some s → s.originalText ≠ it.originalText →
        sharedContainer G it s = some (bp, sp) → KeepsGapsWithin G depth bp.members sp.members

/-- A side that keeps the layout of a base, down to the members of the containers it edits. -/
def KeepsLayoutWithin (G : Grammar) : Nat → Segmentation → Segmentation → Prop
  | 0, base, side => KeepsLayout base side
  | depth + 1, base, side => KeepsLayout base side ∧
      ∀ (i : Nat) (it s : Item) (bp sp : ContainerParts), base.items[i]? = some it →
        counterpart side (pair base side) i = some s → s.originalText ≠ it.originalText →
        sharedContainer G it s = some (bp, sp) → KeepsLayoutWithin G depth bp.members sp.members

/-! ## Layouts -/

theorem rowText_pieces {seg : Segmentation} (h : seg.gaps.length = seg.items.length + 1) :
    rowText ((List.range seg.items.length).filterMap seg.piece) ++ (seg.gaps.getLast?).getD [] = seg.joined := by
  obtain ⟨items, gaps⟩ := seg
  have hloop : ∀ (items : List Item) (gaps : List Str), gaps.length = items.length + 1 →
      rowText ((List.range items.length).filterMap fun j => items[j]?.map fun it =>
        (gaps.getD j [], it.originalText)) ++ (gaps.getLast?).getD [] =
      interleave gaps (items.map Item.originalText) := by
    intro items
    induction items with
    | nil =>
        intro gaps hgaps
        obtain ⟨gap, rfl⟩ := List.length_eq_one_iff.mp hgaps
        rfl
    | cons it items ih =>
        intro gaps hgaps
        match gaps, hgaps with
        | gap :: next :: gaps, hgaps =>
            have hrest := ih (next :: gaps) (by simpa using hgaps)
            rw [List.map_cons, interleave, ← hrest, List.length_cons, List.range_succ_eq_map, List.filterMap_cons,
              List.filterMap_map]
            simp only [List.getElem?_cons_zero, Option.map_some, List.getD_cons_zero, rowText,
              List.flatMap_cons, List.append_assoc, List.getLast?_cons_cons]
            rfl
  exact hloop items gaps h

theorem filterMap_zipIdx_snd {α β : Type} (xs : List α) (f : Nat → Option β) :
    xs.zipIdx.filterMap (fun entry => f entry.2) = (List.range xs.length).filterMap f := by
  have hsnd : xs.zipIdx.map Prod.snd = List.range xs.length := by
    rw [List.zipIdx_map_snd, List.range_eq_range']
  rw [← hsnd, List.filterMap_map]
  rfl

theorem getElem?_of_getD {α : Type} {xs : List (Option α)} {i : Nat} {a : α} (h : xs.getD i none = some a) :
    xs[i]? = some (some a) := by
  rw [List.getD_eq_getElem?_getD] at h
  cases hget : xs[i]? with
  | none => simp [hget] at h
  | some entry => simpa [hget] using h

/-- Behind the gaps that a side leaves alone its items come out behind their own. -/
theorem KeepsGaps.reassemble_congr {base side : Segmentation} (h : KeepsGaps base side) {body body' : Item → Item → Str}
    (hbody : ∀ (i : Nat) (it s : Item), base.items[i]? = some it →
      counterpart side (pair base side) i = some s → body it s = body' it s) :
    Omoplata.reassemble body base side = rearrange body' base side := by
  unfold Omoplata.reassemble rearrange
  dsimp only
  rw [h.trailing]
  congr 3
  refine List.filterMap_congr fun entry hentry => ?_
  obtain ⟨it, i⟩ := entry
  dsimp only
  cases hpaired : (pair base side).baseToSide.getD i none with
  | none =>
      unfold counterpart
      rw [hpaired]
      rfl
  | some j =>
      have hcounter : counterpart side (pair base side) i = side.items[j]? := by
        unfold counterpart
        rw [hpaired]
        rfl
      rw [hcounter, Option.bind_some, h.gaps i j (getElem?_of_getD hpaired)]
      cases hs : side.items[j]? with
      | none => rfl
      | some s =>
          rw [Option.map_some, Option.map_some, hbody i it s (List.mem_zipIdx_iff_getElem?.mp hentry)
            (hcounter.trans hs)]

theorem KeepsGaps.reassemble {base side : Segmentation} (h : KeepsGaps base side) (body : Item → Item → Str) :
    Omoplata.reassemble body base side = rearrange body base side :=
  h.reassemble_congr fun _ _ _ _ _ => rfl

/-- A side that leaves the gaps alone down to the members comes out behind its own. -/
theorem agreedText_keepsGaps {G : Grammar} {depth : Nat} {base side : Segmentation}
    (h : KeepsGapsWithin G depth base side) : agreedText G depth base side = rearrangedText G depth base side := by
  induction depth generalizing base side with
  | zero => exact h.reassemble _
  | succ depth ih =>
      refine h.1.reassemble_congr fun i it s hit hs => ?_
      unfold agreedBody
      by_cases hsame : s.originalText = it.originalText
      · rw [if_pos hsame, if_pos hsame]
      · rw [if_neg hsame, if_neg hsame]
        cases hshared : sharedContainer G it s with
        | none => rfl
        | some parts =>
            obtain ⟨bp, sp⟩ := parts
            dsimp only
            rw [ih (h.2 i it s bp sp hit hs hsame hshared)]

/-- A side with its surviving items in base order, in front of the added ones, is spelled by its
    own pieces. -/
theorem KeepsLayout.rearrange_eq {base side : Segmentation} (h : KeepsLayout base side)
    (hside : side.gaps.length = side.items.length + 1) :
    rearrange (fun _ s => s.originalText) base side = side.joined := by
  have hpieces : base.items.zipIdx.filterMap (fun (_, i) => ((pair base side).baseToSide.getD i none).bind fun j =>
      side.items[j]?.map fun s => (side.gaps.getD j [], s.originalText)) =
      ((List.range base.items.length).filterMap fun i => (pair base side).baseToSide.getD i none).filterMap
        side.piece := by
    rw [List.filterMap_filterMap, ← filterMap_zipIdx_snd base.items]
    rfl
  unfold rearrange
  dsimp only
  rw [hpieces, ← List.filterMap_append, h.order]
  exact rowText_pieces hside

/-- A side that keeps the layout comes out as it is. -/
theorem KeepsLayout.reassemble {base side : Segmentation} (h : KeepsLayout base side)
    (hside : side.gaps.length = side.items.length + 1) {body : Item → Item → Str}
    (hbody : ∀ (i : Nat) (it s : Item), base.items[i]? = some it →
      counterpart side (pair base side) i = some s → body it s = s.originalText) :
    Omoplata.reassemble body base side = side.joined :=
  (h.toKeepsGaps.reassemble_congr hbody).trans (h.rearrange_eq hside)

/-! ## One side -/

section

variable {container : Item → Item → Item → Option Resolution}

theorem keepOrCarry_body (side : Item) :
    (keepOrCarry side).body = some side.originalText ∧ (keepOrCarry side).conflicts = [] := by
  unfold keepOrCarry
  split <;> exact ⟨rfl, rfl⟩

/-- An item that the right side leaves as it is comes out as on the left. -/
theorem resolveBaseItem_left (base : Item) (l : Option Item) :
    (resolveBaseItem container base l (some base)).body = l.map Item.originalText ∧
      (resolveBaseItem container base l (some base)).conflicts = [] := by
  cases l with
  | none => simp [resolveBaseItem, Resolution.body, Resolution.conflicts]
  | some l =>
      unfold resolveBaseItem
      by_cases hl : l.originalText = base.originalText
      · simp only [hl, ne_eq, not_true_eq_false, decide_false, Option.map_some]
        split <;> exact ⟨rfl, rfl⟩
      · simp only [hl, ne_eq, not_false_eq_true, not_true_eq_false, decide_true, decide_false, Option.map_some]
        exact keepOrCarry_body l

theorem resolveBaseItem_right (base : Item) (r : Option Item) :
    (resolveBaseItem container base (some base) r).body = r.map Item.originalText ∧
      (resolveBaseItem container base (some base) r).conflicts = [] := by
  cases r with
  | none => simp [resolveBaseItem, Resolution.body, Resolution.conflicts]
  | some r =>
      unfold resolveBaseItem
      by_cases hr : r.originalText = base.originalText
      · simp only [hr, ne_eq, not_true_eq_false, decide_false, Option.map_some]
        split <;> exact ⟨rfl, rfl⟩
      · simp only [hr, ne_eq, not_false_eq_true, not_true_eq_false, decide_true, decide_false, Option.map_some]
        exact keepOrCarry_body r

/-- A base item is its own counterpart in the base. -/
theorem counterpart_self {base : Segmentation} {it : Item} {i : Nat} (h : base.items[i]? = some it) :
    counterpart base (pair base base) i = some it := by
  obtain ⟨hlt, -⟩ := List.getElem?_eq_some_iff.mp h
  unfold counterpart
  rw [List.getD_eq_getElem?_getD, (pair_self base).1 i hlt]
  exact h

/-- Two sides whose base items settle as those of one side, without a conflict. -/
theorem settleBase_reassemble {resolve : Item → Option Item → Option Item → Resolution}
    {base left right side : Segmentation} {body : Item → Item → Str}
    (h : ∀ (i : Nat) (it : Item), base.items[i]? = some it →
      (settled resolve left right (pair base left) (pair base right) (it, i)).body =
          (counterpart side (pair base side) i).map (body it) ∧
        (settled resolve left right (pair base left) (pair base right) (it, i)).conflicts = []) :
    (settleBase resolve base left right (pair base left) (pair base right) ⟨[], [], []⟩).out =
        base.items.zipIdx.filterMap (fun (it, i) =>
          (counterpart side (pair base side) i).map fun s => (base.gaps.getD i [], body it s)) ∧
      (settleBase resolve base left right (pair base left) (pair base right) ⟨[], [], []⟩).conflicts = [] := by
  obtain ⟨hout, hconflicts⟩ :=
    settleBase_eq resolve base left right (pair base left) (pair base right) ⟨[], [], []⟩
  rw [hout, hconflicts, List.nil_append, List.nil_append]
  refine ⟨List.filterMap_congr fun entry hentry => ?_, List.flatMap_eq_nil_iff.mpr fun entry hentry => ?_⟩
  · obtain ⟨it, i⟩ := entry
    unfold settledPiece
    rw [(h i it (List.mem_zipIdx_iff_getElem?.mp hentry)).1, Option.map_map]
    rfl
  · exact (h entry.2 entry.1 (List.mem_zipIdx_iff_getElem?.mp hentry)).2

/-- Where only the left side moved it comes out in the order of reassembly. -/
theorem structuralMergeWith_left (base side : Segmentation) :
    (structuralMergeWith (resolveBaseItem container) base side base).conflicts = [] ∧
      (structuralMergeWith (resolveBaseItem container) base side base).merged =
        reassemble (fun _ s => s.originalText) base side := by
  obtain ⟨hout, hconflicts⟩ := @settleBase_reassemble (resolveBaseItem container) base side base side
    (fun _ s => s.originalText) fun i it hit => by
      unfold settled
      dsimp only
      rw [counterpart_self hit]
      exact resolveBaseItem_left it _
  obtain ⟨hpushed, hpushedConflicts⟩ := foldl_pushItem side (pair base side).added
    (settleBase (resolveBaseItem container) base side base (pair base side) (pair base base) ⟨[], [], []⟩)
  unfold structuralMergeWith
  dsimp only
  rw [addLeft_nil (pair_self base).2, addRight_eq, (pair_self base).2, List.filter_nil, List.foldl_nil]
  dsimp only
  rw [hpushed, hpushedConflicts, hconflicts, hout]
  exact ⟨rfl, rfl⟩

/-- Where only the right side moved it comes out in the order of reassembly. -/
theorem structuralMergeWith_right (base side : Segmentation) :
    (structuralMergeWith (resolveBaseItem container) base base side).conflicts = [] ∧
      (structuralMergeWith (resolveBaseItem container) base base side).merged =
        reassemble (fun _ s => s.originalText) base side := by
  obtain ⟨hout, hconflicts⟩ := @settleBase_reassemble (resolveBaseItem container) base base side side
    (fun _ s => s.originalText) fun i it hit => by
      unfold settled
      dsimp only
      rw [counterpart_self hit]
      exact resolveBaseItem_right it _
  obtain ⟨hpushed, hpushedConflicts⟩ := foldl_pushItem side (pair base side).added
    (settleBase (resolveBaseItem container) base base side (pair base base) (pair base side) ⟨[], [], []⟩)
  have hunconsumed : (pair base side).added.filter (fun j => !(side.items.map fun _ => false).getD j false) =
      (pair base side).added := by
    refine List.filter_eq_self.mpr fun j _ => ?_
    rw [show (side.items.map fun _ => false).getD j false = false from flagged_map_false side.items j]
    rfl
  -- the left side is the base, so it adds nothing and no item of the right is used up
  have hleft : ∀ a : Assembly, addLeft base side (pair base base) (pair base side) a =
      (a, side.items.map fun _ => false) := fun a => by
    rw [addLeft_eq, (pair_self base).2, List.foldl_nil]
  unfold structuralMergeWith
  dsimp only
  rw [hleft, addRight_eq]
  dsimp only
  rw [hunconsumed, hpushed, hpushedConflicts, hconflicts, hout]
  exact ⟨rfl, rfl⟩

/-! ## Both sides alike -/

/-- Where both sides moved alike the side comes out in the order of reassembly, each item as
    it settles. -/
theorem structuralMergeWith_both {base side : Segmentation} {body : Item → Item → Str}
    (h : ∀ (i : Nat) (it s : Item), base.items[i]? = some it → counterpart side (pair base side) i = some s →
      (resolveBaseItem container it (some s) (some s)).body = some (body it s) ∧
        (resolveBaseItem container it (some s) (some s)).conflicts = []) :
    (structuralMergeWith (resolveBaseItem container) base side side).conflicts = [] ∧
      (structuralMergeWith (resolveBaseItem container) base side side).merged = reassemble body base side := by
  obtain ⟨hout, hconflicts⟩ := @settleBase_reassemble (resolveBaseItem container) base side side side
    body fun i it hit => by
      unfold settled
      dsimp only
      cases hs : counterpart side (pair base side) i with
      | none => exact ⟨rfl, rfl⟩
      | some s => exact h i it s hit hs
  obtain ⟨hleft, hconsumed⟩ := addLeft_self (pair_ok base side)
    (settleBase (resolveBaseItem container) base side side (pair base side) (pair base side) ⟨[], [], []⟩)
  obtain ⟨hpushed, hpushedConflicts⟩ := foldl_pushItem side (pair base side).added
    (settleBase (resolveBaseItem container) base side side (pair base side) (pair base side) ⟨[], [], []⟩)
  have hnone : (pair base side).added.filter (fun j => !(addLeft side side (pair base side) (pair base side)
      (settleBase (resolveBaseItem container) base side side (pair base side) (pair base side)
        ⟨[], [], []⟩)).2.getD j false) = [] := by
    refine List.filter_eq_nil_iff.mpr fun j hj => ?_
    rw [hconsumed j hj]
    decide
  unfold structuralMergeWith
  dsimp only
  rw [addRight_eq, hnone, List.foldl_nil, hleft, hpushed, hpushedConflicts, hconflicts, hout]
  exact ⟨rfl, rfl⟩

/-- An item that both sides moved alike, without conflict values. -/
theorem resolveBaseItem_both {it s : Item} (h : s.originalText ≠ it.originalText → s.carried = []) :
    resolveBaseItem container it (some s) (some s) =
      if s.originalText = it.originalText then
        if it.carried.isEmpty then .keep it.originalText else .carry it.originalText it.carried
      else (container it s s).getD (interiorMerge it s s) := by
  unfold resolveBaseItem
  by_cases hs : s.originalText = it.originalText
  · simp only [hs, ne_eq, not_true_eq_false, decide_false, if_true]
  · simp only [hs, ne_eq, not_false_eq_true, decide_true, if_false, h hs, List.isEmpty_nil, Bool.not_true,
      Bool.or_self, Bool.false_eq_true]

end

theorem interiorMerge_both (base s : Item) : interiorMerge base s s = .keep s.text := by
  unfold interiorMerge
  simp only [merge3_same, Doc.toStr_fromStr]
  rfl

theorem tryContainerMerge_both (G : Grammar)
    (merge : Segmentation → Segmentation → Segmentation → DriverOutput) (base s : Item) :
    tryContainerMerge G merge base s s = (sharedContainer G base s).map fun (bp, sp) =>
      let out := merge bp.members sp.members sp.members
      let rendered := bp.header ++ out.merged ++ bp.footer
      if out.conflicts.isEmpty && out.carried.isEmpty then .keep rendered
      else if out.conflicts.isEmpty then .carry rendered out.carried
      else .conflict rendered (out.conflicts ++ out.carried) := by
  unfold tryContainerMerge sharedContainer
  rw [Bool.and_assoc, Bool.and_self]
  split
  · rfl
  · cases splitContainer G base.text with
    | none => rfl
    | some bp =>
        cases splitContainer G s.text with
        | none => rfl
        | some sp =>
            simp only [Option.bind_eq_bind, Option.bind_some, Bool.and_self]
            cases bp.header == sp.header with
            | false => rfl
            | true =>
                cases bp.footer == sp.footer with
                | false => rfl
                | true =>
                    simp only [Bool.not_true, Bool.false_eq_true, if_false, Bool.and_self, if_true, Option.map_some]
                    split
                    · rfl
                    · split <;> rfl

theorem sharedContainer_ok {G : Grammar} {base s : Item} {bp sp : ContainerParts}
    (h : sharedContainer G base s = some (bp, sp)) :
    splitContainer G s.text = some sp ∧ bp.header = sp.header ∧ bp.footer = sp.footer := by
  unfold sharedContainer at h
  split at h
  · simp at h
  · obtain ⟨bp', -, h⟩ := Option.bind_eq_some_iff.mp h
    obtain ⟨sp', hsplit, h⟩ := Option.bind_eq_some_iff.mp h
    split at h
    · rename_i hshell
      obtain ⟨rfl, rfl⟩ := Prod.mk.inj (Option.some.inj h)
      rw [Bool.and_eq_true, beq_iff_eq, beq_iff_eq] at hshell
      exact ⟨hsplit, hshell⟩
    · simp at h

/-- The items that both sides moved carry no conflict values. -/
def Resolved (base side : Segmentation) : Prop :=
  ∀ (i : Nat) (it s : Item), base.items[i]? = some it → counterpart side (pair base side) i = some s →
    s.originalText ≠ it.originalText → s.carried = []

theorem structuralMerge_both (G : Grammar) (depth : Nat) {base side : Segmentation}
    (horiginals : ∀ it ∈ side.items, it.carried = [] → it.originalText = it.text) (h : Resolved base side) :
    (structuralMerge G depth base side side).conflicts = [] ∧
      (structuralMerge G depth base side side).merged = agreedText G depth base side := by
  induction depth generalizing base side with
  | zero =>
      -- at depth zero an item that both sides changed alike is merged line by line
      refine structuralMergeWith_both fun i it s hit hs => ?_
      rw [resolveBaseItem_both (h i it s hit hs)]
      by_cases hsame : s.originalText = it.originalText
      · rw [if_pos hsame, hsame]
        split <;> exact ⟨rfl, rfl⟩
      · rw [if_neg hsame, Option.getD_none, interiorMerge_both,
          ← horiginals s (mem_of_counterpart hs) (h i it s hit hs hsame)]
        exact ⟨rfl, rfl⟩
  | succ depth ih =>
      refine structuralMergeWith_both fun i it s hit hs => ?_
      rw [resolveBaseItem_both (h i it s hit hs)]
      unfold agreedBody
      by_cases hsame : s.originalText = it.originalText
      · rw [if_pos hsame, if_pos hsame, hsame]
        split <;> exact ⟨rfl, rfl⟩
      · rw [if_neg hsame, if_neg hsame, tryContainerMerge_both]
        cases hshared : sharedContainer G it s with
        | none =>
            rw [Option.map_none, Option.getD_none, interiorMerge_both,
              ← horiginals s (mem_of_counterpart hs) (h i it s hit hs hsame)]
            exact ⟨rfl, rfl⟩
        | some parts =>
            obtain ⟨bp, sp⟩ := parts
            -- the members of a container are texts of its own, none of them restored
            obtain ⟨-, pos, limit, hcovers⟩ := splitContainer_ok (sharedContainer_ok hshared).1
            obtain ⟨hconflicts, hmerged⟩ := @ih bp.members sp.members
              (fun it hit _ => (hcovers.carried hit).2)
              fun _ _ _ _ hm _ => (hcovers.carried (mem_of_counterpart hm)).1
            simp only [Option.map_some, Option.getD_some, hconflicts, hmerged, List.isEmpty_nil, Bool.true_and,
              if_true]
            split <;> exact ⟨rfl, rfl⟩

/-- A side that keeps the layout down to the members comes out as it is. -/
theorem agreedText_keepsLayout {G : Grammar} {depth : Nat} {base side : Segmentation}
    (hside : side.gaps.length = side.items.length + 1)
    (horiginals : ∀ it ∈ side.items, it.carried = [] → it.originalText = it.text) (hresolved : Resolved base side)
    (h : KeepsLayoutWithin G depth base side) : agreedText G depth base side = side.joined := by
  induction depth generalizing base side with
  | zero => exact h.reassemble hside fun _ _ _ _ _ => rfl
  | succ depth ih =>
      refine h.1.reassemble hside fun i it s hit hs => ?_
      unfold agreedBody
      by_cases hsame : s.originalText = it.originalText
      · rw [if_pos hsame]
      -- a container keeps its layout by its members, an item of another kind by its text
      · rw [if_neg hsame]
        cases hshared : sharedContainer G it s with
        | none => rfl
        | some parts =>
            obtain ⟨bp, sp⟩ := parts
            obtain ⟨hsplit, hheader, hfooter⟩ := sharedContainer_ok hshared
            obtain ⟨htext, pos, limit, hcovers⟩ := splitContainer_ok hsplit
            have hmembers := @ih bp.members sp.members hcovers.length_gaps
              (fun it hit _ => (hcovers.carried hit).2)
              (fun _ _ _ _ hm _ => (hcovers.carried (mem_of_counterpart hm)).1)
              (h.2 i it s bp sp hit hs hsame hshared)
            dsimp only
            rw [hmembers, hheader, hfooter, htext]
            exact (horiginals s (mem_of_counterpart hs) (hresolved i it s hit hs hsame)).symm

/-! ## The driver -/

/-- What the driver does with a side against a base: no conflict, the items of the side in
    the order of reassembly where it leaves the gaps alone, and the side itself where it
    keeps the layout. -/
structure TakesSide (out : DriverOutput) (gaps : Prop) (rearranged : Str) (layout : Prop) (x : Str) : Prop where
  conflicts : out.conflicts = []
  merged : gaps → out.merged = rearranged
  exact : layout → out.merged = x

/-- The line driver takes the side that moved. -/
theorem rustMerge_takes_line {G : Grammar} {b x path : Str}
    (h : textSegmentation G b = none ∨ textSegmentation G x = none) :
    ∀ input ∈ [(⟨b, x, b, path⟩ : MergeInput), ⟨b, b, x, path⟩, ⟨b, x, x, path⟩],
      (rustMerge G input).conflicts = [] ∧ (rustMerge G input).merged = x := by
  have hclosed : ∀ input : MergeInput, input.base = b → (input.left = x ∨ input.right = x) →
      rustMerge G input = lineMerge input := by
    intro input hbase hsides
    have hnone : structuralSides G input = none := by
      rw [structuralSides_eq, hbase]
      rcases h with hb | hx
      · rw [hb]
        rfl
      · rcases hsides with hleft | hright
        · rw [hleft, hx]
          cases textSegmentation G b <;> rfl
        · rw [hright, hx]
          cases textSegmentation G b <;> cases textSegmentation G input.left <;> rfl
    unfold rustMerge
    rw [hnone]
  intro input hinput
  simp only [List.mem_cons, List.not_mem_nil, or_false] at hinput
  rcases hinput with rfl | rfl | rfl
  · rw [hclosed _ rfl (.inl rfl), lineMerge_base_right]
    exact ⟨rfl, rfl⟩
  · rw [hclosed _ rfl (.inr rfl), lineMerge_base_left]
    exact ⟨rfl, rfl⟩
  · rw [hclosed _ rfl (.inl rfl), lineMerge_same]
    exact ⟨rfl, rfl⟩

/-- Where the structural path is open, the sides of an input are put together. -/
theorem rustMerge_of_segmentations {G : Grammar} {input : MergeInput} {base left right : Segmentation}
    (hbase : textSegmentation G input.base = some base) (hleft : textSegmentation G input.left = some left)
    (hright : textSegmentation G input.right = some right) :
    rustMerge G input = structuralMerge G maxContainerDepth base left right := by
  unfold rustMerge
  rw [structuralSides_eq, hbase, hleft, hright]
  rfl

/-- Where only one side moved the driver puts it together over the base. -/
theorem rustMerge_reassembles {G : Grammar} {b x : Str} {base side : Segmentation}
    (hb : textSegmentation G b = some base) (hx : textSegmentation G x = some side) (path : Str) :
    ∀ input ∈ [(⟨b, x, b, path⟩ : MergeInput), ⟨b, b, x, path⟩], (rustMerge G input).conflicts = [] ∧
      (rustMerge G input).merged = reassemble (fun _ s => s.originalText) base side := by
  intro input hinput
  simp only [List.mem_cons, List.not_mem_nil, or_false] at hinput
  rcases hinput with rfl | rfl
  · rw [rustMerge_of_segmentations hb hx hb]
    exact @structuralMergeWith_left (tryContainerMerge G (structuralMerge G 2)) base side
  · rw [rustMerge_of_segmentations hb hb hx]
    exact @structuralMergeWith_right (tryContainerMerge G (structuralMerge G 2)) base side

/-- Where one side moved, or both alike without conflict values in what they moved, the driver
    reports no conflict; where the side leaves the gaps alone it gives its items in the order
    of reassembly, each behind its own gap, and that is the side itself where it keeps the
    layout of the base. The line driver, which takes over where the structural path is
    closed, gives the side as it is. -/
theorem rustMerge_takes_side (G : Grammar) (b x path : Str) :
    match textSegmentation G b, textSegmentation G x with
    | some base, some side =>
        (∀ input ∈ [(⟨b, x, b, path⟩ : MergeInput), ⟨b, b, x, path⟩], TakesSide (rustMerge G input)
          (KeepsGaps base side) (rearrange (fun _ s => s.originalText) base side) (KeepsLayout base side) x) ∧
        (Resolved base side → TakesSide (rustMerge G ⟨b, x, x, path⟩)
          (KeepsGapsWithin G maxContainerDepth base side) (rearrangedText G maxContainerDepth base side)
          (KeepsLayoutWithin G maxContainerDepth base side) x)
    | _, _ => ∀ input ∈ [(⟨b, x, b, path⟩ : MergeInput), ⟨b, b, x, path⟩, ⟨b, x, x, path⟩],
        (rustMerge G input).conflicts = [] ∧ (rustMerge G input).merged = x := by
  cases hb : textSegmentation G b with
  | none => exact rustMerge_takes_line (.inl hb)
  | some base =>
      cases hx : textSegmentation G x with
      | none => exact rustMerge_takes_line (.inr hx)
      | some side =>
          have hside := textSegmentation_segments hx
          refine ⟨fun input hinput => ?_, fun hresolved => ?_⟩
          · obtain ⟨hconflicts, hmerged⟩ := rustMerge_reassembles hb hx path input hinput
            exact ⟨hconflicts, fun hgaps => hmerged.trans (hgaps.reassemble _),
              fun hlayout => hmerged.trans
                ((hlayout.reassemble hside.gaps fun _ _ _ _ _ => rfl).trans hside.joined)⟩
          · rw [rustMerge_of_segmentations hb hx hx]
            obtain ⟨hconflicts, hmerged⟩ := structuralMerge_both G maxContainerDepth hside.originals hresolved
            exact ⟨hconflicts, fun hgaps => hmerged.trans (agreedText_keepsGaps hgaps),
              fun hlayout => hmerged.trans
                ((agreedText_keepsLayout hside.gaps hside.originals hresolved hlayout).trans hside.joined)⟩

/-- A grammar that knows two functions in either order. -/
def twoFnGrammar : Grammar :=
  tableGrammar
    [("fn a() {}\nfn b() {}\n".toList,
        [fnDefinition "a".toList ⟨0, 9⟩ "a".toList, fnDefinition "b".toList ⟨10, 19⟩ "b".toList]),
      ("fn b() {}\nfn a() {}\n".toList,
        [fnDefinition "b".toList ⟨0, 9⟩ "b".toList, fnDefinition "a".toList ⟨10, 19⟩ "a".toList])]
    (by decide)

/-- A side that puts two functions in another order comes out in base order. -/
theorem rustMerge_keeps_base_order :
    let b := "fn a() {}\nfn b() {}\n".toList
    let x := "fn b() {}\nfn a() {}\n".toList
    (rustMerge twoFnGrammar ⟨b, x, b, "m.rs".toList⟩).merged = b ∧
      ¬ ∀ base side : Str, (rustMerge twoFnGrammar ⟨base, side, base, "m.rs".toList⟩).merged = side := by
  have hmerged : (rustMerge twoFnGrammar ⟨"fn a() {}\nfn b() {}\n".toList, "fn b() {}\nfn a() {}\n".toList,
      "fn a() {}\nfn b() {}\n".toList, "m.rs".toList⟩).merged = "fn a() {}\nfn b() {}\n".toList := by
    decide +kernel
  exact ⟨hmerged, fun h => absurd (hmerged.symm.trans (h _ _)) (by decide)⟩

end Omoplata
