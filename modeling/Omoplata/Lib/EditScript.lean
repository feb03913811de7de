-- SUMMARY: Positional edits of a list, and two-sided scripts that interleave two lists of edits over one base.
import Mathlib.Algebra.GroupWithZero.Nat
import Mathlib.Algebra.Ring.Int.Defs
import Mathlib.Data.List.Basic

/-!
# Edits and two-sided edit scripts

An `Edit` replaces a span of a list. A list of edits `Fits` a base when its
spans are in order, disjoint and match the base; `splice` then carries them out.

Two lists of edits that fit one base and are pairwise separable can be laid out
side by side: a *script* cuts the base into single kept elements and spans
edited by the left list or by the right one. Every reading of a script (the
base, either side applied, both applied) is a `flatMap`, so the commuting square
of two such lists is a fact about one script rather than about two sets of
coordinates.
-/

namespace ListEdit

universe u
variable {α : Type u}

/-- One positional edit: the elements `remove`, found at `baseStart`, give way
    to `insert`. -/
structure Edit (α : Type u) where
  baseStart : Nat
  remove : List α
  insert : List α
  deriving DecidableEq, Repr

namespace Edit

/-- One past the last element the edit removes. -/
def stop (e : Edit α) : Nat := e.baseStart + e.remove.length

/-- How much longer the edit makes the list. -/
def delta (e : Edit α) : Int := (e.insert.length : Int) - (e.remove.length : Int)

/-- Two edits are separable when exactly one of the two orders is possible. Two
    insertions at one point have both orders, overlapping spans have none. -/
def Separable (e f : Edit α) : Prop :=
  ¬(e.stop ≤ f.baseStart ↔ f.stop ≤ e.baseStart)

theorem Separable.symm {e f : Edit α} (h : e.Separable f) : f.Separable e :=
  fun h' => h h'.symm

theorem baseStart_le_stop (e : Edit α) : e.baseStart ≤ e.stop :=
  Nat.le_add_right _ _

/-- A separable edit that does not come first comes after. -/
theorem Separable.before_or_after {e f : Edit α} (h : e.Separable f) :
    e.stop ≤ f.baseStart ∨ f.stop ≤ e.baseStart := by
  unfold Separable at h
  omega

theorem Separable.not_after {e f : Edit α} (h : e.Separable f)
    (hb : e.stop ≤ f.baseStart) : ¬ f.stop ≤ e.baseStart :=
  fun ha => h ⟨fun _ => ha, fun _ => hb⟩

end Edit

/-! ## Carrying out a list of edits -/

/-- The edits `es`, read from position `pos` of `b` on, are in order, inside `b`
    and remove what `b` holds there. -/
def Fits (b : List α) : Nat → List (Edit α) → Prop
  | _, [] => True
  | pos, e :: es =>
      pos ≤ e.baseStart ∧ e.stop ≤ b.length ∧
        (b.drop e.baseStart).take e.remove.length = e.remove ∧ Fits b e.stop es

/-- The list `b` from position `pos` on, with the edits `es` carried out. -/
def splice (b : List α) : Nat → List (Edit α) → List α
  | pos, [] => b.drop pos
  | pos, e :: es =>
      (b.drop pos).take (e.baseStart - pos) ++ e.insert ++ splice b e.stop es

theorem Fits.pos_le {b : List α} {pos : Nat} {es : List (Edit α)} (h : Fits b pos es) :
    ∀ e ∈ es, pos ≤ e.baseStart := by
  induction es generalizing pos with
  | nil => simp
  | cons e es ih =>
      obtain ⟨hpos, -, -, htail⟩ := h
      intro f hf
      rcases List.mem_cons.mp hf with rfl | hf
      · exact hpos
      · have := ih htail f hf
        have := e.baseStart_le_stop
        omega

theorem Fits.stop_le {b : List α} {pos : Nat} {es : List (Edit α)} (h : Fits b pos es) :
    ∀ e ∈ es, e.stop ≤ b.length := by
  induction es generalizing pos with
  | nil => simp
  | cons e es ih =>
      intro f hf
      rcases List.mem_cons.mp hf with rfl | hf
      · exact h.2.1
      · exact ih h.2.2.2 f hf

theorem Fits.context {b : List α} {pos : Nat} {es : List (Edit α)} (h : Fits b pos es) :
    ∀ e ∈ es, (b.drop e.baseStart).take e.remove.length = e.remove := by
  induction es generalizing pos with
  | nil => simp
  | cons e es ih =>
      intro f hf
      rcases List.mem_cons.mp hf with rfl | hf
      · exact h.2.2.1
      · exact ih h.2.2.2 f hf

/-- Fitting from a position on is only weaker from an earlier one. -/
theorem Fits.mono {b : List α} {pos pos' : Nat} {es : List (Edit α)} (hle : pos' ≤ pos)
    (h : Fits b pos es) : Fits b pos' es := by
  cases es with
  | nil => trivial
  | cons e es => exact ⟨Nat.le_trans hle h.1, h.2⟩

/-- Dropping edits keeps a list of edits fitting. -/
theorem Fits.sublist {b : List α} {pos : Nat} {es fs : List (Edit α)} (hsub : fs.Sublist es)
    (h : Fits b pos es) : Fits b pos fs := by
  induction hsub generalizing pos with
  | slnil => trivial
  | cons e _ ih =>
      exact ih (h.2.2.2.mono (Nat.le_trans h.1 e.baseStart_le_stop))
  | cons_cons e _ ih => exact ⟨h.1, h.2.1, h.2.2.1, ih h.2.2.2⟩

/-- A splice that starts early copies the base up to a later start. -/
theorem splice_eq_take_append {b : List α} {pos pos' : Nat} {es : List (Edit α)}
    (hle : pos ≤ pos') (h : Fits b pos' es) :
    splice b pos es = (b.drop pos).take (pos' - pos) ++ splice b pos' es := by
  cases es with
  | nil =>
      have hdrop : b.drop pos' = (b.drop pos).drop (pos' - pos) := by
        rw [List.drop_drop, Nat.add_sub_cancel' hle]
      simp only [splice, hdrop, List.take_append_drop]
  | cons e es =>
      have hsum : e.baseStart - pos = (pos' - pos) + (e.baseStart - pos') := by
        have := h.1
        omega
      simp only [splice, hsum, List.take_add, List.drop_drop, Nat.add_sub_cancel' hle,
        List.append_assoc]

/-- An edit moved `n` elements further on. -/
def Edit.moveBy (n : Nat) (e : Edit α) : Edit α := { e with baseStart := e.baseStart + n }

/-! ## What edits leave -/

/-- How many elements some edits remove. -/
def removed (es : List (Edit α)) : Nat := (es.map fun e => e.remove.length).sum

/-- How many elements some edits insert. -/
def inserted (es : List (Edit α)) : Nat := (es.map fun e => e.insert.length).sum

/-- The elements of `b` from position `pos` on that the edits `es` leave. -/
def kept (b : List α) : Nat → List (Edit α) → List α
  | pos, [] => b.drop pos
  | pos, e :: es => (b.drop pos).take (e.baseStart - pos) ++ kept b e.stop es

@[simp] theorem removed_nil : removed ([] : List (Edit α)) = 0 := rfl

@[simp] theorem removed_cons (e : Edit α) (es : List (Edit α)) : removed (e :: es) = e.remove.length + removed es :=
  List.sum_cons

@[simp] theorem inserted_nil : inserted ([] : List (Edit α)) = 0 := rfl

@[simp] theorem inserted_cons (e : Edit α) (es : List (Edit α)) : inserted (e :: es) = e.insert.length + inserted es :=
  List.sum_cons

theorem kept_sublist_base {b : List α} {pos : Nat} {es : List (Edit α)} (h : Fits b pos es) :
    (kept b pos es).Sublist (b.drop pos) := by
  induction es generalizing pos with
  | nil => exact List.Sublist.refl _
  | cons e es ih =>
      obtain ⟨hpos, -, -, hrest⟩ := h
      have hle : e.baseStart ≤ e.stop := e.baseStart_le_stop
      have hjoin : (b.drop pos).take (e.baseStart - pos) ++ b.drop e.baseStart = b.drop pos := by
        rw [← Nat.add_sub_cancel' hpos, ← List.drop_drop, Nat.add_sub_cancel_left, List.take_append_drop]
      have hsub := (List.Sublist.refl ((b.drop pos).take (e.baseStart - pos))).append
        ((ih hrest).trans (List.drop_sublist_drop_left b hle))
      rwa [hjoin] at hsub

theorem kept_sublist_splice (b : List α) (pos : Nat) (es : List (Edit α)) :
    (kept b pos es).Sublist (splice b pos es) := by
  induction es generalizing pos with
  | nil => exact List.Sublist.refl _
  | cons e es ih =>
      rw [kept, splice, List.append_assoc]
      exact (List.Sublist.refl _).append ((ih e.stop).trans (List.sublist_append_right _ _))

/-- What edits remove and what they leave make up the base. -/
theorem length_kept_add_removed {b : List α} {pos : Nat} {es : List (Edit α)} (h : Fits b pos es)
    (hpos : pos ≤ b.length) : pos + (kept b pos es).length + removed es = b.length := by
  induction es generalizing pos with
  | nil => simp [kept, hpos]
  | cons e es ih =>
      obtain ⟨hle, hstop, -, hrest⟩ := h
      have hself := ih hrest hstop
      have htake : ((b.drop pos).take (e.baseStart - pos)).length = e.baseStart - pos := by
        rw [List.length_take, List.length_drop]
        have hend := e.baseStart_le_stop
        omega
      rw [kept, removed_cons, List.length_append, htake]
      have hend : e.stop = e.baseStart + e.remove.length := rfl
      omega

/-- What edits insert and what they leave make up the result. -/
theorem length_splice (b : List α) (pos : Nat) (es : List (Edit α)) :
    (splice b pos es).length = (kept b pos es).length + inserted es := by
  induction es generalizing pos with
  | nil => rfl
  | cons e es ih =>
      rw [splice, kept, inserted_cons, List.length_append, List.length_append, List.length_append, ih]
      omega

/-- The edits with the places of what they insert, from position `pos` of the base and position
    `out` of the result on. -/
def places : Nat → Nat → List (Edit α) → List (Nat × Edit α)
  | _, _, [] => []
  | pos, out, e :: es =>
      let place := out + (e.baseStart - pos)
      (place, e) :: places e.stop (place + e.insert.length) es

theorem map_snd_places (pos out : Nat) (es : List (Edit α)) : (places pos out es).map Prod.snd = es := by
  induction es generalizing pos out with
  | nil => rfl
  | cons e es ih => rw [places, List.map_cons, ih]

/-- What an edit inserts stands at its place in the result. -/
theorem inserted_at_place {b r : List α} {pos out : Nat} {es : List (Edit α)} (hfit : Fits b pos es)
    (hsplice : splice b pos es = r.drop out) (hout : out ≤ r.length) :
    ∀ p ∈ places pos out es,
      p.1 + p.2.insert.length ≤ r.length ∧ (r.drop p.1).take p.2.insert.length = p.2.insert := by
  induction es generalizing pos out with
  | nil => exact fun p hp => absurd hp List.not_mem_nil
  | cons e es ih =>
      obtain ⟨hle, hstop, _, hrest⟩ := hfit
      have htake : ((b.drop pos).take (e.baseStart - pos)).length = e.baseStart - pos := by
        rw [List.length_take, List.length_drop]
        have hend := e.baseStart_le_stop
        omega
      -- the result from the place on is what is inserted and what the later edits make of the rest
      have hplace : r.drop (out + (e.baseStart - pos)) = e.insert ++ splice b e.stop es := by
        rw [← List.drop_drop, ← hsplice, splice, List.append_assoc]
        exact List.drop_left' htake
      have hlength := congrArg List.length hplace
      have hlength' := congrArg List.length hsplice
      simp only [splice, List.length_append, List.length_drop, htake] at hlength hlength'
      have hbound : out + (e.baseStart - pos) + e.insert.length ≤ r.length := by omega
      have hbehind : splice b e.stop es = r.drop (out + (e.baseStart - pos) + e.insert.length) := by
        rw [← List.drop_drop, hplace, List.drop_left]
      intro p hp
      rw [places, List.mem_cons] at hp
      cases hp with
      | inr hlater => exact ih hrest hbehind hbound p hlater
      | inl heq =>
          subst heq
          refine ⟨hbound, ?_⟩
          rw [hplace, List.take_left]

/-! ## Two-sided scripts -/

/-- A piece of a base that two lists of edits share: an element both keep, or a
    span one of the two sides replaces. -/
inductive Seg (α : Type u) where
  | keep (x : α)
  | left (remove insert : List α)
  | right (remove insert : List α)

namespace Seg

/-- What the segment is in the base. -/
def base : Seg α → List α
  | .keep x => [x]
  | .left rem _ => rem
  | .right rem _ => rem

/-- What the segment is once the left edits are carried out. -/
def onLeft : Seg α → List α
  | .keep x => [x]
  | .left _ ins => ins
  | .right rem _ => rem

/-- What the segment is once the right edits are carried out. -/
def onRight : Seg α → List α
  | .keep x => [x]
  | .left rem _ => rem
  | .right _ ins => ins

/-- What the segment is once both sides' edits are carried out. -/
def onBoth : Seg α → List α
  | .keep x => [x]
  | .left _ ins => ins
  | .right _ ins => ins

def isLeft : Seg α → Bool
  | .left .. => true
  | _ => false

def isRight : Seg α → Bool
  | .right .. => true
  | _ => false

def isEdit (s : Seg α) : Bool := s.isLeft || s.isRight

end Seg

/-- The edits that turn the reading `src` of a script into the reading `dst`, at
    the segments `pick` selects, when the script starts at position `pos`. -/
def edits (src dst : Seg α → List α) (pick : Seg α → Bool) : Nat → List (Seg α) → List (Edit α)
  | _, [] => []
  | pos, s :: ss =>
      if pick s then ⟨pos, src s, dst s⟩ :: edits src dst pick (pos + (src s).length) ss
      else edits src dst pick (pos + (src s).length) ss

/-- The left edits in base coordinates. -/
abbrev leftEdits (pos : Nat) (ss : List (Seg α)) : List (Edit α) :=
  edits Seg.base Seg.onLeft Seg.isLeft pos ss

/-- The right edits in base coordinates. -/
abbrev rightEdits (pos : Nat) (ss : List (Seg α)) : List (Edit α) :=
  edits Seg.base Seg.onRight Seg.isRight pos ss

/-- The edits of both sides in base coordinates. -/
abbrev bothEdits (pos : Nat) (ss : List (Seg α)) : List (Edit α) :=
  edits Seg.base Seg.onBoth Seg.isEdit pos ss

/-- The left edits in the coordinates the right edits leave. -/
abbrev leftOverRight (pos : Nat) (ss : List (Seg α)) : List (Edit α) :=
  edits Seg.onRight Seg.onBoth Seg.isLeft pos ss

/-- The right edits in the coordinates the left edits leave. -/
abbrev rightOverLeft (pos : Nat) (ss : List (Seg α)) : List (Edit α) :=
  edits Seg.onLeft Seg.onBoth Seg.isRight pos ss

section Reading

variable {src dst : Seg α → List α} {pick : Seg α → Bool}

/-- The edits of a script fit the reading they start from and produce the one
    they lead to, as long as the segments that are not picked read the same.
    `lag` is where the splice stands: it stays behind over kept segments. -/
theorem fits_splice_edits (hkeep : ∀ s, pick s = false → src s = dst s)
    (ss : List (Seg α)) (pre : List α) (lag : Nat) (hlag : lag ≤ pre.length) :
    Fits (pre ++ ss.flatMap src) lag (edits src dst pick pre.length ss) ∧
      splice (pre ++ ss.flatMap src) lag (edits src dst pick pre.length ss) =
        pre.drop lag ++ ss.flatMap dst := by
  induction ss generalizing pre lag with
  | nil => simp [edits, Fits, splice]
  | cons s ss ih =>
      have hassoc : pre ++ (s :: ss).flatMap src = (pre ++ src s) ++ ss.flatMap src := by simp
      have hlen : (pre ++ src s).length = pre.length + (src s).length := by simp
      cases hp : pick s with
      | false =>
          have h := ih (pre ++ src s) lag (by omega)
          rw [hlen] at h
          simp only [edits, hp, Bool.false_eq_true, if_false, hassoc]
          refine ⟨h.1, h.2.trans ?_⟩
          rw [List.drop_append_of_le_length hlag, hkeep s hp]
          simp
      | true =>
          have h := ih (pre ++ src s) (pre.length + (src s).length) (by omega)
          rw [hlen] at h
          simp only [edits, hp, if_true, Fits, splice, Edit.stop, hassoc]
          refine ⟨⟨hlag, by simp, by simp, h.1⟩, ?_⟩
          rw [h.2]
          simp [List.drop_append_of_le_length hlag]

/-- A whole script fits the reading it starts from. -/
theorem fits_edits (hkeep : ∀ s, pick s = false → src s = dst s) (ss : List (Seg α)) :
    Fits (ss.flatMap src) 0 (edits src dst pick 0 ss) := by
  simpa using (fits_splice_edits hkeep ss [] 0 (Nat.zero_le _)).1

/-- Carrying out the edits of a whole script gives the reading it leads to. -/
theorem splice_edits (hkeep : ∀ s, pick s = false → src s = dst s) (ss : List (Seg α)) :
    splice (ss.flatMap src) 0 (edits src dst pick 0 ss) = ss.flatMap dst := by
  simpa using (fits_splice_edits hkeep ss [] 0 (Nat.zero_le _)).2

theorem edits_append (pos : Nat) (ss ts : List (Seg α)) :
    edits src dst pick pos (ss ++ ts) =
      edits src dst pick pos ss ++ edits src dst pick (pos + (ss.flatMap src).length) ts := by
  induction ss generalizing pos with
  | nil => simp [edits]
  | cons s ss ih =>
      simp only [List.cons_append, edits, ih]
      split <;> simp [Nat.add_assoc]

/-- A script that starts further on has its edits further on. -/
theorem edits_add (pos n : Nat) (ss : List (Seg α)) :
    edits src dst pick (pos + n) ss = (edits src dst pick pos ss).map (Edit.moveBy n) := by
  induction ss generalizing pos with
  | nil => rfl
  | cons s ss ih =>
      have hnext : pos + n + (src s).length = pos + (src s).length + n := by omega
      simp only [edits, hnext, ih]
      split <;> rfl

/-- Kept elements contribute no edit: none of the readings picks them. -/
theorem edits_keep (hpick : ∀ x, pick (.keep x) = false) (pos : Nat) (xs : List α) :
    edits src dst pick pos (xs.map Seg.keep) = [] := by
  induction xs generalizing pos with
  | nil => rfl
  | cons x xs ih => simp [edits, hpick, ih]

theorem le_baseStart_of_mem_edits {pos : Nat} {ss : List (Seg α)} {e : Edit α}
    (he : e ∈ edits src dst pick pos ss) : pos ≤ e.baseStart := by
  induction ss generalizing pos with
  | nil => simp [edits] at he
  | cons s ss ih =>
      simp only [edits] at he
      split at he
      · rcases List.mem_cons.mp he with rfl | he
        · exact Nat.le_refl _
        · have := ih he
          omega
      · have := ih he
        omega

end Reading

section Applied

theorem keep_left (s : Seg α) (h : s.isLeft = false) : s.base = s.onLeft := by
  cases s <;> first | rfl | simp [Seg.isLeft] at h

theorem keep_right (s : Seg α) (h : s.isRight = false) : s.base = s.onRight := by
  cases s <;> first | rfl | simp [Seg.isRight] at h

theorem keep_both (s : Seg α) (h : s.isEdit = false) : s.base = s.onBoth := by
  cases s <;> first | rfl | simp [Seg.isEdit, Seg.isLeft, Seg.isRight] at h

theorem keep_leftOverRight (s : Seg α) (h : s.isLeft = false) : s.onRight = s.onBoth := by
  cases s <;> first | rfl | simp [Seg.isLeft] at h

theorem keep_rightOverLeft (s : Seg α) (h : s.isRight = false) : s.onLeft = s.onBoth := by
  cases s <;> first | rfl | simp [Seg.isRight] at h

end Applied

/-- Kept elements read as themselves. -/
theorem flatMap_keep {read : Seg α → List α} (hread : ∀ x, read (.keep x) = [x]) (xs : List α) :
    (xs.map Seg.keep).flatMap read = xs := by
  induction xs with
  | nil => rfl
  | cons x xs ih => simp [hread, ih]

theorem flatMap_base_keep (xs : List α) : (xs.map Seg.keep).flatMap Seg.base = xs :=
  flatMap_keep (fun _ => rfl) xs

/-! ## Laying two lists of edits out as a script -/

/-- The edits of both lists in base order. -/
def mergeEdits (es fs : List (Edit α)) : List (Edit α) :=
  es.merge fs fun e f => decide (e.stop ≤ f.baseStart)

/-- A span that fits is what the base holds between the kept part and the rest. -/
theorem drop_eq_of_fits {b : List α} {pos : Nat} {e : Edit α} (hpos : pos ≤ e.baseStart)
    (hrem : (b.drop e.baseStart).take e.remove.length = e.remove) :
    b.drop pos = (b.drop pos).take (e.baseStart - pos) ++ e.remove ++ b.drop e.stop := by
  have hmid : b.drop e.baseStart = e.remove ++ b.drop e.stop := by
    conv_lhs => rw [← List.take_append_drop e.remove.length (b.drop e.baseStart), hrem]
    rw [List.drop_drop]
    rfl
  have hsplit : b.drop pos =
      (b.drop pos).take (e.baseStart - pos) ++ (b.drop pos).drop (e.baseStart - pos) :=
    (List.take_append_drop _ _).symm
  rw [List.drop_drop, Nat.add_sub_cancel' hpos, hmid] at hsplit
  simpa using hsplit

/-- A script that continues one starting after the edit `e`: the part of the base
    up to `e` is kept, then comes `seg`, then the rest. -/
private theorem script_cons {b : List α} {pos : Nat} {e : Edit α} {ss : List (Seg α)}
    (hpos : pos ≤ e.baseStart) (hstop : e.stop ≤ b.length)
    (hrem : (b.drop e.baseStart).take e.remove.length = e.remove)
    (hbase : ss.flatMap Seg.base = b.drop e.stop) (seg : Seg α) (hseg : seg.base = e.remove) :
    let kept := (b.drop pos).take (e.baseStart - pos)
    (kept.map Seg.keep ++ seg :: ss).flatMap Seg.base = b.drop pos ∧
      ∀ {dst : Seg α → List α} {pick : Seg α → Bool}, (∀ x, pick (.keep x) = false) →
        edits Seg.base dst pick pos (kept.map Seg.keep ++ seg :: ss) =
          edits Seg.base dst pick e.baseStart (seg :: ss) := by
  intro kept
  have hklen : kept.length = e.baseStart - pos := by
    have := e.baseStart_le_stop
    simp only [kept, List.length_take, List.length_drop]
    omega
  refine ⟨?_, fun hpick => ?_⟩
  · rw [drop_eq_of_fits hpos hrem, List.flatMap_append, flatMap_base_keep, List.flatMap_cons,
      hseg, hbase, List.append_assoc]
  · rw [edits_append, edits_keep hpick, flatMap_base_keep, hklen, Nat.add_sub_cancel' hpos]
    rfl

/-- Two lists of edits that fit one base and are pairwise separable are the two
    sides of one script over it. -/
theorem exists_script {b : List α} {pos : Nat} {es fs : List (Edit α)}
    (hes : Fits b pos es) (hfs : Fits b pos fs)
    (hsep : ∀ e ∈ es, ∀ f ∈ fs, e.Separable f) :
    ∃ ss : List (Seg α), ss.flatMap Seg.base = b.drop pos ∧ leftEdits pos ss = es ∧
      rightEdits pos ss = fs ∧ bothEdits pos ss = mergeEdits es fs := by
  -- The induction takes the edit that comes first in the base off one of the lists.
  induction hn : es.length + fs.length generalizing pos es fs with
  | zero =>
      obtain ⟨rfl, rfl⟩ : es = [] ∧ fs = [] := by
        constructor <;> apply List.eq_nil_of_length_eq_zero <;> omega
      have hnone : ∀ {dst : Seg α → List α} {pick : Seg α → Bool}, (∀ x, pick (.keep x) = false) →
          edits Seg.base dst pick pos ((b.drop pos).map Seg.keep) = [] :=
        fun hpick => edits_keep hpick _ _
      exact ⟨_, flatMap_base_keep _, hnone fun _ => rfl, hnone fun _ => rfl,
        (hnone fun _ => rfl).trans (by simp [mergeEdits])⟩
  | succ n ih =>
      -- Both cases end the same way once the first edit `e` of one list is known
      -- to stand before every edit of the other.
      have hleft : ∀ e es', es = e :: es' → (∀ f ∈ fs, e.stop ≤ f.baseStart) →
          mergeEdits es fs = e :: mergeEdits es' fs → ∃ ss : List (Seg α),
            ss.flatMap Seg.base = b.drop pos ∧ leftEdits pos ss = es ∧
              rightEdits pos ss = fs ∧ bothEdits pos ss = mergeEdits es fs := by
        rintro e es' rfl hbefore hmerge
        obtain ⟨hpos, hstop, hrem, htail⟩ := hes
        have hfs' : Fits b e.stop fs := by
          cases fs with
          | nil => trivial
          | cons f fs => exact ⟨hbefore f (by simp), hfs.2⟩
        obtain ⟨ss, hbase, hl, hr, hboth⟩ := ih htail hfs'
          (fun e' he' f hf => hsep e' (List.mem_cons_of_mem _ he') f hf)
          (by simp only [List.length_cons] at hn; omega)
        obtain ⟨hb, hedits⟩ := script_cons hpos hstop hrem hbase (.left e.remove e.insert) rfl
        refine ⟨_, hb, ?_, ?_, ?_⟩
        · rw [leftEdits, hedits (fun _ => rfl)]
          exact congrArg (_ :: ·) hl
        · rw [rightEdits, hedits (fun _ => rfl)]
          exact hr
        · rw [bothEdits, hedits (fun _ => rfl), hmerge]
          exact congrArg (_ :: ·) hboth
      have hright : ∀ f fs', fs = f :: fs' → (∀ e ∈ es, f.stop ≤ e.baseStart) →
          mergeEdits es fs = f :: mergeEdits es fs' → ∃ ss : List (Seg α),
            ss.flatMap Seg.base = b.drop pos ∧ leftEdits pos ss = es ∧
              rightEdits pos ss = fs ∧ bothEdits pos ss = mergeEdits es fs := by
        rintro f fs' rfl hbefore hmerge
        obtain ⟨hpos, hstop, hrem, htail⟩ := hfs
        have hes' : Fits b f.stop es := by
          cases es with
          | nil => trivial
          | cons e es => exact ⟨hbefore e (by simp), hes.2⟩
        obtain ⟨ss, hbase, hl, hr, hboth⟩ := ih hes' htail
          (fun e he f' hf' => hsep e he f' (List.mem_cons_of_mem _ hf'))
          (by simp only [List.length_cons] at hn; omega)
        obtain ⟨hb, hedits⟩ := script_cons hpos hstop hrem hbase (.right f.remove f.insert) rfl
        refine ⟨_, hb, ?_, ?_, ?_⟩
        · rw [leftEdits, hedits (fun _ => rfl)]
          exact hl
        · rw [rightEdits, hedits (fun _ => rfl)]
          exact congrArg (_ :: ·) hr
        · rw [bothEdits, hedits (fun _ => rfl), hmerge]
          exact congrArg (_ :: ·) hboth
      cases es with
      | nil =>
          cases fs with
          | nil => simp at hn
          | cons f fs => exact hright f fs rfl (by simp) (by simp [mergeEdits])
      | cons e es =>
          cases fs with
          | nil => exact hleft e es rfl (by simp) (by simp [mergeEdits])
          | cons f fs =>
              rcases (hsep e (by simp) f (by simp)).before_or_after with hef | hfe
              · refine hleft e es rfl (fun f' hf' => ?_) (by simp [mergeEdits, hef])
                rcases List.mem_cons.mp hf' with rfl | hf'
                · exact hef
                · have := hfs.2.2.2.pos_le f' hf'
                  have := f.baseStart_le_stop
                  omega
              · have hnef : ¬ e.stop ≤ f.baseStart :=
                  (hsep e (by simp) f (by simp)).symm.not_after hfe
                refine hright f fs rfl (fun e' he' => ?_) (by simp [mergeEdits, hnef])
                rcases List.mem_cons.mp he' with rfl | he'
                · exact hfe
                · have := hes.2.2.2.pos_le e' he'
                  have := e.baseStart_le_stop
                  omega

/-! ## Moving one side past the other -/

/-- The summed length change of the edits of `fs` that end at or before `pos`. -/
def deltaBefore (fs : List (Edit α)) (pos : Nat) : Int :=
  ((fs.filter fun f => decide (f.stop ≤ pos)).map Edit.delta).sum

theorem deltaBefore_cons (f : Edit α) (fs : List (Edit α)) (pos : Nat) :
    deltaBefore (f :: fs) pos = (if f.stop ≤ pos then f.delta else 0) + deltaBefore fs pos := by
  simp only [deltaBefore, List.filter_cons, decide_eq_true_eq]
  split <;> simp

theorem deltaBefore_append (fs gs : List (Edit α)) (pos : Nat) :
    deltaBefore (fs ++ gs) pos = deltaBefore fs pos + deltaBefore gs pos := by
  simp [deltaBefore]

/-- All edits that end at or before `pos` count. -/
theorem deltaBefore_of_forall_le {fs : List (Edit α)} {pos : Nat} (h : ∀ f ∈ fs, f.stop ≤ pos) :
    deltaBefore fs pos = (fs.map Edit.delta).sum := by
  rw [deltaBefore, List.filter_eq_self.mpr (by simpa using h)]

/-- No edit that ends after `pos` counts. -/
theorem deltaBefore_eq_zero {fs : List (Edit α)} {pos : Nat} (h : ∀ f ∈ fs, ¬ f.stop ≤ pos) :
    deltaBefore fs pos = 0 := by
  rw [deltaBefore, List.filter_eq_nil_iff.mpr (by simpa using h)]
  rfl

/-- An edit moved to where it stands once the edits `fs` are carried out. -/
def Edit.shiftPast (fs : List (Edit α)) (e : Edit α) : Edit α :=
  { e with baseStart := (max ((e.baseStart : Int) + deltaBefore fs e.baseStart) 0).toNat }

section Shift

variable {mine other : Seg α → Bool} {mineDone otherDone : Seg α → List α}

/-- Shifting the edits of one side past those of the other gives that side's
    edits in the coordinates the other side leaves. `done` holds the other side's
    edits that the script already passed; `pos'` is where they moved `pos` to. -/
theorem map_shiftPast_edits
    (hmine : ∀ s, mine s = true → otherDone s = s.base ∧ other s = false ∧ mineDone s = s.onBoth)
    (hkeep : ∀ s, other s = false → otherDone s = s.base)
    (ss : List (Seg α)) (pos pos' : Nat) (done : List (Edit α))
    (hdone : ∀ f ∈ done, f.stop ≤ pos)
    (hpos' : (pos' : Int) = pos + (done.map Edit.delta).sum)
    (hsep : ∀ e ∈ edits Seg.base mineDone mine pos ss,
      ∀ f ∈ edits Seg.base otherDone other pos ss, e.Separable f) :
    (edits Seg.base mineDone mine pos ss).map
        (Edit.shiftPast (done ++ edits Seg.base otherDone other pos ss)) =
      edits otherDone Seg.onBoth mine pos' ss := by
  induction ss generalizing pos pos' done with
  | nil => simp [edits]
  | cons s ss ih =>
      cases hm : mine s with
      | true =>
          obtain ⟨hread, hno, hmd⟩ := hmine s hm
          simp only [edits, hm, hno, if_true, Bool.false_eq_true, if_false, List.map_cons, hread]
          have htail := ih (pos + s.base.length) (pos' + s.base.length) done
            (fun f hf => Nat.le_trans (hdone f hf) (Nat.le_add_right _ _))
            (by push_cast; omega)
            (fun e he f hf => hsep e (by simp [edits, hm, he]) f (by simpa [edits, hno] using hf))
          rw [htail, hmd]
          congr 1
          -- The passed edits all end before this one; the ones to come do not.
          have hlater : deltaBefore (edits Seg.base otherDone other (pos + s.base.length) ss) pos = 0 := by
            refine deltaBefore_eq_zero fun f hf => ?_
            have hs := hsep ⟨pos, s.base, mineDone s⟩ (by simp [edits, hm]) f
              (by simpa [edits, hno] using hf)
            exact hs.not_after (le_baseStart_of_mem_edits hf)
          simp only [Edit.shiftPast, deltaBefore_append, hlater, deltaBefore_of_forall_le hdone]
          congr 1
          omega
      | false =>
          cases ho : other s with
          | false =>
              simp only [edits, hm, ho, Bool.false_eq_true, if_false, hkeep s ho]
              refine ih (pos + s.base.length) (pos' + s.base.length) done
                (fun f hf => Nat.le_trans (hdone f hf) (Nat.le_add_right _ _)) (by push_cast; omega) ?_
              intro e he f hf
              exact hsep e (by simpa [edits, hm] using he) f (by simpa [edits, ho] using hf)
          | true =>
              simp only [edits, hm, ho, if_true, Bool.false_eq_true, if_false]
              have htail := ih (pos + s.base.length) (pos' + (otherDone s).length)
                (done ++ [⟨pos, s.base, otherDone s⟩]) ?_ ?_ ?_
              · simpa using htail
              · intro f hf
                rcases List.mem_append.mp hf with hf | hf
                · exact Nat.le_trans (hdone f hf) (Nat.le_add_right _ _)
                · obtain rfl := List.mem_singleton.mp hf
                  exact Nat.le_refl _
              · simp only [List.map_append, List.map_cons, List.map_nil, List.sum_append,
                  List.sum_cons, List.sum_nil, Edit.delta]
                push_cast
                omega
              · intro e he f hf
                exact hsep e (by simpa [edits, hm] using he) f (by simp [edits, ho, hf])

end Shift

/-- Shifting the left edits of a script past the right ones. -/
theorem map_shiftPast_left {ss : List (Seg α)}
    (hsep : ∀ e ∈ leftEdits 0 ss, ∀ f ∈ rightEdits 0 ss, e.Separable f) :
    (leftEdits 0 ss).map (Edit.shiftPast (rightEdits 0 ss)) = leftOverRight 0 ss := by
  refine map_shiftPast_edits ?_ ?_ ss 0 0 [] (by simp) (by simp) hsep
  · intro s hs
    cases s <;> simp [Seg.isLeft, Seg.isRight, Seg.onRight, Seg.base, Seg.onLeft, Seg.onBoth] at hs ⊢
  · intro s hs; exact (keep_right s hs).symm

/-- Shifting the right edits of a script past the left ones. -/
theorem map_shiftPast_right {ss : List (Seg α)}
    (hsep : ∀ e ∈ leftEdits 0 ss, ∀ f ∈ rightEdits 0 ss, e.Separable f) :
    (rightEdits 0 ss).map (Edit.shiftPast (leftEdits 0 ss)) = rightOverLeft 0 ss := by
  refine map_shiftPast_edits ?_ ?_ ss 0 0 [] (by simp) (by simp)
    (fun e he f hf => (hsep f hf e he).symm)
  · intro s hs
    cases s <;> simp [Seg.isLeft, Seg.isRight, Seg.onRight, Seg.base, Seg.onLeft, Seg.onBoth] at hs ⊢
  · intro s hs; exact (keep_left s hs).symm

end ListEdit
