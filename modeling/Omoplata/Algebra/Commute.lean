-- SUMMARY: The commutation check of two patches and its soundness in both orders.
import Omoplata.Algebra.Patch

/-!
# Commutation

Two patches commute when every pair of hunks, one from each, can be put in
exactly one order on the base. `commute` then moves each patch past the other.

Soundness is a fact about one two-sided script: separable patches are its two
sides, the moved patches are the same sides in the coordinates the other side
leaves, and both orders end in the reading where both sides are carried out.
-/

namespace Omoplata

open ListEdit

/-- The outcome of the commutation check. -/
inductive Commutation where
  | independent (pRebased qRebased : Patch)
  | overlap
  deriving DecidableEq, Repr

namespace Commute

/-- Whether two hunks fail to be cleanly separable: one ends at or before the
    other's start in both directions or in neither. `Usize.hunksConflict` is the same
    where the ends are words. -/
def hunksConflict (h k : Hunk) : Bool :=
  let before := decide (h.baseStart + h.remove.length ≤ k.baseStart)
  let after := decide (k.baseStart + k.remove.length ≤ h.baseStart)
  before == after

/-- Move every hunk of `p` to where it stands once `other` is applied. -/
def rebase (p other : Patch) : Patch :=
  ⟨p.hunks.map fun h =>
    let shift := other.deltaBefore h.baseStart
    let newStart := (max ((h.baseStart : Int) + shift) 0).toNat
    { baseStart := newStart, remove := h.remove, insert := h.insert }⟩

end Commute

/-- Whether two patches commute, with each moved past the other if they do. -/
def commute (p q : Patch) : Commutation :=
  let disjoint := p.hunks.all fun h => q.hunks.all fun k => !Commute.hunksConflict h k
  if disjoint then .independent (Commute.rebase p q) (Commute.rebase q p)
  else .overlap

/-- Apply `p`, then `q` in the coordinates `p` leaves. -/
def combine (base : Doc) (p qRebased : Patch) : Except ApplyError Doc := do
  let afterP ← apply p base
  apply qRebased afterP

/-- The hunks of two patches together, in base order. -/
def mergeHunks (p q : Patch) : Patch := ⟨mergeEdits p.hunks q.hunks⟩

namespace Commute

theorem hunksConflict_eq_false_iff {h k : Hunk} : hunksConflict h k = false ↔ h.Separable k := by
  simp only [hunksConflict, Edit.Separable, Edit.stop, beq_eq_false_iff_ne, ne_eq, decide_eq_decide]

theorem rebase_hunks (p other : Patch) :
    (rebase p other).hunks = p.hunks.map (Edit.shiftPast other.hunks) := rfl

end Commute

/-- Two patches are pairwise separable. -/
def Patch.Separable (p q : Patch) : Prop := ∀ h ∈ p.hunks, ∀ k ∈ q.hunks, h.Separable k

theorem commute_eq_independent_iff {p q p' q' : Patch} :
    commute p q = .independent p' q' ↔
      p.Separable q ∧ p' = Commute.rebase p q ∧ q' = Commute.rebase q p := by
  have hall : (p.hunks.all fun h => q.hunks.all fun k => !Commute.hunksConflict h k) = true ↔
      p.Separable q := by
    simp only [List.all_eq_true, Bool.not_eq_true', Commute.hunksConflict_eq_false_iff,
      Patch.Separable]
  rw [← hall, commute]
  split
  · rename_i hd
    simp only [Commutation.independent.injEq, hd, true_and, eq_comm]
  · rename_i hd
    simp only [reduceCtorEq, hd, Bool.false_eq_true, false_and]

theorem commute_of_separable {p q : Patch} (h : p.Separable q) :
    commute p q = .independent (Commute.rebase p q) (Commute.rebase q p) :=
  commute_eq_independent_iff.mpr ⟨h, rfl, rfl⟩

/-- A patch whose hunks are the edits between two readings of a script takes the
    one reading to the other. -/
theorem apply_edits {src dst : Seg Line → List Line} {pick : Seg Line → Bool}
    (hkeep : ∀ s, pick s = false → src s = dst s) {p : Patch} {ss : List (Seg Line)}
    (hp : p.hunks = edits src dst pick 0 ss) :
    apply p ⟨ss.flatMap src⟩ = .ok ⟨ss.flatMap dst⟩ := by
  have hfit := fits_edits hkeep ss
  have hsplice := splice_edits hkeep ss
  rw [← hp] at hfit hsplice
  exact apply_eq_ok_iff.mpr ⟨hfit, by rw [hsplice]⟩

section Script

variable {base : Doc} {p q : Patch} {ss : List (Seg Line)}

/-- A script over `base` whose two sides are the patches `p` and `q`. -/
structure IsScript (base : Doc) (p q : Patch) (ss : List (Seg Line)) : Prop where
  base_eq : base = ⟨ss.flatMap Seg.base⟩
  left_eq : p.hunks = leftEdits 0 ss
  right_eq : q.hunks = rightEdits 0 ss

theorem IsScript.apply_left (h : IsScript base p q ss) :
    apply p base = .ok ⟨ss.flatMap Seg.onLeft⟩ := by
  rw [h.base_eq]
  exact apply_edits keep_left h.left_eq

theorem IsScript.apply_right (h : IsScript base p q ss) :
    apply q base = .ok ⟨ss.flatMap Seg.onRight⟩ := by
  rw [h.base_eq]
  exact apply_edits keep_right h.right_eq

/-- The right patch, moved past the left one, takes the left result to the result
    of both. -/
theorem IsScript.apply_rebase_right (h : IsScript base p q ss) (hsep : p.Separable q) :
    apply (Commute.rebase q p) ⟨ss.flatMap Seg.onLeft⟩ = .ok ⟨ss.flatMap Seg.onBoth⟩ := by
  refine apply_edits keep_rightOverLeft ?_
  rw [Commute.rebase_hunks, h.left_eq, h.right_eq]
  rw [Patch.Separable, h.left_eq, h.right_eq] at hsep
  exact map_shiftPast_right hsep

/-- The left patch, moved past the right one, takes the right result to the result
    of both. -/
theorem IsScript.apply_rebase_left (h : IsScript base p q ss) (hsep : p.Separable q) :
    apply (Commute.rebase p q) ⟨ss.flatMap Seg.onRight⟩ = .ok ⟨ss.flatMap Seg.onBoth⟩ := by
  refine apply_edits keep_leftOverRight ?_
  rw [Commute.rebase_hunks, h.left_eq, h.right_eq]
  rw [Patch.Separable, h.left_eq, h.right_eq] at hsep
  exact map_shiftPast_left hsep

/-- The merged hunks of two patches, applied at once. -/
theorem IsScript.apply_both (h : IsScript base p q ss)
    (hboth : bothEdits 0 ss = mergeEdits p.hunks q.hunks) :
    apply (mergeHunks p q) base = .ok ⟨ss.flatMap Seg.onBoth⟩ := by
  rw [h.base_eq]
  exact apply_edits keep_both hboth.symm

/-- Separable patches that fit one base share a script over it. -/
theorem exists_isScript (hp : Fits base.lines 0 p.hunks) (hq : Fits base.lines 0 q.hunks)
    (hsep : p.Separable q) :
    ∃ ss, IsScript base p q ss ∧ bothEdits 0 ss = mergeEdits p.hunks q.hunks := by
  obtain ⟨ss, hbase, hl, hr, hboth⟩ := exists_script hp hq hsep
  rw [List.drop_zero] at hbase
  exact ⟨ss, ⟨by rw [hbase], hl.symm, hr.symm⟩, hboth⟩

end Script

/-- Commutation soundness: patches the check accepts apply in both orders, to the
    document their hunks give when applied together in base order. -/
theorem commute_sound (base afterP afterQ : Doc) (p q pRebased qRebased : Patch)
    (hp : apply p base = .ok afterP) (hq : apply q base = .ok afterQ)
    (hc : commute p q = .independent pRebased qRebased) :
    (mergeHunks p q).hunks.Perm (p.hunks ++ q.hunks) ∧
      ∃ result, apply qRebased afterP = .ok result ∧ apply pRebased afterQ = .ok result ∧
        apply (mergeHunks p q) base = .ok result := by
  obtain ⟨hsep, rfl, rfl⟩ := commute_eq_independent_iff.mp hc
  obtain ⟨ss, hss, hboth⟩ :=
    exists_isScript (apply_eq_ok_iff.mp hp).1 (apply_eq_ok_iff.mp hq).1 hsep
  obtain rfl : ⟨ss.flatMap Seg.onLeft⟩ = afterP := Except.ok.inj (hss.apply_left.symm.trans hp)
  obtain rfl : ⟨ss.flatMap Seg.onRight⟩ = afterQ := Except.ok.inj (hss.apply_right.symm.trans hq)
  exact ⟨List.merge_perm_append _, ⟨ss.flatMap Seg.onBoth⟩, hss.apply_rebase_right hsep,
    hss.apply_rebase_left hsep, hss.apply_both hboth⟩

/-- Two patches of length-changing hunks on `a b c d`: one grows the first line and
    inserts right behind the other's hunk, the other drops the third line. -/
theorem commute_sound_touching_insertion :
    let line := fun c : Char => [c]
    let base : Doc := ⟨[line 'a', line 'b', line 'c', line 'd']⟩
    let p : Patch := ⟨[⟨0, [line 'a'], [line 'A', line 'B']⟩, ⟨3, [], [line 'x']⟩]⟩
    let q : Patch := ⟨[⟨2, [line 'c'], []⟩]⟩
    (mergeHunks p q).hunks.Perm (p.hunks ++ q.hunks) ∧
      ∃ result,
        apply (Commute.rebase q p) ⟨[line 'A', line 'B', line 'b', line 'c', line 'x', line 'd']⟩ =
            .ok result ∧
          apply (Commute.rebase p q) ⟨[line 'a', line 'b', line 'd']⟩ = .ok result ∧
          apply (mergeHunks p q) base = .ok result :=
  commute_sound _ _ _ _ _ _ _ (by decide) (by decide) (by decide)

end Omoplata
