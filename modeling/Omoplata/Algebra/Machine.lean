-- SUMMARY: Patches on machine words: where the ends of hunks overflow, and what the witness checker does there.
import Mathlib.Algebra.Order.BigOperators.Group.List
import Mathlib.Algebra.Order.Group.Nat
import Omoplata.Algebra.Kernel

/-!
# Patches on machine words

The other modules add positions as natural numbers, where the code adds words. A hunk starts
anywhere a caller puts it, so its end need not fit into a word: a build with overflow checks
panics at such a sum, and one without them goes on with what is left of it.

Here the functions that add positions are stated once more over words, with a panic as `none`.
Hunks that lie in a document have small ends, so on these nothing changes.
-/

namespace Omoplata

open ListEdit

/-- How many values a `usize` has. -/
def usizeCount : Nat := 2 ^ 64

/-- How many values of an `isize` are not negative. -/
def isizeCount : Nat := 2 ^ 63

/-- The lines a patch holds. -/
def Patch.size (p : Patch) : Nat := (p.hunks.map fun h => h.remove.length + h.insert.length).sum

/-- Behind hunks that fit there is one whose end is no `usize`. A build without overflow checks
    takes what is left of the end, and refuses the hunk if that is behind the document. -/
def Overruns (checks : Bool) (b : List Line) (pos : Nat) (hs : List Hunk) : Prop :=
  ∃ front h back, hs = front ++ h :: back ∧ Fits b pos front ∧ usizeCount ≤ h.stop ∧
    (checks = true ∨ h.stop % usizeCount ≤ b.length)

namespace Usize

/-! ## Words -/

/-- A sum. Without overflow checks it wraps around. -/
def add (checks : Bool) (a b : Nat) : Option Nat :=
  if a + b < usizeCount then some (a + b)
  else if checks then none
  else some ((a + b) % usizeCount)

/-- A sum of signed words. -/
def addSigned (checks : Bool) (a b : Int) : Option Int :=
  if -(isizeCount : Int) ≤ a + b ∧ a + b < isizeCount then some (a + b)
  else if checks then none
  else some (Int.bmod (a + b) usizeCount)

/-- A word read as a signed one. -/
def toSigned (n : Nat) : Int := if n < isizeCount then n else (n : Int) - usizeCount

/-! ## The functions of the algebra -/

/-- The loop of `apply`. A slice out of range panics in every build. -/
def applyHunks (checks : Bool) (b : List Line) :
    List Hunk → Nat → List Line → Option (Except ApplyError (List Line))
  | [], pos, out => some (.ok (out ++ b.drop pos))
  | h :: hs, pos, out =>
      if h.baseStart < pos then some (.error (.overlappingHunks h.baseStart pos))
      else do
        let stop ← add checks h.baseStart h.remove.length
        if stop > b.length then some (.error (.outOfRange h.baseStart h.remove.length b.length))
        else do
          let untouched ← slice? b pos h.baseStart
          let context ← slice? b h.baseStart stop
          if context ≠ h.remove then some (.error (.contextMismatch h.baseStart))
          else applyHunks checks b hs stop (out ++ untouched ++ h.insert)

def apply (checks : Bool) (p : Patch) (base : Doc) : Option (Except ApplyError Doc) :=
  (applyHunks checks base.lines p.hunks 0 []).map fun result => result.map Doc.mk

def hunksConflict (checks : Bool) (h k : Hunk) : Option Bool := do
  let hStop ← add checks h.baseStart h.remove.length
  let kStop ← add checks k.baseStart k.remove.length
  return decide (hStop ≤ k.baseStart) == decide (kStop ≤ h.baseStart)

/-- One hunk of the sum of `delta_before`. -/
def addDelta (checks : Bool) (pos : Nat) (total : Int) (h : Hunk) : Option Int := do
  let stop ← add checks h.baseStart h.remove.length
  if stop ≤ pos then do
    let delta ← addSigned checks h.insert.length (-(h.remove.length : Int))
    addSigned checks total delta
  else return total

def deltaBefore (checks : Bool) (p : Patch) (pos : Nat) : Option Int := p.hunks.foldlM (addDelta checks pos) 0

/-- One hunk of `rebase`. -/
def moveHunk (checks : Bool) (other : Patch) (h : Hunk) : Option Hunk := do
  let shift ← deltaBefore checks other h.baseStart
  let newStart ← addSigned checks (toSigned h.baseStart) shift
  return { baseStart := (max newStart 0).toNat, remove := h.remove, insert := h.insert }

def rebase (checks : Bool) (p other : Patch) : Option Patch := (p.hunks.mapM (moveHunk checks other)).map Patch.mk

def commute (checks : Bool) (p q : Patch) : Option Commutation := do
  let disjoint ← p.hunks.allM fun h => q.hunks.allM fun k => (hunksConflict checks h k).map (!·)
  if disjoint then do
    let pRebased ← rebase checks p q
    let qRebased ← rebase checks q p
    return .independent pRebased qRebased
  else return .overlap

def combine (checks : Bool) (base : Doc) (p qRebased : Patch) : Option (Except ApplyError Doc) := do
  match ← apply checks p base with
  | .error e => return .error e
  | .ok afterP => apply checks qRebased afterP

def admitMerge (checks : Bool) (base left right : Doc) : Option Admission := do
  let p := diff base left
  let q := diff base right
  match ← commute checks p q with
  | .overlap => return .conflict (merge3 base left right).conflicts
  | .independent _ qRebased =>
      match ← combine checks base p qRebased with
      | .ok result => return .merged result ⟨p, q⟩
      | .error _ => return .conflict (merge3 base left right).conflicts

/-- The last two steps of `verify_witness`. -/
def verifyCombined (checks : Bool) (base : Doc) (w : CommutationWitness) (result : Doc) : Option Bool := do
  match ← commute checks w.p w.q with
  | .overlap => return false
  | .independent _ qRebased =>
      match ← combine checks base w.p qRebased with
      | .ok merged => return merged == result
      | .error _ => return false

def verifyWitness (checks : Bool) (base : Doc) (w : CommutationWitness) (result : Doc) : Option Bool := do
  match ← apply checks w.p base with
  | .error _ => return false
  | .ok left =>
      match ← apply checks w.q base with
      | .error _ => return false
      | .ok right =>
          if diff base left ≠ w.p ∨ diff base right ≠ w.q then return false
          else verifyCombined checks base w result

/-! ## Where the sums fit -/

section

variable {checks : Bool}

theorem add_of_lt {a b : Nat} (h : a + b < usizeCount) : add checks a b = some (a + b) := if_pos h

theorem addSigned_of_bounds {a b : Int} (hlow : -(isizeCount : Int) ≤ a + b) (hhigh : a + b < isizeCount) :
    addSigned checks a b = some (a + b) := if_pos ⟨hlow, hhigh⟩

theorem toSigned_of_lt {n : Nat} (h : n < isizeCount) : toSigned n = n := if_pos h

theorem hunksConflict_of_stop_lt {h k : Hunk} (hh : h.stop < usizeCount) (hk : k.stop < usizeCount) :
    hunksConflict checks h k = some (Commute.hunksConflict h k) := by
  unfold hunksConflict
  rw [add_of_lt hh, add_of_lt hk]
  rfl

/-- The loop comes to the first hunk, and behind it to the others if it fits. -/
theorem overruns_cons {b : List Line} {h : Hunk} {hs : List Hunk} {pos : Nat} :
    Overruns checks b pos (h :: hs) ↔
      (usizeCount ≤ h.stop ∧ (checks = true ∨ h.stop % usizeCount ≤ b.length)) ∨
        pos ≤ h.baseStart ∧ h.stop ≤ b.length ∧ (b.drop h.baseStart).take h.remove.length = h.remove ∧
          Overruns checks b h.stop hs := by
  constructor
  · rintro ⟨front, k, back, heq, hfit, hk⟩
    cases front with
    | nil =>
        obtain ⟨rfl, -⟩ := List.cons.inj heq
        exact .inl hk
    | cons e front =>
        obtain ⟨rfl, rfl⟩ := List.cons.inj heq
        obtain ⟨hpos, hstop, hcontext, hfit⟩ := hfit
        exact .inr ⟨hpos, hstop, hcontext, front, k, back, rfl, hfit, hk⟩
  · rintro (hk | ⟨hpos, hstop, hcontext, front, k, back, rfl, hfit, hk⟩)
    · exact ⟨[], h, hs, rfl, trivial, hk⟩
    · exact ⟨h :: front, k, back, rfl, ⟨hpos, hstop, hcontext, hfit⟩, hk⟩

/-- The loop does on words what it does on numbers, but for a hunk whose end is no word: such a
    hunk starts behind the document. -/
theorem applyHunks_eq {b : List Line} {hs : List Hunk} {pos : Nat} (hpos : pos ≤ b.length)
    (hbehind : ∀ h ∈ hs, usizeCount ≤ h.stop → b.length < h.baseStart) (out : List Line) :
    Overruns checks b pos hs ∧ applyHunks checks b hs pos out = none ∨
      ¬ Overruns checks b pos hs ∧ applyHunks checks b hs pos out = some (Omoplata.applyHunks b hs pos out) := by
  induction hs generalizing pos out with
  | nil =>
      refine .inr ⟨?_, rfl⟩
      rintro ⟨front, h, back, heq, -⟩
      simp at heq
  | cons h hs ih =>
      obtain ⟨hfirst, hbehind⟩ := List.forall_mem_cons.mp hbehind
      have hcontext : slice b h.baseStart (h.baseStart + h.remove.length) =
          (b.drop h.baseStart).take h.remove.length := by
        rw [slice_eq_take_drop, Nat.add_sub_cancel_left]
      rw [overruns_cons]
      unfold applyHunks Omoplata.applyHunks
      -- a hunk that starts too early is refused before its end is computed
      by_cases hlt : h.baseStart < pos
      · rw [if_pos hlt, if_pos hlt]
        refine .inr ⟨?_, rfl⟩
        rintro (⟨hstop, -⟩ | ⟨hle, -⟩)
        · have hstart := hfirst hstop
          omega
        · omega
      rw [if_neg hlt, if_neg hlt]
      by_cases hfits : h.stop < usizeCount
      · rw [add_of_lt hfits, ← hcontext]
        simp only [Option.bind_eq_bind, Option.bind_some]
        by_cases hout : h.baseStart + h.remove.length > b.length
        · rw [if_pos hout, if_pos hout]
          refine .inr ⟨?_, rfl⟩
          rintro (⟨hstop, -⟩ | ⟨-, hle, -⟩)
          · omega
          · exact absurd hle (Nat.not_le.mpr hout)
        rw [if_neg hout, if_neg hout, slice?_eq_some (by omega) (by omega), slice?_eq_some (by omega) (by omega)]
        simp only [Option.bind_some]
        by_cases hsame : slice b h.baseStart (h.baseStart + h.remove.length) = h.remove
        · -- the hunk fits, and the loop goes on behind it
          rw [if_neg (not_not_intro hsame), if_neg (not_not_intro hsame)]
          have hrest := @ih h.stop (Nat.not_lt.mp hout) hbehind (out ++ slice b pos h.baseStart ++ h.insert)
          have hthrough : ((usizeCount ≤ h.stop ∧ (checks = true ∨ h.stop % usizeCount ≤ b.length)) ∨
              pos ≤ h.baseStart ∧ h.stop ≤ b.length ∧ slice b h.baseStart (h.baseStart + h.remove.length) = h.remove ∧
                Overruns checks b h.stop hs) ↔ Overruns checks b h.stop hs := by
            constructor
            · rintro (⟨hstop, -⟩ | ⟨-, -, -, hover⟩)
              · omega
              · exact hover
            · exact fun hover => .inr ⟨by omega, Nat.not_lt.mp hout, hsame, hover⟩
          rwa [hthrough]
        · rw [if_pos hsame, if_pos hsame]
          refine .inr ⟨?_, rfl⟩
          rintro (⟨hstop, -⟩ | ⟨-, -, heq, -⟩)
          · omega
          · exact hsame heq
      -- the end overflows; the hunk starts behind the document, so its slice panics without checks too
      · have hstart := hfirst (Nat.not_lt.mp hfits)
        have hnone : slice? b pos h.baseStart = none := by
          unfold slice?
          exact if_neg (by omega)
        unfold add
        rw [if_neg (show ¬ h.baseStart + h.remove.length < usizeCount from hfits)]
        cases checks with
        | true => exact .inl ⟨.inl ⟨Nat.not_lt.mp hfits, .inl rfl⟩, rfl⟩
        | false =>
            simp only [Bool.false_eq_true, if_false, Option.bind_eq_bind, Option.bind_some, false_or]
            by_cases hleft : (h.baseStart + h.remove.length) % usizeCount > b.length
            · rw [if_pos hleft, if_pos (by omega)]
              refine .inr ⟨?_, rfl⟩
              rintro (⟨-, hle⟩ | ⟨-, hle, -⟩)
              · exact absurd hle (Nat.not_le.mpr hleft)
              · unfold Edit.stop at hle
                omega
            · rw [if_neg hleft, hnone]
              exact .inl ⟨.inl ⟨Nat.not_lt.mp hfits, Nat.not_lt.mp hleft⟩, rfl⟩

/-- Hunks that lie in a document have words for their ends. -/
theorem stop_lt_of_fits {b : List Line} {pos : Nat} {hs : List Hunk} (hfit : Fits b pos hs)
    (hmem : b.length < usizeCount) : ∀ h ∈ hs, h.stop < usizeCount :=
  fun h hh => Nat.lt_of_le_of_lt (hfit.stop_le h hh) hmem

theorem not_overruns_of_stop_lt {b : List Line} {pos : Nat} {hs : List Hunk}
    (hstop : ∀ h ∈ hs, h.stop < usizeCount) : ¬ Overruns checks b pos hs := by
  rintro ⟨front, h, back, rfl, -, hle, -⟩
  exact absurd (hstop h (by simp)) (Nat.not_lt.mpr hle)

theorem remove_le_size {p : Patch} {h : Hunk} (hh : h ∈ p.hunks) : h.remove.length + h.insert.length ≤ p.size :=
  List.le_sum_of_mem (List.mem_map_of_mem (f := fun h : Hunk => h.remove.length + h.insert.length) hh)

theorem apply_eq {p : Patch} {base : Doc} (hmem : base.lines.length + p.size < usizeCount) :
    Overruns checks base.lines 0 p.hunks ∧ apply checks p base = none ∨
      ¬ Overruns checks base.lines 0 p.hunks ∧ apply checks p base = some (Omoplata.apply p base) := by
  have hbehind : ∀ h ∈ p.hunks, usizeCount ≤ h.stop → base.lines.length < h.baseStart := fun h hh hstop => by
    have hsize := remove_le_size hh
    unfold Edit.stop at hstop
    omega
  unfold apply Omoplata.apply
  rcases @applyHunks_eq checks base.lines p.hunks 0 (Nat.zero_le _) hbehind [] with ⟨hover, hrun⟩ | ⟨hover, hrun⟩
  · exact .inl ⟨hover, by rw [hrun]; rfl⟩
  · exact .inr ⟨hover, by rw [hrun]; rfl⟩

/-- A patch whose hunks have words for their ends is applied as on numbers. -/
theorem apply_of_stop_lt {p : Patch} (hstop : ∀ h ∈ p.hunks, h.stop < usizeCount) (base : Doc) :
    apply checks p base = some (Omoplata.apply p base) := by
  have hbehind : ∀ h ∈ p.hunks, usizeCount ≤ h.stop → base.lines.length < h.baseStart := fun h hh hle =>
    absurd (hstop h hh) (Nat.not_lt.mpr hle)
  unfold apply Omoplata.apply
  rcases @applyHunks_eq checks base.lines p.hunks 0 (Nat.zero_le _) hbehind [] with ⟨hover, -⟩ | ⟨-, hrun⟩
  · exact absurd hover (not_overruns_of_stop_lt hstop)
  · rw [hrun]
    rfl

/-! ## Patches that fit -/

/-- A sum of changes is no larger than what changes. -/
theorem natAbs_deltaBefore_le (p : Patch) (pos : Nat) : (p.deltaBefore pos).natAbs ≤ p.size := by
  unfold Patch.deltaBefore Patch.size
  induction p.hunks with
  | nil => simp
  | cons h hs ih =>
      rw [List.map_cons, List.sum_cons, List.filter_cons]
      split
      · have hdelta : Hunk.delta h = (h.insert.length : Int) - h.remove.length := rfl
        rw [List.map_cons, List.sum_cons]
        omega
      · omega

theorem allM_some {α : Type} {f : α → Option Bool} {g : α → Bool} {xs : List α} (h : ∀ x ∈ xs, f x = some (g x)) :
    xs.allM f = some (xs.all g) := by
  induction xs with
  | nil => rfl
  | cons x xs ih =>
      obtain ⟨hx, hxs⟩ := List.forall_mem_cons.mp h
      rw [List.allM, hx, List.all_cons]
      cases g x with
      | true => exact ih hxs
      | false => rfl

theorem mapM_some {α β : Type} {f : α → Option β} {g : α → β} {xs : List α} (h : ∀ x ∈ xs, f x = some (g x)) :
    xs.mapM f = some (xs.map g) := by
  induction xs with
  | nil => rfl
  | cons x xs ih =>
      obtain ⟨hx, hxs⟩ := List.forall_mem_cons.mp h
      rw [List.mapM_cons, hx, ih hxs]
      rfl

/-- What hunks with small ends add up to. -/
theorem foldlM_addDelta {hs : List Hunk} {pos : Nat} {total : Int} (hstop : ∀ h ∈ hs, h.stop < usizeCount)
    (hmem : total.natAbs + (hs.map fun h => h.remove.length + h.insert.length).sum < isizeCount) :
    hs.foldlM (addDelta checks pos) total =
      some (total + ((hs.filter fun h => decide (h.baseStart + h.remove.length ≤ pos)).map Hunk.delta).sum) := by
  induction hs generalizing total with
  | nil => simp
  | cons h hs ih =>
      obtain ⟨hfirst, hstop⟩ := List.forall_mem_cons.mp hstop
      rw [List.map_cons, List.sum_cons] at hmem
      have hstep : addDelta checks pos total h =
          some (if h.baseStart + h.remove.length ≤ pos then total + Hunk.delta h else total) := by
        unfold addDelta Hunk.delta
        rw [add_of_lt hfirst, addSigned_of_bounds (by omega) (by omega)]
        simp only [Option.bind_eq_bind, Option.bind_some, ← Int.sub_eq_add_neg]
        rw [addSigned_of_bounds (by omega) (by omega)]
        split <;> rfl
      rw [List.foldlM_cons, hstep, Option.bind_eq_bind, Option.bind_some]
      by_cases hpos : h.baseStart + h.remove.length ≤ pos
      · rw [if_pos hpos, List.filter_cons_of_pos (by simpa using hpos), List.map_cons, List.sum_cons,
          ← Int.add_assoc]
        refine ih hstop ?_
        unfold Hunk.delta
        omega
      · rw [if_neg hpos, List.filter_cons_of_neg (by simpa using hpos)]
        exact ih hstop (by omega)

theorem deltaBefore_eq {p : Patch} {pos : Nat} (hstop : ∀ h ∈ p.hunks, h.stop < usizeCount)
    (hmem : p.size < isizeCount) : deltaBefore checks p pos = some (p.deltaBefore pos) := by
  have hsum := @foldlM_addDelta checks p.hunks pos 0 hstop (by simpa [Patch.size] using hmem)
  rwa [Int.zero_add] at hsum

/-- A patch whose hunks lie in a document is moved on words as on numbers. -/
theorem rebase_eq {p other : Patch} {b : List Line} (hp : Fits b 0 p.hunks) (hother : Fits b 0 other.hunks)
    (hmem : b.length + other.size < isizeCount) : rebase checks p other = some (Commute.rebase p other) := by
  have hcounts : isizeCount < usizeCount := by decide
  have hstops := stop_lt_of_fits hother (by omega)
  have hmove : ∀ h ∈ p.hunks, moveHunk checks other h =
      some { h with baseStart := (max ((h.baseStart : Int) + other.deltaBefore h.baseStart) 0).toNat } := by
    intro h hh
    have hstart : h.baseStart ≤ b.length := Nat.le_trans h.baseStart_le_stop (hp.stop_le h hh)
    have hdelta := natAbs_deltaBefore_le other h.baseStart
    unfold moveHunk
    rw [deltaBefore_eq hstops (by omega), toSigned_of_lt (by omega)]
    simp only [Option.bind_eq_bind, Option.bind_some]
    rw [addSigned_of_bounds (by omega) (by omega)]
    rfl
  unfold rebase
  rw [mapM_some hmove]
  rfl

/-- Two patches whose hunks lie in one document commute on words as on numbers. -/
theorem commute_eq {p q : Patch} {b : List Line} (hp : Fits b 0 p.hunks) (hq : Fits b 0 q.hunks)
    (hmem : b.length + p.size + q.size < isizeCount) : commute checks p q = some (Omoplata.commute p q) := by
  have hcounts : isizeCount < usizeCount := by decide
  have hpStops := stop_lt_of_fits hp (by omega)
  have hqStops := stop_lt_of_fits hq (by omega)
  have hconflicts : (p.hunks.allM fun h => q.hunks.allM fun k => (hunksConflict checks h k).map (!·)) =
      some (p.hunks.all fun h => q.hunks.all fun k => !Commute.hunksConflict h k) := by
    refine allM_some fun h hh => allM_some fun k hk => ?_
    rw [hunksConflict_of_stop_lt (hpStops h hh) (hqStops k hk)]
    rfl
  unfold commute Omoplata.commute
  rw [hconflicts, Option.bind_eq_bind, Option.bind_some, rebase_eq hp hq (by omega), rebase_eq hq hp (by omega)]
  dsimp only
  split
  · rfl
  · rfl

/-- A patch that applies does so on words. -/
theorem apply_of_ok {p : Patch} {base d : Doc} (happly : Omoplata.apply p base = .ok d)
    (hmem : base.lines.length < usizeCount) : apply checks p base = some (.ok d) := by
  rw [apply_of_stop_lt (stop_lt_of_fits (apply_eq_ok_iff.mp happly).1 hmem), happly]

/-- The result of a patch is no longer than the document and what the patch holds. -/
theorem length_le_of_apply {p : Patch} {base d : Doc} (happly : Omoplata.apply p base = .ok d) :
    d.lines.length ≤ base.lines.length + p.size := by
  obtain ⟨hfit, rfl⟩ := apply_eq_ok_iff.mp happly
  have hkept := (kept_sublist_base hfit).length_le
  have hinserted : inserted p.hunks ≤ p.size := List.sum_le_sum fun h _ => Nat.le_add_left _ _
  rw [List.drop_zero] at hkept
  show (splice base.lines 0 p.hunks).length ≤ _
  rw [length_splice]
  omega

/-! ## The witness checker -/

/-- The patches of a witness that stop the checker. The second is not looked at where the first
    is refused. -/
def Stops (checks : Bool) (base : Doc) (w : CommutationWitness) : Prop :=
  Overruns checks base.lines 0 w.p.hunks ∨
    Fits base.lines 0 w.p.hunks ∧ Overruns checks base.lines 0 w.q.hunks

variable {base r : Doc} {w : CommutationWitness}

/-- What two diffs that commute are combined to. -/
theorem combine_of_commute {left right : Doc} {p' q' : Patch}
    (hcommute : Omoplata.commute (diff base left) (diff base right) = .independent p' q')
    (hmem : base.lines.length + (diff base left).size + (diff base right).size < isizeCount) :
    ∃ result, Omoplata.combine base (diff base left) q' = .ok result ∧
      combine checks base (diff base left) q' = some (.ok result) := by
  have hcounts : isizeCount < usizeCount := by decide
  obtain ⟨result, hresult⟩ := Kernel.combine_eq_ok hcommute
  obtain ⟨-, -, rfl⟩ := commute_eq_independent_iff.mp hcommute
  have hsecond := hresult
  rw [Omoplata.combine, apply_diff] at hsecond
  -- what the first patch leaves is in memory too, and the moved patch holds what it held
  have hlength := length_le_of_apply (apply_diff base left)
  have hsize : (Commute.rebase (diff base right) (diff base left)).size = (diff base right).size := by
    simp only [Patch.size, Commute.rebase, List.map_map, Function.comp_def]
  refine ⟨result, hresult, ?_⟩
  unfold combine
  rw [apply_of_ok (apply_diff base left) (by omega), Option.bind_eq_bind, Option.bind_some]
  exact apply_of_ok hsecond (by omega)

/-- Diffs are combined on words as on numbers. -/
theorem verifyCombined_eq {left right : Doc} (hp : diff base left = w.p) (hq : diff base right = w.q)
    (hmem : base.lines.length + w.p.size + w.q.size < isizeCount) :
    verifyCombined checks base w r = some (Kernel.verifyWitness base w r) := by
  have hleft := hp ▸ apply_diff base left
  have hright := hq ▸ apply_diff base right
  unfold verifyCombined Kernel.verifyWitness
  rw [commute_eq (apply_eq_ok_iff.mp hleft).1 (apply_eq_ok_iff.mp hright).1 hmem, hleft, hright]
  simp only [Option.bind_eq_bind, Option.bind_some, hp, hq, ne_eq, not_true_eq_false, or_self, if_false]
  rw [← hp, ← hq] at hmem ⊢
  cases hcommute : Omoplata.commute (diff base left) (diff base right) with
  | overlap => rfl
  | independent p' q' =>
      obtain ⟨result, hresult, hmachine⟩ := @combine_of_commute checks base left right p' q' hcommute hmem
      simp only [hmachine, hresult, Option.bind_some]
      rfl

/-- An admission on words is one on numbers. -/
theorem admitMerge_eq_merged_iff {left right : Doc} (hmem : base.lines.length + w.p.size + w.q.size < isizeCount) :
    admitMerge checks base left right = some (.merged r w) ↔ Kernel.admitMerge base left right = .merged r w := by
  by_cases hdiffs : diff base left = w.p ∧ diff base right = w.q
  · obtain ⟨hp, hq⟩ := hdiffs
    rw [← hp, ← hq] at hmem
    unfold admitMerge Kernel.admitMerge
    dsimp only
    rw [commute_eq (fits_diff base left) (fits_diff base right) hmem, Option.bind_eq_bind, Option.bind_some]
    cases hcommute : Omoplata.commute (diff base left) (diff base right) with
    | overlap => simp
    | independent p' q' =>
        obtain ⟨result, hresult, hmachine⟩ := @combine_of_commute checks base left right p' q' hcommute hmem
        simp [hmachine, hresult]
  · refine iff_of_false (fun h => hdiffs ?_) fun h => hdiffs ?_
    · unfold admitMerge at h
      obtain ⟨commutation, -, h⟩ := Option.bind_eq_some_iff.mp h
      cases commutation with
      | overlap => simp at h
      | independent p' q' =>
          obtain ⟨combined, -, h⟩ := Option.bind_eq_some_iff.mp h
          cases combined with
          | error e => simp at h
          | ok result =>
              obtain ⟨-, rfl⟩ : result = r ∧ _ := by simpa using h
              exact ⟨rfl, rfl⟩
    · have hadmitted := Kernel.admitMerge_eq_merged_iff.mp h
      exact ⟨hadmitted.1, hadmitted.2.1⟩

/-- The checker stops at a hunk whose end is no word, and does on words what it does on numbers
    otherwise. -/
theorem verifyWitness_eq (hmem : base.lines.length + w.p.size + w.q.size < isizeCount) :
    Stops checks base w ∧ verifyWitness checks base w r = none ∨
      ¬ Stops checks base w ∧ verifyWitness checks base w r = some (Kernel.verifyWitness base w r) := by
  have hcounts : isizeCount < usizeCount := by decide
  unfold Stops verifyWitness
  rcases @apply_eq checks w.p base (by omega) with ⟨hover, hrun⟩ | ⟨hover, hrun⟩
  · exact .inl ⟨.inl hover, by rw [hrun]; rfl⟩
  rw [hrun, Option.bind_eq_bind, Option.bind_some]
  cases hleft : Omoplata.apply w.p base with
  | error e =>
      refine .inr ⟨?_, ?_⟩
      · rintro (h | ⟨hfit, -⟩)
        · exact hover h
        · cases hleft.symm.trans (apply_of_fits hfit)
      · unfold Kernel.verifyWitness
        rw [hleft]
        rfl
  | ok left =>
      dsimp only
      rcases @apply_eq checks w.q base (by omega) with ⟨hover', hrun'⟩ | ⟨hover', hrun'⟩
      · exact .inl ⟨.inr ⟨(apply_eq_ok_iff.mp hleft).1, hover'⟩, by rw [hrun']; rfl⟩
      · refine .inr ⟨fun h => h.elim hover fun h => hover' h.2, ?_⟩
        rw [hrun', Option.bind_some]
        cases hright : Omoplata.apply w.q base with
        | error e =>
            unfold Kernel.verifyWitness
            rw [hleft, hright]
            rfl
        | ok right =>
            dsimp only
            by_cases hdiffs : diff base left ≠ w.p ∨ diff base right ≠ w.q
            · unfold Kernel.verifyWitness
              rw [if_pos hdiffs, hleft, hright]
              simp only [hdiffs, if_true]
              rfl
            · rw [if_neg hdiffs]
              obtain ⟨hp, hq⟩ := not_or.mp hdiffs
              exact verifyCombined_eq (not_ne_iff.mp hp) (not_ne_iff.mp hq) hmem

/-- The checker is exact, and admission never falls back on a conflict for patches that commute,
    just if the checker does not stop. All lines are held in memory, which bounds how many there are. -/
theorem verifyWitness_exact_iff (checks : Bool) (base r : Doc) (w : CommutationWitness)
    (hmem : base.lines.length + w.p.size + w.q.size < isizeCount) :
    ((∃ verdict, verifyWitness checks base w r = some verdict ∧
        (verdict = true ↔ ∃ left right, apply checks w.p base = some (.ok left) ∧
          apply checks w.q base = some (.ok right) ∧ admitMerge checks base left right = some (.merged r w))) ∧
      (∀ left right, admitMerge checks base left right = some (.merged r w) →
        verifyWitness checks base w r = some true) ∧
      ∀ left right p' q', base.lines.length + (diff base left).size + (diff base right).size < isizeCount →
        commute checks (diff base left) (diff base right) = some (.independent p' q') →
          ∃ result, combine checks base (diff base left) q' = some (.ok result)) ↔
    ¬ Stops checks base w := by
  have hcounts : isizeCount < usizeCount := by decide
  obtain ⟨hexact, hadmitted, -⟩ := verifyWitness_exact base r w
  rcases @verifyWitness_eq checks base r w hmem with ⟨hstops, hrun⟩ | ⟨hstops, hrun⟩
  · refine iff_of_false ?_ (not_not_intro hstops)
    rintro ⟨⟨verdict, hverdict, -⟩, -⟩
    rw [hrun] at hverdict
    cases hverdict
  refine iff_of_true ⟨⟨_, hrun, ?_⟩, fun left right h => ?_, fun left right p' q' hmem' h => ?_⟩ hstops
  · rw [hexact]
    -- what applies on words applies on numbers, and the other way around
    have happly : ∀ p side, base.lines.length + p.size < usizeCount →
        (apply checks p base = some (.ok side) ↔ Omoplata.apply p base = .ok side) := by
      intro p side hsmall
      refine ⟨fun h => ?_, fun h => apply_of_ok h (by omega)⟩
      rcases @apply_eq checks p base hsmall with ⟨-, hnone⟩ | ⟨-, hsome⟩
      · rw [hnone] at h
        cases h
      · exact Option.some.inj (hsome.symm.trans h)
    simp only [happly w.p _ (by omega), happly w.q _ (by omega), admitMerge_eq_merged_iff hmem]
  · rw [hrun, hadmitted left right ((admitMerge_eq_merged_iff hmem).mp h)]
  · rw [commute_eq (fits_diff base left) (fits_diff base right) hmem'] at h
    obtain ⟨result, -, hresult⟩ := @combine_of_commute checks base left right p' q' (Option.some.inj h) hmem'
    exact ⟨result, hresult⟩

/-- Two one-line edits of a document. -/
theorem verifyWitness_exact_iff_edits :
    let base : Doc := ⟨["a".toList, "b".toList]⟩
    let w : CommutationWitness := ⟨⟨[⟨0, ["a".toList], ["x".toList]⟩]⟩, ⟨[⟨1, ["b".toList], ["y".toList]⟩]⟩⟩
    ∃ verdict, verifyWitness true base w ⟨["x".toList, "y".toList]⟩ = some verdict ∧
      (verdict = true ↔ ∃ left right, apply true w.p base = some (.ok left) ∧ apply true w.q base = some (.ok right) ∧
        admitMerge true base left right = some (.merged ⟨["x".toList, "y".toList]⟩ w)) := by
  intro base w
  have hsmall : ∀ p ∈ [w.p, w.q], ∀ h ∈ p.hunks, h.stop < usizeCount := by decide
  refine ((verifyWitness_exact_iff true base ⟨["x".toList, "y".toList]⟩ w (by decide)).mpr ?_).1
  rintro (hover | ⟨-, hover⟩)
  · exact not_overruns_of_stop_lt (hsmall w.p (by simp)) hover
  · exact not_overruns_of_stop_lt (hsmall w.q (by simp)) hover

/-- A witness whose hunk starts at the last word stops the checker, in every build. -/
theorem verifyWitness_stops :
    let base : Doc := ⟨["a".toList]⟩
    let w : CommutationWitness := ⟨⟨[⟨usizeCount - 1, ["x".toList], []⟩]⟩, ⟨[]⟩⟩
    verifyWitness true base w base = none ∧ verifyWitness false base w base = none := by
  decide +kernel

end

end Usize

end Omoplata
