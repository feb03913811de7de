-- SUMMARY: Longest common subsequences by the suffix recurrence, the alignment read off it, and how it splits at an anchor.
import Mathlib.Data.List.Basic

/-!
# Longest common subsequences

`lcsLength` is the suffix recurrence and `walk` the alignment it selects: on
equal heads it matches, else it drops the head whose removal costs less, the
first list's on a tie.

The alignment is not local by definition, since each choice looks at whole
suffixes. `walk_append` shows that it is local all the same: between two points
the walk passes through, it is the walk of the two pieces alone.
-/

namespace Lcs

universe u
variable {α : Type u} [DecidableEq α]

/-- The length of a longest common subsequence. -/
def lcsLength : List α → List α → Nat
  | [], _ => 0
  | _ :: _, [] => 0
  | x :: xs, y :: ys =>
      if x = y then lcsLength xs ys + 1
      else max (lcsLength xs (y :: ys)) (lcsLength (x :: xs) ys)
termination_by a b => a.length + b.length

/-- Index pairs moved by `i` in the first list and `j` in the second. -/
def shift (i j : Nat) (ps : List (Nat × Nat)) : List (Nat × Nat) :=
  ps.map fun p => (p.1 + i, p.2 + j)

/-- The alignment of two lists: the index pairs of the elements it matches. -/
def walk : List α → List α → List (Nat × Nat)
  | [], _ => []
  | _ :: _, [] => []
  | x :: xs, y :: ys =>
      if x = y then (0, 0) :: shift 1 1 (walk xs ys)
      else if lcsLength xs (y :: ys) ≥ lcsLength (x :: xs) ys then
        shift 1 0 (walk xs (y :: ys))
      else shift 0 1 (walk (x :: xs) ys)
termination_by a b => a.length + b.length

@[simp] theorem lcsLength_nil_left (b : List α) : lcsLength [] b = 0 := by simp [lcsLength]

@[simp] theorem lcsLength_nil_right (a : List α) : lcsLength a [] = 0 := by
  cases a <;> simp [lcsLength]

theorem lcsLength_cons_cons (x y : α) (xs ys : List α) :
    lcsLength (x :: xs) (y :: ys) =
      if x = y then lcsLength xs ys + 1
      else max (lcsLength xs (y :: ys)) (lcsLength (x :: xs) ys) := by
  rw [lcsLength]

@[simp] theorem walk_nil_left (b : List α) : walk [] b = [] := by simp [walk]

@[simp] theorem walk_nil_right (a : List α) : walk a [] = [] := by cases a <;> simp [walk]

theorem walk_cons_cons (x y : α) (xs ys : List α) :
    walk (x :: xs) (y :: ys) =
      if x = y then (0, 0) :: shift 1 1 (walk xs ys)
      else if lcsLength xs (y :: ys) ≥ lcsLength (x :: xs) ys then
        shift 1 0 (walk xs (y :: ys))
      else shift 0 1 (walk (x :: xs) ys) := by
  rw [walk]

/-! ## Shifting -/

@[simp] theorem shift_nil (i j : Nat) : shift i j [] = [] := rfl

theorem shift_cons (i j : Nat) (p : Nat × Nat) (ps : List (Nat × Nat)) :
    shift i j (p :: ps) = (p.1 + i, p.2 + j) :: shift i j ps := rfl

@[simp] theorem shift_zero (ps : List (Nat × Nat)) : shift 0 0 ps = ps := by simp [shift]

@[simp] theorem length_shift (i j : Nat) (ps : List (Nat × Nat)) :
    (shift i j ps).length = ps.length := by simp [shift]

theorem shift_append (i j : Nat) (ps qs : List (Nat × Nat)) :
    shift i j (ps ++ qs) = shift i j ps ++ shift i j qs := by simp [shift]

theorem shift_shift (i j k l : Nat) (ps : List (Nat × Nat)) :
    shift i j (shift k l ps) = shift (k + i) (l + j) ps := by
  simp [shift, Nat.add_assoc]

theorem mem_shift {i j : Nat} {p : Nat × Nat} {ps : List (Nat × Nat)} :
    p ∈ shift i j ps ↔ ∃ q ∈ ps, (q.1 + i, q.2 + j) = p := by simp [shift]

/-! ## Optimality -/

/-- No common subsequence is longer than `lcsLength`. -/
theorem length_le_lcsLength {s a b : List α} (ha : s.Sublist a) (hb : s.Sublist b) :
    s.length ≤ lcsLength a b := by
  induction a, b using lcsLength.induct generalizing s with
  | case1 b => simp [List.sublist_nil.mp ha]
  | case2 x xs => simp [List.sublist_nil.mp hb]
  | case3 xs x ys ih =>
      rw [lcsLength_cons_cons, if_pos rfl]
      have := ih ha.tail hb.tail
      rw [List.length_tail] at this
      omega
  | case4 x xs y ys hne ih₁ ih₂ =>
      rw [lcsLength_cons_cons, if_neg hne]
      rcases List.sublist_cons_iff.mp ha with ha' | ⟨s', rfl, -⟩
      · exact Nat.le_trans (ih₁ ha' hb) (Nat.le_max_left _ _)
      · rcases List.sublist_cons_iff.mp hb with hb' | ⟨s'', heq, -⟩
        · exact Nat.le_trans (ih₂ ha hb') (Nat.le_max_right _ _)
        · exact absurd (List.cons.inj heq).1 hne

/-- Some common subsequence has length `lcsLength`. -/
theorem exists_common_sublist (a b : List α) :
    ∃ s : List α, s.Sublist a ∧ s.Sublist b ∧ s.length = lcsLength a b := by
  induction a, b using lcsLength.induct with
  | case1 b => exact ⟨[], by simp⟩
  | case2 x xs => exact ⟨[], by simp⟩
  | case3 xs x ys ih =>
      obtain ⟨s, ha, hb, hlen⟩ := ih
      exact ⟨x :: s, ha.cons_cons x, hb.cons_cons x, by simp [lcsLength_cons_cons, hlen]⟩
  | case4 x xs y ys hne ih₁ ih₂ =>
      rw [lcsLength_cons_cons, if_neg hne]
      rcases Nat.le_total (lcsLength xs (y :: ys)) (lcsLength (x :: xs) ys) with hle | hle
      · obtain ⟨s, ha, hb, hlen⟩ := ih₂
        exact ⟨s, ha, hb.cons y, by omega⟩
      · obtain ⟨s, ha, hb, hlen⟩ := ih₁
        exact ⟨s, ha.cons x, hb, by omega⟩

/-- Common subsequences of two pieces join up. -/
theorem lcsLength_add_le (a b c d : List α) :
    lcsLength a b + lcsLength c d ≤ lcsLength (a ++ c) (b ++ d) := by
  obtain ⟨s, hsa, hsb, hs⟩ := exists_common_sublist a b
  obtain ⟨t, htc, htd, ht⟩ := exists_common_sublist c d
  have := length_le_lcsLength (hsa.append htc) (hsb.append htd)
  rw [List.length_append] at this
  omega

/-- The alignment is as long as a common subsequence can be. -/
theorem length_walk (a b : List α) : (walk a b).length = lcsLength a b := by
  induction a, b using walk.induct with
  | case1 b => simp
  | case2 x xs => simp
  | case3 xs x ys ih => simp [walk_cons_cons, lcsLength_cons_cons, ih]
  | case4 x xs y ys hne hge ih =>
      rw [walk_cons_cons, if_neg hne, if_pos hge, lcsLength_cons_cons, if_neg hne, length_shift, ih]
      omega
  | case5 x xs y ys hne hlt ih =>
      rw [walk_cons_cons, if_neg hne, if_neg hlt, lcsLength_cons_cons, if_neg hne, length_shift, ih]
      omega

/-! ## What the alignment matches -/

/-- Matched positions hold equal elements. -/
theorem getElem?_of_mem_walk {a b : List α} {p : Nat × Nat} (h : p ∈ walk a b) :
    ∃ x, a[p.1]? = some x ∧ b[p.2]? = some x := by
  induction a, b using walk.induct generalizing p with
  | case1 b => simp at h
  | case2 x xs => simp at h
  | case3 xs x ys ih =>
      rw [walk_cons_cons, if_pos rfl] at h
      rcases List.mem_cons.mp h with rfl | h
      · exact ⟨x, rfl, rfl⟩
      · obtain ⟨q, hq, rfl⟩ := mem_shift.mp h
        simpa using ih hq
  | case4 x xs y ys hne hge ih =>
      rw [walk_cons_cons, if_neg hne, if_pos hge] at h
      obtain ⟨q, hq, rfl⟩ := mem_shift.mp h
      simpa using ih hq
  | case5 x xs y ys hne hlt ih =>
      rw [walk_cons_cons, if_neg hne, if_neg hlt] at h
      obtain ⟨q, hq, rfl⟩ := mem_shift.mp h
      simpa using ih hq

theorem lt_of_mem_walk {a b : List α} {p : Nat × Nat} (h : p ∈ walk a b) :
    p.1 < a.length ∧ p.2 < b.length := by
  obtain ⟨x, ha, hb⟩ := getElem?_of_mem_walk h
  exact ⟨(List.getElem?_eq_some_iff.mp ha).1, (List.getElem?_eq_some_iff.mp hb).1⟩

/-- One pair stands before another in both lists. -/
def Before (p q : Nat × Nat) : Prop := p.1 < q.1 ∧ p.2 < q.2

theorem pairwise_shift {i j : Nat} {ps : List (Nat × Nat)} (h : ps.Pairwise Before) :
    (shift i j ps).Pairwise Before :=
  List.Pairwise.map _ (fun _ _ hpq => ⟨by have := hpq.1; simp only; omega,
    by have := hpq.2; simp only; omega⟩) h

/-- The alignment advances in both lists at every match. -/
theorem pairwise_walk (a b : List α) : (walk a b).Pairwise Before := by
  induction a, b using walk.induct with
  | case1 b => simp
  | case2 x xs => simp
  | case3 xs x ys ih =>
      rw [walk_cons_cons, if_pos rfl]
      refine List.pairwise_cons.mpr ⟨fun q hq => ?_, pairwise_shift ih⟩
      obtain ⟨q, -, rfl⟩ := mem_shift.mp hq
      exact ⟨Nat.succ_pos _, Nat.succ_pos _⟩
  | case4 x xs y ys hne hge ih =>
      rw [walk_cons_cons, if_neg hne, if_pos hge]
      exact pairwise_shift ih
  | case5 x xs y ys hne hlt ih =>
      rw [walk_cons_cons, if_neg hne, if_neg hlt]
      exact pairwise_shift ih

/-- A list is aligned with itself element by element. -/
theorem walk_self (a : List α) : walk a a = (List.range a.length).map fun i => (i, i) := by
  induction a with
  | nil => simp
  | cons x xs ih =>
      rw [walk_cons_cons, if_pos rfl, ih, List.length_cons, List.range_succ_eq_map]
      simp [shift]

theorem eq_of_mem_walk_self {a : List α} {i j : Nat} (h : (i, j) ∈ walk a a) : i = j := by
  rw [walk_self, List.mem_map] at h
  obtain ⟨k, -, heq⟩ := h
  obtain ⟨rfl, rfl⟩ := Prod.mk.inj heq
  rfl

/-- An element is matched at most once. -/
theorem snd_eq_of_mem_walk {a b : List α} {i j k : Nat} (h : (i, j) ∈ walk a b)
    (h' : (i, k) ∈ walk a b) : j = k := by
  obtain ⟨m, hm, hmem⟩ := List.getElem_of_mem h
  obtain ⟨n, hn, hnmem⟩ := List.getElem_of_mem h'
  have hbefore := List.pairwise_iff_getElem.mp (pairwise_walk a b)
  rcases Nat.lt_trichotomy m n with hlt | rfl | hgt
  · have hfst := (hbefore m n hm hn hlt).1
    rw [hmem, hnmem] at hfst
    exact absurd hfst (Nat.lt_irrefl i)
  · rw [hmem] at hnmem
    exact congrArg Prod.snd hnmem
  · have hfst := (hbefore n m hn hm hgt).1
    rw [hmem, hnmem] at hfst
    exact absurd hfst (Nat.lt_irrefl i)

omit [DecidableEq α] in
/-- A matching of equal elements in order is a common subsequence. -/
theorem exists_sublist_of_matching {a b : List α} {ps : List (Nat × Nat)} {i j : Nat} (hord : ps.Pairwise Before)
    (hfrom : ∀ p ∈ ps, i ≤ p.1 ∧ j ≤ p.2) (hmatch : ∀ p ∈ ps, ∃ x, a[p.1]? = some x ∧ b[p.2]? = some x) :
    ∃ s : List α, s.length = ps.length ∧ s.Sublist (a.drop i) ∧ s.Sublist (b.drop j) := by
  induction ps generalizing i j with
  | nil => exact ⟨[], rfl, List.nil_sublist _, List.nil_sublist _⟩
  | cons p ps ih =>
      obtain ⟨hbefore, hord⟩ := List.pairwise_cons.mp hord
      obtain ⟨x, ha, hb⟩ := hmatch p List.mem_cons_self
      obtain ⟨hi, hj⟩ := hfrom p List.mem_cons_self
      obtain ⟨s, hlen, hsa, hsb⟩ := ih hord hbefore fun q hq => hmatch q (List.mem_cons_of_mem p hq)
      obtain ⟨ha', hax⟩ := List.getElem?_eq_some_iff.mp ha
      obtain ⟨hb', hbx⟩ := List.getElem?_eq_some_iff.mp hb
      refine ⟨x :: s, congrArg Nat.succ hlen, ?_, ?_⟩
      · apply List.Sublist.trans _ (List.drop_sublist_drop_left a hi)
        rw [List.drop_eq_getElem_cons ha', hax]
        exact hsa.cons_cons x
      · apply List.Sublist.trans _ (List.drop_sublist_drop_left b hj)
        rw [List.drop_eq_getElem_cons hb', hbx]
        exact hsb.cons_cons x

/-- No matching of equal elements in order is longer than the alignment. -/
theorem length_le_length_walk {a b : List α} {ps : List (Nat × Nat)} (hord : ps.Pairwise Before)
    (hmatch : ∀ p ∈ ps, ∃ x, a[p.1]? = some x ∧ b[p.2]? = some x) : ps.length ≤ (walk a b).length := by
  obtain ⟨s, hlen, hsa, hsb⟩ := exists_sublist_of_matching hord
    (fun p _ => ⟨Nat.zero_le p.1, Nat.zero_le p.2⟩) hmatch
  rw [length_walk, ← hlen]
  exact length_le_lcsLength hsa hsb

/-! ## Locality -/

@[simp] theorem add_mem_shift {i j m n : Nat} {ps : List (Nat × Nat)} :
    (m + i, n + j) ∈ shift i j ps ↔ (m, n) ∈ ps := by
  rw [mem_shift]
  constructor
  · rintro ⟨⟨k, l⟩, hq, heq⟩
    simp only [Prod.mk.injEq, Nat.add_right_cancel_iff] at heq
    rwa [heq.1, heq.2] at hq
  · intro h
    exact ⟨(m, n), h, rfl⟩

/-- A shift by one in a list keeps its head out of every pair. -/
private theorem fst_zero_not_mem_shift {n j : Nat} {ps : List (Nat × Nat)} :
    (0, n) ∉ shift 1 j ps := by
  simp [mem_shift]

private theorem snd_zero_not_mem_shift {n i : Nat} {ps : List (Nat × Nat)} :
    (n, 0) ∉ shift i 1 ps := by
  simp [mem_shift]

/-- The walk to a match with the head of the first list drops what stands before
    the match in the second. -/
private theorem walk_append_nil_left (a' b b' : List α)
    (h : (0, b.length) ∈ walk a' (b ++ b')) :
    walk a' (b ++ b') = shift 0 b.length (walk a' b') := by
  induction b with
  | nil => simp
  | cons y ys ih =>
      cases a' with
      | nil => simp at h
      | cons x xs =>
          simp only [List.cons_append, walk_cons_cons] at h ⊢
          split at h
          · rcases List.mem_cons.mp h with heq | hmem
            · simp at heq
            · exact absurd hmem fst_zero_not_mem_shift
          · split at h
            · exact absurd h fst_zero_not_mem_shift
            · rename_i hne hlt
              have hmem : (0, ys.length) ∈ walk (x :: xs) (ys ++ b') := add_mem_shift.mp h
              rw [if_neg hne, if_neg hlt, ih hmem, shift_shift]
              rfl

/-- The walk to a match with the head of the second list drops what stands
    before the match in the first. -/
private theorem walk_append_nil_right (a a' b' : List α)
    (h : (a.length, 0) ∈ walk (a ++ a') b') :
    walk (a ++ a') b' = shift a.length 0 (walk a' b') := by
  induction a with
  | nil => simp
  | cons x xs ih =>
      cases b' with
      | nil => simp at h
      | cons y ys =>
          simp only [List.cons_append, walk_cons_cons] at h ⊢
          split at h
          · rcases List.mem_cons.mp h with heq | hmem
            · simp at heq
            · exact absurd hmem snd_zero_not_mem_shift
          · split at h
            · rename_i hne hge
              have hmem : (xs.length, 0) ∈ walk (xs ++ a') (y :: ys) := add_mem_shift.mp h
              rw [if_neg hne, if_pos hge, ih hmem, shift_shift]
              rfl
            · exact absurd h snd_zero_not_mem_shift

/-- Where the alignment of two joined pairs of pieces matches the heads of the
    second pair, it is the alignment of the first pair followed by that of the
    second: no choice in the first pair depends on what comes after. -/
theorem walk_append (a a' b b' : List α) (h : (a.length, b.length) ∈ walk (a ++ a') (b ++ b')) :
    walk (a ++ a') (b ++ b') = walk a b ++ shift a.length b.length (walk a' b') := by
  induction a, b using lcsLength.induct with
  | case1 b => simpa using walk_append_nil_left a' b b' h
  | case2 x xs => simpa using walk_append_nil_right (x :: xs) a' b' h
  | case3 xs x ys ih =>
      simp only [List.cons_append, walk_cons_cons, if_true] at h ⊢
      rcases List.mem_cons.mp h with heq | hmem
      · simp at heq
      · rw [ih (add_mem_shift.mp hmem), shift_append, shift_shift]
        rfl
  | case4 x xs y ys hne ih₁ ih₂ =>
      simp only [List.cons_append, walk_cons_cons, if_neg hne] at h ⊢
      -- The taken branch passes through the anchor, so its optimum splits there; the
      -- other branch's optimum is at least its split sum. The comparison carries over.
      split at h
      · rename_i hge
        have hmem : (xs.length, (y :: ys).length) ∈ walk (xs ++ a') (y :: ys ++ b') :=
          add_mem_shift.mp h
        have hwalk := ih₁ hmem
        have hlen := congrArg List.length hwalk
        simp only [List.length_append, length_walk, length_shift] at hlen
        have hother := lcsLength_add_le (x :: xs) ys a' b'
        have hlocal : lcsLength xs (y :: ys) ≥ lcsLength (x :: xs) ys := by
          simp only [List.cons_append] at hlen hother
          omega
        simp only [List.cons_append] at hwalk
        rw [if_pos hge, if_pos hlocal, hwalk, shift_append, shift_shift]
        rfl
      · rename_i hlt
        have hmem : ((x :: xs).length, ys.length) ∈ walk (x :: xs ++ a') (ys ++ b') :=
          add_mem_shift.mp h
        have hwalk := ih₂ hmem
        have hlen := congrArg List.length hwalk
        simp only [List.length_append, length_walk, length_shift] at hlen
        have hother := lcsLength_add_le xs (y :: ys) a' b'
        have hlocal : ¬ lcsLength xs (y :: ys) ≥ lcsLength (x :: xs) ys := by
          simp only [List.cons_append] at hlen hother
          omega
        simp only [List.cons_append] at hwalk
        rw [if_neg hlt, if_neg hlocal, hwalk, shift_append, shift_shift]
        rfl

end Lcs
