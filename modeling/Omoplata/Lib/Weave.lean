-- SUMMARY: Lists cut in step with a third one, which takes over what the second has more often than the first.
import Mathlib.Data.List.Basic

/-!
# Lists cut in step

`Woven b l m` cuts three lists in step: in a region where `l` differs from `b`, the list
`m` is as `l`, and between two regions all three have a run in common. What `l` has more
often than `b` is then in `m`, also where the first or the last element of all three is
changed alike: behind a run the changed element is out of reach of a region. Where both
are changed that takes a run that keeps the two ends apart: `Gripped`.
-/

universe u

/-- Three lists cut in step: regions, with a run in common between two of them. -/
inductive Woven {α : Type u} : List α → List α → List α → Prop
  | region {b l m : List α} (h : l = b ∨ m = l) : Woven b l m
  | run {b l m b' l' m' : List α} (h : l = b ∨ m = l) (z : List α) (hz : z ≠ [])
      (rest : Woven b' l' m') : Woven (b ++ (z ++ b')) (l ++ (z ++ l')) (m ++ (z ++ m'))

namespace Woven

variable {α : Type u} {b l m : List α}

/-- Change the first element; the empty list stands for one that holds `a`. -/
def onFirst (a : α) (f : α → α) : List α → List α
  | [] => [f a]
  | x :: xs => f x :: xs

/-- Change the last element; the empty list stands for one that holds `a`. -/
def onLast (a : α) (f : α → α) (xs : List α) : List α := (onFirst a f xs.reverse).reverse

theorem onFirst_append {xs : List α} (hxs : xs ≠ []) (a : α) (f : α → α) (ys : List α) :
    onFirst a f (xs ++ ys) = onFirst a f xs ++ ys := by
  cases xs with
  | nil => exact absurd rfl hxs
  | cons x xs => rfl

theorem onLast_append (xs : List α) {ys : List α} (hys : ys ≠ []) (a : α) (f : α → α) :
    onLast a f (xs ++ ys) = xs ++ onLast a f ys := by
  unfold onLast
  rw [List.reverse_append, onFirst_append (List.reverse_ne_nil_iff.mpr hys), List.reverse_append,
    List.reverse_reverse]

/-! ## Both ends -/

theorem snoc (hw : Woven b l m) {z b' l' m' : List α} (hz : z ≠ []) (h : l' = b' ∨ m' = l') :
    Woven (b ++ (z ++ b')) (l ++ (z ++ l')) (m ++ (z ++ m')) := by
  induction hw with
  | region h₀ => exact .run h₀ z hz (.region h)
  | run h₀ z₀ hz₀ _ ih =>
      have hwoven := Woven.run h₀ z₀ hz₀ ih
      simpa only [List.append_assoc] using hwoven

theorem reverse (hw : Woven b l m) : Woven b.reverse l.reverse m.reverse := by
  have hregion : ∀ {b l m : List α}, l = b ∨ m = l →
      l.reverse = b.reverse ∨ m.reverse = l.reverse := by
    intro b l m h
    rcases h with rfl | rfl
    · exact .inl rfl
    · exact .inr rfl
  induction hw with
  | region h => exact .region (hregion h)
  | run h z hz _ ih =>
      have hwoven := ih.snoc (List.reverse_ne_nil_iff.mpr hz) (hregion h)
      simpa only [List.reverse_append, List.append_assoc] using hwoven

/-! ## What is had in excess -/

variable [BEq α] [LawfulBEq α] {x : α}

theorem mem_of_count_lt (hw : Woven b l m) (hx : b.count x < l.count x) : x ∈ m := by
  induction hw with
  | region h =>
      rcases h with rfl | rfl
      · exact absurd hx (Nat.lt_irrefl _)
      · exact List.count_pos_iff.mp (Nat.zero_lt_of_lt hx)
  | @run b l m b' l' m' h z hz rest ih =>
      simp only [List.count_append] at hx
      by_cases hrest : b'.count x < l'.count x
      · exact List.mem_append_right _ (List.mem_append_right _ (ih hrest))
      · -- the excess lies in the region in front
        have hfront : b.count x < l.count x := by omega
        rcases h with rfl | rfl
        · exact absurd hfront (Nat.lt_irrefl _)
        · exact List.mem_append_left _ (List.count_pos_iff.mp (Nat.zero_lt_of_lt hfront))

theorem mem_onFirst_of_count_lt (hw : Woven b l m) (a : α) (f : α → α)
    (hx : (onFirst a f b).count x < (onFirst a f l).count x) : x ∈ onFirst a f m := by
  cases hw with
  | region h =>
      rcases h with rfl | rfl
      · exact absurd hx (Nat.lt_irrefl _)
      · exact List.count_pos_iff.mp (Nat.zero_lt_of_lt hx)
  | @run b l m b' l' m' h z hz rest =>
      have hcons : ∀ xs : List α, xs ++ z ≠ [] := fun xs => List.append_ne_nil_of_right_ne_nil xs hz
      simp only [← List.append_assoc, onFirst_append (hcons _), List.count_append] at hx ⊢
      rcases h with rfl | rfl
      · exact List.mem_append_right _ (rest.mem_of_count_lt (by omega))
      · by_cases hfront : x ∈ onFirst a f (m ++ z)
        · exact List.mem_append_left _ hfront
        · have hzero : (onFirst a f (m ++ z)).count x = 0 := List.count_eq_zero.mpr hfront
          exact List.mem_append_right _ (rest.mem_of_count_lt (by omega))

theorem mem_onLast_of_count_lt (hw : Woven b l m) (a : α) (f : α → α)
    (hx : (onLast a f b).count x < (onLast a f l).count x) : x ∈ onLast a f m := by
  unfold onLast at hx ⊢
  simp only [List.count_reverse, List.mem_reverse] at hx ⊢
  exact hw.reverse.mem_onFirst_of_count_lt a f hx

/-! ## Both ends changed -/

/-- Change the first and the last element. -/
def onEnds (a : α) (f g : α → α) (xs : List α) : List α := onLast a g (onFirst a f xs)

omit [BEq α] [LawfulBEq α] in
theorem onEnds_append {xs ys : List α} (hxs : xs ≠ []) (hys : ys ≠ []) (a : α) (f g : α → α) :
    onEnds a f g (xs ++ ys) = onFirst a f xs ++ onLast a g ys := by
  rw [onEnds, onFirst_append hxs, onLast_append _ hys]

omit [BEq α] [LawfulBEq α] in
theorem prepend (hw : Woven b l m) (z : List α) : Woven (z ++ b) (z ++ l) (z ++ m) := by
  by_cases hz : z = []
  · rw [hz]
    exact hw
  · have hfront : ([] : List α) = [] ∨ ([] : List α) = [] := .inl rfl
    exact .run hfront z hz hw

/-- A cut between two parts that none of the three lacks keeps the ends apart. -/
theorem mem_onEnds_append (hw : Woven b l m) (hne : b ≠ [] ∧ l ≠ [] ∧ m ≠ []) {b' l' m' : List α}
    (hw' : Woven b' l' m') (hne' : b' ≠ [] ∧ l' ≠ [] ∧ m' ≠ []) (a : α) (f g : α → α)
    (hx : (onEnds a f g (b ++ b')).count x < (onEnds a f g (l ++ l')).count x) :
    x ∈ onEnds a f g (m ++ m') := by
  rw [onEnds_append hne.1 hne'.1, onEnds_append hne.2.1 hne'.2.1, List.count_append, List.count_append] at hx
  rw [onEnds_append hne.2.2 hne'.2.2]
  by_cases hfront : (onFirst a f b).count x < (onFirst a f l).count x
  · exact List.mem_append_left _ (hw.mem_onFirst_of_count_lt a f hfront)
  · exact List.mem_append_right _ (hw'.mem_onLast_of_count_lt a g (by omega))

end Woven

/-- Three lists cut in step so that no region reaches both ends: they are one region, or start
    or end with the same element, or can be cut in two. -/
inductive Gripped {α : Type u} : List α → List α → List α → Prop
  | region {b l m : List α} (h : l = b ∨ m = l) : Gripped b l m
  | first {b l m : List α} (x : α) (h : Woven b l m) : Gripped (x :: b) (x :: l) (x :: m)
  | last {b l m : List α} (x : α) (h : Woven b l m) : Gripped (b ++ [x]) (l ++ [x]) (m ++ [x])
  | apart {b l m b' l' m' : List α} (h : Woven b l m) (hne : b ≠ [] ∧ l ≠ [] ∧ m ≠ []) (h' : Woven b' l' m')
      (hne' : b' ≠ [] ∧ l' ≠ [] ∧ m' ≠ []) : Gripped (b ++ b') (l ++ l') (m ++ m')

/-- What is had in excess with both ends changed is there with both ends changed. -/
theorem Gripped.mem_onEnds_of_count_lt {α : Type u} [BEq α] [LawfulBEq α] {b l m : List α} {x : α}
    (hg : Gripped b l m) (a : α) (f g : α → α)
    (hx : (Woven.onEnds a f g b).count x < (Woven.onEnds a f g l).count x) : x ∈ Woven.onEnds a f g m := by
  have hregion : ∀ {b l m : List α}, l = b ∨ m = l →
      (Woven.onEnds a f g b).count x < (Woven.onEnds a f g l).count x → x ∈ Woven.onEnds a f g m := by
    intro b l m h hx
    rcases h with rfl | rfl
    · exact absurd hx (Nat.lt_irrefl _)
    · exact List.count_pos_iff.mp (Nat.zero_lt_of_lt hx)
  cases hg with
  | region h => exact hregion h hx
  | @first b l m y h =>
      have hfirst : Woven [y] [y] [y] := .region (.inl rfl)
      cases h with
      | region h =>
          refine hregion (h.imp (fun heq => ?_) fun heq => ?_) hx <;> rw [heq]
      | run h z hz rest =>
          exact hfirst.mem_onEnds_append (by simp) (.run h z hz rest) (by simp [hz]) a f g hx
  | @last b l m y h =>
      have hlast : Woven [y] [y] [y] := .region (.inl rfl)
      cases h with
      | region h =>
          refine hregion (h.imp (fun heq => ?_) fun heq => ?_) hx <;> rw [heq]
      | run h z hz rest =>
          exact (Woven.run h z hz rest).mem_onEnds_append (by simp [hz]) hlast (by simp) a f g hx
  | apart h hne h' hne' => exact h.mem_onEnds_append hne h' hne' a f g hx

/-- A region in front of a run keeps the ends apart where the run has two elements, or where what
    is in front of it, or behind it, is empty in all three lists or in none. -/
theorem gripped_of_run {α : Type u} {o s t b l m : List α} (h : s = o ∨ t = s) (x : α) (tail : List α)
    (hw : Woven b l m)
    (hkeep : tail ≠ [] ∨ (o = [] ∧ s = [] ∧ t = [] ∨ o ≠ [] ∧ s ≠ [] ∧ t ≠ []) ∨
      (b = [] ∧ l = [] ∧ m = [] ∨ b ≠ [] ∧ l ≠ [] ∧ m ≠ [])) :
    Gripped (o ++ x :: (tail ++ b)) (s ++ x :: (tail ++ l)) (t ++ x :: (tail ++ m)) := by
  have hfront : Woven (o ++ [x]) (s ++ [x]) (t ++ [x]) := .run h [x] (by simp) (.region (.inl rfl))
  have hne : o ++ [x] ≠ [] ∧ s ++ [x] ≠ [] ∧ t ++ [x] ≠ [] := by simp
  have hcut : ∀ {b l m : List α}, Woven b l m → b ≠ [] ∧ l ≠ [] ∧ m ≠ [] →
      Gripped (o ++ x :: b) (s ++ x :: l) (t ++ x :: m) := by
    intro b l m hw hback
    have happ := Gripped.apart hfront hne hw hback
    simpa only [List.append_assoc, List.singleton_append] using happ
  by_cases htail : tail = []
  · subst htail
    simp only [List.nil_append]
    rcases hkeep.resolve_left (by simp) with (⟨rfl, rfl, rfl⟩ | hne') | (⟨rfl, rfl, rfl⟩ | hback)
    · exact .first x hw
    · exact .apart (.region h) hne' (hw.prepend [x]) (by simp)
    · exact .last x (.region h)
    · exact hcut hw hback
  · exact hcut (hw.prepend tail) (by simp [htail])
