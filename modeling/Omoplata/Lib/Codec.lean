-- SUMMARY: Reading items off the front of a list until nothing is left, and when this undoes the writing of them.
import Mathlib.Data.List.Basic
import Mathlib.Data.List.Forall2

/-!
# Readers

A reader takes an item off the front of a list, or refuses. Where it undoes the writing
of one item, reading until nothing is left undoes the writing of many, and the other way
around.
-/

universe u v w

namespace Codec

/-- Something that goes well did so at each step. -/
theorem bind_eq_ok {ε : Type w} {α β : Type u} {x : Except ε α} {f : α → Except ε β} {b : β} :
    x >>= f = .ok b ↔ ∃ a, x = .ok a ∧ f a = .ok b := by
  cases x with
  | error e => simp [bind, Except.bind]
  | ok a => simp [bind, Except.bind]

theorem toOption_eq_some {ε : Type w} {α : Type u} {x : Except ε α} {a : α} : x.toOption = some a ↔ x = .ok a := by
  cases x <;> simp [Except.toOption]

theorem map_eq_ok {ε : Type w} {α : Type u} {β : Type v} {x : Except ε α} {f : α → β} {b : β} :
    x.map f = .ok b ↔ ∃ a, x = .ok a ∧ f a = b := by
  cases x with
  | error e => simp [Except.map]
  | ok a => simp [Except.map]

theorem exists_of_isOk {ε : Type w} {α : Type u} {x : Except ε α} (h : x.isOk = true) : ∃ a, x = .ok a := by
  cases x with
  | error e => cases h
  | ok a => exact ⟨a, rfl⟩

theorem mapError_eq_ok {ε : Type w} {δ : Type v} {α : Type u} {x : Except ε α} {f : ε → δ} {a : α} :
    x.mapError f = .ok a ↔ x = .ok a := by
  cases x with
  | error e => simp [Except.mapError]
  | ok b => simp [Except.mapError]

/-- A step that goes well for every item does so for all of them, with what it gives for each. -/
theorem exists_mapM {ε : Type w} {α β : Type u} {f : α → Except ε β} {P : α → β → Prop} {l : List α}
    (h : ∀ a ∈ l, ∃ b, f a = .ok b ∧ P a b) :
    ∃ bs, l.mapM f = .ok bs ∧ (∀ b ∈ bs, ∃ a ∈ l, P a b) ∧ ∀ a ∈ l, ∃ b ∈ bs, P a b := by
  induction l with
  | nil => exact ⟨[], rfl, by simp, by simp⟩
  | cons a l ih =>
      obtain ⟨⟨b, hb, hP⟩, hl⟩ := List.forall_mem_cons.mp h
      obtain ⟨bs, hbs, hfrom, hto⟩ := ih hl
      refine ⟨b :: bs, ?_, ?_, ?_⟩
      · rw [List.mapM_cons, hb]
        exact bind_eq_ok.mpr ⟨b, rfl, bind_eq_ok.mpr ⟨bs, hbs, rfl⟩⟩
      · refine List.forall_mem_cons.mpr ⟨⟨a, List.mem_cons_self, hP⟩, fun c hc => ?_⟩
        obtain ⟨d, hd, hPd⟩ := hfrom c hc
        exact ⟨d, List.mem_cons_of_mem _ hd, hPd⟩
      · refine List.forall_mem_cons.mpr ⟨⟨b, List.mem_cons_self, hP⟩, fun d hd => ?_⟩
        obtain ⟨c, hc, hPc⟩ := hto d hd
        exact ⟨c, List.mem_cons_of_mem _ hc, hPc⟩

theorem mapM_eq_ok_iff {ε : Type w} {α β : Type u} {f : α → Except ε β} {l : List α} {bs : List β} :
    l.mapM f = .ok bs ↔ List.Forall₂ (fun a b => f a = .ok b) l bs := by
  induction l generalizing bs with
  | nil =>
      rw [List.mapM_nil, List.forall₂_nil_left_iff]
      exact ⟨fun h => (Except.ok.inj h).symm, fun h => h ▸ rfl⟩
  | cons a l ih =>
      rw [List.mapM_cons, List.forall₂_cons_left_iff, bind_eq_ok]
      constructor
      · rintro ⟨b, hb, h⟩
        obtain ⟨bs', hbs, h⟩ := bind_eq_ok.mp h
        exact ⟨b, bs', hb, ih.mp hbs, (Except.ok.inj h).symm⟩
      · rintro ⟨b, bs', hb, hbs, rfl⟩
        exact ⟨b, hb, bind_eq_ok.mpr ⟨bs', ih.mpr hbs, rfl⟩⟩

/-- Something done for so many numbers gives a result at each place. -/
theorem mapM_range_eq_ok_iff {ε : Type w} {β : Type} {f : Nat → Except ε β} {count : Nat} {bs : List β} :
    (List.range count).mapM f = .ok bs ↔ bs.length = count ∧ ∀ i b, bs[i]? = some b → f i = .ok b := by
  rw [mapM_eq_ok_iff, List.forall₂_iff_get]
  constructor
  · rintro ⟨hlength, h⟩
    rw [List.length_range] at hlength
    refine ⟨hlength.symm, fun i b hb => ?_⟩
    obtain ⟨hi, rfl⟩ := List.getElem?_eq_some_iff.mp hb
    simpa only [List.get_eq_getElem, List.getElem_range] using h i (by rwa [List.length_range, hlength]) hi
  · rintro ⟨rfl, h⟩
    refine ⟨List.length_range, fun i _ hi => ?_⟩
    simpa only [List.get_eq_getElem, List.getElem_range] using h i _ (List.getElem?_eq_getElem hi)

/-! ## Items side by side -/

/-- Two lists that go with a third item by item are the same, where they have to be at each item. -/
theorem forall₂_unique {α : Type u} {β : Type v} {R S : α → β → Prop} {l : List α} {bs cs : List β}
    (h : List.Forall₂ R l bs) (h' : List.Forall₂ S l cs) (hsame : ∀ a ∈ l, ∀ b c, R a b → S a c → b = c) : bs = cs := by
  induction h generalizing cs with
  | nil => exact (List.forall₂_nil_left_iff.mp h').symm
  | @cons a b l bs hab _ ih =>
      obtain ⟨c, cs, hac, hrest, rfl⟩ := List.forall₂_cons_left_iff.mp h'
      rw [hsame a List.mem_cons_self b c hab hac, ih hrest fun d hd => hsame d (List.mem_cons_of_mem a hd)]

/-- An item has its counterpart at the same place. -/
theorem forall₂_split {α : Type u} {β : Type v} {R : α → β → Prop} {l front back : List α} {a : α} {bs : List β}
    (h : List.Forall₂ R l bs) (hl : l = front ++ a :: back) :
    ∃ front' b back', bs = front' ++ b :: back' ∧ R a b ∧ List.Forall₂ R back back' := by
  induction front generalizing l bs with
  | nil =>
      subst hl
      obtain ⟨b, bs, hab, hrest, rfl⟩ := List.forall₂_cons_left_iff.mp h
      exact ⟨[], b, bs, rfl, hab, hrest⟩
  | cons d front ih =>
      subst hl
      obtain ⟨c, bs, -, hrest, rfl⟩ := List.forall₂_cons_left_iff.mp h
      obtain ⟨front', b, back', rfl, hab, hback⟩ := ih hrest rfl
      exact ⟨c :: front', b, back', rfl, hab, hback⟩

/-! ## Records -/

section

variable {α : Type u} {β : Type v} {f : α → List β} {l : List α}

/-- Records of one width, laid one behind the other. -/
theorem length_records (width : Nat) (h : ∀ a ∈ l, (f a).length = width) : (l.flatMap f).length = l.length * width := by
  induction l with
  | nil => rw [List.flatMap_nil, List.length_nil, List.length_nil, Nat.zero_mul]
  | cons a l ih =>
      obtain ⟨ha, hl⟩ := List.forall_mem_cons.mp h
      rw [List.flatMap_cons, List.length_append, ha, ih hl, List.length_cons, Nat.succ_mul, Nat.add_comm]

/-- Each record is found by its place in the table. -/
theorem take_drop_record (width : Nat) (h : ∀ a ∈ l, (f a).length = width) {i : Nat} {a : α} (hi : l[i]? = some a)
    (front rest : List β) : ((front ++ l.flatMap f ++ rest).drop (front.length + i * width)).take width = f a := by
  rw [List.append_assoc, ← List.drop_drop, List.drop_left]
  induction l generalizing i with
  | nil => cases hi
  | cons b l ih =>
      obtain ⟨hb, hl⟩ := List.forall_mem_cons.mp h
      rw [List.flatMap_cons, List.append_assoc]
      cases i with
      | zero =>
          cases hi
          rw [Nat.zero_mul, List.drop_zero, ← hb, List.take_left]
      | succ i =>
          rw [Nat.succ_mul, Nat.add_comm, ← List.drop_drop, ← hb, List.drop_left, hb]
          exact ih hl hi

end

/-! ## Separators -/

section

variable {α : Type u} [DecidableEq α]

/-- What comes before the first separator, and what comes behind it. -/
def cut (sep : α) (l : List α) : Option (List α × List α) :=
  (l.findIdx? (· == sep)).map fun i => (l.take i, l.drop (i + 1))

theorem cut_append {sep : α} {front : List α} (h : sep ∉ front) (rest : List α) :
    cut sep (front ++ sep :: rest) = some (front, rest) := by
  have hfind : (front ++ sep :: rest).findIdx? (· == sep) = some front.length := by
    rw [List.findIdx?_append, List.findIdx?_eq_none_iff.mpr, List.findIdx?_cons]
    · simp
    · intro a ha
      rw [beq_eq_false_iff_ne]
      rintro rfl
      exact h ha
  unfold cut
  simp [hfind]

theorem cut_eq_some_iff {sep : α} {l front rest : List α} :
    cut sep l = some (front, rest) ↔ l = front ++ sep :: rest ∧ sep ∉ front := by
  constructor
  · intro h
    simp only [cut, Option.map_eq_some_iff, Prod.mk.injEq] at h
    obtain ⟨i, hfind, rfl, rfl⟩ := h
    obtain ⟨hlt, hsep, hbefore⟩ := List.findIdx?_eq_some_iff_getElem.mp hfind
    rw [beq_iff_eq] at hsep
    refine ⟨?_, fun hmem => ?_⟩
    · rw [← hsep, List.getElem_cons_drop hlt, List.take_append_drop]
    · obtain ⟨j, hj, heq⟩ := List.mem_take_iff_getElem.mp hmem
      exact hbefore j (by omega) (by simpa using heq)
  · rintro ⟨rfl, h⟩
    exact cut_append h rest

end

/-! ## Readers -/

/-- A reader of items. What is left behind an item is shorter. -/
structure Reader (α : Type u) (β : Type v) (ε : Type w) where
  read : List α → Except ε (β × List α)
  shorter : ∀ l x rest, read l = .ok (x, rest) → rest.length < l.length

namespace Reader

variable {α : Type u} {β : Type v} {ε : Type w}

/-- Read items until nothing is left. -/
def all (r : Reader α β ε) (l : List α) : Except ε (List β) :=
  match l with
  | [] => .ok []
  | a :: l =>
      match _h : r.read (a :: l) with
      | .error e => .error e
      | .ok (x, rest) => (r.all rest).map (x :: ·)
termination_by l.length
decreasing_by exact r.shorter _ _ _ _h

variable (r : Reader α β ε)

@[simp] theorem all_nil : r.all [] = .ok [] := by rw [all]

theorem all_of_error {l : List α} {e : ε} (hne : l ≠ []) (h : r.read l = .error e) : r.all l = .error e := by
  cases l with
  | nil => exact absurd rfl hne
  | cons a l =>
      rw [all]
      split
      · simp_all
      · simp_all

theorem all_of_ok {l rest : List α} {x : β} (h : r.read l = .ok (x, rest)) :
    r.all l = (r.all rest).map (x :: ·) := by
  cases l with
  | nil => exact absurd (r.shorter _ _ _ h) (Nat.not_lt_zero _)
  | cons a l =>
      rw [all]
      split
      · simp_all
      · rename_i heq
        rw [h, Except.ok.injEq, Prod.mk.injEq] at heq
        obtain ⟨rfl, rfl⟩ := heq
        rfl

/-- The items that are read, one after the other. -/
theorem all_induct {P : List α → List β → Prop} (hnil : P [] [])
    (hcons : ∀ l x rest xs, r.read l = .ok (x, rest) → P rest xs → P l (x :: xs))
    {l : List α} {xs : List β} (h : r.all l = .ok xs) : P l xs := by
  induction l using all.induct r generalizing xs with
  | case1 =>
      rw [all_nil, Except.ok.injEq] at h
      exact h ▸ hnil
  | case2 a l e hread =>
      rw [r.all_of_error (List.cons_ne_nil a l) hread] at h
      cases h
  | case3 a l x rest hread ih =>
      rw [r.all_of_ok hread] at h
      cases hrest : r.all rest with
      | error e =>
          rw [hrest] at h
          cases h
      | ok ys =>
          rw [hrest] at h
          cases h
          exact hcons _ x rest ys hread (ih hrest)

variable {r} {write : β → List α}

/-- Items that are read back one by one are read back together. -/
theorem all_write {xs : List β} (h : ∀ x ∈ xs, ∀ rest, r.read (write x ++ rest) = .ok (x, rest)) :
    r.all (xs.flatMap write) = .ok xs := by
  induction xs with
  | nil => exact r.all_nil
  | cons x xs ih =>
      have hrest := ih fun y hy => h y (List.mem_cons_of_mem x hy)
      rw [List.flatMap_cons, r.all_of_ok (h x List.mem_cons_self _), hrest]
      rfl

/-- Where each item is written back as it was read, so are all of them. -/
theorem write_all (h : ∀ l x rest, r.read l = .ok (x, rest) → write x ++ rest = l)
    {l : List α} {xs : List β} (hall : r.all l = .ok xs) : xs.flatMap write = l := by
  refine r.all_induct (P := fun l xs => xs.flatMap write = l) rfl ?_ hall
  intro l x rest xs hread hrest
  rw [List.flatMap_cons, hrest, h l x rest hread]

/-- Where an item is read exactly off its codes, items are read exactly off their codes laid one
behind the other. -/
theorem all_eq_ok_iff (Code : β → List α → Prop)
    (h : ∀ l x rest, r.read l = .ok (x, rest) ↔ ∃ code, Code x code ∧ l = code ++ rest)
    {l : List α} {xs : List β} : r.all l = .ok xs ↔ ∃ codes, List.Forall₂ Code xs codes ∧ l = codes.flatten := by
  constructor
  · refine r.all_induct (P := fun l xs => ∃ codes, List.Forall₂ Code xs codes ∧ l = codes.flatten)
      ⟨[], .nil, rfl⟩ ?_
    intro l x rest xs hread hrest
    obtain ⟨code, hcode, rfl⟩ := (h l x rest).mp hread
    obtain ⟨codes, hcodes, rfl⟩ := hrest
    exact ⟨code :: codes, .cons hcode hcodes, rfl⟩
  · rintro ⟨codes, hcodes, rfl⟩
    induction hcodes with
    | nil => exact r.all_nil
    | cons hcode _ ih =>
        rw [List.flatten_cons, r.all_of_ok ((h _ _ _).mpr ⟨_, hcode, rfl⟩), ih]
        rfl

/-! ### Reading as far as it goes -/

/-- The items that are read before nothing is left or an item is refused, and why it is. -/
def run (r : Reader α β ε) (l : List α) : List β × Option ε :=
  match l with
  | [] => ([], none)
  | a :: l =>
      match _h : r.read (a :: l) with
      | .error e => ([], some e)
      | .ok (x, rest) => (x :: (r.run rest).1, (r.run rest).2)
termination_by l.length
decreasing_by all_goals exact r.shorter _ _ _ _h

@[simp] theorem run_nil : r.run [] = ([], none) := by rw [run]

theorem run_of_error {l : List α} {e : ε} (hne : l ≠ []) (h : r.read l = .error e) : r.run l = ([], some e) := by
  cases l with
  | nil => exact absurd rfl hne
  | cons a l =>
      rw [run]
      split
      · simp_all
      · simp_all

theorem run_of_ok {l rest : List α} {x : β} (h : r.read l = .ok (x, rest)) :
    r.run l = (x :: (r.run rest).1, (r.run rest).2) := by
  cases l with
  | nil => exact absurd (r.shorter _ _ _ h) (Nat.not_lt_zero _)
  | cons a l =>
      rw [run]
      split
      · simp_all
      · rename_i heq
        rw [h, Except.ok.injEq, Prod.mk.injEq] at heq
        obtain ⟨rfl, rfl⟩ := heq
        rfl

/-- What is written for items that are read back one by one is read back in front of anything else. -/
theorem run_write {γ : Type*} {item : γ → β} {write : γ → List α}
    (h : ∀ x rest, r.read (write x ++ rest) = .ok (item x, rest)) (xs : List γ) (rest : List α) :
    r.run (xs.flatMap write ++ rest) = (xs.map item ++ (r.run rest).1, (r.run rest).2) := by
  induction xs with
  | nil => rfl
  | cons x xs ih =>
      rw [List.flatMap_cons, List.append_assoc, r.run_of_ok (h x _), ih]
      rfl

end Reader

end Codec
