-- SUMMARY: Elements in classes, and labels that tell the classes apart.
import Mathlib.Logic.Function.Basic

/-!
# Elements in classes

Some elements of a type lie in classes. Labels stand for classes if two elements lie in
one class exactly where both have the same label: a label of its own puts an element alone
into a class, and giving one label the value of another merges two classes.
-/

universe u v

/-- Some elements, in classes: an element that is in a class is in one with itself. -/
@[ext]
structure Classes (α : Type u) where
  same : α → α → Prop
  symm : ∀ {x y}, same x y → same y x
  trans : ∀ {x y z}, same x y → same y z → same x z

namespace Classes

variable {α : Type u} {β : Type v}

/-- An element that is in a class. -/
def Known (c : Classes α) (x : α) : Prop := c.same x x

/-- No element is in a class. -/
def empty : Classes α where
  same _ _ := False
  symm h := h
  trans h _ := h

/-- An element alone in a class, and the others as they are. -/
def insert (c : Classes α) (o : α) : Classes α where
  same x y := (x = o ∧ y = o) ∨ x ≠ o ∧ y ≠ o ∧ c.same x y
  symm h := h.imp And.symm fun ⟨hx, hy, h⟩ => ⟨hy, hx, c.symm h⟩
  trans := by
    rintro x y z (⟨rfl, rfl⟩ | ⟨hx, hy, hxy⟩) (⟨hy', rfl⟩ | ⟨hy', hz, hyz⟩)
    · exact .inl ⟨rfl, rfl⟩
    · exact absurd rfl hy'
    · exact absurd hy' hy
    · exact .inr ⟨hx, hz, c.trans hxy hyz⟩

/-- An element taken out of its class. -/
def sever (c : Classes α) (o : α) : Classes α where
  same x y := (x = o ∧ y = o ∧ c.Known o) ∨ x ≠ o ∧ y ≠ o ∧ c.same x y
  symm h := h.imp (fun ⟨hx, hy, ho⟩ => ⟨hy, hx, ho⟩) fun ⟨hx, hy, h⟩ => ⟨hy, hx, c.symm h⟩
  trans := by
    rintro x y z (⟨rfl, rfl, ho⟩ | ⟨hx, hy, hxy⟩) (⟨hy', rfl, -⟩ | ⟨hy', hz, hyz⟩)
    · exact .inl ⟨rfl, rfl, ho⟩
    · exact absurd rfl hy'
    · exact absurd hy' hy
    · exact .inr ⟨hx, hz, c.trans hxy hyz⟩

/-- The classes of two elements made one. -/
def merge (c : Classes α) (a b : α) : Classes α where
  same x y := c.same x y ∨ (c.same x a ∧ c.same b y) ∨ c.same x b ∧ c.same a y
  symm := by
    rintro x y (h | ⟨hx, hy⟩ | ⟨hx, hy⟩)
    · exact .inl (c.symm h)
    · exact .inr (.inr ⟨c.symm hy, c.symm hx⟩)
    · exact .inr (.inl ⟨c.symm hy, c.symm hx⟩)
  trans := by
    rintro x y z (hxy | ⟨hxa, hby⟩ | ⟨hxb, hay⟩) (hyz | ⟨hya, hbz⟩ | ⟨hyb, haz⟩)
    · exact .inl (c.trans hxy hyz)
    · exact .inr (.inl ⟨c.trans hxy hya, hbz⟩)
    · exact .inr (.inr ⟨c.trans hxy hyb, haz⟩)
    · exact .inr (.inl ⟨hxa, c.trans hby hyz⟩)
    · exact .inr (.inl ⟨hxa, hbz⟩)
    · exact .inl (c.trans hxa haz)
    · exact .inr (.inr ⟨hxb, c.trans hay hyz⟩)
    · exact .inl (c.trans hxb hbz)
    · exact .inr (.inr ⟨hxb, haz⟩)

theorem sever_of_known {c : Classes α} {o : α} (h : c.Known o) : c.sever o = c.insert o := by
  ext x y
  exact or_congr ⟨fun ⟨hx, hy, _⟩ => ⟨hx, hy⟩, fun ⟨hx, hy⟩ => ⟨hx, hy, h⟩⟩ Iff.rfl

theorem sever_of_not_known {c : Classes α} {o : α} (h : ¬ c.Known o) : c.sever o = c := by
  ext x y
  constructor
  · rintro (⟨-, -, ho⟩ | ⟨-, -, hxy⟩)
    · exact absurd ho h
    · exact hxy
  · intro hxy
    refine .inr ⟨?_, ?_, hxy⟩
    · rintro rfl
      exact h (c.trans hxy (c.symm hxy))
    · rintro rfl
      exact h (c.trans (c.symm hxy) hxy)

theorem merge_of_not_known {c : Classes α} {a b : α} (h : ¬ (c.Known a ∧ c.Known b)) : c.merge a b = c := by
  have hpair : ∀ {x y : α}, c.same x a → c.same b y → False := fun hx hy =>
    h ⟨c.trans (c.symm hx) hx, c.trans hy (c.symm hy)⟩
  ext x y
  constructor
  · rintro (hxy | ⟨hx, hy⟩ | ⟨hx, hy⟩)
    · exact hxy
    · exact (hpair hx hy).elim
    · exact (hpair (c.symm hy) (c.symm hx)).elim
  · exact .inl

/-! ## Labels -/

/-- The elements with a label, in the classes of one label. -/
def ofLabels (label : α → Option β) : Classes α where
  same x y := ∃ l, label x = some l ∧ label y = some l
  symm := fun ⟨l, hx, hy⟩ => ⟨l, hy, hx⟩
  trans := by
    rintro x y z ⟨l, hx, hy⟩ ⟨l', hy', hz⟩
    obtain rfl := Option.some.inj (hy.symm.trans hy')
    exact ⟨l, hx, hz⟩

theorem ofLabels_known {label : α → Option β} {x : α} : (ofLabels label).Known x ↔ (label x).isSome = true := by
  rw [Option.isSome_iff_exists]
  exact ⟨fun ⟨l, h, _⟩ => ⟨l, h⟩, fun ⟨l, h⟩ => ⟨l, h, h⟩⟩

/-- A label that no element has puts the element that gets it alone into a class. -/
theorem ofLabels_update [DecidableEq α] {label : α → Option β} {l : β} (hfresh : ∀ x, label x ≠ some l) (o : α) :
    ofLabels (Function.update label o (some l)) = (ofLabels label).insert o := by
  ext x y
  unfold ofLabels insert
  dsimp only
  by_cases hx : x = o
  · subst hx
    by_cases hy : y = x
    · subst hy
      simp
    · simp [hy, hfresh y]
  · by_cases hy : y = o
    · subst hy
      simp [hx, hfresh x]
    · simp [hx, hy]

/-- Giving the label of one element the value of another's merges their classes. -/
theorem ofLabels_relabel [DecidableEq β] {label : α → Option β} {a b : α} {la lb : β} (ha : label a = some la)
    (hb : label b = some lb) :
    ofLabels (fun x => (label x).map fun l => if l = lb then la else l) = (ofLabels label).merge a b := by
  ext x y
  unfold ofLabels merge
  dsimp only
  rw [ha, hb]
  cases label x with
  | none => simp
  | some lx =>
      cases label y with
      | none => simp
      | some ly =>
          simp only [Option.map_some, Option.some.injEq, exists_eq_left']
          by_cases hx : lx = lb <;> by_cases hy : ly = lb <;> grind

end Classes
