-- SUMMARY: Following a partial function: when it has no cycle, and what redirecting one element does.
import Mathlib.Computability.StateTransition

/-!
# Chains of a partial function

`next` gives some elements a successor. Redirecting one element to one that does not
lead back to it makes no cycle, and moves the ends of just the chains that run through
the element.
-/

open StateTransition

universe u

namespace Chain

variable {α : Type u} {next : α → Option α} {a b x y : α}

/-- No element leads back to itself. -/
def Acyclic (next : α → Option α) : Prop := ∀ a, ¬ Reaches₁ next a a

/-- A cycle through an element is one through its successor. -/
theorem cycle_step (hcycle : Reaches₁ next a a) (hb : b ∈ next a) : Reaches₁ next b b :=
  .tail' (reaches₁_fwd hcycle hb) hb

/-- A cycle through an element is one through all it leads to. -/
theorem cycle_of_reaches (hcycle : Reaches₁ next a a) (h : Reaches next a b) : Reaches₁ next b b := by
  induction h with
  | refl => exact hcycle
  | tail _ hstep ih => exact cycle_step ih hstep

/-! ## Redirecting one element -/

section Update

variable [DecidableEq α]

/-- Steps that do not start at the redirected element are as before. -/
theorem mem_update_of_ne {o : Option α} (h : x ≠ a) : y ∈ Function.update next a o x ↔ y ∈ next x := by
  rw [Function.update_of_ne h]

/-- What leads to the redirected element did so before. -/
theorem reaches_of_update_self {o : Option α} (h : Reaches (Function.update next a o) x a) : Reaches next x a := by
  induction h using Relation.ReflTransGen.head_induction_on with
  | refl => exact .refl
  | @head x y hxy _ ih =>
      by_cases hx : x = a
      · rw [hx]
        exact .refl
      · exact .head ((mem_update_of_ne hx).mp hxy) ih

theorem reaches_update_self {o : Option α} : Reaches (Function.update next a o) x a ↔ Reaches next x a := by
  refine ⟨reaches_of_update_self, fun h => ?_⟩
  -- redirecting the element once more restores it
  have hback : Reaches (Function.update (Function.update next a o) a (next a)) x a := by
    rw [Function.update_idem, Function.update_eq_self]
    exact h
  exact reaches_of_update_self hback

/-- A chain that does not run through the redirected element is as before. -/
theorem reaches_update_of_not_reaches {o : Option α} (hx : ¬ Reaches next x a) :
    Reaches (Function.update next a o) x y ↔ Reaches next x y := by
  have hx' : ¬ Reaches (Function.update next a o) x a := fun h => hx (reaches_update_self.mp h)
  constructor
  all_goals
    intro h
    induction h with
    | refl => exact .refl
    | @tail y z hy hyz ih => ?_
  · refine ih.tail ((mem_update_of_ne ?_).mp hyz)
    rintro rfl
    exact hx' hy
  · refine ih.tail ((mem_update_of_ne ?_).mpr hyz)
    rintro rfl
    exact hx hy

/-- Its end is as before too. -/
theorem eval_update_of_not_reaches {o : Option α} (hx : ¬ Reaches next x a) :
    eval (Function.update next a o) x = eval next x := by
  refine Part.ext fun y => ?_
  rw [mem_eval, mem_eval, reaches_update_of_not_reaches hx]
  refine and_congr_right fun hy => ?_
  rw [Function.update_of_ne]
  rintro rfl
  exact hx hy

/-- A chain that runs through the redirected element ends where the new successor does. -/
theorem eval_update_of_reaches (hb : ¬ Reaches next b a) (hx : Reaches next x a) :
    eval (Function.update next a (some b)) x = eval next b := by
  have hxb : Reaches (Function.update next a (some b)) x b :=
    (reaches_update_self.mpr hx).tail (Function.update_self ..)
  rw [reaches_eval hxb, eval_update_of_not_reaches hb]

/-- Redirecting an element to one that does not lead to it makes no cycle. -/
theorem Acyclic.update (h : Acyclic next) (hb : ¬ Reaches next b a) : Acyclic (Function.update next a (some b)) := by
  intro c hcycle
  by_cases hc : Reaches next c a
  · -- the cycle runs through the redirected element, so the new successor leads back to it
    have hself := cycle_of_reaches hcycle (reaches_update_self.mpr hc)
    have hback := reaches₁_fwd hself (b := b) (Function.update_self ..)
    exact hb (reaches_update_self.mp hback)
  · obtain ⟨d, hd, hback⟩ := Relation.TransGen.head'_iff.mp hcycle
    have hca : c ≠ a := fun heq => hc (heq ▸ .refl)
    have hcd := (mem_update_of_ne hca).mp hd
    have hda : ¬ Reaches next d a := fun hda => hc (.head hcd hda)
    exact h c (.head' hcd ((reaches_update_of_not_reaches hda).mp hback))

end Update

end Chain
