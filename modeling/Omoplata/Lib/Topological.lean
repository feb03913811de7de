-- SUMMARY: Orders of the nodes of a graph without cycles in which edges lead forward.
import Mathlib.Data.Fintype.EquivFin
import Mathlib.Data.Set.Finite.List
import Mathlib.Logic.Relation

/-!
# Topological orders

Among finitely many nodes of a graph without cycles some node has no edge to it from another.
A list in which no node has an edge to an earlier one has the start of each edge before its end.
-/

universe u

namespace Topological

variable {ν : Type u}

/-- Nothing leads back to itself. -/
def Acyclic (edge : ν → ν → Prop) : Prop := ∀ a, ¬ Relation.TransGen edge a a

/-- No node has an edge to an earlier one. -/
def Forward (edge : ν → ν → Prop) (l : List ν) : Prop := l.Pairwise fun a b => ¬ edge b a

/-- Some of finitely many nodes has no edge to it from another. -/
theorem exists_source {edge : ν → ν → Prop} (h : Acyclic edge) {l : List ν} (hne : l ≠ []) :
    ∃ a ∈ l, ∀ b ∈ l, ¬ edge b a := by
  let leads : {a // a ∈ l} → {a // a ∈ l} → Prop := fun a b => Relation.TransGen edge a b
  have : Finite {a // a ∈ l} := l.finite_toSet
  have : IsTrans {a // a ∈ l} leads := ⟨fun _ _ _ hab hbc => hab.trans hbc⟩
  have : Std.Irrefl leads := ⟨fun a => h a⟩
  have hwf : WellFounded leads := Finite.wellFounded_of_trans_of_irrefl leads
  obtain ⟨a, -, hmin⟩ := hwf.has_min Set.univ ⟨⟨l.head hne, List.head_mem hne⟩, trivial⟩
  exact ⟨a, a.2, fun b hb hedge => hmin ⟨b, hb⟩ trivial (.single hedge)⟩

/-- One node more, which has no edge to an earlier one. -/
theorem Forward.concat {edge : ν → ν → Prop} {l : List ν} {a : ν} (h : Forward edge l) (ha : ∀ b ∈ l, ¬ edge a b) :
    Forward edge (l ++ [a]) := by
  refine List.pairwise_append.mpr ⟨h, List.pairwise_singleton _ _, fun b hb c hc => ?_⟩
  rw [List.mem_singleton.mp hc]
  exact ha b hb

/-- The start of an edge stands before its end. -/
theorem Forward.idxOf_lt [DecidableEq ν] {edge : ν → ν → Prop} {l : List ν} (h : Forward edge l) (hacyclic : Acyclic edge)
    {a b : ν} (ha : a ∈ l) (hb : b ∈ l) (hedge : edge a b) : l.idxOf a < l.idxOf b := by
  have hla := List.idxOf_lt_length_iff.mpr ha
  have hlb := List.idxOf_lt_length_iff.mpr hb
  refine Nat.lt_of_not_le fun hle => ?_
  cases hle.eq_or_lt with
  | inl heq =>
      have hab : a = b := by
        rw [← List.getElem_idxOf hla, ← List.getElem_idxOf hlb]
        simp only [heq]
      exact hacyclic a (.single (hab ▸ hedge))
  | inr hlt =>
      have hpair := List.pairwise_iff_getElem.mp h _ _ hlb hla hlt
      rw [List.getElem_idxOf, List.getElem_idxOf] at hpair
      exact hpair hedge

end Topological
