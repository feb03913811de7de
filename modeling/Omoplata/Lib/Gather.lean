-- SUMMARY: The nodes a walk comes to when it skips those it has seen, and how many turns are enough for it.
import Omoplata.Lib.Walk

/-!
# Walks that remember

A walk takes a node off a stack. It passes over one that it has seen; any other one it keeps, and
it puts on what the node leads to. What it has kept at the end is what the stack leads to, each
node once.
-/

open Relation

universe u

namespace Walk

variable {α : Type u} [DecidableEq α]

/-- The nodes that are kept, for so many turns, in the order in which the walk comes to them. -/
def gather (succs : α → List α) : Nat → List α → List α → Option (List α)
  | 0, _, _ => none
  | _ + 1, [], _ => some []
  | turns + 1, a :: stack, seen =>
      if a ∈ seen then gather succs turns stack seen
      else (gather succs turns (succs a ++ stack) (a :: seen)).map (a :: ·)

variable {succs : α → List α} {stack seen found : List α} {n : Nat}

/-- What a walk does first: it is over, or it passes over the top, or it keeps it. -/
theorem gather_eq_some (h : gather succs (n + 1) stack seen = some found) :
    (stack = [] ∧ found = []) ∨
      ∃ a rest, stack = a :: rest ∧
        ((a ∈ seen ∧ gather succs n rest seen = some found) ∨
          a ∉ seen ∧ ∃ later, found = a :: later ∧ gather succs n (succs a ++ rest) (a :: seen) = some later) := by
  cases stack with
  | nil =>
      cases h
      exact .inl ⟨rfl, rfl⟩
  | cons a rest =>
      unfold gather at h
      refine .inr ⟨a, rest, rfl, ?_⟩
      split at h
      · rename_i hseen
        exact .inl ⟨hseen, h⟩
      · rename_i hseen
        obtain ⟨later, hlater, rfl⟩ := Option.map_eq_some_iff.mp h
        exact .inr ⟨hseen, later, rfl, hlater⟩

theorem gather_mono {m : Nat} (h : gather succs n stack seen = some found) (hle : n ≤ m) :
    gather succs m stack seen = some found := by
  induction n generalizing m stack seen found with
  | zero => cases h
  | succ n ih =>
      obtain ⟨m, rfl⟩ := Nat.exists_eq_succ_of_ne_zero (Nat.ne_of_gt (Nat.lt_of_lt_of_le (Nat.succ_pos n) hle))
      have hle := Nat.le_of_succ_le_succ hle
      rcases gather_eq_some h with ⟨rfl, rfl⟩ | ⟨a, rest, rfl, ⟨hseen, hrest⟩ | ⟨hseen, later, rfl, hrest⟩⟩
      · rfl
      · rw [gather, if_pos hseen]
        exact ih hrest hle
      · rw [gather, if_neg hseen, ih hrest hle]
        rfl

/-- No node is kept twice, and none that has been seen. -/
theorem nodup_gather (h : gather succs n stack seen = some found) : found.Nodup ∧ ∀ a ∈ found, a ∉ seen := by
  induction n generalizing stack seen found with
  | zero => cases h
  | succ n ih =>
      rcases gather_eq_some h with ⟨rfl, rfl⟩ | ⟨a, rest, rfl, ⟨hseen, hrest⟩ | ⟨hseen, later, rfl, hrest⟩⟩
      · exact ⟨.nil, List.forall_mem_nil _⟩
      · exact ih hrest
      · obtain ⟨hnodup, hlater⟩ := ih hrest
        refine ⟨List.nodup_cons.mpr ⟨fun hmem => hlater a hmem List.mem_cons_self, hnodup⟩,
          List.forall_mem_cons.mpr ⟨hseen, fun b hb hmem => ?_⟩⟩
        exact hlater b hb (List.mem_cons_of_mem a hmem)

/-- What has been seen and what is kept is what the roots lead to. -/
theorem mem_gather {roots : List α} (hexplores : Explores (fun a b => b ∈ succs a) roots {a | a ∈ seen} stack)
    (h : gather succs n stack seen = some found) (a : α) :
    a ∈ seen ∨ a ∈ found ↔ Leads (fun a b => b ∈ succs a) roots a := by
  induction n generalizing stack seen found with
  | zero => cases h
  | succ n ih =>
      rcases gather_eq_some h with ⟨rfl, rfl⟩ | ⟨b, rest, rfl, ⟨hseen, hrest⟩ | ⟨hseen, later, rfl, hrest⟩⟩
      · rw [or_iff_left List.not_mem_nil]
        exact hexplores.finish a
      · exact ih (hexplores.skip hseen) hrest
      · have hvisit : Explores (fun a b => b ∈ succs a) roots (insert b {a | a ∈ seen}) (succs b ++ rest) :=
          hexplores.visit fun c => List.mem_append
        have hinsert : insert b {a | a ∈ seen} = {a | a ∈ b :: seen} := Set.ext fun c => List.mem_cons.symm
        rw [← ih (hinsert ▸ hvisit) hrest, List.mem_cons, List.mem_cons, or_left_comm, or_assoc]

/-- Over finitely many nodes a walk comes to an end. -/
theorem exists_gather {nodes : List α} {P : α → Prop} (hnodes : nodes.Nodup) (hmem : ∀ a, P a → a ∈ nodes)
    (hsuccs : ∀ a, P a → ∀ b ∈ succs a, P b) (hstack : ∀ a ∈ stack, P a)
    (hn : turns nodes (fun a => (succs a).length) seen stack < n) : ∃ found, gather succs n stack seen = some found := by
  induction n generalizing stack seen with
  | zero => exact absurd hn (Nat.not_lt_zero _)
  | succ n ih =>
      cases stack with
      | nil => exact ⟨[], rfl⟩
      | cons a rest =>
          obtain ⟨ha, hrest⟩ := List.forall_mem_cons.mp hstack
          unfold gather
          split
          · have hskip := turns_skip nodes seen rest a fun a => (succs a).length
            exact ih hrest (by omega)
          · rename_i hseen
            have hvisit : turns nodes (fun a => (succs a).length) (a :: seen) (succs a ++ rest) + 1 =
                turns nodes (fun a => (succs a).length) seen (a :: rest) :=
              turns_visit hnodes (hmem a ha) hseen List.length_append
            have hnext : ∀ b ∈ succs a ++ rest, P b := List.forall_mem_append.mpr ⟨hsuccs a ha, hrest⟩
            obtain ⟨later, hlater⟩ : ∃ later, gather succs n (succs a ++ rest) (a :: seen) = some later :=
              ih hnext (by omega)
            exact ⟨a :: later, by rw [hlater]; rfl⟩

end Walk
