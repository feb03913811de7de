-- SUMMARY: Walks over a graph with a stack of pending nodes: what they have seen at the end, and how long they take.
import Mathlib.Algebra.GroupWithZero.Nat
import Mathlib.Data.List.Dedup
import Mathlib.Data.Set.Insert
import Mathlib.Algebra.BigOperators.Group.List.Basic
import Mathlib.Data.Fintype.Card
import Mathlib.Data.Set.Finite.Basic
import Mathlib.Logic.Relation

/-!
# Walks

A walk takes a node off a list of pending ones. One it has seen is skipped; for any
other one it adds what the node leads to. Whatever the order, a walk that ends has seen
exactly what the roots lead to.
-/

open Relation

universe u

namespace Walk

variable {α : Type u}

/-- What is seen and pending in a walk from some roots. -/
structure Explores (next : α → α → Prop) (roots : List α) (seen : Set α) (pending : List α) : Prop where
  root : ∀ a ∈ roots, a ∈ seen ∨ a ∈ pending
  closed : ∀ a ∈ seen, ∀ b, next a b → b ∈ seen ∨ b ∈ pending
  reached : ∀ a, a ∈ seen ∨ a ∈ pending → ∃ r ∈ roots, ReflTransGen next r a

/-- What some roots lead to. -/
def Leads (next : α → α → Prop) (roots : List α) (a : α) : Prop := ∃ r ∈ roots, ReflTransGen next r a

variable {next : α → α → Prop} {roots pending : List α} {seen : Set α}

theorem Explores.init (hpending : ∀ a, a ∈ pending ↔ a ∈ roots) : Explores next roots ∅ pending :=
  ⟨fun a ha => .inr ((hpending a).mpr ha), fun _ ha => ha.elim,
    fun a ha => ⟨a, (hpending a).mp (ha.resolve_left fun h => h.elim), .refl⟩⟩

/-- A node that has been seen is skipped. -/
theorem Explores.skip {a : α} (h : Explores next roots seen (a :: pending)) (ha : a ∈ seen) :
    Explores next roots seen pending := by
  have hpend : ∀ b, b ∈ seen ∨ b ∈ a :: pending → b ∈ seen ∨ b ∈ pending := by
    rintro b (hb | hb)
    · exact .inl hb
    · rcases List.mem_cons.mp hb with rfl | hb
      · exact .inl ha
      · exact .inr hb
  refine ⟨fun r hr => hpend r (h.root r hr), fun b hb c hnext => hpend c (h.closed b hb c hnext), ?_⟩
  exact fun b hb => h.reached b (hb.imp_right (List.mem_cons_of_mem a))

/-- A node is visited: what it leads to becomes pending. -/
theorem Explores.visit {a : α} {pending' : List α} (h : Explores next roots seen (a :: pending))
    (hpending : ∀ b, b ∈ pending' ↔ next a b ∨ b ∈ pending) :
    Explores next roots (insert a seen) pending' := by
  have hpend : ∀ b, b ∈ seen ∨ b ∈ a :: pending → b ∈ insert a seen ∨ b ∈ pending' := by
    rintro b (hb | hb)
    · exact .inl (Set.mem_insert_of_mem a hb)
    · rcases List.mem_cons.mp hb with rfl | hb
      · exact .inl (Set.mem_insert b seen)
      · exact .inr ((hpending b).mpr (.inr hb))
  refine ⟨fun r hr => hpend r (h.root r hr), fun b hb c hnext => ?_, fun b hb => ?_⟩
  · rcases Set.mem_insert_iff.mp hb with rfl | hb
    · exact .inr ((hpending c).mpr (.inl hnext))
    · exact hpend c (h.closed b hb c hnext)
  · rcases hb with hb | hb
    · rcases Set.mem_insert_iff.mp hb with rfl | hb
      · exact h.reached b (.inr List.mem_cons_self)
      · exact h.reached b (.inl hb)
    · rcases (hpending b).mp hb with hnext | hb
      · obtain ⟨r, hr, hreach⟩ := h.reached a (.inr List.mem_cons_self)
        exact ⟨r, hr, hreach.tail hnext⟩
      · exact h.reached b (.inr (List.mem_cons_of_mem a hb))

/-- The graph may grow where nothing has been seen. -/
theorem Explores.grow {next' : α → α → Prop} (h : Explores next roots seen pending)
    (hsub : ∀ a b, next a b → next' a b) (hsame : ∀ a ∈ seen, ∀ b, next' a b → next a b) :
    Explores next' roots seen pending :=
  ⟨h.root, fun a ha b hnext => h.closed a ha b (hsame a ha b hnext), fun a ha =>
    (h.reached a ha).imp fun _ ⟨hr, hreach⟩ => ⟨hr, ReflTransGen.mono hsub _ _ hreach⟩⟩

/-- A walk that ends has seen exactly what its roots lead to. -/
theorem Explores.finish (h : Explores next roots seen []) (a : α) : a ∈ seen ↔ Leads next roots a := by
  constructor
  · exact fun ha => h.reached a (.inl ha)
  · rintro ⟨r, hr, hreach⟩
    induction hreach with
    | refl => exact (h.root r hr).resolve_right List.not_mem_nil
    | tail _ hnext ih => exact (h.closed _ ih _ hnext).resolve_right List.not_mem_nil

/-- A predicate that holds of the roots and along the edges holds of all they lead to. -/
theorem Leads.induct {P : α → Prop} (hroot : ∀ r ∈ roots, P r) (hnext : ∀ a b, P a → next a b → P b)
    {a : α} (h : Leads next roots a) : P a := by
  obtain ⟨r, hr, hreach⟩ := h
  induction hreach with
  | refl => exact hroot r hr
  | tail _ hedge ih => exact hnext _ _ ih hedge

theorem Leads.root {r : α} (hr : r ∈ roots) : Leads next roots r := ⟨r, hr, .refl⟩

theorem Leads.tail {a b : α} (h : Leads next roots a) (hnext : next a b) : Leads next roots b :=
  h.imp fun _ ⟨hr, hreach⟩ => ⟨hr, hreach.tail hnext⟩

/-- What a stack leads to is its top, and what the rest leads to with the successors of the top on it. -/
theorem Leads.cons_iff {a : α} {succs : List α} (stack : List α) (h : ∀ b, next a b ↔ b ∈ succs) (b : α) :
    Leads next (a :: stack) b ↔ b = a ∨ Leads next (succs ++ stack) b := by
  constructor
  · rintro ⟨r, hr, hreach⟩
    rcases List.mem_cons.mp hr with rfl | hr
    · cases hreach.cases_head with
      | inl heq => exact .inl heq.symm
      | inr hstep =>
          obtain ⟨c, hc, hrest⟩ := hstep
          exact .inr ⟨c, List.mem_append_left _ ((h c).mp hc), hrest⟩
    · exact .inr ⟨r, List.mem_append_right _ hr, hreach⟩
  · rintro (rfl | ⟨r, hr, hreach⟩)
    · exact .root List.mem_cons_self
    · cases List.mem_append.mp hr with
      | inl hr => exact ⟨a, List.mem_cons_self, .head ((h r).mpr hr) hreach⟩
      | inr hr => exact ⟨r, List.mem_cons_of_mem _ hr, hreach⟩

/-! ## Graphs without cycles -/

/-- In a finite graph without cycles, what holds of a node once it holds of the nodes it leads to
    holds of every node. -/
theorem acyclic_induct {nodes : List α} {P : α → Prop} (hacyclic : ∀ a ∈ nodes, ¬ TransGen next a a)
    (hnode : ∀ a ∈ nodes, (∀ b ∈ nodes, next a b → P b) → P a) : ∀ a ∈ nodes, P a := by
  let r (x y : {a // a ∈ nodes}) : Prop := TransGen next y.1 x.1
  have : Finite {a // a ∈ nodes} := (List.finite_toSet nodes).to_subtype
  have : IsTrans _ r := ⟨fun x y z hxy hyz => hyz.trans hxy⟩
  have : Std.Irrefl r := ⟨fun x => hacyclic x.1 x.2⟩
  have hwf : WellFounded r := Finite.wellFounded_of_trans_of_irrefl r
  intro a ha
  exact hwf.induction (C := fun x => P x.1) ⟨a, ha⟩ fun x ih =>
    hnode x.1 x.2 fun b hb hnext => ih ⟨b, hb⟩ (.single hnext)

/-- What comes to hold of each node for good comes to hold of all of them at once. -/
theorem exists_uniform {nodes : List α} {P : α → Nat → Prop} (h : ∀ a ∈ nodes, ∃ n, ∀ m, n ≤ m → P a m) :
    ∃ n, ∀ a ∈ nodes, ∀ m, n ≤ m → P a m := by
  induction nodes with
  | nil => exact ⟨0, by simp⟩
  | cons a nodes ih =>
      obtain ⟨n, hn⟩ := h a List.mem_cons_self
      obtain ⟨n', hn'⟩ := ih fun b hb => h b (List.mem_cons_of_mem a hb)
      refine ⟨max n n', List.forall_mem_cons.mpr ⟨fun m hm => ?_, fun b hb m hm => ?_⟩⟩
      · exact hn m ((Nat.le_max_left n n').trans hm)
      · exact hn' b hb m ((Nat.le_max_right n n').trans hm)

/-! ## Walks that forget what they have seen -/

/-- So many turns are enough for a walk that takes a node off the stack and puts on what it
    leads to, whether it has been there or not. -/
inductive Finishes (succs : α → List α) : Nat → List α → Prop
  | nil {n : Nat} : Finishes succs (n + 1) []
  | cons {n : Nat} {a : α} {stack : List α} : Finishes succs n (succs a ++ stack) → Finishes succs (n + 1) (a :: stack)

theorem Finishes.mono {succs : α → List α} {m n : Nat} {stack : List α} (h : Finishes succs m stack) (hle : m ≤ n) :
    Finishes succs n stack := by
  induction h generalizing n with
  | nil =>
      obtain ⟨n, rfl⟩ := Nat.exists_eq_succ_of_ne_zero (Nat.ne_of_gt (Nat.lt_of_lt_of_le (Nat.succ_pos _) hle))
      exact .nil
  | cons _ ih =>
      obtain ⟨n, rfl⟩ := Nat.exists_eq_succ_of_ne_zero (Nat.ne_of_gt (Nat.lt_of_lt_of_le (Nat.succ_pos _) hle))
      exact .cons (ih (Nat.le_of_succ_le_succ hle))

theorem Finishes.append {succs : α → List α} {m n : Nat} {stack rest : List α} (h : Finishes succs m stack)
    (hrest : Finishes succs n rest) : Finishes succs (m + n) (stack ++ rest) := by
  induction h with
  | nil => exact hrest.mono (Nat.le_add_left _ _)
  | @cons m a stack _ ih =>
      rw [Nat.add_right_comm, List.cons_append]
      refine .cons ?_
      rw [← List.append_assoc]
      exact ih

/-- Without cycles such a walk ends, however often it comes by a node. -/
theorem exists_finishes {succs : α → List α} {nodes : List α} (hleaf : ∀ a, a ∉ nodes → succs a = [])
    (hacyclic : ∀ a, ¬ TransGen (fun a b => b ∈ succs a) a a) (stack : List α) : ∃ n, Finishes succs n stack := by
  have hlist : ∀ l : List α, (∀ b ∈ l, ∃ n, Finishes succs n [b]) → ∃ n, Finishes succs n l := by
    intro l
    induction l with
    | nil => exact fun _ => ⟨1, .nil⟩
    | cons b l ih =>
        intro h
        obtain ⟨⟨m, hm⟩, hl⟩ := List.forall_mem_cons.mp h
        obtain ⟨n, hn⟩ := ih hl
        exact ⟨m + n, hm.append hn⟩
  have hstep : ∀ a, (∀ b ∈ succs a, ∃ n, Finishes succs n [b]) → ∃ n, Finishes succs n [a] := by
    intro a h
    obtain ⟨n, hn⟩ := hlist (succs a) h
    exact ⟨n + 1, .cons (by rwa [List.append_nil])⟩
  have houtside : ∀ a, a ∉ nodes → ∃ n, Finishes succs n [a] := by
    intro a ha
    refine hstep a ?_
    rw [hleaf a ha]
    exact List.forall_mem_nil _
  have hinside : ∀ a ∈ nodes, ∃ n, Finishes succs n [a] := by
    refine acyclic_induct (fun a _ => hacyclic a) fun a _ ih => hstep a fun b hb => ?_
    by_cases hmem : b ∈ nodes
    · exact ih b hmem hb
    · exact houtside b hmem
  refine hlist stack fun a _ => ?_
  by_cases ha : a ∈ nodes
  · exact hinside a ha
  · exact houtside a ha

/-! ## How long a walk takes -/

section

variable [DecidableEq α]

/-- The turns a walk over the nodes in `nodes` may still take: one for each pending node, and
    one for each edge out of a node that has not been seen. -/
def turns (nodes : List α) (degree : α → Nat) (seen : List α) (pending : List α) : Nat :=
  pending.length + ((nodes.filter fun a => a ∉ seen).map degree).sum

theorem turns_congr {nodes seen seen' : List α} (degree : α → Nat) (pending : List α)
    (h : ∀ a, a ∈ seen ↔ a ∈ seen') : turns nodes degree seen pending = turns nodes degree seen' pending := by
  unfold turns
  simp only [h]

/-- Visiting a node takes its edges off what is to come. -/
theorem sum_unseen {nodes seen : List α} {a : α} (degree : α → Nat) (hnodes : nodes.Nodup)
    (ha : a ∈ nodes) (hseen : a ∉ seen) :
    ((nodes.filter fun b => b ∉ seen).map degree).sum =
      degree a + ((nodes.filter fun b => b ∉ a :: seen).map degree).sum := by
  induction nodes with
  | nil => simp at ha
  | cons c nodes ih =>
      obtain ⟨hc, hrest⟩ := List.nodup_cons.mp hnodes
      by_cases hac : a = c
      · subst hac
        have hsame : (nodes.filter fun b => b ∉ a :: seen) = nodes.filter fun b => b ∉ seen := by
          refine List.filter_congr fun b hb => ?_
          have hne : b ≠ a := fun heq => hc (heq ▸ hb)
          simp [hne]
        rw [List.filter_cons_of_pos (by simpa using hseen), List.filter_cons_of_neg (by simp), hsame,
          List.map_cons, List.sum_cons]
      · have hmem : a ∈ nodes := (List.mem_cons.mp ha).resolve_left hac
        have hih := ih hrest hmem
        by_cases hcs : c ∈ seen
        · rw [List.filter_cons_of_neg (by simpa using hcs), List.filter_cons_of_neg (by simp [hcs])]
          exact hih
        · rw [List.filter_cons_of_pos (by simpa using hcs),
            List.filter_cons_of_pos (by simp [hcs, Ne.symm hac]), List.map_cons, List.map_cons,
            List.sum_cons, List.sum_cons, hih]
          omega

/-- A turn that visits a node takes one off. -/
theorem turns_visit {nodes seen pending new : List α} {a : α} {degree : α → Nat} (hnodes : nodes.Nodup)
    (ha : a ∈ nodes) (hseen : a ∉ seen) (hnew : new.length = degree a + pending.length) :
    turns nodes degree (a :: seen) new + 1 = turns nodes degree seen (a :: pending) := by
  unfold turns
  rw [sum_unseen degree hnodes ha hseen, List.length_cons, hnew]
  omega

theorem turns_skip (nodes seen pending : List α) (a : α) (degree : α → Nat) :
    turns nodes degree seen pending + 1 = turns nodes degree seen (a :: pending) := by
  unfold turns
  rw [List.length_cons]
  omega

end

end Walk
