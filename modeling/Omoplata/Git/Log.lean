-- SUMMARY: The commit log: every commit of the graph once, before its parents.
import Omoplata.Git.Repo
import Omoplata.Lib.Topological

/-!
# The commit log

A counter for each commit says how many times the commits that have not been emitted name it
as a parent. A commit is emitted when its counter is zero, and is then taken off the counters
of its parents.
-/

open Codec Topological

namespace Omoplata

/-- A commit graph. -/
abbrev CommitDag := BTreeMap GitOid GitCommit

/-- How many times each commit is named by commits that have not been emitted. -/
abbrev RemainingChildren := BTreeMap GitOid Nat

/-- Why a log ends early. -/
inductive LogStop where
  | unfinished
  | underflow
  deriving DecidableEq

namespace CommitDag

/-- Every commit has a counter. -/
def zeros (dag : CommitDag) : RemainingChildren := dag.keys.foldl (fun n oid => n.insert oid 0) ∅

/-- Count a commit for each parent in the graph that it names. -/
def countParents (dag : CommitDag) (n : RemainingChildren) (parents : List GitOid) : RemainingChildren :=
  parents.foldl (fun n parent => if parent ∈ dag then n.insert parent (n[parent]?.getD 0 + 1) else n) n

def remainingChildren (dag : CommitDag) : RemainingChildren :=
  dag.toList.foldl (fun n e => countParents dag n e.2.parents) (zeros dag)

end CommitDag

/-- Take a commit off the counters of its parents, with the parents that get ready. -/
def releaseParents : List GitOid → RemainingChildren → List GitOid → Except LogStop (RemainingChildren × List GitOid)
  | [], n, newlyReady => .ok (n, newlyReady)
  | parent :: parents, n, newlyReady =>
      match n[parent]? with
      | none => releaseParents parents n newlyReady
      | some 0 => .error .underflow
      | some (left + 1) =>
          releaseParents parents (n.insert parent left) (if left = 0 then newlyReady ++ [parent] else newlyReady)

/-- Emit the commits that are ready, the last one first. -/
def emitReady (dag : CommitDag) : Nat → RemainingChildren → List GitOid → List GitOid → Except LogStop (List GitOid)
  | _, _, [], out => .ok out
  | 0, _, _ :: _, _ => .error .unfinished
  | turns + 1, n, oid :: ready, out =>
      match dag[oid]? with
      | none => emitReady dag turns n ready (out ++ [oid])
      | some commit => do
          let (n, newlyReady) ← releaseParents commit.parents n []
          emitReady dag turns n (sortByKey GitOid.hex newlyReady ++ ready) (out ++ [oid])

/-- The commits of an import, each before its parents. The stack of ready commits is listed from
its top, which has the first id in the order of the digits. -/
def GitImport.commitLog (made : GitImport) (turns : Nat) : Except LogStop (List GitOid) :=
  let n := CommitDag.remainingChildren made.commitDag
  let ready := (n.toList.filter fun e => e.2 = 0).map Prod.fst
  emitReady made.commitDag turns n (sortByKey GitOid.hex ready) []

/-! ## The counters -/

namespace CommitDag

variable {dag : CommitDag}

/-- How many times a commit is named by the commits that are not in a list. -/
def pending (dag : CommitDag) (out : List GitOid) (parent : GitOid) : Nat :=
  BTreeMap.total (fun child commit => if child ∈ out then 0 else commit.parents.count parent) dag

/-- The counters say how often each commit is named by those that are not in a list. -/
def Counts (dag : CommitDag) (n : RemainingChildren) (out : List GitOid) : Prop :=
  ∀ parent : GitOid, n[parent]? = if parent ∈ dag then some (pending dag out parent) else none

theorem getElem?_zeros (parent : GitOid) : (zeros dag)[parent]? = if parent ∈ dag then some 0 else none := by
  have hloop : ∀ (oids : List GitOid) (n : RemainingChildren),
      (oids.foldl (fun n oid => n.insert oid 0) n)[parent]? = if parent ∈ oids then some 0 else n[parent]? := by
    intro oids
    induction oids with
    | nil => exact fun n => (if_neg List.not_mem_nil).symm
    | cons oid oids ih =>
        intro n
        rw [List.foldl_cons, ih, BTreeMap.getElem?_insert]
        by_cases heq : oid = parent
        · simp only [heq, if_true, List.mem_cons_self, ite_self]
        · simp only [heq, if_false, List.mem_cons, Ne.symm heq, false_or]
  unfold zeros
  rw [hloop]
  simp only [Std.ExtTreeMap.mem_keys, Std.ExtTreeMap.getElem?_empty]

theorem getElem?_countParents {n : RemainingChildren} {parents : List GitOid} {parent : GitOid} {k : Nat}
    (hn : n[parent]? = if parent ∈ dag then some k else none) :
    (countParents dag n parents)[parent]? = if parent ∈ dag then some (k + parents.count parent) else none := by
  unfold countParents
  induction parents generalizing n k with
  | nil => exact hn
  | cons other parents ih =>
      rw [List.foldl_cons, List.count_cons]
      by_cases heq : other = parent
      · subst heq
        rw [beq_self_eq_true, if_pos rfl, Nat.add_comm (parents.count other), ← Nat.add_assoc]
        refine ih ?_
        by_cases hmem : other ∈ dag
        · rw [if_pos hmem] at hn
          rw [if_pos hmem, if_pos hmem, BTreeMap.getElem?_insert, if_pos rfl, hn]
          rfl
        · rw [if_neg hmem] at hn
          rw [if_neg hmem, if_neg hmem, hn]
      · rw [beq_false_of_ne heq, if_neg Bool.false_ne_true, Nat.add_zero]
        refine ih ?_
        split
        · rwa [BTreeMap.getElem?_insert, if_neg heq]
        · exact hn

theorem counts_remainingChildren : Counts dag (remainingChildren dag) [] := by
  intro parent
  have hloop : ∀ (entries : List (GitOid × GitCommit)) (n : RemainingChildren) (k : Nat),
      n[parent]? = (if parent ∈ dag then some k else none) →
      (entries.foldl (fun n e => countParents dag n e.2.parents) n)[parent]? =
        if parent ∈ dag then some (k + (entries.map fun e => e.2.parents.count parent).sum) else none := by
    intro entries
    induction entries with
    | nil => exact fun n k hn => hn
    | cons e entries ih =>
        intro n k hn
        rw [List.foldl_cons, List.map_cons, List.sum_cons, ← Nat.add_assoc]
        exact ih _ _ (getElem?_countParents hn)
  unfold remainingChildren
  rw [hloop dag.toList _ 0 (getElem?_zeros parent), Nat.zero_add]
  unfold pending BTreeMap.total
  simp only [List.not_mem_nil, if_false]

theorem pending_eq_zero_iff {out : List GitOid} {parent : GitOid} :
    pending dag out parent = 0 ↔
      ∀ (child : GitOid) (commit : GitCommit), dag[child]? = some commit → child ∈ out ∨ parent ∉ commit.parents := by
  unfold pending
  rw [BTreeMap.total_eq_zero_iff]
  refine forall_congr' fun child => forall_congr' fun commit => imp_congr_right fun _ => ?_
  split
  · rename_i hout
    exact iff_of_true rfl (.inl hout)
  · rename_i hout
    rw [List.count_eq_zero]
    exact ⟨.inr, fun h => h.resolve_left hout⟩

/-- Emitting a commit takes it off the counters of its parents. -/
theorem pending_concat {out : List GitOid} {oid : GitOid} {commit : GitCommit} (hget : dag[oid]? = some commit)
    (hnew : oid ∉ out) (parent : GitOid) :
    pending dag out parent = pending dag (out ++ [oid]) parent + commit.parents.count parent := by
  unfold pending
  refine BTreeMap.total_of_getElem? hget ?_ fun child commit' hne => ?_
  · rw [if_neg hnew, if_pos (List.mem_append_right _ (List.mem_singleton_self _)), Nat.zero_add]
  · simp only [List.mem_append, List.mem_singleton, hne, or_false]

end CommitDag

/-- Taking a commit off counters that are large enough. -/
theorem releaseParents_ok {parents : List GitOid} {n : RemainingChildren} (newlyReady : List GitOid)
    (h : ∀ (parent : GitOid) (k : Nat), n[parent]? = some k → parents.count parent ≤ k) :
    ∃ n' fresh, releaseParents parents n newlyReady = .ok (n', newlyReady ++ fresh) ∧
      (∀ parent : GitOid, n'[parent]? = n[parent]?.map (· - parents.count parent)) ∧ fresh.Nodup ∧
      ∀ parent, parent ∈ fresh ↔ parent ∈ parents ∧ n[parent]? = some (parents.count parent) := by
  induction parents generalizing n newlyReady with
  | nil =>
      refine ⟨n, [], by rw [releaseParents, List.append_nil], fun parent => ?_, List.nodup_nil, fun parent => ?_⟩
      · cases n[parent]? with
        | none => rfl
        | some k => rfl
      · simp only [List.not_mem_nil, false_and]
  | cons parent parents ih =>
      have hrest : ∀ q ≠ parent, (parent :: parents).count q = parents.count q := fun q hne =>
        List.count_cons_of_ne (Ne.symm hne)
      rw [releaseParents]
      split
      · rename_i hnone
        obtain ⟨n', fresh, hrun, hcounts, hnodup, hmem⟩ := ih newlyReady
          fun q k hq => List.count_le_count_cons.trans (h q k hq)
        refine ⟨n', fresh, hrun, fun q => ?_, hnodup, fun q => ?_⟩
        · rw [hcounts]
          by_cases hq : q = parent
          · rw [hq, hnone]
            rfl
          · rw [hrest q hq]
        · rw [hmem]
          by_cases hq : q = parent
          · rw [hq, hnone]
            simp only [reduceCtorEq, and_false]
          · rw [hrest q hq, List.mem_cons, or_iff_right hq]
      -- A counter is never below the number of times its commit is still named.
      · rename_i hzero
        have hone := h parent 0 hzero
        rw [List.count_cons_self] at hone
        exact absurd hone (Nat.not_succ_le_zero _)
      · rename_i left hleft
        have hle := h parent (left + 1) hleft
        rw [List.count_cons_self, Nat.add_le_add_iff_right] at hle
        obtain ⟨n', fresh, hrun, hcounts, hnodup, hmem⟩ := @ih (n.insert parent left)
          (if left = 0 then newlyReady ++ [parent] else newlyReady) (by
            intro q k hq
            rw [BTreeMap.getElem?_insert] at hq
            split at hq
            · rename_i heq
              rwa [← heq, ← Option.some.inj hq]
            · exact List.count_le_count_cons.trans (h q k hq))
        have hcounts' : ∀ q : GitOid, n'[q]? = n[q]?.map (· - (parent :: parents).count q) := by
          intro q
          rw [hcounts, BTreeMap.getElem?_insert]
          by_cases hq : q = parent
          · rw [hq, if_pos rfl, hleft, List.count_cons_self, Option.map_some, Option.map_some, Nat.succ_sub_succ]
          · rw [if_neg (Ne.symm hq), hrest q hq]
        have hmem' : ∀ q ≠ parent, q ∈ fresh ↔ q ∈ parent :: parents ∧ n[q]? = some ((parent :: parents).count q) := by
          intro q hq
          rw [hmem, BTreeMap.getElem?_insert, if_neg (Ne.symm hq), hrest q hq, List.mem_cons, or_iff_right hq]
        have hself : parent ∈ fresh ↔ parent ∈ parents ∧ left = parents.count parent := by
          rw [hmem, BTreeMap.getElem?_insert, if_pos rfl, Option.some.injEq]
        -- The parent gets ready here, or where it is named again.
        by_cases hlast : left = 0
        · rw [if_pos hlast] at hrun ⊢
          have hnot : parent ∉ fresh := by
            rw [hself]
            rintro ⟨hin, hcount⟩
            exact absurd (List.count_pos_iff.mpr hin) (by omega)
          refine ⟨n', parent :: fresh, ?_, hcounts', List.nodup_cons.mpr ⟨hnot, hnodup⟩, fun q => ?_⟩
          · rw [hrun, List.append_assoc, List.singleton_append]
          · by_cases hq : q = parent
            · rw [hq, hleft, List.count_cons_self]
              refine iff_of_true List.mem_cons_self ⟨List.mem_cons_self, ?_⟩
              rw [Nat.le_zero.mp (hle.trans hlast.le), hlast]
            · rw [List.mem_cons, or_iff_right hq, hmem' q hq]
        · rw [if_neg hlast] at hrun ⊢
          refine ⟨n', fresh, hrun, hcounts', hnodup, fun q => ?_⟩
          by_cases hq : q = parent
          · rw [hq, hself, hleft, List.count_cons_self, Option.some.injEq, Nat.succ_inj]
            refine and_congr_left fun hcount => ⟨List.mem_cons_of_mem _, fun _ => ?_⟩
            exact List.count_pos_iff.mp (hcount ▸ Nat.pos_of_ne_zero hlast)
          · exact hmem' q hq

/-! ## The order -/

/-- A commit of the graph has another one as a parent. -/
def CommitDag.HasParent (dag : CommitDag) (child parent : GitOid) : Prop :=
  (∃ commit, dag[child]? = some commit ∧ parent ∈ commit.parents) ∧ parent ∈ dag

/-- The commits that have been emitted are in order, and the ones that are ready are the others
that no commit still waits for. -/
structure CommitDag.Emitting (dag : CommitDag) (n : RemainingChildren) (ready out : List GitOid) : Prop where
  counts : dag.Counts n out
  zero : ∀ parent ∈ dag, dag.pending out parent = 0 ↔ parent ∈ out ∨ parent ∈ ready
  nodup : (out ++ ready).Nodup
  inDag : ∀ oid ∈ out ++ ready, oid ∈ dag
  forward : Forward dag.HasParent out

theorem mem_sortByKey {α β : Type} [Ord β] {key : α → β} {l : List α} {a : α} : a ∈ sortByKey key l ↔ a ∈ l :=
  (perm_sortByKey key l).mem_iff

namespace CommitDag.Emitting

variable {dag : CommitDag} {n : RemainingChildren} {ready out : List GitOid} {oid : GitOid}

theorem init (dag : CommitDag) :
    dag.Emitting dag.remainingChildren
      (sortByKey GitOid.hex ((dag.remainingChildren.toList.filter fun e => e.2 = 0).map Prod.fst)) [] := by
  have hmem : ∀ oid, oid ∈ (dag.remainingChildren.toList.filter fun e => e.2 = 0).map Prod.fst ↔
      oid ∈ dag ∧ dag.pending [] oid = 0 := by
    intro oid
    have hcount := dag.counts_remainingChildren oid
    constructor
    · intro hoid
      obtain ⟨e, he, rfl⟩ := List.mem_map.mp hoid
      obtain ⟨he, hzero⟩ := List.mem_filter.mp he
      rw [Std.ExtTreeMap.mem_toList_iff_getElem?_eq_some.mp he] at hcount
      split at hcount
      · rename_i hin
        exact ⟨hin, (Option.some.inj hcount).symm.trans (of_decide_eq_true hzero)⟩
      · cases hcount
    · rintro ⟨hin, hzero⟩
      rw [if_pos hin, hzero] at hcount
      refine List.mem_map.mpr ⟨(oid, 0), List.mem_filter.mpr ⟨?_, rfl⟩, rfl⟩
      exact Std.ExtTreeMap.mem_toList_iff_getElem?_eq_some.mpr hcount
  refine ⟨dag.counts_remainingChildren, fun parent hin => ?_, ?_, fun oid hoid => ?_, List.Pairwise.nil⟩
  · rw [mem_sortByKey, hmem, or_iff_right List.not_mem_nil, and_iff_right hin]
  · rw [List.nil_append, (perm_sortByKey _ _).nodup_iff]
    refine List.Nodup.map_on (fun e he e' he' heq => ?_) ((BTreeMap.nodup_toList _).filter _)
    have hget := Std.ExtTreeMap.mem_toList_iff_getElem?_eq_some.mp (List.mem_of_mem_filter he)
    have hget' := Std.ExtTreeMap.mem_toList_iff_getElem?_eq_some.mp (List.mem_of_mem_filter he')
    rw [heq, hget'] at hget
    exact Prod.ext heq (Option.some.inj hget).symm
  · rw [List.nil_append, mem_sortByKey, hmem] at hoid
    exact hoid.1

/-- Emitting a commit that is ready. -/
theorem step (h : dag.Emitting n (oid :: ready) out) :
    ∃ commit n' fresh, dag[oid]? = some commit ∧ releaseParents commit.parents n [] = .ok (n', fresh) ∧
      dag.Emitting n' (sortByKey GitOid.hex fresh ++ ready) (out ++ [oid]) := by
  have hin : oid ∈ dag := h.inDag oid (List.mem_append_right _ List.mem_cons_self)
  have hnew : oid ∉ out := fun hout => List.disjoint_of_nodup_append h.nodup hout List.mem_cons_self
  obtain ⟨commit, hcommit⟩ := Option.isSome_iff_exists.mp (Std.ExtTreeMap.mem_iff_isSome_getElem?.mp hin)
  have hpending := fun parent => dag.pending_concat hcommit hnew parent
  obtain ⟨n', fresh, hrun, hcounts, hfresh, hmem⟩ := @releaseParents_ok commit.parents n [] (by
      intro parent k hk
      rw [h.counts] at hk
      split at hk
      · rw [← Option.some.inj hk, hpending]
        exact Nat.le_add_left _ _
      · cases hk)
  -- A parent gets ready when this commit was the last one to wait for it.
  have hready : ∀ parent, parent ∈ fresh ↔
      parent ∈ commit.parents ∧ parent ∈ dag ∧ dag.pending (out ++ [oid]) parent = 0 := by
    intro parent
    rw [hmem, h.counts]
    refine and_congr_right fun _ => ?_
    split
    · rename_i hin
      rw [Option.some.injEq, hpending, and_iff_right hin]
      omega
    · rename_i hout
      exact iff_of_false (Option.some_ne_none _).symm fun hin => hout hin.1
  -- It has waited for this commit until now, so it is neither emitted nor ready yet.
  have hwaits : ∀ parent ∈ fresh, parent ∉ out ∧ parent ∉ oid :: ready := by
    intro parent hparent
    obtain ⟨hnamed, hin, -⟩ := (hready parent).mp hparent
    have hpos : dag.pending out parent ≠ 0 := by
      rw [hpending]
      have := List.count_pos_iff.mpr hnamed
      omega
    exact not_or.mp fun hdone => hpos ((h.zero parent hin).mpr hdone)
  refine ⟨commit, n', fresh, hcommit, hrun, ?_, ?_, ?_, ?_, ?_⟩
  · intro parent
    rw [hcounts, h.counts, hpending]
    split
    · rw [Option.map_some, Nat.add_sub_cancel]
    · rfl
  · intro parent hin
    have hzero := h.zero parent hin
    rw [hpending] at hzero
    rw [List.mem_append, List.mem_append, List.mem_singleton, mem_sortByKey]
    constructor
    · intro hnow
      by_cases hnamed : parent ∈ commit.parents
      · exact .inr (.inl ((hready parent).mpr ⟨hnamed, hin, hnow⟩))
      · rw [hnow, List.count_eq_zero_of_not_mem hnamed, List.mem_cons] at hzero
        have := hzero.mp rfl
        tauto
    · rintro ((hout | rfl) | hnew | hrest)
      · exact Nat.eq_zero_of_add_eq_zero_right (hzero.mpr (.inl hout))
      · exact Nat.eq_zero_of_add_eq_zero_right (hzero.mpr (.inr List.mem_cons_self))
      · exact ((hready parent).mp hnew).2.2
      · exact Nat.eq_zero_of_add_eq_zero_right (hzero.mpr (.inr (List.mem_cons_of_mem _ hrest)))
  · have hperm : (out ++ [oid] ++ (sortByKey GitOid.hex fresh ++ ready)).Perm (fresh ++ (out ++ oid :: ready)) := by
      refine (List.perm_append_comm_assoc _ _ _).trans ((perm_sortByKey _ fresh).append ?_)
      rw [List.append_assoc, List.singleton_append]
    refine hperm.nodup_iff.mpr (List.nodup_append'.mpr ⟨hfresh, h.nodup, fun a ha hold => ?_⟩)
    exact (List.mem_append.mp hold).elim (hwaits a ha).1 (hwaits a ha).2
  · intro a ha
    rw [List.append_assoc, List.mem_append, List.singleton_append, List.mem_cons, List.mem_append, mem_sortByKey] at ha
    rcases ha with hout | rfl | hnew | hrest
    · exact h.inDag a (List.mem_append_left _ hout)
    · exact hin
    · exact ((hready a).mp hnew).2.1
    · exact h.inDag a (List.mem_append_right _ (List.mem_cons_of_mem _ hrest))
  · refine h.forward.concat fun b hb hedge => ?_
    obtain ⟨⟨commit', hcommit', hnamed⟩, hb'⟩ := hedge
    have hzero := dag.pending_eq_zero_iff.mp ((h.zero b hb').mpr (.inl hb)) oid commit' hcommit'
    exact hzero.elim hnew fun hnot => hnot hnamed

/-- When nothing is ready everything has been emitted. -/
theorem done (h : dag.Emitting n [] out) (hacyclic : Acyclic dag.HasParent) : out.Perm dag.keys := by
  have hnodup : out.Nodup := by
    have := h.nodup
    rwa [List.append_nil] at this
  refine (List.perm_ext_iff_of_nodup hnodup dag.nodup_keys).mpr fun oid => ?_
  rw [Std.ExtTreeMap.mem_keys]
  refine ⟨fun hout => h.inDag oid (List.mem_append_left _ hout), fun hin => ?_⟩
  by_contra hout
  have hne : dag.keys.filter (· ∉ out) ≠ [] := by
    refine List.ne_nil_of_mem (List.mem_filter.mpr ⟨Std.ExtTreeMap.mem_keys.mpr hin, decide_eq_true hout⟩)
  -- A commit that no other one waits for would be ready.
  obtain ⟨a, ha, hsource⟩ := exists_source hacyclic hne
  obtain ⟨hain, haout⟩ := List.mem_filter.mp ha
  rw [Std.ExtTreeMap.mem_keys] at hain
  rw [decide_eq_true_eq] at haout
  have hwaits : dag.pending out a ≠ 0 := fun hzero =>
    ((h.zero a hain).mp hzero).elim haout List.not_mem_nil
  rw [ne_eq, dag.pending_eq_zero_iff] at hwaits
  push Not at hwaits
  obtain ⟨child, commit, hcommit, hchild, hnamed⟩ := hwaits
  have hchildIn : child ∈ dag := Std.ExtTreeMap.mem_iff_isSome_getElem?.mpr (Option.isSome_of_eq_some hcommit)
  exact hsource child (List.mem_filter.mpr ⟨Std.ExtTreeMap.mem_keys.mpr hchildIn, decide_eq_true hchild⟩)
    ⟨⟨commit, hcommit, hnamed⟩, hain⟩

theorem emitReady_ok (h : dag.Emitting n ready out) (hacyclic : Acyclic dag.HasParent) {turns : Nat}
    (hturns : dag.size ≤ turns + out.length) :
    ∃ log, emitReady dag turns n ready out = .ok log ∧ log.Perm dag.keys ∧ Forward dag.HasParent log := by
  induction turns generalizing n ready out with
  | zero =>
      cases ready with
      | nil => exact ⟨out, by rw [emitReady], h.done hacyclic, h.forward⟩
      | cons oid ready =>
          have hle := (List.subperm_of_subset h.nodup fun a ha => Std.ExtTreeMap.mem_keys.mpr (h.inDag a ha)).length_le
          rw [Std.ExtTreeMap.length_keys, List.length_append, List.length_cons] at hle
          omega
  | succ turns ih =>
      cases ready with
      | nil => exact ⟨out, by rw [emitReady], h.done hacyclic, h.forward⟩
      | cons oid ready =>
          obtain ⟨commit, n', fresh, hcommit, hrun, hnext⟩ := h.step
          obtain ⟨log, hlog, hperm, hforward⟩ := ih hnext (by
            rw [List.length_append, List.length_singleton]
            omega)
          refine ⟨log, ?_, hperm, hforward⟩
          rw [emitReady, hcommit]
          exact bind_eq_ok.mpr ⟨_, hrun, hlog⟩

end CommitDag.Emitting

/-- The log of a graph without cycles holds each commit once and before its parents, and no
counter goes below zero. -/
theorem commitLog_topological (made : GitImport) (hacyclic : Acyclic (CommitDag.HasParent made.commitDag)) :
    ∀ turns, made.commitDag.size ≤ turns → ∃ log, made.commitLog turns = .ok log ∧ log.Perm made.commitDag.keys ∧
      ∀ child parent, CommitDag.HasParent made.commitDag child parent → log.idxOf child < log.idxOf parent := by
  intro turns hturns
  obtain ⟨log, hlog, hperm, hforward⟩ :=
    (CommitDag.Emitting.init made.commitDag).emitReady_ok hacyclic (Nat.le_add_right_of_le hturns)
  refine ⟨log, hlog, hperm, fun child parent hedge => ?_⟩
  have hmem : ∀ oid, oid ∈ made.commitDag → oid ∈ log := fun oid hin =>
    hperm.mem_iff.mpr (Std.ExtTreeMap.mem_keys.mpr hin)
  have hchild : child ∈ made.commitDag := by
    obtain ⟨⟨commit, hcommit, -⟩, -⟩ := hedge
    exact Std.ExtTreeMap.mem_iff_isSome_getElem?.mpr (Option.isSome_of_eq_some hcommit)
  exact hforward.idxOf_lt hacyclic (hmem child hchild) (hmem parent hedge.2) hedge

def oidOf (b : UInt8) : GitOid := ⟨List.replicate 20 b, List.length_replicate⟩

/-- A commit that names its parent twice and a commit that is not there, and the parent. -/
def twiceNamed : GitImport :=
  let commit := fun parents => (⟨oidOf 0, parents, [], [], [], []⟩ : GitCommit)
  ⟨∅, ∅, ((∅ : CommitDag).insert (oidOf 1) (commit [oidOf 2, oidOf 3, oidOf 2])).insert (oidOf 2) (commit []), [],
    0, 0, 2, 0⟩

theorem commitLog_twiceNamed : ∃ log, twiceNamed.commitLog 2 = .ok log ∧ log.Perm twiceNamed.commitDag.keys := by
  have hedge : ∀ a b, CommitDag.HasParent twiceNamed.commitDag a b → a = oidOf 1 ∧ b ≠ oidOf 1 := by
    rintro a b ⟨⟨commit, hcommit, hnamed⟩, -⟩
    change (((∅ : CommitDag).insert (oidOf 1) _).insert (oidOf 2) _)[a]? = some commit at hcommit
    rw [BTreeMap.getElem?_insert, BTreeMap.getElem?_insert] at hcommit
    split at hcommit
    · cases hcommit
      cases hnamed
    · split at hcommit
      · rename_i heq
        cases hcommit
        refine ⟨heq.symm, ?_⟩
        rintro rfl
        exact absurd hnamed (by decide)
      · rw [Std.ExtTreeMap.getElem?_empty] at hcommit
        cases hcommit
  have hacyclic : Acyclic (CommitDag.HasParent twiceNamed.commitDag) := by
    intro a hloop
    obtain ⟨_, hfirst, -⟩ := Relation.TransGen.head'_iff.mp hloop
    obtain ⟨_, -, hlast⟩ := Relation.TransGen.tail'_iff.mp hloop
    exact (hedge _ _ hlast).2 (hedge _ _ hfirst).1
  obtain ⟨log, hlog, hperm, -⟩ := commitLog_topological twiceNamed hacyclic 2 (by decide)
  exact ⟨log, hlog, hperm⟩

end Omoplata
