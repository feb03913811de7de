-- SUMMARY: The context of a revset query and the commits landed in a queue.
import Omoplata.Store.Object
import Omoplata.Work.Queue

/-!
# Revsets

A query reads the refs of the log and the names of the registered queues, which tell the
public refs of one queue from those of another.
-/

namespace Omoplata

/-- What a revset query reads. -/
structure MapContext where
  refs : Refs
  phases : BTreeMap CommitId Phase
  extra : BTreeSet CommitId
  queues : BTreeSet Str

namespace MapContext

def new (refs : Refs) : MapContext := ⟨refs, ∅, ∅, ∅⟩

/-- Record the names of the registered queues. -/
def withQueues (ctx : MapContext) (names : List Str) : MapContext :=
  { ctx with queues := ctx.queues.insertMany names }

/-- The queue that owns a ref, if it is a public one. -/
def owner (ctx : MapContext) (name : Str) : Option Str :=
  if "public/".toList.isPrefixOf name then
    match splitOnce '/' (name.drop "public/".toList.length) with
    | some (first, _) => if ctx.queues.contains first then some first else some "trunk".toList
    | none => some "trunk".toList
  else none

/-- The commits landed in a queue: the targets of the refs it owns. -/
def landed (ctx : MapContext) (queue : Str) : BTreeSet CommitId :=
  ctx.refs.toList.foldl (fun out (name, commit) => if ctx.owner name = some queue then out.insert commit else out) ∅

theorem mem_landed {ctx : MapContext} {queue : Str} {commit : CommitId} :
    commit ∈ ctx.landed queue ↔ ∃ name, ctx.refs[name]? = some commit ∧ ctx.owner name = some queue := by
  have hloop : ∀ (entries : List (Str × CommitId)) (out : BTreeSet CommitId),
      commit ∈ entries.foldl (fun out (name, c) => if ctx.owner name = some queue then out.insert c else out) out ↔
        commit ∈ out ∨ ∃ name, (name, commit) ∈ entries ∧ ctx.owner name = some queue := by
    intro entries
    induction entries with
    | nil => simp
    | cons entry entries ih =>
        intro out
        obtain ⟨name, c⟩ := entry
        rw [List.foldl_cons, ih]
        by_cases howner : ctx.owner name = some queue
        · simp only [if_pos howner, Std.ExtTreeSet.mem_insert, Std.compare_eq_iff_eq, List.mem_cons, Prod.mk.injEq]
          constructor
          · rintro ((rfl | hmem) | ⟨name', hmem, howner'⟩)
            · exact .inr ⟨name, .inl ⟨rfl, rfl⟩, howner⟩
            · exact .inl hmem
            · exact .inr ⟨name', .inr hmem, howner'⟩
          · rintro (hmem | ⟨name', ⟨-, rfl⟩ | hmem, howner'⟩)
            · exact .inl (.inr hmem)
            · exact .inl (.inl rfl)
            · exact .inr ⟨name', hmem, howner'⟩
        · simp only [if_neg howner, List.mem_cons, Prod.mk.injEq]
          refine or_congr_right ⟨?_, ?_⟩
          · rintro ⟨name', hmem, howner'⟩
            exact ⟨name', .inr hmem, howner'⟩
          · rintro ⟨name', ⟨rfl, -⟩ | hmem, howner'⟩
            · exact absurd howner' howner
            · exact ⟨name', hmem, howner'⟩
  unfold landed
  rw [hloop]
  simp [Std.ExtTreeMap.mem_toList_iff_getElem?_eq_some]

end MapContext

/-- The context of `omo revset`. -/
def revsetContext (registry : QueueRegistry) (refs : Refs) : MapContext :=
  (MapContext.new refs).withQueues (registry.queues.map QueuePolicy.name)

end Omoplata
