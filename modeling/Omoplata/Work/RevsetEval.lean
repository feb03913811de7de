-- SUMMARY: Evaluating revsets, and the boolean algebra of sets of commits that it computes in.
import Mathlib.Order.BooleanAlgebra.Set
import Omoplata.Work.Revset
import Omoplata.Work.RevsetParser

/-!
# Evaluating revsets

An expression stands for a set of commits, with the complement taken in the universe of the
context. Evaluation goes through the operands from the left, and fails at the first ref name
that does not resolve.
-/

namespace Omoplata

namespace MapContext

/-! ## The context -/

/-- Record the phase of a commit. -/
def withPhase (ctx : MapContext) (commit : CommitId) (phase : Phase) : MapContext :=
  { ctx with phases := ctx.phases.insert commit phase }

/-- Add commits that need not be targets of refs. -/
def withCommits (ctx : MapContext) (commits : List CommitId) : MapContext :=
  { ctx with extra := ctx.extra.insertMany commits }

/-- Every commit in scope. -/
def universeSet (ctx : MapContext) : BTreeSet CommitId :=
  (((∅ : BTreeSet CommitId).insertMany (ctx.refs.toList.map Prod.snd)).insertMany ctx.phases.keys).insertMany
    ctx.extra.toList

/-- The target of a ref. -/
def resolve (ctx : MapContext) (name : Str) : Option CommitId := ctx.refs[name]?

/-- Every target of a ref. -/
def heads (ctx : MapContext) : BTreeSet CommitId :=
  (∅ : BTreeSet CommitId).insertMany (ctx.refs.toList.map Prod.snd)

def phase (ctx : MapContext) (commit : CommitId) : Option Phase := ctx.phases[commit]?

/-- The commits of the universe in a phase. -/
def phaseFilter (ctx : MapContext) (want : Phase) : BTreeSet CommitId :=
  ctx.universeSet.filter fun c => ctx.phase c = some want

theorem mem_targets {ctx : MapContext} {c : CommitId} :
    c ∈ ctx.refs.toList.map Prod.snd ↔ ∃ name, ctx.resolve name = some c := by
  simp only [List.mem_map, Prod.exists, exists_eq_right, Std.ExtTreeMap.mem_toList_iff_getElem?_eq_some, resolve]

theorem mem_heads {ctx : MapContext} {c : CommitId} : c ∈ ctx.heads ↔ ∃ name, ctx.resolve name = some c := by
  unfold heads
  simp only [Std.ExtTreeSet.mem_insertMany_list, Std.ExtTreeSet.not_mem_empty, false_or, List.contains_iff_mem,
    mem_targets]

theorem mem_universeSet {ctx : MapContext} {c : CommitId} :
    c ∈ ctx.universeSet ↔ (∃ name, ctx.resolve name = some c) ∨ (ctx.phase c).isSome ∨ c ∈ ctx.extra := by
  unfold universeSet phase
  simp only [Std.ExtTreeSet.mem_insertMany_list, Std.ExtTreeSet.not_mem_empty, false_or, List.contains_iff_mem,
    mem_targets, Std.ExtTreeMap.mem_keys, Std.ExtTreeSet.mem_toList, or_assoc,
    Std.ExtTreeMap.isSome_getElem?_iff_mem]

theorem mem_singleton {a c : CommitId} : c ∈ ({a} : BTreeSet CommitId) ↔ a = c := by
  rw [← insert_empty_eq]
  change c ∈ (∅ : BTreeSet CommitId).insert a ↔ a = c
  simp only [Std.ExtTreeSet.mem_insert, Std.compare_eq_iff_eq, Std.ExtTreeSet.not_mem_empty, or_false]

theorem mem_phaseFilter {ctx : MapContext} {want : Phase} {c : CommitId} :
    c ∈ ctx.phaseFilter want ↔ ctx.phase c = some want := by
  unfold phaseFilter
  simp only [Std.ExtTreeSet.mem_filter, decide_eq_true_eq, Std.ExtTreeSet.get_eq, exists_prop,
    and_iff_right_iff_imp]
  intro hphase
  exact mem_universeSet.mpr (.inr (.inl (hphase ▸ rfl)))

/-! ## Evaluation -/

/-- The commits an expression selects. -/
def eval (ctx : MapContext) : RevExpr → Except WorkError (BTreeSet CommitId)
  | .ref name =>
      match ctx.resolve name with
      | none => .error (.unknownRef name)
      | some commit => .ok {commit}
  | .id hex => .ok (if ctx.universeSet.contains hex then {hex} else ∅)
  | .all => .ok ctx.universeSet
  | .heads => .ok ctx.heads
  | .and a b => do
      let l ← eval ctx a
      let r ← eval ctx b
      .ok (l ∩ r)
  | .or a b => do
      let l ← eval ctx a
      let r ← eval ctx b
      .ok (l ∪ r)
  | .not a => do
      let inner ← eval ctx a
      .ok (ctx.universeSet \ inner)
  | .draft => .ok (ctx.phaseFilter .draft)
  | .published => .ok (ctx.phaseFilter .published)
  | .landed queue => .ok (ctx.landed queue)

/-- Parse an expression and evaluate it. -/
def query (ctx : MapContext) (input : Str) : Except WorkError (BTreeSet CommitId) := do
  ctx.eval (← parse input)

end MapContext

/-! ## What an expression stands for -/

/-- The ref names in an expression, from the left. -/
def RevExpr.refNames : RevExpr → List Str
  | .ref name => [name]
  | .and a b | .or a b => a.refNames ++ b.refNames
  | .not a => a.refNames
  | .id _ | .all | .heads | .draft | .published | .landed _ => []

namespace MapContext

/-- The commits in scope, as a set. -/
def scope (ctx : MapContext) : Set CommitId := {c | c ∈ ctx.universeSet}

/-- The set of commits an expression stands for. -/
def meaning (ctx : MapContext) : RevExpr → Set CommitId
  | .ref name => {c | ctx.resolve name = some c}
  | .id hex => {c | c ∈ ctx.scope ∧ c = hex}
  | .all => ctx.scope
  | .heads => {c | ∃ name, ctx.resolve name = some c}
  | .and a b => meaning ctx a ∩ meaning ctx b
  | .or a b => meaning ctx a ∪ meaning ctx b
  | .not a => ctx.scope \ meaning ctx a
  | .draft => {c | ctx.phase c = some .draft}
  | .published => {c | ctx.phase c = some .published}
  | .landed queue => {c | ∃ name, ctx.resolve name = some c ∧ ctx.owner name = some queue}

/-- The first ref name of an expression that does not resolve. -/
def unresolved (ctx : MapContext) (e : RevExpr) : Option Str := e.refNames.find? fun name => (ctx.resolve name).isNone

theorem unresolved_append (ctx : MapContext) {a b e : RevExpr} (he : e.refNames = a.refNames ++ b.refNames) :
    ctx.unresolved e = (ctx.unresolved a).or (ctx.unresolved b) := by
  unfold unresolved
  rw [he, List.find?_append]

/-- Whatever an expression stands for lies in scope. -/
theorem meaning_subset_scope (ctx : MapContext) (e : RevExpr) : ctx.meaning e ⊆ ctx.scope := by
  induction e with
  | ref name => exact fun c hc => mem_universeSet.mpr (.inl ⟨name, hc⟩)
  | id hex => exact fun c hc => hc.1
  | all => exact subset_rfl
  | heads => exact fun c hc => mem_universeSet.mpr (.inl hc)
  | and a b iha ihb => exact Set.inter_subset_left.trans iha
  | or a b iha ihb => exact Set.union_subset iha ihb
  | not a iha => exact Set.sdiff_subset
  | draft => exact fun c hc => mem_universeSet.mpr (.inr (.inl (Option.isSome_of_eq_some hc)))
  | published => exact fun c hc => mem_universeSet.mpr (.inr (.inl (Option.isSome_of_eq_some hc)))
  | landed queue =>
      intro c hc
      obtain ⟨name, hname, -⟩ := hc
      exact mem_universeSet.mpr (.inl ⟨name, hname⟩)

/-- A set of commits holds the members of a set. -/
def Denotes (s : BTreeSet CommitId) (m : Set CommitId) : Prop := ∀ c, c ∈ s ↔ c ∈ m

theorem Denotes.unique {s t : BTreeSet CommitId} {m : Set CommitId} (hs : Denotes s m) (ht : Denotes t m) :
    s = t :=
  Std.ExtTreeSet.ext_mem fun c => (hs c).trans (ht c).symm

/-- Evaluation reports the first ref that does not resolve. Where all of them do it gives the
commits the expression stands for. -/
inductive Evaluated (ctx : MapContext) (e : RevExpr) : Except WorkError (BTreeSet CommitId) → Prop where
  | stuck {name : Str} (h : ctx.unresolved e = some name) : Evaluated ctx e (.error (.unknownRef name))
  | value {s : BTreeSet CommitId} (h : ctx.unresolved e = none) (hs : Denotes s (ctx.meaning e)) :
      Evaluated ctx e (.ok s)

/-- The operands of an operator are evaluated one after the other. -/
theorem Evaluated.binary {ctx : MapContext} {a b e : RevExpr}
    {op : BTreeSet CommitId → BTreeSet CommitId → BTreeSet CommitId} {ra rb : Except WorkError (BTreeSet CommitId)}
    (ha : Evaluated ctx a ra) (hb : Evaluated ctx b rb) (he : e.refNames = a.refNames ++ b.refNames)
    (hop : ∀ s t, Denotes s (ctx.meaning a) → Denotes t (ctx.meaning b) → Denotes (op s t) (ctx.meaning e)) :
    Evaluated ctx e (do let l ← ra; let r ← rb; .ok (op l r)) := by
  have hfirst := unresolved_append ctx he
  cases ha with
  | stuck ha => exact .stuck (by rw [hfirst, ha, Option.some_or])
  | value ha hs =>
      rw [ha, Option.none_or] at hfirst
      cases hb with
      | stuck hb => exact .stuck (hfirst.trans hb)
      | value hb ht => exact .value (hfirst.trans hb) (hop _ _ hs ht)

theorem eval_evaluated (ctx : MapContext) (e : RevExpr) : Evaluated ctx e (ctx.eval e) := by
  -- a name that resolves to nothing gets the evaluation stuck; nothing else does
  induction e with
  | ref name =>
      unfold eval
      split
      · rename_i h
        exact .stuck (by simp only [unresolved, RevExpr.refNames, List.find?, h, Option.isNone_none])
      · rename_i commit h
        refine .value (by simp only [unresolved, RevExpr.refNames, List.find?, h, Option.isNone_some]) fun c => ?_
        simp only [meaning, Set.mem_ofPred_eq, h, Option.some.injEq, mem_singleton]
  | id hex =>
      refine .value rfl fun c => ?_
      simp only [meaning, Set.mem_ofPred_eq, scope]
      split
      · rename_i hin
        rw [mem_singleton]
        exact ⟨fun heq => heq ▸ ⟨hin, rfl⟩, fun hc => hc.2.symm⟩
      · rename_i hout
        simp only [Std.ExtTreeSet.not_mem_empty, false_iff, not_and]
        exact fun hc heq => hout (heq ▸ hc)
  | all => exact .value rfl fun c => Iff.rfl
  | heads => exact .value rfl fun c => mem_heads
  | and a b iha ihb =>
      refine iha.binary ihb rfl fun s t hs ht c => ?_
      rw [Std.ExtTreeSet.mem_inter_iff, hs c, ht c]
      exact Iff.rfl
  | or a b iha ihb =>
      refine iha.binary ihb rfl fun s t hs ht c => ?_
      rw [Std.ExtTreeSet.mem_union_iff, hs c, ht c]
      exact Iff.rfl
  | not a iha =>
      unfold eval
      generalize ctx.eval a = ra at iha
      cases iha with
      | stuck h => exact .stuck h
      | value h hs =>
          refine .value h fun c => ?_
          rw [Std.ExtTreeSet.mem_diff_iff, hs c]
          exact Iff.rfl
  | draft => exact .value rfl fun c => mem_phaseFilter
  | published => exact .value rfl fun c => mem_phaseFilter
  | landed queue => exact .value rfl fun c => mem_landed

/-- Two expressions evaluate alike when they stand for one set and get stuck at one name. -/
theorem eval_congr {ctx : MapContext} {e e' : RevExpr} (hstuck : ctx.unresolved e = ctx.unresolved e')
    (hmeaning : ctx.meaning e = ctx.meaning e') : ctx.eval e = ctx.eval e' := by
  have h := ctx.eval_evaluated e
  have h' := ctx.eval_evaluated e'
  generalize ctx.eval e = r at h
  generalize ctx.eval e' = r' at h'
  cases h with
  | stuck h =>
      cases h' with
      | stuck h' =>
          rw [hstuck, h'] at h
          rw [Option.some.inj h]
      | value h' => exact absurd (h.symm.trans (hstuck.trans h')) (Option.some_ne_none _)
  | value h hs =>
      cases h' with
      | stuck h' => exact absurd (h'.symm.trans (hstuck.symm.trans h)) (Option.some_ne_none _)
      | value h' ht =>
          rw [hmeaning] at hs
          rw [hs.unique ht]

theorem eval_subset_universeSet {ctx : MapContext} {e : RevExpr} {s : BTreeSet CommitId} (h : ctx.eval e = .ok s) :
    ∀ c ∈ s, c ∈ ctx.universeSet := by
  have he := ctx.eval_evaluated e
  rw [h] at he
  cases he with
  | value _ hs => exact fun c hc => ctx.meaning_subset_scope e ((hs c).mp hc)

/-- Evaluation fails exactly at an expression with a ref that does not resolve. -/
theorem eval_fails_iff (ctx : MapContext) (e : RevExpr) :
    (∃ err, ctx.eval e = .error err) ↔ ∃ name ∈ e.refNames, ctx.resolve name = none := by
  have hunresolved : (ctx.unresolved e).isSome ↔ ∃ name ∈ e.refNames, ctx.resolve name = none := by
    simp only [unresolved, List.find?_isSome, Option.isNone_iff_eq_none]
  rw [← hunresolved]
  have he := ctx.eval_evaluated e
  generalize ctx.eval e = r at he
  cases he with
  | stuck h => exact ⟨fun _ => Option.isSome_of_eq_some h, fun _ => ⟨_, rfl⟩⟩
  | value h =>
      rw [h]
      constructor
      · rintro ⟨_, herr⟩
        cases herr
      · exact fun hnone => absurd hnone Bool.false_ne_true

theorem eval_not_not (ctx : MapContext) (e : RevExpr) : ctx.eval (.not (.not e)) = ctx.eval e := by
  refine eval_congr rfl ?_
  change ctx.scope \ (ctx.scope \ ctx.meaning e) = ctx.meaning e
  rw [Set.sdiff_sdiff_right_self, Set.inter_eq_right]
  exact ctx.meaning_subset_scope e

theorem eval_not_and (ctx : MapContext) (a b : RevExpr) :
    ctx.eval (.not (.and a b)) = ctx.eval (.or (.not a) (.not b)) :=
  eval_congr rfl sdiff_inf

theorem eval_not_or (ctx : MapContext) (a b : RevExpr) :
    ctx.eval (.not (.or a b)) = ctx.eval (.and (.not a) (.not b)) :=
  eval_congr rfl sdiff_sup

theorem eval_all_and (ctx : MapContext) (e : RevExpr) : ctx.eval (.and .all e) = ctx.eval e :=
  eval_congr rfl (Set.inter_eq_right.mpr (ctx.meaning_subset_scope e))

/-- Evaluation computes in the boolean algebra of the sets of commits in scope: what an
expression selects is in scope, a complement cancels its own complement and turns an
intersection into a union and the other way, and `all()` is neutral for intersection. It
fails at an expression with a ref name that does not resolve, and at no other. -/
theorem eval_boolean_algebra (ctx : MapContext) :
    (∀ e s, ctx.eval e = .ok s → ∀ c ∈ s, c ∈ ctx.universeSet) ∧
    (∀ e, ctx.eval (.not (.not e)) = ctx.eval e) ∧
    (∀ a b, ctx.eval (.not (.and a b)) = ctx.eval (.or (.not a) (.not b))) ∧
    (∀ a b, ctx.eval (.not (.or a b)) = ctx.eval (.and (.not a) (.not b))) ∧
    (∀ e, ctx.eval (.and .all e) = ctx.eval e) ∧
    ∀ e, (∃ err, ctx.eval e = .error err) ↔ ∃ name ∈ e.refNames, ctx.resolve name = none :=
  ⟨fun _ _ => eval_subset_universeSet, ctx.eval_not_not, ctx.eval_not_and, ctx.eval_not_or, ctx.eval_all_and,
    ctx.eval_fails_iff⟩

end MapContext

end Omoplata
