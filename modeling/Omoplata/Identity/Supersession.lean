-- SUMMARY: Supersession over runs of calls: no cycle, and when public tips stay and no edge is orphaned.
import Omoplata.Identity.Change
import Omoplata.Lib.Chain

/-!
# Supersession

Any calls may follow each other. The supersession edges stay free of cycles, so the
guarded walks go to the end: `reaches` decides reachability and `tip` finds the last
commit. The phase check of `supersede` looks at the owner of the old commit only, and a
change may be replaced, so public tips and the registration of endpoints hold under a
condition on each call.
-/

open StateTransition

namespace Omoplata.ChangeGraph

open Chain

variable {g g' : ChangeGraph}

/-! ## The guarded walks -/

/-- The superseding commits that were not seen yet. -/
def unseen (g : ChangeGraph) (seen : List CommitId) : List CommitId :=
  (g.supersededBy.toList.map Prod.snd).filter (· ∉ seen)

/-- A turn sees a commit more. -/
theorem unseen_cons_lt {seen : List CommitId} {cursor next : CommitId} (hnext : g.newer cursor = some next)
    (hseen : next ∉ seen) : (g.unseen (next :: seen)).length < (g.unseen seen).length := by
  have hsplit : g.unseen (next :: seen) = (g.unseen seen).filter (· ≠ next) := by
    unfold unseen
    rw [List.filter_filter]
    refine List.filter_congr fun c _ => ?_
    simp [not_or]
  rw [hsplit, List.length_filter_lt_length_iff_exists]
  refine ⟨next, List.mem_filter.mpr ⟨List.mem_map.mpr ⟨(cursor, next), ?_, rfl⟩, by simpa using hseen⟩, by simp⟩
  exact Std.ExtTreeMap.mem_toList_iff_getElem?_eq_some.mpr hnext

theorem unseen_lt_fuel (seen : List CommitId) :
    (g.unseen seen).length < g.supersededBy.size + 1 := by
  have hle : (g.unseen seen).length ≤ (g.supersededBy.toList.map Prod.snd).length :=
    List.length_filter_le ..
  rw [List.length_map, Std.ExtTreeMap.length_toList] at hle
  exact Nat.lt_succ_of_le hle

/-- Where all that was seen leads to `cursor`, the next commit was not seen. -/
theorem next_not_seen (hacyclic : Acyclic g.newer) {seen : List CommitId} {cursor next : CommitId}
    (hseen : ∀ c ∈ seen, Reaches g.newer c cursor) (hnext : g.newer cursor = some next) :
    next ∉ seen :=
  fun hmem => hacyclic cursor (.head' hnext (hseen next hmem))

/-- The walk of `tip` ends where the chain does. -/
theorem followTip_mem_eval (hacyclic : Acyclic g.newer) (fuel : Nat) (seen : List CommitId)
    (cursor : CommitId) (hfuel : (g.unseen seen).length < fuel)
    (hseen : ∀ c ∈ seen, Reaches g.newer c cursor) :
    followTip g.supersededBy fuel seen cursor ∈ eval g.newer cursor := by
  induction fuel generalizing seen cursor with
  | zero => exact absurd hfuel (Nat.not_lt_zero _)
  | succ fuel ih =>
      cases hnext : g.newer cursor with
      | none =>
          unfold followTip
          simp only [show g.supersededBy[cursor]? = none from hnext]
          exact mem_eval.mpr ⟨.refl, hnext⟩
      | some next =>
          have hnew := next_not_seen hacyclic hseen hnext
          have hless := unseen_cons_lt hnext hnew
          unfold followTip
          simp only [show g.supersededBy[cursor]? = some next from hnext, if_neg hnew]
          rw [reaches_eval (.single hnext)]
          refine ih (next :: seen) next (by omega) fun c hc => ?_
          cases List.mem_cons.mp hc with
          | inl heq => exact heq ▸ .refl
          | inr hmem => exact (hseen c hmem).tail hnext

/-- The walk of `reaches` finds the target where the chain runs through it. -/
theorem reachesLoop_iff (hacyclic : Acyclic g.newer) (target : CommitId) (fuel : Nat)
    (seen : List CommitId) (cursor : CommitId) (hfuel : (g.unseen seen).length < fuel)
    (hseen : ∀ c ∈ seen, Reaches g.newer c cursor) :
    reachesLoop g.supersededBy target fuel seen cursor = true ↔
      Reaches₁ g.newer cursor target := by
  induction fuel generalizing seen cursor with
  | zero => exact absurd hfuel (Nat.not_lt_zero _)
  | succ fuel ih =>
      rw [Reaches₁, Relation.TransGen.head'_iff]
      cases hnext : g.newer cursor with
      | none =>
          unfold reachesLoop
          simp [show g.supersededBy[cursor]? = none from hnext]
      | some next =>
          have hnew := next_not_seen hacyclic hseen hnext
          have hless := unseen_cons_lt hnext hnew
          unfold reachesLoop
          simp only [show g.supersededBy[cursor]? = some next from hnext, if_neg hnew, Option.mem_some_iff,
            exists_eq_left']
          by_cases heq : next = target
          · simp [heq, Relation.ReflTransGen.refl]
          · rw [if_neg heq, ih (next :: seen) next (by omega), Relation.reflTransGen_iff_eq_or_transGen]
            · rw [or_iff_right (Ne.symm heq)]
              rfl
            · intro c hc
              cases List.mem_cons.mp hc with
              | inl heq => exact heq ▸ .refl
              | inr hmem => exact (hseen c hmem).tail hnext

theorem reaches_iff (hacyclic : Acyclic g.newer) (source target : CommitId) :
    g.reaches source target = true ↔ Reaches g.newer source target := by
  unfold ChangeGraph.reaches
  by_cases heq : source = target
  · simp [heq, Reaches, Relation.ReflTransGen.refl]
  · rw [if_neg heq, reachesLoop_iff hacyclic _ _ _ _ (unseen_lt_fuel _) (by simp), Reaches,
      Relation.reflTransGen_iff_eq_or_transGen, or_iff_right (Ne.symm heq)]
    rfl

/-- The commit a change starts from. -/
def first (g : ChangeGraph) (id : ChangeId) : Option CommitId := g.changes[id]?.bind fun c => c.revisions.head?

theorem first_of_change {id : ChangeId} {c : Change} (hc : g.change id = some c) :
    g.first id = c.revisions.head? := by
  unfold first
  rw [show g.changes[id]? = some c from hc]
  rfl

theorem tip_eq_none {id : ChangeId} (h : g.first id = none) : g.tip id = none := by
  unfold first at h
  unfold tip
  cases hc : g.changes[id]? with
  | none => rfl
  | some c =>
      simp only [hc, Option.bind_some] at h
      simp [h]

/-- The tip of a change is the end of the chain from its first revision. -/
theorem tip_mem_eval (hacyclic : Acyclic g.newer) {id : ChangeId} {r : CommitId} (h : g.first id = some r) :
    ∃ t, g.tip id = some t ∧ t ∈ eval g.newer r := by
  unfold first at h
  cases hc : g.changes[id]? with
  | none => simp [hc] at h
  | some c =>
      simp only [hc, Option.bind_some] at h
      refine ⟨followTip g.supersededBy (g.supersededBy.size + 1) [r] r, by simp [tip, hc, h], ?_⟩
      exact followTip_mem_eval hacyclic _ _ _ (unseen_lt_fuel _) (by simp [Reaches, Relation.ReflTransGen.refl])

/-! ## What a call does -/

/-- What `supersede` asks: both commits have owners, that of the old one is not public, and the
    new one does not lead to the old one. -/
structure Supersedable (g : ChangeGraph) (old new : CommitId) : Prop where
  owned : ∃ owner, g.commitOwner[old]? = some owner ∧ g.phaseOf owner ≠ .published
  known : g.commitOwner[new]?.isSome
  apart : ¬ Reaches g.newer new old

/-- The graph with an edge more, in place of the one from `old`. -/
def withEdge (g : ChangeGraph) (old new : CommitId) : ChangeGraph :=
  { g with supersededBy := g.supersededBy.insert old new }

theorem newer_withEdge (old new : CommitId) : (g.withEdge old new).newer = Function.update g.newer old (some new) := by
  funext c
  simp only [newer, withEdge, BTreeMap.getElem?_insert, Function.update_apply, eq_comm]

theorem supersede_of_supersedable (hacyclic : Acyclic g.newer) {old new : CommitId} (h : g.Supersedable old new) :
    g.supersede old new = .ok (g.withEdge old new) := by
  obtain ⟨⟨owner, howner, hphase⟩, hknown, hapart⟩ := h
  have hreach : g.reaches new old = false := by
    rw [← Bool.not_eq_true, reaches_iff hacyclic]
    exact hapart
  unfold supersede
  simp only [howner, Option.isNone_iff_eq_none, Option.isSome_iff_ne_none.mp hknown, if_neg hphase, hreach]
  rfl

theorem supersedable_of_supersede (hacyclic : Acyclic g.newer) {old new : CommitId}
    (h : g.supersede old new = .ok g') : g.Supersedable old new := by
  unfold supersede at h
  cases howner : g.commitOwner[old]? with
  | none => simp [howner] at h
  | some owner =>
      simp only [howner] at h
      split at h
      · cases h
      · rename_i hnew
        split at h
        · cases h
        · rename_i hphase
          split at h
          · cases h
          · rename_i hreach
            refine ⟨⟨owner, howner, hphase⟩, ?_, ?_⟩
            · simpa [Option.isSome_iff_ne_none] using hnew
            · rwa [reaches_iff hacyclic] at hreach

theorem apply_supersede (hacyclic : Acyclic g.newer) {old new : CommitId} (h : g.Supersedable old new) :
    g.apply (.supersede old new) = g.withEdge old new := by
  simp [apply, supersede_of_supersedable hacyclic h, Except.toOption]

theorem apply_supersede_of_not (hacyclic : Acyclic g.newer) {old new : CommitId} (h : ¬ g.Supersedable old new) :
    g.apply (.supersede old new) = g := by
  unfold apply
  cases hs : g.supersede old new with
  | error e => simp only [hs, Except.toOption, Option.getD_none]
  | ok g' => exact absurd (supersedable_of_supersede hacyclic hs) h

theorem apply_addRevision {id : ChangeId} {c : Change} (hc : g.changes[id]? = some c) (commit : CommitId) :
    g.apply (.addRevision id commit) =
      { g with
        commitOwner := g.commitOwner.insert commit id
        changes := g.changes.insert id { c with revisions := c.revisions ++ [commit] } } := by
  simp [apply, addRevision, hc, Except.toOption]

theorem apply_addRevision_of_none {id : ChangeId} (hc : g.changes[id]? = none) (commit : CommitId) :
    g.apply (.addRevision id commit) = g := by
  simp [apply, addRevision, hc, Except.toOption]

/-- A phase call leaves the graph alone, or sets the phase without leaving `Public`. -/
theorem apply_setPhase (g : ChangeGraph) (id : ChangeId) (phase : Phase) :
    g.apply (.setPhase id phase) = g ∨
      ∃ c, g.changes[id]? = some c ∧ (c.phase = .published → phase = .published) ∧
        g.apply (.setPhase id phase) = { g with changes := g.changes.insert id { c with phase := phase } } := by
  cases hc : g.changes[id]? with
  | none =>
      left
      simp [apply, setPhase, hc, Except.toOption]
  | some c =>
      by_cases hregress : c.phase = .published ∧ phase = .draft
      · left
        simp [apply, setPhase, hc, hregress, Except.toOption]
      · refine .inr ⟨c, rfl, fun hpublic => ?_, by simp [apply, setPhase, hc, hregress, Except.toOption]⟩
        cases phase with
        | draft => exact absurd ⟨hpublic, rfl⟩ hregress
        | published => rfl

/-- Only `supersede` touches the edges. -/
theorem newer_apply {call : Call} (hcall : ∀ old new, call ≠ .supersede old new) : (g.apply call).newer = g.newer := by
  cases call with
  | addChange c => rfl
  | addRevision id commit =>
      cases hc : g.changes[id]? with
      | none => rw [apply_addRevision_of_none hc]
      | some c =>
          rw [apply_addRevision hc]
          rfl
  | supersede old new => exact absurd rfl (hcall old new)
  | setPhase id phase =>
      rcases g.apply_setPhase id phase with heq | ⟨c, -, -, heq⟩
      all_goals
        rw [heq]
        try rfl

/-! ## No cycle -/

theorem acyclic_new : Acyclic new.newer := by
  intro a hcycle
  obtain ⟨b, hb, -⟩ := Relation.TransGen.head'_iff.mp hcycle
  cases hb

theorem acyclic_apply (hacyclic : Acyclic g.newer) (call : Call) : Acyclic (g.apply call).newer := by
  cases call with
  | supersede old new =>
      by_cases h : g.Supersedable old new
      · rw [apply_supersede hacyclic h, newer_withEdge]
        exact hacyclic.update h.apart
      · rwa [apply_supersede_of_not hacyclic h]
  | addChange c => exact hacyclic
  | addRevision id commit => rwa [newer_apply (by simp)]
  | setPhase id phase => rwa [newer_apply (by simp)]

theorem acyclic_run (hacyclic : Acyclic g.newer) (calls : List Call) : Acyclic (g.run calls).newer := by
  induction calls generalizing g with
  | nil => exact hacyclic
  | cons call calls ih => exact ih (acyclic_apply hacyclic call)

/-- Whatever calls are made, supersession has no cycle, and the tip of a change with revisions is a
    commit that its first revision leads to and that is not superseded. -/
theorem supersession_acyclic (calls : List Call) :
    Acyclic (new.run calls).newer ∧
      ∀ id c r, (new.run calls).change id = some c → c.revisions.head? = some r →
        ∃ t, (new.run calls).tip id = some t ∧ Reaches (new.run calls).newer r t ∧
          (new.run calls).supersededBy[t]? = none := by
  have hacyclic : Acyclic (new.run calls).newer := acyclic_run acyclic_new calls
  refine ⟨hacyclic, fun id c r hc hr => ?_⟩
  obtain ⟨t, htip, ht⟩ := tip_mem_eval hacyclic ((first_of_change hc).trans hr)
  exact ⟨t, htip, mem_eval.mp ht⟩

/-- In a change with the revisions `a` and `b` of which `b` supersedes `a`, the tip is past `a`. -/
theorem supersession_acyclic_chain :
    ∃ t, (new.run [.addChange ⟨['c'], [['a'], ['b']], .draft⟩, .supersede ['a'] ['b']]).tip ['c'] = some t ∧
      Reaches (new.run [.addChange ⟨['c'], [['a'], ['b']], .draft⟩, .supersede ['a'] ['b']]).newer ['a'] t ∧
      (new.run [.addChange ⟨['c'], [['a'], ['b']], .draft⟩, .supersede ['a'] ['b']]).supersededBy[t]? = none :=
  (supersession_acyclic [.addChange ⟨['c'], [['a'], ['b']], .draft⟩, .supersede ['a'] ['b']]).2 ['c']
    ⟨['c'], [['a'], ['b']], .draft⟩ ['a'] (by decide +kernel) rfl

/-! ## Public changes -/

/-- The changes that are public in `g` are public in `g'`, with the same tip. -/
def PublicFixed (g g' : ChangeGraph) : Prop :=
  ∀ id c, g.change id = some c → c.phase = .published →
    (∃ c', g'.change id = some c' ∧ c'.phase = .published) ∧ g'.tip id = g.tip id

theorem PublicFixed.refl (g : ChangeGraph) : PublicFixed g g := fun _ c hc hpublic => ⟨⟨c, hc, hpublic⟩, rfl⟩

theorem PublicFixed.trans {g'' : ChangeGraph} (h : PublicFixed g g') (h' : PublicFixed g' g'') : PublicFixed g g'' := by
  intro id c hc hpublic
  obtain ⟨⟨c', hc', hpublic'⟩, htip⟩ := h id c hc hpublic
  obtain ⟨hkept, htip'⟩ := h' id c' hc' hpublic'
  exact ⟨hkept, htip'.trans htip⟩

/-- A change is added under a new id. -/
def Fresh (g : ChangeGraph) : Call → Prop
  | .addChange c => g.change c.id = none
  | _ => True

instance (g : ChangeGraph) (call : Call) : Decidable (g.Fresh call) := by
  cases call <;> unfold Fresh <;> infer_instance

/-- The calls that leave public tips alone: no first revision for a public change that has none,
    and no edge from a commit on the way to the tip of a public change, unless both its ends lead
    to a common commit already. -/
def SparesPublic (g : ChangeGraph) : Call → Prop
  | .addRevision id _ => ∀ c, g.change id = some c → c.phase = .published → c.revisions ≠ []
  | .supersede old new =>
      g.Supersedable old new → ∀ id c r, g.change id = some c → c.phase = .published →
        c.revisions.head? = some r → Reaches g.newer r old → ∃ t, Reaches g.newer old t ∧ Reaches g.newer new t
  | _ => True

/-- Where the chain from `a` ends, two commits lead to a common one exactly if their chains end
    alike. -/
theorem exists_common_iff {a b t : CommitId} (ha : t ∈ eval g.newer a) :
    (∃ d, Reaches g.newer a d ∧ Reaches g.newer b d) ↔ eval g.newer b = eval g.newer a := by
  constructor
  · rintro ⟨d, had, hbd⟩
    rw [reaches_eval had, reaches_eval hbd]
  · intro heq
    exact ⟨t, (mem_eval.mp ha).1, (mem_eval.mp (heq ▸ ha)).1⟩

/-- The tip of a change whose first revision stays. -/
theorem tip_eq_iff (hacyclic : Acyclic g.newer) (hacyclic' : Acyclic g'.newer) {id : ChangeId} {r : CommitId}
    (hr : g.first id = some r) (hr' : g'.first id = some r) :
    g'.tip id = g.tip id ↔ eval g'.newer r = eval g.newer r := by
  obtain ⟨t, htip, ht⟩ := tip_mem_eval hacyclic hr
  obtain ⟨t', htip', ht'⟩ := tip_mem_eval hacyclic' hr'
  rw [htip, htip', Option.some.injEq]
  constructor
  · rintro rfl
    rw [Part.eq_some_iff.mpr ht, Part.eq_some_iff.mpr ht']
  · intro heq
    exact Part.mem_unique ht' (heq ▸ ht)

/-- An edge more leaves a public change and moves its tip just where it cuts its chain short. -/
theorem publicFixed_withEdge_iff (hacyclic : Acyclic g.newer) {old new : CommitId} (h : g.Supersedable old new) :
    PublicFixed g (g.withEdge old new) ↔
      ∀ id c r, g.change id = some c → c.phase = .published → c.revisions.head? = some r →
        Reaches g.newer r old → ∃ t, Reaches g.newer old t ∧ Reaches g.newer new t := by
  have hacyclic' : Acyclic (g.withEdge old new).newer := by
    rw [newer_withEdge]
    exact hacyclic.update h.apart
  have hcut : ∀ {id c r}, g.change id = some c → c.revisions.head? = some r →
      ((g.withEdge old new).tip id = g.tip id ↔
        (Reaches g.newer r old → ∃ t, Reaches g.newer old t ∧ Reaches g.newer new t)) := by
    intro id c r hc hr
    have hfirst : g.first id = some r := (first_of_change hc).trans hr
    rw [tip_eq_iff hacyclic hacyclic' hfirst hfirst, newer_withEdge]
    by_cases hreach : Reaches g.newer r old
    · obtain ⟨t, -, ht⟩ := tip_mem_eval hacyclic hfirst
      rw [reaches_eval hreach] at ht
      rw [eval_update_of_reaches h.apart hreach, reaches_eval hreach, ← exists_common_iff ht]
      simp [hreach]
    · simp [eval_update_of_not_reaches hreach, hreach]
  constructor
  · intro hfixed id c r hc hpublic hr
    exact (hcut hc hr).mp (hfixed id c hc hpublic).2
  · intro hspares id c hc hpublic
    refine ⟨⟨c, hc, hpublic⟩, ?_⟩
    cases hr : c.revisions.head? with
    | none =>
        have hfirst : g.first id = none := (first_of_change hc).trans hr
        rw [tip_eq_none hfirst, tip_eq_none (g := g.withEdge old new) hfirst]
    | some r => exact (hcut hc hr).mpr (hspares id c r hc hpublic hr)

/-- Replacing the entry of a change that keeps its first revision moves no tip. -/
theorem tip_insert {id : ChangeId} {c : Change} (c' : Change) {owner : BTreeMap CommitId ChangeId}
    (hc : g.changes[id]? = some c) (hfirst : c'.revisions.head? = c.revisions.head?) (other : ChangeId) :
    ({ g with commitOwner := owner, changes := g.changes.insert id c' } : ChangeGraph).tip other = g.tip other := by
  simp only [tip, BTreeMap.getElem?_insert]
  by_cases hid : id = other
  · subst hid
    simp [hc, hfirst]
  · rw [if_neg hid]

/-- One call leaves the public changes alone exactly if it spares them. -/
theorem publicFixed_apply_iff (hacyclic : Acyclic g.newer) {call : Call} (hfresh : g.Fresh call) :
    PublicFixed g (g.apply call) ↔ g.SparesPublic call := by
  cases call with
  | addChange c =>
      refine iff_of_true (fun id d hd hpublic => ?_) trivial
      have hid : c.id ≠ id := by
        rintro rfl
        simp [show g.change c.id = none from hfresh] at hd
      have hsame : (g.addChange c).changes[id]? = g.changes[id]? := by
        simp only [addChange, BTreeMap.getElem?_insert, if_neg hid]
      refine ⟨⟨d, hsame.trans hd, hpublic⟩, ?_⟩
      simp only [apply, tip, hsame]
      rfl
  | addRevision id commit =>
      cases hc : g.changes[id]? with
      | none =>
          rw [apply_addRevision_of_none hc]
          exact iff_of_true (.refl g) fun d hd => by cases hc.symm.trans hd
      | some c =>
          rw [apply_addRevision hc]
          -- a public change moves only if this is its first revision
          constructor
          · intro hfixed d hd hpublic hnil
            cases hc.symm.trans hd
            have htip := (hfixed id c hc hpublic).2
            simp [tip, hc, hnil] at htip
          · intro hspares other d hd hpublic
            by_cases hid : id = other
            · subst hid
              cases hc.symm.trans hd
              have hfirst : (c.revisions ++ [commit]).head? = c.revisions.head? :=
                List.head?_append_of_ne_nil _ (hspares c hc hpublic)
              refine ⟨⟨{ c with revisions := c.revisions ++ [commit] }, ?_, hpublic⟩, tip_insert _ hc hfirst id⟩
              simp [ChangeGraph.change]
            · refine ⟨⟨d, ?_, hpublic⟩, ?_⟩
              · simp only [ChangeGraph.change, BTreeMap.getElem?_insert, if_neg hid]
                exact hd
              · simp only [tip, BTreeMap.getElem?_insert, if_neg hid]
  | supersede old new =>
      unfold SparesPublic
      -- an edge that is refused changes nothing
      by_cases h : g.Supersedable old new
      · rw [apply_supersede hacyclic h, publicFixed_withEdge_iff hacyclic h]
        simp [h]
      · rw [apply_supersede_of_not hacyclic h]
        exact iff_of_true (.refl g) fun h' => absurd h' h
  | setPhase id phase =>
      refine iff_of_true ?_ trivial
      rcases g.apply_setPhase id phase with heq | ⟨c, hc, hkept, heq⟩
      · rw [heq]
        exact .refl g
      · rw [heq]
        intro other d hd hpublic
        refine ⟨?_, tip_insert { c with phase := phase } hc rfl other⟩
        simp only [ChangeGraph.change, BTreeMap.getElem?_insert]
        by_cases hid : id = other
        · subst hid
          cases hc.symm.trans hd
          exact ⟨{ c with phase := phase }, by simp, hkept hpublic⟩
        · exact ⟨d, by rw [if_neg hid]; exact hd, hpublic⟩

theorem take_succ_of_length_le {calls : List Call} {n : Nat} (h : ¬ n < calls.length) :
    calls.take (n + 1) = calls.take n := by
  rw [List.take_of_length_le (Nat.le_of_not_lt h), List.take_of_length_le (Nat.le_succ_of_le (Nat.le_of_not_lt h))]

/-- The graph after one call more. -/
theorem run_take_succ (calls : List Call) {n : Nat} (h : n < calls.length) :
    g.run (calls.take (n + 1)) = (g.run (calls.take n)).apply calls[n] := by
  unfold run
  rw [List.take_succ_eq_append_getElem h, List.foldl_append]
  rfl

/-- With changes added under new ids, the public changes keep phase and tip from any moment to any
    later one exactly if every call spares them. -/
theorem public_fixed_iff (calls : List Call)
    (hfresh : ∀ n (h : n < calls.length), (new.run (calls.take n)).Fresh calls[n]) :
    (∀ n m, n ≤ m → PublicFixed (new.run (calls.take n)) (new.run (calls.take m))) ↔
      ∀ n (h : n < calls.length), (new.run (calls.take n)).SparesPublic calls[n] := by
  have hstep : ∀ n (h : n < calls.length),
      (PublicFixed (new.run (calls.take n)) (new.run (calls.take (n + 1))) ↔
        (new.run (calls.take n)).SparesPublic calls[n]) := by
    intro n h
    rw [run_take_succ calls h]
    exact publicFixed_apply_iff (acyclic_run acyclic_new _) (hfresh n h)
  constructor
  · intro hfixed n h
    exact (hstep n h).mp (hfixed n (n + 1) (Nat.le_succ n))
  · intro hspares n m hle
    induction m, hle using Nat.le_induction with
    | base => exact .refl _
    | succ m _ ih =>
        by_cases h : m < calls.length
        · exact ih.trans ((hstep m h).mpr (hspares m h))
        · rwa [take_succ_of_length_le h]

/-- A change published with its one commit keeps it when another change gets a revision. -/
theorem public_fixed_other :
    PublicFixed (new.run [.addChange ⟨['a'], [['r']], .published⟩])
      (new.run [.addChange ⟨['a'], [['r']], .published⟩, .addChange ⟨['b'], [['s']], .draft⟩]) := by
  refine (public_fixed_iff [.addChange ⟨['a'], [['r']], .published⟩, .addChange ⟨['b'], [['s']], .draft⟩] ?_).mpr
    ?_ 1 2 (by decide)
  · decide +kernel
  · intro n h
    match n, h with
    | 0, _ => trivial
    | 1, _ => trivial

/-- A draft change takes over the commit of a public one and has it superseded. -/
def takeover : List Call :=
  [.addChange ⟨['a'], [['r']], .published⟩, .addChange ⟨['b'], [['s']], .draft⟩,
    .addRevision ['b'] ['r'], .supersede ['r'] ['s']]

/-- The tip of the public change moves from its commit to that of the draft. -/
theorem public_tip_moves :
    (∀ n (h : n < takeover.length), (new.run (takeover.take n)).Fresh takeover[n]) ∧
      ¬ PublicFixed (new.run (takeover.take 1)) (new.run (takeover.take 4)) := by
  refine ⟨by decide +kernel, fun hfixed => ?_⟩
  have htip := (hfixed ['a'] ⟨['a'], [['r']], .published⟩ (by decide +kernel) rfl).2
  revert htip
  decide +kernel

/-! ## Orphans -/

/-- The owner of a commit is a change that lists it. -/
def Registered (g : ChangeGraph) (commit : CommitId) : Prop :=
  ∃ id c, g.commitOwner[commit]? = some id ∧ g.changes[id]? = some c ∧ commit ∈ c.revisions

/-- Both ends of every edge are registered. -/
def NoOrphans (g : ChangeGraph) : Prop :=
  ∀ old new, g.supersededBy[old]? = some new → g.Registered old ∧ g.Registered new

/-- The calls that make no orphan: a change that is added lists the ends of edges that belong to
    its id, and an edge is made between registered commits. -/
def KeepsRegistered (g : ChangeGraph) : Call → Prop
  | .addChange c =>
      ∀ old new, g.supersededBy[old]? = some new →
        (g.commitOwner[old]? = some c.id → old ∈ c.revisions) ∧ (g.commitOwner[new]? = some c.id → new ∈ c.revisions)
  | .supersede old new => g.Supersedable old new → g.Registered old ∧ g.Registered new
  | _ => True

theorem getElem?_foldl_owner (commits : List CommitId) (id : ChangeId) (owner : BTreeMap CommitId ChangeId)
    (commit : CommitId) :
    (commits.foldl (fun owner commit => owner.insert commit id) owner)[commit]? =
      if commit ∈ commits then some id else owner[commit]? := by
  induction commits generalizing owner with
  | nil => simp
  | cons c commits ih =>
      rw [List.foldl_cons, ih, BTreeMap.getElem?_insert]
      by_cases hmem : commit ∈ commits
      · simp [hmem]
      · simp [hmem, eq_comm]

/-- What `addChange` leaves registered. -/
theorem registered_addChange_iff {c : Change} {commit : CommitId} (h : g.Registered commit) :
    (g.addChange c).Registered commit ↔ (g.commitOwner[commit]? = some c.id → commit ∈ c.revisions) := by
  obtain ⟨id, d, howner, hd, hmem⟩ := h
  unfold Registered addChange
  simp only [getElem?_foldl_owner, BTreeMap.getElem?_insert]
  by_cases hnew : commit ∈ c.revisions
  · simp [hnew]
  · simp only [if_neg hnew, howner, Option.some.injEq]
    by_cases hid : c.id = id
    · simp [hid, hnew]
    · simp [hid, Ne.symm hid, hd, hmem]

theorem registered_addRevision {id : ChangeId} {c : Change} {commit e : CommitId} (hc : g.changes[id]? = some c)
    (h : g.Registered e) : (g.apply (.addRevision id commit)).Registered e := by
  obtain ⟨id', d, howner, hd, hmem⟩ := h
  rw [apply_addRevision hc]
  unfold Registered
  simp only [BTreeMap.getElem?_insert]
  by_cases he : commit = e
  · exact ⟨id, { c with revisions := c.revisions ++ [commit] }, by simp [he], by simp, by simp [he]⟩
  · refine ⟨id', ?_⟩
    by_cases hid : id = id'
    · subst hid
      cases hc.symm.trans hd
      exact ⟨{ c with revisions := c.revisions ++ [commit] }, by simp [he, howner], by simp, by simp [hmem]⟩
    · exact ⟨d, by simp [he, howner], by simp [hid, hd], hmem⟩

theorem registered_setPhase {id : ChangeId} {phase : Phase} {e : CommitId} (h : g.Registered e) :
    (g.apply (.setPhase id phase)).Registered e := by
  obtain ⟨id', d, howner, hd, hmem⟩ := h
  rcases g.apply_setPhase id phase with heq | ⟨c, hc, -, heq⟩
  · rw [heq]
    exact ⟨id', d, howner, hd, hmem⟩
  · rw [heq]
    unfold Registered
    simp only [BTreeMap.getElem?_insert]
    by_cases hid : id = id'
    · subst hid
      cases hc.symm.trans hd
      exact ⟨id, { d with phase := phase }, howner, by simp, hmem⟩
    · exact ⟨id', d, howner, by simp [hid, hd], hmem⟩

/-- One call keeps the ends of the edges registered exactly under the condition. -/
theorem noOrphans_apply_iff (hacyclic : Acyclic g.newer) (h : g.NoOrphans) (call : Call) :
    (g.apply call).NoOrphans ↔ g.KeepsRegistered call := by
  cases call with
  | addChange c =>
      -- a change of that name loses the revisions it had, and the edges that ended there
      have hends : ∀ old new, g.supersededBy[old]? = some new →
          ((g.addChange c).Registered old ∧ (g.addChange c).Registered new ↔
            (g.commitOwner[old]? = some c.id → old ∈ c.revisions) ∧
              (g.commitOwner[new]? = some c.id → new ∈ c.revisions)) := fun old new hedge =>
        and_congr (registered_addChange_iff (h old new hedge).1) (registered_addChange_iff (h old new hedge).2)
      exact forall_congr' fun old => forall_congr' fun new => ⟨fun hr hedge => (hends old new hedge).mp (hr hedge),
        fun hk hedge => (hends old new hedge).mpr (hk hedge)⟩
  | addRevision id commit =>
      refine iff_of_true ?_ trivial
      cases hc : g.changes[id]? with
      | none => rwa [apply_addRevision_of_none hc]
      | some c =>
          intro old new hedge
          have hedge' : g.supersededBy[old]? = some new := by
            rw [apply_addRevision hc] at hedge
            exact hedge
          exact ⟨registered_addRevision hc (h old new hedge').1, registered_addRevision hc (h old new hedge').2⟩
  | supersede old new =>
      unfold KeepsRegistered
      -- a new edge has to end in registered revisions at both ends
      by_cases hs : g.Supersedable old new
      · rw [apply_supersede hacyclic hs]
        constructor
        · intro hall _
          exact hall old new (by simp [withEdge])
        · intro hkeeps a b hedge
          simp only [withEdge, BTreeMap.getElem?_insert] at hedge
          split at hedge
          · rename_i ha
            rw [Option.some.injEq] at hedge
            rw [← ha, ← hedge]
            exact hkeeps hs
          · exact h a b hedge
      · rw [apply_supersede_of_not hacyclic hs]
        exact iff_of_true h fun hs' => absurd hs' hs
  | setPhase id phase =>
      refine iff_of_true (fun old new hedge => ?_) trivial
      have hedge' : g.newer old = some new := by
        rw [← @newer_apply g (.setPhase id phase) (by simp)]
        exact hedge
      exact ⟨registered_setPhase (h old new hedge').1, registered_setPhase (h old new hedge').2⟩

theorem noOrphans_new : NoOrphans new := by
  intro old new hedge
  cases hedge

/-- Of no graph on the way from the empty one an edge is orphaned, exactly if every call keeps the
    ends of the edges registered. -/
theorem no_orphans_iff (calls : List Call) :
    (∀ n, (new.run (calls.take n)).NoOrphans) ↔
      ∀ n (h : n < calls.length), (new.run (calls.take n)).KeepsRegistered calls[n] := by
  have hstep : ∀ n (h : n < calls.length), (new.run (calls.take n)).NoOrphans →
      ((new.run (calls.take (n + 1))).NoOrphans ↔ (new.run (calls.take n)).KeepsRegistered calls[n]) := by
    intro n h hnone
    rw [run_take_succ calls h]
    exact noOrphans_apply_iff (acyclic_run acyclic_new _) hnone calls[n]
  constructor
  · intro hnone n h
    exact (hstep n h (hnone n)).mp (hnone (n + 1))
  · intro hkeeps n
    induction n with
    | zero => exact noOrphans_new
    | succ n ih =>
        by_cases h : n < calls.length
        · exact (hstep n h ih).mpr (hkeeps n h)
        · rwa [take_succ_of_length_le h]

/-- A change is added again without the commits of an edge. -/
def replacement : List Call :=
  [.addChange ⟨['c'], [['a'], ['b']], .draft⟩, .supersede ['a'] ['b'], .addChange (.draft ['c'])]

/-- Its commits stay in the edge and belong to a change that does not list them. -/
theorem replacement_orphans : ¬ (new.run replacement).NoOrphans := by
  intro hnone
  obtain ⟨⟨id, c, howner, hc, hmem⟩, -⟩ := hnone ['a'] ['b'] (by decide +kernel)
  have hid : id = ['c'] := Option.some.inj (howner.symm.trans (by decide +kernel))
  subst hid
  have hempty : c = .draft ['c'] := Option.some.inj (hc.symm.trans (by decide +kernel))
  subst hempty
  cases hmem

end Omoplata.ChangeGraph
