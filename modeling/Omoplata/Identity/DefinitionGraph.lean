-- SUMMARY: The definition graph: occurrences of definitions, and the identities they are resolved to.
import Omoplata.Identity.Definition
import Omoplata.Lib.BTreeMap
import Omoplata.Lib.Classes

/-!
# The definition graph

Each observed definition is an occurrence, and occurrences that are one definition have
one identity. Joining two occurrences relabels all that share the identity of the second;
severing one gives it an identity of its own. The counters are natural numbers.
-/

namespace Omoplata

/-- An occurrence of a definition in some version. -/
abbrev OccurrenceId := Nat

/-- A stable identity of a definition. -/
abbrev DefinitionId := Str

/-- Occurrences with their definitions and identities, and the counters that name both. -/
structure DefinitionGraph where
  nextOcc : Nat
  nextId : Nat
  occurrences : BTreeMap OccurrenceId Definition
  identity : BTreeMap OccurrenceId DefinitionId

namespace DefinitionGraph

def new : DefinitionGraph := ⟨0, 0, ∅, ∅⟩

/-- The identity of a number. -/
def idName (k : Nat) : DefinitionId := "def-".toList ++ Nat.toDigits 10 k

/-- Mint the next fresh identity. -/
def mintId (g : DefinitionGraph) : DefinitionGraph × DefinitionId :=
  ({ g with nextId := g.nextId + 1 }, idName (g.nextId + 1))

/-- Record a newly observed definition under a fresh identity. -/
def add (g : DefinitionGraph) (d : Definition) : DefinitionGraph × OccurrenceId :=
  let occ := g.nextOcc
  let (g, id) := { g with nextOcc := g.nextOcc + 1 }.mintId
  ({ g with
    occurrences := g.occurrences.insert occ d
    identity := g.identity.insert occ id }, occ)

/-- The definition of an occurrence. -/
def definition (g : DefinitionGraph) (occ : OccurrenceId) : Option Definition := g.occurrences[occ]?

/-- The identity that an occurrence is resolved to. -/
def identityOf (g : DefinitionGraph) (occ : OccurrenceId) : Option DefinitionId := g.identity[occ]?

/-- Every occurrence resolved to an identity, sorted. -/
def members (g : DefinitionGraph) (id : DefinitionId) : List OccurrenceId :=
  ((g.identity.toList.filter fun e => e.2 == id).map Prod.fst).mergeSort

/-- Assert that two occurrences are one definition: whatever shares the identity of the second
    gets that of the first. -/
def join (g : DefinitionGraph) (a b : OccurrenceId) : Except IdentityError DefinitionGraph :=
  match g.identity[a]? with
  | none => .error (.unknownOccurrence a)
  | some target =>
      match g.identity[b]? with
      | none => .error (.unknownOccurrence b)
      | some source =>
          if source = target then .ok g
          else .ok { g with identity := g.identity.map fun _ did => if did = source then target else did }

/-- Split an occurrence off its identity into a fresh one. -/
def sever (g : DefinitionGraph) (occ : OccurrenceId) : Except IdentityError (DefinitionGraph × DefinitionId) :=
  if !g.identity.contains occ then .error (.unknownOccurrence occ)
  else
    let (g, fresh) := g.mintId
    .ok ({ g with identity := g.identity.insert occ fresh }, fresh)

end DefinitionGraph

/-! ## Runs -/

/-- A call that changes the graph. -/
inductive GraphCall where
  | add (d : Definition)
  | join (a b : OccurrenceId)
  | sever (occ : OccurrenceId)

namespace DefinitionGraph

/-- The graph after a call; a call that is refused leaves it as it is. -/
def call (g : DefinitionGraph) : GraphCall → DefinitionGraph
  | .add d => (g.add d).1
  | .join a b =>
      match g.join a b with
      | .ok g' => g'
      | .error _ => g
  | .sever occ =>
      match g.sever occ with
      | .ok (g', _) => g'
      | .error _ => g

/-- The graph after some calls. -/
def run (calls : List GraphCall) : DefinitionGraph := calls.foldl call new

end DefinitionGraph

/-! ## What the graph is for -/

/-- Occurrences, numbered as they are added, and which of them are one definition. -/
structure AbstractGraph where
  count : Nat
  classes : Classes OccurrenceId

namespace AbstractGraph

def new : AbstractGraph := ⟨0, .empty⟩

/-- What a call means. -/
def call (s : AbstractGraph) : GraphCall → AbstractGraph
  | .add _ => ⟨s.count + 1, s.classes.insert s.count⟩
  | .join a b => ⟨s.count, s.classes.merge a b⟩
  | .sever occ => ⟨s.count, s.classes.sever occ⟩

/-- What some calls mean. -/
def run (calls : List GraphCall) : AbstractGraph := calls.foldl call new

end AbstractGraph

/-- A graph that has the occurrences of an abstract one, each class of them under an identity that
    its counter has named. -/
structure Implements (g : DefinitionGraph) (s : AbstractGraph) : Prop where
  count : g.nextOcc = s.count
  total : ∀ occ, (g.identityOf occ).isSome = true ↔ occ < s.count
  classes : s.classes = .ofLabels g.identityOf
  named : ∀ occ id, g.identityOf occ = some id → ∃ k ≤ g.nextId, id = DefinitionGraph.idName k

namespace DefinitionGraph

/-! ## Single calls -/

theorem idName_inj {j k : Nat} (h : idName j = idName k) : j = k := by
  have hdigits : Nat.toDigits 10 j = Nat.toDigits 10 k := List.append_cancel_left h
  have hread := congrArg (fun digits => Nat.ofDigitChars 10 digits 0) hdigits
  simpa only [Nat.ofDigitChars_ten_toDigits] using hread

section

variable {g g' : DefinitionGraph} {a b occ : OccurrenceId}

theorem identityOf_add (g : DefinitionGraph) (d : Definition) :
    (g.add d).1.identityOf = Function.update g.identityOf g.nextOcc (some (idName (g.nextId + 1))) := by
  funext x
  rw [Function.update_apply]
  exact (BTreeMap.getElem?_insert _ _ _ _).trans (if_congr eq_comm rfl rfl)

/-- What joining two occurrences does. -/
theorem join_ok {la lb : DefinitionId} (ha : g.identityOf a = some la) (hb : g.identityOf b = some lb) :
    ∃ g', g.join a b = .ok g' ∧ g'.nextOcc = g.nextOcc ∧ g'.nextId = g.nextId ∧
      g'.identityOf = fun x => (g.identityOf x).map fun l => if l = lb then la else l := by
  unfold identityOf at ha hb
  unfold join
  simp only [ha, hb]
  split
  · rename_i hsame
    subst hsame
    refine ⟨g, rfl, rfl, rfl, funext fun x => ?_⟩
    rw [show (fun l => if l = lb then lb else l) = id from funext fun l => by split <;> simp_all, Option.map_id, id]
  · refine ⟨_, rfl, rfl, rfl, funext fun x => ?_⟩
    unfold identityOf
    rw [Std.ExtTreeMap.getElem?_map]

/-- What severing an occurrence does. -/
theorem sever_ok (h : (g.identityOf occ).isSome = true) :
    ∃ g', g.sever occ = .ok (g', idName (g.nextId + 1)) ∧ g'.nextOcc = g.nextOcc ∧ g'.nextId = g.nextId + 1 ∧
      g'.identityOf = Function.update g.identityOf occ (some (idName (g.nextId + 1))) := by
  have hcontains : g.identity.contains occ = true := by
    rw [Std.ExtTreeMap.contains_eq_isSome_getElem?]
    exact h
  unfold sever
  rw [hcontains, Bool.not_true, if_neg Bool.false_ne_true]
  refine ⟨_, rfl, rfl, rfl, funext fun x => ?_⟩
  rw [Function.update_apply]
  exact (BTreeMap.getElem?_insert _ _ _ _).trans (if_congr eq_comm rfl rfl)

/-- Calls of unknown occurrences are refused. -/
theorem join_error (h : g.identityOf a = none ∨ g.identityOf b = none) : ∃ e, g.join a b = .error e := by
  unfold identityOf at h
  unfold join
  split
  · exact ⟨_, rfl⟩
  · split
    · exact ⟨_, rfl⟩
    · simp_all

theorem sever_error (h : g.identityOf occ = none) : g.sever occ = .error (.unknownOccurrence occ) := by
  have hcontains : g.identity.contains occ = false := by
    rw [Std.ExtTreeMap.contains_eq_isSome_getElem?]
    exact congrArg Option.isSome h
  unfold sever
  rw [hcontains, Bool.not_false, if_pos rfl]

/-- The occurrences of an identity, in increasing order. -/
theorem members_ok (g : DefinitionGraph) (id : DefinitionId) :
    (g.members id).Pairwise (· < ·) ∧ ∀ x, x ∈ g.members id ↔ g.identityOf x = some id := by
  have hmem : ∀ x, x ∈ (g.identity.toList.filter fun e => e.2 == id).map Prod.fst ↔ g.identityOf x = some id := by
    intro x
    simp only [List.mem_map, List.mem_filter, beq_iff_eq, Prod.exists, exists_and_right, exists_eq_right,
      Std.ExtTreeMap.mem_toList_iff_getElem?_eq_some]
    rfl
  have hnodup : ((g.identity.toList.filter fun e => e.2 == id).map Prod.fst).Nodup := by
    refine List.pairwise_map.mpr (List.Pairwise.filter _ ?_)
    exact g.identity.distinct_keys_toList.imp fun hne heq => hne (Std.compare_eq_iff_eq.mpr heq)
  unfold members
  constructor
  · have hsorted := @List.pairwise_mergeSort Nat (fun x y => decide (x ≤ y))
      (fun x y z hxy hyz => by simp_all; omega) (fun x y => by simp; omega)
      ((g.identity.toList.filter fun e => e.2 == id).map Prod.fst)
    have hdistinct := (List.mergeSort_perm _ fun x y => decide (x ≤ y)).nodup_iff.mpr hnodup
    exact (hsorted.and hdistinct).imp fun h => Nat.lt_of_le_of_ne (of_decide_eq_true h.1) h.2
  · intro x
    rw [List.mem_mergeSort, hmem]

end

end DefinitionGraph

/-! ## Runs of calls -/

namespace Implements

variable {g : DefinitionGraph} {s : AbstractGraph}

theorem new : Implements .new .new where
  count := rfl
  total occ := by simp [DefinitionGraph.new, DefinitionGraph.identityOf, AbstractGraph.new]
  classes := by
    ext x y
    simp [DefinitionGraph.new, DefinitionGraph.identityOf, AbstractGraph.new, Classes.empty, Classes.ofLabels]
  named occ id h := by simp [DefinitionGraph.new, DefinitionGraph.identityOf] at h

theorem known_iff (h : Implements g s) (occ : OccurrenceId) :
    s.classes.Known occ ↔ (g.identityOf occ).isSome = true := by
  rw [h.classes, Classes.ofLabels_known]

/-- No occurrence has the identity that is minted next. -/
theorem fresh (h : Implements g s) (x : OccurrenceId) : g.identityOf x ≠ some (DefinitionGraph.idName (g.nextId + 1)) := by
  intro hx
  obtain ⟨k, hk, hname⟩ := h.named x _ hx
  have heq := DefinitionGraph.idName_inj hname
  omega

/-- An occurrence under a fresh identity. -/
theorem update_named (h : Implements g s) (occ : OccurrenceId) :
    ∀ x id, Function.update g.identityOf occ (some (DefinitionGraph.idName (g.nextId + 1))) x = some id →
      ∃ k ≤ g.nextId + 1, id = DefinitionGraph.idName k := by
  intro x id hx
  rw [Function.update_apply] at hx
  split at hx
  · exact ⟨_, le_rfl, (Option.some.inj hx).symm⟩
  · obtain ⟨k, hk, hname⟩ := h.named x id hx
    exact ⟨k, hk.trans (Nat.le_succ _), hname⟩

theorem call_add (h : Implements g s) (d : Definition) : Implements (g.call (.add d)) (s.call (.add d)) := by
  have hidentity := g.identityOf_add d
  refine ⟨congrArg (· + 1) h.count, fun occ => ?_, ?_, ?_⟩
  · unfold DefinitionGraph.call AbstractGraph.call
    rw [hidentity, Function.update_apply, h.count]
    split
    · rename_i heq
      simp [heq]
    · rename_i hne
      rw [h.total]
      exact ⟨Nat.lt_succ_of_lt, fun hlt => Nat.lt_of_le_of_ne (Nat.lt_succ_iff.mp hlt) hne⟩
  · unfold DefinitionGraph.call AbstractGraph.call
    rw [hidentity, Classes.ofLabels_update h.fresh, h.count, h.classes]
  · unfold DefinitionGraph.call
    rw [hidentity]
    exact h.update_named _

theorem call_join (h : Implements g s) (a b : OccurrenceId) : Implements (g.call (.join a b)) (s.call (.join a b)) := by
  by_cases hknown : s.classes.Known a ∧ s.classes.Known b
  · obtain ⟨la, ha⟩ := Option.isSome_iff_exists.mp ((h.known_iff a).mp hknown.1)
    obtain ⟨lb, hb⟩ := Option.isSome_iff_exists.mp ((h.known_iff b).mp hknown.2)
    obtain ⟨g', hjoin, hocc, hid, hidentity⟩ := DefinitionGraph.join_ok ha hb
    have hcall : g.call (.join a b) = g' := by simp only [DefinitionGraph.call, hjoin]
    rw [hcall]
    refine ⟨hocc.trans h.count, fun occ => ?_, ?_, fun occ id hocc' => ?_⟩
    · rw [hidentity, Option.isSome_map]
      exact h.total occ
    · rw [hidentity, Classes.ofLabels_relabel ha hb, ← h.classes]
      rfl
    · rw [hidentity] at hocc'
      obtain ⟨l, hl, rfl⟩ := Option.map_eq_some_iff.mp hocc'
      rw [hid]
      split
      · exact h.named a la ha
      · exact h.named occ l hl
  · have hnone : g.identityOf a = none ∨ g.identityOf b = none := by
      rw [h.known_iff, h.known_iff, not_and_or] at hknown
      simpa using hknown
    obtain ⟨e, he⟩ := DefinitionGraph.join_error hnone
    have hcall : g.call (.join a b) = g := by simp only [DefinitionGraph.call, he]
    have hsame : s.call (.join a b) = s := by simp only [AbstractGraph.call, Classes.merge_of_not_known hknown]
    rw [hcall, hsame]
    exact h

theorem call_sever (h : Implements g s) (occ : OccurrenceId) : Implements (g.call (.sever occ)) (s.call (.sever occ)) := by
  by_cases hknown : s.classes.Known occ
  · have hsome := (h.known_iff occ).mp hknown
    obtain ⟨g', hsever, hocc, hid, hidentity⟩ := DefinitionGraph.sever_ok hsome
    have hcall : g.call (.sever occ) = g' := by simp only [DefinitionGraph.call, hsever]
    rw [hcall]
    refine ⟨hocc.trans h.count, fun x => ?_, ?_, ?_⟩
    · rw [hidentity, Function.update_apply]
      split
      · rename_i heq
        exact ⟨fun _ => heq ▸ (h.total occ).mp hsome, fun _ => rfl⟩
      · exact h.total x
    · rw [hidentity, Classes.ofLabels_update h.fresh, ← h.classes, ← Classes.sever_of_known hknown]
      rfl
    · rw [hidentity, hid]
      exact h.update_named occ
  · have hnone : g.identityOf occ = none := by
      rw [h.known_iff] at hknown
      simpa using hknown
    have hcall : g.call (.sever occ) = g := by simp only [DefinitionGraph.call, DefinitionGraph.sever_error hnone]
    have hsame : s.call (.sever occ) = s := by simp only [AbstractGraph.call, Classes.sever_of_not_known hknown]
    rw [hcall, hsame]
    exact h

/-- Each call keeps to its meaning. -/
theorem call (h : Implements g s) (c : GraphCall) : Implements (g.call c) (s.call c) := by
  cases c with
  | add d => exact h.call_add d
  | join a b => exact h.call_join a b
  | sever occ => exact h.call_sever occ

theorem run (calls : List GraphCall) : Implements (.run calls) (.run calls) := by
  unfold DefinitionGraph.run AbstractGraph.run
  induction calls using List.reverseRecOn with
  | nil => exact .new
  | append_singleton calls c ih =>
      rw [List.foldl_append, List.foldl_append]
      exact ih.call c

end Implements

namespace DefinitionGraph

theorem nextId_le_call (g : DefinitionGraph) (c : GraphCall) : g.nextId ≤ (g.call c).nextId := by
  cases c with
  | add d => exact Nat.le_succ g.nextId
  | join a b =>
      simp only [call]
      split
      · rename_i g' hjoin
        simp only [join] at hjoin
        split at hjoin
        · cases hjoin
        · split at hjoin
          · cases hjoin
          · split at hjoin <;> exact Except.ok.inj hjoin ▸ Nat.le_refl g.nextId
      · exact Nat.le_refl g.nextId
  | sever occ =>
      simp only [call]
      split
      · rename_i g' id hsever
        simp only [sever] at hsever
        split at hsever
        · cases hsever
        · exact (Prod.mk.inj (Except.ok.inj hsever)).1 ▸ Nat.le_succ g.nextId
      · exact Nat.le_refl g.nextId

theorem nextId_le_run {calls calls' : List GraphCall} (h : calls <+: calls') :
    (run calls).nextId ≤ (run calls').nextId := by
  obtain ⟨more, rfl⟩ := h
  unfold run
  rw [List.foldl_append]
  exact List.foldlRecOn (motive := fun g => (calls.foldl call new).nextId ≤ g.nextId) more _ le_rfl
    fun g hg c _ => hg.trans (nextId_le_call g c)

/-- The identity that is minted next has not been used in any state so far. -/
theorem never_used {calls earlier : List GraphCall} (h : earlier <+: calls) (x : OccurrenceId) :
    (run earlier).identityOf x ≠ some (idName ((run calls).nextId + 1)) := by
  intro hx
  obtain ⟨k, hk, hname⟩ := (Implements.run earlier).named x _ hx
  have heq := idName_inj hname
  have hle := nextId_le_run h
  omega

/-! ## The graph is a partition -/

/-- What the graph says after some calls, and what the next call does to it. -/
structure KeepsClasses (calls : List GraphCall) : Prop where
  /-- The occurrences that were added have an identity, and no others. -/
  total : ∀ occ, ((run calls).identityOf occ).isSome = true ↔ occ < (AbstractGraph.run calls).count
  /-- Two occurrences have one identity if they are in one class. -/
  same : ∀ x y, (AbstractGraph.run calls).classes.same x y ↔
    ∃ id, (run calls).identityOf x = some id ∧ (run calls).identityOf y = some id
  /-- The members of an identity are the class of its occurrences, in increasing order. -/
  members : ∀ occ id, (run calls).identityOf occ = some id →
    ((run calls).members id).Pairwise (· < ·) ∧
      ∀ x, x ∈ (run calls).members id ↔ (AbstractGraph.run calls).classes.same occ x
  add : ∀ d, ((run calls).add d).2 = (AbstractGraph.run calls).count ∧
    ∃ id, ((run calls).add d).1.identityOf = Function.update (run calls).identityOf ((run calls).add d).2 (some id) ∧
      ∀ earlier, earlier <+: calls → ∀ x, (run earlier).identityOf x ≠ some id
  /-- Joining gives the class of the second occurrence the identity of the first one's. -/
  join : ∀ a b, a < (AbstractGraph.run calls).count → b < (AbstractGraph.run calls).count →
    ∃ g', (run calls).join a b = .ok g' ∧ ∀ x, g'.identityOf x =
      if (run calls).identityOf x = (run calls).identityOf b then (run calls).identityOf a
      else (run calls).identityOf x
  /-- Severing gives the occurrence, and no other, an identity that was never used. -/
  sever : ∀ occ < (AbstractGraph.run calls).count, ∃ g' id, (run calls).sever occ = .ok (g', id) ∧
    g'.identityOf = Function.update (run calls).identityOf occ (some id) ∧
    ∀ earlier, earlier <+: calls → ∀ x, (run earlier).identityOf x ≠ some id
  /-- Calls of occurrences that were not added are refused. -/
  refused : ∀ a b, ¬ a < (AbstractGraph.run calls).count →
    (∃ e, (run calls).join a b = .error e) ∧ (∃ e, (run calls).join b a = .error e) ∧
    ∃ e, (run calls).sever a = .error e

/-- The graph keeps the occurrences in classes under fresh names, through any calls. -/
theorem run_keepsClasses (calls : List GraphCall) : KeepsClasses calls := by
  have h := Implements.run calls
  constructor
  · exact h.total
  · intro x y
    rw [h.classes]
    rfl
  · intro occ id hocc
    obtain ⟨hsorted, hmem⟩ := members_ok (run calls) id
    refine ⟨hsorted, fun x => ?_⟩
    rw [hmem, h.classes]
    constructor
    · exact fun hx => ⟨id, hocc, hx⟩
    · rintro ⟨id', hocc', hx⟩
      obtain rfl := Option.some.inj (hocc.symm.trans hocc')
      exact hx
  · intro d
    refine ⟨h.count, _, identityOf_add _ d, fun earlier hearlier x => never_used hearlier x⟩
  · intro a b ha hb
    obtain ⟨la, hla⟩ := Option.isSome_iff_exists.mp ((h.total a).mpr ha)
    obtain ⟨lb, hlb⟩ := Option.isSome_iff_exists.mp ((h.total b).mpr hb)
    obtain ⟨g', hjoin, -, -, hidentity⟩ := join_ok hla hlb
    refine ⟨g', hjoin, fun x => ?_⟩
    simp only [hidentity, hla, hlb]
    cases (run calls).identityOf x with
    | none => rfl
    | some l => by_cases hl : l = lb <;> simp [hl]
  · intro occ hocc
    obtain ⟨g', hsever, -, -, hidentity⟩ := sever_ok ((h.total occ).mpr hocc)
    exact ⟨g', _, hsever, hidentity, fun earlier hearlier x => never_used hearlier x⟩
  · intro a b ha
    have hnone : (run calls).identityOf a = none := by
      rw [← h.total] at ha
      simpa using ha
    exact ⟨join_error (.inl hnone), join_error (.inr hnone), _, sever_error hnone⟩

end DefinitionGraph

end Omoplata
