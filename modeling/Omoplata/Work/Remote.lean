-- SUMMARY: Copying the closure of an object from one store to another, and what a copy that ends has done.
import Omoplata.Store.Closure
import Omoplata.Work.Error

/-!
# Copying a closure

A copy takes an id off a stack, reads its object, puts on the ids the object refers to, and
writes the object where it is missing. It keeps no record of what it has seen: a subtree that
is shared is walked again, and only the check of the target keeps it from being counted twice.
-/

open Relation Walk

namespace Omoplata

/-- How a copy ends. -/
inductive CopyEnd where
  | done (copied : Nat)
  | failed (e : WorkError)
  | panicked (p : Panic)
  | unfinished
  deriving DecidableEq

section

variable (sha256 : List UInt8 → ObjectId) (source : Repository)

/-- The loop, for so many turns, with the top of the stack first. -/
def copyLoop : Nat → List ObjectId → Nat → Repository → CopyEnd × Repository
  | 0, _, _, target => (.unfinished, target)
  | _ + 1, [], copied, target => (.done copied, target)
  | turns + 1, id :: stack, copied, target =>
      match source.readObject sha256 id with
      | .error p => (.panicked p, target)
      | .ok (.error e) => (.failed (.store e), target)
      | .ok (.ok object) =>
          if target.hasObject id then copyLoop turns (children object ++ stack) copied target
          else copyLoop turns (children object ++ stack) (copied + 1) (target.writeObject sha256 object).2

/-- Copy the objects below a root that the target is missing. -/
def copyClosure (turns : Nat) (target : Repository) (root : ObjectId) : CopyEnd × Repository :=
  copyLoop sha256 source turns [root] 0 target

/-! ## What a copy is for -/

/-- What a copy from a stack writes, and what it leaves: the objects in `missing`, and all others. -/
structure Copies (stack : List ObjectId) (target target' : Repository) (missing : List ObjectId) : Prop where
  nodup : missing.Nodup
  mem : ∀ id, id ∈ missing ↔ Leads (RefersTo sha256 source) stack id ∧ target.hasObject id = false
  readable : ∀ id, Leads (RefersTo sha256 source) stack id → ∃ o, source.readObject sha256 id = .ok (.ok o)
  kept : ∀ (key : Str) bytes, target.objects[key]? = some bytes → target'.objects[key]? = some bytes
  stored : ∀ id o, id ∈ missing → source.readObject sha256 id = .ok (.ok o) →
    target'.objects[id.toText]? = some o.serialize
  only : ∀ (key : Str) bytes, target'.objects[key]? = some bytes →
    target.objects[key]? = some bytes ∨ ∃ id ∈ missing, key = id.toText

/-- The ids inside an object are there before its own: no object is below itself. -/
def ContentAddressed : Prop := ∀ id, ¬ TransGen (RefersTo sha256 source) id id

/-- Objects of two stores with one hash are the same. -/
def NoneCollide (target : Repository) : Prop :=
  ∀ id id' o o', source.readObject sha256 id = .ok (.ok o) → target.readObject sha256 id' = .ok (.ok o') →
    o.id sha256 = o'.id sha256 → o = o'

end

section

variable {sha256 : List UInt8 → ObjectId} {source : Repository}

namespace Copies

variable {stack : List ObjectId} {target target' : Repository} {missing : List ObjectId} {id : ObjectId} {o : Object}

theorem nil (target : Repository) : Copies sha256 source [] target target [] := by
  have hnone : ∀ id, ¬ Leads (RefersTo sha256 source) [] id := by
    rintro id ⟨r, hr, -⟩
    cases hr
  refine ⟨.nil, fun id => ?_, fun id hid => absurd hid (hnone id), fun _ _ => id, fun _ _ hmem => ?_, fun _ _ => .inl⟩
  · exact iff_of_false List.not_mem_nil fun h => hnone id h.1
  · cases hmem

/-- An object that is there already is passed over, but not what is below it. -/
theorem present (hread : source.readObject sha256 id = .ok (.ok o)) (hhas : target.hasObject id = true)
    (h : Copies sha256 source (children o ++ stack) target target' missing) :
    Copies sha256 source (id :: stack) target target' missing := by
  have hleads := Leads.cons_iff stack (refersTo_iff hread)
  refine ⟨h.nodup, fun a => ?_, fun a ha => ?_, h.kept, h.stored, h.only⟩
  · rw [h.mem, hleads]
    refine and_congr_left fun hnone => (or_iff_right ?_).symm
    rintro rfl
    rw [hhas] at hnone
    cases hnone
  · cases (hleads a).mp ha with
    | inl heq => exact ⟨o, heq ▸ hread⟩
    | inr ha => exact h.readable a ha

/-- A missing object is written once, and is there when the walk comes by again. -/
theorem written (hread : source.readObject sha256 id = .ok (.ok o)) (hhas : target.hasObject id = false)
    (h : Copies sha256 source (children o ++ stack) (target.writeObject sha256 o).2 target' missing) :
    Copies sha256 source (id :: stack) target target' (id :: missing) := by
  have hid := Repository.id_of_readObject sha256 hread
  have hleads := Leads.cons_iff stack (refersTo_iff hread)
  have hobjects := Repository.objects_written hid hhas
  refine ⟨?_, fun a => ?_, fun a ha => ?_, fun key bytes hkey => ?_, fun a p ha hp => ?_, fun key bytes hkey => ?_⟩
  · refine List.nodup_cons.mpr ⟨fun hmem => ?_, h.nodup⟩
    exact ((Repository.hasObject_written hid hhas id).mp ((h.mem id).mp hmem).2).1 rfl
  -- The rest of the copy finds the object in the target, and misses the others as before.
  · rw [List.mem_cons, h.mem, hleads, Repository.hasObject_written hid hhas]
    constructor
    · rintro (rfl | ⟨ha, -, hnone⟩)
      · exact ⟨.inl rfl, hhas⟩
      · exact ⟨.inr ha, hnone⟩
    · rintro ⟨ha, hnone⟩
      by_cases heq : a = id
      · exact .inl heq
      · exact .inr ⟨ha.resolve_left heq, heq, hnone⟩
  · cases (hleads a).mp ha with
    | inl heq => exact ⟨o, heq ▸ hread⟩
    | inr ha => exact h.readable a ha
  · refine h.kept key bytes ?_
    rw [hobjects, if_neg, hkey]
    rintro rfl
    rw [Repository.hasObject_eq_true_iff.mpr ⟨bytes, hkey⟩] at hhas
    cases hhas
  · cases List.mem_cons.mp ha with
    | inl heq =>
        subst heq
        rw [hread, Except.ok.injEq, Except.ok.injEq] at hp
        refine h.kept _ _ ?_
        rw [hobjects, if_pos rfl, hp]
    | inr ha => exact h.stored a p ha hp
  · rcases h.only key bytes hkey with hkey | ⟨a, ha, rfl⟩
    · rw [hobjects] at hkey
      split at hkey
      · rename_i heq
        exact .inr ⟨id, List.mem_cons_self, heq.symm⟩
      · exact .inl hkey
    · exact .inr ⟨a, List.mem_cons_of_mem _ ha, rfl⟩

/-- A copy that ends has written what was missing, and has counted it. -/
theorem run {turns copied n : Nat} (h : copyLoop sha256 source turns stack copied target = (.done n, target')) :
    ∃ missing, Copies sha256 source stack target target' missing ∧ n = copied + missing.length := by
  induction turns generalizing stack copied target with
  | zero => cases h
  | succ turns ih =>
      cases stack with
      | nil =>
          cases h
          exact ⟨[], nil _, rfl⟩
      | cons id stack =>
          unfold copyLoop at h
          split at h
          · cases h
          · cases h
          · rename_i o hread
            split at h
            · rename_i hhas
              obtain ⟨missing, hcopies, hn⟩ := ih h
              exact ⟨missing, hcopies.present hread hhas, hn⟩
            · rename_i hhas
              obtain ⟨missing, hcopies, hn⟩ := ih h
              refine ⟨id :: missing, hcopies.written hread (Bool.not_eq_true _ ▸ hhas), ?_⟩
              rw [hn, List.length_cons]
              omega

end Copies

variable {stack : List ObjectId} {target target' : Repository}

/-- More turns change nothing of a copy that ends. -/
theorem copyLoop_mono {turns more copied : Nat} (hle : turns ≤ more)
    (h : (copyLoop sha256 source turns stack copied target).1 ≠ .unfinished) :
    copyLoop sha256 source more stack copied target = copyLoop sha256 source turns stack copied target := by
  induction turns generalizing more stack copied target with
  | zero => exact absurd rfl h
  | succ turns ih =>
      obtain ⟨more, rfl⟩ := Nat.exists_eq_succ_of_ne_zero (Nat.ne_of_gt (Nat.lt_of_lt_of_le (Nat.succ_pos _) hle))
      have hle := Nat.le_of_succ_le_succ hle
      cases stack with
      | nil => rfl
      | cons id stack =>
          unfold copyLoop at h ⊢
          cases hread : source.readObject sha256 id with
          | error p => rfl
          | ok r =>
              cases r with
              | error e => rfl
              | ok o =>
                  simp only [hread] at h ⊢
                  split at h
                  · rename_i hhas
                    rw [if_pos hhas, if_pos hhas]
                    exact ih hle h
                  · rename_i hhas
                    rw [if_neg hhas, if_neg hhas]
                    exact ih hle h

/-- Where all is there already, the same walk writes nothing. -/
theorem copyLoop_again {turns copied n : Nat} {before after : Repository}
    (h : copyLoop sha256 source turns stack copied before = (.done n, after))
    (hpresent : ∀ id, Leads (RefersTo sha256 source) stack id → target.hasObject id = true) (count : Nat) :
    copyLoop sha256 source turns stack count target = (.done count, target) := by
  induction turns generalizing stack copied before with
  | zero => cases h
  | succ turns ih =>
      cases stack with
      | nil => rfl
      | cons id stack =>
          unfold copyLoop at h ⊢
          split at h
          · cases h
          · cases h
          · rename_i o hread
            have hleads := Leads.cons_iff stack (refersTo_iff hread)
            have hrest : ∀ a, Leads (RefersTo sha256 source) (children o ++ stack) a → target.hasObject a = true :=
              fun a ha => hpresent a ((hleads a).mpr (.inr ha))
            simp only [if_pos (hpresent id (.root List.mem_cons_self))]
            split at h
            · exact ih h hrest
            · exact ih h hrest

/-- What an id in a repository refers to. -/
def childrenOf (sha256 : List UInt8 → ObjectId) (repo : Repository) (id : ObjectId) : List ObjectId :=
  match repo.readObject sha256 id with
  | .ok (.ok object) => children object
  | _ => []

theorem mem_childrenOf_iff (a b : ObjectId) : b ∈ childrenOf sha256 source a ↔ RefersTo sha256 source a b := by
  unfold childrenOf
  split
  · rename_i o hread
    exact (refersTo_iff hread b).symm
  · rename_i hnone
    exact iff_of_false List.not_mem_nil fun h => h.elim fun o ho => hnone o ho.1

theorem copyLoop_of_finishes {turns : Nat} (h : Finishes (childrenOf sha256 source) turns stack) (copied : Nat) :
    (copyLoop sha256 source turns stack copied target).1 ≠ .unfinished := by
  induction h generalizing copied target with
  | nil => exact fun hend => by cases hend
  | @cons turns id stack _ ih =>
      unfold copyLoop
      cases hread : source.readObject sha256 id with
      | error p => exact fun hend => by cases hend
      | ok r =>
          cases r with
          | error e => exact fun hend => by cases hend
          | ok o =>
              have hchildren : childrenOf sha256 source id = children o := by
                unfold childrenOf
                rw [hread]
              rw [hchildren] at ih
              simp only
              split
              · exact ih copied
              · exact ih (copied + 1)

/-- The ids of the objects in a repository. -/
def Repository.ids (repo : Repository) : List ObjectId :=
  repo.objects.keys.filterMap fun key => (ObjectId.parse key).toOption.bind Except.toOption

theorem Repository.mem_ids {repo : Repository} {id : ObjectId} {bytes : List UInt8}
    (h : repo.objects[id.toText]? = some bytes) : id ∈ repo.ids := by
  unfold ids
  refine List.mem_filterMap.mpr ⟨id.toText, Std.ExtTreeMap.mem_keys.mpr ?_, by rw [ObjectId.parse_toText]; rfl⟩
  rw [Std.ExtTreeMap.mem_iff_isSome_getElem?, h]
  rfl

/-- No object of a repository is below itself, so a copy comes to an end. -/
theorem copyClosure_ends (h : ContentAddressed sha256 source) (root : ObjectId) :
    ∃ turns, ∀ more, turns ≤ more → (copyClosure sha256 source more target root).1 ≠ .unfinished := by
  have hleaf : ∀ a, a ∉ source.ids → childrenOf sha256 source a = [] := by
    intro a ha
    cases hstored : source.objects[a.toText]? with
    | some bytes => exact absurd (Repository.mem_ids hstored) ha
    | none =>
        unfold childrenOf Repository.readObject
        rw [hstored]
  have hacyclic : ∀ a, ¬ TransGen (fun a b => b ∈ childrenOf sha256 source a) a a := by
    simp only [mem_childrenOf_iff]
    exact h
  obtain ⟨turns, hfinishes⟩ := exists_finishes hleaf hacyclic [root]
  exact ⟨turns, fun more hle => copyLoop_of_finishes (hfinishes.mono hle) 0⟩

/-- What a copy that ends well has done: all below the root is there, what was there is as it was,
    what was missing has been added and counted, and a second copy adds nothing. -/
structure Replicates (sha256 : List UInt8 → ObjectId) (source target : Repository) (root : ObjectId) (n : Nat)
    (target' : Repository) : Prop where
  present : ∀ id, Leads (RefersTo sha256 source) [root] id → target'.hasObject id = true
  reads : ∀ id, Leads (RefersTo sha256 source) [root] id →
    (target.hasObject id = true → ∃ o, target.readObject sha256 id = .ok (.ok o)) →
      ∃ o, source.readObject sha256 id = .ok (.ok o) ∧ target'.readObject sha256 id = .ok (.ok o)
  kept : ∀ (key : Str) bytes, target.objects[key]? = some bytes → target'.objects[key]? = some bytes
  added : ∃ missing : List ObjectId, missing.Nodup ∧ missing.length = n ∧
    (∀ id, id ∈ missing ↔ Leads (RefersTo sha256 source) [root] id ∧ target.hasObject id = false) ∧
      ∀ (key : Str) bytes, target'.objects[key]? = some bytes →
        target.objects[key]? = some bytes ∨ ∃ id ∈ missing, key = id.toText
  again : ∃ turns, ∀ more, turns ≤ more → copyClosure sha256 source more target' root = (.done 0, target')

theorem Copies.replicates {missing : List ObjectId} {root : ObjectId} {turns copied : Nat}
    (hfree : NoneCollide sha256 source target) (h : Copies sha256 source [root] target target' missing)
    (hrun : copyLoop sha256 source turns [root] 0 target = (.done copied, target')) :
    Replicates sha256 source target root missing.length target' := by
  have hcases : ∀ id, Leads (RefersTo sha256 source) [root] id → id ∈ missing ∨ target.hasObject id = true := by
    intro id hid
    cases hhas : target.hasObject id with
    | true => exact .inr rfl
    | false => exact .inl ((h.mem id).mpr ⟨hid, hhas⟩)
  have hpresent : ∀ id, Leads (RefersTo sha256 source) [root] id → target'.hasObject id = true := by
    intro id hid
    rw [Repository.hasObject_eq_true_iff]
    cases hcases id hid with
    | inl hmem =>
        obtain ⟨o, ho⟩ := h.readable id hid
        exact ⟨_, h.stored id o hmem ho⟩
    | inr hhas =>
        obtain ⟨bytes, hbytes⟩ := Repository.hasObject_eq_true_iff.mp hhas
        exact ⟨bytes, h.kept _ _ hbytes⟩
  refine ⟨hpresent, fun id hid hsound => ?_, h.kept, ⟨missing, h.nodup, rfl, h.mem, h.only⟩, turns, fun more hle => ?_⟩
  · obtain ⟨o, ho⟩ := h.readable id hid
    have hoid := Repository.id_of_readObject sha256 ho
    refine ⟨o, ho, ?_⟩
    cases hcases id hid with
    | inl hmem =>
        have hstored := h.stored id o hmem ho
        rw [← hoid] at hstored ⊢
        exact Repository.readObject_of_stored sha256 hstored
    -- What the target had under the id is the same object, as the hash tells objects apart.
    | inr hhas =>
        obtain ⟨o', ho'⟩ := hsound hhas
        obtain ⟨bytes, hbytes⟩ := Repository.hasObject_eq_true_iff.mp hhas
        rw [Repository.readObject_congr ((h.kept _ _ hbytes).trans hbytes.symm), ho',
          hfree id id o o' ho ho' (hoid.trans (Repository.id_of_readObject sha256 ho').symm)]
  · have hmore := copyLoop_mono hle (by rw [hrun]; exact fun hend => by cases hend)
    exact copyLoop_again (hmore.trans hrun) hpresent 0

/-- A copy that ends well has replicated what is below its root, and where no object is below
    itself every copy ends. -/
theorem copyClosure_replicates (hfree : NoneCollide sha256 source target) (root : ObjectId) :
    (∀ turns n target', copyClosure sha256 source turns target root = (.done n, target') →
      Replicates sha256 source target root n target') ∧
      (ContentAddressed sha256 source →
        ∃ turns, ∀ more, turns ≤ more → (copyClosure sha256 source more target root).1 ≠ .unfinished) := by
  refine ⟨fun turns n target' hrun => ?_, fun haddressed => copyClosure_ends haddressed root⟩
  obtain ⟨missing, hcopies, hn⟩ := Copies.run hrun
  rw [hn, Nat.zero_add]
  exact hcopies.replicates hfree hrun

end

section

/-- A blob, and a tree that has it twice. -/
def sharedBlob : Object := .blob [104, 105]

def sharedTree : Object :=
  .tree (.build [⟨"a".toList, .blob, sharedBlob.id ObjectId.ofSha256⟩,
    ⟨"b".toList, .blob, sharedBlob.id ObjectId.ofSha256⟩])

/-- The blob is met twice, and copied once. -/
theorem copyClosure_replicates_shared :
    let source := Repository.ofObjects ObjectId.ofSha256 [sharedBlob, sharedTree]
    let root := sharedTree.id ObjectId.ofSha256
    Replicates ObjectId.ofSha256 source .init root 2 (copyClosure ObjectId.ofSha256 source 4 .init root).2 := by
  intro source root
  have hfree : NoneCollide ObjectId.ofSha256 source .init := by
    intro id id' o o' _ ho'
    unfold Repository.readObject Repository.init at ho'
    rw [Std.ExtTreeMap.getElem?_empty] at ho'
    cases ho'
  have hrun : (copyClosure ObjectId.ofSha256 source 4 .init root).1 = .done 2 := by decide +kernel
  generalize hend : copyClosure ObjectId.ofSha256 source 4 .init root = ended at hrun ⊢
  obtain ⟨outcome, target'⟩ := ended
  cases hrun
  exact (copyClosure_replicates hfree root).1 4 2 target' hend

end

end Omoplata
