-- SUMMARY: The loose objects of a repository: writing them, and reading them verified.
import Omoplata.Store.Object

/-!
# Loose objects

A repository keeps the byte form of each object under its id. An object that is there is
not written again, and what is read is checked against the id it was asked for.
-/

namespace Omoplata

/-- The object files of a repository, by the text form of their ids. -/
structure Repository where
  objects : BTreeMap Str (List UInt8)

namespace Repository

/-- A repository without objects. -/
def init : Repository := ⟨∅⟩

section

variable (sha256 : List UInt8 → ObjectId)

/-- Write an object, giving its id. One that is present is left untouched. -/
def writeObject (repo : Repository) (object : Object) : ObjectId × Repository :=
  let id := object.id sha256
  (id, if repo.objects.contains id.toText then repo else ⟨repo.objects.insert id.toText object.serialize⟩)

/-- Read an object and verify it against its id. -/
def readObject (repo : Repository) (id : ObjectId) : Except Panic (Except StoreError Object) :=
  match repo.objects[id.toText]? with
  | none => .ok (.error (.objectNotFound id))
  | some bytes => do
      match ← Object.deserialize bytes with
      | .error e => pure (.error (.object e))
      | .ok object => pure (if object.id sha256 = id then .ok object else .error (.integrity id))

/-- Write bytes as a blob. -/
def writeBlob (repo : Repository) (bytes : List UInt8) : ObjectId × Repository := repo.writeObject sha256 (.blob bytes)

/-- An object stored under its id is read back. -/
theorem readObject_of_stored {repo : Repository} {object : Object}
    (h : repo.objects[(object.id sha256).toText]? = some object.serialize) :
    repo.readObject sha256 (object.id sha256) = .ok (.ok object) := by
  unfold readObject
  simp only [h, Object.deserialize_serialize]
  simp [bind, Except.bind, pure, Except.pure]

/-- What is written into a repository without objects is read back. -/
theorem readObject_writeObject_init (object : Object) :
    (init.writeObject sha256 object).2.readObject sha256 (object.id sha256) = .ok (.ok object) := by
  refine readObject_of_stored sha256 ?_
  unfold writeObject init
  simp

/-- What is read has the id it was asked for. -/
theorem id_of_readObject {repo : Repository} {id : ObjectId} {object : Object}
    (h : repo.readObject sha256 id = .ok (.ok object)) : object.id sha256 = id := by
  unfold readObject at h
  cases hbytes : repo.objects[id.toText]? with
  | none => simp [hbytes] at h
  | some bytes =>
      cases hparse : Object.deserialize bytes with
      | error p => simp [hbytes, hparse, bind, Except.bind] at h
      | ok r =>
          cases r with
          | error e => simp [hbytes, hparse, bind, Except.bind, pure, Except.pure] at h
          | ok o =>
              simp only [hbytes, hparse, bind, Except.bind, pure, Except.pure, Except.ok.injEq] at h
              split at h
              · rename_i hid
                cases h
                exact hid
              · cases h

/-! ## Writing many objects -/

/-- Write objects one after the other. -/
def writeAll (repo : Repository) (objects : List Object) : Repository :=
  objects.foldl (fun repo o => (repo.writeObject sha256 o).2) repo

theorem writeAll_append (repo : Repository) (objects objects' : List Object) :
    repo.writeAll sha256 (objects ++ objects') = (repo.writeAll sha256 objects).writeAll sha256 objects' := by
  unfold writeAll
  rw [List.foldl_append]

/-- A repository that writes have built from none. -/
def ofObjects (objects : List Object) : Repository := init.writeAll sha256 objects

/-- An object is stored under its id. -/
def Holds (repo : Repository) (o : Object) : Prop := repo.objects[(o.id sha256).toText]? = some o.serialize

/-- No two of some objects have one hash. -/
def NoCollision (objects : List Object) : Prop := ∀ o ∈ objects, ∀ o' ∈ objects, o.id sha256 = o'.id sha256 → o = o'

instance (objects : List Object) : Decidable (NoCollision sha256 objects) := by
  unfold NoCollision
  infer_instance

/-- What is stored was written, and what was written is stored. -/
theorem ofObjects_spec {objects : List Object} (h : NoCollision sha256 objects) :
    (∀ o ∈ objects, (ofObjects sha256 objects).Holds sha256 o) ∧
      ∀ (key : Str) bytes, (ofObjects sha256 objects).objects[key]? = some bytes →
        ∃ o ∈ objects, key = (o.id sha256).toText := by
  induction objects using List.reverseRecOn with
  | nil => exact ⟨nofun, fun key bytes hkey => by simp [ofObjects, writeAll, init] at hkey⟩
  | append_singleton objects o ih =>
      obtain ⟨hholds, hwritten⟩ := ih fun a ha b hb => h a (List.mem_append_left _ ha) b (List.mem_append_left _ hb)
      have hsplit : ofObjects sha256 (objects ++ [o]) = ((ofObjects sha256 objects).writeObject sha256 o).2 := by
        unfold ofObjects
        rw [writeAll_append]
        rfl
      rw [hsplit]
      unfold writeObject
      dsimp only
      split
      -- an object of this id is there already, and without collisions it is the same object
      · rename_i hcontains
        have hmem : o ∈ objects := by
          rw [Std.ExtTreeMap.contains_eq_isSome_getElem?] at hcontains
          obtain ⟨bytes, hbytes⟩ := Option.isSome_iff_exists.mp hcontains
          obtain ⟨o', ho', hkey⟩ := hwritten _ bytes hbytes
          rw [h o (by simp) o' (List.mem_append_left _ ho') (ObjectId.toText_injective hkey)]
          exact ho'
        refine ⟨fun o' ho' => ?_, fun key bytes hkey => ?_⟩
        · cases List.mem_append.mp ho' with
          | inl hin => exact hholds o' hin
          | inr hlast => exact List.mem_singleton.mp hlast ▸ hholds o hmem
        · obtain ⟨o', ho', hkey⟩ := hwritten key bytes hkey
          exact ⟨o', List.mem_append_left _ ho', hkey⟩
      · rename_i hfresh
        rw [Bool.not_eq_true, Std.ExtTreeMap.contains_eq_isSome_getElem?, Option.isSome_eq_false_iff,
          Option.isNone_iff_eq_none] at hfresh
        refine ⟨fun o' ho' => ?_, fun key bytes hkey => ?_⟩
        · unfold Holds
          rw [BTreeMap.getElem?_insert]
          split
          · rename_i hkey
            rw [h o (by simp) o' ho' (ObjectId.toText_injective hkey)]
          · rename_i hkey
            cases List.mem_append.mp ho' with
            | inl hin => exact hholds o' hin
            | inr hlast => exact absurd (by rw [List.mem_singleton.mp hlast]) hkey
        · rw [BTreeMap.getElem?_insert] at hkey
          split at hkey
          · rename_i heq
            exact ⟨o, by simp, heq.symm⟩
          · obtain ⟨o', ho', hkey⟩ := hwritten key bytes hkey
            exact ⟨o', List.mem_append_left _ ho', hkey⟩

end

end Repository

end Omoplata
