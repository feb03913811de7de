-- SUMMARY: What the objects of a repository refer to, and what stays readable as objects are written.
import Omoplata.Lib.Walk
import Omoplata.Store.Repository

/-!
# Closures

A tree refers to the objects of its entries. Writing an object changes nothing of what could
be read before.
-/

open Relation Walk

namespace Omoplata

def Repository.hasObject (repo : Repository) (id : ObjectId) : Bool := repo.objects.contains id.toText

/-- The objects an object refers to, the last one on top of a stack. -/
def children : Object → List ObjectId
  | .blob _ => []
  | .tree t => (t.entries.map TreeEntry.id).reverse

section

variable (sha256 : List UInt8 → ObjectId)

/-- An object in a repository refers to another one. -/
def RefersTo (repo : Repository) (a b : ObjectId) : Prop :=
  ∃ object, repo.readObject sha256 a = .ok (.ok object) ∧ b ∈ children object

/-- Every object below a root is there under its own id. -/
def ClosureIn (repo : Repository) (root : ObjectId) : Prop :=
  ∀ id, Leads (RefersTo sha256 repo) [root] id → ∃ object, repo.readObject sha256 id = .ok (.ok object)

end

section

variable {sha256 : List UInt8 → ObjectId}

theorem Repository.readObject_congr {repo repo' : Repository} {id : ObjectId}
    (h : repo'.objects[id.toText]? = repo.objects[id.toText]?) :
    repo'.readObject sha256 id = repo.readObject sha256 id := by
  unfold readObject
  rw [h]

/-- What can be read stays readable when objects are written. -/
theorem Repository.readObject_writeObject {repo : Repository} {id : ObjectId} {o : Object}
    (h : repo.readObject sha256 id = .ok (.ok o)) (object : Object) :
    (repo.writeObject sha256 object).2.readObject sha256 id = .ok (.ok o) := by
  have hlookup : (repo.writeObject sha256 object).2.objects[id.toText]? = repo.objects[id.toText]? := by
    unfold writeObject
    cases hcontains : repo.objects.contains (object.id sha256).toText with
    | true => simp [hcontains]
    | false =>
        simp only [hcontains, Bool.false_eq_true, if_false]
        rw [BTreeMap.getElem?_insert, if_neg]
        intro heq
        unfold readObject at h
        rw [← heq, Std.ExtTreeMap.getElem?_eq_none_of_contains_eq_false hcontains] at h
        simp at h
  exact (readObject_congr hlookup).trans h

/-- An object that was not there is read back once it has been written. -/
theorem Repository.readObject_written {repo : Repository} {object : Object}
    (h : repo.hasObject (object.id sha256) = false) :
    (repo.writeObject sha256 object).2.readObject sha256 (object.id sha256) = .ok (.ok object) := by
  refine readObject_of_stored sha256 ?_
  unfold hasObject at h
  unfold writeObject
  simp [h]

/-- What is in a repository after an object that was missing has been written. -/
theorem Repository.objects_written {repo : Repository} {id : ObjectId} {o : Object} (hid : o.id sha256 = id)
    (h : repo.hasObject id = false) (key : Str) :
    (repo.writeObject sha256 o).2.objects[key]? = if id.toText = key then some o.serialize else repo.objects[key]? := by
  subst hid
  unfold hasObject at h
  unfold writeObject
  simp only [h, Bool.false_eq_true, if_false]
  rw [BTreeMap.getElem?_insert]

theorem Repository.hasObject_eq_true_iff {repo : Repository} {id : ObjectId} :
    repo.hasObject id = true ↔ ∃ bytes, repo.objects[id.toText]? = some bytes := by
  unfold hasObject
  rw [Std.ExtTreeMap.contains_eq_isSome_getElem?, Option.isSome_iff_exists]

theorem Repository.hasObject_init (id : ObjectId) : init.hasObject id = false := by
  rw [← Bool.not_eq_true, hasObject_eq_true_iff, init, Std.ExtTreeMap.getElem?_empty]
  simp

theorem Repository.hasObject_written {repo : Repository} {id : ObjectId} {o : Object} (hid : o.id sha256 = id)
    (h : repo.hasObject id = false) (other : ObjectId) :
    (repo.writeObject sha256 o).2.hasObject other = false ↔ other ≠ id ∧ repo.hasObject other = false := by
  rw [← Bool.not_eq_true, ← Bool.not_eq_true, Repository.hasObject_eq_true_iff, Repository.hasObject_eq_true_iff,
    objects_written hid h]
  by_cases heq : id.toText = other.toText
  · rw [if_pos heq]
    exact iff_of_false (fun hnot => hnot ⟨_, rfl⟩) fun hne => hne.1 (ObjectId.toText_injective heq).symm
  · rw [if_neg heq]
    exact (and_iff_right fun hother => heq (by rw [hother])).symm

theorem refersTo_iff {repo : Repository} {a : ObjectId} {object : Object}
    (h : repo.readObject sha256 a = .ok (.ok object)) (b : ObjectId) :
    RefersTo sha256 repo a b ↔ b ∈ children object := by
  constructor
  · rintro ⟨o, ho, hb⟩
    rw [h, Except.ok.injEq, Except.ok.injEq] at ho
    exact ho ▸ hb
  · exact fun hb => ⟨object, h, hb⟩

end

end Omoplata
