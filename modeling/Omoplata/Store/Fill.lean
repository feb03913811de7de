-- SUMMARY: A repository with the objects it was missing filled in from another one.
import Omoplata.Store.Closure

/-!
# Filling in

Objects are copied between repositories by a walk over a directory, by requests one at a time, or
as the body of one request. What the target has afterwards does not depend on the way: it has what
it had, and for each id that was copied and that it did not have, the object of the source.
-/

namespace Omoplata

section

variable (sha256 : List UInt8 → ObjectId) (source : Repository)

/-- The target has what it had, and the objects of the source under those ids that it did not have. -/
structure Fills (ids : Set ObjectId) (target target' : Repository) : Prop where
  readable : ∀ id ∈ ids, ∃ o, source.readObject sha256 id = .ok (.ok o)
  objects : ∀ (key : Str) bytes, target'.objects[key]? = some bytes ↔
    target.objects[key]? = some bytes ∨ target.objects[key]? = none ∧
      ∃ id ∈ ids, ∃ o, id.toText = key ∧ source.readObject sha256 id = .ok (.ok o) ∧ o.serialize = bytes

/-- What the target has of the source's objects it reads as the source does. -/
def ReadsAlike (target : Repository) : Prop :=
  ∀ id o, source.readObject sha256 id = .ok (.ok o) → target.hasObject id = true →
    target.readObject sha256 id = .ok (.ok o)

end

variable {sha256 : List UInt8 → ObjectId} {source target target' target'' : Repository} {ids ids' : Set ObjectId}

namespace Fills

/-- There is one way to fill in some ids. -/
theorem unique (h : Fills sha256 source ids target target') (h' : Fills sha256 source ids target target'') :
    target' = target'' := by
  obtain ⟨objects'⟩ := target'
  obtain ⟨objects''⟩ := target''
  refine congrArg Repository.mk (Std.ExtTreeMap.ext_getElem? fun key => Option.ext fun bytes => ?_)
  exact (h.objects key bytes).trans (h'.objects key bytes).symm

theorem refl (target : Repository) : Fills sha256 source ∅ target target := by
  refine ⟨fun id hid => hid.elim, fun key bytes => (or_iff_left ?_).symm⟩
  rintro ⟨-, id, hid, -⟩
  exact hid.elim

theorem trans (h : Fills sha256 source ids target target') (h' : Fills sha256 source ids' target' target'') :
    Fills sha256 source (ids ∪ ids') target target'' := by
  refine ⟨fun id hid => hid.elim (h.readable id) (h'.readable id), fun key bytes => ?_⟩
  rw [h'.objects, h.objects]
  constructor
  · rintro ((hhad | ⟨hnone, id, hid, hstored⟩) | ⟨hnone, id, hid, hstored⟩)
    · exact .inl hhad
    · exact .inr ⟨hnone, id, .inl hid, hstored⟩
    · refine .inr ⟨?_, id, .inr hid, hstored⟩
      cases htarget : target.objects[key]? with
      | none => rfl
      | some bytes' =>
          rw [(h.objects key bytes').mpr (.inl htarget)] at hnone
          cases hnone
  · rintro (hhad | ⟨hnone, id, hid, o, hkey, hread, hbytes⟩)
    · exact .inl (.inl hhad)
    · -- An id that both steps fill in is filled in by the first.
      cases htarget' : target'.objects[key]? with
      | none =>
          cases hid with
          | inl hid =>
              rw [(h.objects key bytes).mpr (.inr ⟨hnone, id, hid, o, hkey, hread, hbytes⟩)] at htarget'
              cases htarget'
          | inr hid => exact .inr ⟨rfl, id, hid, o, hkey, hread, hbytes⟩
      | some bytes' =>
          rcases (h.objects key bytes').mp htarget' with hhad | ⟨-, id', hid', o', hkey', hread', hbytes'⟩
          · rw [hnone] at hhad
            cases hhad
          · obtain rfl := ObjectId.toText_injective (hkey'.trans hkey.symm)
            rw [hread, Except.ok.injEq, Except.ok.injEq] at hread'
            obtain rfl : bytes' = bytes := by rw [← hbytes', ← hread', hbytes]
            exact .inl (.inr ⟨hnone, id', hid', o, hkey, hread, hbytes⟩)

/-- Writing an object that the source has fills it in. -/
theorem write {id : ObjectId} {o : Object} (h : source.readObject sha256 id = .ok (.ok o)) :
    Fills sha256 source {id} target (target.writeObject sha256 o).2 := by
  have hid := Repository.id_of_readObject sha256 h
  refine ⟨fun a ha => ⟨o, Set.mem_singleton_iff.mp ha ▸ h⟩, fun key bytes => ?_⟩
  cases hhas : target.hasObject id with
  | true =>
      obtain ⟨stored, hstored⟩ := Repository.hasObject_eq_true_iff.mp hhas
      have hsame : (target.writeObject sha256 o).2 = target := by
        have hcontains : target.objects.contains (o.id sha256).toText = true := hid.symm ▸ hhas
        unfold Repository.writeObject
        simp only [hcontains, if_true]
      rw [hsame]
      refine (or_iff_left ?_).symm
      rintro ⟨hnone, a, ha, -, hkey, -⟩
      rw [← hkey, Set.mem_singleton_iff.mp ha, hstored] at hnone
      cases hnone
  | false =>
      rw [Repository.objects_written hid hhas]
      split
      · rename_i hkey
        have hnone : target.objects[key]? = none := by
          rw [← hkey]
          exact Std.ExtTreeMap.getElem?_eq_none_of_contains_eq_false hhas
        simp only [hnone, true_and, reduceCtorEq, false_or, Set.mem_singleton_iff, exists_eq_left, Option.some.injEq]
        constructor
        · exact fun hbytes => ⟨o, hkey, h, hbytes⟩
        · rintro ⟨o', -, hread, hbytes⟩
          rw [h, Except.ok.injEq, Except.ok.injEq] at hread
          rw [hread, hbytes]
      · rename_i hkey
        refine (or_iff_left ?_).symm
        rintro ⟨-, a, ha, -, heq, -⟩
        exact hkey (Set.mem_singleton_iff.mp ha ▸ heq)

/-- Writing the objects of the source under some ids fills them in. -/
theorem writeAll {found : List ObjectId} {objects : List Object}
    (h : List.Forall₂ (fun id o => source.readObject sha256 id = .ok (.ok o)) found objects) (target : Repository) :
    Fills sha256 source {id | id ∈ found} target (target.writeAll sha256 objects) := by
  induction h generalizing target with
  | nil =>
      have hnone : {id : ObjectId | id ∈ []} = ∅ := Set.eq_empty_of_forall_notMem fun id hid => List.not_mem_nil hid
      exact hnone ▸ refl target
  | @cons id o found objects hread _ ih =>
      have hunion : {a | a ∈ id :: found} = {id} ∪ {a | a ∈ found} := Set.ext fun a => List.mem_cons
      exact hunion ▸ (write hread).trans (ih _)

/-- What was there is there. -/
theorem hasObject (h : Fills sha256 source ids target target') (id : ObjectId) :
    target'.hasObject id = true ↔ target.hasObject id = true ∨ id ∈ ids := by
  rw [Repository.hasObject_eq_true_iff, Repository.hasObject_eq_true_iff]
  simp only [h.objects]
  constructor
  · rintro ⟨bytes, hhad | ⟨-, a, ha, -, hkey, -⟩⟩
    · exact .inl ⟨bytes, hhad⟩
    · exact .inr (ObjectId.toText_injective hkey ▸ ha)
  · rintro (⟨bytes, hhad⟩ | hid)
    · exact ⟨bytes, .inl hhad⟩
    · obtain ⟨o, ho⟩ := h.readable id hid
      cases htarget : target.objects[id.toText]? with
      | some bytes => exact ⟨bytes, .inl rfl⟩
      | none => exact ⟨o.serialize, .inr ⟨rfl, id, hid, o, rfl, ho, rfl⟩⟩

/-- Filling in keeps what can be read, and what is filled in can be read. -/
theorem readsAlike (h : Fills sha256 source ids target target') (halike : ReadsAlike sha256 source target) :
    ReadsAlike sha256 source target' := by
  intro id o ho hhas
  cases htarget : target.objects[id.toText]? with
  | some bytes =>
      have hkept := (h.objects id.toText bytes).mpr (.inl htarget)
      rw [Repository.readObject_congr (hkept.trans htarget.symm)]
      exact halike id o ho (Repository.hasObject_eq_true_iff.mpr ⟨bytes, htarget⟩)
  | none =>
      have hid : id ∈ ids := by
        refine ((h.hasObject id).mp hhas).resolve_left fun hhad => ?_
        obtain ⟨bytes, hbytes⟩ := Repository.hasObject_eq_true_iff.mp hhad
        rw [htarget] at hbytes
        cases hbytes
      have hstored := (h.objects id.toText o.serialize).mpr (.inr ⟨htarget, id, hid, o, rfl, ho, rfl⟩)
      have hoid := Repository.id_of_readObject sha256 ho
      rw [← hoid] at hstored ⊢
      exact Repository.readObject_of_stored sha256 hstored

end Fills

end Omoplata
