-- SUMMARY: Ordered maps that are equal when their entries are, with lookups by key equality.
import Mathlib.Algebra.GroupWithZero.Nat
import Mathlib.Data.List.Basic
import Mathlib.Data.List.Induction

/-!
# Ordered maps

The extensional tree map of the standard library, with its lookup lemmas stated
by equality of keys and decidable equality of maps.
-/

open Std

universe u v w

/-- A map with ordered keys. -/
abbrev BTreeMap (κ : Type u) (β : Type v) [Ord κ] := ExtTreeMap κ β

/-- A set of ordered keys. -/
abbrev BTreeSet (κ : Type u) [Ord κ] := ExtTreeSet κ

namespace BTreeMap

variable {κ : Type u} {β : Type v} [Ord κ] [TransOrd κ] [LawfulEqOrd κ]

theorem getElem?_insert [DecidableEq κ] (m : BTreeMap κ β) (k a : κ) (v : β) :
    (m.insert k v)[a]? = if k = a then some v else m[a]? := by
  simp only [ExtTreeMap.getElem?_insert, Std.compare_eq_iff_eq]

theorem getElem?_erase [DecidableEq κ] (m : BTreeMap κ β) (k a : κ) :
    (m.erase k)[a]? = if k = a then none else m[a]? := by
  simp only [ExtTreeMap.getElem?_erase, Std.compare_eq_iff_eq]

/-- Writing an entry changes nothing exactly where it is there already. -/
theorem insert_eq_self_iff [DecidableEq κ] {m : BTreeMap κ β} {k : κ} {v : β} :
    m.insert k v = m ↔ m[k]? = some v := by
  constructor
  · intro h
    rw [← h, getElem?_insert, if_pos rfl]
  · intro h
    refine ExtTreeMap.ext_getElem? fun a => ?_
    rw [getElem?_insert]
    split
    · rename_i hk
      rw [← hk, h]
    · rfl

theorem nodup_toList (m : BTreeMap κ β) : m.toList.Nodup :=
  m.distinct_keys_toList.imp fun hne heq => hne (Std.compare_eq_iff_eq.mpr (congrArg Prod.fst heq))

/-- The entries of a map with one entry more. -/
theorem toList_insert_perm [DecidableEq κ] {m : BTreeMap κ β} {k : κ} (v : β) (h : m[k]? = none) :
    (m.insert k v).toList.Perm ((k, v) :: m.toList) := by
  refine (List.perm_ext_iff_of_nodup (nodup_toList _) ?_).mpr fun p => ?_
  · refine List.nodup_cons.mpr ⟨fun hmem => ?_, nodup_toList m⟩
    rw [ExtTreeMap.mem_toList_iff_getElem?_eq_some] at hmem
    simp [h] at hmem
  · obtain ⟨k', v'⟩ := p
    rw [List.mem_cons, ExtTreeMap.mem_toList_iff_getElem?_eq_some,
      ExtTreeMap.mem_toList_iff_getElem?_eq_some, getElem?_insert, Prod.mk.injEq]
    by_cases hk : k = k'
    · subst hk
      simp [h, eq_comm]
    · simp [hk, Ne.symm hk]

section Collect

variable {ι : Type w} [DecidableEq κ] {f : ι → κ} {g : ι → β}

/-- Of items that are inserted under their keys, each lookup gives one. -/
theorem mem_of_getElem?_collect {items : List ι} {k : κ} {v : β}
    (h : (items.foldl (fun m i => m.insert (f i) (g i)) (∅ : BTreeMap κ β))[k]? = some v) :
    ∃ i ∈ items, f i = k ∧ g i = v := by
  induction items using List.reverseRecOn with
  | nil => simp at h
  | append_singleton items last ih =>
      rw [List.foldl_append, List.foldl_cons, List.foldl_nil, getElem?_insert] at h
      split at h
      · rename_i heq
        exact ⟨last, by simp, heq, Option.some.inj h⟩
      · obtain ⟨i, hi, hkey, hval⟩ := ih h
        exact ⟨i, List.mem_append_left _ hi, hkey, hval⟩

/-- For every item there is one under its key. -/
theorem exists_getElem?_collect {items : List ι} {i : ι} (h : i ∈ items) :
    ∃ v, (items.foldl (fun m i => m.insert (f i) (g i)) (∅ : BTreeMap κ β))[f i]? = some v := by
  induction items using List.reverseRecOn with
  | nil => cases h
  | append_singleton items last ih =>
      rw [List.foldl_append, List.foldl_cons, List.foldl_nil, getElem?_insert]
      split
      · exact ⟨_, rfl⟩
      · rename_i hne
        rw [List.mem_append, List.mem_singleton] at h
        exact ih (h.resolve_right fun heq => hne (heq ▸ rfl))

end Collect

/-- The sum of a weight over the entries of a map. -/
def total (w : κ → β → Nat) (m : BTreeMap κ β) : Nat := (m.toList.map fun p => w p.1 p.2).sum

theorem total_insert [DecidableEq κ] (w : κ → β → Nat) {m : BTreeMap κ β} {k : κ} (v : β)
    (h : m[k]? = none) : total w (m.insert k v) = w k v + total w m := by
  unfold total
  rw [((toList_insert_perm v h).map _).sum_nat, List.map_cons, List.sum_cons]

/-- A sum in which one entry weighs more. -/
theorem total_of_getElem? [DecidableEq κ] {w w' : κ → β → Nat} {m : BTreeMap κ β} {k : κ} {v : β} {more : Nat}
    (h : m[k]? = some v) (hk : w k v = w' k v + more) (hother : ∀ a b, a ≠ k → w a b = w' a b) :
    total w m = total w' m + more := by
  have hnone : (m.erase k)[k]? = none := by rw [getElem?_erase, if_pos rfl]
  have hinsert : (m.erase k).insert k v = m := by
    refine ExtTreeMap.ext_getElem? fun a => ?_
    rw [getElem?_insert, getElem?_erase]
    split
    · rename_i hka
      rw [← hka, h]
    · rfl
  have hrest : total w (m.erase k) = total w' (m.erase k) := by
    unfold total
    refine congrArg List.sum (List.map_congr_left fun p hp => hother p.1 p.2 fun hpk => ?_)
    have hp := ExtTreeMap.mem_toList_iff_getElem?_eq_some.mp hp
    rw [hpk, hnone] at hp
    cases hp
  rw [← hinsert, total_insert w v hnone, total_insert w' v hnone, hrest, hk]
  omega

theorem total_eq_zero_iff {w : κ → β → Nat} {m : BTreeMap κ β} :
    total w m = 0 ↔ ∀ a b, m[a]? = some b → w a b = 0 := by
  unfold total
  simp only [List.sum_eq_zero_iff_forall_eq_nat, List.mem_map, forall_exists_index, and_imp, Prod.forall,
    ExtTreeMap.mem_toList_iff_getElem?_eq_some]
  exact ⟨fun h a b hab => h _ a b hab rfl, fun h n a b hab hn => hn ▸ h a b hab⟩

section InsertAll

variable {γ : Type w} [Ord γ] [TransOrd γ] [LawfulEqOrd γ] [DecidableEq γ] {f : κ → γ}

omit [Ord κ] [TransOrd κ] [LawfulEqOrd κ] in
theorem getElem?_foldl_insert_of_ne (entries : List (κ × β)) (acc : BTreeMap γ β) {a : γ}
    (ha : ∀ p ∈ entries, f p.1 ≠ a) :
    (entries.foldl (fun acc p => acc.insert (f p.1) p.2) acc)[a]? = acc[a]? := by
  induction entries generalizing acc with
  | nil => rfl
  | cons p entries ih =>
      rw [List.foldl_cons, ih _ fun q hq => ha q (List.mem_cons_of_mem _ hq), getElem?_insert,
        if_neg (ha p (by simp))]

/-- Inserting the entries of a map under renamed keys. -/
theorem getElem?_foldl_insert (hf : Function.Injective f) (m : BTreeMap κ β) (acc : BTreeMap γ β)
    {k : κ} {v : β} (hk : m[k]? = some v) :
    (m.toList.foldl (fun acc p => acc.insert (f p.1) p.2) acc)[f k]? = some v := by
  have hdistinct := m.distinct_keys_toList
  have hmem : (k, v) ∈ m.toList := ExtTreeMap.mem_toList_iff_getElem?_eq_some.mpr hk
  generalize m.toList = entries at hdistinct hmem
  induction entries generalizing acc with
  | nil => simp at hmem
  | cons p entries ih =>
      obtain ⟨hhead, htail⟩ := List.pairwise_cons.mp hdistinct
      rw [List.foldl_cons]
      rcases List.mem_cons.mp hmem with rfl | hin
      · rw [getElem?_foldl_insert_of_ne, getElem?_insert, if_pos rfl]
        intro q hq heq
        exact hhead q hq (Std.compare_eq_iff_eq.mpr (hf heq).symm)
      · exact ih _ htail hin

/-- Inserting a map under renamed keys that are new adds its weight. -/
theorem total_foldl_insert (hf : Function.Injective f) (w : γ → β → Nat) (m : BTreeMap κ β)
    (acc : BTreeMap γ β) (hnew : ∀ k, acc[f k]? = none) :
    total w (m.toList.foldl (fun acc p => acc.insert (f p.1) p.2) acc) =
      total w acc + total (fun k v => w (f k) v) m := by
  have hloop : ∀ (entries : List (κ × β)) (acc : BTreeMap γ β),
      entries.Pairwise (fun p q => p.1 ≠ q.1) → (∀ p ∈ entries, acc[f p.1]? = none) →
        total w (entries.foldl (fun acc p => acc.insert (f p.1) p.2) acc) =
          total w acc + (entries.map fun p => w (f p.1) p.2).sum := by
    intro entries
    induction entries with
    | nil => simp
    | cons p entries ih =>
        intro acc hdistinct hnew
        obtain ⟨hhead, htail⟩ := List.pairwise_cons.mp hdistinct
        rw [List.foldl_cons, ih _ htail, total_insert w p.2 (hnew p (by simp)), List.map_cons,
          List.sum_cons]
        · omega
        · intro q hq
          rw [getElem?_insert, if_neg fun heq => hhead q hq (hf heq)]
          exact hnew q (List.mem_cons_of_mem _ hq)
  refine hloop m.toList acc (m.distinct_keys_toList.imp fun hne heq => ?_) fun p _ => hnew p.1
  exact hne (Std.compare_eq_iff_eq.mpr heq)

end InsertAll

instance [DecidableEq κ] [DecidableEq β] : DecidableEq (BTreeMap κ β) := fun m m' =>
  decidable_of_iff (m.toList = m'.toList)
    ⟨fun h => ExtTreeMap.ext_toList (h ▸ List.Perm.refl _), fun h => h ▸ rfl⟩

end BTreeMap
