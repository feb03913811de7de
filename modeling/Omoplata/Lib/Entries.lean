-- SUMMARY: Lists of entries under names, as maps from the names.
import Mathlib.Data.List.Nodup
import Mathlib.Logic.Function.Basic

/-!
# Entries under names

A list of entries stands for the map that takes a name to the first entry under it. An entry
is added at the end, taken out, or revised in place. Taking an entry out takes it off the map
where no two entries share a name.
-/

universe u v

namespace Entries

variable {α : Type u} {κ : Type v} [DecidableEq κ] (name : α → κ)

section Defs

def find (entries : List α) (k : κ) : Option α := entries.find? fun e => name e = k

/-- The first entry under a name, and the others. -/
def takeOut (k : κ) : List α → Option (α × List α)
  | [] => none
  | e :: entries =>
      if name e = k then some (e, entries) else (takeOut k entries).map fun r => (r.1, e :: r.2)

/-- Another entry in place of the first one under a name. -/
def revise (k : κ) (f : α → α) : List α → Option (List α)
  | [] => none
  | e :: entries => if name e = k then some (f e :: entries) else (revise k f entries).map (e :: ·)

end Defs

variable {name} {entries : List α}

theorem find_eq_none_iff {k : κ} : find name entries k = none ↔ k ∉ entries.map name := by
  unfold find
  rw [List.find?_eq_none]
  simp

theorem find_cons_self (e : α) : find name (e :: entries) (name e) = some e := by
  unfold find
  rw [List.find?_cons_of_pos (by simp)]

theorem find_cons_of_ne {e : α} {k : κ} (h : name e ≠ k) : find name (e :: entries) k = find name entries k := by
  unfold find
  rw [List.find?_cons_of_neg (by simpa using h)]

/-- A first entry stands before what the others say of its name. -/
theorem find_cons (e : α) : find name (e :: entries) = Function.update (find name entries) (name e) (some e) := by
  funext k
  by_cases hk : k = name e
  · rw [hk, find_cons_self, Function.update_self]
  · rw [find_cons_of_ne (Ne.symm hk), Function.update_of_ne hk]

/-! ## Adding -/

theorem find_append {e : α} (h : find name entries (name e) = none) :
    find name (entries ++ [e]) = Function.update (find name entries) (name e) (some e) := by
  induction entries with
  | nil => exact find_cons e
  | cons x entries ih =>
      have hne : name x ≠ name e := fun heq => by
        rw [← heq, find_cons_self] at h
        cases h
      rw [find_cons_of_ne hne] at h
      rw [List.cons_append, find_cons, find_cons, ih h, Function.update_comm hne]

theorem nodup_append {e : α} (hnodup : (entries.map name).Nodup) (h : find name entries (name e) = none) :
    ((entries ++ [e]).map name).Nodup := by
  rw [List.map_append, List.nodup_append]
  refine ⟨hnodup, List.nodup_singleton _, fun k hk k' hk' heq => find_eq_none_iff.mp h ?_⟩
  rw [← List.mem_singleton.mp hk', ← heq]
  exact hk

/-! ## Taking out -/

theorem takeOut_eq_none_iff {k : κ} : takeOut name k entries = none ↔ find name entries k = none := by
  induction entries with
  | nil => exact iff_of_true rfl rfl
  | cons e entries ih =>
      unfold takeOut
      by_cases hname : name e = k
      · rw [if_pos hname, ← hname, find_cons_self]
        exact iff_of_false (Option.some_ne_none _) (Option.some_ne_none _)
      · rw [if_neg hname, Option.map_eq_none_iff, find_cons_of_ne hname, ih]

theorem find_of_takeOut {k : κ} {r : α × List α} (h : takeOut name k entries = some r) :
    find name entries k = some r.1 := by
  induction entries generalizing r with
  | nil => cases h
  | cons e entries ih =>
      unfold takeOut at h
      by_cases hname : name e = k
      · rw [if_pos hname] at h
        cases h
        exact hname ▸ find_cons_self e
      · rw [if_neg hname] at h
        obtain ⟨r', hr', rfl⟩ := Option.map_eq_some_iff.mp h
        have hfind := ih hr'
        exact (find_cons_of_ne hname).trans hfind

/-- Without the entry that is taken out, its name is free, and no other name is. -/
theorem takeOut_spec (hnodup : (entries.map name).Nodup) {k : κ} {e : α} {rest : List α}
    (h : takeOut name k entries = some (e, rest)) :
    find name rest = Function.update (find name entries) k none ∧ rest.Sublist entries := by
  induction entries generalizing rest with
  | nil => cases h
  | cons x entries ih =>
      obtain ⟨hx, hnodup⟩ := List.nodup_cons.mp hnodup
      unfold takeOut at h
      by_cases hname : name x = k
      · rw [if_pos hname] at h
        cases h
        subst hname
        refine ⟨?_, List.sublist_cons_self ..⟩
        rw [find_cons, Function.update_idem, ← find_eq_none_iff.mpr hx, Function.update_eq_self]
      · rw [if_neg hname] at h
        obtain ⟨⟨e', rest'⟩, hrest, heq⟩ := Option.map_eq_some_iff.mp h
        cases heq
        obtain ⟨hothers, hsublist⟩ := ih hnodup hrest
        refine ⟨?_, hsublist.cons_cons x⟩
        rw [find_cons, find_cons, hothers, Function.update_comm hname]

/-! ## Revising -/

theorem revise_eq_none_iff {k : κ} {f : α → α} : revise name k f entries = none ↔ find name entries k = none := by
  induction entries with
  | nil => exact iff_of_true rfl rfl
  | cons e entries ih =>
      unfold revise
      by_cases hname : name e = k
      · rw [if_pos hname, ← hname, find_cons_self]
        exact iff_of_false (Option.some_ne_none _) (Option.some_ne_none _)
      · rw [if_neg hname, Option.map_eq_none_iff, find_cons_of_ne hname, ih]

/-- A revision that keeps names changes what is found under one of them. -/
theorem revise_spec {f : α → α} (hf : ∀ e, name (f e) = name e) {k : κ} {entries' : List α}
    (h : revise name k f entries = some entries') :
    ∃ e, find name entries k = some e ∧ find name entries' = Function.update (find name entries) k (some (f e)) ∧
      entries'.map name = entries.map name := by
  induction entries generalizing entries' with
  | nil => cases h
  | cons x entries ih =>
      unfold revise at h
      by_cases hname : name x = k
      · rw [if_pos hname] at h
        cases h
        subst hname
        refine ⟨x, find_cons_self _, ?_, ?_⟩
        · rw [find_cons, find_cons, hf, Function.update_idem]
        · rw [List.map_cons, List.map_cons, hf]
      · rw [if_neg hname] at h
        obtain ⟨rest, hrest, rfl⟩ := Option.map_eq_some_iff.mp h
        obtain ⟨e, hfind, hothers, hnames⟩ := ih hrest
        refine ⟨e, (find_cons_of_ne hname).trans hfind, ?_, ?_⟩
        · rw [find_cons, find_cons, hothers, Function.update_comm hname]
        · rw [List.map_cons, List.map_cons, hnames]

end Entries
