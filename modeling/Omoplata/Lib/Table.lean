-- SUMMARY: Finite file systems, whose directories can be listed, and what writing many files into one leaves.
import Mathlib.Data.List.Sort
import Omoplata.Lib.BTreeMap
import Omoplata.Lib.FileSystem

/-!
# Finite file systems

A table says what stands at finitely many locations, so that a directory can be listed.
Seen as a file system it has the operations of one.
-/

open Std

universe u v

namespace FileSystem

/-- What stands at each of finitely many locations. -/
abbrev Table (ν : Type u) [Ord ν] (α : Type v) := BTreeMap (List ν) (Entry α)

namespace Table

section Defs

variable {ν : Type u} {α : Type v} [Ord ν] [TransOrd ν] [DecidableEq ν]

/-- The file system of a table. -/
def volume {ν : Type u} {α : Type v} [Ord ν] [TransOrd ν] (t : Table ν α) : Volume ν α := fun l => t[l]?

/-- The names in a directory, in some order. -/
def readDir (t : Table ν α) (dir : List ν) : List ν :=
  (t.keys.filter fun l => l ≠ [] ∧ l.dropLast = dir).filterMap List.getLast?

/-- Follow a path and make the directories that are not there. -/
def makeDirs (t : Table ν α) : List ν → List (Step ν) → Option (Table ν α)
  | _, [] => some t
  | loc, .up :: path => makeDirs t loc.dropLast path
  | loc, .down name :: path =>
      match t[loc ++ [name]]? with
      | some (.file _) => none
      | some .directory => makeDirs t (loc ++ [name]) path
      | none => makeDirs (t.insert (loc ++ [name]) .directory) (loc ++ [name]) path

/-- Write a file where no directory stands. -/
def writeAt (t : Table ν α) (loc : List ν) (content : α) : Option (Table ν α) :=
  match t[loc]? with
  | some .directory => none
  | _ => some (t.insert loc (.file content))

/-- Make the directories on a path, and write a file behind them. -/
def put (t : Table ν α) (path : List (Step ν)) (name : ν) (content : α) : Option (Table ν α) :=
  (t.makeDirs [] path).bind fun t => t.writeAt (locate [] path ++ [name]) content

end Defs

section

variable {ν : Type u} {α : Type v} [Ord ν] [TransOrd ν] [LawfulEqOrd ν] [DecidableEq ν]

theorem mem_readDir {t : Table ν α} {dir : List ν} {name : ν} :
    name ∈ t.readDir dir ↔ ∃ e, t[dir ++ [name]]? = some e := by
  unfold readDir
  rw [List.mem_filterMap, ← Option.isSome_iff_exists, ← Std.ExtTreeMap.mem_iff_isSome_getElem?, ← Std.ExtTreeMap.mem_keys]
  constructor
  · rintro ⟨l, hl, hname⟩
    obtain ⟨hl, hdir⟩ := List.mem_filter.mp hl
    obtain ⟨-, rfl⟩ := of_decide_eq_true hdir
    rwa [List.dropLast_append_getLast? name hname]
  · intro hl
    refine ⟨dir ++ [name], List.mem_filter.mpr ⟨hl, decide_eq_true ⟨by simp, List.dropLast_concat⟩⟩, ?_⟩
    exact List.getLast?_concat

/-- Directories with the same in them are listed in the same way. -/
theorem readDir_congr {t t' : Table ν α} {dir : List ν} (h : ∀ name, t'[dir ++ [name]]? = t[dir ++ [name]]?) :
    t'.readDir dir = t.readDir dir := by
  have hlt : Std.Antisymm fun a b : List ν => compare a b = .lt :=
    ⟨fun a b hab hba => by rw [Std.OrientedOrd.eq_swap, hba] at hab; cases hab⟩
  have hirrefl : Std.Irrefl fun a b : List ν => compare a b = .lt := ⟨fun a haa => by simp at haa⟩
  unfold readDir
  refine congrArg _ (List.Pairwise.eq_of_mem_iff (t'.ordered_keys.filter _) (t.ordered_keys.filter _) fun l => ?_)
  rw [List.mem_filter, List.mem_filter, Std.ExtTreeMap.mem_keys, Std.ExtTreeMap.mem_keys,
    Std.ExtTreeMap.mem_iff_isSome_getElem?, Std.ExtTreeMap.mem_iff_isSome_getElem?]
  refine and_congr_left fun hdir => ?_
  obtain ⟨hne, rfl⟩ := of_decide_eq_true hdir
  have hentry := h (l.getLast hne)
  rw [List.dropLast_concat_getLast hne] at hentry
  rw [hentry]

theorem volume_insert (t : Table ν α) (l : List ν) (e : Entry α) :
    (Table.volume (t.insert l e) : Volume ν α) = Function.update t.volume l (some e) := by
  funext l'
  unfold volume
  rw [BTreeMap.getElem?_insert, Function.update_apply]
  exact if_congr eq_comm rfl rfl

/-- Making directories in a table is making them in its file system. -/
theorem volume_makeDirs (t : Table ν α) (loc : List ν) (path : List (Step ν)) :
    (t.makeDirs loc path).map volume = FileSystem.makeDirs t.volume loc path := by
  induction path generalizing t loc with
  | nil => rfl
  | cons step path ih =>
      cases step with
      | up => exact ih t _
      | down name =>
          unfold makeDirs FileSystem.makeDirs
          cases hentry : t[loc ++ [name]]? with
          | none =>
              simp only [volume, hentry]
              rw [ih, volume_insert]
          | some e =>
              cases e with
              | directory =>
                  simp only [volume, hentry]
                  exact ih t _
              | file c => simp only [volume, hentry, Option.map_none]

theorem makeDirs_eq_some {t t' : Table ν α} {loc : List ν} {path : List (Step ν)}
    (h : t.makeDirs loc path = some t') : FileSystem.makeDirs t.volume loc path = some t'.volume := by
  rw [← volume_makeDirs, h]
  rfl

/-- Directories can be made where no file is in the way. -/
theorem exists_makeDirs {t : Table ν α} {dir : List ν}
    (hway : ∀ front, front <+: dir → front ≠ [] → ∀ c, t[front]? ≠ some (.file c)) :
    ∃ t', t.makeDirs [] (dir.map .down) = some t' := by
  have hsome : (FileSystem.makeDirs t.volume [] (dir.map .down)).isSome := by
    rw [makeDirs_isSome_iff]
    intro l hl
    obtain ⟨front, hne, hfront, heq⟩ := mem_stepped_map_down.mp hl
    rw [heq]
    exact hway front hfront hne
  rw [← volume_makeDirs, Option.isSome_map] at hsome
  exact Option.isSome_iff_exists.mp hsome

/-- A file can be put where no file is in the way and no directory stands. Directories come up on the way
    to it, and everything else stays. -/
theorem exists_put {t : Table ν α} {dir : List ν} {name : ν} (content : α)
    (hway : ∀ front, front <+: dir → front ≠ [] → ∀ c, t[front]? ≠ some (.file c))
    (hplace : t[dir ++ [name]]? ≠ some .directory) :
    ∃ t', t.put (dir.map .down) name content = some t' ∧ t'[dir ++ [name]]? = some (.file content) ∧
      (∀ front, front <+: dir → front ≠ [] → t'[front]? = some .directory) ∧
      ∀ l, l ≠ dir ++ [name] → t'[l]? = t[l]? ∨ t[l]? = none ∧ t'[l]? = some .directory ∧ l <+: dir := by
  obtain ⟨t₁, hmake⟩ := exists_makeDirs hway
  have hvolume := makeDirs_eq_some hmake
  have hlong : ∀ {front : List ν}, front <+: dir → front ≠ dir ++ [name] := by
    intro front hfront heq
    have hlength := hfront.length_le
    rw [heq, List.length_append, List.length_singleton] at hlength
    exact absurd hlength (Nat.not_succ_le_self _)
  have hdir : ∀ l, t₁[l]? = some .directory ↔ t[l]? = some .directory ∨ l ≠ [] ∧ l <+: dir := by
    intro l
    refine (makeDirs_directory_iff hvolume l).trans (or_congr_right ?_)
    rw [mem_stepped_map_down]
    constructor
    · rintro ⟨front, hne, hfront, rfl⟩
      exact ⟨hne, hfront⟩
    · exact fun ⟨hne, hfront⟩ => ⟨l, hne, hfront, rfl⟩
  have hplace₁ : t₁[dir ++ [name]]? ≠ some .directory := by
    rw [ne_eq, hdir, not_or]
    exact ⟨hplace, fun h => hlong h.2 rfl⟩
  have hwrite : t₁.writeAt (dir ++ [name]) content = some (t₁.insert (dir ++ [name]) (.file content)) := by
    unfold writeAt
    split
    · rename_i hstands
      exact absurd hstands hplace₁
    · rfl
  refine ⟨t₁.insert (dir ++ [name]) (.file content), ?_, ?_, fun front hfront hne => ?_, fun l hl => ?_⟩
  · rw [put, hmake, Option.bind_some, locate_map_down, List.nil_append, hwrite]
  · rw [BTreeMap.getElem?_insert, if_pos rfl]
  · rw [BTreeMap.getElem?_insert, if_neg (Ne.symm (hlong hfront)), hdir]
    exact .inr ⟨hne, hfront⟩
  · rw [BTreeMap.getElem?_insert, if_neg (Ne.symm hl)]
    refine (makeDirs_keeps hvolume l).imp_right fun ⟨hnone, hmade⟩ => ⟨hnone, hmade, ?_⟩
    obtain hold | ⟨-, hfront⟩ := (hdir l).mp hmade
    · cases hold.symm.trans hnone
    · exact hfront

/-! ## Many files -/

/-- What a table has become by putting files at some locations: they are there, with the directories on
    the way to them, and everything else is as it was. -/
structure Written (t t' : Table ν α) (writes : List (List ν × α)) : Prop where
  files : ∀ w ∈ writes, t'[w.1]? = some (.file w.2)
  directories : ∀ w ∈ writes, ∀ front, front <+: w.1 → front ≠ w.1 → front ≠ [] → t'[front]? = some .directory
  others : ∀ l, (∀ w ∈ writes, w.1 ≠ l) →
    t'[l]? = t[l]? ∨ t[l]? = none ∧ t'[l]? = some .directory ∧ ∃ w ∈ writes, l <+: w.1

omit [LawfulEqOrd ν] [DecidableEq ν] in
theorem Written.refl (t : Table ν α) : Written t t [] := ⟨by simp, by simp, fun _ _ => .inl rfl⟩

/-- Another file can be put where nothing was in the way, and none of the files put so far is. -/
theorem Written.put {t t₁ : Table ν α} {writes : List (List ν × α)} (h : Written t t₁ writes) (dir : List ν) (name : ν)
    (content : α) (hway : ∀ front, front <+: dir → front ≠ [] → ∀ c, t[front]? ≠ some (.file c))
    (hplace : t[dir ++ [name]]? ≠ some .directory)
    (hapart : ∀ w ∈ writes, ¬w.1 <+: dir ++ [name] ∧ ¬dir ++ [name] <+: w.1) :
    ∃ t', t₁.put (dir.map .down) name content = some t' ∧ Written t t' (writes ++ [(dir ++ [name], content)]) := by
  have hnew : ∀ w ∈ writes, w.1 ≠ dir ++ [name] := fun w hw heq => (hapart w hw).1 (heq ▸ List.prefix_rfl)
  -- the earlier writes made directories only, and none of them at this place
  have hway₁ : ∀ front, front <+: dir → front ≠ [] → ∀ c, t₁[front]? ≠ some (.file c) := by
    intro front hfront hne c hfile
    have hother : ∀ w ∈ writes, w.1 ≠ front := fun w hw heq =>
      (hapart w hw).1 (heq ▸ hfront.trans (List.prefix_append _ _))
    obtain hsame | ⟨-, hmade, -⟩ := h.others front hother
    · exact hway front hfront hne c (hsame.symm.trans hfile)
    · cases hmade.symm.trans hfile
  have hplace₁ : t₁[dir ++ [name]]? ≠ some .directory := by
    intro hstands
    obtain hsame | ⟨-, -, w, hw, hfront⟩ := h.others _ hnew
    · exact hplace (hsame.symm.trans hstands)
    · exact (hapart w hw).2 hfront
  obtain ⟨t', hput, hfile, hdirs, hothers⟩ := exists_put content hway₁ hplace₁
  refine ⟨t', hput, ?_, ?_, ?_⟩
  · rw [List.forall_mem_append, List.forall_mem_singleton]
    refine ⟨fun w hw => ?_, hfile⟩
    obtain hsame | ⟨hnone, -⟩ := hothers w.1 (hnew w hw)
    · exact hsame.trans (h.files w hw)
    · cases hnone.symm.trans (h.files w hw)
  · rw [List.forall_mem_append, List.forall_mem_singleton]
    refine ⟨fun w hw front hfront hne hnil => ?_, fun front hfront hne hnil => hdirs front ?_ hnil⟩
    · have hdir := h.directories w hw front hfront hne hnil
      obtain hsame | ⟨hnone, -⟩ := hothers front fun heq => (hapart w hw).2 (heq ▸ hfront)
      · exact hsame.trans hdir
      · cases hnone.symm.trans hdir
    · exact (List.prefix_concat_iff.mp hfront).resolve_left hne
  -- a path that neither write names is as before, or a directory made on the way to one
  · intro l hl
    rw [List.forall_mem_append, List.forall_mem_singleton] at hl
    obtain ⟨hold, hne⟩ := hl
    have hbefore := h.others l hold
    obtain hsame | ⟨hnone, hmade, hfront⟩ := hothers l (Ne.symm hne)
    · rw [hsame]
      refine hbefore.imp_right fun ⟨hnone, hmade, w, hw, hfront⟩ => ?_
      exact ⟨hnone, hmade, w, List.mem_append_left _ hw, hfront⟩
    · obtain hsame | ⟨-, hmade', -⟩ := hbefore
      · refine .inr ⟨hsame.symm.trans hnone, hmade, _, List.mem_append_right _ (List.mem_singleton_self _), ?_⟩
        exact hfront.trans (List.prefix_append _ _)
      · cases hmade'.symm.trans hnone

end

end Table

end FileSystem
