-- SUMMARY: File systems by location: following a path, making the directories on it, writing and moving files.
import Mathlib.Data.List.Infix
import Mathlib.Logic.Function.Basic

/-!
# File systems

A file system says what stands at each location, a list of names from the root. A path
may step up; where it leads is read off its names alone (`locate`), and following it
succeeds where its directories are there. There are no links.
-/

universe u v

namespace FileSystem

/-- What stands at a location. -/
inductive Entry (α : Type v) where
  | directory
  | file (content : α)
  deriving DecidableEq

/-- What stands at each location. -/
abbrev Volume (ν : Type u) (α : Type v) := List ν → Option (Entry α)

/-- A step of a path. -/
inductive Step (ν : Type u) where
  | up
  | down (name : ν)
  deriving DecidableEq

section Defs

variable {ν : Type u} {α : Type v} [DecidableEq ν]

/-- Where a path leads from a location. -/
def locate {ν : Type u} : List ν → List (Step ν) → List ν
  | loc, [] => loc
  | loc, .up :: path => locate loc.dropLast path
  | loc, .down name :: path => locate (loc ++ [name]) path

/-- Follow a path through directories. -/
def follow {ν : Type u} {α : Type v} (fs : Volume ν α) : List ν → List (Step ν) → Option (List ν)
  | loc, [] => some loc
  | loc, .up :: path => follow fs loc.dropLast path
  | loc, .down name :: path =>
      match fs (loc ++ [name]) with
      | some .directory => follow fs (loc ++ [name]) path
      | _ => none

/-- Follow a path and make the directories that are not there. -/
def makeDirs (fs : Volume ν α) : List ν → List (Step ν) → Option (Volume ν α)
  | _, [] => some fs
  | loc, .up :: path => makeDirs fs loc.dropLast path
  | loc, .down name :: path =>
      match fs (loc ++ [name]) with
      | some (.file _) => none
      | some .directory => makeDirs fs (loc ++ [name]) path
      | none => makeDirs (Function.update fs (loc ++ [name]) (some .directory)) (loc ++ [name]) path

/-- Write a file where no directory stands. -/
def writeAt (fs : Volume ν α) (loc : List ν) (content : α) : Option (Volume ν α) :=
  match fs loc with
  | some .directory => none
  | _ => some (Function.update fs loc (some (.file content)))

/-- Move a file to where no directory stands. -/
def moveFile (fs : Volume ν α) (source target : List ν) : Option (Volume ν α) :=
  match fs source with
  | some (.file content) => writeAt (Function.update fs source none) target content
  | _ => none

/-- Remove everything below a directory but what is below a name that is kept. -/
def clearBelow (fs : Volume ν α) (dir keep : List ν) : Volume ν α := fun loc =>
  match loc.drop dir.length with
  | [] => fs loc
  | name :: _ => if dir <+: loc ∧ name ∉ keep then none else fs loc

/-- The locations a path steps down to. -/
def stepped {ν : Type u} : List ν → List (Step ν) → List (List ν)
  | _, [] => []
  | loc, .up :: path => stepped loc.dropLast path
  | loc, .down name :: path => (loc ++ [name]) :: stepped (loc ++ [name]) path

end Defs

section

variable {ν : Type u} {α : Type v}

/-- Steps down only append their names. -/
theorem locate_map_down (loc names : List ν) : locate loc (names.map .down) = loc ++ names := by
  induction names generalizing loc with
  | nil => simp [locate]
  | cons name names ih => simp [locate, ih]

/-- Steps down only step to the locations on the way. -/
theorem mem_stepped_map_down {loc names l : List ν} :
    l ∈ stepped loc (names.map .down) ↔ ∃ front, front ≠ [] ∧ front <+: names ∧ l = loc ++ front := by
  induction names generalizing loc with
  | nil =>
      simp only [List.map_nil, stepped, List.not_mem_nil, List.prefix_nil, false_iff, not_exists, not_and]
      exact fun front hne heq => absurd heq hne
  | cons name names ih =>
      simp only [List.map_cons, stepped, List.mem_cons, ih]
      constructor
      · rintro (rfl | ⟨front, -, hfront, rfl⟩)
        · exact ⟨[name], by simp, by simp, rfl⟩
        · exact ⟨name :: front, by simp, List.cons_prefix_cons.mpr ⟨rfl, hfront⟩, by simp⟩
      · rintro ⟨front, hne, hfront, rfl⟩
        cases front with
        | nil => exact absurd rfl hne
        | cons first front =>
            obtain ⟨rfl, hrest⟩ := List.cons_prefix_cons.mp hfront
            cases front with
            | nil => exact .inl rfl
            | cons second front => exact .inr ⟨second :: front, by simp, hrest, by simp⟩

/-- A path can be followed where it steps down to directories. -/
theorem follow_eq_some_iff (fs : Volume ν α) (loc : List ν) (path : List (Step ν)) (l : List ν) :
    follow fs loc path = some l ↔
      (∀ l ∈ stepped loc path, fs l = some .directory) ∧ locate loc path = l := by
  induction path generalizing loc with
  | nil => simp [follow, stepped, locate]
  | cons step path ih =>
      cases step with
      | up => exact ih _
      | down name =>
          unfold follow stepped locate
          rw [List.forall_mem_cons]
          split
          · rename_i hentry
            rw [ih]
            simp [hentry]
          · rename_i hentry
            simp only [reduceCtorEq, false_iff, not_and]
            exact fun hdir => absurd hdir.1 hentry

variable [DecidableEq ν]

/-- The directories on a path can be made exactly where no file stands in the way. -/
theorem makeDirs_isSome_iff (fs : Volume ν α) (loc : List ν) (path : List (Step ν)) :
    (makeDirs fs loc path).isSome ↔ ∀ l ∈ stepped loc path, ∀ c, fs l ≠ some (.file c) := by
  induction path generalizing fs loc with
  | nil => simp [makeDirs, stepped]
  | cons step path ih =>
      cases step with
      | up => exact ih fs _
      | down name =>
          unfold makeDirs stepped
          cases hentry : fs (loc ++ [name]) with
          | none =>
              -- a directory that is made puts no file in the way
              simp only [ih, List.forall_mem_cons, hentry, ne_eq, reduceCtorEq, not_false_eq_true,
                implies_true, true_and]
              refine forall₂_congr fun l _ => ?_
              by_cases heq : l = loc ++ [name]
              · simp [heq, hentry]
              · rw [Function.update_of_ne heq]
          | some entry =>
              cases entry with
              | directory => simp [ih, hentry]
              | file c => simp [hentry]

/-- Making directories leaves the files, and what stood there. -/
theorem makeDirs_keeps {fs fs' : Volume ν α} {loc : List ν} {path : List (Step ν)}
    (h : makeDirs fs loc path = some fs') (l : List ν) :
    fs' l = fs l ∨ fs l = none ∧ fs' l = some .directory := by
  induction path generalizing fs loc with
  | nil =>
      rw [makeDirs, Option.some.injEq] at h
      exact .inl (h ▸ rfl)
  | cons step path ih =>
      cases step with
      | up => exact ih h
      | down name =>
          unfold makeDirs at h
          cases hentry : fs (loc ++ [name]) with
          | none =>
              simp only [hentry] at h
              by_cases heq : l = loc ++ [name]
              · subst heq
                have hl := ih h
                simp only [Function.update_self, reduceCtorEq, false_and, or_false] at hl
                exact .inr ⟨hentry, hl⟩
              · have hl := ih h
                rwa [Function.update_of_ne heq] at hl
          | some entry =>
              cases entry with
              | directory =>
                  simp only [hentry] at h
                  exact ih h
              | file c => simp [hentry] at h

theorem makeDirs_file_iff {fs fs' : Volume ν α} {loc : List ν} {path : List (Step ν)}
    (h : makeDirs fs loc path = some fs') (l : List ν) (c : α) :
    fs' l = some (.file c) ↔ fs l = some (.file c) := by
  rcases makeDirs_keeps h l with heq | ⟨hnone, hdir⟩
  · rw [heq]
  · simp [hnone, hdir]

/-- The directories are those that were there, and those the path steps down to. -/
theorem makeDirs_directory_iff {fs fs' : Volume ν α} {loc : List ν} {path : List (Step ν)}
    (h : makeDirs fs loc path = some fs') (l : List ν) :
    fs' l = some .directory ↔ fs l = some .directory ∨ l ∈ stepped loc path := by
  induction path generalizing fs loc with
  | nil =>
      rw [makeDirs, Option.some.injEq] at h
      simp [h, stepped]
  | cons step path ih =>
      cases step with
      | up => exact ih h
      | down name =>
          unfold makeDirs at h
          unfold stepped
          cases hentry : fs (loc ++ [name]) with
          | none =>
              simp only [hentry] at h
              rw [ih h, List.mem_cons]
              by_cases heq : l = loc ++ [name]
              · simp [heq]
              · rw [Function.update_of_ne heq]
                simp [heq]
          | some entry =>
              cases entry with
              | directory =>
                  simp only [hentry] at h
                  rw [ih h, List.mem_cons]
                  by_cases heq : l = loc ++ [name]
                  · simp [heq, hentry]
                  · simp [heq]
              | file c => simp [hentry] at h

/-- A directory is made where all on the way to it are there. -/
theorem makeDirs_of_way {fs : Volume ν α} {loc dir : List ν}
    (hway : ∀ front, front <+: dir → front ≠ [] → front ≠ dir → fs (loc ++ front) = some .directory) (hdir : dir ≠ []) :
    makeDirs fs loc (dir.map .down) =
      match fs (loc ++ dir) with
      | none => some (Function.update fs (loc ++ dir) (some .directory))
      | some .directory => some fs
      | some (.file _) => none := by
  induction dir generalizing loc with
  | nil => exact absurd rfl hdir
  | cons name dir ih =>
      rw [List.map_cons, makeDirs]
      by_cases hlast : dir = []
      · subst hlast
        cases hentry : fs (loc ++ [name]) with
        | none => rfl
        | some e => cases e <;> rfl
      · have hfirst : fs (loc ++ [name]) = some .directory :=
          hway [name] (by simp) (by simp) (by simpa using Ne.symm hlast)
        rw [hfirst]
        have hbehind := @ih (loc ++ [name]) (fun front hfront hne hnot => by
          rw [List.append_assoc, List.singleton_append]
          exact hway (name :: front) (List.cons_prefix_cons.mpr ⟨rfl, hfront⟩) (by simp) (by simpa using hnot)) hlast
        rw [List.append_assoc, List.singleton_append] at hbehind
        exact hbehind

theorem writeAt_eq_some {fs fs' : Volume ν α} {loc : List ν} {content : α}
    (h : writeAt fs loc content = some fs') :
    fs loc ≠ some .directory ∧ fs' = Function.update fs loc (some (.file content)) := by
  unfold writeAt at h
  split at h
  · simp at h
  · rename_i hentry
    rw [Option.some.injEq] at h
    exact ⟨hentry, h.symm⟩

theorem writeAt_of_ne {fs : Volume ν α} {loc : List ν} (h : fs loc ≠ some .directory) (content : α) :
    writeAt fs loc content = some (Function.update fs loc (some (.file content))) := by
  unfold writeAt
  split
  · rename_i hentry
    exact absurd hentry h
  · rfl

/-- Clearing a directory leaves what is not below it, and what is below a name it keeps. -/
theorem clearBelow_of_keep {fs : Volume ν α} {dir keep loc : List ν}
    (h : ∀ name rest, loc = dir ++ name :: rest → name ∈ keep) : clearBelow fs dir keep loc = fs loc := by
  unfold clearBelow
  split
  · rfl
  · rename_i name rest hdrop
    refine if_neg ?_
    rintro ⟨⟨tail, rfl⟩, hname⟩
    refine hname (h name rest ?_)
    rw [List.drop_left] at hdrop
    rw [hdrop]

end

end FileSystem
