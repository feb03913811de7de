-- SUMMARY: Writing files at paths one after the other: what stands after it, and when it can be done.
import Omoplata.Lib.Table

/-!
# Writing files at paths

A path may step up, so where a file is put and which directories are made on the way to it are
read off the path. Files can be put one after the other exactly where none of them is put on
the way to another one.
-/

open Std

universe u v

namespace FileSystem

/-- A file to be written: a path, the name behind it, and what it holds. -/
structure Put (ν : Type u) (α : Type v) where
  path : List (Step ν)
  name : ν
  content : α

namespace Put

variable {ν : Type u} {α : Type v}

/-- Where the file is put. -/
def target (p : Put ν α) : List ν := locate [] p.path ++ [p.name]

/-- The directories on the way. -/
def way (p : Put ν α) : List (List ν) := stepped [] p.path

/-- None is put on the way to another one. -/
def Apart (ps : List (Put ν α)) : Prop := ∀ p ∈ ps, ∀ q ∈ ps, p.target ∉ q.way

/-- A file at the place of another one, on no way but the other's, is as much apart. -/
theorem Apart.cons {ps : List (Put ν α)} {p q : Put ν α} (h : Apart ps) (hp : p ∈ ps)
    (htarget : q.target = p.target) (hway : ∀ l ∈ q.way, l ∈ p.way) : Apart (q :: ps) := by
  intro a ha b hb
  obtain ⟨a', ha', hsame⟩ : ∃ a' ∈ ps, a'.target = a.target := by
    cases List.mem_cons.mp ha with
    | inl heq => exact ⟨p, hp, heq ▸ htarget.symm⟩
    | inr hrest => exact ⟨a, hrest, rfl⟩
  rw [← hsame]
  cases List.mem_cons.mp hb with
  | inl heq => exact fun hin => h a' ha' p hp (hway _ (heq ▸ hin))
  | inr hrest => exact h a' ha' b hrest

end Put

/-! ## Where a path leads -/

section

variable {ν : Type u}

theorem locate_append (loc : List ν) (path path' : List (Step ν)) :
    locate loc (path ++ path') = locate (locate loc path) path' := by
  induction path generalizing loc with
  | nil => rfl
  | cons step path ih =>
      cases step with
      | up => exact ih _
      | down name => exact ih _

theorem stepped_append (loc : List ν) (path path' : List (Step ν)) :
    stepped loc (path ++ path') = stepped loc path ++ stepped (locate loc path) path' := by
  induction path generalizing loc with
  | nil => rfl
  | cons step path ih =>
      cases step with
      | up => exact ih _
      | down name => exact congrArg (_ :: ·) (ih _)

/-- To be at a location, a path has stepped down to all that is above it. -/
theorem mem_stepped_of_prefix {path : List (Step ν)} {front : List ν} (hfront : front <+: locate [] path)
    (hne : front ≠ []) : front ∈ stepped [] path := by
  induction path using List.reverseRecOn with
  | nil => exact absurd (List.prefix_nil.mp hfront) hne
  | append_singleton path step ih =>
      rw [locate_append] at hfront
      rw [stepped_append, List.mem_append]
      cases step with
      | up => exact .inl (ih (hfront.trans (List.dropLast_prefix _)))
      | down name =>
          rcases List.prefix_concat_iff.mp hfront with heq | hshort
          · exact .inr (List.mem_singleton.mpr heq)
          · exact .inl (ih hshort)

end

namespace Table

variable {ν : Type u} {α : Type v} [Ord ν] [TransOrd ν] [LawfulEqOrd ν] [DecidableEq ν]

/-! ## One file -/

/-- What a file that is put leaves: itself, the directories on the way to it, and everything else. -/
theorem put_eq_some {t t' : Table ν α} {p : Put ν α} (h : t.put p.path p.name p.content = some t') :
    t[p.target]? ≠ some .directory ∧ t'[p.target]? = some (.file p.content) ∧
      (∀ l ∈ p.way, t'[l]? = some .directory) ∧
      ∀ l, l ≠ p.target → t'[l]? = t[l]? ∨ t[l]? = none ∧ t'[l]? = some .directory ∧ l ∈ p.way := by
  obtain ⟨t₁, hmake, hwrite⟩ := Option.bind_eq_some_iff.mp h
  have hvolume := makeDirs_eq_some hmake
  have hdir := makeDirs_directory_iff hvolume
  have hkeeps := makeDirs_keeps hvolume
  change t₁.writeAt p.target p.content = some t' at hwrite
  unfold writeAt at hwrite
  split at hwrite
  · cases hwrite
  · rename_i hplace
    cases hwrite
    have hplace' : ∀ {l}, l ∈ stepped [] p.path → l ≠ p.target := fun hl heq =>
      hplace ((heq ▸ (hdir _).mpr (.inr hl) : t₁.volume p.target = some .directory))
    refine ⟨fun hstands => hplace ((hdir _).mpr (.inl hstands)), ?_, fun l hl => ?_, fun l hl => ?_⟩
    · rw [BTreeMap.getElem?_insert, if_pos rfl]
    · rw [BTreeMap.getElem?_insert, if_neg (Ne.symm (hplace' hl))]
      exact (hdir l).mpr (.inr hl)
    · rw [BTreeMap.getElem?_insert, if_neg (Ne.symm hl)]
      refine (hkeeps l).imp_right fun ⟨hnone, hmade⟩ => ⟨hnone, hmade, ?_⟩
      exact ((hdir l).mp hmade).resolve_left fun hold => Option.some_ne_none _ (hold.symm.trans hnone)

/-- A file can be put where no file is on the way, and no directory stands or is made in its place. -/
theorem put_isSome {t : Table ν α} {p : Put ν α} (hway : ∀ l ∈ p.way, ∀ c, t[l]? ≠ some (.file c))
    (hplace : t[p.target]? ≠ some .directory) (hself : p.target ∉ p.way) :
    ∃ t', t.put p.path p.name p.content = some t' := by
  have hsome := (makeDirs_isSome_iff t.volume [] p.path).mpr hway
  rw [← volume_makeDirs, Option.isSome_map] at hsome
  obtain ⟨t₁, hmake⟩ := Option.isSome_iff_exists.mp hsome
  have hfree : t₁[p.target]? ≠ some .directory := fun hstands =>
    ((makeDirs_directory_iff (makeDirs_eq_some hmake) p.target).mp hstands).elim hplace hself
  have hwrite : t₁.writeAt p.target p.content = some (t₁.insert p.target (.file p.content)) := by
    unfold writeAt
    split
    · rename_i hstands
      exact absurd hstands hfree
    · rfl
  exact ⟨_, Option.bind_eq_some_iff.mpr ⟨t₁, hmake, hwrite⟩⟩

/-! ## One after the other -/

/-- Put files one after the other. -/
def putAll (t : Table ν α) (ps : List (Put ν α)) : Option (Table ν α) :=
  ps.foldlM (fun t p => t.put p.path p.name p.content) t

variable {t t' : Table ν α} {ps : List (Put ν α)}

omit [LawfulEqOrd ν] [DecidableEq ν] in
theorem putAll_cons {p : Put ν α} :
    putAll t (p :: ps) = some t' ↔ ∃ t₁, t.put p.path p.name p.content = some t₁ ∧ putAll t₁ ps = some t' :=
  Option.bind_eq_some_iff

omit [LawfulEqOrd ν] [DecidableEq ν] in
theorem putAll_append {qs : List (Put ν α)} :
    putAll t (ps ++ qs) = some t' ↔ ∃ t₁, putAll t ps = some t₁ ∧ putAll t₁ qs = some t' := by
  unfold putAll
  rw [List.foldlM_append]
  exact Option.bind_eq_some_iff

/-- A file is one of those that are put, or was there before. -/
theorem putAll_file (h : putAll t ps = some t') {l : List ν} {c : α} (hfile : t'[l]? = some (.file c)) :
    t[l]? = some (.file c) ∧ (∀ p ∈ ps, p.target ≠ l) ∨ ∃ p ∈ ps, p.target = l ∧ p.content = c := by
  induction ps generalizing t with
  | nil =>
      cases h
      exact .inl ⟨hfile, List.forall_mem_nil _⟩
  | cons p ps ih =>
      obtain ⟨t₁, hput, hrest⟩ := putAll_cons.mp h
      obtain ⟨-, hplace, -, hothers⟩ := put_eq_some hput
      rcases ih hrest with ⟨hold, hnot⟩ | ⟨q, hq, htarget, hcontent⟩
      · by_cases heq : l = p.target
        · subst heq
          have hsame := hplace.symm.trans hold
          rw [Option.some.injEq, Entry.file.injEq] at hsame
          exact .inr ⟨p, List.mem_cons_self, rfl, hsame⟩
        · rcases hothers l heq with hsame | ⟨-, hmade, -⟩
          · exact .inl ⟨hsame.symm.trans hold, List.forall_mem_cons.mpr ⟨Ne.symm heq, hnot⟩⟩
          · cases hmade.symm.trans hold
      · exact .inr ⟨q, List.mem_cons_of_mem p hq, htarget, hcontent⟩

/-- A directory is on the way to one of the files that are put, or was there before. -/
theorem putAll_directory (h : putAll t ps = some t') {l : List ν} (hdir : t'[l]? = some .directory) :
    t[l]? = some .directory ∨ ∃ p ∈ ps, l ∈ p.way := by
  induction ps generalizing t with
  | nil =>
      cases h
      exact .inl hdir
  | cons p ps ih =>
      obtain ⟨t₁, hput, hrest⟩ := putAll_cons.mp h
      obtain ⟨-, hplace, -, hothers⟩ := put_eq_some hput
      rcases ih hrest with hold | ⟨q, hq, hway⟩
      · by_cases heq : l = p.target
        · cases (heq ▸ hplace).symm.trans hold
        · rcases hothers l heq with hsame | ⟨-, -, hway⟩
          · exact .inl (hsame.symm.trans hold)
          · exact .inr ⟨p, List.mem_cons_self, hway⟩
      · exact .inr ⟨q, List.mem_cons_of_mem p hq, hway⟩

/-- Where a file stands, one stands to the end. -/
theorem putAll_keeps_file (h : putAll t ps = some t') {l : List ν} {c : α} (hfile : t[l]? = some (.file c)) :
    ∃ c', t'[l]? = some (.file c') := by
  induction ps generalizing t c with
  | nil =>
      cases h
      exact ⟨c, hfile⟩
  | cons p ps ih =>
      obtain ⟨t₁, hput, hrest⟩ := putAll_cons.mp h
      obtain ⟨-, hplace, -, hothers⟩ := put_eq_some hput
      by_cases heq : l = p.target
      · exact ih hrest (heq ▸ hplace)
      · rcases hothers l heq with hsame | ⟨hnone, -⟩
        · exact ih hrest (hsame.trans hfile)
        · cases hnone.symm.trans hfile

/-- A directory stays. -/
theorem putAll_keeps_directory (h : putAll t ps = some t') {l : List ν} (hdir : t[l]? = some .directory) :
    t'[l]? = some .directory := by
  induction ps generalizing t with
  | nil =>
      cases h
      exact hdir
  | cons p ps ih =>
      obtain ⟨t₁, hput, hrest⟩ := putAll_cons.mp h
      obtain ⟨hfree, -, -, hothers⟩ := put_eq_some hput
      have hne : l ≠ p.target := fun heq => hfree (heq ▸ hdir)
      refine ih hrest ?_
      rcases hothers l hne with hsame | ⟨-, hmade, -⟩
      · exact hsame.trans hdir
      · exact hmade

/-- At the place of a file that is put, there is one of those that are put there. -/
theorem putAll_target (h : putAll t ps = some t') {p : Put ν α} (hp : p ∈ ps) :
    ∃ q ∈ ps, q.target = p.target ∧ t'[p.target]? = some (.file q.content) := by
  obtain ⟨front, back, rfl⟩ := List.append_of_mem hp
  obtain ⟨t₁, -, hrest⟩ := putAll_append.mp h
  obtain ⟨t₂, hput, hback⟩ := putAll_cons.mp hrest
  obtain ⟨c, hfile⟩ := putAll_keeps_file hback (put_eq_some hput).2.1
  rcases putAll_file h hfile with ⟨-, hnot⟩ | ⟨q, hq, htarget, rfl⟩
  · exact absurd rfl (hnot p hp)
  · exact ⟨q, hq, htarget, hfile⟩

theorem putAll_way (h : putAll t ps = some t') {p : Put ν α} (hp : p ∈ ps) {l : List ν} (hl : l ∈ p.way) :
    t'[l]? = some .directory := by
  obtain ⟨front, back, rfl⟩ := List.append_of_mem hp
  obtain ⟨t₁, -, hrest⟩ := putAll_append.mp h
  obtain ⟨t₂, hput, hback⟩ := putAll_cons.mp hrest
  exact putAll_keeps_directory hback ((put_eq_some hput).2.2.1 l hl)

/-- Files that have all been put are apart. -/
theorem apart_of_putAll (h : putAll t ps = some t') : Put.Apart ps := by
  intro p hp q hq hway
  obtain ⟨r, -, -, hfile⟩ := putAll_target h hp
  cases (putAll_way h hq hway).symm.trans hfile

/-- Files that are apart can be put where there is nothing but files put before. -/
theorem exists_putAll {front : List (Put ν α)} (hfront : putAll ∅ front = some t) (hapart : Put.Apart (front ++ ps)) :
    ∃ t', putAll t ps = some t' := by
  induction ps generalizing t front with
  | nil => exact ⟨t, rfl⟩
  | cons p ps ih =>
      have hp : p ∈ front ++ p :: ps := List.mem_append_right _ List.mem_cons_self
      have hmem : ∀ q ∈ front, q ∈ front ++ p :: ps := fun q hq => List.mem_append_left _ hq
      obtain ⟨t₁, hput⟩ : ∃ t₁, t.put p.path p.name p.content = some t₁ := by
        refine put_isSome (fun l hl c hfile => ?_) (fun hstands => ?_) (hapart p hp p hp)
        · rcases putAll_file hfront hfile with ⟨hnone, -⟩ | ⟨q, hq, htarget, -⟩
          · rw [Std.ExtTreeMap.getElem?_empty] at hnone
            cases hnone
          · exact hapart q (hmem q hq) p hp (htarget ▸ hl)
        · rcases putAll_directory hfront hstands with hnone | ⟨q, hq, hway⟩
          · rw [Std.ExtTreeMap.getElem?_empty] at hnone
            cases hnone
          · exact hapart p hp q (hmem q hq) hway
      obtain ⟨t', hrest⟩ := ih (putAll_append.mpr ⟨t, hfront, putAll_cons.mpr ⟨t₁, hput, rfl⟩⟩)
        (by rwa [List.append_assoc, List.singleton_append])
      exact ⟨t', putAll_cons.mpr ⟨t₁, hput, hrest⟩⟩

/-- Files can all be put where there is nothing exactly where they are apart. -/
theorem exists_putAll_iff : (∃ t' : Table ν α, putAll ∅ ps = some t') ↔ Put.Apart ps :=
  ⟨fun ⟨_, h⟩ => apart_of_putAll h, fun h => @exists_putAll ν α _ _ _ _ ∅ ps [] rfl h⟩

end Table

end FileSystem
