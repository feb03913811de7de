-- SUMMARY: Checking a stored tree out into a directory, and which trees leave the control data alone.
import Omoplata.Lib.FileSystem
import Omoplata.Store.Repository

/-!
# Checkout

A checkout removes what a directory holds, its control entries apart, and writes the
tree into it, object by object. It stops at the first object it cannot read, and what
it has written by then stays.
-/

open FileSystem

namespace Omoplata

/-- Why a checkout fails. -/
inductive CheckoutError where
  | store (e : StoreError)
  | content (reason : Str)
  | io (path : List Str)
  deriving DecidableEq

/-- How a checkout ends. One whose trees nest deeper than its fuel stays unfinished. -/
inductive CheckoutEnd where
  | done
  | failed (e : CheckoutError)
  | panicked (p : Panic)
  | unfinished
  deriving DecidableEq

/-- The files of a machine. -/
abbrev Disk := Volume Str (List UInt8)

/-- The text of a tree that is not one. -/
def notTreeText (id : ObjectId) : Str := id.toText ++ " is not a tree object".toList

/-- The text of a blob that is not one. -/
def notBlobText (name : Str) : Str :=
  "entry ".toList ++ name ++ " claims blob but stored object is a tree".toList

/-- Remove the entries of a directory, its control entries apart. -/
def removeWorkingContent (dir : List Str) (fs : Disk) : CheckoutEnd × Disk :=
  match fs dir with
  | none => (.done, fs)
  | some (.file _) => (.failed (.io dir), fs)
  | some .directory => (.done, clearBelow fs dir controlNames)

section

variable (sha256 : List UInt8 → ObjectId) (repo : Repository)

/-- Write the blob of an entry to a path. -/
def writeBlobInto (e : TreeEntry) (path : List Str) (fs : Disk) : CheckoutEnd × Disk :=
  match repo.readObject sha256 e.id with
  | .error p => (.panicked p, fs)
  | .ok (.error err) => (.failed (.store err), fs)
  | .ok (.ok (.tree _)) => (.failed (.content (notBlobText e.name)), fs)
  | .ok (.ok (.blob bytes)) =>
      match writeAt fs path bytes with
      | none => (.failed (.io path), fs)
      | some fs => (.done, fs)

/-- Write an entry of a tree; `writeTree` writes a subtree. -/
def writeEntry (writeTree : ObjectId → List Str → Disk → CheckoutEnd × Disk) (dir : List Str)
    (e : TreeEntry) (fs : Disk) : CheckoutEnd × Disk :=
  match e.kind with
  | .blob => writeBlobInto sha256 repo e (dir ++ [e.name]) fs
  | .tree => writeTree e.id (dir ++ [e.name]) fs

/-- The loop over the entries of a tree. -/
def writeEntries (writeTree : ObjectId → List Str → Disk → CheckoutEnd × Disk) (dir : List Str) :
    List TreeEntry → Disk → CheckoutEnd × Disk
  | [], fs => (.done, fs)
  | e :: entries, fs =>
      match writeEntry sha256 repo writeTree dir e fs with
      | (.done, fs) => writeEntries writeTree dir entries fs
      | stopped => stopped

/-- Write a tree into a directory. -/
def writeTreeInto : Nat → ObjectId → List Str → Disk → CheckoutEnd × Disk
  | 0, _, _, fs => (.unfinished, fs)
  | fuel + 1, id, dir, fs =>
      match repo.readObject sha256 id with
      | .error p => (.panicked p, fs)
      | .ok (.error err) => (.failed (.store err), fs)
      | .ok (.ok (.blob _)) => (.failed (.content (notTreeText id)), fs)
      | .ok (.ok (.tree t)) =>
          match makeDirs fs [] (dir.map .down) with
          | none => (.failed (.io dir), fs)
          | some fs => writeEntries sha256 repo (writeTreeInto fuel) dir t.entries fs

/-- Check a tree out into a directory. -/
def materialize (fuel : Nat) (id : ObjectId) (dir : List Str) (fs : Disk) : CheckoutEnd × Disk :=
  match removeWorkingContent dir fs with
  | (.done, fs) => writeTreeInto sha256 repo fuel id dir fs
  | stopped => stopped

end

/-! ## What a checkout changes -/

/-- From one disk to the other nothing has changed outside a location, but for directories
    made on the way to it, and nothing has been removed. -/
structure Within (dir : List Str) (fs fs' : Disk) : Prop where
  outside : ∀ l, ¬ dir <+: l → fs' l = fs l ∨ (l <+: dir ∧ fs l = none ∧ fs' l = some .directory)
  kept : ∀ l, fs l ≠ none → fs' l ≠ none

theorem Within.refl (dir : List Str) (fs : Disk) : Within dir fs fs :=
  ⟨fun _ _ => .inl rfl, fun _ h => h⟩

theorem Within.trans {dir : List Str} {fs fs' fs'' : Disk} (h : Within dir fs fs')
    (h' : Within dir fs' fs'') : Within dir fs fs'' := by
  refine ⟨fun l hl => ?_, fun l hl => h'.kept l (h.kept l hl)⟩
  rcases h.outside l hl with heq | ⟨hbelow, hnone, hdir⟩
  · rcases h'.outside l hl with heq' | ⟨hbelow, hnone, hdir⟩
    · exact .inl (heq'.trans heq)
    · exact .inr ⟨hbelow, heq ▸ hnone, hdir⟩
  · rcases h'.outside l hl with heq' | ⟨-, hnone', -⟩
    · exact .inr ⟨hbelow, hnone, heq'.trans hdir⟩
    · simp [hdir] at hnone'

/-- What happens in an entry of a directory happens in the directory. -/
theorem Within.mono {dir : List Str} {name : Str} {fs fs' : Disk} (h : Within (dir ++ [name]) fs fs') :
    Within dir fs fs' := by
  refine ⟨fun l hl => ?_, h.kept⟩
  have hout : ¬ dir ++ [name] <+: l := fun hin => hl ((List.prefix_append dir [name]).trans hin)
  refine (h.outside l hout).imp_right fun ⟨hbelow, hchange⟩ => ⟨?_, hchange⟩
  rcases List.prefix_concat_iff.mp hbelow with rfl | hbelow
  · exact absurd (List.prefix_append dir [name]) hl
  · exact hbelow

/-- What happens in an entry leaves the other entries. -/
theorem Within.other {dir : List Str} {name other : Str} {fs fs' : Disk}
    (h : Within (dir ++ [name]) fs fs') (hne : other ≠ name) {l : List Str} (hl : dir ++ [other] <+: l) :
    fs' l = fs l := by
  have happend : ∀ rest, ¬ dir ++ [other] ++ rest <+: dir ++ [name] := by
    intro rest hbelow
    rw [List.append_assoc, List.prefix_append_right_inj] at hbelow
    exact hne (List.cons_prefix_cons.mp hbelow).1
  obtain ⟨rest, rfl⟩ := hl
  refine (h.outside _ fun hbelow => ?_).resolve_right fun hin => happend rest hin.1
  rw [List.append_assoc, List.prefix_append_right_inj] at hbelow
  exact hne (List.cons_prefix_cons.mp hbelow).1.symm

theorem Within.files {dir : List Str} {fs fs' : Disk} (h : Within dir fs fs') {l : List Str}
    (hl : ¬ dir <+: l) (c : List UInt8) : fs' l = some (.file c) ↔ fs l = some (.file c) := by
  rcases h.outside l hl with heq | ⟨-, hnone, hdir⟩
  · rw [heq]
  · simp [hnone, hdir]

/-- What is on the way to a directory is below none of its entries. -/
theorem not_below_entry {dir front : List Str} (h : front <+: dir) (name : Str) :
    ¬ dir ++ [name] <+: front := by
  intro hin
  have hle := hin.length_le
  have hle' := h.length_le
  rw [List.length_append, List.length_singleton] at hle
  omega

theorem within_makeDirs {dir : List Str} {fs fs' : Disk}
    (h : makeDirs fs [] (dir.map .down) = some fs') : Within dir fs fs' := by
  refine ⟨fun l _ => ?_, fun l hl => ?_⟩
  · refine (makeDirs_keeps h l).imp_right fun ⟨hnone, hdir⟩ => ⟨?_, hnone, hdir⟩
    rcases (makeDirs_directory_iff h l).mp hdir with hthere | hstep
    · simp [hnone] at hthere
    · obtain ⟨front, -, hbelow, rfl⟩ := mem_stepped_map_down.mp hstep
      exact hbelow
  · rcases makeDirs_keeps h l with heq | ⟨hnone, -⟩
    · rwa [heq]
    · exact absurd hnone hl

theorem within_writeAt {path : List Str} {bytes : List UInt8} {fs fs' : Disk}
    (h : writeAt fs path bytes = some fs') : Within path fs fs' := by
  obtain ⟨-, rfl⟩ := writeAt_eq_some h
  refine ⟨fun l hl => .inl (Function.update_of_ne ?_ _ _), fun l hl => ?_⟩
  · rintro rfl
    exact hl (List.prefix_refl _)
  · by_cases heq : l = path
    · simp [heq]
    · rwa [Function.update_of_ne heq]

section

variable {sha256 : List UInt8 → ObjectId} {repo : Repository}

theorem within_writeBlobInto (e : TreeEntry) (path : List Str) (fs : Disk) :
    Within path fs (writeBlobInto sha256 repo e path fs).2 := by
  unfold writeBlobInto
  split
  · exact .refl path fs
  · exact .refl path fs
  · exact .refl path fs
  · split
    · exact .refl path fs
    · rename_i hwrite
      exact within_writeAt hwrite

theorem within_writeEntry {writeTree : ObjectId → List Str → Disk → CheckoutEnd × Disk}
    (hwriter : ∀ id dir fs, Within dir fs (writeTree id dir fs).2) (dir : List Str) (e : TreeEntry)
    (fs : Disk) : Within (dir ++ [e.name]) fs (writeEntry sha256 repo writeTree dir e fs).2 := by
  unfold writeEntry
  split
  · exact within_writeBlobInto e _ fs
  · exact hwriter e.id _ fs

theorem writeEntries_of_done {writeTree : ObjectId → List Str → Disk → CheckoutEnd × Disk} {dir : List Str}
    {e : TreeEntry} {fs fs₁ : Disk} (h : writeEntry sha256 repo writeTree dir e fs = (.done, fs₁))
    (entries : List TreeEntry) :
    writeEntries sha256 repo writeTree dir (e :: entries) fs =
      writeEntries sha256 repo writeTree dir entries fs₁ := by
  rw [writeEntries, h]

theorem writeEntries_of_stop {writeTree : ObjectId → List Str → Disk → CheckoutEnd × Disk} {dir : List Str}
    {e : TreeEntry} {fs : Disk} (h : (writeEntry sha256 repo writeTree dir e fs).1 ≠ .done)
    (entries : List TreeEntry) :
    writeEntries sha256 repo writeTree dir (e :: entries) fs = writeEntry sha256 repo writeTree dir e fs := by
  unfold writeEntries
  split
  · rename_i fs₁ heq
    exact absurd (by rw [heq]) h
  · rfl

theorem within_writeEntries {writeTree : ObjectId → List Str → Disk → CheckoutEnd × Disk}
    (hwriter : ∀ id dir fs, Within dir fs (writeTree id dir fs).2) (dir : List Str)
    (entries : List TreeEntry) (fs : Disk) :
    Within dir fs (writeEntries sha256 repo writeTree dir entries fs).2 := by
  induction entries generalizing fs with
  | nil => exact .refl dir fs
  | cons e entries ih =>
      have hentry := @within_writeEntry sha256 repo writeTree hwriter dir e fs
      unfold writeEntries
      split
      · rename_i fs₁ heq
        rw [heq] at hentry
        exact hentry.mono.trans (ih fs₁)
      · exact hentry.mono

theorem within_writeTreeInto (fuel : Nat) (id : ObjectId) (dir : List Str) (fs : Disk) :
    Within dir fs (writeTreeInto sha256 repo fuel id dir fs).2 := by
  induction fuel generalizing id dir fs with
  | zero => exact .refl dir fs
  | succ fuel ih =>
      unfold writeTreeInto
      split
      · exact .refl dir fs
      · exact .refl dir fs
      · exact .refl dir fs
      · split
        · exact .refl dir fs
        · rename_i hdirs
          exact (within_makeDirs hdirs).trans (within_writeEntries ih dir _ _)

theorem within_writeEntry_into (fuel : Nat) (dir : List Str) (e : TreeEntry) (fs : Disk) :
    Within (dir ++ [e.name]) fs (writeEntry sha256 repo (writeTreeInto sha256 repo fuel) dir e fs).2 :=
  within_writeEntry (within_writeTreeInto fuel) dir e fs

theorem writeTreeInto_of_tree {fuel : Nat} {id : ObjectId} {t : Tree} {dir : List Str} {fs fs₁ : Disk}
    (hread : repo.readObject sha256 id = .ok (.ok (.tree t)))
    (hmake : makeDirs fs [] (dir.map .down) = some fs₁) :
    writeTreeInto sha256 repo (fuel + 1) id dir fs =
      writeEntries sha256 repo (writeTreeInto sha256 repo fuel) dir t.entries fs₁ := by
  rw [writeTreeInto]
  simp only [hread, hmake]

/-! ## Which trees are written whole -/

/-- The object under an id is there, of the kind an entry says. -/
def Opens (sha256 : List UInt8 → ObjectId) (repo : Repository) (kind : EntryKind) (id : ObjectId) : Prop :=
  match kind with
  | .blob => ∃ bytes, repo.readObject sha256 id = .ok (.ok (.blob bytes))
  | .tree => ∃ t, repo.readObject sha256 id = .ok (.ok (.tree t))

/-- All objects under an entry are there, nested no deeper than a bound. -/
def Whole (sha256 : List UInt8 → ObjectId) (repo : Repository) : Nat → EntryKind → ObjectId → Prop
  | _, .blob, id => Opens sha256 repo .blob id
  | 0, .tree, _ => False
  | depth + 1, .tree, id =>
      ∃ t, repo.readObject sha256 id = .ok (.ok (.tree t)) ∧
        ∀ e ∈ t.entries, Whole sha256 repo depth e.kind e.id

/-- A blob that is written can be read. -/
theorem opens_of_writeBlobInto {e : TreeEntry} {path : List Str} {fs fs' : Disk}
    (h : writeBlobInto sha256 repo e path fs = (.done, fs')) : Opens sha256 repo .blob e.id := by
  unfold writeBlobInto at h
  split at h
  · simp at h
  · simp at h
  · simp at h
  · rename_i bytes hread
    exact ⟨bytes, hread⟩

/-- A blob that can be read is written where nothing stands. -/
theorem writeBlobInto_of_opens {e : TreeEntry} (h : Opens sha256 repo .blob e.id) {path : List Str}
    {fs : Disk} (hpath : fs path = none) :
    ∃ bytes, writeBlobInto sha256 repo e path fs = (.done, Function.update fs path (some (.file bytes))) := by
  obtain ⟨bytes, hread⟩ := h
  have hwrite := writeAt_of_ne (show fs path ≠ some .directory by simp [hpath]) bytes
  exact ⟨bytes, by simp only [writeBlobInto, hread, hwrite]⟩

/-- Where an entry does not open, nothing is written for it. -/
theorem writeEntry_of_not_opens {fuel : Nat} {e : TreeEntry} (h : ¬ Opens sha256 repo e.kind e.id)
    (dir : List Str) (fs : Disk) :
    (writeEntry sha256 repo (writeTreeInto sha256 repo fuel) dir e fs).1 ≠ .done ∧
      (writeEntry sha256 repo (writeTreeInto sha256 repo fuel) dir e fs).2 = fs := by
  unfold writeEntry
  cases hkind : e.kind with
  | blob =>
      simp only [hkind] at h ⊢
      unfold writeBlobInto
      split
      · simp
      · simp
      · simp
      · rename_i bytes hread
        exact absurd ⟨bytes, hread⟩ h
  | tree =>
      simp only [hkind] at h ⊢
      unfold writeTreeInto
      split
      · simp
      · split
        · simp
        · simp
        · simp
        · rename_i t hread
          exact absurd ⟨t, hread⟩ h

/-- What has been written was all there. -/
theorem whole_of_writeEntry {fuel : Nat} {e : TreeEntry} {dir : List Str} {fs fs' : Disk}
    (h : writeEntry sha256 repo (writeTreeInto sha256 repo fuel) dir e fs = (.done, fs')) :
    Whole sha256 repo fuel e.kind e.id := by
  induction fuel generalizing e dir fs fs' with
  | zero =>
      unfold writeEntry at h
      cases hkind : e.kind with
      | blob =>
          simp only [hkind] at h
          exact opens_of_writeBlobInto h
      | tree =>
          simp only [hkind] at h
          simp [writeTreeInto] at h
  | succ fuel ih =>
      unfold writeEntry at h
      cases hkind : e.kind with
      | blob =>
          simp only [hkind] at h
          exact opens_of_writeBlobInto h
      | tree =>
          simp only [hkind, writeTreeInto] at h
          split at h
          · simp at h
          · simp at h
          · simp at h
          · rename_i t hread
            split at h
            · simp at h
            · rename_i fs₁ _
              refine ⟨t, hread, ?_⟩
              -- the loop went through, so every entry was written
              have hall : ∀ (entries : List TreeEntry) (fs fs' : Disk),
                  writeEntries sha256 repo (writeTreeInto sha256 repo fuel) (dir ++ [e.name]) entries fs =
                    (.done, fs') → ∀ d ∈ entries, Whole sha256 repo fuel d.kind d.id := by
                intro entries
                induction entries with
                | nil => simp
                | cons d entries ihentries =>
                    intro fs fs' hwrite
                    unfold writeEntries at hwrite
                    split at hwrite
                    · rename_i fs₂ hentry
                      exact List.forall_mem_cons.mpr ⟨ih hentry, ihentries fs₂ fs' hwrite⟩
                    · rename_i hstop
                      exact absurd hwrite (hstop fs')
              exact hall t.entries fs₁ fs' h

theorem Whole.succ {depth : Nat} {kind : EntryKind} {id : ObjectId} (h : Whole sha256 repo depth kind id) :
    Whole sha256 repo (depth + 1) kind id := by
  induction depth generalizing kind id with
  | zero =>
      cases kind with
      | blob => exact h
      | tree => exact h.elim
  | succ depth ih =>
      cases kind with
      | blob => exact h
      | tree =>
          obtain ⟨t, hread, hentries⟩ := h
          exact ⟨t, hread, fun e he => ih (hentries e he)⟩

/-! ## The entries before a control entry -/

/-- A location below an entry is as it was, unless an entry of that name opens behind entries
    that are all there. -/
theorem writeEntries_untouched {fuel : Nat} {dir : List Str} {name : Str} {entries : List TreeEntry}
    (h : ∀ front e back, entries = front ++ e :: back → e.name = name →
      (∀ d ∈ front, Whole sha256 repo fuel d.kind d.id) → ¬ Opens sha256 repo e.kind e.id)
    {l : List Str} (hl : dir ++ [name] <+: l) (fs : Disk) :
    (writeEntries sha256 repo (writeTreeInto sha256 repo fuel) dir entries fs).2 l = fs l := by
  induction entries generalizing fs with
  | nil => rfl
  | cons e entries ih =>
      by_cases hname : e.name = name
      · obtain ⟨hstop, hsame⟩ := @writeEntry_of_not_opens sha256 repo fuel e
          (h [] e entries rfl hname (by simp)) dir fs
        rw [writeEntries_of_stop hstop, hsame]
      · have hentry := (@within_writeEntry_into sha256 repo fuel dir e fs).other (Ne.symm hname) hl
        by_cases hdone : (writeEntry sha256 repo (writeTreeInto sha256 repo fuel) dir e fs).1 = .done
        · rw [writeEntries_of_done (Prod.ext hdone rfl), ← hentry]
          refine ih (fun front d back hsplit hd hfront => ?_) _
          refine h (e :: front) d back (by rw [hsplit]; rfl) hd ?_
          exact List.forall_mem_cons.mpr ⟨whole_of_writeEntry (Prod.ext hdone rfl), hfront⟩
        · rw [writeEntries_of_stop hdone, hentry]

/-- The entries of a directory put no file on the way to it, and take none away. -/
theorem writeEntries_way (fuel : Nat) {dir front : List Str} (h : front <+: dir) (entries : List TreeEntry)
    (fs : Disk) (c : List UInt8) :
    (writeEntries sha256 repo (writeTreeInto sha256 repo fuel) dir entries fs).2 front = some (.file c) ↔
      fs front = some (.file c) := by
  induction entries generalizing fs with
  | nil => rfl
  | cons e entries ih =>
      have hentry := (@within_writeEntry_into sha256 repo fuel dir e fs).files (not_below_entry h e.name) c
      by_cases hdone : (writeEntry sha256 repo (writeTreeInto sha256 repo fuel) dir e fs).1 = .done
      · rw [writeEntries_of_done (Prod.ext hdone rfl), ih]
        exact hentry
      · rw [writeEntries_of_stop hdone]
        exact hentry

/-- Entries that are all there are written into a directory that holds none of them. -/
theorem writeEntries_done {fuel : Nat} {dir : List Str}
    (hwriter : ∀ (e : TreeEntry) (fs : Disk), Whole sha256 repo fuel e.kind e.id →
      (∀ front, front <+: dir → front ≠ [] → ∀ c, fs front ≠ some (.file c)) →
      (∀ l, dir ++ [e.name] <+: l → fs l = none) →
      (writeEntry sha256 repo (writeTreeInto sha256 repo fuel) dir e fs).1 = .done)
    {entries : List TreeEntry} (hnames : entries.Pairwise fun e e' => e.name ≠ e'.name) {fs : Disk}
    (hwhole : ∀ e ∈ entries, Whole sha256 repo fuel e.kind e.id)
    (hway : ∀ front, front <+: dir → front ≠ [] → ∀ c, fs front ≠ some (.file c))
    (hempty : ∀ e ∈ entries, ∀ l, dir ++ [e.name] <+: l → fs l = none) :
    (writeEntries sha256 repo (writeTreeInto sha256 repo fuel) dir entries fs).1 = .done := by
  induction entries generalizing fs with
  | nil => rfl
  | cons e entries ih =>
      obtain ⟨hhead, htail⟩ := List.pairwise_cons.mp hnames
      have hdone := hwriter e fs (hwhole e (by simp)) hway (hempty e (by simp))
      have hwithin := @within_writeEntry_into sha256 repo fuel dir e fs
      rw [writeEntries_of_done (Prod.ext hdone rfl)]
      refine ih htail (fun d hd => hwhole d (List.mem_cons_of_mem _ hd)) ?_ ?_
      · intro front hfront hne c hfile
        exact hway front hfront hne c ((hwithin.files (not_below_entry hfront e.name) c).mp hfile)
      · intro d hd l hl
        exact (hwithin.other (hhead d hd).symm hl).trans (hempty d (List.mem_cons_of_mem _ hd) l hl)

theorem Tree.pairwise_names (t : Tree) : t.entries.Pairwise fun e e' => e.name ≠ e'.name := by
  refine t.sorted.imp fun hlt heq => ?_
  simp [heq] at hlt

/-- An entry that is all there is written where nothing stands. -/
theorem writeEntry_done {fuel : Nat} {dir : List Str} {e : TreeEntry} {fs : Disk}
    (hwhole : Whole sha256 repo fuel e.kind e.id)
    (hway : ∀ front, front <+: dir → front ≠ [] → ∀ c, fs front ≠ some (.file c))
    (hempty : ∀ l, dir ++ [e.name] <+: l → fs l = none) :
    (writeEntry sha256 repo (writeTreeInto sha256 repo fuel) dir e fs).1 = .done := by
  induction fuel generalizing dir e fs with
  | zero =>
      unfold writeEntry
      cases hkind : e.kind with
      | blob =>
          rw [hkind] at hwhole
          obtain ⟨bytes, hwrite⟩ := writeBlobInto_of_opens (e := e) hwhole (hempty _ (List.prefix_refl _))
          simp only [hwrite]
      | tree =>
          rw [hkind] at hwhole
          exact hwhole.elim
  | succ fuel ih =>
      unfold writeEntry
      cases hkind : e.kind with
      | blob =>
          rw [hkind] at hwhole
          obtain ⟨bytes, hwrite⟩ := writeBlobInto_of_opens (e := e) hwhole (hempty _ (List.prefix_refl _))
          simp only [hwrite]
      | tree =>
          rw [hkind] at hwhole
          obtain ⟨t, hread, hentries⟩ := hwhole
          -- nothing on the way to the entry is a file, so its directories can be made
          have hfree : ∀ front, front <+: dir ++ [e.name] → front ≠ [] → ∀ c, fs front ≠ some (.file c) := by
            intro front hfront hne c
            cases List.prefix_concat_iff.mp hfront with
            | inl heq => simp [heq, hempty _ (List.prefix_refl _)]
            | inr hfront => exact hway front hfront hne c
          have hsome : (makeDirs fs [] ((dir ++ [e.name]).map .down)).isSome := by
            refine (makeDirs_isSome_iff _ _ _).mpr fun l hl => ?_
            obtain ⟨front, hne, hfront, rfl⟩ := mem_stepped_map_down.mp hl
            exact hfree _ hfront hne
          obtain ⟨fs₁, hmake⟩ := Option.isSome_iff_exists.mp hsome
          rw [writeTreeInto_of_tree hread hmake]
          refine writeEntries_done (fun d fs' hd hway' hempty' => ih hd hway' hempty') t.pairwise_names hentries ?_ ?_
          · intro front hfront hne c hfile
            exact hfree front hfront hne c ((makeDirs_file_iff hmake front c).mp hfile)
          -- making them puts nothing below another entry
          · intro d _ l hl
            have hbelow : dir ++ [e.name] <+: l := (List.prefix_append _ _).trans hl
            rcases makeDirs_keeps hmake l with hsame | ⟨-, hdir⟩
            · rw [hsame]
              exact hempty l hbelow
            · rcases (makeDirs_directory_iff hmake l).mp hdir with hthere | hstep
              · simp [hempty l hbelow] at hthere
              · obtain ⟨front, -, hfront, rfl⟩ := mem_stepped_map_down.mp hstep
                exact absurd hl (not_below_entry hfront d.name)

theorem writeEntries_append {writeTree : ObjectId → List Str → Disk → CheckoutEnd × Disk} {dir : List Str}
    {front : List TreeEntry} {fs fs₁ : Disk}
    (h : writeEntries sha256 repo writeTree dir front fs = (.done, fs₁)) (back : List TreeEntry) :
    writeEntries sha256 repo writeTree dir (front ++ back) fs =
      writeEntries sha256 repo writeTree dir back fs₁ := by
  induction front generalizing fs with
  | nil =>
      obtain rfl : fs = fs₁ := by simpa [writeEntries] using h
      rfl
  | cons e front ih =>
      by_cases hdone : (writeEntry sha256 repo writeTree dir e fs).1 = .done
      · rw [writeEntries_of_done (Prod.ext hdone rfl)] at h
        rw [List.cons_append, writeEntries_of_done (Prod.ext hdone rfl)]
        exact ih h
      · rw [writeEntries_of_stop hdone] at h
        exact absurd (by rw [h]) hdone

/-- Where an entry opens, something stands at its name once it has been written. -/
theorem writeEntry_of_opens {fuel : Nat} {dir : List Str} {e : TreeEntry} {fs : Disk}
    (hopens : Opens sha256 repo e.kind e.id)
    (hway : ∀ front, front <+: dir → front ≠ [] → ∀ c, fs front ≠ some (.file c))
    (hempty : fs (dir ++ [e.name]) = none) :
    (writeEntry sha256 repo (writeTreeInto sha256 repo (fuel + 1)) dir e fs).2 (dir ++ [e.name]) ≠ none := by
  unfold writeEntry
  cases hkind : e.kind with
  | blob =>
      rw [hkind] at hopens
      obtain ⟨bytes, hwrite⟩ := writeBlobInto_of_opens hopens hempty
      simp [hwrite]
  | tree =>
      rw [hkind] at hopens
      obtain ⟨t, hread⟩ := hopens
      have hsome : (makeDirs fs [] ((dir ++ [e.name]).map .down)).isSome := by
        refine (makeDirs_isSome_iff _ _ _).mpr fun l hl c => ?_
        obtain ⟨front, hne, hfront, rfl⟩ := mem_stepped_map_down.mp hl
        cases List.prefix_concat_iff.mp hfront with
        | inl heq => simp [heq, hempty]
        | inr hfront => exact hway _ hfront hne c
      obtain ⟨fs₁, hmake⟩ := Option.isSome_iff_exists.mp hsome
      rw [writeTreeInto_of_tree hread hmake]
      refine (within_writeEntries (within_writeTreeInto fuel) _ t.entries fs₁).kept _ ?_
      have hstep : dir ++ [e.name] ∈ stepped [] ((dir ++ [e.name]).map .down) :=
        mem_stepped_map_down.mpr ⟨_, by simp, List.prefix_refl _, rfl⟩
      rw [(makeDirs_directory_iff hmake _).mpr (.inr hstep)]
      simp

/-! ## Control data -/

/-- The control data of a directory is as it was, and so are the files outside the directory. -/
def Untouched (dir : List Str) (fs fs' : Disk) : Prop :=
  (∀ name ∈ controlNames, ∀ l, dir ++ [name] <+: l → fs' l = fs l) ∧
    ∀ l, ¬ dir <+: l → ∀ c, fs' l = some (.file c) ↔ fs l = some (.file c)

/-- A checkout of the tree comes to an entry under a control name: the entry opens, and all
    objects under the entries before it are there. -/
def MeetsControl (sha256 : List UInt8 → ObjectId) (repo : Repository) (id : ObjectId) : Prop :=
  ∃ t front e back, repo.readObject sha256 id = .ok (.ok (.tree t)) ∧ t.entries = front ++ e :: back ∧
    e.name ∈ controlNames ∧ (∃ depth, ∀ d ∈ front, Whole sha256 repo depth d.kind d.id) ∧
    Opens sha256 repo e.kind e.id

/-- A tree whose checkout meets no control entry leaves the control data alone. -/
theorem materialize_untouched {id : ObjectId} (h : ¬ MeetsControl sha256 repo id) (fuel : Nat)
    (dir : List Str) (fs : Disk) : Untouched dir fs (materialize sha256 repo fuel id dir fs).2 := by
  -- writing the tree, into whatever the directory is then
  have hwrite : ∀ fs : Disk, Untouched dir fs (writeTreeInto sha256 repo fuel id dir fs).2 := by
    intro fs
    refine ⟨fun name hname l hl => ?_, fun l hl c => (within_writeTreeInto fuel id dir fs).files hl c⟩
    cases fuel with
    | zero => rfl
    | succ fuel =>
        unfold writeTreeInto
        split
        · rfl
        · rfl
        · rfl
        · rename_i t hread
          split
          · rfl
          · rename_i fs₁ hmake
            have hmade : fs₁ l = fs l := by
              refine (makeDirs_keeps hmake l).resolve_right fun ⟨hnone, hdir⟩ => ?_
              rcases (makeDirs_directory_iff hmake l).mp hdir with hthere | hstep
              · simp [hnone] at hthere
              · obtain ⟨front, -, hfront, rfl⟩ := mem_stepped_map_down.mp hstep
                exact absurd hl (not_below_entry hfront name)
            rw [← hmade]
            refine writeEntries_untouched (fun front e back hsplit he hfront hopens => h ?_) hl fs₁
            exact ⟨t, front, e, back, hread, hsplit, he ▸ hname, ⟨fuel, hfront⟩, hopens⟩
  unfold materialize removeWorkingContent
  cases hdir : fs dir with
  | none => exact hwrite fs
  | some entry =>
      cases entry with
      | file c => exact ⟨fun _ _ _ _ => rfl, fun _ _ _ => .rfl⟩
      | directory =>
          simp only
          have hkeep := hwrite (clearBelow fs dir controlNames)
          refine ⟨fun name hname l hl => ?_, fun l hl c => ?_⟩
          · rw [hkeep.1 name hname l hl]
            refine clearBelow_of_keep fun other rest heq => ?_
            obtain ⟨tail, rfl⟩ := hl
            rw [List.append_assoc, List.append_cancel_left_eq] at heq
            simp only [List.cons_append, List.nil_append, List.cons.injEq] at heq
            exact heq.1 ▸ hname
          · rw [hkeep.2 l hl c, clearBelow_of_keep]
            rintro other rest rfl
            exact absurd (List.prefix_append _ _) hl

/-- One that meets a control entry writes it into a directory that is not there yet. -/
theorem materialize_touches {id : ObjectId} (h : MeetsControl sha256 repo id) :
    ∃ fuel dir fs, ¬ Untouched dir fs (materialize sha256 repo fuel id dir fs).2 := by
  obtain ⟨t, front, e, back, hread, hsplit, hcontrol, ⟨depth, hfront⟩, hopens⟩ := h
  have hnames := t.pairwise_names
  rw [hsplit] at hnames
  obtain ⟨hnames, -, hapart⟩ := List.pairwise_append.mp hnames
  let fs : Disk := fun l => if l = [] then some .directory else none
  obtain ⟨fs₁, hmake⟩ : ∃ fs₁, makeDirs fs [] ([['w']].map .down) = some fs₁ := ⟨_, rfl⟩
  have hbelow : ∀ name l, [['w']] ++ [name] <+: l → fs₁ l = none := by
    intro name l hl
    obtain ⟨rest, rfl⟩ := hl
    rcases makeDirs_keeps hmake ([['w']] ++ [name] ++ rest) with hsame | ⟨-, hdir⟩
    · rw [hsame]
      simp [fs]
    · rcases (makeDirs_directory_iff hmake _).mp hdir with hthere | hstep
      · simp [fs] at hthere
      · simp [stepped] at hstep
  have hfile : ∀ l c, fs₁ l ≠ some (.file c) := by
    intro l c hfile
    have hfile' := (makeDirs_file_iff hmake l c).mp hfile
    simp only [fs] at hfile'
    split at hfile'
    · simp at hfile'
    · simp at hfile'
  have hdone : (writeEntries sha256 repo (writeTreeInto sha256 repo (depth + 1)) [['w']] front fs₁).1 = .done :=
    writeEntries_done (fun d fs' hd hway hempty => writeEntry_done hd hway hempty) hnames
      (fun d hd => (hfront d hd).succ) (fun l _ _ c => hfile l c) fun d _ => hbelow d.name
  have hempty : (writeEntries sha256 repo (writeTreeInto sha256 repo (depth + 1)) [['w']] front fs₁).2
      ([['w']] ++ [e.name]) = none := by
    rw [writeEntries_untouched (fun pre d post hpre hd => ?_) (List.prefix_refl _)]
    · exact hbelow e.name _ (List.prefix_refl _)
    · exact absurd hd (hapart d (by simp [hpre]) e (by simp))
  have hwritten := @writeEntry_of_opens sha256 repo depth [['w']] e _ hopens
    (fun l hl _ c hthere => hfile l c ((writeEntries_way (depth + 1) hl front fs₁ c).mp hthere)) hempty
  -- what stands at the control name stays to the end
  refine ⟨depth + 2, [['w']], fs, fun huntouched => ?_⟩
  have hsame := huntouched.1 e.name hcontrol _ (List.prefix_refl _)
  have hbefore : fs ([['w']] ++ [e.name]) = none := by simp [fs]
  have hremoved : removeWorkingContent [['w']] fs = (.done, fs) := by simp [removeWorkingContent, fs]
  rw [hbefore, materialize, hremoved] at hsame
  simp only [writeTreeInto_of_tree hread hmake, hsplit, writeEntries_append (Prod.ext hdone rfl)] at hsame
  revert hsame
  by_cases hend : (writeEntry sha256 repo (writeTreeInto sha256 repo (depth + 1)) [['w']] e
      (writeEntries sha256 repo (writeTreeInto sha256 repo (depth + 1)) [['w']] front fs₁).2).1 = .done
  · rw [writeEntries_of_done (Prod.ext hend rfl)]
    exact (within_writeEntries (within_writeTreeInto (depth + 1)) _ back _).kept _ hwritten
  · rw [writeEntries_of_stop hend]
    exact hwritten

/-- A checkout leaves the control data of every directory as it was, and writes no file outside
    the directory, exactly where it meets no entry under a control name. -/
theorem materialize_untouched_iff (sha256 : List UInt8 → ObjectId) (repo : Repository) (id : ObjectId) :
    (∀ fuel dir fs, Untouched dir fs (materialize sha256 repo fuel id dir fs).2) ↔
      ¬ MeetsControl sha256 repo id := by
  constructor
  · intro huntouched hmeets
    obtain ⟨fuel, dir, fs, htouched⟩ := materialize_touches hmeets
    exact htouched (huntouched fuel dir fs)
  · exact fun h fuel dir fs => materialize_untouched h fuel dir fs

/-- A tree with an entry named `.git` replaces the file of that name. -/
theorem materialize_replaces_git :
    let sha256 := ObjectId.ofSha256
    let blob : Object := .blob [1]
    let tree : Object := .tree ((Tree.new.insert ".git".toList .blob (blob.id sha256)).toOption.getD .new)
    let repo := ((Repository.init.writeObject sha256 blob).2.writeObject sha256 tree).2
    let fs : Disk := fun l =>
      if l = [] ∨ l = [['w']] then some .directory
      else if l = [['w'], ".git".toList] then some (.file [7]) else none
    let r := materialize sha256 repo 1 (tree.id sha256) [['w']] fs
    r.1 = .done ∧ r.2 [['w'], ".git".toList] = some (.file [1]) := by
  decide +kernel

end

end Omoplata
