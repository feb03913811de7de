-- SUMMARY: A folder at its place on a disk: a checkout into the folder is a checkout on the disk.
import Omoplata.Work.Restore

/-!
# Folders on a disk

A folder stands in a directory of a disk: what the disk has below the directory is what
stands in the folder, under the names that are texts. A checkout into the folder and one
into the directory then end alike and leave such a folder again.
-/

open FileSystem Listing

namespace Omoplata

/-- What stands at a location of a disk, as a folder has it. -/
def leafEntry : Entry (List UInt8) → Entry Leaf
  | .directory => .directory
  | .file bytes => .file (.regular bytes)

theorem leafEntry_map_eq_directory {e : Option (Entry (List UInt8))} :
    e.map leafEntry = some .directory ↔ e = some .directory := by
  cases e with
  | none => simp
  | some e => cases e <;> simp [leafEntry]

/-- A place is what stands in a directory of a disk, under names that are texts. -/
structure Placed (dir : List Str) (fs : Disk) (place : Place) : Prop where
  way : ∀ front, front <+: dir → front ≠ [] → front ≠ dir → fs front = some .directory
  same : ∀ path, (fs (dir ++ path)).map leafEntry = contentAt place (path.map utf8)

/-- How a checkout below a directory ends on the disk, unless it stops at an entry of another kind. -/
def endOf (root : List Str) : Except FolderError Unit → Option CheckoutEnd
  | .ok () => some .done
  | .error (.store e) => some (.failed (.store e))
  | .error (.content reason) => some (.failed (.content reason))
  | .error (.io path) => some (.failed (.io (root ++ path)))
  | .error (.panicked p) => some (.panicked p)
  | .error .unfinished => some .unfinished
  | .error (.entryName ..) => none
  | .error (.special _) => none

/-- Two checkouts below a directory end alike, the one with the folder that the other leaves. -/
def Agree (root path : List Str) (r : Except FolderError Unit × Place) (r' : CheckoutEnd × Disk) : Prop :=
  endOf root r.1 = some r'.1 ∧ Placed (root ++ path) r'.2 r.2

namespace Placed

variable {dir : List Str} {fs fs' : Disk} {place : Place} {l : WorkListing} {name : Str}

theorem root (h : Placed dir fs place) : (fs dir).map leafEntry = contentAt place [] := by
  have hroot := h.same []
  rwa [List.append_nil] at hroot

theorem directory (h : Placed dir fs (some (.directory l))) : fs dir = some .directory :=
  leafEntry_map_eq_directory.mp (h.root.trans (by simp))

theorem absent (h : Placed dir fs none) : fs dir = none := by
  have hroot := h.root
  rwa [contentAt_none, Option.map_eq_none_iff] at hroot

/-- Where a leaf is placed stands a file. -/
theorem leaf {c : Leaf} (h : Placed dir fs (some (.leaf c))) : ∃ bytes, c = .regular bytes ∧ fs dir = some (.file bytes) := by
  have hroot := h.root
  rw [contentAt_leaf, if_pos rfl] at hroot
  obtain ⟨e, hentry, hleaf⟩ := Option.map_eq_some_iff.mp hroot
  cases e with
  | directory => cases hleaf
  | file bytes =>
      cases hleaf
      exact ⟨bytes, rfl, hentry⟩

/-- What a directory has under a name stands in it under the name. -/
theorem entry (h : Placed dir fs (some (.directory l))) (name : Str) : Placed (dir ++ [name]) fs (l.get (utf8 name)) := by
  refine ⟨fun front hfront hne hlast => ?_, fun path => ?_⟩
  · have hbefore := (List.prefix_concat_iff.mp hfront).resolve_left hlast
    by_cases heq : front = dir
    · rw [heq]
      exact h.directory
    · exact h.way front hbefore hne heq
  · have hpath := h.same (name :: path)
    rwa [List.map_cons, contentAt_directory, content_cons_path, List.append_cons] at hpath

/-- What changes in an entry of a directory changes in the folder under its name. -/
theorem setEntry (h : Placed dir fs (some (.directory l))) (hwithin : Within (dir ++ [name]) fs fs')
    (hentry : Placed (dir ++ [name]) fs' place) : Placed dir fs' (some (.directory (Folder.setPlace l (utf8 name) place))) := by
  have hkeeps : ∀ front, front <+: dir → fs front = some .directory → fs' front = some .directory := by
    intro front hfront hthere
    rcases hwithin.outside front (not_below_entry hfront name) with heq | ⟨-, hnone, -⟩
    · rw [heq]
      exact hthere
    · simp [hthere] at hnone
  -- nothing is removed
  have hstays : place = none → l.get (utf8 name) = none := by
    rintro rfl
    refine contentAt_nil_eq_none_iff.mp ?_
    rw [← (h.entry name).root, Option.map_eq_none_iff]
    by_contra hthere
    refine hwithin.kept _ hthere ?_
    rw [← Option.map_eq_none_iff, hentry.root, contentAt_none]
  refine ⟨fun front hfront hne hlast => hkeeps front hfront (h.way front hfront hne hlast), fun path => ?_⟩
  cases path with
  | nil => simp [hkeeps dir (List.prefix_refl _) h.directory, leafEntry]
  | cons n path =>
      rw [List.map_cons, contentAt_directory, content_cons_path, Folder.get_setPlace hstays, List.append_cons]
      split
      · rename_i hn
        rw [← utf8_injective hn]
        exact hentry.same path
      · rename_i hn
        rw [hwithin.other (fun heq => hn (congrArg utf8 heq.symm)) (List.prefix_append _ _)]
        exact (h.entry n).same path

/-- Something with nothing below it is put where nothing stands, or a file. -/
theorem update (h : Placed dir fs place) (hbelow : ∀ path, path ≠ [] → contentAt place path = none)
    {e : Entry (List UInt8)} {node : Node OsName Leaf} (hnode : contentAt (some node) [] = some (leafEntry e))
    (hempty : ∀ path, path ≠ [] → contentAt (some node) path = none) :
    Placed dir (Function.update fs dir (some e)) (some node) := by
  refine ⟨fun front hfront hne hlast => ?_, fun path => ?_⟩
  · rw [Function.update_of_ne hlast]
    exact h.way front hfront hne hlast
  · cases path with
    | nil => rw [List.append_nil, Function.update_self, Option.map_some, List.map_nil, hnode]
    | cons name path =>
        have hne : dir ++ name :: path ≠ dir := by simp
        rw [Function.update_of_ne hne, h.same, hbelow _ (by simp), hempty _ (by simp)]

end Placed

section

variable {sha256 : List UInt8 → ObjectId} {repo : Repository} {root : List Str}

/-- Writing a file to a place. -/
theorem writeFile_agree {path : List Str} {place : Place} {fs : Disk} (h : Placed (root ++ path) fs place)
    (bytes : List UInt8) :
    Agree root path
      (match Folder.writeFile path bytes place with
        | .error err => (.error err, place)
        | .ok place => (.ok (), place))
      (match writeAt fs (root ++ path) bytes with
        | none => (.failed (.io (root ++ path)), fs)
        | some fs => (.done, fs)) := by
  have hleaf : ∀ p : List OsName, p ≠ [] → contentAt (some (.leaf (.regular bytes))) p = (none : Option (Entry Leaf)) := by
    intro p hp
    rw [contentAt_leaf, if_neg hp]
  cases place with
  | none =>
      rw [writeAt_of_ne (by simp [h.absent])]
      exact ⟨rfl, h.update (fun _ _ => contentAt_none _) rfl hleaf⟩
  | some node =>
      cases node with
      | directory l =>
          unfold writeAt
          rw [h.directory]
          exact ⟨rfl, h⟩
      | leaf c =>
          obtain ⟨old, rfl, hfile⟩ := h.leaf
          rw [writeAt_of_ne (by simp [hfile])]
          exact ⟨rfl, h.update (fun p hp => by rw [contentAt_leaf, if_neg hp]) rfl hleaf⟩

theorem writeBlobInto_agree {path : List Str} {e : TreeEntry} (hkind : e.kind = .blob) {place : Place} {fs : Disk}
    (h : Placed (root ++ path) fs place)
    (writeTree : ObjectId → List Str → Place → Except FolderError Unit × Place) :
    Agree root path (Folder.writeEntry sha256 repo writeTree path e place)
      (writeBlobInto sha256 repo e (root ++ path) fs) := by
  unfold Folder.writeEntry writeBlobInto Folder.openBlob
  rw [hkind]
  cases repo.readObject sha256 e.id with
  | error p => exact ⟨rfl, h⟩
  | ok r =>
      cases r with
      | error err => exact ⟨rfl, h⟩
      | ok object =>
          cases object with
          | tree t => exact ⟨rfl, h⟩
          | blob bytes => exact writeFile_agree h bytes

/-- The loop over the entries of a tree, with writers of subtrees that agree. -/
theorem writeEntries_agree {writeTree : ObjectId → List Str → Place → Except FolderError Unit × Place}
    {writeTree' : ObjectId → List Str → Disk → CheckoutEnd × Disk}
    (hwriter : ∀ id path place fs, Placed (root ++ path) fs place →
      Agree root path (writeTree id path place) (writeTree' id (root ++ path) fs))
    (hwithin : ∀ id dir fs, Within dir fs (writeTree' id dir fs).2) (path : List Str) (entries : List TreeEntry)
    {l : WorkListing} {fs : Disk} (h : Placed (root ++ path) fs (some (.directory l))) :
    Agree root path ((Folder.writeEntries sha256 repo writeTree path entries l).1,
        some (.directory (Folder.writeEntries sha256 repo writeTree path entries l).2))
      (writeEntries sha256 repo writeTree' (root ++ path) entries fs) := by
  induction entries generalizing l fs with
  | nil => exact ⟨rfl, h⟩
  | cons e entries ih =>
      have hentry : Agree root (path ++ [e.name])
          (Folder.writeEntry sha256 repo writeTree (path ++ [e.name]) e (l.get (utf8 e.name)))
          (writeEntry sha256 repo writeTree' (root ++ path) e fs) := by
        have hplaced := h.entry e.name
        rw [List.append_assoc] at hplaced
        unfold writeEntry
        rw [List.append_assoc]
        cases hkind : e.kind with
        | blob => exact writeBlobInto_agree hkind hplaced writeTree
        | tree =>
            have hagree := hwriter e.id (path ++ [e.name]) _ fs hplaced
            unfold Folder.writeEntry
            rw [hkind]
            exact hagree
      have hin := @within_writeEntry sha256 repo writeTree' hwithin (root ++ path) e fs
      cases hwrite : Folder.writeEntry sha256 repo writeTree (path ++ [e.name]) e (l.get (utf8 e.name)) with
      | mk r place =>
          cases hwrite' : writeEntry sha256 repo writeTree' (root ++ path) e fs with
          | mk r' fs' =>
              rw [hwrite, hwrite', Agree, ← List.append_assoc] at hentry
              rw [hwrite'] at hin
              obtain ⟨hend, hplaced⟩ := hentry
              -- only the place of the entry has changed, so the listing with it set is placed again
              have hset := h.setEntry hin hplaced
              cases r with
              | ok u =>
                  obtain rfl : CheckoutEnd.done = r' := Option.some.inj hend
                  rw [Folder.writeEntries_of_ok hwrite, writeEntries_of_done hwrite']
                  exact ih hset
              -- the two writers stop at the same entry
              | error err =>
                  have hstop : r' ≠ .done := by
                    rintro rfl
                    cases err <;> cases hend
                  rw [Folder.writeEntries_of_error hwrite, writeEntries_of_stop (by rw [hwrite']; exact hstop), hwrite']
                  exact ⟨hend, hset⟩

theorem writeTreeInto_agree (hroot : root ≠ []) (fuel : Nat) (id : ObjectId) (path : List Str) (place : Place) (fs : Disk)
    (h : Placed (root ++ path) fs place) :
    Agree root path (Folder.writeTreeInto sha256 repo fuel id path place)
      (writeTreeInto sha256 repo fuel id (root ++ path) fs) := by
  induction fuel generalizing id path place fs with
  | zero => exact ⟨rfl, h⟩
  | succ fuel ih =>
      unfold Folder.writeTreeInto writeTreeInto Folder.openTree
      cases repo.readObject sha256 id with
      | error p => exact ⟨rfl, h⟩
      | ok r =>
          cases r with
          | error err => exact ⟨rfl, h⟩
          | ok object =>
              cases object with
              | blob bytes => exact ⟨rfl, h⟩
              | tree t =>
                  have hmake := @makeDirs_of_way _ _ _ fs [] (root ++ path) h.way (by simp [hroot])
                  rw [List.nil_append] at hmake
                  simp only [hmake]
                  have hentries : ∀ l fs, Placed (root ++ path) fs (some (.directory l)) → _ :=
                    fun l fs => @writeEntries_agree sha256 repo root _ _ ih (within_writeTreeInto fuel) path t.entries l fs
                  cases place with
                  | none =>
                      rw [h.absent]
                      refine hentries .nil _ (h.update (fun _ _ => contentAt_none _) (by simp [leafEntry]) fun p hp => ?_)
                      cases p with
                      | nil => exact absurd rfl hp
                      | cons name p => simp
                  | some node =>
                      cases node with
                      | directory l =>
                          rw [h.directory]
                          exact hentries l fs h
                      | leaf c =>
                          obtain ⟨bytes, rfl, hfile⟩ := h.leaf
                          rw [hfile]
                          exact ⟨rfl, h⟩

theorem isControlName_utf8 (name : Str) : isControlName (utf8 name) = controlNames.contains name := by
  unfold isControlName
  rw [fromUtf8_utf8]

/-- A directory is cleared as the folder in it. -/
theorem Placed.clear {dir : List Str} {fs : Disk} {l : WorkListing} (h : Placed dir fs (some (.directory l))) :
    Placed dir (clearBelow fs dir controlNames) (some (.directory (l.filter isControlName))) := by
  refine ⟨fun front hfront hne hlast => ?_, fun path => ?_⟩
  · rw [clearBelow_of_keep]
    · exact h.way front hfront hne hlast
    · rintro name rest rfl
      exact absurd hfront.length_le (by simp)
  · cases path with
    | nil =>
        rw [clearBelow_of_keep (by simp), List.append_nil, h.directory]
        simp [leafEntry]
    | cons name path =>
        rw [List.map_cons, contentAt_directory, content_cons_path, get_filter, isControlName_utf8]
        have hpath := h.same (name :: path)
        rw [List.map_cons, contentAt_directory, content_cons_path] at hpath
        by_cases hname : name ∈ controlNames
        · rw [clearBelow_of_keep, if_pos (by simpa using hname)]
          · exact hpath
          · intro name' rest heq
            rw [List.append_cancel_left_eq, List.cons.injEq] at heq
            exact heq.1 ▸ hname
        · rw [if_neg (by simpa using hname), contentAt_none, clearBelow, List.drop_left]
          simp [hname]

/-- A checkout into a folder that stands on a disk is the checkout on the disk. -/
theorem materialize_agree (hroot : root ≠ []) (fuel : Nat) (id : ObjectId) {place : Place} {fs : Disk}
    (h : Placed root fs place) :
    Agree root [] (Folder.materialize sha256 repo fuel id place) (materialize sha256 repo fuel id root fs) := by
  have htree : ∀ fs place, Placed root fs place → Agree root [] (Folder.writeTreeInto sha256 repo fuel id [] place)
      (writeTreeInto sha256 repo fuel id root fs) := by
    intro fs place hplaced
    have hagree := @writeTreeInto_agree sha256 repo root hroot fuel id [] place fs
    rw [List.append_nil] at hagree
    exact hagree hplaced
  unfold Folder.materialize materialize Folder.removeWorkingContent removeWorkingContent
  cases place with
  | none =>
      rw [h.absent]
      exact htree fs none h
  | some node =>
      cases node with
      | directory l =>
          rw [h.directory]
          exact htree _ _ h.clear
      | leaf c =>
          obtain ⟨bytes, rfl, hfile⟩ := h.leaf
          rw [hfile]
          refine ⟨by simp [endOf], ?_⟩
          rw [List.append_nil]
          exact h

end

end Omoplata
