-- SUMMARY: What a checkout into a folder leaves: what the store has of the tree, over what was kept.
import Omoplata.Work.Snapshot

/-!
# Checkouts into folders

A checkout reads the objects of a tree in order and writes each as it is read. So what it
leaves is what the store has of the tree, up to the first object that fails, over what it
did not remove.
-/

open Listing

namespace Omoplata

/-- An error that an object of the store is the reason of. -/
def FolderError.FromStore : FolderError → Prop
  | .store _ => True
  | .content _ => True
  | _ => False

namespace Folder

variable (sha256 : List UInt8 → ObjectId) (repo : Repository)

/-! ## What the store has of a tree -/

/-- List what is at a place under a name, in front of other entries. -/
def consPlace (name : OsName) : Place → WorkListing → WorkListing
  | none, l => l
  | some node, l => cons name node l

/-- What the store has for an entry; `storedTree` gives a subtree. -/
def storedEntry (storedTree : ObjectId → Except FolderError Unit × Place) (e : TreeEntry) :
    Except FolderError Unit × Place :=
  match e.kind with
  | .blob =>
      match openBlob sha256 repo e with
      | .error err => (.error err, none)
      | .ok bytes => (.ok (), some (.leaf (.regular bytes)))
  | .tree => storedTree e.id

/-- What the store has of the entries of a tree, up to the first object that fails. -/
def storedEntries (storedTree : ObjectId → Except FolderError Unit × Place) :
    List TreeEntry → Except FolderError Unit × WorkListing
  | [] => (.ok (), .nil)
  | e :: entries =>
      match storedEntry sha256 repo storedTree e with
      | (.error err, place) => (.error err, consPlace (utf8 e.name) place .nil)
      | (.ok (), place) =>
          let (r, l) := storedEntries storedTree entries
          (r, consPlace (utf8 e.name) place l)

/-- What the store has of a tree, up to the first object that fails. -/
def stored : Nat → ObjectId → Except FolderError Unit × Place
  | 0, _ => (.error .unfinished, none)
  | fuel + 1, id =>
      match openTree sha256 repo id with
      | .error e => (.error e, none)
      | .ok t =>
          let (r, l) := storedEntries sha256 repo (stored fuel) t.entries
          (r, some (.directory l))

variable {sha256} {repo}

theorem storedEntries_of_error {storedTree : ObjectId → Except FolderError Unit × Place} {e : TreeEntry}
    {err : FolderError} (h : (storedEntry sha256 repo storedTree e).1 = .error err) (entries : List TreeEntry) :
    storedEntries sha256 repo storedTree (e :: entries) =
      (.error err, consPlace (utf8 e.name) (storedEntry sha256 repo storedTree e).2 .nil) := by
  have hentry : storedEntry sha256 repo storedTree e = (.error err, (storedEntry sha256 repo storedTree e).2) :=
    Prod.ext h rfl
  rw [storedEntries, hentry]

theorem storedEntries_of_ok {storedTree : ObjectId → Except FolderError Unit × Place} {e : TreeEntry}
    (h : (storedEntry sha256 repo storedTree e).1 = .ok ()) (entries : List TreeEntry) :
    storedEntries sha256 repo storedTree (e :: entries) =
      ((storedEntries sha256 repo storedTree entries).1,
        consPlace (utf8 e.name) (storedEntry sha256 repo storedTree e).2
          (storedEntries sha256 repo storedTree entries).2) := by
  have hentry : storedEntry sha256 repo storedTree e = (.ok (), (storedEntry sha256 repo storedTree e).2) :=
    Prod.ext h rfl
  rw [storedEntries, hentry]

theorem names_consPlace {name : OsName} {place : Place} {l : WorkListing} {n : OsName}
    (h : n ∈ (consPlace name place l).names) : n = name ∨ n ∈ l.names := by
  cases place with
  | none => exact .inr h
  | some node =>
      rw [consPlace, names_cons] at h
      exact List.mem_cons.mp h

theorem get_consPlace {name : OsName} {place : Place} {l : WorkListing} (h : name ∉ l.names) (n : OsName) :
    (consPlace name place l).get n = if name = n then place else l.get n := by
  cases place with
  | none =>
      rw [← get_eq_none_iff] at h
      by_cases hn : name = n
      · rw [if_pos hn, ← hn]
        exact h
      · rw [if_neg hn, consPlace]
  | some node => exact get_cons name node l n

/-- The names under which the store has something of a tree are names of its entries. -/
theorem names_storedEntries {storedTree : ObjectId → Except FolderError Unit × Place} {entries : List TreeEntry}
    {n : OsName} (h : n ∈ (storedEntries sha256 repo storedTree entries).2.names) :
    ∃ e ∈ entries, n = utf8 e.name := by
  induction entries with
  | nil => cases h
  | cons e entries ih =>
      cases hstored : (storedEntry sha256 repo storedTree e).1 with
      | error err =>
          rw [storedEntries_of_error hstored] at h
          cases names_consPlace h with
          | inl heq => exact ⟨e, by simp, heq⟩
          | inr hnil => cases hnil
      | ok u =>
          rw [storedEntries_of_ok hstored] at h
          cases names_consPlace h with
          | inl heq => exact ⟨e, by simp, heq⟩
          | inr hrest =>
              obtain ⟨d, hd, hn⟩ := ih hrest
              exact ⟨d, List.mem_cons_of_mem _ hd, hn⟩

/-- The name of an entry is none of those behind it. -/
theorem notMem_storedEntries {storedTree : ObjectId → Except FolderError Unit × Place} {e : TreeEntry}
    {entries : List TreeEntry} (h : ∀ d ∈ entries, e.name ≠ d.name) :
    utf8 e.name ∉ (storedEntries sha256 repo storedTree entries).2.names := by
  intro hmem
  obtain ⟨d, hd, heq⟩ := names_storedEntries hmem
  exact h d hd (utf8_injective heq)

/-! ## What a checkout writes -/

/-- The end of a run that all has been written in, or that an object of the store has stopped. -/
def Told (r : Except FolderError Unit) : Prop := ∀ e, r = .error e → e.FromStore

theorem told_ok (u : Unit) : Told (.ok u) := by
  intro e h
  cases h

/-- What is written is what the store has, over what was there. -/
def Overlays (r : Except FolderError Unit × Place) (before after : Place) : Prop :=
  ∀ path, contentAt after path = (contentAt r.2 path).or (contentAt before path)

theorem get_setPlace {l : WorkListing} {name : OsName} {place : Place} (h : place = none → l.get name = none)
    (n : OsName) : (setPlace l name place).get n = if name = n then place else l.get n := by
  cases place with
  | none =>
      by_cases hn : name = n
      · rw [if_pos hn, ← hn]
        exact h rfl
      · rw [if_neg hn, setPlace]
  | some node => exact get_put l name node n

/-- Where something was there is something after an overlay. -/
theorem Overlays.eq_none {r : Except FolderError Unit × Place} {before after : Place} (h : Overlays r before after)
    (hnone : after = none) : before = none := by
  have hroot := h []
  rw [hnone, contentAt_none] at hroot
  exact contentAt_nil_eq_none_iff.mp (Option.or_eq_none_iff.mp hroot.symm).2

/-- What a writer of trees is told by the store. -/
def Writes (writeTree : ObjectId → List Str → Place → Except FolderError Unit × Place)
    (storedTree : ObjectId → Except FolderError Unit × Place) : Prop :=
  ∀ id path place, Told (writeTree id path place).1 →
    (writeTree id path place).1 = (storedTree id).1 ∧ Overlays (storedTree id) place (writeTree id path place).2

theorem writeEntry_spec {writeTree : ObjectId → List Str → Place → Except FolderError Unit × Place}
    {storedTree : ObjectId → Except FolderError Unit × Place} (h : Writes writeTree storedTree)
    (path : List Str) (e : TreeEntry) (place : Place)
    (htold : Told (writeEntry sha256 repo writeTree path e place).1) :
    (writeEntry sha256 repo writeTree path e place).1 = (storedEntry sha256 repo storedTree e).1 ∧
      Overlays (storedEntry sha256 repo storedTree e) place (writeEntry sha256 repo writeTree path e place).2 := by
  unfold writeEntry storedEntry at *
  cases hkind : e.kind with
  | tree =>
      simp only [hkind] at htold ⊢
      exact h e.id path place htold
  | blob =>
      simp only [hkind] at htold ⊢
      cases hopen : openBlob sha256 repo e with
      | error err => exact ⟨rfl, fun p => by simp⟩
      | ok bytes =>
          simp only [hopen] at htold ⊢
          cases place with
          | none => exact ⟨rfl, fun p => by simp [writeFile]⟩
          | some node =>
              cases node with
              | directory l => exact (htold _ rfl).elim
              | leaf c =>
                  cases c with
                  | special what => exact (htold _ rfl).elim
                  | regular old =>
                      refine ⟨rfl, fun p => ?_⟩
                      simp only [writeFile, contentAt_leaf]
                      split <;> rfl

theorem writeEntries_of_error {writeTree : ObjectId → List Str → Place → Except FolderError Unit × Place}
    {path : List Str} {e : TreeEntry} {l : WorkListing} {err : FolderError} {place : Place}
    (h : writeEntry sha256 repo writeTree (path ++ [e.name]) e (l.get (utf8 e.name)) = (.error err, place))
    (entries : List TreeEntry) :
    writeEntries sha256 repo writeTree path (e :: entries) l = (.error err, setPlace l (utf8 e.name) place) := by
  rw [writeEntries, h]

theorem writeEntries_of_ok {writeTree : ObjectId → List Str → Place → Except FolderError Unit × Place}
    {path : List Str} {e : TreeEntry} {l : WorkListing} {place : Place}
    (h : writeEntry sha256 repo writeTree (path ++ [e.name]) e (l.get (utf8 e.name)) = (.ok (), place))
    (entries : List TreeEntry) :
    writeEntries sha256 repo writeTree path (e :: entries) l =
      writeEntries sha256 repo writeTree path entries (setPlace l (utf8 e.name) place) := by
  rw [writeEntries, h]

theorem writeEntries_spec {writeTree : ObjectId → List Str → Place → Except FolderError Unit × Place}
    {storedTree : ObjectId → Except FolderError Unit × Place} (h : Writes writeTree storedTree)
    (path : List Str) {entries : List TreeEntry} (hnames : entries.Pairwise fun e e' => e.name ≠ e'.name)
    (l : WorkListing) (htold : Told (writeEntries sha256 repo writeTree path entries l).1) :
    (writeEntries sha256 repo writeTree path entries l).1 = (storedEntries sha256 repo storedTree entries).1 ∧
      ∀ n p, contentAt ((writeEntries sha256 repo writeTree path entries l).2.get n) p =
        (contentAt ((storedEntries sha256 repo storedTree entries).2.get n) p).or (contentAt (l.get n) p) := by
  induction entries generalizing l with
  | nil => exact ⟨rfl, fun n p => by simp [writeEntries, storedEntries]⟩
  | cons e entries ih =>
      obtain ⟨hhead, htail⟩ := List.pairwise_cons.mp hnames
      cases hwrite : writeEntry sha256 repo writeTree (path ++ [e.name]) e (l.get (utf8 e.name)) with
      | mk r place =>
          have hentry := @writeEntry_spec sha256 repo _ _ h (path ++ [e.name]) e (l.get (utf8 e.name))
          rw [hwrite] at hentry
          cases r with
          -- where the store has the reason, both loops end at this entry
          | error err =>
              rw [writeEntries_of_error hwrite] at htold ⊢
              obtain ⟨hend, hover⟩ := hentry htold
              rw [storedEntries_of_error hend.symm]
              refine ⟨rfl, fun n p => ?_⟩
              rw [get_setPlace hover.eq_none, get_consPlace List.not_mem_nil]
              split
              · rename_i hn
                exact hn ▸ hover p
              · simp
          | ok u =>
              rw [writeEntries_of_ok hwrite] at htold ⊢
              obtain ⟨hend, hover⟩ := hentry (told_ok u)
              obtain ⟨hends, hrest⟩ := ih htail (setPlace l (utf8 e.name) place) htold
              rw [storedEntries_of_ok hend.symm]
              -- no later entry has this name, so what was written for it stays
              have hfresh : utf8 e.name ∉ (storedEntries sha256 repo storedTree entries).2.names :=
                notMem_storedEntries hhead
              refine ⟨hends, fun n p => ?_⟩
              rw [hrest n p, get_setPlace hover.eq_none, get_consPlace hfresh]
              split
              · rename_i hn
                subst hn
                rw [get_eq_none_iff.mpr hfresh, contentAt_none, Option.none_or]
                exact hover p
              · rfl

theorem makeDirectory_ok {path : List Str} {place : Place} {l : WorkListing} (h : makeDirectory path place = .ok l)
    (n : OsName) (p : List OsName) : contentAt place (n :: p) = contentAt (l.get n) p := by
  unfold makeDirectory at h
  split at h
  · cases h
    simp
  · cases h
    rw [contentAt_directory, content_cons_path]
  · cases h
  · cases h

theorem makeDirectory_error {path : List Str} {place : Place} {e : FolderError}
    (h : makeDirectory path place = .error e) : ¬ e.FromStore := by
  unfold makeDirectory at h
  split at h
  · cases h
  · cases h
  · cases h
    exact id
  · cases h
    exact id

/-- A run that all has been written in, or that an object has stopped, writes what the store
    has over what was there. -/
theorem writes_writeTreeInto (fuel : Nat) : Writes (writeTreeInto sha256 repo fuel) (stored sha256 repo fuel) := by
  induction fuel with
  | zero => exact fun id path place htold => (htold _ rfl).elim
  | succ fuel ih =>
      intro id path place htold
      unfold writeTreeInto stored at *
      cases hopen : openTree sha256 repo id with
      | error e => exact ⟨rfl, fun p => by simp⟩
      | ok t =>
          cases hmake : makeDirectory path place with
          | error e =>
              simp only [hopen, hmake] at htold
              exact absurd (htold e rfl) (makeDirectory_error hmake)
          | ok l =>
              simp only [hopen, hmake] at htold ⊢
              obtain ⟨hend, hcontent⟩ := writeEntries_spec ih path t.pairwise_names l htold
              refine ⟨hend, fun p => ?_⟩
              cases p with
              | nil => simp
              | cons n p =>
                  rw [makeDirectory_ok hmake]
                  simpa using hcontent n p

/-- What stands at a path behind the removal of everything but control entries. -/
def keptContent (place : Place) : List OsName → Option (FileSystem.Entry Leaf)
  | [] => contentAt place []
  | name :: path => if isControlName name then contentAt place (name :: path) else none

theorem keptContent_cons (place : Place) (name : OsName) (path : List OsName) :
    keptContent place (name :: path) = if isControlName name then contentAt place (name :: path) else none := rfl

theorem removeWorkingContent_ok {place cleared : Place} (h : removeWorkingContent place = .ok cleared)
    (path : List OsName) : contentAt cleared path = keptContent place path := by
  unfold removeWorkingContent at h
  split at h
  · cases h
    cases path <;> simp [keptContent]
  · rename_i l
    cases h
    cases path with
    | nil => simp [keptContent]
    | cons name path =>
        rw [contentAt_directory, content_cons_path, get_filter, keptContent, contentAt_directory, content_cons_path]
        split
        · rfl
        · simp
  · cases h

/-- A checkout that the store tells of is one into a directory, or where nothing is. -/
theorem removeWorkingContent_of_told {fuel : Nat} {id : ObjectId} {place : Place}
    (h : Told (materialize sha256 repo fuel id place).1) :
    (∃ cleared, removeWorkingContent place = .ok cleared) ∧ (place = none ∨ ∃ l, place = some (.directory l)) := by
  cases place with
  | none => exact ⟨⟨none, rfl⟩, .inl rfl⟩
  | some node =>
      cases node with
      | directory l => exact ⟨⟨_, rfl⟩, .inr ⟨l, rfl⟩⟩
      | leaf c => exact (h _ rfl).elim

theorem materialize_spec {fuel : Nat} {id : ObjectId} {place : Place}
    (h : Told (materialize sha256 repo fuel id place).1) :
    (materialize sha256 repo fuel id place).1 = (stored sha256 repo fuel id).1 ∧
      ∀ path, contentAt (materialize sha256 repo fuel id place).2 path =
        (contentAt (stored sha256 repo fuel id).2 path).or (keptContent place path) := by
  obtain ⟨⟨cleared, hremove⟩, -⟩ := removeWorkingContent_of_told h
  unfold materialize at *
  simp only [hremove] at h ⊢
  obtain ⟨hend, hover⟩ := writes_writeTreeInto fuel id [] cleared h
  exact ⟨hend, fun path => by rw [hover path, removeWorkingContent_ok hremove]⟩

/-- What the store has of a tree is a directory. -/
theorem stored_place (fuel : Nat) (id : ObjectId) :
    (stored sha256 repo fuel id).2 = none ∨ ∃ l, (stored sha256 repo fuel id).2 = some (.directory l) := by
  cases fuel with
  | zero => exact .inl rfl
  | succ fuel =>
      unfold stored
      cases openTree sha256 repo id with
      | error e => exact .inl rfl
      | ok t => exact .inr ⟨_, rfl⟩

/-! ## A checkout where nothing stands -/

theorem get_setPlace_of_ne {l : WorkListing} {name n : OsName} (h : name ≠ n) (place : Place) :
    (setPlace l name place).get n = l.get n := by
  cases place with
  | none => rfl
  | some node => rw [setPlace, get_put, if_neg h]

/-- Entries that are written where nothing stands are written as far as the store has them. -/
theorem writeEntries_fresh {writeTree : ObjectId → List Str → Place → Except FolderError Unit × Place}
    {storedTree : ObjectId → Except FolderError Unit × Place}
    (h : ∀ id path, (writeTree id path none).1 = (storedTree id).1) (path : List Str) {entries : List TreeEntry}
    (hnames : entries.Pairwise fun e e' => e.name ≠ e'.name) {l : WorkListing}
    (hfresh : ∀ e ∈ entries, l.get (utf8 e.name) = none) :
    (writeEntries sha256 repo writeTree path entries l).1 = (storedEntries sha256 repo storedTree entries).1 := by
  induction entries generalizing l with
  | nil => rfl
  | cons e entries ih =>
      obtain ⟨hhead, htail⟩ := List.pairwise_cons.mp hnames
      have hentry : (writeEntry sha256 repo writeTree (path ++ [e.name]) e (l.get (utf8 e.name))).1 =
          (storedEntry sha256 repo storedTree e).1 := by
        rw [hfresh e (by simp)]
        unfold writeEntry storedEntry
        cases e.kind with
        | tree => exact h e.id _
        | blob =>
            cases openBlob sha256 repo e with
            | error err => rfl
            | ok bytes => rfl
      cases hwrite : writeEntry sha256 repo writeTree (path ++ [e.name]) e (l.get (utf8 e.name)) with
      | mk r place =>
          rw [hwrite] at hentry
          cases r with
          | error err => rw [writeEntries_of_error hwrite, storedEntries_of_error hentry.symm]
          | ok u =>
              rw [writeEntries_of_ok hwrite, storedEntries_of_ok hentry.symm]
              refine ih htail fun d hd => ?_
              rw [get_setPlace_of_ne fun heq => hhead d hd (utf8_injective heq)]
              exact hfresh d (List.mem_cons_of_mem _ hd)

theorem writeTreeInto_none (fuel : Nat) (id : ObjectId) (path : List Str) :
    (writeTreeInto sha256 repo fuel id path none).1 = (stored sha256 repo fuel id).1 := by
  induction fuel generalizing id path with
  | zero => rfl
  | succ fuel ih =>
      unfold writeTreeInto stored
      cases openTree sha256 repo id with
      | error e => rfl
      | ok t => exact writeEntries_fresh ih path t.pairwise_names fun _ _ => rfl

/-- A tree none of whose entries is there already is written as far as the store has it. -/
theorem writeTreeInto_clear (fuel : Nat) (id : ObjectId) (path : List Str) {l : WorkListing}
    (h : ∀ t, openTree sha256 repo id = .ok t → ∀ e ∈ t.entries, l.get (utf8 e.name) = none) :
    (writeTreeInto sha256 repo fuel id path (some (.directory l))).1 = (stored sha256 repo fuel id).1 := by
  cases fuel with
  | zero => rfl
  | succ fuel =>
      unfold writeTreeInto stored
      cases hopen : openTree sha256 repo id with
      | error e => rfl
      | ok t => exact writeEntries_fresh (writeTreeInto_none fuel) path t.pairwise_names (h t hopen)

/-! ## Names stay apart -/

/-- No directory at a place lists a name twice. -/
def PlaceApart (place : Place) : Prop := ∀ node, place = some node → node.Apart

theorem apart_setPlace {l : WorkListing} (h : l.Apart) {place : Place} (hplace : PlaceApart place) (name : OsName) :
    (setPlace l name place).Apart := by
  cases place with
  | none => exact h
  | some node => exact h.put (hplace node rfl) name

theorem apart_writeEntries {writeTree : ObjectId → List Str → Place → Except FolderError Unit × Place}
    (h : ∀ id path place, PlaceApart place → PlaceApart (writeTree id path place).2) (path : List Str)
    (entries : List TreeEntry) {l : WorkListing} (hl : l.Apart) :
    (writeEntries sha256 repo writeTree path entries l).2.Apart := by
  induction entries generalizing l with
  | nil => exact hl
  | cons e entries ih =>
      have hentry : PlaceApart (writeEntry sha256 repo writeTree (path ++ [e.name]) e (l.get (utf8 e.name))).2 := by
        have hthere : PlaceApart (l.get (utf8 e.name)) := fun node hget => hl.get hget
        unfold writeEntry
        cases e.kind with
        | tree => exact h _ _ _ hthere
        | blob =>
            cases openBlob sha256 repo e with
            | error err => exact hthere
            | ok bytes =>
                dsimp only
                split
                · exact hthere
                · rename_i place hwrite
                  unfold writeFile at hwrite
                  split at hwrite
                  · cases hwrite
                  · cases hwrite
                  · cases hwrite
                    rintro node ⟨⟩
                    trivial
      cases hwrite : writeEntry sha256 repo writeTree (path ++ [e.name]) e (l.get (utf8 e.name)) with
      | mk r place =>
          rw [hwrite] at hentry
          cases r with
          | error err =>
              rw [writeEntries_of_error hwrite]
              exact apart_setPlace hl hentry _
          | ok u =>
              rw [writeEntries_of_ok hwrite]
              exact ih (apart_setPlace hl hentry _)

theorem apart_writeTreeInto (fuel : Nat) (id : ObjectId) (path : List Str) {place : Place} (h : PlaceApart place) :
    PlaceApart (writeTreeInto sha256 repo fuel id path place).2 := by
  induction fuel generalizing id path place with
  | zero => exact h
  | succ fuel ih =>
      unfold writeTreeInto
      cases openTree sha256 repo id with
      | error e => exact h
      | ok t =>
          cases hmake : makeDirectory path place with
          | error e => exact h
          | ok l =>
              have hl : l.Apart := by
                unfold makeDirectory at hmake
                split at hmake
                · cases hmake
                  trivial
                · cases hmake
                  exact h _ rfl
                · cases hmake
                · cases hmake
              rintro node ⟨⟩
              exact apart_writeEntries (fun id path place hplace => ih id path hplace) path t.entries hl

/-- A checkout leaves no directory that lists a name twice. -/
theorem apart_materialize (fuel : Nat) (id : ObjectId) {place : Place} (h : PlaceApart place) :
    PlaceApart (materialize sha256 repo fuel id place).2 := by
  unfold materialize
  cases hremove : removeWorkingContent place with
  | error e => exact h
  | ok cleared =>
      refine apart_writeTreeInto fuel id [] ?_
      unfold removeWorkingContent at hremove
      split at hremove
      · cases hremove
        exact nofun
      · cases hremove
        rintro node ⟨⟩
        exact Apart.filter (h _ rfl) _
      · cases hremove

/-- The entries of a directory at a place. -/
def listingAt : Place → WorkListing
  | some (.directory l) => l
  | _ => .nil

theorem apart_listingAt {place : Place} (h : PlaceApart place) : (listingAt place).Apart := by
  unfold listingAt
  split
  · exact h _ rfl
  · trivial

/-- Check a tree out into a folder. -/
def checkout (sha256 : List UInt8 → ObjectId) (repo : Repository) (fuel : Nat) (id : ObjectId) (folder : WorkFolder) :
    Except FolderError Unit × WorkFolder :=
  let r := materialize sha256 repo fuel id (some (.directory folder.listing))
  (r.1, ⟨listingAt r.2, apart_listingAt (apart_materialize fuel id (by
    rintro node ⟨⟩
    exact folder.apart))⟩)

theorem apart_storedEntries {storedTree : ObjectId → Except FolderError Unit × Place}
    (h : ∀ id, PlaceApart (storedTree id).2) {entries : List TreeEntry}
    (hnames : entries.Pairwise fun e e' => e.name ≠ e'.name) :
    (storedEntries sha256 repo storedTree entries).2.Apart := by
  have hcons : ∀ {name : OsName} {place : Place} {l : WorkListing}, PlaceApart place → name ∉ l.names → l.Apart →
      (consPlace name place l).Apart := by
    intro name place l hplace hfresh hl
    cases place with
    | none => exact hl
    | some node => exact (apart_cons _ _ _).mpr ⟨hfresh, hplace node rfl, hl⟩
  induction entries with
  | nil => trivial
  | cons e entries ih =>
      obtain ⟨hhead, htail⟩ := List.pairwise_cons.mp hnames
      have hentry : PlaceApart (storedEntry sha256 repo storedTree e).2 := by
        unfold storedEntry
        cases e.kind with
        | tree => exact h e.id
        | blob =>
            cases openBlob sha256 repo e with
            | error err => exact nofun
            | ok bytes =>
                rintro node ⟨⟩
                trivial
      cases hstored : (storedEntry sha256 repo storedTree e).1 with
      | error err =>
          rw [storedEntries_of_error hstored]
          exact hcons hentry List.not_mem_nil trivial
      | ok u =>
          rw [storedEntries_of_ok hstored]
          exact hcons hentry (notMem_storedEntries hhead) (ih htail)

theorem apart_stored (fuel : Nat) (id : ObjectId) : PlaceApart (stored sha256 repo fuel id).2 := by
  induction fuel generalizing id with
  | zero => exact nofun
  | succ fuel ih =>
      unfold stored
      cases openTree sha256 repo id with
      | error e => exact nofun
      | ok t =>
          rintro node ⟨⟩
          exact apart_storedEntries ih t.pairwise_names

/-! ## A checkout that fails -/

/-- A directory holds what the store has of a tree up to the first object that fails, its
    control entries apart, and below them at least that. -/
structure HoldsFront (front place : Place) : Prop where
  root : place = none → front = none
  working : ∀ name path, isControlName name = false → contentAt place (name :: path) = contentAt front (name :: path)
  control : ∀ name path c, isControlName name = true → contentAt front (name :: path) = some c →
    contentAt place (name :: path) = some c

/-- A checkout that fails because of the store leaves the directory as it was exactly where it
    holds what the store has of the tree up to the first object that fails. -/
theorem materialize_unchanged_iff (sha256 : List UInt8 → ObjectId) (repo : Repository) (fuel : Nat) (id : ObjectId)
    (place : Place) {e : FolderError} (h : (materialize sha256 repo fuel id place).1 = .error e)
    (hstore : e.FromStore) :
    (∀ path, contentAt (materialize sha256 repo fuel id place).2 path = contentAt place path) ↔
      HoldsFront (stored sha256 repo fuel id).2 place := by
  -- the checkout ended at what the store said, so it got as far as the store goes
  have htold : Told (materialize sha256 repo fuel id place).1 := by
    rw [h]
    rintro e' ⟨⟩
    exact hstore
  obtain ⟨-, hcontent⟩ := materialize_spec htold
  obtain ⟨-, hplace⟩ := removeWorkingContent_of_told htold
  have hfront := @stored_place sha256 repo fuel id
  simp only [hcontent]
  generalize (stored sha256 repo fuel id).2 = front at hfront
  constructor
  · intro hsame
    refine ⟨fun hnone => ?_, fun name path hname => ?_, fun name path c hname hfront => ?_⟩
    · have hroot := hsame []
      rw [hnone, keptContent, contentAt_none, Option.or_none] at hroot
      exact contentAt_nil_eq_none_iff.mp hroot
    · rw [← hsame (name :: path), keptContent_cons, hname]
      simp
    · rw [← hsame (name :: path), hfront, Option.some_or]
  · intro hholds path
    cases path with
    | nil =>
        rcases hfront with rfl | ⟨l, rfl⟩
        · simp [keptContent]
        · rcases hplace with rfl | ⟨l', rfl⟩
          · cases hholds.root rfl
          · simp
    | cons name path =>
        rw [keptContent_cons]
        -- what is removed and not written back is lost, the control entries apart
        cases hname : isControlName name with
        | false =>
            rw [hholds.working name path hname]
            simp
        | true =>
            rw [if_pos rfl]
            cases hthere : contentAt front (name :: path) with
            | none => rfl
            | some c => rw [hholds.control name path c hname hthere, Option.some_or]

/-- A tree with two files, the second of which is not in the store, is checked out into a directory
    that holds the first: nothing changes. -/
theorem materialize_unchanged_iff_partial :
    let sha256 := ObjectId.ofSha256
    let tree : Object := .tree (.build [⟨"f".toList, .blob, (Object.blob [1]).id sha256⟩,
      ⟨"g".toList, .blob, (Object.blob [2]).id sha256⟩])
    let repo := ((Repository.init.writeObject sha256 (.blob [1])).2.writeObject sha256 tree).2
    let dir : Place := some (.directory (.leaf (utf8 ".git".toList) (.regular [7])
      (.leaf (utf8 "f".toList) (.regular [1]) .nil)))
    ∀ path, contentAt (materialize sha256 repo 2 (tree.id sha256) dir).2 path = contentAt dir path := by
  intro sha256 tree repo dir
  have hfails : (materialize sha256 repo 2 (tree.id sha256) dir).1 =
      .error (.store (.objectNotFound ((Object.blob [2]).id sha256))) := by decide +kernel
  have hfront : (stored sha256 repo 2 (tree.id sha256)).2 =
      some (.directory (.leaf (utf8 "f".toList) (.regular [1]) .nil)) := by decide +kernel
  refine (materialize_unchanged_iff sha256 repo 2 (tree.id sha256) dir hfails trivial).mpr ?_
  rw [hfront]
  refine ⟨nofun, fun name path hname => ?_, fun name path c hname hthere => ?_⟩
  · -- no other entry than the control one is missing in what the store has
    have hne : utf8 ".git".toList ≠ name := by
      rintro rfl
      exact absurd hname (by decide)
    rw [contentAt_directory, contentAt_directory, content_cons_path, content_cons_path]
    simp only [Listing.get, if_neg hne]
  · have hne : utf8 "f".toList ≠ name := by
      rintro rfl
      exact absurd hname (by decide)
    rw [contentAt_directory, content_cons_path, Listing.get, if_neg hne, Listing.get, contentAt_none] at hthere
    cases hthere

/-- A checkout that finds no tree has removed the files of the directory. -/
theorem materialize_loses_file :
    let sha256 := ObjectId.ofSha256
    let blob : Object := .blob [1]
    let repo := (Repository.init.writeObject sha256 blob).2
    let dir : Place := some (.directory (.leaf (utf8 "a".toList) (.regular [7]) .nil))
    let r := materialize sha256 repo 1 (blob.id sha256) dir
    r.1 = .error (.content (notTreeText (blob.id sha256))) ∧ r.2 = some (.directory .nil) ∧
      contentAt dir [utf8 "a".toList] = some (.file (.regular [7])) := by
  decide +kernel

end Folder

end Omoplata
