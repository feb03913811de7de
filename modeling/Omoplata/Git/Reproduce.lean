-- SUMMARY: When an export has the objects of the repository that was imported.
import Omoplata.Git.Passes
import Omoplata.Git.Written

/-!
# Reproducing a repository

An import has what the refs of its source lead to, and the comparison of an export with
the source is over every object there, loose or packed.
-/

open Codec FileSystem Walk

namespace Omoplata

/-! ## Byte forms -/

/-- A map has the byte forms of objects by the text of their ids. -/
def ShowsBytes (m : GitObjects) (m' : BTreeMap Str (List UInt8)) : Prop :=
  ∀ text bytes, m'[text]? = some bytes ↔ ∃ (oid : GitOid) (o : GitObject), m[oid]? = some o ∧ oid.hex = text ∧ o.encode = bytes

theorem ShowsBytes.insert {m : GitObjects} {m' : BTreeMap Str (List UInt8)} (h : ShowsBytes m m') (oid : GitOid)
    (o : GitObject) : ShowsBytes (m.insert oid o) (m'.insert oid.hex o.encode) := by
  intro text bytes
  rw [BTreeMap.getElem?_insert]
  split
  · rename_i heq
    constructor
    · intro hbytes
      exact ⟨oid, o, by rw [BTreeMap.getElem?_insert, if_pos rfl], heq, Option.some.inj hbytes⟩
    · rintro ⟨oid', o', ho', hhex, rfl⟩
      obtain rfl := GitOid.hex_injective (hhex.trans heq.symm)
      rw [BTreeMap.getElem?_insert, if_pos rfl] at ho'
      rw [Option.some.inj ho']
  · rename_i hne
    rw [h]
    refine exists_congr fun oid' => exists_congr fun o' => and_congr_left fun ⟨hhex, _⟩ => ?_
    rw [BTreeMap.getElem?_insert, if_neg]
    rintro rfl
    exact hne hhex

theorem ShowsBytes.mem_iff {m : GitObjects} {m' : BTreeMap Str (List UInt8)} (h : ShowsBytes m m') (oid : GitOid) :
    oid.hex ∈ m' ↔ oid ∈ m := by
  rw [Std.ExtTreeMap.mem_iff_isSome_getElem?, Std.ExtTreeMap.mem_iff_isSome_getElem?, Option.isSome_iff_exists,
    Option.isSome_iff_exists]
  constructor
  · rintro ⟨bytes, hbytes⟩
    obtain ⟨oid', o, ho, hhex, -⟩ := (h _ _).mp hbytes
    exact ⟨o, GitOid.hex_injective hhex ▸ ho⟩
  · rintro ⟨o, ho⟩
    exact ⟨o.encode, (h _ _).mpr ⟨oid, o, ho, rfl, rfl⟩⟩

/-- Merging byte forms is merging objects. -/
theorem showsBytes_merge (loose packed : List (GitOid × GitObject)) :
    ShowsBytes (mergeObjects loose packed) (mergeBytes loose packed) := by
  have hloose : ShowsBytes (loose.foldl (fun m e => m.insert e.1 e.2) ∅)
      (loose.foldl (fun m e => m.insert e.1.hex e.2.encode) ∅) := by
    have hstart : ShowsBytes ∅ ∅ := fun text bytes => by simp
    generalize (∅ : GitObjects) = m, (∅ : BTreeMap Str (List UInt8)) = m' at hstart ⊢
    induction loose generalizing m m' with
    | nil => exact hstart
    | cons e loose ih => exact ih _ _ (hstart.insert e.1 e.2)
  unfold mergeObjects mergeBytes
  revert hloose
  generalize loose.foldl (fun m e => m.insert e.1 e.2) (∅ : GitObjects) = m,
    loose.foldl (fun m e => m.insert e.1.hex e.2.encode) (∅ : BTreeMap Str (List UInt8)) = m'
  intro hshows
  induction packed generalizing m m' with
  | nil => exact hshows
  | cons e packed ih =>
      refine ih _ _ ?_
      simp only
      by_cases hmem : e.1 ∈ m
      · rw [if_pos hmem, if_pos ((hshows.mem_iff e.1).mpr hmem)]
        exact hshows
      · rw [if_neg hmem, if_neg (mt (hshows.mem_iff e.1).mp hmem)]
        exact hshows.insert e.1 e.2

/-! ## The source stays as it was -/

/-- What stands below the objects of a git directory is the same, but for an empty directory in there that
    has become one of an export. -/
structure SameObjects (fs fs' : GitDisk) (gitDir : List Str) : Prop where
  top : fs'[objectsDir gitDir]? = fs[objectsDir gitDir]?
  entries : ∀ name, fs'[objectsDir gitDir ++ [name]]? = fs[objectsDir gitDir ++ [name]]?
  below : ∀ name, (∀ file, fs'[objectsDir gitDir ++ [name] ++ [file]]? = fs[objectsDir gitDir ++ [name] ++ [file]]?) ∨
    (∀ file, fs[objectsDir gitDir ++ [name] ++ [file]]? = none) ∧
      ∀ file entry, fs'[objectsDir gitDir ++ [name] ++ [file]]? = some entry →
        file ∈ ["objects".toList, "HEAD".toList, "refs".toList]

section

variable {sha1 : List UInt8 → GitOid} {inflate : Inflate} {fs fs' : GitDisk} {gitDir : List Str}

/-- The names of interest in a directory are the same. -/
theorem SameObjects.filter_readDir (h : SameObjects fs fs' gitDir) (name : Str) {p : Str → Bool}
    (hp : ∀ file ∈ ["objects".toList, "HEAD".toList, "refs".toList], p file = false) :
    (Table.readDir fs' (objectsDir gitDir ++ [name])).filter p =
        (Table.readDir fs (objectsDir gitDir ++ [name])).filter p ∧
      ∀ file ∈ (Table.readDir fs (objectsDir gitDir ++ [name])).filter p, ∀ other,
        fs'[objectsDir gitDir ++ [name] ++ [other]]? = fs[objectsDir gitDir ++ [name] ++ [other]]? := by
  obtain hsame | ⟨hempty, hexport⟩ := h.below name
  · exact ⟨congrArg _ (Table.readDir_congr hsame), fun _ _ => hsame⟩
  · have hnone : (Table.readDir fs (objectsDir gitDir ++ [name])).filter p = [] := by
      rw [List.filter_eq_nil_iff]
      intro file hfile
      obtain ⟨entry, hentry⟩ := Table.mem_readDir.mp hfile
      cases (hempty file).symm.trans hentry
    have hnone' : (Table.readDir fs' (objectsDir gitDir ++ [name])).filter p = [] := by
      rw [List.filter_eq_nil_iff]
      intro file hfile
      obtain ⟨entry, hentry⟩ := Table.mem_readDir.mp hfile
      rw [hp file (hexport file entry hentry)]
      exact Bool.false_ne_true
    rw [hnone, hnone']
    exact ⟨rfl, nofun⟩

theorem mapM_congr_of_mem {α β ε : Type} {f g : α → Except ε β} {l : List α} (h : ∀ a ∈ l, f a = g a) :
    l.mapM f = l.mapM g := by
  induction l with
  | nil => rfl
  | cons a l ih =>
      obtain ⟨ha, hl⟩ := List.forall_mem_cons.mp h
      rw [List.mapM_cons, List.mapM_cons, ha, ih hl]

theorem SameObjects.walkShard_eq (h : SameObjects fs fs' gitDir) (name : Str) :
    walkShard sha1 inflate fs' (objectsDir gitDir ++ [name]) = walkShard sha1 inflate fs (objectsDir gitDir ++ [name]) := by
  obtain ⟨hnames, hfiles⟩ := h.filter_readDir name (p := isHexName 38) (by decide)
  have hread : ((Table.readDir fs (objectsDir gitDir ++ [name])).filter (isHexName 38)).mapM
        (fun file => readLoose sha1 inflate fs' (objectsDir gitDir ++ [name] ++ [file])) =
      ((Table.readDir fs (objectsDir gitDir ++ [name])).filter (isHexName 38)).mapM
        (fun file => readLoose sha1 inflate fs (objectsDir gitDir ++ [name] ++ [file])) := by
    refine mapM_congr_of_mem fun file hfile => ?_
    rw [readLoose, readLoose, GitDisk.read, GitDisk.read, hfiles file hfile file]
  rw [walkShard, walkShard, h.entries name, hnames, hread]

theorem SameObjects.walkLoose_eq (h : SameObjects fs fs' gitDir) :
    walkLoose sha1 inflate fs' gitDir = walkLoose sha1 inflate fs gitDir := by
  have hlist : fs'.list (objectsDir gitDir) = fs.list (objectsDir gitDir) := by
    rw [GitDisk.list, GitDisk.list, h.top, Table.readDir_congr h.entries]
  rw [walkLoose, walkLoose, hlist, funext h.walkShard_eq]

theorem SameObjects.readAllPacks_eq (h : SameObjects fs fs' gitDir) :
    readAllPacks sha1 inflate fs' gitDir = readAllPacks sha1 inflate fs gitDir := by
  obtain ⟨hnames, hfiles⟩ := h.filter_readDir "pack".toList (p := isPackName) (by decide)
  have hdir : fs'[packDir gitDir]? = fs[packDir gitDir]? := h.entries _
  cases hentry : fs[packDir gitDir]? with
  | none =>
      simp only [readAllPacks, packPaths, GitDisk.list, hdir, hentry]
      rfl
  | some entry =>
      cases entry with
      | file bytes =>
          simp only [readAllPacks, packPaths, GitDisk.list, hdir, hentry]
          rfl
      | directory =>
          let packs := sortByKey id ((Table.readDir fs (packDir gitDir)).filter isPackName)
          have hpaths : packPaths fs gitDir = .ok packs := by
            simp only [packPaths, GitDisk.list, hentry]
            rfl
          have hpaths' : packPaths fs' gitDir = .ok packs := by
            have hnames' : (Table.readDir fs' (packDir gitDir)).filter isPackName =
                (Table.readDir fs (packDir gitDir)).filter isPackName := hnames
            simp only [packPaths, GitDisk.list, hdir, hentry]
            exact congrArg (fun names => Except.ok (sortByKey id names)) hnames'
          have hread : packs.mapM (readPackFile sha1 inflate fs' (packDir gitDir)) =
              packs.mapM (readPackFile sha1 inflate fs (packDir gitDir)) := by
            refine mapM_congr_of_mem fun name hname => ?_
            have hsame : ∀ other, fs'[packDir gitDir ++ [other]]? = fs[packDir gitDir ++ [other]]? :=
              hfiles name ((perm_sortByKey id _).mem_iff.mp hname)
            simp only [readPackFile, GitDisk.read, hsame]
          simp only [readAllPacks, hpaths, hpaths', bind, Except.bind, hread]

/-- The source of an export has something among its objects. -/
theorem exists_below_objects {objects : GitObjects} (h : storedObjects sha1 inflate fs gitDir = .ok objects)
    {oid : GitOid} {o : GitObject} (ho : objects[oid]? = some o) :
    ∃ name entry, fs[objectsDir gitDir ++ [name]]? = some entry := by
  by_contra hnone
  have hnone' : ∀ name, fs[objectsDir gitDir ++ [name]]? = none := by
    intro name
    cases hentry : fs[objectsDir gitDir ++ [name]]? with
    | none => rfl
    | some entry => exact absurd ⟨name, entry, hentry⟩ hnone
  obtain ⟨loose, hloose, h⟩ := bind_eq_ok.mp h
  obtain ⟨packed, hpacked, h⟩ := bind_eq_ok.mp h
  obtain ⟨shards, hshards, hloose⟩ := bind_eq_ok.mp hloose
  have hshards' : shards = [] := by
    unfold GitDisk.list at hshards
    split at hshards
    · exact (Except.ok.inj hshards).symm
    · cases hshards
      refine List.eq_nil_iff_forall_not_mem.mpr fun name hname => ?_
      obtain ⟨entry, hentry⟩ := Table.mem_readDir.mp hname
      cases (hnone' name).symm.trans hentry
    · cases hshards
  have hpacked' : packed = [] := by
    have hdir : fs[packDir gitDir]? = none := hnone' _
    simp only [readAllPacks, packPaths, GitDisk.list, hdir] at hpacked
    exact (Except.ok.inj hpacked).symm
  subst hshards' hpacked'
  cases hloose
  cases h
  simp [mergeObjects] at ho

end

section

variable {deflate : List UInt8 → List UInt8} {fs fs' : GitDisk} {gitDir outDir : List Str}
  {ordered : List (GitOid × GitObject)} {refs : List (Str × GitOid)} {names : List Str}
  (hempty : EmptyDirectory fs outDir) (hnames : RefNames names) (hrefs : ∀ e ∈ refs, e.1 ∈ names)
  (hwritten : Table.Written fs fs' (objectWrites deflate outDir ordered ++ refWrites outDir refs))

include hempty hnames hrefs hwritten

/-- An export changes nothing but what is below its directory, under three names. -/
theorem eq_or_below_export {l : List Str} (hl : l ≠ []) :
    fs'[l]? = fs[l]? ∨
      ∃ name rest, l = outDir ++ name :: rest ∧ name ∈ ["objects".toList, "HEAD".toList, "refs".toList] := by
  have hwrite : ∀ w ∈ objectWrites deflate outDir ordered ++ refWrites outDir refs,
      ∃ name rest, w.1 = outDir ++ name :: rest ∧ name ∈ ["objects".toList, "HEAD".toList, "refs".toList] := by
    intro w hw
    obtain hw | hw := List.mem_append.mp hw
    · obtain ⟨e, -, rfl⟩ := List.mem_map.mp hw
      exact ⟨_, _, looseLoc_eq outDir e.1, by simp⟩
    · obtain ⟨e, he, rfl⟩ := List.mem_map.mp hw
      obtain hsplit | ⟨rest, hsplit⟩ := hnames.top e.1 (hrefs e he)
      · exact ⟨_, [], by rw [refLoc, hsplit], by simp⟩
      · exact ⟨_, rest, by rw [refLoc, hsplit], by simp⟩
  by_cases hnew : ∀ w ∈ objectWrites deflate outDir ordered ++ refWrites outDir refs, w.1 ≠ l
  · obtain hsame | ⟨hnone, -, w, hw, hfront⟩ := hwritten.others l hnew
    · exact .inl hsame
    · obtain ⟨name, rest, hloc, hname⟩ := hwrite w hw
      rw [hloc] at hfront
      obtain hup | ⟨below, rfl⟩ := List.prefix_or_prefix_of_prefix hfront (List.prefix_append outDir (name :: rest))
      · cases hnone.symm.trans (hempty.stands l hup hl)
      · cases below with
        | nil =>
            rw [List.append_nil] at hl hnone
            cases hnone.symm.trans (hempty.stands outDir List.prefix_rfl hl)
        | cons first below =>
            rw [List.prefix_append_right_inj, List.cons_prefix_cons] at hfront
            exact .inr ⟨first, below, rfl, hfront.1 ▸ hname⟩
  · simp only [ne_eq, not_forall, not_not, exists_prop] at hnew
    obtain ⟨w, hw, rfl⟩ := hnew
    exact .inr (hwrite w hw)

/-- Exporting into an empty directory leaves the objects of a source that has some. -/
theorem sameObjects_of_written (hsome : ∃ name entry, fs[objectsDir gitDir ++ [name]]? = some entry) :
    SameObjects fs fs' gitDir := by
  have hchange := @eq_or_below_export _ _ _ _ _ _ _ hempty hnames hrefs hwritten
  have houtside : ¬outDir <+: objectsDir gitDir := by
    rintro ⟨below, hbelow⟩
    obtain ⟨name, entry, hentry⟩ := hsome
    rw [← hbelow, List.append_assoc] at hentry
    cases below with
    | nil => cases (hempty.empty name []).symm.trans hentry
    | cons first below => cases (hempty.empty first (below ++ [name])).symm.trans hentry
  have hstrict : ∀ {l : List Str} {name : Str} {rest : List Str}, l = outDir ++ name :: rest → ∀ {front : List Str} {last : Str},
      l = front ++ [last] → outDir <+: front := by
    intro l name rest hl front last hlast
    have hfront : outDir <+: front ++ [last] := hlast ▸ hl ▸ List.prefix_append _ _
    refine (List.prefix_concat_iff.mp hfront).resolve_left fun heq => ?_
    rw [hl, ← heq] at hlast
    simp at hlast
  refine ⟨?_, fun name => ?_, fun name => ?_⟩
  · refine (hchange (by simp [objectsDir])).resolve_right ?_
    rintro ⟨name, rest, hl, -⟩
    exact houtside (hl ▸ List.prefix_append _ _)
  · refine (hchange (by simp)).resolve_right ?_
    rintro ⟨first, rest, hl, -⟩
    exact houtside (hstrict hl rfl)
  · by_cases hdir : outDir = objectsDir gitDir ++ [name]
    · -- the empty directory is among the objects
      right
      rw [← hdir]
      refine ⟨fun file => hempty.empty file [], fun file entry hentry => ?_⟩
      obtain hsame | ⟨first, rest, hl, hfirst⟩ := hchange (l := outDir ++ [file]) (by simp)
      · cases (hempty.empty file []).symm.trans (hsame.symm.trans hentry)
      · rw [List.append_cancel_left_eq, List.cons.injEq] at hl
        exact hl.1 ▸ hfirst
    · left
      intro file
      refine (hchange (by simp)).resolve_right ?_
      rintro ⟨first, rest, hl, -⟩
      exact houtside ((List.prefix_concat_iff.mp (hstrict hl rfl)).resolve_left hdir)

end

/-! ## The export of an import -/

/-- What a step that may give nothing gives has the keys it was made for. -/
theorem sublist_of_mapM {α β ε : Type} {f : α → Except ε (Option β)} {key : β → α}
    (hkey : ∀ a b, f a = .ok (some b) → key b = a) {l : List α} {out : List (Option β)} (h : l.mapM f = .ok out) :
    ((out.filterMap id).map key).Sublist l := by
  induction l generalizing out with
  | nil =>
      cases h
      exact List.Sublist.refl _
  | cons a l ih =>
      rw [List.mapM_cons] at h
      obtain ⟨b, hb, h⟩ := bind_eq_ok.mp h
      obtain ⟨bs, hbs, h⟩ := bind_eq_ok.mp h
      cases h
      cases b with
      | none => exact (ih hbs).cons a
      | some b => exact hkey a b hb ▸ (ih hbs).cons_cons (key b)

/-- Each ref is read once. -/
theorem nodup_readRefs {fs : GitDisk} {gitDir : List Str} {refs : List (Str × GitOid)}
    (h : readRefs fs gitDir = .ok refs) : (refs.map Prod.fst).Nodup := by
  obtain ⟨_, -, h⟩ := bind_eq_ok.mp h
  obtain ⟨_, -, h⟩ := bind_eq_ok.mp h
  obtain ⟨raw, -, h⟩ := bind_eq_ok.mp h
  obtain ⟨out, hout, h⟩ := bind_eq_ok.mp h
  cases h
  have hnames : ((out.filterMap id).map Prod.fst).Sublist raw.keys := by
    refine sublist_of_mapM ?_ hout
    intro name ref href
    obtain ⟨oid, -, hoid⟩ := map_eq_ok.mp href
    obtain ⟨oid, -, rfl⟩ := Option.map_eq_some_iff.mp hoid
    rfl
  have hkeys : raw.keys.Nodup := raw.distinct_keys.imp fun hne heq => hne (Std.compare_eq_iff_eq.mpr heq)
  exact ((perm_sortByKey Prod.fst _).map Prod.fst).nodup_iff.mpr (hnames.nodup hkeys)

theorem GitImport.mem_ordered {made : GitImport} {oid : GitOid} {o : GitObject} :
    (oid, o) ∈ made.ordered ↔ made.gitObjects[oid]? = some o :=
  (perm_sortByKey _ _).mem_iff.trans Std.ExtTreeMap.mem_toList_iff_getElem?_eq_some

theorem GitImport.nodup_ordered (made : GitImport) : (made.ordered.map Prod.fst).Nodup := by
  refine ((perm_sortByKey _ _).map Prod.fst).nodup_iff.mpr ?_
  rw [Std.ExtTreeMap.map_fst_toList_eq_keys]
  exact made.gitObjects.distinct_keys.imp fun hne heq => hne (Std.compare_eq_iff_eq.mpr heq)

section

variable {sha1 : List UInt8 → GitOid} {deflate : List UInt8 → List UInt8} {fs : GitDisk} {outDir : List Str}
  {made : GitImport}

variable (deflate) in
/-- An export into an empty directory goes well where the objects hash to their ids. -/
theorem exportRepo_written (hempty : EmptyDirectory fs outDir) (hnames : RefNames (made.refs.map Prod.fst))
    (hnodup : (made.refs.map Prod.fst).Nodup)
    (hhash : ∀ (oid : GitOid) (o : GitObject), made.gitObjects[oid]? = some o → sha1 o.encode = oid) :
    ∃ fs', exportRepo sha1 deflate made outDir fs = (.ok ⟨outDir, made.ordered.length, made.refs.length⟩, fs') ∧
      Table.Written fs fs' (objectWrites deflate outDir made.ordered ++ refWrites outDir made.refs) := by
  have hhash' : ∀ e ∈ made.ordered, sha1 e.2.encode = e.1 := fun e he => hhash _ _ (GitImport.mem_ordered.mp he)
  obtain ⟨fs₁, hobjects, hwritten⟩ := exportObjects_written deflate hempty hhash' made.nodup_ordered
    (Table.Written.refl fs) (by simp) 0
  have hapart : ∀ e ∈ made.refs, ∀ w ∈ objectWrites deflate outDir made.ordered,
      ¬w.1 <+: refLoc outDir e.1 ∧ ¬refLoc outDir e.1 <+: w.1 := by
    intro e he w hw
    obtain ⟨p, -, rfl⟩ := List.mem_map.mp hw
    simp only [looseLoc_eq]
    exact not_prefix_refLoc hnames (List.mem_map_of_mem he) _
  obtain ⟨fs', hrefs, hwritten'⟩ := exportRefs_written hempty hnames (fun e he => List.mem_map_of_mem he) hnodup
    (by rwa [List.nil_append] at hwritten) hapart 0
  refine ⟨fs', ?_, hwritten'⟩
  rw [Nat.zero_add] at hobjects hrefs
  unfold exportRepo
  simp only [hobjects, hrefs]

/-- An export that goes well is one of objects that hash to their ids. -/
theorem hash_of_exportRepo {report : GitExport} {fs' : GitDisk}
    (h : exportRepo sha1 deflate made outDir fs = (.ok report, fs')) {oid : GitOid} {o : GitObject}
    (ho : made.gitObjects[oid]? = some o) : sha1 o.encode = oid := by
  unfold exportRepo at h
  split at h
  · cases h
  · rename_i objects fs₁ hobjects
    exact hash_of_exportObjects hobjects _ (GitImport.mem_ordered.mpr ho)

end

section

variable {sha1 : List UInt8 → GitOid} {inflate : Inflate} {deflate : List UInt8 → List UInt8} {fs fs' : GitDisk}
  {gitDir outDir : List Str} {made : GitImport} {objects : GitObjects}

/-- Two maps of byte forms are the same exactly where they are for the same objects. -/
theorem ShowsBytes.eq_iff {m₁ m₂ : GitObjects} {b₁ b₂ : BTreeMap Str (List UInt8)} (h₁ : ShowsBytes m₁ b₁)
    (h₂ : ShowsBytes m₂ b₂) (hsub : ∀ (oid : GitOid) (o : GitObject), m₂[oid]? = some o → m₁[oid]? = some o) :
    b₁ = b₂ ↔ ∀ (oid : GitOid) (o : GitObject), m₁[oid]? = some o → m₂[oid]? = some o := by
  constructor
  · rintro rfl oid o ho
    have hbytes : b₁[oid.hex]? = some o.encode := (h₁ _ _).mpr ⟨oid, o, ho, rfl, rfl⟩
    obtain ⟨oid', o', ho', hhex, -⟩ := (h₂ _ _).mp hbytes
    obtain rfl := GitOid.hex_injective hhex
    rw [← ho, hsub oid' o' ho', ho']
  · intro hall
    refine Std.ExtTreeMap.ext_getElem? fun text => Option.ext fun bytes => ?_
    rw [h₁, h₂]
    refine exists_congr fun oid => exists_congr fun o => and_congr_left fun _ => ?_
    exact ⟨hall oid o, hsub oid o⟩

/-- What is read of a source is what it had before the export. -/
theorem source_bytes (hsame : SameObjects fs fs' gitDir) (h : storedObjects sha1 inflate fs gitDir = .ok objects) :
    ∃ bytes, allObjectBytes sha1 inflate fs' gitDir = .ok bytes ∧ ShowsBytes objects bytes := by
  obtain ⟨loose, hloose, h⟩ := bind_eq_ok.mp h
  obtain ⟨packed, hpacked, h⟩ := bind_eq_ok.mp h
  cases h
  refine ⟨mergeBytes loose packed, ?_, showsBytes_merge loose packed⟩
  refine bind_eq_ok.mpr ⟨loose, hsame.walkLoose_eq.trans hloose, ?_⟩
  exact bind_eq_ok.mpr ⟨packed, hsame.readAllPacks_eq.trans hpacked, rfl⟩

/-- What is read of an export are the objects of the import. -/
theorem exported_bytes (hempty : EmptyDirectory fs outDir) (hnames : RefNames (made.refs.map Prod.fst))
    (hwritten : Table.Written fs fs' (objectWrites deflate outDir made.ordered ++ refWrites outDir made.refs))
    (hhash : ∀ (oid : GitOid) (o : GitObject), made.gitObjects[oid]? = some o → sha1 o.encode = oid)
    (hzlib : ∀ (oid : GitOid) (o : GitObject), made.gitObjects[oid]? = some o →
      ∃ n, inflate (deflate o.encode) = .ok (o.encode, n))
    (hgate : ∀ (oid : GitOid) (o : GitObject), made.gitObjects[oid]? = some o →
      ∃ gated, roundtripOk sha1 o.encode = .ok gated)
    (hne : made.ordered ≠ []) :
    ∃ bytes, allObjectBytes sha1 inflate fs' outDir = .ok bytes ∧ ShowsBytes made.gitObjects bytes := by
  have hrefs : ∀ e ∈ made.refs, e.1 ∈ made.refs.map Prod.fst := fun e he => List.mem_map_of_mem he
  -- the gate has shown that the bytes decode and encode to themselves
  have hdecode : ∀ e ∈ made.ordered, ∃ o, GitObject.decode e.2.encode = .ok o ∧ o.encode = e.2.encode := by
    intro e he
    obtain ⟨gated, hgated⟩ := hgate _ _ (GitImport.mem_ordered.mp he)
    obtain ⟨o, ho, hgated⟩ := bind_eq_ok.mp hgated
    refine ⟨o, ho, ?_⟩
    by_contra hne
    rw [if_pos hne] at hgated
    cases hgated
  obtain ⟨found, hfound, hfrom, hto⟩ := walkLoose_written hempty hnames hrefs hwritten
    (fun e he => hhash _ _ (GitImport.mem_ordered.mp he)) (fun e he => hzlib _ _ (GitImport.mem_ordered.mp he)) hdecode hne
  have hpacked : readAllPacks sha1 inflate fs' outDir = .ok [] := readAllPacks_written hempty hnames hrefs hwritten
  refine ⟨mergeBytes found [], bind_eq_ok.mpr ⟨found, hfound, bind_eq_ok.mpr ⟨[], hpacked, rfl⟩⟩, fun text bytes => ?_⟩
  -- what the walk finds is an object of the import under its own name
  have hwhere : ∀ p ∈ found, ∃ o, made.gitObjects[p.1]? = some o ∧ o.encode = p.2.encode := by
    intro p hp
    obtain ⟨⟨oid, o⟩, he, hoid, hencode⟩ := hfrom p hp
    exact ⟨o, hoid ▸ GitImport.mem_ordered.mp he, hencode.symm⟩
  constructor
  · intro hbytes
    obtain ⟨p, hp, rfl, rfl⟩ := BTreeMap.mem_of_getElem?_collect hbytes
    obtain ⟨o, ho, hencode⟩ := hwhere p hp
    exact ⟨p.1, o, ho, rfl, hencode⟩
  · rintro ⟨oid, o, ho, rfl, rfl⟩
    obtain ⟨p, hp, hoid⟩ := hto _ (GitImport.mem_ordered.mpr ho)
    have hoid' : p.1 = oid := hoid
    obtain ⟨bytes, hbytes⟩ := BTreeMap.exists_getElem?_collect (f := fun e : GitOid × GitObject => e.1.hex)
      (g := fun e => e.2.encode) hp
    obtain ⟨p', hp', hhex, hval⟩ := BTreeMap.mem_of_getElem?_collect hbytes
    obtain ⟨o', ho', hencode⟩ := hwhere p' hp'
    have hkey : p'.1 = oid := (GitOid.hex_injective hhex).trans hoid'
    rw [hkey, ho, Option.some.injEq] at ho'
    subst hoid' ho'
    exact hbytes.trans (by rw [← hval, ← hencode])

end

/-! ## When an export reproduces its source -/

section

variable {sha1 : List UInt8 → GitOid} {inflate : Inflate} {sha256 : List UInt8 → ObjectId} {fs : GitDisk}
  {path gitDir : List Str}

/-- The parts of an import that goes well. -/
theorem importRepo_eq_ok {depth turns : Nat} {repo : Repository} {r : GitImport × Repository}
    (h : importRepo sha1 inflate sha256 depth turns fs path repo = .ok r) :
    ∃ gitDir report objects refs, resolveGitDir fs path = .ok gitDir ∧ verifyRepo sha1 inflate fs gitDir = .ok report ∧
      storedObjects sha1 inflate fs gitDir = .ok objects ∧ readRefs fs gitDir = .ok refs ∧ refs ≠ [] ∧
      importObjects sha1 sha256 objects depth turns refs repo = .ok r := by
  have hmap : ∀ {α : Type} {x : Except GitError α} {a : α}, x.mapError ImportStop.failed = .ok a → x = .ok a := by
    intro α x a hx
    cases x with
    | error e => cases hx
    | ok b =>
        cases hx
        rfl
  obtain ⟨gitDir, hdir, h⟩ := bind_eq_ok.mp h
  obtain ⟨report, hverify, h⟩ := bind_eq_ok.mp h
  obtain ⟨objects, hobjects, h⟩ := bind_eq_ok.mp h
  obtain ⟨refs, hrefs, h⟩ := bind_eq_ok.mp h
  split at h
  · cases h
  · rename_i hne
    obtain ⟨⟨made, repo'⟩, himport, h⟩ := bind_eq_ok.mp h
    simp only at h
    split at h
    · cases h
    · cases h
      exact ⟨gitDir, report, objects, refs, hmap hdir, hmap hverify, hmap hobjects, hmap hrefs, hne, himport⟩

/-- What the gate passes hashes to its id. -/
theorem hash_of_gateAll {found : List (GitOid × GitObject)} {report report' : GitReport}
    (h : gateAll sha1 found report = .ok report') : ∀ p ∈ found, sha1 p.2.encode = p.1 := by
  induction found generalizing report with
  | nil => simp
  | cons p found ih =>
      obtain ⟨oid, object⟩ := p
      obtain ⟨gated, hgated, h⟩ := bind_eq_ok.mp h
      split at h
      · cases h
      · rename_i heq
        refine List.forall_mem_cons.mpr ⟨?_, ih h⟩
        obtain ⟨o, -, hgated⟩ := bind_eq_ok.mp hgated
        split at hgated
        · cases hgated
        · rename_i hsame
          rw [not_not] at heq hsame
          rw [← heq, ← hsame]
          exact Except.ok.inj hgated

theorem mem_of_mergeObjects {loose packed : List (GitOid × GitObject)} {oid : GitOid} {o : GitObject}
    (h : (mergeObjects loose packed)[oid]? = some o) : (oid, o) ∈ loose ++ packed := by
  unfold mergeObjects at h
  induction packed using List.reverseRecOn with
  | nil =>
      obtain ⟨p, hp, rfl, rfl⟩ := BTreeMap.mem_of_getElem?_collect h
      exact List.mem_append_left _ hp
  | append_singleton packed last ih =>
      rw [← List.append_assoc, List.mem_append, List.mem_singleton]
      rw [List.foldl_append, List.foldl_cons, List.foldl_nil] at h
      split at h
      · exact .inl (ih h)
      · rw [BTreeMap.getElem?_insert] at h
        split at h
        · rename_i heq
          exact .inr (Prod.ext heq.symm (Option.some.inj h).symm)
        · exact .inl (ih h)

/-- The objects of a source that is imported hash to their ids, unless there is another git directory in it. -/
theorem hash_of_importRepo {depth turns : Nat} {repo : Repository} {r : GitImport × Repository} {objects : GitObjects}
    (h : importRepo sha1 inflate sha256 depth turns fs path repo = .ok r) (hdir : resolveGitDir fs path = .ok gitDir)
    (hagain : resolveGitDir fs gitDir = .ok gitDir) (hobjects : storedObjects sha1 inflate fs gitDir = .ok objects)
    {oid : GitOid} {o : GitObject} (ho : objects[oid]? = some o) : sha1 o.encode = oid := by
  obtain ⟨gitDir', report, -, -, hdir', hverify, -⟩ := importRepo_eq_ok h
  obtain rfl := Except.ok.inj (hdir'.symm.trans hdir)
  obtain ⟨inner, hinner, hverify⟩ := bind_eq_ok.mp hverify
  obtain rfl := Except.ok.inj (hinner.symm.trans hagain)
  obtain ⟨loose, hloose, hverify⟩ := bind_eq_ok.mp hverify
  obtain ⟨first, hfirst, hverify⟩ := bind_eq_ok.mp hverify
  obtain ⟨packed, hpacked, hverify⟩ := bind_eq_ok.mp hverify
  obtain ⟨second, hsecond, -⟩ := bind_eq_ok.mp hverify
  obtain ⟨loose', hloose', hobjects⟩ := bind_eq_ok.mp hobjects
  obtain ⟨packed', hpacked', hobjects⟩ := bind_eq_ok.mp hobjects
  obtain rfl := Except.ok.inj (hloose'.symm.trans hloose)
  obtain rfl := Except.ok.inj (hpacked'.symm.trans hpacked)
  cases hobjects
  obtain hmem | hmem := List.mem_append.mp (mem_of_mergeObjects ho)
  · exact hash_of_gateAll hfirst _ hmem
  · exact hash_of_gateAll hsecond _ hmem

/-- An export of an import into an empty directory goes well and has the objects of the source exactly where
    the refs of the source lead to all of its objects, each under the hash of its byte form. -/
theorem export_reproduces_iff (deflate : List UInt8 → List UInt8) {depth turns : Nat} {repo repo' : Repository}
    {made : GitImport} {objects : GitObjects} {refs : List (Str × GitOid)} (outDir : List Str)
    (himport : importRepo sha1 inflate sha256 depth turns fs path repo = .ok (made, repo'))
    (hdir : resolveGitDir fs path = .ok gitDir) (hobjects : storedObjects sha1 inflate fs gitDir = .ok objects)
    (hrefs : readRefs fs gitDir = .ok refs) (hempty : EmptyDirectory fs outDir) (hnames : RefNames (refs.map Prod.fst))
    (hzlib : ∀ (oid : GitOid) (o : GitObject), objects[oid]? = some o →
      ∃ n, inflate (deflate o.encode) = .ok (o.encode, n)) :
    (∃ report fs', exportRepo sha1 deflate made outDir fs = (.ok report, fs') ∧
        exportMatchesSource sha1 inflate fs' gitDir outDir = .ok true) ↔
      ∀ (oid : GitOid) (o : GitObject), objects[oid]? = some o →
        Leads (Refers objects) (refs.map Prod.snd) oid ∧ sha1 o.encode = oid := by
  obtain ⟨_, -, _, _, hdir', -, hobjects', hrefs', hsome, hmake⟩ := importRepo_eq_ok himport
  obtain rfl := Except.ok.inj (hdir.symm.trans hdir')
  obtain rfl := Except.ok.inj (hobjects.symm.trans hobjects')
  obtain rfl := Except.ok.inj (hrefs.symm.trans hrefs')
  obtain ⟨hsame, hreached, hall, hgate⟩ := importObjects_eq_ok hmake
  simp only at hsame hreached hall hgate
  have hsub : ∀ (oid : GitOid) (o : GitObject), made.gitObjects[oid]? = some o → objects[oid]? = some o :=
    fun oid o ho => ((hreached oid o).mp ho).2
  rw [← hsame] at hnames hsome
  -- once the objects hash to their ids, the export goes well and the comparison is one of two maps
  have hcompare : (∀ (oid : GitOid) (o : GitObject), made.gitObjects[oid]? = some o → sha1 o.encode = oid) →
      ∃ report fs', exportRepo sha1 deflate made outDir fs = (.ok report, fs') ∧
        (exportMatchesSource sha1 inflate fs' gitDir outDir = .ok true ↔
          ∀ (oid : GitOid) (o : GitObject), objects[oid]? = some o → made.gitObjects[oid]? = some o) := by
    intro hhash
    obtain ⟨fs', hexport, hwritten⟩ := exportRepo_written deflate hempty hnames
      (hsame ▸ nodup_readRefs hrefs) hhash
    obtain ⟨root, hroot⟩ := List.exists_mem_of_ne_nil _ hsome
    have hmem : root.2 ∈ made.gitObjects := hall _ (Leads.root (hsame ▸ List.mem_map_of_mem hroot))
    obtain ⟨o, ho⟩ := Option.isSome_iff_exists.mp (Std.ExtTreeMap.mem_iff_isSome_getElem?.mp hmem)
    have hne : made.ordered ≠ [] := List.ne_nil_of_mem (GitImport.mem_ordered.mpr ho)
    have hobjectsSame := sameObjects_of_written hempty hnames (fun e he => List.mem_map_of_mem he) hwritten
      (exists_below_objects hobjects (hsub _ _ ho))
    obtain ⟨source, hsource, hshows⟩ := source_bytes hobjectsSame hobjects
    obtain ⟨exported, hexported, hshows'⟩ := exported_bytes hempty hnames hwritten hhash
      (fun oid o ho => hzlib oid o (hsub oid o ho)) hgate hne
    refine ⟨_, fs', hexport, ?_⟩
    rw [← hshows.eq_iff hshows' hsub, ← Std.ExtTreeMap.toList_inj]
    unfold exportMatchesSource
    simp only [hsource, hexported, bind, Except.bind, Except.ok.injEq, decide_eq_true_eq]
  constructor
  · rintro ⟨report, fs', hexport, hmatches⟩ oid o ho
    have hhash : ∀ (oid : GitOid) (o : GitObject), made.gitObjects[oid]? = some o → sha1 o.encode = oid :=
      fun oid o ho => hash_of_exportRepo hexport ho
    obtain ⟨report', fs'', hexport', hiff⟩ := hcompare hhash
    rw [hexport, Prod.mk.injEq] at hexport'
    obtain ⟨-, rfl⟩ := hexport'
    have ho' := hiff.mp hmatches oid o ho
    exact ⟨((hreached oid o).mp ho').1, hhash oid o ho'⟩
  · intro hstored
    obtain ⟨report, fs', hexport, hiff⟩ := hcompare fun oid o ho => (hstored oid o (hsub oid o ho)).2
    exact ⟨report, fs', hexport, hiff.mpr fun oid o ho => (hreached oid o).mpr ⟨(hstored oid o ho).1, ho⟩⟩

end

/-! ## A repository with a tag of a blob -/

instance (fs : GitDisk) (dir : List Str) : Decidable (EmptyDirectory fs dir) :=
  decidable_of_iff ((∀ front ∈ dir.inits, front ≠ [] → fs[front]? = some .directory) ∧
      ∀ loc ∈ fs.keys, dir <+: loc → loc = dir) <| by
    constructor
    · rintro ⟨hstands, hkeys⟩
      refine ⟨fun front hfront => hstands front ((List.mem_inits front dir).mpr hfront), fun name rest => ?_⟩
      cases hentry : fs[dir ++ name :: rest]? with
      | none => rfl
      | some entry =>
          have hkey : dir ++ name :: rest ∈ fs.keys := by
            rw [Std.ExtTreeMap.mem_keys, Std.ExtTreeMap.mem_iff_isSome_getElem?, hentry]
            rfl
          cases List.append_right_eq_self.mp (hkeys _ hkey (List.prefix_append _ _))
    · rintro ⟨hstands, hempty⟩
      refine ⟨fun front hfront => hstands front ((List.mem_inits front dir).mp hfront), ?_⟩
      rintro loc hloc ⟨below, rfl⟩
      cases below with
      | nil => exact List.append_nil dir
      | cons name rest =>
          rw [Std.ExtTreeMap.mem_keys, Std.ExtTreeMap.mem_iff_isSome_getElem?, hempty] at hloc
          cases hloc

instance (names : List Str) : Decidable (RefNames names) :=
  decidable_of_iff ((∀ name ∈ names, name.splitOn '/' = ["HEAD".toList] ∨ (name.splitOn '/').head? = some "refs".toList) ∧
      (∀ name ∈ names, ∀ c ∈ name.splitOn '/', c ≠ [] ∧ c ≠ ['.'] ∧ c ≠ ['.', '.'] ∧ Char.ofNat 0 ∉ c) ∧
      ∀ name ∈ names, ∀ name' ∈ names, name.splitOn '/' <+: name'.splitOn '/' → name = name')
    ⟨fun ⟨htop, hproper, hapart⟩ => ⟨fun name h => (htop name h).imp_right List.head?_eq_some_iff.mp, hproper, hapart⟩,
      fun ⟨htop, hproper, hapart⟩ => ⟨fun name h => (htop name h).imp_right List.head?_eq_some_iff.mpr, hproper, hapart⟩⟩

/-- A zlib stream of a single stored block. -/
def deflateStored (data : List UInt8) : List UInt8 :=
  [0x78, 0x01, 0x01, .ofNat data.length, .ofNat (data.length / 256), .ofNat (0xffff - data.length),
    .ofNat ((0xffff - data.length) / 256)] ++ data ++ Sha.bytesOf 4 (Pack.adler32 data)

def tagDir : List Str := ["g".toList]

def copyDir : List Str := ["o".toList]

/-- A git directory with some blobs, a tag of one of them, and an empty directory beside it. -/
def tagDisk (blobs : List String) : GitDisk :=
  let fs : GitDisk := (∅ : GitDisk).insert copyDir .directory
  let write := fun (fs : GitDisk) (dir : List Str) name bytes => (fs.put (dir.map .down) name bytes).getD ∅
  let fs := write fs tagDir "HEAD".toList (utf8 "ref: refs/heads/main\n".toList)
  let fs := write fs (tagDir ++ ["refs".toList, "tags".toList]) "v1".toList (utf8 ((Pack.blobOid "hi").hex ++ ['\n']))
  blobs.foldl (fun fs text =>
    let blob := GitObject.blob (utf8 text.toList)
    write fs (looseShard tagDir (Pack.blobOid text)) (looseName (Pack.blobOid text)) (deflateStored blob.encode)) fs

theorem export_reproduces_tag :
    ∃ made repo' report fs',
      importRepo .ofSha1 Pack.inflateStored .ofSha256 1 2 (tagDisk ["hi"]) tagDir .init = .ok (made, repo') ∧
      exportRepo .ofSha1 deflateStored made copyDir (tagDisk ["hi"]) = (.ok report, fs') ∧
      exportMatchesSource .ofSha1 Pack.inflateStored fs' tagDir copyDir = .ok true := by
  let objects : GitObjects := (∅ : GitObjects).insert (Pack.blobOid "hi") (.blob (utf8 "hi".toList))
  have hrun : (importRepo .ofSha1 Pack.inflateStored .ofSha256 1 2 (tagDisk ["hi"]) tagDir .init).isOk = true := by
    decide +kernel
  have hobjects : storedObjects .ofSha1 Pack.inflateStored (tagDisk ["hi"]) tagDir = .ok objects := by decide +kernel
  have hrefs : readRefs (tagDisk ["hi"]) tagDir = .ok [("refs/tags/v1".toList, Pack.blobOid "hi")] := by decide +kernel
  have hobject : ∀ (oid : GitOid) (o : GitObject), objects[oid]? = some o →
      Pack.blobOid "hi" = oid ∧ .blob (utf8 "hi".toList) = o := by
    intro oid o ho
    rw [BTreeMap.getElem?_insert] at ho
    split at ho
    · exact ⟨‹_›, Option.some.inj ho⟩
    · simp at ho
  cases himport : importRepo .ofSha1 Pack.inflateStored .ofSha256 1 2 (tagDisk ["hi"]) tagDir .init with
  | error e =>
      rw [himport] at hrun
      cases hrun
  | ok r =>
      obtain ⟨made, repo'⟩ := r
      have hexport := (export_reproduces_iff deflateStored copyDir himport (by decide +kernel) hobjects hrefs
        (by decide +kernel) (by decide +kernel) ?_).mpr ?_
      · obtain ⟨report, fs', hexport, hmatches⟩ := hexport
        exact ⟨made, repo', report, fs', rfl, hexport, hmatches⟩
      · intro oid o ho
        obtain ⟨-, rfl⟩ := hobject oid o ho
        exact ⟨20, by decide +kernel⟩
      · intro oid o ho
        obtain ⟨rfl, rfl⟩ := hobject oid o ho
        exact ⟨Leads.root (by simp), rfl⟩

/-- A blob that no ref leads to is missing from the export, and the comparison with the source fails. -/
theorem export_reproduces_fails :
    EmptyDirectory (tagDisk ["hi", "ho"]) copyDir ∧
      ∃ made repo' report fs',
        importRepo .ofSha1 Pack.inflateStored .ofSha256 1 2 (tagDisk ["hi", "ho"]) tagDir .init = .ok (made, repo') ∧
        exportRepo .ofSha1 deflateStored made copyDir (tagDisk ["hi", "ho"]) = (.ok report, fs') ∧
        exportMatchesSource .ofSha1 Pack.inflateStored fs' tagDir copyDir = .ok false := by
  refine ⟨by decide +kernel, ?_⟩
  have hrun : (match importRepo .ofSha1 Pack.inflateStored .ofSha256 1 2 (tagDisk ["hi", "ho"]) tagDir .init with
      | .error _ => false
      | .ok (made, _) =>
          match exportRepo .ofSha1 deflateStored made copyDir (tagDisk ["hi", "ho"]) with
          | (.error _, _) => false
          | (.ok _, fs') => decide (exportMatchesSource .ofSha1 Pack.inflateStored fs' tagDir copyDir = .ok false)) = true := by
    decide +kernel
  split at hrun
  · cases hrun
  · rename_i made repo' himport
    split at hrun
    · cases hrun
    · rename_i report fs' hexport
      exact ⟨made, repo', report, fs', himport, hexport, of_decide_eq_true hrun⟩

end Omoplata
