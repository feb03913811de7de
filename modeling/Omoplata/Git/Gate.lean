-- SUMMARY: What a report of the round-trip gate over a repository means, and when it means nothing.
import Omoplata.Git.Index
import Omoplata.Git.Repo

/-!
# The gate over a repository

Every loose and every packed object goes through the gate. The empty repository is refused,
but a repository counts as empty only where it has neither objects nor packs, and a pack need
not hold an object.
-/

open Codec FileSystem

namespace Omoplata

open Pack

/-! ## The objects that are gated -/

section

variable {sha1 : List UInt8 → GitOid} {inflate : Inflate}

/-- Each object adds one to a report, whatever its type. -/
theorem GitReport.total_tally (r : GitReport) (o : GitObject) :
    (r.tally o).total = r.total + 1 ∧ (r.tally o).packfiles = r.packfiles := by
  cases o with
  | blob _ => exact ⟨by simp only [GitReport.total, GitReport.tally]; omega, rfl⟩
  | tree _ => exact ⟨by simp only [GitReport.total, GitReport.tally]; omega, rfl⟩
  | commit _ => exact ⟨by simp only [GitReport.total, GitReport.tally]; omega, rfl⟩
  | tag _ => exact ⟨by simp only [GitReport.total, GitReport.tally]; omega, rfl⟩

/-- What goes through the gate is counted, and each object has the id it is addressed by. -/
theorem gateAll_ok {found : List (GitOid × GitObject)} {report report' : GitReport}
    (h : gateAll sha1 found report = .ok report') :
    report'.total = report.total + found.length ∧ report'.packfiles = report.packfiles ∧
      ∀ e ∈ found, roundtripOk sha1 e.2.encode = .ok e.1 := by
  induction found generalizing report with
  | nil =>
      cases h
      exact ⟨rfl, rfl, List.forall_mem_nil _⟩
  | cons e found ih =>
      rw [gateAll] at h
      obtain ⟨gated, hgated, h⟩ := bind_eq_ok.mp h
      simp only [ne_eq, ite_not] at h
      split at h
      · rename_i hsame
        obtain ⟨htotal, hpacks, hrest⟩ := ih h
        obtain ⟨htally, hkept⟩ := report.total_tally e.2
        refine ⟨?_, hpacks.trans hkept, List.forall_mem_cons.mpr ⟨hsame ▸ hgated, hrest⟩⟩
        rw [htotal, htally, List.length_cons]
        omega
      · cases h

/-- What a report stands for: the loose and the packed objects, all of which round-trip to the ids
they are addressed by, and the packs that the latter are from. -/
def Gated (sha1 : List UInt8 → GitOid) (inflate : Inflate) (fs : GitDisk) (path : List Str) (report : GitReport) : Prop :=
  ∃ gitDir loose packed, resolveGitDir fs path = .ok gitDir ∧ walkLoose sha1 inflate fs gitDir = .ok loose ∧
    readAllPacks sha1 inflate fs gitDir = .ok packed ∧ report.total = loose.length + packed.length ∧
    report.packfiles = packFileCount fs gitDir ∧ ∀ e ∈ loose ++ packed, roundtripOk sha1 e.2.encode = .ok e.1

/-- A report means that something was checked. -/
def GateContract (sha1 : List UInt8 → GitOid) (inflate : Inflate) (fs : GitDisk) (path : List Str) : Prop :=
  ∀ report, verifyRepo sha1 inflate fs path = .ok report → 1 ≤ report.total ∧ Gated sha1 inflate fs path report

theorem verifyRepo_ok {fs : GitDisk} {path : List Str} {report : GitReport}
    (h : verifyRepo sha1 inflate fs path = .ok report) :
    Gated sha1 inflate fs path report ∧ ¬ (report.total = 0 ∧ report.packfiles = 0) := by
  unfold verifyRepo at h
  obtain ⟨gitDir, hdir, h⟩ := bind_eq_ok.mp h
  obtain ⟨loose, hloose, h⟩ := bind_eq_ok.mp h
  obtain ⟨first, hfirst, h⟩ := bind_eq_ok.mp h
  obtain ⟨packed, hpacked, h⟩ := bind_eq_ok.mp h
  obtain ⟨second, hsecond, h⟩ := bind_eq_ok.mp h
  split at h
  · cases h
  · rename_i hsome
    cases h
    obtain ⟨htotal, hpacks, hgated⟩ := gateAll_ok hfirst
    obtain ⟨htotal', hpacks', hgated'⟩ := gateAll_ok hsecond
    refine ⟨⟨gitDir, loose, packed, hdir, hloose, hpacked, ?_, hpacks'.trans hpacks,
      List.forall_mem_append.mpr ⟨hgated, hgated'⟩⟩, hsome⟩
    rw [htotal', htotal]
    exact congrArg (· + packed.length) (Nat.zero_add _)

/-! ## Packs without objects -/

/-- An index of no entries. -/
structure EmptyIdx (idx : List UInt8) : Prop where
  tables : 1032 ≤ idx.length
  magic : idx.take 4 = idxMagic
  version : readBeU32 idx 4 = .ok 2
  count : readBeU32 idx (8 + 255 * 4) = .ok 0

/-- A pack of no entries. -/
structure EmptyPack (pack : List UInt8) : Prop where
  header : 12 ≤ pack.length
  magic : pack.take 4 = utf8 "PACK".toList
  version : readBeU32 pack 4 = .ok 2 ∨ readBeU32 pack 4 = .ok 3
  count : readBeU32 pack 8 = .ok 0

theorem parseIdx_eq_nil_iff {idx : List UInt8} : parseIdx idx = .ok [] ↔ EmptyIdx idx := by
  rw [parseIdx_eq_ok_iff]
  constructor
  · rintro ⟨-, hmagic, hversion, hcount, htables, -⟩
    exact ⟨htables, hmagic, hversion, hcount⟩
  · intro h
    have htables := h.tables
    exact ⟨by omega, h.magic, h.version, h.count, htables, fun i e he => by cases he⟩

theorem parsePackHeader_eq_zero_iff {pack : List UInt8} : parsePackHeader pack = .ok 0 ↔ EmptyPack pack := by
  unfold parsePackHeader
  constructor
  · intro h
    split at h
    · cases h
    · rename_i hmagic
      rw [not_or, Nat.not_lt, not_not] at hmagic
      obtain ⟨version, hversion, h⟩ := bind_eq_ok.mp h
      split at h
      · cases h
      · rename_i hknown
        rw [ne_eq, ne_eq, not_and_or, not_not, not_not] at hknown
        refine ⟨hmagic.1, hmagic.2, hknown.imp (fun heq => ?_) (fun heq => ?_), h⟩
        · rw [hversion, heq]
        · rw [hversion, heq]
  · intro h
    rw [if_neg (not_or.mpr ⟨Nat.not_lt.mpr h.header, not_not.mpr h.magic⟩)]
    cases h.version with
    | inl hversion => exact bind_eq_ok.mpr ⟨2, hversion, (if_neg (by decide)).trans h.count⟩
    | inr hversion => exact bind_eq_ok.mpr ⟨3, hversion, (if_neg (by decide)).trans h.count⟩

/-- Each entry of an index gives an object. -/
theorem length_readEntries {pack : List UInt8} {oidToOffset : BTreeMap GitOid Nat} {index : List (GitOid × Nat)}
    {memo : Memo} {out out' : PackDecode} (h : readEntries sha1 inflate pack oidToOffset index memo out = .ok out') :
    out'.objects.length = out.objects.length + index.length := by
  induction index generalizing memo out with
  | nil =>
      cases h
      rfl
  | cons e index ih =>
      rw [readEntries] at h
      obtain ⟨typeId, -, h⟩ := bind_eq_ok.mp h
      obtain ⟨resolved, -, h⟩ := bind_eq_ok.mp h
      obtain ⟨canonical, -, h⟩ := bind_eq_ok.mp h
      simp only [ne_eq, ite_not] at h
      split at h
      · obtain ⟨object, -, h⟩ := bind_eq_ok.mp h
        rw [ih h, List.length_append, List.length_singleton, List.length_cons]
        omega
      · cases h

theorem readPack_eq_nil_iff {idx pack : List UInt8} :
    readPack sha1 inflate idx pack = .ok [] ↔ EmptyIdx idx ∧ EmptyPack pack := by
  rw [← parseIdx_eq_nil_iff, ← parsePackHeader_eq_zero_iff]
  unfold readPack readPackDetailed
  simp only [ne_eq, ite_not]
  constructor
  · intro h
    obtain ⟨out, h, hobjects⟩ := map_eq_ok.mp h
    obtain ⟨index, hindex, h⟩ := bind_eq_ok.mp h
    obtain ⟨count, hcount, h⟩ := bind_eq_ok.mp h
    split at h
    · rename_i hsame
      have hlength := length_readEntries h
      rw [hobjects, List.length_nil, Nat.zero_add] at hlength
      obtain rfl : index = [] := List.length_eq_zero_iff.mp hlength.symm
      exact ⟨hindex, hcount.trans (congrArg _ hsame)⟩
    · cases h
  · rintro ⟨hindex, hcount⟩
    refine map_eq_ok.mpr ⟨⟨[], 0, 0⟩, bind_eq_ok.mpr ⟨[], hindex, bind_eq_ok.mpr ⟨0, hcount, ?_⟩⟩, rfl⟩
    rw [List.length_nil, if_pos rfl, readEntries]

/-! ## Repositories of empty packs -/

/-- No file stands where a loose object would. -/
def NoLooseFile (fs : GitDisk) (gitDir : List Str) : Prop :=
  ∃ shards, fs.list (objectsDir gitDir) = .ok shards ∧ ∀ name ∈ shards, isHexName 2 name = true →
    fs[objectsDir gitDir ++ [name]]? = some .directory ∧
      ∀ file ∈ fs.readDir (objectsDir gitDir ++ [name]), isHexName 38 file = false

/-- A pack file without objects, with its index. -/
def EmptyPackFile (fs : GitDisk) (dir : List Str) (name : Str) : Prop :=
  ∃ idx pack, fs.read (dir ++ [(splitExtension name).1 ++ ".idx".toList]) = .ok idx ∧
    fs.read (dir ++ [name]) = .ok pack ∧ EmptyIdx idx ∧ EmptyPack pack

/-- There are packs, and nothing else, and the packs have no objects. -/
def OnlyEmptyPacks (fs : GitDisk) (gitDir : List Str) : Prop :=
  NoLooseFile fs gitDir ∧ ∃ names, fs.list (packDir gitDir) = .ok names ∧ (∃ name ∈ names, isPackName name = true) ∧
    ∀ name ∈ names, isPackName name = true → EmptyPackFile fs (packDir gitDir) name

theorem mapM_eq_nil_iff {α β ε : Type} {f : α → Except ε β} {l : List α} : l.mapM f = .ok [] ↔ l = [] := by
  rw [mapM_eq_ok_iff, List.forall₂_nil_right_iff]

/-- Lists that are put together to nothing are nothing themselves. -/
theorem mapM_flatten_nil_iff {α β ε : Type} {f : α → Except ε (List β)} {l : List α} :
    (∃ found, l.mapM f = .ok found ∧ found.flatten = []) ↔ ∀ a ∈ l, f a = .ok [] := by
  constructor
  · rintro ⟨found, hfound, hnil⟩
    rw [mapM_eq_ok_iff] at hfound
    induction hfound with
    | nil => exact List.forall_mem_nil _
    | cons ha _ ih =>
        rw [List.flatten_cons, List.append_eq_nil_iff] at hnil
        exact List.forall_mem_cons.mpr ⟨hnil.1 ▸ ha, ih hnil.2⟩
  · intro h
    induction l with
    | nil => exact ⟨[], rfl, rfl⟩
    | cons a l ih =>
        obtain ⟨ha, hl⟩ := List.forall_mem_cons.mp h
        obtain ⟨found, hfound, hnil⟩ := ih hl
        refine ⟨[] :: found, mapM_eq_ok_iff.mpr (.cons ha (mapM_eq_ok_iff.mp hfound)), ?_⟩
        rwa [List.flatten_cons, List.nil_append]

theorem walkShard_eq_nil_iff {fs : GitDisk} {shard : List Str} :
    walkShard sha1 inflate fs shard = .ok [] ↔
      fs[shard]? = some .directory ∧ ∀ file ∈ fs.readDir shard, isHexName 38 file = false := by
  unfold walkShard
  split
  · rename_i hdir
    rw [mapM_eq_nil_iff, List.filter_eq_nil_iff]
    simp only [Bool.not_eq_true]
    exact ⟨fun h => ⟨hdir, h⟩, fun h => h.2⟩
  · rename_i hother
    exact iff_of_false (fun h => by cases h) fun h => hother h.1

theorem walkLoose_eq_nil_iff {fs : GitDisk} {gitDir : List Str} :
    walkLoose sha1 inflate fs gitDir = .ok [] ↔ NoLooseFile fs gitDir := by
  unfold walkLoose
  rw [bind_eq_ok]
  refine exists_congr fun shards => and_congr_right fun _ => ?_
  have hfound : ((shards.filter (isHexName 2)).mapM (fun name =>
        walkShard sha1 inflate fs (objectsDir gitDir ++ [name])) >>= fun found => Except.ok found.flatten) = .ok [] ↔
      ∃ found, (shards.filter (isHexName 2)).mapM (fun name =>
        walkShard sha1 inflate fs (objectsDir gitDir ++ [name])) = .ok found ∧ found.flatten = [] := by
    rw [bind_eq_ok]
    simp only [Except.ok.injEq]
  rw [hfound, mapM_flatten_nil_iff]
  simp only [List.mem_filter, and_imp, walkShard_eq_nil_iff]

theorem readPackFile_eq_nil_iff {fs : GitDisk} {dir : List Str} {name : Str} :
    readPackFile sha1 inflate fs dir name = .ok [] ↔ EmptyPackFile fs dir name := by
  unfold readPackFile EmptyPackFile
  simp only [bind_eq_ok, readPack_eq_nil_iff]
  constructor
  · rintro ⟨idx, hidx, pack, hpack, hempty⟩
    exact ⟨idx, pack, hidx, hpack, hempty⟩
  · rintro ⟨idx, pack, hidx, hpack, hempty⟩
    exact ⟨idx, hidx, pack, hpack, hempty⟩

theorem readAllPacks_eq_nil_iff {fs : GitDisk} {gitDir : List Str} :
    readAllPacks sha1 inflate fs gitDir = .ok [] ↔
      ∃ names, fs.list (packDir gitDir) = .ok names ∧
        ∀ name ∈ names, isPackName name = true → EmptyPackFile fs (packDir gitDir) name := by
  unfold readAllPacks packPaths
  simp only [bind_eq_ok, map_eq_ok, exists_exists_and_eq_and, Except.ok.injEq]
  refine exists_congr fun names => and_congr_right fun _ => ?_
  rw [mapM_flatten_nil_iff]
  simp only [(perm_sortByKey id _).mem_iff, List.mem_filter, and_imp, readPackFile_eq_nil_iff]

/-- The gate keeps its contract on every repository but those that consist of empty packs. -/
theorem gateContract_iff (fs : GitDisk) (path : List Str) :
    GateContract sha1 inflate fs path ↔ ¬ ∃ gitDir, resolveGitDir fs path = .ok gitDir ∧ OnlyEmptyPacks fs gitDir := by
  constructor
  · rintro hcontract ⟨gitDir, hdir, hloose, names, hnames, ⟨name, hname, hpack⟩, hpacks⟩
    have hcount : packFileCount fs gitDir ≠ 0 := by
      unfold packFileCount
      rw [hnames]
      exact (List.length_pos_of_mem (List.mem_filter.mpr ⟨hname, hpack⟩)).ne'
    -- Both walks find nothing, so the report is as it started but for the packs it counts.
    have hrun : verifyRepo sha1 inflate fs path = .ok ⟨0, 0, 0, 0, packFileCount fs gitDir⟩ := by
      unfold verifyRepo
      refine bind_eq_ok.mpr ⟨gitDir, hdir, bind_eq_ok.mpr ⟨[], walkLoose_eq_nil_iff.mpr hloose, ?_⟩⟩
      refine bind_eq_ok.mpr ⟨_, rfl, bind_eq_ok.mpr ⟨[], readAllPacks_eq_nil_iff.mpr ⟨names, hnames, hpacks⟩, ?_⟩⟩
      refine bind_eq_ok.mpr ⟨_, rfl, if_neg fun h => hcount h.2⟩
    exact absurd (hcontract _ hrun).1 (Nat.not_succ_le_zero 0)
  · intro hnot report h
    obtain ⟨hgated, hsome⟩ := verifyRepo_ok h
    refine ⟨Nat.pos_of_ne_zero fun hzero => ?_, hgated⟩
    obtain ⟨gitDir, loose, packed, hdir, hloose, hpacked, htotal, hpacks, -⟩ := hgated
    obtain rfl : loose = [] := List.length_eq_zero_iff.mp (by omega)
    obtain rfl : packed = [] := List.length_eq_zero_iff.mp (by omega)
    obtain ⟨names, hnames, hempty⟩ := readAllPacks_eq_nil_iff.mp hpacked
    refine hnot ⟨gitDir, hdir, walkLoose_eq_nil_iff.mp hloose, names, hnames, ?_, hempty⟩
    have hcount : packFileCount fs gitDir ≠ 0 := fun h0 => hsome ⟨hzero, hpacks.trans h0⟩
    unfold packFileCount at hcount
    rw [hnames] at hcount
    obtain ⟨name, hname⟩ := List.length_pos_iff_exists_mem.mp (Nat.pos_of_ne_zero hcount)
    exact ⟨name, List.mem_filter.mp hname⟩

end

/-- The pack of no objects. -/
def noObjectsPack : List UInt8 :=
  utf8 "PACK".toList ++ Sha.bytesOf 4 2 ++ Sha.bytesOf 4 0 ++
    [0x02, 0x9d, 0x08, 0x82, 0x3b, 0xd8, 0xa8, 0xea, 0xb5, 0x10, 0xad, 0x6a, 0xc7, 0x5c,
    0x82, 0x3c, 0xfd, 0x3e, 0xd3, 0x1e]

/-- Its index. -/
def noObjectsIdx : List UInt8 :=
  (⟨[], [], [], noObjectsPack.drop 12⟩ : IdxTables).bytes [] ++
    [0x90, 0xd3, 0x93, 0x34, 0xe2, 0x46, 0x47, 0x63, 0x17, 0xea, 0x46, 0x9e, 0x57, 0xa7,
    0xa5, 0xbd, 0xb8, 0x46, 0x74, 0x68]

/-- A git directory with the pack of no objects in it. -/
def noObjectsDisk : GitDisk :=
  let write := fun (fs : GitDisk) (dir : List Str) name bytes => (fs.put (dir.map .down) name bytes).getD ∅
  let fs := write ∅ ["g".toList] "HEAD".toList (utf8 "ref: refs/heads/main\n".toList)
  let fs := write fs (packDir ["g".toList]) "empty.idx".toList noObjectsIdx
  write fs (packDir ["g".toList]) "empty.pack".toList noObjectsPack

/-- The gate passes over it without an object checked, whatever inflates the streams. -/
theorem gateContract_fails : ¬ ∃ inflate, GateContract .ofSha1 inflate noObjectsDisk ["g".toList] := by
  rintro ⟨inflate, hcontract⟩
  refine (gateContract_iff _ _).mp hcontract ⟨["g".toList], by decide +kernel, ?_, ?_⟩
  · exact ⟨["pack".toList], by decide +kernel, by decide +kernel⟩
  · refine ⟨["empty.idx".toList, "empty.pack".toList], by decide +kernel, by decide +kernel, ?_⟩
    intro name hname hpack
    obtain rfl : name = "empty.pack".toList := by
      cases hname with
      | head => exact absurd hpack (by decide +kernel)
      | tail _ hname => exact List.mem_singleton.mp hname
    exact ⟨noObjectsIdx, noObjectsPack, by decide +kernel, by decide +kernel,
      ⟨by decide +kernel, by decide +kernel, by decide +kernel, by decide +kernel⟩,
      ⟨by decide +kernel, by decide +kernel, .inl (by decide +kernel), by decide +kernel⟩⟩

end Omoplata
