-- SUMMARY: What an export leaves on disk, and reading its objects back.
import Omoplata.Git.Export

/-!
# Exports on disk

An export leaves one file for each object and each ref, and the directories on the way to
them. Read back, its objects are those of the import.
-/

open Codec FileSystem

namespace Omoplata

/-! ## Names of loose objects -/

theorem isHexDigit_of_mem_hex {oid : GitOid} {c : Char} (h : c ∈ oid.hex) : isHexDigit c ∧ c.utf8Size = 1 := by
  have hdigit : ∀ n < 16, isHexDigit (hexDigit n) ∧ (hexDigit n).utf8Size = 1 := by decide
  unfold GitOid.hex hexEncode at h
  obtain ⟨b, -, hc⟩ := List.mem_flatMap.mp h
  have hlt : b.toNat < 256 := b.toNat_lt
  rw [List.mem_cons, List.mem_singleton] at hc
  obtain rfl | rfl := hc
  · exact hdigit _ (by omega)
  · exact hdigit _ (by omega)

theorem length_hex (oid : GitOid) : oid.hex.length = 40 := by
  have hlength : ∀ bytes : List UInt8, (hexEncode bytes).length = 2 * bytes.length := by
    intro bytes
    induction bytes with
    | nil => rfl
    | cons b bytes ih =>
        rw [List.length_cons, Nat.mul_succ, ← ih]
        rfl
  unfold GitOid.hex
  rw [hlength, oid.length_bytes]

theorem take_append_looseName (oid : GitOid) : oid.hex.take 2 ++ looseName oid = oid.hex := List.take_append_drop 2 _

theorem isHexName_take (oid : GitOid) : isHexName 2 (oid.hex.take 2) = true := by
  unfold isHexName
  rw [decide_eq_true_eq, List.length_take, length_hex, List.all_eq_true]
  exact ⟨rfl, fun c hc => (isHexDigit_of_mem_hex (List.mem_of_mem_take hc)).1⟩

theorem isHexName_looseName (oid : GitOid) : isHexName 38 (looseName oid) = true := by
  unfold isHexName looseName
  rw [decide_eq_true_eq, List.length_drop, length_hex, List.all_eq_true]
  exact ⟨rfl, fun c hc => (isHexDigit_of_mem_hex (List.mem_of_mem_drop hc)).1⟩

theorem length_utf8_of_hex {s : Str} (h : ∀ c ∈ s, c.utf8Size = 1) : (utf8 s).length = s.length := by
  unfold utf8
  induction s with
  | nil => rfl
  | cons c s ih =>
      obtain ⟨hc, hs⟩ := List.forall_mem_cons.mp h
      rw [List.flatMap_cons, List.length_append, ih hs, String.length_utf8EncodeChar, hc, List.length_cons, Nat.add_comm]

/-- Where a loose object is. -/
def looseLoc (outDir : List Str) (oid : GitOid) : List Str := looseShard outDir oid ++ [looseName oid]

theorem looseLoc_injective (outDir : List Str) : Function.Injective (looseLoc outDir) := by
  intro a b h
  unfold looseLoc looseShard at h
  obtain ⟨hshard, hname⟩ := List.append_inj' h rfl
  have htake := List.append_cancel_left hshard
  rw [List.cons.injEq] at htake hname
  apply GitOid.hex_injective
  rw [← take_append_looseName a, ← take_append_looseName b, htake.1, hname.1]

theorem oidFromLoosePath_looseLoc (outDir : List Str) (oid : GitOid) : oidFromLoosePath (looseLoc outDir oid) = .ok oid := by
  have hdir : (utf8 (oid.hex.take 2)).length = 2 := by
    rw [length_utf8_of_hex fun c hc => (isHexDigit_of_mem_hex (List.mem_of_mem_take hc)).2, List.length_take, length_hex]
    rfl
  have hfile : (utf8 (looseName oid)).length = 38 := by
    unfold looseName
    rw [length_utf8_of_hex fun c hc => (isHexDigit_of_mem_hex (List.mem_of_mem_drop hc)).2, List.length_drop, length_hex]
  unfold oidFromLoosePath looseLoc looseShard
  rw [List.getLast?_concat, List.dropLast_concat, List.getLast?_concat]
  refine (if_neg ?_).trans ?_
  · rw [hdir, hfile]
    decide
  · rw [take_append_looseName, GitOid.fromHex_hex]
    rfl

/-! ## What an export writes -/

/-- A directory with nothing in it. -/
structure EmptyDirectory (fs : GitDisk) (dir : List Str) : Prop where
  stands : ∀ front, front <+: dir → front ≠ [] → fs[front]? = some .directory
  empty : ∀ name rest, fs[dir ++ name :: rest]? = none

/-- Names of refs as git has them: `HEAD` or below `refs`, of proper components, none below another one. -/
structure RefNames (names : List Str) : Prop where
  top : ∀ name ∈ names, name.splitOn '/' = ["HEAD".toList] ∨ ∃ rest, name.splitOn '/' = "refs".toList :: rest
  proper : ∀ name ∈ names, ∀ c ∈ name.splitOn '/', c ≠ [] ∧ c ≠ ['.'] ∧ c ≠ ['.', '.'] ∧ Char.ofNat 0 ∉ c
  apart : ∀ name ∈ names, ∀ name' ∈ names, name.splitOn '/' <+: name'.splitOn '/' → name = name'

/-- Where a ref is. -/
def refLoc (outDir : List Str) (name : Str) : List Str := outDir ++ name.splitOn '/'

def objectWrites (deflate : List UInt8 → List UInt8) (outDir : List Str) (ordered : List (GitOid × GitObject)) :
    List (List Str × List UInt8) :=
  ordered.map fun e => (looseLoc outDir e.1, deflate e.2.encode)

def refWrites (outDir : List Str) (refs : List (Str × GitOid)) : List (List Str × List UInt8) :=
  refs.map fun e => (refLoc outDir e.1, utf8 (e.2.hex ++ ['\n']))

section

variable {sha1 : List UInt8 → GitOid} {deflate : List UInt8 → List UInt8} {fs fs₁ : GitDisk} {outDir : List Str}

/-- No file is on the way to anything in an empty directory. -/
theorem EmptyDirectory.not_file (h : EmptyDirectory fs outDir) {front below : List Str} (hfront : front <+: outDir ++ below)
    (hne : front ≠ []) (c : List UInt8) : fs[front]? ≠ some (.file c) := by
  obtain hup | ⟨rest, rfl⟩ := List.prefix_or_prefix_of_prefix hfront (List.prefix_append outDir below)
  · rw [h.stands front hup hne]
    exact nofun
  · cases rest with
    | nil =>
        rw [List.append_nil] at hne ⊢
        rw [h.stands outDir List.prefix_rfl hne]
        exact nofun
    | cons name rest =>
        rw [h.empty]
        exact nofun

theorem EmptyDirectory.not_directory (h : EmptyDirectory fs outDir) (name : Str) (rest : List Str) :
    fs[outDir ++ name :: rest]? ≠ some .directory := by
  rw [h.empty]
  exact nofun

theorem looseLoc_eq (outDir : List Str) (oid : GitOid) :
    looseLoc outDir oid = outDir ++ ["objects".toList, oid.hex.take 2, looseName oid] := by
  simp [looseLoc, looseShard, objectsDir]

theorem not_looseLoc_prefix {oid oid' : GitOid} (hne : oid ≠ oid') : ¬looseLoc outDir oid <+: looseLoc outDir oid' := by
  intro h
  refine hne (looseLoc_injective outDir (h.eq_of_length ?_))
  simp [looseLoc_eq]

variable (deflate) in
/-- The objects of an import are written, each under its id, where nothing is in the way. -/
theorem exportObjects_written (hempty : EmptyDirectory fs outDir) {ordered : List (GitOid × GitObject)}
    (hhash : ∀ e ∈ ordered, sha1 e.2.encode = e.1) (hnodup : (ordered.map Prod.fst).Nodup)
    {writes : List (List Str × List UInt8)} (hwritten : Table.Written fs fs₁ writes)
    (hapart : ∀ e ∈ ordered, ∀ w ∈ writes, ¬w.1 <+: looseLoc outDir e.1 ∧ ¬looseLoc outDir e.1 <+: w.1) (objects : Nat) :
    ∃ fs', exportObjects sha1 deflate outDir ordered objects fs₁ = (.ok (objects + ordered.length), fs') ∧
      Table.Written fs fs' (writes ++ objectWrites deflate outDir ordered) := by
  induction ordered generalizing fs₁ writes objects with
  | nil => exact ⟨fs₁, rfl, by rwa [objectWrites, List.map_nil, List.append_nil]⟩
  | cons e ordered ih =>
      obtain ⟨oid, object⟩ := e
      obtain ⟨hself, hrest⟩ := List.forall_mem_cons.mp hhash
      obtain ⟨hnew, hnodup⟩ := List.nodup_cons.mp hnodup
      obtain ⟨hfree, hfree'⟩ := List.forall_mem_cons.mp hapart
      have hshard : looseShard outDir oid = outDir ++ ["objects".toList, oid.hex.take 2] := by
        simp [looseShard, objectsDir]
      obtain ⟨fs₂, hput, hwritten₂⟩ := hwritten.put (looseShard outDir oid) (looseName oid) (deflate object.encode)
        (fun front hfront hne => hempty.not_file (hshard ▸ hfront) hne)
        (by rw [hshard, List.append_assoc]; exact hempty.not_directory _ _) hfree
      have hapart₂ : ∀ e ∈ ordered, ∀ w ∈ writes ++ [(looseLoc outDir oid, deflate object.encode)],
          ¬w.1 <+: looseLoc outDir e.1 ∧ ¬looseLoc outDir e.1 <+: w.1 := by
        intro e he
        rw [List.forall_mem_append, List.forall_mem_singleton]
        have hmem : e.1 ∈ ordered.map Prod.fst := List.mem_map_of_mem he
        have hne : oid ≠ e.1 := fun heq => hnew (heq ▸ hmem)
        exact ⟨hfree' e he, not_looseLoc_prefix hne, not_looseLoc_prefix (Ne.symm hne)⟩
      obtain ⟨fs', hexport, hwritten'⟩ := ih hrest hnodup hwritten₂ hapart₂ (objects + 1)
      refine ⟨fs', ?_, ?_⟩
      · have hself' : sha1 object.encode = oid := hself
        unfold exportObjects writeLoose
        simp only [hself', hput, ne_eq, not_true_eq_false, if_false]
        rw [hexport, List.length_cons, Nat.add_assoc, Nat.add_comm 1]
      · rwa [List.append_assoc] at hwritten'

/-- An export that goes well wrote objects that hash to their ids. -/
theorem hash_of_exportObjects {ordered : List (GitOid × GitObject)} {objects n : Nat} {fs' : GitDisk}
    (h : exportObjects sha1 deflate outDir ordered objects fs = (.ok n, fs')) : ∀ e ∈ ordered, sha1 e.2.encode = e.1 := by
  induction ordered generalizing fs objects with
  | nil => simp
  | cons e ordered ih =>
      obtain ⟨oid, object⟩ := e
      unfold exportObjects at h
      split at h
      · cases h
      · rename_i written fs₁ hwrite
        split at h
        · cases h
        · rename_i heq
          refine List.forall_mem_cons.mpr ⟨?_, ih h⟩
          unfold writeLoose at hwrite
          simp only at hwrite
          split at hwrite
          · cases hwrite
          · cases hwrite
            exact not_not.mp heq

theorem steps_of_refName {names : List Str} (h : RefNames names) {name : Str} (hname : name ∈ names) :
    stepsOf name = (name.splitOn '/').map .down ∧ representable (stepsOf name) = true := by
  have hproper := h.proper name hname
  have hsteps : stepsOf name = (name.splitOn '/').map .down := by
    unfold stepsOf
    generalize name.splitOn '/' = comps at hproper
    induction comps with
    | nil => rfl
    | cons c comps ih =>
        obtain ⟨⟨hne, hdot, hdots, -⟩, hrest⟩ := List.forall_mem_cons.mp hproper
        have hstep : stepOf c = some (.down c) := by
          unfold stepOf
          rw [if_neg (not_or.mpr ⟨hne, hdot⟩), if_neg hdots]
        rw [List.filterMap_cons_some hstep, ih hrest, List.map_cons]
  refine ⟨hsteps, ?_⟩
  unfold representable
  rw [hsteps, List.all_eq_true, List.forall_mem_map]
  intro c hc
  simp only [List.contains_eq_mem, (hproper c hc).2.2.2, decide_false, Bool.not_false]

/-- A ref is written to a file at its name where nothing is in the way. -/
theorem writeRef_written (hempty : EmptyDirectory fs outDir) {names : List Str} (hnames : RefNames names) {name : Str}
    (hname : name ∈ names) (oid : GitOid) {writes : List (List Str × List UInt8)}
    (hwritten : Table.Written fs fs₁ writes)
    (hapart : ∀ w ∈ writes, ¬w.1 <+: refLoc outDir name ∧ ¬refLoc outDir name <+: w.1) :
    ∃ fs', writeRef fs₁ outDir name oid = (.ok (), fs') ∧
      Table.Written fs fs' (writes ++ [(refLoc outDir name, utf8 (oid.hex ++ ['\n']))]) := by
  obtain ⟨hsteps, hrepresentable⟩ := steps_of_refName hnames hname
  have hproper := hnames.proper name hname
  obtain ⟨front, last, hsplit⟩ : ∃ front last, name.splitOn '/' = front ++ [last] :=
    ⟨_, _, (List.dropLast_concat_getLast (List.splitOn_ne_nil _ _)).symm⟩
  have hloc : refLoc outDir name = outDir ++ front ++ [last] := by rw [refLoc, hsplit, List.append_assoc]
  have hstep : stepOf last = some (.down last) := by
    obtain ⟨hne, hdot, hdots, -⟩ := hproper last (by rw [hsplit]; simp)
    unfold stepOf
    rw [if_neg (not_or.mpr ⟨hne, hdot⟩), if_neg hdots]
  have hplace : fs[outDir ++ front ++ [last]]? ≠ some .directory := by
    rw [List.append_assoc]
    cases front with
    | nil => exact hempty.not_directory last []
    | cons c front => exact hempty.not_directory c _
  obtain ⟨fs', hput, hwritten'⟩ := hwritten.put (outDir ++ front) last (utf8 (oid.hex ++ ['\n']))
    (fun front hfront hne => hempty.not_file hfront hne) hplace (hloc ▸ hapart)
  refine ⟨fs', ?_, hloc ▸ hwritten'⟩
  have hpath : (outDir.map Step.down ++ stepsOf name).dropLast = (outDir ++ front).map Step.down := by
    rw [hsteps, hsplit, ← List.map_append, ← List.append_assoc, List.map_append, List.map_singleton, List.dropLast_concat]
  unfold writeRef
  simp only [hpath, hrepresentable, hsplit, List.getLastD_concat, hstep, if_true, hput]

/-- The refs of an import are written, each at its name, where nothing is in the way. -/
theorem exportRefs_written (hempty : EmptyDirectory fs outDir) {names : List Str} (hnames : RefNames names)
    {refs : List (Str × GitOid)} (hrefs : ∀ e ∈ refs, e.1 ∈ names) (hnodup : (refs.map Prod.fst).Nodup)
    {writes : List (List Str × List UInt8)} (hwritten : Table.Written fs fs₁ writes)
    (hapart : ∀ e ∈ refs, ∀ w ∈ writes, ¬w.1 <+: refLoc outDir e.1 ∧ ¬refLoc outDir e.1 <+: w.1) (count : Nat) :
    ∃ fs', exportRefs outDir refs count fs₁ = (.ok (count + refs.length), fs') ∧
      Table.Written fs fs' (writes ++ refWrites outDir refs) := by
  induction refs generalizing fs₁ writes count with
  | nil => exact ⟨fs₁, rfl, by rwa [refWrites, List.map_nil, List.append_nil]⟩
  | cons e refs ih =>
      obtain ⟨name, oid⟩ := e
      obtain ⟨hname, hrest⟩ := List.forall_mem_cons.mp hrefs
      obtain ⟨hnew, hnodup⟩ := List.nodup_cons.mp hnodup
      obtain ⟨hfree, hfree'⟩ := List.forall_mem_cons.mp hapart
      obtain ⟨fs₂, hwrite, hwritten₂⟩ := writeRef_written hempty hnames hname oid hwritten hfree
      have hbelow : ∀ name ∈ names, ∀ name' ∈ names, name ≠ name' → ¬refLoc outDir name <+: refLoc outDir name' := by
        intro name hn name' hn' hne hfront
        exact hne (hnames.apart name hn name' hn' ((List.prefix_append_right_inj outDir).mp hfront))
      have hapart₂ : ∀ e ∈ refs, ∀ w ∈ writes ++ [(refLoc outDir name, utf8 (oid.hex ++ ['\n']))],
          ¬w.1 <+: refLoc outDir e.1 ∧ ¬refLoc outDir e.1 <+: w.1 := by
        intro e he
        rw [List.forall_mem_append, List.forall_mem_singleton]
        have hmem : e.1 ∈ refs.map Prod.fst := List.mem_map_of_mem he
        have hne : name ≠ e.1 := fun heq => hnew (heq ▸ hmem)
        exact ⟨hfree' e he, hbelow _ hname _ (hrest e he) hne, hbelow _ (hrest e he) _ hname (Ne.symm hne)⟩
      obtain ⟨fs', hexport, hwritten'⟩ := ih hrest hnodup hwritten₂ hapart₂ (count + 1)
      refine ⟨fs', ?_, ?_⟩
      · unfold exportRefs
        simp only [hwrite]
        rw [hexport, List.length_cons, Nat.add_assoc, Nat.add_comm 1]
      · rwa [List.append_assoc] at hwritten'

variable (outDir) in
theorem refLoc_eq {names : List Str} (hnames : RefNames names) {name : Str} (hname : name ∈ names) :
    ∃ c rest, refLoc outDir name = outDir ++ c :: rest ∧ "objects".toList ≠ c := by
  obtain hsplit | ⟨rest, hsplit⟩ := hnames.top name hname
  · exact ⟨_, [], by rw [refLoc, hsplit], by decide⟩
  · exact ⟨_, rest, by rw [refLoc, hsplit], by decide⟩

theorem not_prefix_refLoc {names : List Str} (hnames : RefNames names) {name : Str} (hname : name ∈ names)
    (below : List Str) :
    ¬outDir ++ "objects".toList :: below <+: refLoc outDir name ∧
      ¬refLoc outDir name <+: outDir ++ "objects".toList :: below := by
  obtain ⟨c, rest, hloc, hne⟩ := refLoc_eq outDir hnames hname
  rw [hloc, List.prefix_append_right_inj, List.prefix_append_right_inj, List.cons_prefix_cons, List.cons_prefix_cons]
  exact ⟨fun h => hne h.1, fun h => hne h.1.symm⟩

end

/-! ## Reading it back -/

section

variable {sha1 : List UInt8 → GitOid} {inflate : Inflate} {deflate : List UInt8 → List UInt8} {fs fs' : GitDisk}
  {outDir : List Str} {ordered : List (GitOid × GitObject)} {refs : List (Str × GitOid)} {names : List Str}
  (hempty : EmptyDirectory fs outDir) (hnames : RefNames names) (hrefs : ∀ e ∈ refs, e.1 ∈ names)
  (hwritten : Table.Written fs fs' (objectWrites deflate outDir ordered ++ refWrites outDir refs))

include hempty hnames hrefs hwritten

/-- What stands below the objects is an object, or a directory on the way to one. -/
theorem below_objects {name : Str} {below : List Str} {entry : Entry (List UInt8)}
    (h : fs'[outDir ++ "objects".toList :: name :: below]? = some entry) :
    (∃ e ∈ ordered, outDir ++ "objects".toList :: name :: below = looseLoc outDir e.1 ∧
      entry = .file (deflate e.2.encode)) ∨
    entry = .directory ∧ ∃ e ∈ ordered, outDir ++ "objects".toList :: name :: below <+: looseLoc outDir e.1 ∧
      outDir ++ "objects".toList :: name :: below ≠ looseLoc outDir e.1 := by
  by_cases hwrite : ∀ w ∈ objectWrites deflate outDir ordered ++ refWrites outDir refs,
      w.1 ≠ outDir ++ "objects".toList :: name :: below
  · right
    obtain hsame | ⟨-, hmade, w, hw, hfront⟩ := hwritten.others _ hwrite
    · rw [hempty.empty, h] at hsame
      cases hsame
    · refine ⟨Option.some.inj (h.symm.trans hmade), ?_⟩
      obtain hw' | hw' := List.mem_append.mp hw
      · obtain ⟨e, he, rfl⟩ := List.mem_map.mp hw'
        exact ⟨e, he, hfront, (hwrite _ hw).symm⟩
      · obtain ⟨e, he, rfl⟩ := List.mem_map.mp hw'
        exact absurd hfront (not_prefix_refLoc hnames (hrefs e he) _).1
  · left
    simp only [ne_eq, not_forall, not_not, exists_prop] at hwrite
    obtain ⟨w, hw, hloc⟩ := hwrite
    have hfile := hwritten.files w hw
    rw [hloc, h] at hfile
    obtain hw' | hw' := List.mem_append.mp hw
    · obtain ⟨e, he, rfl⟩ := List.mem_map.mp hw'
      exact ⟨e, he, hloc.symm, Option.some.inj hfile⟩
    · obtain ⟨e, he, rfl⟩ := List.mem_map.mp hw'
      have hfront : refLoc outDir e.1 <+: outDir ++ "objects".toList :: name :: below := by
        rw [← hloc]
      exact absurd hfront (not_prefix_refLoc hnames (hrefs e he) _).2

/-- A directory of loose objects has the ids that start with its name. -/
theorem shard_entry {name : Str} {entry : Entry (List UInt8)}
    (h : fs'[objectsDir outDir ++ [name]]? = some entry) :
    entry = .directory ∧ ∃ e ∈ ordered, name = e.1.hex.take 2 := by
  have hloc : objectsDir outDir ++ [name] = outDir ++ ["objects".toList, name] := by simp [objectsDir]
  rw [hloc] at h
  obtain ⟨e, -, heq, -⟩ | ⟨rfl, e, he, hfront, -⟩ := below_objects hempty hnames hrefs hwritten h
  · have hlength := congrArg List.length heq
    simp [looseLoc_eq] at hlength
  · refine ⟨rfl, e, he, ?_⟩
    rw [looseLoc_eq, List.prefix_append_right_inj, List.cons_prefix_cons, List.cons_prefix_cons] at hfront
    exact hfront.2.1

/-- What is in there are the objects. -/
theorem shard_file {name file : Str} {entry : Entry (List UInt8)}
    (h : fs'[objectsDir outDir ++ [name] ++ [file]]? = some entry) :
    ∃ e ∈ ordered, objectsDir outDir ++ [name] ++ [file] = looseLoc outDir e.1 := by
  have hloc : objectsDir outDir ++ [name] ++ [file] = outDir ++ ["objects".toList, name, file] := by simp [objectsDir]
  rw [hloc] at h ⊢
  obtain ⟨e, he, heq, -⟩ | ⟨-, e, -, hfront, hne⟩ := below_objects hempty hnames hrefs hwritten h
  · exact ⟨e, he, heq⟩
  · exact absurd (hfront.eq_of_length (by simp [looseLoc_eq])) hne

variable (hhash : ∀ e ∈ ordered, sha1 e.2.encode = e.1)
  (hzlib : ∀ e ∈ ordered, ∃ n, inflate (deflate e.2.encode) = .ok (e.2.encode, n))
  (hdecode : ∀ e ∈ ordered, ∃ o, GitObject.decode e.2.encode = .ok o ∧ o.encode = e.2.encode)

include hhash hzlib hdecode

omit hempty hnames hrefs in
theorem readLoose_written {e : GitOid × GitObject} (he : e ∈ ordered) :
    ∃ o, readLoose sha1 inflate fs' (looseLoc outDir e.1) = .ok (e.1, o) ∧ o.encode = e.2.encode := by
  obtain ⟨o, ho, hencode⟩ := hdecode e he
  obtain ⟨n, hinflate⟩ := hzlib e he
  have hfile : fs'[looseLoc outDir e.1]? = some (.file (deflate e.2.encode)) :=
    hwritten.files _ (List.mem_append_left _ (List.mem_map_of_mem he))
  refine ⟨o, ?_, hencode⟩
  refine bind_eq_ok.mpr ⟨deflate e.2.encode, by rw [GitDisk.read, hfile], ?_⟩
  refine bind_eq_ok.mpr ⟨e.2.encode, by rw [Pack.inflateAt, hinflate], bind_eq_ok.mpr ⟨o, ho, ?_⟩⟩
  refine bind_eq_ok.mpr ⟨e.1, oidFromLoosePath_looseLoc outDir e.1, ?_⟩
  rw [hhash e he]
  exact if_neg (not_not.mpr rfl)

theorem walkShard_written {e : GitOid × GitObject} (he : e ∈ ordered) :
    ∃ found, walkShard sha1 inflate fs' (looseShard outDir e.1) = .ok found ∧
      (∀ p ∈ found, ∃ e ∈ ordered, p.1 = e.1 ∧ p.2.encode = e.2.encode) ∧
      ∀ e' ∈ ordered, e'.1.hex.take 2 = e.1.hex.take 2 → ∃ p ∈ found, p.1 = e'.1 := by
  have hdir : fs'[looseShard outDir e.1]? = some .directory := by
    refine hwritten.directories _ (List.mem_append_left _ (List.mem_map_of_mem he)) _ (List.prefix_append _ _) ?_ ?_
    · simp [looseLoc]
    · simp [looseShard]
  have hfiles : ∀ file ∈ (Table.readDir fs' (looseShard outDir e.1)).filter (isHexName 38),
      ∃ p, readLoose sha1 inflate fs' (looseShard outDir e.1 ++ [file]) = .ok p ∧
        ∃ e' ∈ ordered, looseShard outDir e.1 ++ [file] = looseLoc outDir e'.1 ∧ p.1 = e'.1 ∧
          p.2.encode = e'.2.encode := by
    intro file hfile
    obtain ⟨entry, hentry⟩ := Table.mem_readDir.mp (List.mem_of_mem_filter hfile)
    obtain ⟨e', he', hloc⟩ := shard_file hempty hnames hrefs hwritten hentry
    have hloc' : looseShard outDir e.1 ++ [file] = looseLoc outDir e'.1 := hloc
    obtain ⟨o, hread, hencode⟩ := readLoose_written hwritten hhash hzlib hdecode he'
    exact ⟨(e'.1, o), hloc' ▸ hread, e', he', hloc', rfl, hencode⟩
  obtain ⟨found, hfound, hfrom, hto⟩ := exists_mapM hfiles
  refine ⟨found, by rw [walkShard, hdir]; exact hfound, fun p hp => ?_, fun e' he' hshard => ?_⟩
  · obtain ⟨file, -, e', he', -, hoid, hencode⟩ := hfrom p hp
    exact ⟨e', he', hoid, hencode⟩
  · have hloc : looseShard outDir e.1 ++ [looseName e'.1] = looseLoc outDir e'.1 := by
      rw [looseLoc, looseShard, looseShard, hshard]
    have hfile : fs'[looseLoc outDir e'.1]? = some (.file (deflate e'.2.encode)) :=
      hwritten.files _ (List.mem_append_left _ (List.mem_map_of_mem he'))
    obtain ⟨p, hp, e'', -, hloc', hoid, -⟩ := hto (looseName e'.1)
      (List.mem_filter.mpr ⟨Table.mem_readDir.mpr ⟨_, hloc ▸ hfile⟩, isHexName_looseName e'.1⟩)
    exact ⟨p, hp, hoid.trans (looseLoc_injective outDir (hloc'.symm.trans hloc))⟩

/-- The loose objects of an export are those that were written. -/
theorem walkLoose_written (hne : ordered ≠ []) :
    ∃ found, walkLoose sha1 inflate fs' outDir = .ok found ∧
      (∀ p ∈ found, ∃ e ∈ ordered, p.1 = e.1 ∧ p.2.encode = e.2.encode) ∧
      ∀ e ∈ ordered, ∃ p ∈ found, p.1 = e.1 := by
  obtain ⟨first, hfirst⟩ := List.exists_mem_of_ne_nil _ hne
  have hdir : fs'[objectsDir outDir]? = some .directory := by
    refine hwritten.directories _ (List.mem_append_left _ (List.mem_map_of_mem hfirst)) _ ?_ ?_ ?_
    · exact (List.prefix_append _ _).trans (List.prefix_append _ _)
    · simp [looseLoc, looseShard]
    · simp [objectsDir]
  have hshards : ∀ name ∈ (Table.readDir fs' (objectsDir outDir)).filter (isHexName 2),
      ∃ found, walkShard sha1 inflate fs' (objectsDir outDir ++ [name]) = .ok found ∧
        (∀ p ∈ found, ∃ e ∈ ordered, p.1 = e.1 ∧ p.2.encode = e.2.encode) ∧
        ∀ e ∈ ordered, e.1.hex.take 2 = name → ∃ p ∈ found, p.1 = e.1 := by
    intro name hname
    obtain ⟨entry, hentry⟩ := Table.mem_readDir.mp (List.mem_of_mem_filter hname)
    obtain ⟨-, e, he, rfl⟩ := shard_entry hempty hnames hrefs hwritten hentry
    exact walkShard_written hempty hnames hrefs hwritten hhash hzlib hdecode he
  obtain ⟨found, hfound, hfrom, hto⟩ := exists_mapM hshards
  refine ⟨found.flatten, ?_, fun p hp => ?_, fun e he => ?_⟩
  · refine bind_eq_ok.mpr ⟨Table.readDir fs' (objectsDir outDir), by rw [GitDisk.list, hdir], ?_⟩
    exact bind_eq_ok.mpr ⟨found, hfound, rfl⟩
  · obtain ⟨shard, hshard, hp⟩ := List.mem_flatten.mp hp
    obtain ⟨name, -, hall, -⟩ := hfrom shard hshard
    exact hall p hp
  · have hshard : fs'[objectsDir outDir ++ [e.1.hex.take 2]]? = some .directory := by
      refine hwritten.directories _ (List.mem_append_left _ (List.mem_map_of_mem he)) _ (List.prefix_append _ _) ?_ ?_
      · simp [looseLoc, looseShard]
      · simp
    obtain ⟨shard, hmem, -, hall⟩ := hto (e.1.hex.take 2)
      (List.mem_filter.mpr ⟨Table.mem_readDir.mpr ⟨_, hshard⟩, isHexName_take e.1⟩)
    obtain ⟨p, hp, hoid⟩ := hall e he rfl
    exact ⟨p, List.mem_flatten.mpr ⟨shard, hmem, hp⟩, hoid⟩

omit hhash hzlib hdecode in
/-- An export has no packs. -/
theorem readAllPacks_written : readAllPacks sha1 inflate fs' outDir = .ok [] := by
  have hnone : fs'[packDir outDir]? = none := by
    cases hentry : fs'[packDir outDir]? with
    | none => rfl
    | some entry =>
        obtain ⟨-, e, -, hname⟩ := shard_entry hempty hnames hrefs hwritten hentry
        have hlength := congrArg List.length hname
        rw [List.length_take, length_hex] at hlength
        cases hlength
  have hpaths : packPaths fs' outDir = .ok [] := by
    rw [packPaths, GitDisk.list, hnone]
    rfl
  exact bind_eq_ok.mpr ⟨[], hpaths, rfl⟩

end

end Omoplata
