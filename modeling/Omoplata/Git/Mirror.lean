-- SUMMARY: An export that is imported again gives the import that was exported.
import Omoplata.Drivers.Markers
import Omoplata.Git.Fetch
import Omoplata.Git.Gate

/-!
# Mirrors

An export has the refs of an import and the objects they lead to, as loose objects. Read as a git
directory it passes the gate, and importing it repeats the import step by step, since an import only
looks at what its refs lead to.
-/

open Codec FileSystem Relation Walk

namespace Omoplata

/-! ## Objects that nothing leads to -/

section

variable {sha1 : List UInt8 → GitOid} {sha256 : List UInt8 → ObjectId} {objects objects' : GitObjects}
  {roots : List GitOid} {refs : List (Str × GitOid)}

theorem resolveObject_congr {a : GitOid} (h : objects'[a]? = objects[a]?) :
    resolveObject a objects' = resolveObject a objects := by
  unfold resolveObject
  rw [h]

theorem importEntries_congr {sub sub' : GitOid → GitObject → Imported → Except ImportStop (ObjectId × Imported)}
    {entries : List GitTreeEntry} (hsame : ∀ e ∈ entries, objects'[e.oid]? = objects[e.oid]?)
    (hsub : ∀ e ∈ entries, ∀ o s, objects[e.oid]? = some o → sub' e.oid o s = sub e.oid o s) (tree : Tree)
    (s : Imported) : importEntries objects' sub' entries tree s = importEntries objects sub entries tree s := by
  induction entries generalizing tree s with
  | nil => rfl
  | cons e entries ih =>
      obtain ⟨hentry, hentries⟩ := List.forall_mem_cons.mp hsame
      obtain ⟨hsub, hsubs⟩ := List.forall_mem_cons.mp hsub
      unfold importEntries
      rw [resolveObject_congr hentry]
      refine bind_congr fun kind => ?_
      cases hchild : resolveObject e.oid objects with
      | error err => rfl
      | ok child =>
          change (sub' e.oid child s >>= _) = (sub e.oid child s >>= _)
          rw [hsub child s (resolveObject_eq_ok.mp hchild)]
          refine bind_congr fun r => bind_congr fun tree => ?_
          exact ih hentries hsubs tree r.2

theorem importTreeObject_congr (hagree : ∀ a, Leads (Refers objects) roots a → objects'[a]? = objects[a]?) (depth : Nat)
    {oid : GitOid} {o : GitObject} (hleads : Leads (Refers objects) roots oid) (ho : objects[oid]? = some o)
    (s : Imported) :
    importTreeObject sha256 objects' depth oid o s = importTreeObject sha256 objects depth oid o s := by
  induction depth generalizing oid o s with
  | zero => rfl
  | succ depth ih =>
      unfold importTreeObject
      split
      · rfl
      · split
        · rfl
        · rename_i entries
          have hbelow : ∀ e ∈ entries, Leads (Refers objects) roots e.oid :=
            fun e he => hleads.tail ⟨_, ho, List.mem_map_of_mem he⟩
          rw [importEntries_congr (fun e he => hagree _ (hbelow e he)) fun e he o s ho => ih (hbelow e he) ho s]
        · rfl
        · rfl

theorem ImportWalk.accept_congr (hagree : ∀ a, Leads (Refers objects) roots a → objects'[a]? = objects[a]?)
    (depth : Nat) (w : ImportWalk) {oid : GitOid} {o : GitObject} (hleads : Leads (Refers objects) roots oid)
    (ho : objects[oid]? = some o) : w.accept sha256 objects' depth oid o = w.accept sha256 objects depth oid o := by
  cases o with
  | blob bytes => rfl
  | tree entries =>
      unfold accept
      rw [importTreeObject_congr hagree depth hleads ho]
  | commit c => rfl
  | tag t => rfl

theorem ImportWalk.step_congr (hagree : ∀ a, Leads (Refers objects) roots a → objects'[a]? = objects[a]?) (depth : Nat)
    {w : ImportWalk} (h : ∀ a ∈ w.stack, Leads (Refers objects) roots a) :
    w.step sha1 sha256 objects' depth = w.step sha1 sha256 objects depth := by
  obtain ⟨stack, made, repo⟩ := w
  cases stack with
  | nil => rfl
  | cons oid stack =>
      have hleads := h oid List.mem_cons_self
      unfold ImportWalk.step
      simp only
      rw [resolveObject_congr (hagree oid hleads)]
      split
      · rfl
      · cases hobject : resolveObject oid objects with
        | error e => rfl
        | ok o =>
            change (_ >>= fun _ => (accept sha256 objects' depth _ oid o >>= _)) =
              (_ >>= fun _ => (accept sha256 objects depth _ oid o >>= _))
            rw [accept_congr hagree depth _ hleads (resolveObject_eq_ok.mp hobject)]

/-- A walk only looks at what its roots lead to. -/
theorem ImportWalk.run_congr (hagree : ∀ a, Leads (Refers objects) roots a → objects'[a]? = objects[a]?)
    (depth turns : Nat) {w : ImportWalk} (h : w.Sound sha1 objects roots refs) :
    w.run sha1 sha256 objects' depth turns = w.run sha1 sha256 objects depth turns := by
  induction turns generalizing w with
  | zero => rfl
  | succ turns ih =>
      unfold run
      rw [step_congr hagree depth fun a ha => h.explores.reached a (.inr ha)]
      cases hstep : w.step sha1 sha256 objects depth with
      | error e => rfl
      | ok next =>
          cases next with
          | none => rfl
          | some w' => exact ih (h.step hstep)

/-- An import is repeated from what it has made. -/
theorem importObjects_again {depth turns : Nat} {repo : Repository} {r : GitImport × Repository}
    (h : importObjects sha1 sha256 objects depth turns refs repo = .ok r) :
    importObjects sha1 sha256 r.1.gitObjects depth turns refs repo = .ok r := by
  obtain ⟨-, hmade, -, -⟩ := importObjects_eq_ok h
  have hagree : ∀ a, Leads (Refers objects) (refs.map Prod.snd) a → r.1.gitObjects[a]? = objects[a]? := fun a ha => by
    refine Option.ext fun o => ?_
    rw [hmade]
    exact and_iff_right ha
  exact (ImportWalk.run_congr hagree depth turns (ImportWalk.Sound.init sha1 objects refs repo)).trans h

/-! ## Counting -/

/-- How many objects have been counted. -/
def GitImport.counted (made : GitImport) : Nat := made.commits + made.trees + made.blobs + made.tags

theorem ImportWalk.counted_accept {depth : Nat} {w w' : ImportWalk} {oid : GitOid} {o : GitObject}
    (h : w.accept sha256 objects depth oid o = .ok w') : w'.made.counted = w.made.counted + 1 := by
  unfold GitImport.counted
  cases o with
  | blob bytes => cases h; simp only; omega
  | commit c => cases h; simp only; omega
  | tag t => cases h; simp only; omega
  | tree entries =>
      obtain ⟨r, -, h⟩ := bind_eq_ok.mp h
      cases h
      simp only
      omega

/-- Each object is counted once. -/
theorem ImportWalk.counted_step {depth : Nat} {w w' : ImportWalk} (h : w.made.counted = w.made.gitObjects.size)
    (hstep : w.step sha1 sha256 objects depth = .ok (some w')) : w'.made.counted = w'.made.gitObjects.size := by
  obtain ⟨stack, made, repo⟩ := w
  cases stack with
  | nil => cases hstep
  | cons oid stack =>
      unfold ImportWalk.step at hstep
      simp only at hstep
      split at hstep
      · cases hstep
        exact h
      · rename_i hnew
        obtain ⟨o, -, hstep⟩ := bind_eq_ok.mp hstep
        obtain ⟨_, -, hstep⟩ := bind_eq_ok.mp hstep
        obtain ⟨w₁, haccept, hstep⟩ := bind_eq_ok.mp hstep
        cases hstep
        have hcounted := counted_accept haccept
        have hobjects := (accept_eq_ok haccept).1
        refine hcounted.trans ?_
        rw [h, hobjects, Std.ExtTreeMap.size_insert]
        exact (if_neg fun hmem => hnew (Std.ExtTreeMap.contains_iff_mem.mp hmem)).symm

theorem counted_importObjects {depth turns : Nat} {repo : Repository} {r : GitImport × Repository}
    (h : importObjects sha1 sha256 objects depth turns refs repo = .ok r) : r.1.counted = r.1.gitObjects.size := by
  have hrun : ∀ turns (w : ImportWalk), w.made.counted = w.made.gitObjects.size →
      w.run sha1 sha256 objects depth turns = .ok r → r.1.counted = r.1.gitObjects.size := by
    intro turns
    induction turns with
    | zero => exact fun w _ hrun => by cases hrun
    | succ turns ih =>
        intro w hw hrun
        obtain ⟨next, hstep, hrun⟩ := bind_eq_ok.mp hrun
        cases next with
        | none => cases hrun; exact hw
        | some w' => exact ih w' (ImportWalk.counted_step hw hstep) hrun
  exact hrun turns _ rfl h

end

/-! ## Loops that only add -/

/-- A loop whose steps keep a property and only add leads to a state that has what each step adds. -/
theorem exists_foldlM {α β ε : Type} {f : β → α → Except ε β} {P : β → Prop} {le : β → β → Prop} {Q : α → β → Prop}
    (hrefl : ∀ b, le b b) (htrans : ∀ a b c, le a b → le b c → le a c) (hkeeps : ∀ a b b', le b b' → Q a b → Q a b')
    {l : List α} (h : ∀ a ∈ l, ∀ b, P b → ∃ b', f b a = .ok b' ∧ P b' ∧ le b b' ∧ Q a b') {b : β} (hb : P b) :
    ∃ b', l.foldlM f b = .ok b' ∧ P b' ∧ le b b' ∧ ∀ a ∈ l, Q a b' := by
  induction l generalizing b with
  | nil => exact ⟨b, rfl, hb, hrefl b, fun _ ha => absurd ha List.not_mem_nil⟩
  | cons a l ih =>
      obtain ⟨hhead, htail⟩ := List.forall_mem_cons.mp h
      obtain ⟨b₁, hb₁, hP₁, hle₁, hQ₁⟩ := hhead b hb
      obtain ⟨b₂, hb₂, hP₂, hle₂, hQ₂⟩ := ih htail hP₁
      refine ⟨b₂, ?_, hP₂, htrans _ _ _ hle₁ hle₂, List.forall_mem_cons.mpr ⟨hkeeps _ _ _ hle₂ hQ₁, hQ₂⟩⟩
      rw [List.foldlM_cons, hb₁]
      exact hb₂

/-! ## The names of refs -/

theorem intercalate_cons_flatMap {c : Char} (a : Str) (rest : List Str) :
    [c].intercalate (a :: rest) = a ++ rest.flatMap (c :: ·) := by
  induction rest generalizing a with
  | nil => simp
  | cons b rest ih => rw [List.intercalate_cons_cons, ih, List.flatMap_cons, List.append_assoc]; rfl

theorem eq_of_splitOn {name comp : Str} (h : name.splitOn '/' = [comp]) : name = comp := by
  have hjoin : ['/'].intercalate (name.splitOn '/') = name := List.intercalate_splitOn '/'
  rw [h, List.intercalate_singleton] at hjoin
  exact hjoin.symm

/-- The name of a ref is put together from its path. -/
theorem refName_of_splitOn {name : Str} {path : List Str} (h : name.splitOn '/' = "refs".toList :: path) :
    refName path = name := by
  have hjoin : ['/'].intercalate (name.splitOn '/') = name := List.intercalate_splitOn '/'
  rw [h, intercalate_cons_flatMap] at hjoin
  exact hjoin

/-- A newline at the end of a visible text is trimmed. -/
theorem trim_newline {s : Str} (h : ∀ c ∈ s, isWhiteSpace c = false) : trim (s ++ ['\n']) = s := by
  have hend : ∀ t : Str, (∀ c ∈ t, isWhiteSpace c = false) → trimStart ('\n' :: t) = t := fun t ht => by
    have hdrop : trimStart ('\n' :: t) = trimStart t := List.dropWhile_cons_of_pos (by decide)
    rw [hdrop]
    cases t with
    | nil => rfl
    | cons c t => exact trimStart_cons (ht c List.mem_cons_self) t
  unfold trim
  cases s with
  | nil => rfl
  | cons c s =>
      rw [List.cons_append, trimStart_cons (h c List.mem_cons_self), ← List.cons_append, List.reverse_append,
        List.reverse_singleton, List.singleton_append, hend _ fun c hc => h c (List.mem_reverse.mp hc),
        List.reverse_reverse]

/-- The file of a ref says its id. -/
theorem parseRefContent_hex (name : Str) (oid : GitOid) :
    parseRefContent name (oid.hex ++ ['\n']) = .ok (.oid oid) := by
  have htrim : trim (oid.hex ++ ['\n']) = oid.hex := trim_newline fun c hc => (GitOid.hex_visible hc).1
  have hplain : "ref:".toList.isPrefixOf oid.hex = false := by
    refine Bool.eq_false_iff.mpr fun hfront => ?_
    obtain ⟨rest, hrest⟩ := List.isPrefixOf_iff_prefix.mp hfront
    have hr : 'r' ∈ oid.hex := by
      rw [← hrest]
      exact List.mem_cons_self
    exact absurd (GitOid.mem_hex hr) (by decide)
  unfold parseRefContent
  simp only [htrim, hplain, Bool.false_eq_true, if_false, GitOid.fromHex_hex]

/-! ## Resolving refs -/

/-- The order by name leaves nothing open where no name is twice. -/
theorem eq_of_sorted {refs refs' : List (Str × GitOid)} (hperm : refs.Perm refs') (hnodup : (refs'.map Prod.fst).Nodup)
    (hsorted : refs.Pairwise fun a b => (compare a.1 b.1).isLE)
    (hsorted' : refs'.Pairwise fun a b => (compare a.1 b.1).isLE) : refs = refs' := by
  refine List.Perm.eq_of_pairwise (fun a b ha hb hab hba => ?_) hsorted hsorted' hperm
  have hname : a.1 = b.1 := Std.LawfulEqCmp.eq_of_compare (Std.OrientedCmp.isLE_antisymm hab hba)
  exact List.inj_on_of_nodup_map hnodup (hperm.subset ha) hb hname

theorem sortByKey_congr {refs refs' : List (Str × GitOid)} (hperm : refs.Perm refs')
    (hnodup : (refs'.map Prod.fst).Nodup) : sortByKey Prod.fst refs = sortByKey Prod.fst refs' := by
  have hright := perm_sortByKey Prod.fst refs'
  refine eq_of_sorted ((perm_sortByKey _ _).trans (hperm.trans hright.symm)) ?_ (pairwise_sortByKey _ _)
    (pairwise_sortByKey _ _)
  exact (hright.map Prod.fst).nodup_iff.mpr hnodup

/-- What has been read of the refs are refs. -/
def RefsRead (refs : List (Str × GitOid)) (raw : BTreeMap Str RawRef) : Prop :=
  ∀ (name : Str) (ref : RawRef), raw[name]? = some ref → ∃ oid, (name, oid) ∈ refs ∧ ref = .oid oid

theorem RefsRead.insert {refs : List (Str × GitOid)} {raw : BTreeMap Str RawRef} (h : RefsRead refs raw)
    {e : Str × GitOid} (he : e ∈ refs) : RefsRead refs (raw.insert e.1 (.oid e.2)) := by
  intro name ref href
  rw [BTreeMap.getElem?_insert] at href
  split at href
  · rename_i heq
    exact ⟨e.2, heq ▸ he, (Option.some.inj href).symm⟩
  · exact h name ref href

/-- Where all of the refs have been read, they are resolved to themselves. -/
theorem resolveRefs_read {refs : List (Str × GitOid)} {raw : BTreeMap Str RawRef} (hnodup : (refs.map Prod.fst).Nodup)
    (hread : RefsRead refs raw) (hall : ∀ e ∈ refs, e.1 ∈ raw) :
    (do
      let out ← raw.keys.mapM fun name => (resolveRef raw 9 name).map fun oid => oid.map fun oid => (name, oid)
      .ok (sortByKey Prod.fst (out.filterMap id))) = (.ok (sortByKey Prod.fst refs) : Except GitError _) := by
  have hstep : ∀ name ∈ raw.keys, ∃ ref,
      ((resolveRef raw 9 name).map fun oid => oid.map fun oid => (name, oid)) = .ok ref ∧
        ∃ oid, (name, oid) ∈ refs ∧ ref = some (name, oid) := by
    intro name hname
    obtain ⟨ref, href⟩ := Option.isSome_iff_exists.mp
      (Std.ExtTreeMap.mem_iff_isSome_getElem?.mp (Std.ExtTreeMap.mem_keys.mp hname))
    obtain ⟨oid, hmem, rfl⟩ := hread name ref href
    refine ⟨_, ?_, oid, hmem, rfl⟩
    unfold resolveRef
    rw [href]
    rfl
  obtain ⟨out, hout, hfrom, hto⟩ := exists_mapM hstep
  have hkeys : raw.keys.Nodup := raw.distinct_keys.imp fun hne heq => hne (Std.compare_eq_iff_eq.mpr heq)
  have hnodup' : ((out.filterMap id).map Prod.fst).Nodup := by
    refine (sublist_of_mapM (fun name ref href => ?_) hout).nodup hkeys
    obtain ⟨oid, -, hoid⟩ := map_eq_ok.mp href
    obtain ⟨oid, -, rfl⟩ := Option.map_eq_some_iff.mp hoid
    rfl
  refine bind_eq_ok.mpr ⟨out, hout, congrArg Except.ok (sortByKey_congr ?_ hnodup)⟩
  refine (List.perm_ext_iff_of_nodup (.of_map _ hnodup') (.of_map _ hnodup)).mpr fun e => ?_
  rw [List.mem_filterMap]
  constructor
  · rintro ⟨ref, href, he⟩
    obtain ⟨name, -, oid, hmem, rfl⟩ := hfrom ref href
    cases he
    exact hmem
  · intro he
    obtain ⟨ref, href, oid, hmem, rfl⟩ := hto e.1 (Std.ExtTreeMap.mem_keys.mpr (hall e he))
    exact ⟨_, href, congrArg some (List.inj_on_of_nodup_map hnodup hmem he rfl)⟩

/-! ## What stands in an export -/

section

variable {sha1 : List UInt8 → GitOid} {inflate : Inflate} {deflate : List UInt8 → List UInt8} {fs fs' : GitDisk}
  {outDir : List Str} {ordered : List (GitOid × GitObject)} {refs : List (Str × GitOid)}
  (hempty : EmptyDirectory fs outDir)

include hempty

/-- What stands in a directory that was empty has been written, or is on the way to what has been. -/
theorem entry_written {writes : List (List Str × List UInt8)} (hwritten : Table.Written fs fs' writes) {name : Str}
    {below : List Str} {entry : Entry (List UInt8)} (h : fs'[outDir ++ name :: below]? = some entry) :
    (∃ w ∈ writes, w.1 = outDir ++ name :: below ∧ entry = .file w.2) ∨
      entry = .directory ∧ ∃ w ∈ writes, outDir ++ name :: below <+: w.1 ∧ w.1 ≠ outDir ++ name :: below := by
  by_cases hwrite : ∀ w ∈ writes, w.1 ≠ outDir ++ name :: below
  · obtain hsame | ⟨-, hmade, w, hw, hfront⟩ := hwritten.others _ hwrite
    · rw [hempty.empty, h] at hsame
      cases hsame
    · exact .inr ⟨Option.some.inj (h.symm.trans hmade), w, hw, hfront, hwrite w hw⟩
  · simp only [ne_eq, not_forall, not_not, exists_prop] at hwrite
    obtain ⟨w, hw, hloc⟩ := hwrite
    refine .inl ⟨w, hw, hloc, ?_⟩
    rw [← hloc, hwritten.files w hw] at h
    exact (Option.some.inj h).symm

variable (hnames : RefNames (refs.map Prod.fst))
  (hwritten : Table.Written fs fs' (objectWrites deflate outDir ordered ++ refWrites outDir refs))

include hwritten

/-- What stands beside the objects is the file of a ref, or a directory on the way to one. -/
theorem ref_entry {name : Str} {below : List Str} {entry : Entry (List UInt8)} (hname : name ≠ "objects".toList)
    (h : fs'[outDir ++ name :: below]? = some entry) :
    (∃ e ∈ refs, e.1.splitOn '/' = name :: below ∧ entry = .file (utf8 (e.2.hex ++ ['\n']))) ∨
      entry = .directory ∧ ∃ e ∈ refs, name :: below <+: e.1.splitOn '/' ∧ e.1.splitOn '/' ≠ name :: below := by
  have hobject : ∀ w ∈ objectWrites deflate outDir ordered, ¬outDir ++ name :: below <+: w.1 := by
    intro w hw hfront
    obtain ⟨e, -, rfl⟩ := List.mem_map.mp hw
    rw [looseLoc_eq, List.prefix_append_right_inj, List.cons_prefix_cons] at hfront
    exact hname hfront.1
  obtain ⟨w, hw, hloc, rfl⟩ | ⟨rfl, w, hw, hfront, hne⟩ := entry_written hempty hwritten h
  · obtain hw | hw := List.mem_append.mp hw
    · exact absurd (hloc ▸ List.prefix_rfl) (hobject w hw)
    · obtain ⟨e, he, rfl⟩ := List.mem_map.mp hw
      exact .inl ⟨e, he, List.append_cancel_left hloc, rfl⟩
  · obtain hw | hw := List.mem_append.mp hw
    · exact absurd hfront (hobject w hw)
    · obtain ⟨e, he, rfl⟩ := List.mem_map.mp hw
      refine .inr ⟨rfl, e, he, (List.prefix_append_right_inj outDir).mp hfront, fun heq => hne ?_⟩
      exact congrArg (outDir ++ ·) heq

omit hempty in
/-- On the way to the file of a ref are directories. -/
theorem ref_directory {e : Str × GitOid} (he : e ∈ refs) {front : List Str} (hfront : front <+: e.1.splitOn '/')
    (hne : front ≠ []) (hstrict : e.1.splitOn '/' ≠ front) : fs'[outDir ++ front]? = some .directory := by
  refine hwritten.directories _ (List.mem_append_right _ (List.mem_map_of_mem he)) _ ?_ ?_ ?_
  · exact (List.prefix_append_right_inj outDir).mpr hfront
  · exact fun heq => hstrict (List.append_cancel_left heq).symm
  · exact List.append_ne_nil_of_right_ne_nil _ hne

omit hempty in
theorem ref_file {e : Str × GitOid} (he : e ∈ refs) :
    fs'[outDir ++ e.1.splitOn '/']? = some (.file (utf8 (e.2.hex ++ ['\n']))) :=
  hwritten.files _ (List.mem_append_right _ (List.mem_map_of_mem he))

/-! ## Reading the refs -/

omit hempty in
/-- The text of the file of a ref. -/
theorem readText_ref {e : Str × GitOid} (he : e ∈ refs) :
    GitDisk.readText fs' (outDir ++ e.1.splitOn '/') = .ok (some (e.2.hex ++ ['\n'])) := by
  unfold GitDisk.readText
  rw [ref_file hwritten he]
  simp only [fromUtf8_utf8]

/-- What is read of a name in a directory of refs. -/
def readLooseEntry (fs : GitDisk) (root : List Str) (depth : Nat) (below : List Str) (raw : BTreeMap Str RawRef)
    (name : Str) : Except GitError (BTreeMap Str RawRef) :=
  match (fs[root ++ below ++ [name]]? : Option (Entry (List UInt8))) with
  | some .directory => readLooseRefs fs root depth (below ++ [name]) raw
  | _ => do
      match ← fs.readText (root ++ below ++ [name]) with
      | none => .error (.io ((root ++ below ++ [name]).map .down))
      | some content =>
          let name := refName (below ++ [name])
          let ref ← parseRefContent name content
          .ok (raw.insert name ref)

omit hempty hwritten in
theorem readLooseRefs_succ (fs : GitDisk) (root : List Str) (depth : Nat) (below : List Str)
    (raw : BTreeMap Str RawRef) : readLooseRefs fs root (depth + 1) below raw =
      fs.list (root ++ below) >>= fun names => names.foldlM (readLooseEntry fs root depth below) raw := rfl

/-- The refs at or below a path have been added to others. -/
structure RefsAdded (refs : List (Str × GitOid)) (path : List Str) (raw raw' : BTreeMap Str RawRef) : Prop where
  read : RefsRead refs raw'
  kept : ∀ name, name ∈ raw → name ∈ raw'
  added : ∀ e ∈ refs, "refs".toList :: path <+: e.1.splitOn '/' → e.1 ∈ raw'

include hnames

omit hempty hwritten in
/-- No directory stands where a ref is. -/
theorem ref_below {path : List Str} (h : ∃ e ∈ refs, "refs".toList :: path <+: e.1.splitOn '/' ∧
    e.1.splitOn '/' ≠ "refs".toList :: path) : ∀ e ∈ refs, e.1.splitOn '/' ≠ "refs".toList :: path := by
  obtain ⟨e, he, hfront, hne⟩ := h
  intro e' he' heq
  have hsame : e'.1 = e.1 :=
    hnames.apart _ (List.mem_map_of_mem he') _ (List.mem_map_of_mem he) (heq ▸ hfront)
  exact hne (hsame ▸ heq)

/-- A name in a directory adds the refs at or below it. -/
theorem readLooseEntry_written {depth : Nat} {below : List Str} {name : Str}
    (hdeeper : ∀ raw, RefsRead refs raw → (∀ e ∈ refs, e.1.splitOn '/' ≠ "refs".toList :: (below ++ [name])) →
      ∃ raw', readLooseRefs fs' (outDir ++ ["refs".toList]) depth (below ++ [name]) raw = .ok raw' ∧
        RefsAdded refs (below ++ [name]) raw raw')
    (hname : name ∈ Table.readDir fs' (outDir ++ ["refs".toList] ++ below)) {raw : BTreeMap Str RawRef}
    (hraw : RefsRead refs raw) :
    ∃ raw', readLooseEntry fs' (outDir ++ ["refs".toList]) depth below raw name = .ok raw' ∧
      RefsAdded refs (below ++ [name]) raw raw' := by
  have hloc : outDir ++ ["refs".toList] ++ below ++ [name] = outDir ++ "refs".toList :: (below ++ [name]) := by simp
  obtain ⟨entry, hentry⟩ := Table.mem_readDir.mp hname
  unfold readLooseEntry
  rw [hloc] at hentry ⊢
  rw [hentry]
  obtain ⟨e, he, hpath, rfl⟩ | ⟨rfl, hbelow⟩ := ref_entry hempty hwritten (by decide) hentry
  · have htext := readText_ref hwritten he
    rw [hpath] at htext
    refine ⟨raw.insert e.1 (.oid e.2), ?_, hraw.insert he, fun n hn => ?_, fun e' he' hfront => ?_⟩
    · simp only [htext, refName_of_splitOn hpath, parseRefContent_hex, bind, Except.bind]
    · exact Std.ExtTreeMap.mem_insert.mpr (.inr hn)
    · have hsame : e.1 = e'.1 :=
        hnames.apart _ (List.mem_map_of_mem he) _ (List.mem_map_of_mem he') (hpath ▸ hfront)
      rw [hsame]
      exact Std.ExtTreeMap.mem_insert_self
  · exact hdeeper raw hraw (ref_below hnames hbelow)

omit hempty hnames in
/-- A ref below a directory is below one of its names. -/
theorem exists_name_below {below : List Str} (hbelow : ∀ e ∈ refs, e.1.splitOn '/' ≠ "refs".toList :: below)
    {e : Str × GitOid} (he : e ∈ refs) (hfront : "refs".toList :: below <+: e.1.splitOn '/') :
    ∃ name ∈ Table.readDir fs' (outDir ++ ["refs".toList] ++ below),
      "refs".toList :: (below ++ [name]) <+: e.1.splitOn '/' := by
  obtain ⟨rest, hrest⟩ := hfront
  cases rest with
  | nil =>
      rw [List.append_nil] at hrest
      exact absurd hrest.symm (hbelow e he)
  | cons name rest =>
      have hnext : "refs".toList :: (below ++ [name]) <+: e.1.splitOn '/' := ⟨rest, by rw [← hrest]; simp⟩
      refine ⟨name, Table.mem_readDir.mpr ?_, hnext⟩
      have hpath : outDir ++ ["refs".toList] ++ below ++ [name] = outDir ++ "refs".toList :: (below ++ [name]) := by simp
      rw [hpath]
      by_cases hend : e.1.splitOn '/' = "refs".toList :: (below ++ [name])
      · exact ⟨_, hend ▸ ref_file hwritten he⟩
      · exact ⟨_, ref_directory hwritten he hnext (List.cons_ne_nil _ _) hend⟩

/-- All of the refs below a directory are read. -/
theorem readLooseRefs_written (depth : Nat) {below : List Str} {raw : BTreeMap Str RawRef}
    (hbelow : ∀ e ∈ refs, e.1.splitOn '/' ≠ "refs".toList :: below)
    (hdepth : ∀ e ∈ refs, ∀ rest, e.1.splitOn '/' = "refs".toList :: (below ++ rest) → rest.length ≤ depth)
    (hraw : RefsRead refs raw) :
    ∃ raw', readLooseRefs fs' (outDir ++ ["refs".toList]) depth below raw = .ok raw' ∧
      RefsAdded refs below raw raw' := by
  induction depth generalizing below raw with
  -- without depth left there is no ref below
  | zero =>
      refine ⟨raw, rfl, hraw, fun _ => id, fun e he ⟨rest, hrest⟩ => ?_⟩
      have hnil := List.length_eq_zero_iff.mp (Nat.le_zero.mp (hdepth e he rest (by rw [← hrest]; rfl)))
      rw [hnil, List.append_nil] at hrest
      exact absurd hrest.symm (hbelow e he)
  | succ depth ih =>
      have hroot : outDir ++ ["refs".toList] ++ below = outDir ++ "refs".toList :: below := by simp
      -- each name of the directory is read as a ref or as a directory one level down
      have hstep : ∀ name ∈ Table.readDir fs' (outDir ++ ["refs".toList] ++ below), ∀ raw, RefsRead refs raw →
          ∃ raw', readLooseEntry fs' (outDir ++ ["refs".toList]) depth below raw name = .ok raw' ∧
            RefsRead refs raw' ∧ (∀ n, n ∈ raw → n ∈ raw') ∧
            ∀ e ∈ refs, "refs".toList :: (below ++ [name]) <+: e.1.splitOn '/' → e.1 ∈ raw' := by
        intro name hname raw hraw
        have hless : ∀ e ∈ refs, ∀ rest, e.1.splitOn '/' = "refs".toList :: (below ++ [name] ++ rest) →
            rest.length ≤ depth := by
          intro e he rest hrest
          have hpath : e.1.splitOn '/' = "refs".toList :: (below ++ name :: rest) := by
            rw [hrest, List.append_assoc, List.singleton_append]
          exact Nat.le_of_succ_le_succ (hdepth e he (name :: rest) hpath)
        obtain ⟨raw', hread, hadded⟩ := readLooseEntry_written hempty hnames hwritten
          (fun raw hraw hbelow => ih hbelow hless hraw) hname hraw
        exact ⟨raw', hread, hadded.read, hadded.kept, hadded.added⟩
      obtain ⟨raw', hfold, hread, hkept, hall⟩ := exists_foldlM (fun _ _ => id) (fun _ _ _ h₁ h₂ n hn => h₂ n (h₁ n hn))
        (fun _ _ _ hle h e he hfront => hle _ (h e he hfront)) hstep hraw
      rw [readLooseRefs_succ]
      cases hdir : fs'[outDir ++ "refs".toList :: below]? with
      -- a directory that was not written has no refs below it
      | none =>
          refine ⟨raw, ?_, hraw, fun _ => id, fun e he hfront => ?_⟩
          · unfold GitDisk.list
            rw [hroot, hdir]
            rfl
          · have hmade := ref_directory hwritten he hfront (List.cons_ne_nil _ _) (hbelow e he)
            cases hdir.symm.trans hmade
      | some entry =>
          obtain ⟨e, he, hpath, -⟩ | ⟨rfl, -⟩ := ref_entry hempty hwritten (by decide) hdir
          · exact absurd hpath (hbelow e he)
          · refine ⟨raw', ?_, hread, hkept, fun e he hfront => ?_⟩
            · unfold GitDisk.list
              rw [hroot, hdir, ← hroot]
              exact hfold
            · obtain ⟨name, hname, hnext⟩ := exists_name_below hwritten hbelow he hfront
              exact hall name hname e he hnext

omit hempty hnames hwritten in
/-- A location of a disk is no deeper than the disk. -/
theorem length_le_depth {loc : List Str} {entry : Entry (List UInt8)} (h : fs'[loc]? = some entry) :
    loc.length ≤ GitDisk.depth fs' := by
  have hmem : loc.length ∈ fs'.keys.map List.length := by
    refine List.mem_map_of_mem (Std.ExtTreeMap.mem_keys.mpr (Std.ExtTreeMap.mem_iff_isSome_getElem?.mpr ?_))
    rw [h]
    rfl
  unfold GitDisk.depth
  generalize fs'.keys.map List.length = ns at hmem
  induction ns with
  | nil => cases hmem
  | cons n ns ih =>
      obtain rfl | hmem := List.mem_cons.mp hmem
      · exact Nat.le_max_left _ _
      · exact (ih hmem).trans (Nat.le_max_right _ _)

omit hempty hnames hwritten in
theorem readText_none {loc : List Str} (h : fs'[loc]? = none) : GitDisk.readText fs' loc = .ok none := by
  unfold GitDisk.readText
  rw [h]

/-- Nothing else is in an export. -/
theorem no_entry {name : Str} (hname : name ∉ ["objects".toList, "HEAD".toList, "refs".toList]) :
    fs'[outDir ++ [name]]? = none := by
  rw [List.mem_cons, List.mem_cons, List.mem_singleton, not_or, not_or] at hname
  obtain ⟨hobjects, hhead, hrefs⟩ := hname
  cases hentry : fs'[outDir ++ [name]]? with
  | none => rfl
  | some entry =>
      have hnot : ∀ e ∈ refs, ¬[name] <+: e.1.splitOn '/' := by
        intro e he hfront
        obtain htop | ⟨rest, htop⟩ := hnames.top e.1 (List.mem_map_of_mem he)
        · rw [htop, List.cons_prefix_cons] at hfront
          exact hhead hfront.1
        · rw [htop, List.cons_prefix_cons] at hfront
          exact hrefs hfront.1
      obtain ⟨e, he, hpath, -⟩ | ⟨-, e, he, hfront, -⟩ := ref_entry hempty hwritten hobjects hentry
      · exact absurd (hpath ▸ List.prefix_rfl) (hnot e he)
      · exact absurd hfront (hnot e he)

/-- `HEAD` is read where it is a ref. -/
theorem readHead_written {raw : BTreeMap Str RawRef} (hraw : RefsRead refs raw) :
    ∃ raw', readHead fs' outDir raw = .ok raw' ∧ RefsRead refs raw' ∧ (∀ name, name ∈ raw → name ∈ raw') ∧
      ∀ e ∈ refs, e.1.splitOn '/' = ["HEAD".toList] → e.1 ∈ raw' := by
  unfold readHead
  cases hhead : fs'[outDir ++ ["HEAD".toList]]? with
  | none =>
      have htext := readText_none hhead
      refine ⟨raw, by rw [htext]; rfl, hraw, fun _ => id, fun e he hpath => ?_⟩
      have hfile := ref_file hwritten he
      rw [hpath, hhead] at hfile
      cases hfile
  | some entry =>
      obtain ⟨e, he, hpath, -⟩ | ⟨-, e, he, hfront, hne⟩ := ref_entry hempty hwritten (by decide) hhead
      · have hname := eq_of_splitOn hpath
        have htext := readText_ref hwritten he
        rw [hpath] at htext
        refine ⟨raw.insert e.1 (.oid e.2), ?_, hraw.insert he, fun n hn => ?_, fun e' he' hpath' => ?_⟩
        · simp only [htext, parseRefContent_hex, bind, Except.bind, hname]
        · exact Std.ExtTreeMap.mem_insert.mpr (.inr hn)
        · have hsame : e.1 = e'.1 :=
            hnames.apart _ (List.mem_map_of_mem he) _ (List.mem_map_of_mem he') (by rw [hpath, hpath'])
          rw [hsame]
          exact Std.ExtTreeMap.mem_insert_self
      · -- no ref is below `HEAD`
        obtain htop | ⟨rest, htop⟩ := hnames.top e.1 (List.mem_map_of_mem he)
        · exact absurd htop hne
        · rw [htop, List.cons_prefix_cons] at hfront
          exact absurd hfront.1 (by decide)

variable (hnodup : (refs.map Prod.fst).Nodup) (hbelow : "refs".toList ∉ refs.map Prod.fst)

include hnodup hbelow in
/-- The refs of an export are the refs that were exported, by name. -/
theorem readRefs_written : readRefs fs' outDir = .ok (sortByKey Prod.fst refs) := by
  have hpacked : readPackedRefs fs' outDir ∅ = .ok ∅ := by
    unfold readPackedRefs
    rw [readText_none (no_entry hempty hnames hwritten (by decide))]
    rfl
  have hstart : RefsRead refs ∅ := fun name ref href => by simp at href
  have hproper : ∀ e ∈ refs, e.1.splitOn '/' ≠ ["refs".toList] :=
    fun e he hpath => hbelow (List.mem_map.mpr ⟨e, he, eq_of_splitOn hpath⟩)
  have hdepth : ∀ e ∈ refs, ∀ rest, e.1.splitOn '/' = "refs".toList :: ([] ++ rest) → rest.length ≤ fs'.depth + 1 := by
    intro e he rest hpath
    have hlength := length_le_depth (ref_file hwritten he)
    rw [hpath, List.length_append, List.length_cons, List.nil_append] at hlength
    omega
  obtain ⟨raw, hloose, hread, -, hall⟩ := readLooseRefs_written hempty hnames hwritten (fs'.depth + 1)
    hproper hdepth hstart
  obtain ⟨raw', hhead, hread', hkept, hall'⟩ := readHead_written hempty hnames hwritten hread
  have hmem : ∀ e ∈ refs, e.1 ∈ raw' := by
    intro e he
    obtain htop | ⟨rest, htop⟩ := hnames.top e.1 (List.mem_map_of_mem he)
    · exact hall' e he htop
    · exact hkept _ (hall e he (by rw [htop]; exact List.prefix_append ["refs".toList] rest))
  refine bind_eq_ok.mpr ⟨∅, hpacked, bind_eq_ok.mpr ⟨raw, hloose, bind_eq_ok.mpr ⟨raw', hhead, ?_⟩⟩⟩
  exact resolveRefs_read hnodup hread' hmem

/-! ## A git directory -/

include hbelow in
/-- An export of refs and objects is a git directory. -/
theorem resolveGitDir_written (hsome : refs ≠ []) (hordered : ordered ≠ []) :
    resolveGitDir fs' outDir = .ok outDir := by
  obtain ⟨first, hfirst⟩ := List.exists_mem_of_ne_nil _ hordered
  have hobjects : fs'[objectsDir outDir]? = some .directory := by
    refine hwritten.directories _ (List.mem_append_left _ (List.mem_map_of_mem hfirst)) _ ?_ ?_ ?_
    · exact (List.prefix_append _ _).trans (List.prefix_append _ _)
    · simp [looseLoc, looseShard]
    · simp [objectsDir]
  have hlooks : looksLikeGitDir fs' outDir = true := by
    obtain ⟨e, he⟩ := List.exists_mem_of_ne_nil _ hsome
    unfold looksLikeGitDir
    simp only [hobjects, decide_true, Bool.true_and, Bool.or_eq_true, decide_eq_true_eq]
    obtain htop | ⟨rest, htop⟩ := hnames.top e.1 (List.mem_map_of_mem he)
    · right
      have hfile := ref_file hwritten he
      rw [htop] at hfile
      unfold GitDisk.read
      rw [hfile]
      rfl
    · left
      have hfront : ["refs".toList] <+: e.1.splitOn '/' := by
        rw [htop]
        exact List.prefix_append ["refs".toList] rest
      refine ref_directory hwritten he hfront (List.cons_ne_nil _ _) ?_
      exact fun heq => hbelow (List.mem_map.mpr ⟨e, he, eq_of_splitOn heq⟩)
  unfold resolveGitDir
  rw [no_entry hempty hnames hwritten (by decide)]
  exact if_pos hlooks

end

/-! ## Reading the objects -/

/-- An object that has been read is read again from its byte form. -/
theorem GitObject.decode_encode_of_decode {bytes : List UInt8} {o : GitObject} (h : decode bytes = .ok o) :
    decode o.encode = .ok o := by
  obtain ⟨ty, body, hread⟩ : ∃ ty body, decodeBody ty body = .ok o := by
    unfold decode at h
    split at h
    · cases h
    · split at h
      · cases h
      · split at h
        · cases h
        · split at h
          · cases h
          · split at h
            · cases h
            · exact ⟨_, _, h⟩
  obtain ⟨hty, hbody⟩ := decodeBody_eq_ok hread
  rw [← hty, ← hbody] at hread
  obtain ⟨hcut, hcut'⟩ := cut_encode o
  unfold decode
  simp only [hcut, hcut', fromUtf8_utf8, parseUsize_toDigits]
  rw [if_neg (not_not.mpr rfl)]
  exact hread

section

variable {sha1 : List UInt8 → GitOid} {inflate : Inflate}

theorem exists_of_mem_mapM {α β ε : Type} {f : α → Except ε β} {l : List α} {bs : List β} (h : l.mapM f = .ok bs)
    {b : β} (hb : b ∈ bs) : ∃ a ∈ l, f a = .ok b := by
  rw [mapM_eq_ok_iff] at h
  induction h with
  | nil => cases hb
  | @cons a c l bs hac _ ih =>
      obtain rfl | hb := List.mem_cons.mp hb
      · exact ⟨a, List.mem_cons_self, hac⟩
      · obtain ⟨a', ha', hb'⟩ := ih hb
        exact ⟨a', List.mem_cons_of_mem _ ha', hb'⟩

/-- A loose object is read again from its byte form. -/
theorem decode_of_walkLoose {fs : GitDisk} {gitDir : List Str} {found : List (GitOid × GitObject)}
    (h : walkLoose sha1 inflate fs gitDir = .ok found) {p : GitOid × GitObject} (hp : p ∈ found) :
    GitObject.decode p.2.encode = .ok p.2 := by
  obtain ⟨names, -, h⟩ := bind_eq_ok.mp h
  obtain ⟨shards, hshards, h⟩ := bind_eq_ok.mp h
  cases h
  obtain ⟨shard, hshard, hp⟩ := List.mem_flatten.mp hp
  obtain ⟨name, -, hname⟩ := exists_of_mem_mapM hshards hshard
  unfold walkShard at hname
  split at hname
  · obtain ⟨file, -, hfile⟩ := exists_of_mem_mapM hname hp
    obtain ⟨raw, -, hfile⟩ := bind_eq_ok.mp hfile
    obtain ⟨bytes, -, hfile⟩ := bind_eq_ok.mp hfile
    obtain ⟨o, ho, hfile⟩ := bind_eq_ok.mp hfile
    obtain ⟨expected, -, hfile⟩ := bind_eq_ok.mp hfile
    split at hfile
    · cases hfile
    · cases hfile
      exact GitObject.decode_encode_of_decode ho
  · cases hname

/-- So is an object of a pack. -/
theorem Pack.decode_of_readEntries {pack : List UInt8} {oidToOffset : BTreeMap GitOid Nat} {index : List (GitOid × Nat)}
    {memo : Memo} {out out' : PackDecode} (h : readEntries sha1 inflate pack oidToOffset index memo out = .ok out')
    (hout : ∀ p ∈ out.objects, GitObject.decode p.2.encode = .ok p.2) :
    ∀ p ∈ out'.objects, GitObject.decode p.2.encode = .ok p.2 := by
  induction index generalizing memo out with
  | nil =>
      cases h
      exact hout
  | cons e index ih =>
      obtain ⟨oid, offset⟩ := e
      obtain ⟨typeId, -, h⟩ := bind_eq_ok.mp h
      obtain ⟨⟨resolved, memo'⟩, -, h⟩ := bind_eq_ok.mp h
      obtain ⟨canonical, -, h⟩ := bind_eq_ok.mp h
      split at h
      · cases h
      · obtain ⟨o, ho, h⟩ := bind_eq_ok.mp h
        refine ih h fun p hp => ?_
        obtain hp | hp := List.mem_append.mp hp
        · exact hout p hp
        · rw [List.mem_singleton.mp hp]
          exact GitObject.decode_encode_of_decode ho

theorem decode_of_readAllPacks {fs : GitDisk} {gitDir : List Str} {found : List (GitOid × GitObject)}
    (h : readAllPacks sha1 inflate fs gitDir = .ok found) {p : GitOid × GitObject} (hp : p ∈ found) :
    GitObject.decode p.2.encode = .ok p.2 := by
  obtain ⟨names, -, h⟩ := bind_eq_ok.mp h
  obtain ⟨packs, hpacks, h⟩ := bind_eq_ok.mp h
  cases h
  obtain ⟨pack, hpack, hp⟩ := List.mem_flatten.mp hp
  obtain ⟨name, -, hname⟩ := exists_of_mem_mapM hpacks hpack
  obtain ⟨idx, -, hname⟩ := bind_eq_ok.mp hname
  obtain ⟨bytes, -, hname⟩ := bind_eq_ok.mp hname
  obtain ⟨out, hout, rfl⟩ := map_eq_ok.mp hname
  obtain ⟨index, -, hout⟩ := bind_eq_ok.mp hout
  obtain ⟨count, -, hout⟩ := bind_eq_ok.mp hout
  split at hout
  · cases hout
  · exact Pack.decode_of_readEntries hout (fun _ h => absurd h List.not_mem_nil) p hp

theorem decode_of_storedObjects {fs : GitDisk} {gitDir : List Str} {objects : GitObjects}
    (h : storedObjects sha1 inflate fs gitDir = .ok objects) {a : GitOid} {o : GitObject} (ho : objects[a]? = some o) :
    GitObject.decode o.encode = .ok o := by
  obtain ⟨loose, hloose, h⟩ := bind_eq_ok.mp h
  obtain ⟨packed, hpacked, h⟩ := bind_eq_ok.mp h
  cases h
  obtain hmem | hmem := List.mem_append.mp (mem_of_mergeObjects ho)
  · exact decode_of_walkLoose hloose hmem
  · exact decode_of_readAllPacks hpacked hmem

/-- Objects that are named by their hashes pass the gate. -/
theorem gateAll_of_named {found : List (GitOid × GitObject)} (h : ∀ p ∈ found, p.2.IsNamed sha1 p.1)
    (report : GitReport) :
    ∃ report', gateAll sha1 found report = .ok report' ∧ report'.total = report.total + found.length := by
  induction found generalizing report with
  | nil => exact ⟨report, rfl, rfl⟩
  | cons p found ih =>
      obtain ⟨oid, o⟩ := p
      obtain ⟨⟨hoid, hdecode⟩, hfound⟩ := List.forall_mem_cons.mp h
      obtain ⟨report', hgate, htotal⟩ := ih hfound (report.tally o)
      have hround : roundtripOk sha1 o.encode = .ok oid :=
        bind_eq_ok.mpr ⟨o, hdecode, (if_neg (not_not.mpr rfl)).trans (congrArg Except.ok hoid)⟩
      refine ⟨report', bind_eq_ok.mpr ⟨oid, hround, (if_neg (not_not.mpr rfl)).trans hgate⟩, ?_⟩
      rw [htotal, (report.total_tally o).1, List.length_cons]
      omega

variable {deflate : List UInt8 → List UInt8} {fs fs' : GitDisk} {outDir : List Str} {made : GitImport}
  {refs : List (Str × GitOid)} (hempty : EmptyDirectory fs outDir) (hnames : RefNames (refs.map Prod.fst))
  (hwritten : Table.Written fs fs' (objectWrites deflate outDir made.ordered ++ refWrites outDir refs))
  (hnamed : ∀ (a : GitOid) (o : GitObject), made.gitObjects[a]? = some o → o.IsNamed sha1 a)
  (hzlib : ∀ (a : GitOid) (o : GitObject), made.gitObjects[a]? = some o →
    ∃ n, inflate (deflate o.encode) = .ok (o.encode, n))

include hempty hnames hwritten hnamed hzlib

/-- The loose objects of an export are the objects that were exported. -/
theorem walkLoose_mirror (hne : made.ordered ≠ []) :
    ∃ found, walkLoose sha1 inflate fs' outDir = .ok found ∧
      ∀ a o, (a, o) ∈ found ↔ made.gitObjects[a]? = some o := by
  have hobject : ∀ e ∈ made.ordered, made.gitObjects[e.1]? = some e.2 := fun e he => GitImport.mem_ordered.mp he
  obtain ⟨found, hfound, hfrom, hto⟩ := walkLoose_written hempty hnames (fun e he => List.mem_map_of_mem he) hwritten
    (fun e he => (hnamed _ _ (hobject e he)).1) (fun e he => hzlib _ _ (hobject e he))
    (fun e he => ⟨e.2, (hnamed _ _ (hobject e he)).2, rfl⟩) hne
  -- byte forms tell objects that have been read apart
  have hsame : ∀ p ∈ found, made.gitObjects[p.1]? = some p.2 := by
    intro p hp
    obtain ⟨e, he, hoid, hencode⟩ := hfrom p hp
    have hread := decode_of_walkLoose hfound hp
    rw [hencode, (hnamed _ _ (hobject e he)).2] at hread
    rw [hoid, hobject e he, Except.ok.inj hread]
  refine ⟨found, hfound, fun a o => ⟨hsame (a, o), fun ho => ?_⟩⟩
  obtain ⟨p, hp, hoid⟩ := hto (a, o) (GitImport.mem_ordered.mpr ho)
  have hobject' := hsame p hp
  rw [hoid, ho] at hobject'
  obtain rfl : p = (a, o) := Prod.ext hoid (Option.some.inj hobject').symm
  exact hp

/-- The objects of an export are the objects that were exported. -/
theorem storedObjects_written (hne : made.ordered ≠ []) :
    storedObjects sha1 inflate fs' outDir = .ok made.gitObjects := by
  obtain ⟨found, hfound, hmem⟩ := walkLoose_mirror hempty hnames hwritten hnamed hzlib hne
  have hpacked : readAllPacks sha1 inflate fs' outDir = .ok [] :=
    readAllPacks_written hempty hnames (fun e he => List.mem_map_of_mem he) hwritten
  refine bind_eq_ok.mpr ⟨found, hfound, bind_eq_ok.mpr ⟨[], hpacked, congrArg Except.ok ?_⟩⟩
  refine Std.ExtTreeMap.ext_getElem? fun a => Option.ext fun o => ?_
  constructor
  · intro ho
    have hfound' := mem_of_mergeObjects ho
    rw [List.append_nil] at hfound'
    exact (hmem a o).mp hfound'
  · intro ho
    obtain ⟨o', ho'⟩ := BTreeMap.exists_getElem?_collect (f := Prod.fst) (g := Prod.snd) ((hmem a o).mpr ho)
    have hfound' : (a, o') ∈ found := by
      have hfrom : (a, o') ∈ found ++ [] := mem_of_mergeObjects ho'
      rwa [List.append_nil] at hfrom
    rw [← ho, (hmem a o').mp hfound']
    exact ho'

/-- An export passes the gate. -/
theorem verifyRepo_written (hbelow : "refs".toList ∉ refs.map Prod.fst) (hsome : refs ≠ []) (hne : made.ordered ≠ []) :
    ∃ report, verifyRepo sha1 inflate fs' outDir = .ok report := by
  have hdir := resolveGitDir_written hempty hnames hwritten hbelow hsome hne
  obtain ⟨found, hfound, hmem⟩ := walkLoose_mirror hempty hnames hwritten hnamed hzlib hne
  have hpacked : readAllPacks sha1 inflate fs' outDir = .ok [] :=
    readAllPacks_written hempty hnames (fun e he => List.mem_map_of_mem he) hwritten
  obtain ⟨report, hgate, htotal⟩ := gateAll_of_named (fun p hp => hnamed _ _ ((hmem p.1 p.2).mp hp))
    ⟨0, 0, 0, 0, packFileCount fs' outDir⟩
  have hsome : report.total ≠ 0 := by
    obtain ⟨e, he⟩ := List.exists_mem_of_ne_nil _ hne
    have hpos := List.length_pos_of_mem ((hmem e.1 e.2).mpr (GitImport.mem_ordered.mp he))
    omega
  refine ⟨report, bind_eq_ok.mpr ⟨outDir, hdir, bind_eq_ok.mpr ⟨found, hfound, bind_eq_ok.mpr ⟨report, hgate, ?_⟩⟩⟩⟩
  refine bind_eq_ok.mpr ⟨[], hpacked, bind_eq_ok.mpr ⟨report, rfl, ?_⟩⟩
  exact if_neg fun hzero => hsome hzero.1

end

/-! ## Importing what has been exported -/

section

variable {sha1 : List UInt8 → GitOid} {inflate : Inflate} {sha256 : List UInt8 → ObjectId}
  {deflate : List UInt8 → List UInt8} {fs : GitDisk} {outDir : List Str} {made : GitImport} {refs : List (Str × GitOid)}

theorem length_ordered (made : GitImport) : made.ordered.length = made.gitObjects.size := by
  unfold GitImport.ordered
  rw [(perm_sortByKey _ _).length_eq, Std.ExtTreeMap.length_toList]

/-- The export of an import into an empty directory goes well, and importing it gives the import again. -/
theorem exists_mirror {objects : GitObjects} {depth turns : Nat} {repo repo' : Repository}
    (hmake : importObjects sha1 sha256 objects depth turns refs repo = .ok (made, repo')) (hsome : refs ≠ [])
    (hsorted : refs.Pairwise fun a b => (compare a.1 b.1).isLE) (hnodup : (refs.map Prod.fst).Nodup)
    (hnames : RefNames (refs.map Prod.fst)) (hbelow : "refs".toList ∉ refs.map Prod.fst)
    (hnamed : ∀ (a : GitOid) (o : GitObject), made.gitObjects[a]? = some o → o.IsNamed sha1 a)
    (hzlib : ∀ (a : GitOid) (o : GitObject), made.gitObjects[a]? = some o →
      ∃ n, inflate (deflate o.encode) = .ok (o.encode, n)) (hempty : EmptyDirectory fs outDir) :
    ∃ fs', exportRepo sha1 deflate made outDir fs = (.ok ⟨outDir, made.gitObjects.size, refs.length⟩, fs') ∧
      importRepo sha1 inflate sha256 depth turns fs' outDir repo = .ok (made, repo') := by
  obtain ⟨hrefs, -, hall, -⟩ := importObjects_eq_ok hmake
  have hrefs' : made.refs = refs := hrefs
  obtain ⟨fs', hexport, hwritten⟩ := exportRepo_written deflate hempty (hrefs' ▸ hnames) (hrefs' ▸ hnodup)
    fun a o ho => (hnamed a o ho).1
  rw [hrefs', length_ordered] at hexport
  rw [hrefs'] at hwritten
  refine ⟨fs', hexport, ?_⟩
  -- the refs lead to some object
  obtain ⟨root, hroot⟩ := List.exists_mem_of_ne_nil _ hsome
  have hmem : root.2 ∈ made.gitObjects := hall _ (.root (List.mem_map_of_mem hroot))
  obtain ⟨o, ho⟩ := Option.isSome_iff_exists.mp (Std.ExtTreeMap.mem_iff_isSome_getElem?.mp hmem)
  have hne : made.ordered ≠ [] := List.ne_nil_of_mem (GitImport.mem_ordered.mpr ho)
  have hcounted : made.commits + made.trees + made.blobs + made.tags ≠ 0 := by
    have hcount : made.counted = made.gitObjects.size := counted_importObjects hmake
    unfold GitImport.counted at hcount
    rw [hcount, ← length_ordered]
    exact (List.length_pos_iff.mpr hne).ne'
  obtain ⟨report, hverify⟩ := verifyRepo_written hempty hnames hwritten hnamed hzlib hbelow hsome hne
  have hdir := resolveGitDir_written hempty hnames hwritten hbelow hsome hne
  have hread := readRefs_written hempty hnames hwritten hnodup hbelow
  have hstable : sortByKey Prod.fst refs = refs :=
    eq_of_sorted (perm_sortByKey _ _) hnodup (pairwise_sortByKey _ _) hsorted
  rw [hstable] at hread
  have hstored := storedObjects_written hempty hnames hwritten hnamed hzlib hne
  refine bind_eq_ok.mpr ⟨outDir, mapError_eq_ok.mpr hdir, bind_eq_ok.mpr ⟨report, mapError_eq_ok.mpr hverify, ?_⟩⟩
  refine bind_eq_ok.mpr ⟨made.gitObjects, mapError_eq_ok.mpr hstored, ?_⟩
  refine bind_eq_ok.mpr ⟨refs, mapError_eq_ok.mpr hread, ?_⟩
  refine (if_neg hsome).trans (bind_eq_ok.mpr ⟨(made, repo'), importObjects_again hmake, ?_⟩)
  exact if_neg hcounted

/-- An export of an import that goes well, into an empty directory, is a repository whose import is the import again:
    the same objects and refs, and the same store from the same store. -/
theorem importRepo_exportRepo {path : List Str} {depth turns : Nat} {repo repo' : Repository} {report : GitExport}
    {fs' : GitDisk} (himport : importRepo sha1 inflate sha256 depth turns fs path repo = .ok (made, repo'))
    (hexport : exportRepo sha1 deflate made outDir fs = (.ok report, fs')) (hempty : EmptyDirectory fs outDir)
    (hnames : RefNames (made.refs.map Prod.fst)) (hbelow : "refs".toList ∉ made.refs.map Prod.fst)
    (hzlib : ∀ (a : GitOid) (o : GitObject), made.gitObjects[a]? = some o →
      ∃ n, inflate (deflate o.encode) = .ok (o.encode, n)) :
    importRepo sha1 inflate sha256 depth turns fs' outDir repo = .ok (made, repo') := by
  obtain ⟨gitDir, -, objects, refs, -, -, hobjects, hrefs, hsome, hmake⟩ := importRepo_eq_ok himport
  obtain ⟨hsame, hmade, -, -⟩ := importObjects_eq_ok hmake
  have hsame : made.refs = refs := hsame
  rw [hsame] at hnames hbelow
  have hsorted : refs.Pairwise fun a b => (compare a.1 b.1).isLE := by
    obtain ⟨_, -, hrefs⟩ := bind_eq_ok.mp hrefs
    obtain ⟨_, -, hrefs⟩ := bind_eq_ok.mp hrefs
    obtain ⟨_, -, hrefs⟩ := bind_eq_ok.mp hrefs
    obtain ⟨_, -, hrefs⟩ := bind_eq_ok.mp hrefs
    cases hrefs
    exact pairwise_sortByKey _ _
  have hnamed : ∀ (a : GitOid) (o : GitObject), made.gitObjects[a]? = some o → o.IsNamed sha1 a := fun a o ho =>
    ⟨hash_of_exportRepo hexport ho, decode_of_storedObjects hobjects ((hmade a o).mp ho).2⟩
  obtain ⟨fs'', hexport', himport'⟩ := exists_mirror hmake hsome hsorted (nodup_readRefs hrefs) hnames hbelow hnamed
    hzlib hempty
  rw [hexport, Prod.mk.injEq] at hexport'
  rw [hexport'.2]
  exact himport'

theorem importRepo_exportRepo_tag :
    ∃ made repo' report fs',
      importRepo .ofSha1 Pack.inflateStored .ofSha256 1 2 (tagDisk ["hi"]) tagDir .init = .ok (made, repo') ∧
      exportRepo .ofSha1 deflateStored made copyDir (tagDisk ["hi"]) = (.ok report, fs') ∧
      importRepo .ofSha1 Pack.inflateStored .ofSha256 1 2 fs' copyDir .init = .ok (made, repo') := by
  have hrun : (match importRepo .ofSha1 Pack.inflateStored .ofSha256 1 2 (tagDisk ["hi"]) tagDir .init with
      | .error _ => false
      | .ok (made, _) =>
          decide (made.refs = [("refs/tags/v1".toList, Pack.blobOid "hi")]) &&
          made.gitObjects.toList.all (fun e =>
            decide (Pack.inflateStored (deflateStored e.2.encode) = .ok (e.2.encode, 20))) &&
          (exportRepo .ofSha1 deflateStored made copyDir (tagDisk ["hi"])).1.isOk) = true := by
    decide +kernel
  cases himport : importRepo .ofSha1 Pack.inflateStored .ofSha256 1 2 (tagDisk ["hi"]) tagDir .init with
  | error e =>
      rw [himport] at hrun
      cases hrun
  | ok r =>
      obtain ⟨made, repo'⟩ := r
      rw [himport] at hrun
      simp only [Bool.and_eq_true, decide_eq_true_eq] at hrun
      obtain ⟨⟨hrefs, hzlib⟩, hexport⟩ := hrun
      cases hresult : exportRepo .ofSha1 deflateStored made copyDir (tagDisk ["hi"]) with
      | mk result fs' =>
          rw [hresult] at hexport
          obtain ⟨report, rfl⟩ := exists_of_isOk hexport
          refine ⟨made, repo', report, fs', rfl, hresult, ?_⟩
          refine importRepo_exportRepo himport hresult (by decide +kernel) (by rw [hrefs]; decide)
            (by rw [hrefs]; decide) fun a o ho => ⟨20, ?_⟩
          have hmem := Std.ExtTreeMap.mem_toList_iff_getElem?_eq_some.mpr ho
          exact of_decide_eq_true (List.all_eq_true.mp hzlib (a, o) hmem)

/-- A clone with refs can be exported into an empty directory, whatever the server said, and importing the export
    gives what was cloned. -/
theorem importRepo_fetchLocal {run : UploadPack → Str → Except SpawnError Child} {depth turns : Nat} {urlOrPath : Str}
    {repo repo' : Repository} {fetched : WireFetch}
    (hfetch : fetchLocal sha1 inflate sha256 run depth turns urlOrPath repo = .ok (fetched, repo'))
    (hsome : fetched.refs ≠ []) (hnodup : (fetched.refs.map Prod.fst).Nodup)
    (hnames : RefNames (fetched.refs.map Prod.fst)) (hbelow : "refs".toList ∉ fetched.refs.map Prod.fst)
    (hzlib : ∀ (a : GitOid) (o : GitObject), fetched.imported.gitObjects[a]? = some o →
      ∃ n, inflate (deflate o.encode) = .ok (o.encode, n)) (hempty : EmptyDirectory fs outDir) :
    ∃ fs', exportRepo sha1 deflate fetched.imported outDir fs =
        (.ok ⟨outDir, fetched.imported.gitObjects.size, fetched.refs.length⟩, fs') ∧
      importRepo sha1 inflate sha256 depth turns fs' outDir repo = .ok (fetched.imported, repo') := by
  obtain ⟨objects, hmake, hnamed, hsorted, -⟩ := fetchLocal_eq_ok hfetch
  obtain ⟨-, hmade, -, -⟩ := importObjects_eq_ok hmake
  exact exists_mirror hmake hsome hsorted hnodup hnames hbelow (fun a o ho => hnamed a o ((hmade a o).mp ho).2)
    hzlib hempty

theorem importRepo_fetchLocal_commit :
    ∃ depth turns fetched repo fs',
      fetchLocal .ofSha1 Pack.inflateStored .ofSha256 (fun _ _ => .ok commitServer) depth turns
        "file:///srv/hi".toList .init = .ok (fetched, repo) ∧
      importRepo .ofSha1 Pack.inflateStored .ofSha256 depth turns fs' copyDir .init = .ok (fetched.imported, repo) := by
  have hwalk := walkable_packObjects parsePackBytes_commitPack (fun _ ha => leads_commit ha) modes_commit
  obtain ⟨depth, turns, r, himport⟩ := exists_importObjects .ofSha256 .init hwalk storable_commit
  have hmake := himport depth turns le_rfl le_rfl
  have hfetch := fetchLocal_of_serves plain_commitAd (by decide +kernel) spawnUploadPack_commit commitServer_serves
    parsePackBytes_commitPack hmake
  have hzlib : ∀ (a : GitOid) (o : GitObject), r.1.gitObjects[a]? = some o →
      ∃ n, Pack.inflateStored (deflateStored o.encode) = .ok (o.encode, n) := by
    intro a o ho
    have hstored : ∀ o ∈ [hiCommit, hiTree, .blob (utf8 "hi".toList)],
        Pack.inflateStored (deflateStored o.encode) = .ok (o.encode, 11 + o.encode.length) := by decide +kernel
    refine ⟨11 + o.encode.length, hstored o ?_⟩
    rcases getElem?_commitFound (((importObjects_eq_ok hmake).2.1 a o).mp ho).2 with ⟨-, rfl⟩ | ⟨-, rfl⟩ | ⟨-, rfl⟩ <;>
      simp
  have hsome : commitAd.sorted ≠ [] := by decide +kernel
  have hnodup : (commitAd.sorted.map Prod.fst).Nodup := by decide +kernel
  have hnames : RefNames (commitAd.sorted.map Prod.fst) := by decide +kernel
  have hbelow : "refs".toList ∉ commitAd.sorted.map Prod.fst := by decide +kernel
  have hempty : EmptyDirectory ((∅ : GitDisk).insert copyDir .directory) copyDir := by decide +kernel
  obtain ⟨fs', -, hagain⟩ := importRepo_fetchLocal hfetch hsome hnodup hnames hbelow hzlib hempty
  exact ⟨depth, turns, _, _, fs', hfetch, hagain⟩

end

end Omoplata
