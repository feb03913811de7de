-- SUMMARY: What the gates of a batch see: the directory the tips are checked out into, and its conflict values.
import Omoplata.Cli.Gates

/-!
# The gates of a batch

Each tip of a batch is checked out into a directory named after its submission and its
position. Names are made from ids by a replacement that is not injective, and a checkout
clears its directory, so the gates see every tip where no two that are not alike share one.
-/

namespace Omoplata

/-! ## Directories -/

theorem slash_notMem_flatName (id : SubmissionId) : '/' ∉ flatName id := by
  unfold flatName
  simp only [List.mem_map, not_exists, not_and]
  intro c _ hc
  split at hc
  · exact absurd hc (by decide)
  · rename_i hne
    exact hne (.inl hc)

/-- The directory of a tip tells the flattened id of its submission and its position. -/
theorem tipDirectory_inj_of_prefix {id id' : SubmissionId} {i i' : Nat} {path : Str}
    (h : tipDirectory id i ++ ['/'] <+: tipDirectory id' i' ++ ['/'] ++ path) :
    flatName id = flatName id' ∧ i = i' := by
  have hparts : ∀ (id : SubmissionId) (i : Nat) (path : Str), tipDirectory id i ++ ['/'] ++ path =
      "sub-".toList ++ (flatName id ++ ['/'] ++
        ("change-".toList ++ Nat.toDigits 10 i ++ ['/'] ++ path)) := by
    intro id i path
    simp [tipDirectory, joinTexts]
  have hname : flatName id = flatName id' := by
    have hname := hparts id i []
    rw [List.append_nil] at hname
    rw [hname, hparts, List.prefix_append_right_inj] at h
    exact eq_of_append_cons_prefix (slash_notMem_flatName id) (slash_notMem_flatName id')
      (List.IsPrefix.trans (List.prefix_append _ _) h)
  rw [hparts id' i', ← hname, ← hparts id i'] at h
  exact ⟨hname, tipDirectory_inj h⟩

theorem fileName_append (dir path : Str) : fileName (dir ++ ['/'] ++ path) = fileName path := by
  unfold fileName
  rw [List.append_assoc, List.singleton_append, List.splitOn_append_cons_self]
  cases hparts : path.splitOn '/' with
  | nil => exact absurd hparts (List.splitOn_ne_nil _ _)
  | cons part parts => simp [List.getLastD_eq_getLast?, List.getLast?_append, List.getLast?_cons]

theorem pathExtension_append (dir path : Str) :
    pathExtension (dir ++ ['/'] ++ path) = pathExtension path := by
  unfold pathExtension
  rw [fileName_append]

/-- What a checkout leaves at a path of its directory. -/
theorem getElem?_materializeInto_inside (content : Files) (dir : Str) (files : Files) (path : Str) :
    (materializeInto content dir files)[dir ++ ['/'] ++ path]? =
      files[path]?.or (if controlNames.any fun name => path == name || (name ++ ['/']).isPrefixOf path
        then content[dir ++ ['/'] ++ path]? else none) := by
  cases hc : files[path]? with
  | some c => exact getElem?_materializeInto content dir hc
  | none =>
      unfold materializeInto
      rw [BTreeMap.getElem?_foldl_insert_of_ne (f := fun p => dir ++ ['/'] ++ p)]
      · rw [Std.ExtTreeMap.getElem?_filter', Option.none_or]
        simp only [List.drop_left]
        have hinside : (dir ++ ['/']).isPrefixOf (dir ++ ['/'] ++ path) = true :=
          List.isPrefixOf_iff_prefix.mpr (List.prefix_append _ _)
        cases content[dir ++ ['/'] ++ path]? with
        | none => simp
        | some c => simp only [hinside, Option.filter_some, Bool.not_true, Bool.false_or]
      · rintro p hp heq
        have hpath : p.1 = path := List.append_cancel_left heq
        have hmem := Std.ExtTreeMap.mem_toList_iff_getElem?_eq_some.mp (show (p.1, p.2) ∈ files.toList from hp)
        rw [hpath, hc] at hmem
        cases hmem

/-! ## Checking out several trees -/

/-- Check trees out one after another, each into its directory. -/
def checkOutAll (slots : List (Str × Files)) : Files :=
  slots.foldl (fun content slot => materializeInto content slot.1 slot.2) ∅

theorem checkOutAll_append (slots : List (Str × Files)) (slot : Str × Files) :
    checkOutAll (slots ++ [slot]) = materializeInto (checkOutAll slots) slot.1 slot.2 := by
  simp [checkOutAll]

/-- No directory lies in another. -/
def Apart (slots : List (Str × Files)) : Prop :=
  ∀ a ∈ slots, ∀ b ∈ slots, ∀ path : Str, a.1 ++ ['/'] <+: b.1 ++ ['/'] ++ path → a.1 = b.1

theorem Apart.init {slots : List (Str × Files)} {slot : Str × Files} (h : Apart (slots ++ [slot])) :
    Apart slots := fun a ha b hb =>
  h a (List.mem_append_left _ ha) b (List.mem_append_left _ hb)

/-- A checkout holds nothing outside the directories. -/
theorem exists_slot_of_checkOutAll {slots : List (Str × Files)} {key : Str}
    (h : (checkOutAll slots)[key]? ≠ none) : ∃ slot ∈ slots, slot.1 ++ ['/'] <+: key := by
  induction slots using List.reverseRecOn with
  | nil => simp [checkOutAll] at h
  | append_singleton slots slot ih =>
      by_cases hin : slot.1 ++ ['/'] <+: key
      · exact ⟨slot, by simp, hin⟩
      · rw [checkOutAll_append, getElem?_materializeInto_outside _ _ hin] at h
        obtain ⟨slot', hmem, hprefix⟩ := ih h
        exact ⟨slot', List.mem_append_left _ hmem, hprefix⟩

/-- Where one directory is for one tree, each holds exactly its tree. -/
theorem getElem?_checkOutAll {slots : List (Str × Files)} (hapart : Apart slots)
    (hsame : slots.Pairwise fun a b => a.1 = b.1 → a.2 = b.2) :
    ∀ slot ∈ slots, ∀ path, (checkOutAll slots)[slot.1 ++ ['/'] ++ path]? = slot.2[path]? := by
  induction slots using List.reverseRecOn with
  | nil => simp
  | append_singleton slots slot ih =>
      obtain ⟨hinit, -, hlast⟩ := List.pairwise_append.mp hsame
      have hearlier := ih hapart.init hinit
      intro slot' hmem path
      rw [checkOutAll_append]
      by_cases hdir : slot'.1 = slot.1
      · rw [hdir, getElem?_materializeInto_inside]
        rcases List.mem_append.mp hmem with hin | hin
        · have htree : slot'.2 = slot.2 := hlast slot' hin slot (by simp) hdir
          rw [← hdir, hearlier slot' hin, htree]
          cases slot.2[path]? <;> simp
        · obtain rfl := List.mem_singleton.mp hin
          by_cases hused : ∃ earlier ∈ slots, earlier.1 = slot'.1
          · obtain ⟨earlier, hin', hdir'⟩ := hused
            have htree : earlier.2 = slot'.2 := hlast earlier hin' slot' (by simp) hdir'
            rw [← hdir', hearlier earlier hin', htree]
            cases slot'.2[path]? <;> simp
          · have hempty : (checkOutAll slots)[slot'.1 ++ ['/'] ++ path]? = none := by
              by_contra hne
              obtain ⟨earlier, hin', hprefix⟩ := exists_slot_of_checkOutAll hne
              exact hused ⟨earlier, hin', hapart earlier (List.mem_append_left _ hin') slot' hmem path hprefix⟩
            rw [hempty]
            simp
      · have hin : slot' ∈ slots := (List.mem_append.mp hmem).resolve_right fun hlast =>
          hdir (List.mem_singleton.mp hlast ▸ rfl)
        rw [getElem?_materializeInto_outside _ _ fun hprefix =>
          hdir (hapart slot (by simp) slot' hmem path hprefix).symm]
        exact hearlier slot' hin path

/-- Checking a tree out once more where it is already changes nothing. -/
theorem materializeInto_again {slots : List (Str × Files)} {slot earlier : Str × Files}
    (hapart : Apart (slots ++ [slot]))
    (hsame : (slots ++ [slot]).Pairwise fun a b => a.1 = b.1 → a.2 = b.2) (hmem : earlier ∈ slots)
    (hdir : earlier.1 = slot.1) :
    materializeInto (checkOutAll slots) slot.1 slot.2 = checkOutAll slots := by
  refine Std.ExtTreeMap.ext_getElem? fun key => ?_
  by_cases hin : slot.1 ++ ['/'] <+: key
  · obtain ⟨path, rfl⟩ := hin
    obtain ⟨hinit, -, hlast⟩ := List.pairwise_append.mp hsame
    have hafter := getElem?_checkOutAll hapart hsame slot (by simp) path
    have hbefore := getElem?_checkOutAll hapart.init hinit earlier hmem path
    rw [checkOutAll_append] at hafter
    rw [hafter, ← hdir, hbefore, hlast earlier hmem slot (by simp) hdir]
  · exact getElem?_materializeInto_outside _ _ hin

/-- The conflict values of a file, if it is a Rust file. -/
def carriedIn (host : Host) (path : Str) (c : Content) : Nat :=
  if pathExtension path ≠ some "rs".toList then 0
  else ((c.readToString.bind (conflictValues host.tools.grammar)).map List.length).getD 0

/-- The conflict values in the Rust files of a tree. -/
def carriedOf (host : Host) (files : Files) : Nat := BTreeMap.total (carriedIn host) files

/-- A checkout into a directory that is not there yet adds the conflict values of its tree. -/
theorem carriedOf_materializeInto {host : Host} {content : Files} {dir : Str} (files : Files)
    (hnew : ∀ path, content[dir ++ ['/'] ++ path]? = none) :
    carriedOf host (materializeInto content dir files) =
      carriedOf host content + carriedOf host files := by
  have hkept : (content.filter fun path _ => !(dir ++ ['/']).isPrefixOf path || controlNames.any fun name =>
      path.drop (dir ++ ['/']).length == name ||
        (name ++ ['/']).isPrefixOf (path.drop (dir ++ ['/']).length)) = content := by
    refine Std.ExtTreeMap.ext_getElem? fun key => ?_
    rw [Std.ExtTreeMap.getElem?_filter']
    by_cases hin : (dir ++ ['/']).isPrefixOf key = true
    · obtain ⟨path, rfl⟩ := List.isPrefixOf_iff_prefix.mp hin
      rw [hnew path]
      rfl
    · cases content[key]? <;> simp [hin]
  unfold carriedOf materializeInto
  dsimp only
  rw [hkept, BTreeMap.total_foldl_insert (fun _ _ heq => List.append_cancel_left heq) _ _ _ hnew]
  congr 1
  unfold carriedIn
  simp only [pathExtension_append]

/-- No conflict value is counted twice, and all are counted where no directory that is
    checked out into again has one. -/
theorem carriedOf_checkOutAll {host : Host} {slots : List (Str × Files)} (hapart : Apart slots)
    (hsame : slots.Pairwise fun a b => a.1 = b.1 → a.2 = b.2) :
    carriedOf host (checkOutAll slots) ≤ (slots.map fun slot => carriedOf host slot.2).sum ∧
      (carriedOf host (checkOutAll slots) = (slots.map fun slot => carriedOf host slot.2).sum ↔
        slots.Pairwise fun a b => a.1 = b.1 → carriedOf host b.2 = 0) := by
  induction slots using List.reverseRecOn with
  | nil =>
      have hnil : (∅ : Files).toList = [] := Std.ExtTreeMap.toList_eq_nil_iff.mpr rfl
      simp [checkOutAll, carriedOf, BTreeMap.total, hnil]
  | append_singleton slots slot ih =>
      obtain ⟨hle, hiff⟩ := ih hapart.init (List.pairwise_append.mp hsame).1
      have hpairwise : ((slots ++ [slot]).Pairwise fun a b => a.1 = b.1 → carriedOf host b.2 = 0) ↔
          (slots.Pairwise fun a b => a.1 = b.1 → carriedOf host b.2 = 0) ∧
            ∀ a ∈ slots, a.1 = slot.1 → carriedOf host slot.2 = 0 := by
        simp [List.pairwise_append]
      rw [hpairwise, ← hiff, checkOutAll_append, List.map_append, List.sum_append, List.map_singleton,
        List.sum_singleton]
      by_cases hused : ∃ earlier ∈ slots, earlier.1 = slot.1
      · obtain ⟨earlier, hmem, hdir⟩ := hused
        rw [materializeInto_again hapart hsame hmem hdir]
        refine ⟨by omega, fun heq => ⟨by omega, fun _ _ _ => by omega⟩, fun ⟨heq, hzero⟩ => ?_⟩
        rw [heq, hzero earlier hmem hdir, Nat.add_zero]
      · have hnew : ∀ path, (checkOutAll slots)[slot.1 ++ ['/'] ++ path]? = none := by
          intro path
          by_contra hne
          obtain ⟨earlier, hmem, hprefix⟩ := exists_slot_of_checkOutAll hne
          exact hused ⟨earlier, hmem,
            hapart earlier (List.mem_append_left _ hmem) slot (by simp) path hprefix⟩
        rw [carriedOf_materializeInto slot.2 hnew]
        refine ⟨by omega, fun heq => ⟨by omega, fun a ha hdir => absurd ⟨a, ha, hdir⟩ hused⟩,
          fun ⟨heq, _⟩ => by rw [heq]⟩

/-- Every tree stands in its directory as it is and every conflict value counts, exactly
    where what shares a directory is alike and carries none. -/
theorem checkOutAll_exact_iff {host : Host} {slots : List (Str × Files)} (hapart : Apart slots) :
    ((∀ slot ∈ slots, ∀ path, (checkOutAll slots)[slot.1 ++ ['/'] ++ path]? = slot.2[path]?) ∧
        carriedOf host (checkOutAll slots) = (slots.map fun slot => carriedOf host slot.2).sum) ↔
      slots.Pairwise fun a b => a.1 = b.1 → a.2 = b.2 ∧ carriedOf host b.2 = 0 := by
  constructor
  · rintro ⟨hexact, hsum⟩
    have hall : ∀ a ∈ slots, ∀ b ∈ slots, a.1 = b.1 → a.2 = b.2 := by
      intro a ha b hb hdir
      refine Std.ExtTreeMap.ext_getElem? fun path => ?_
      rw [← hexact a ha path, ← hexact b hb path, hdir]
    have hsame : slots.Pairwise fun a b => a.1 = b.1 → a.2 = b.2 :=
      List.Pairwise.imp_of_mem (fun {a b} ha hb _ => hall a ha b hb) (List.pairwise_of_forall fun _ _ => trivial)
    have hzero := (carriedOf_checkOutAll hapart hsame).2.mp hsum
    exact (hsame.and hzero).imp fun h hdir => ⟨h.1 hdir, h.2 hdir⟩
  · intro hslots
    have hsame : slots.Pairwise fun a b => a.1 = b.1 → a.2 = b.2 := hslots.imp fun h hdir => (h hdir).1
    exact ⟨getElem?_checkOutAll hapart hsame,
      (carriedOf_checkOutAll hapart hsame).2.mpr (hslots.imp fun h hdir => (h hdir).2)⟩

/-! ## What is observed -/

/-- What is counted in a directory are the conflict values of its Rust files. -/
theorem observeCarried_eq {host : Host} {content : Files} {count : Nat}
    (h : observeCarried host content = .ok count) : count = carriedOf host content := by
  have hfiles : ∀ (files : List (Str × Content)) (n : Nat),
      files.foldlM (observeFile host) n = .ok count →
        count = n + (files.map fun p => carriedIn host p.1 p.2).sum := by
    intro files
    induction files with
    | nil =>
        intro n hn
        simpa [pure, Except.pure, eq_comm] using hn
    | cons file files ih =>
        intro n hn
        rw [List.foldlM_cons] at hn
        cases hstep : observeFile host n file with
        | error e => simp [hstep, bind, Except.bind] at hn
        | ok n₁ =>
            simp only [hstep, bind, Except.bind] at hn
            have hone : n₁ = n + carriedIn host file.1 file.2 := by
              unfold observeFile at hstep
              unfold carriedIn
              split at hstep
              · rename_i hskip
                rcases hskip with hdir | hext
                · simp only [hdir, Content.readToString, Option.bind_none, Option.map_none, Option.getD_none, ite_self]
                  exact (Except.ok.inj hstep).symm
                · rw [if_pos hext]
                  exact (Except.ok.inj hstep).symm
              · rename_i hread
                rw [if_neg fun hext => hread (.inr hext)]
                cases hc : file.2.readToString with
                | none => simp [hc] at hstep
                | some text =>
                    cases hv : conflictValues host.tools.grammar text with
                    | none => simp [hc, hv] at hstep
                    | some values =>
                        simp only [hc, hv, Except.ok.injEq] at hstep
                        simp [hv, hstep]
            rw [ih n₁ hn, hone, List.map_cons, List.sum_cons]
            omega
  simpa [carriedOf, BTreeMap.total] using hfiles content.toList 0 h

/-- The tree of a tip, empty where the store does not give one. -/
def treeOf (host : Host) (store : Store) (tip : ObjectId) : Files :=
  (store.read host.treeId tip).toOption.getD ∅

/-- The directories of the tips of a submission. -/
def slotsOf (sub : SubmissionId × List ObjectId) : List (Str × ObjectId) :=
  sub.2.zipIdx.map fun tip => (tipDirectory sub.1 tip.2, tip.1)

theorem foldlM_observeTip_eq {host : Host} {store : Store} {submission : SubmissionId}
    {tips : List (ObjectId × Nat)} {s s' : Files × TextFiles}
    (h : tips.foldlM (observeTip host store submission) s = .ok s') :
    (∀ tip ∈ tips, store.read host.treeId tip.1 = .ok (treeOf host store tip.1)) ∧
      s'.1 = tips.foldl (fun content tip =>
        materializeInto content (tipDirectory submission tip.2) (treeOf host store tip.1)) s.1 := by
  induction tips generalizing s with
  | nil =>
      obtain rfl : s = s' := by simpa [pure, Except.pure] using h
      simp
  | cons tip tips ih =>
      rw [List.foldlM_cons] at h
      cases hread : store.read host.treeId tip.1 with
      | error e => simp [observeTip, checkOut, hread, Except.mapError, bind, Except.bind] at h
      | ok files =>
          have htree : treeOf host store tip.1 = files := by
            unfold treeOf
            rw [hread]
            rfl
          simp only [observeTip, checkOut, hread, Except.mapError, bind, Except.bind, pure,
            Except.pure] at h
          obtain ⟨hreads, hcontent⟩ := ih h
          refine ⟨fun tip' hmem => ?_, ?_⟩
          · rcases List.mem_cons.mp hmem with rfl | hin
            · rw [hread, htree]
            · exact hreads tip' hin
          · rw [List.foldl_cons, htree]
            exact hcontent

theorem foldlM_observeManifest_eq {host : Host} {store : Store} {base : TextFiles}
    {subTips : List (SubmissionId × List ObjectId)}
    {s s' : Files × List (SubmissionId × BTreeMap Str (BTreeSet Str))}
    (h : subTips.foldlM (observeManifest host store base) s = .ok s') :
    (∀ slot ∈ subTips.flatMap slotsOf,
        store.read host.treeId slot.2 = .ok (treeOf host store slot.2)) ∧
      s'.1 = (subTips.flatMap slotsOf).foldl (fun content slot =>
        materializeInto content slot.1 (treeOf host store slot.2)) s.1 := by
  induction subTips generalizing s with
  | nil =>
      obtain rfl : s = s' := by simpa [pure, Except.pure] using h
      simp
  | cons sub subTips ih =>
      rw [List.foldlM_cons] at h
      cases hsub : observeSubmission host store s.1 sub with
      | error e => simp [observeManifest, hsub, bind, Except.bind] at h
      | ok r =>
          simp only [observeManifest, hsub, bind, Except.bind, pure, Except.pure] at h
          obtain ⟨hreads, hcontent⟩ := ih h
          obtain ⟨hreadsSub, hcontentSub⟩ := foldlM_observeTip_eq hsub
          refine ⟨fun slot hmem => ?_, ?_⟩
          · rw [List.flatMap_cons] at hmem
            rcases List.mem_append.mp hmem with hin | hin
            · obtain ⟨tip, htip, rfl⟩ := List.mem_map.mp hin
              exact hreadsSub tip htip
            · exact hreads slot hin
          · rw [List.flatMap_cons, List.foldl_append, hcontent, hcontentSub]
            simp only [slotsOf, List.foldl_map]

theorem mem_slotsOf {sub : SubmissionId × List ObjectId} {slot : Str × ObjectId} :
    slot ∈ slotsOf sub ↔ ∃ k, sub.2[k]? = some slot.2 ∧ slot.1 = tipDirectory sub.1 k := by
  obtain ⟨dir, tip⟩ := slot
  simp only [slotsOf, List.mem_map, Prod.mk.injEq]
  constructor
  · rintro ⟨⟨tip', k⟩, hmem, rfl, rfl⟩
    exact ⟨k, List.mem_zipIdx_iff_getElem?.mp hmem, rfl⟩
  · rintro ⟨k, htip, hdir⟩
    exact ⟨(tip, k), List.mem_zipIdx_iff_getElem?.mpr htip, hdir.symm, rfl⟩

theorem read_tip {host : Host} {store : Store} {subTips : List (SubmissionId × List ObjectId)}
    (hreads : ∀ slot ∈ subTips.flatMap slotsOf,
      store.read host.treeId slot.2 = .ok (treeOf host store slot.2))
    {sub : SubmissionId × List ObjectId} (hsub : sub ∈ subTips) {k : Nat} {tip : ObjectId}
    (htip : sub.2[k]? = some tip) : store.read host.treeId tip = .ok (treeOf host store tip) :=
  hreads (tipDirectory sub.1 k, tip) (List.mem_flatMap.mpr ⟨sub, hsub, mem_slotsOf.mpr ⟨k, htip, rfl⟩⟩)

/-- The slots of a submission have directories of their own. -/
theorem pairwise_slotsOf (sub : SubmissionId × List ObjectId) :
    (slotsOf sub).Pairwise fun a b => a.1 ≠ b.1 := by
  unfold slotsOf
  rw [List.pairwise_map, List.pairwise_iff_getElem]
  intro i j hi hj hlt heq
  simp only [List.getElem_zipIdx, Nat.zero_add] at heq
  have hprefix : tipDirectory sub.1 i ++ ['/'] <+: tipDirectory sub.1 j ++ ['/'] ++ [] := by
    rw [heq, List.append_nil]
  exact absurd (tipDirectory_inj hprefix) (Nat.ne_of_lt hlt)

/-- The conflict values in the Rust files of a tip. -/
def carriedOfTip (host : Host) (store : Store) (tip : ObjectId) : Nat :=
  carriedOf host (treeOf host store tip)

/-- The directory of each tip of a batch is a copy of its tree, and the count is that of
    all of them. -/
structure SeesAll (host : Host) (store : Store) (subTips : List (SubmissionId × List ObjectId))
    (content : Files) (carried : Nat) : Prop where
  copies : ∀ sub ∈ subTips, ∀ k tip, sub.2[k]? = some tip →
    ∃ files, store.read host.treeId tip = .ok files ∧
      ∀ path, content[tipDirectory sub.1 k ++ ['/'] ++ path]? = files[path]?
  counts : carried = ((subTips.flatMap Prod.snd).map (carriedOfTip host store)).sum

/-- Where two submissions have one name once flattened, their tips at one position have one
    tree, and it carries no conflict value. -/
def Unshadowed (host : Host) (store : Store) (subTips : List (SubmissionId × List ObjectId)) : Prop :=
  subTips.Pairwise fun a b => flatName a.1 = flatName b.1 →
    ∀ (k : Nat) (t u : ObjectId), a.2[k]? = some t → b.2[k]? = some u →
      store.read host.treeId t = store.read host.treeId u ∧ carriedOfTip host store u = 0

/-- The trees of a batch with their directories. -/
def treesOf (host : Host) (store : Store) (subTips : List (SubmissionId × List ObjectId)) :
    List (Str × Files) :=
  (subTips.flatMap slotsOf).map fun slot => (slot.1, treeOf host store slot.2)

theorem mem_treesOf {host : Host} {store : Store} {subTips : List (SubmissionId × List ObjectId)}
    {slot : Str × Files} :
    slot ∈ treesOf host store subTips ↔ ∃ sub ∈ subTips, ∃ k tip, sub.2[k]? = some tip ∧
      slot = (tipDirectory sub.1 k, treeOf host store tip) := by
  simp only [treesOf, List.mem_map, List.mem_flatMap]
  constructor
  · rintro ⟨slot', ⟨sub, hsub, hslot⟩, rfl⟩
    obtain ⟨k, htip, hdir⟩ := mem_slotsOf.mp hslot
    exact ⟨sub, hsub, k, slot'.2, htip, by rw [hdir]⟩
  · rintro ⟨sub, hsub, k, tip, htip, rfl⟩
    exact ⟨(tipDirectory sub.1 k, tip), ⟨sub, hsub, mem_slotsOf.mpr ⟨k, htip, rfl⟩⟩, rfl⟩

theorem apart_treesOf (host : Host) (store : Store) (subTips : List (SubmissionId × List ObjectId)) :
    Apart (treesOf host store subTips) := by
  intro a ha b hb path hprefix
  obtain ⟨sub, -, k, tip, -, rfl⟩ := mem_treesOf.mp ha
  obtain ⟨sub', -, k', tip', -, rfl⟩ := mem_treesOf.mp hb
  obtain ⟨hname, rfl⟩ := tipDirectory_inj_of_prefix hprefix
  simp only [tipDirectory, hname]

theorem sum_treesOf (host : Host) (store : Store) (subTips : List (SubmissionId × List ObjectId)) :
    ((treesOf host store subTips).map fun slot => carriedOf host slot.2).sum =
      ((subTips.flatMap Prod.snd).map (carriedOfTip host store)).sum := by
  have hslots : (subTips.flatMap slotsOf).map Prod.snd = subTips.flatMap Prod.snd := by
    rw [List.map_flatMap]
    refine congrArg (List.flatMap · subTips) (funext fun sub => ?_)
    simp only [slotsOf, List.map_map, Function.comp_def]
    exact List.zipIdx_map_fst 0 sub.2
  rw [← hslots, treesOf, List.map_map, List.map_map]
  rfl

/-- Directories are shared as the flattened ids are. -/
theorem pairwise_treesOf_iff {host : Host} {store : Store}
    {subTips : List (SubmissionId × List ObjectId)}
    (hreads : ∀ slot ∈ subTips.flatMap slotsOf,
      store.read host.treeId slot.2 = .ok (treeOf host store slot.2)) :
    ((treesOf host store subTips).Pairwise fun a b =>
        a.1 = b.1 → a.2 = b.2 ∧ carriedOf host b.2 = 0) ↔ Unshadowed host store subTips := by
  rw [treesOf, List.pairwise_map, List.pairwise_flatMap]
  constructor
  · rintro ⟨-, hbetween⟩
    refine hbetween.imp_of_mem fun {a b} ha hb hslots hname k t u ht hu => ?_
    have hdir : tipDirectory a.1 k = tipDirectory b.1 k := by simp only [tipDirectory, hname]
    obtain ⟨htree, hzero⟩ :=
      hslots (tipDirectory a.1 k, t) (mem_slotsOf.mpr ⟨k, ht, rfl⟩)
        (tipDirectory b.1 k, u) (mem_slotsOf.mpr ⟨k, hu, rfl⟩) hdir
    refine ⟨?_, hzero⟩
    rw [read_tip hreads ha ht, read_tip hreads hb hu]
    exact congrArg Except.ok htree
  · intro hshadow
    refine ⟨fun sub _ => (pairwise_slotsOf sub).imp fun hne heq => absurd heq hne, ?_⟩
    refine hshadow.imp_of_mem fun {a b} ha hb hsub x hx y hy hdir => ?_
    obtain ⟨k, ht, hk⟩ := mem_slotsOf.mp hx
    obtain ⟨k', hu, hk'⟩ := mem_slotsOf.mp hy
    have hprefix : tipDirectory a.1 k ++ ['/'] <+: tipDirectory b.1 k' ++ ['/'] ++ [] := by
      rw [← hk, ← hk', hdir, List.append_nil]
    obtain ⟨hname, rfl⟩ := tipDirectory_inj_of_prefix hprefix
    obtain ⟨htree, hzero⟩ := hsub hname k _ _ ht hu
    rw [read_tip hreads ha ht, read_tip hreads hb hu] at htree
    exact ⟨Except.ok.inj htree, hzero⟩

theorem seesAll_iff {host : Host} {store : Store} {subTips : List (SubmissionId × List ObjectId)}
    {content : Files} {carried : Nat}
    (hreads : ∀ slot ∈ subTips.flatMap slotsOf,
      store.read host.treeId slot.2 = .ok (treeOf host store slot.2)) :
    SeesAll host store subTips content carried ↔
      (∀ slot ∈ treesOf host store subTips, ∀ path, content[slot.1 ++ ['/'] ++ path]? = slot.2[path]?) ∧
        carried = ((subTips.flatMap Prod.snd).map (carriedOfTip host store)).sum := by
  constructor
  · rintro ⟨hcopies, hcounts⟩
    refine ⟨fun slot hslot path => ?_, hcounts⟩
    obtain ⟨sub, hsub, k, tip, htip, rfl⟩ := mem_treesOf.mp hslot
    obtain ⟨files, hfiles, hcopy⟩ := hcopies sub hsub k tip htip
    rw [read_tip hreads hsub htip] at hfiles
    rw [hcopy path, Except.ok.inj hfiles]
  · rintro ⟨hslots, hcounts⟩
    refine ⟨fun sub hsub k tip htip => ⟨_, read_tip hreads hsub htip, fun path => ?_⟩, hcounts⟩
    exact hslots _ (mem_treesOf.mpr ⟨sub, hsub, k, tip, htip, rfl⟩) path

/-- What the gates of a batch were observed on. -/
theorem observeBatchGates_content {host : Host} {store : Store} {registry : QueueRegistry}
    {refs : Refs} {queue : Str} {subTips : List (SubmissionId × List ObjectId)}
    {policy : QueuePolicy} {batch : BatchGates}
    (h : observeBatchGates host store registry refs queue subTips policy = .ok batch) :
    ∃ base content, materializeQueueBase host store registry refs queue none = .ok base ∧
      subTips.foldlM (observeManifest host store base) (∅, []) = .ok (content, batch.manifests) ∧
      observeCarried host content = .ok batch.carriedValues ∧
      runValidator host policy content = .ok batch.validated := by
  unfold observeBatchGates at h
  cases hbase : materializeQueueBase host store registry refs queue none with
  | error e => simp [hbase, bind, Except.bind] at h
  | ok base =>
      cases hfold : subTips.foldlM (observeManifest host store base) (∅, []) with
      | error e => simp [hbase, hfold, bind, Except.bind] at h
      | ok s =>
          obtain ⟨content, manifests⟩ := s
          cases hcarried : observeCarried host content with
          | error e => simp [hbase, hfold, hcarried, bind, Except.bind] at h
          | ok count =>
              cases hval : runValidator host policy content with
              | error e => simp [hbase, hfold, hcarried, hval, bind, Except.bind] at h
              | ok verdict =>
                  simp only [hbase, hfold, hcarried, hval, bind, Except.bind, pure, Except.pure,
                    Except.ok.injEq] at h
                  subst h
                  exact ⟨base, content, rfl, hfold, hcarried, hval⟩

/-- The gates of a batch are observed on a directory that holds every tip, and with the
    conflict values of all, exactly where no tip shadows another. -/
theorem observeBatchGates_sees_iff {host : Host} {store : Store} {registry : QueueRegistry}
    {refs : Refs} {queue : Str} {subTips : List (SubmissionId × List ObjectId)}
    {policy : QueuePolicy} {batch : BatchGates}
    (h : observeBatchGates host store registry refs queue subTips policy = .ok batch) :
    ∃ base content, materializeQueueBase host store registry refs queue none = .ok base ∧
      subTips.foldlM (observeManifest host store base) (∅, []) = .ok (content, batch.manifests) ∧
      observeCarried host content = .ok batch.carriedValues ∧
      runValidator host policy content = .ok batch.validated ∧
      (SeesAll host store subTips content batch.carriedValues ↔ Unshadowed host store subTips) := by
  obtain ⟨base, content, hbase, hfold, hcarried, hval⟩ := observeBatchGates_content h
  refine ⟨base, content, hbase, hfold, hcarried, hval, ?_⟩
  obtain ⟨hreads, hcontent⟩ := foldlM_observeManifest_eq hfold
  have hall : content = checkOutAll (treesOf host store subTips) := by
    rw [treesOf, checkOutAll, List.foldl_map]
    exact hcontent
  rw [← pairwise_treesOf_iff hreads, ← checkOutAll_exact_iff (apart_treesOf host store subTips),
    sum_treesOf, observeCarried_eq hcarried, ← hall]
  exact seesAll_iff hreads

/-- A store with a tree of one file and one of another. -/
def twoTrees : Store :=
  (((⟨∅⟩ : Store).write sampleHost.treeId (emptyFiles ["x".toList])).2.write sampleHost.treeId
    (emptyFiles ["yy".toList])).2

/-- A batch of the two, submitted under the given ids. -/
def twoTips (id id' : SubmissionId) : List (SubmissionId × List ObjectId) :=
  [(id, [sampleHost.treeId (emptyFiles ["x".toList])]), (id', [sampleHost.treeId (emptyFiles ["yy".toList])])]

theorem observeBatchGates_twoTips (id id' : SubmissionId)
    (hok : (observeBatchGates sampleHost twoTrees ⟨[]⟩ ∅ "trunk".toList (twoTips id id') .trunk).isOk = true) :
    ∃ batch, observeBatchGates sampleHost twoTrees ⟨[]⟩ ∅ "trunk".toList (twoTips id id') .trunk =
      .ok batch := by
  cases hbatch : observeBatchGates sampleHost twoTrees ⟨[]⟩ ∅ "trunk".toList (twoTips id id') .trunk with
  | error e =>
      rw [hbatch] at hok
      cases hok
  | ok batch => exact ⟨batch, rfl⟩

theorem observeBatchGates_sees_iff_apart :
    ∃ batch base content,
      observeBatchGates sampleHost twoTrees ⟨[]⟩ ∅ "trunk".toList (twoTips "a".toList "b".toList)
        .trunk = .ok batch ∧
      (twoTips "a".toList "b".toList).foldlM (observeManifest sampleHost twoTrees base) (∅, []) =
        .ok (content, batch.manifests) ∧
      SeesAll sampleHost twoTrees (twoTips "a".toList "b".toList) content batch.carriedValues := by
  obtain ⟨batch, hbatch⟩ := observeBatchGates_twoTips "a".toList "b".toList (by decide +kernel)
  obtain ⟨base, content, -, hfold, -, -, hiff⟩ := observeBatchGates_sees_iff hbatch
  refine ⟨batch, base, content, hbatch, hfold, hiff.mpr ?_⟩
  refine List.pairwise_pair.mpr fun hname => absurd hname (by decide)

/-- Two ids that are one name once flattened: the checkout of the second tip removes the
    first. -/
theorem observeBatchGates_shadows :
    ∃ batch base content,
      observeBatchGates sampleHost twoTrees ⟨[]⟩ ∅ "trunk".toList (twoTips "a/b".toList "a_b".toList)
        .trunk = .ok batch ∧
      (twoTips "a/b".toList "a_b".toList).foldlM (observeManifest sampleHost twoTrees base) (∅, []) =
        .ok (content, batch.manifests) ∧
      ¬ SeesAll sampleHost twoTrees (twoTips "a/b".toList "a_b".toList) content batch.carriedValues := by
  obtain ⟨batch, hbatch⟩ := observeBatchGates_twoTips "a/b".toList "a_b".toList (by decide +kernel)
  obtain ⟨base, content, hbase, hfold, -, -⟩ := observeBatchGates_content hbatch
  refine ⟨batch, base, content, hbatch, hfold, fun hsees => ?_⟩
  obtain ⟨files, hread, hcopy⟩ := hsees.copies ("a/b".toList, [sampleHost.treeId (emptyFiles ["x".toList])])
    (by simp [twoTips]) 0 _ rfl
  have htree : (twoTrees.read sampleHost.treeId (sampleHost.treeId (emptyFiles ["x".toList]))).toOption =
      some (emptyFiles ["x".toList]) := by decide +kernel
  rw [hread] at htree
  obtain rfl : files = emptyFiles ["x".toList] := Option.some.inj htree
  have hbase' : (materializeQueueBase sampleHost twoTrees ⟨[]⟩ ∅ "trunk".toList none).toOption = some ∅ := by
    decide +kernel
  rw [hbase] at hbase'
  obtain rfl : base = ∅ := Option.some.inj hbase'
  have hgone : ((twoTips "a/b".toList "a_b".toList).foldlM (observeManifest sampleHost twoTrees ∅)
      (∅, [])).toOption.map (fun s => s.1[tipDirectory "a/b".toList 0 ++ ['/'] ++ "x".toList]?) =
        some none := by decide +kernel
  rw [hfold] at hgone
  have hnone := Option.some.inj hgone
  dsimp only at hnone
  rw [hcopy "x".toList] at hnone
  exact absurd hnone (by decide +kernel)

end Omoplata
