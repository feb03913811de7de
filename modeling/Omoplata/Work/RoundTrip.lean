-- SUMMARY: A checkout of a snapshot gives back what the snapshot took, and is taken again with the same id.
import Omoplata.Work.Restore

/-!
# Snapshots and checkouts

What a snapshot takes of a folder is read back from the store as it was taken. So a checkout
of the snapshot into an empty folder gives a folder of the same snapshot, and one over the
folder itself loses what the snapshot passed over, the control entries at the top apart.
-/

open Listing

namespace Omoplata

namespace Folder

/-! ## What a snapshot takes -/

/-- What a snapshot takes of a directory. -/
def tracked : WorkListing → WorkListing
  | .nil => .nil
  | .leaf name (.regular bytes) rest =>
      if (trackedName name).isSome then .leaf name (.regular bytes) (tracked rest) else tracked rest
  | .leaf _ (.special _) rest => tracked rest
  | .directory name below rest =>
      if (trackedName name).isSome then .directory name (tracked below) (tracked rest) else tracked rest

/-- What a snapshot takes of a node. -/
def trackedNode : Node OsName Leaf → Place
  | .leaf (.regular bytes) => some (.leaf (.regular bytes))
  | .leaf (.special _) => none
  | .directory below => some (.directory (tracked below))

/-- A snapshot takes all of a directory. -/
def Plain : WorkListing → Prop
  | .nil => True
  | .leaf name (.regular _) rest => (trackedName name).isSome = true ∧ Plain rest
  | .leaf _ (.special _) _ => False
  | .directory name below rest => (trackedName name).isSome = true ∧ Plain below ∧ Plain rest

/-- A snapshot takes all of a node. -/
def PlainNode : Node OsName Leaf → Prop
  | .leaf (.regular _) => True
  | .leaf (.special _) => False
  | .directory below => Plain below

variable {l : WorkListing} {name : OsName} {node : Node OsName Leaf} {rest : WorkListing}

theorem tracked_cons : tracked (cons name node rest) =
    match (trackedName name).bind fun _ => trackedNode node with
    | none => tracked rest
    | some node => cons name node (tracked rest) := by
  cases node with
  | leaf c => cases c <;> cases htracked : trackedName name <;> simp [cons, tracked, trackedNode, htracked]
  | directory below => cases htracked : trackedName name <;> simp [cons, tracked, trackedNode, htracked]

theorem plain_cons : Plain (cons name node rest) ↔ (trackedName name).isSome = true ∧ PlainNode node ∧ Plain rest := by
  cases node with
  | leaf c => cases c <;> simp [cons, Plain, PlainNode]
  | directory below => rfl

theorem mem_names_tracked (h : name ∈ (tracked l).names) : name ∈ l.names := by
  induction l using consRec with
  | nil => exact h
  | cons n node rest _ ih =>
      rw [tracked_cons] at h
      rw [names_cons, List.mem_cons]
      split at h
      · exact .inr (ih h)
      · rw [names_cons, List.mem_cons] at h
        exact h.imp_right ih

theorem get_tracked (h : l.Apart) (name : OsName) :
    (tracked l).get name = (trackedName name).bind fun _ => (l.get name).bind trackedNode := by
  induction l using consRec with
  | nil => cases htracked : trackedName name <;> simp [tracked]
  | cons n node rest _ ih =>
      obtain ⟨hfresh, -, hrest⟩ := (apart_cons n node rest).mp h
      have hnone : (tracked rest).get n = none := get_eq_none_iff.mpr fun hmem => hfresh (mem_names_tracked hmem)
      rw [tracked_cons, get_cons]
      by_cases hn : n = name
      · subst hn
        rw [if_pos rfl, Option.bind_some]
        split
        · rename_i hskip
          rw [hnone, hskip]
        · rename_i taken htaken
          rw [get_cons, if_pos rfl, htaken]
      · rw [if_neg hn, ← ih hrest]
        split
        · rfl
        · rw [get_cons, if_neg hn]

theorem apart_tracked (h : l.Apart) : (tracked l).Apart := by
  induction l using consRec with
  | nil => trivial
  | cons n node rest ihbelow ih =>
      obtain ⟨hfresh, hnode, hrest⟩ := (apart_cons n node rest).mp h
      rw [tracked_cons]
      split
      · exact ih hrest
      · rename_i taken htaken
        refine (apart_cons _ _ _).mpr ⟨fun hmem => hfresh (mem_names_tracked hmem), ?_, ih hrest⟩
        obtain ⟨-, -, htaken⟩ := Option.bind_eq_some_iff.mp htaken
        unfold trackedNode at htaken
        split at htaken
        · cases htaken
          trivial
        · cases htaken
        · cases htaken
          exact ihbelow _ rfl hnode

theorem tracked_of_plain (h : Plain l) : tracked l = l := by
  induction l using consRec with
  | nil => rfl
  | cons n node rest ihbelow ih =>
      obtain ⟨hname, hnode, hrest⟩ := plain_cons.mp h
      obtain ⟨m, hm⟩ := Option.isSome_iff_exists.mp hname
      have htaken : trackedNode node = some node := by
        unfold PlainNode at hnode
        split at hnode
        · rfl
        · exact hnode.elim
        · rw [trackedNode, ihbelow _ rfl hnode]
      rw [tracked_cons, hm, Option.bind_some, htaken, ih hrest]

/-- A snapshot takes all of a directory where it takes all that is listed. -/
theorem plain_iff (h : l.Apart) :
    Plain l ↔ ∀ name node, l.get name = some node → (trackedName name).isSome = true ∧ PlainNode node := by
  induction l using consRec with
  | nil => simp [Plain]
  | cons n node rest _ ih =>
      obtain ⟨hfresh, -, hrest⟩ := (apart_cons n node rest).mp h
      rw [← get_eq_none_iff] at hfresh
      rw [plain_cons, ih hrest]
      constructor
      · rintro ⟨hname, hnode, hall⟩ m node' hget
        rw [get_cons] at hget
        split at hget
        · rename_i hm
          obtain rfl := Option.some.inj hget
          exact hm ▸ ⟨hname, hnode⟩
        · exact hall m node' hget
      · intro hall
        obtain ⟨hname, hnode⟩ := hall n node (by simp)
        refine ⟨hname, hnode, fun m node' hget => hall m node' ?_⟩
        rw [get_cons, if_neg]
        · exact hget
        · rintro rfl
          simp [hfresh] at hget

/-- What a snapshot takes is all of the content exactly where the directory is plain. -/
theorem content_tracked_iff (h : l.Apart) : (∀ path, (tracked l).content path = l.content path) ↔ Plain l := by
  constructor
  · induction l using belowRec with
    | step l ih =>
        intro hsame
        refine (plain_iff h).mpr fun name node hget => ?_
        have hplace : ∀ path, contentAt ((tracked l).get name) path = contentAt (l.get name) path := by
          intro path
          rw [← content_cons_path, ← content_cons_path, hsame]
        rw [get_tracked h, hget, Option.bind_some] at hplace
        cases htracked : trackedName name with
        | none =>
            rw [htracked, Option.bind_none] at hplace
            have hroot := hplace []
            rw [contentAt_none] at hroot
            cases contentAt_nil_eq_none_iff.mp hroot.symm
        | some m =>
            rw [htracked, Option.bind_some] at hplace
            refine ⟨rfl, ?_⟩
            cases node with
            | leaf c =>
                cases c with
                | regular bytes => trivial
                | special what => simpa [trackedNode, contentAt_leaf] using hplace []
            | directory below =>
                refine ih name below hget (h.get hget) fun path => ?_
                simpa [trackedNode] using hplace path
  · intro hplain path
    rw [tracked_of_plain hplain]

/-- A snapshot has the tree of what it takes. -/
theorem treeOf_tracked (sha256 : List UInt8 → ObjectId) (l : WorkListing) (t : Tree) :
    treeOf sha256 (tracked l) t = treeOf sha256 l t := by
  induction l generalizing t with
  | nil => rfl
  | leaf name c rest ih =>
      cases c with
      | special what => exact ih t
      | regular bytes =>
          cases htracked : trackedName name with
          | none => simpa [tracked, treeOf, htracked] using ih t
          | some n => simp [tracked, treeOf, htracked, ih]
  | directory name below rest ihbelow ih =>
      cases htracked : trackedName name with
      | none => simpa [tracked, treeOf, htracked] using ih t
      | some n => simp [tracked, treeOf, htracked, ihbelow, ih]

/-! ## What the store has of a snapshot -/

section

variable {sha256 : List UInt8 → ObjectId} {repo : Repository}

theorem openTree_of_holds {t : Tree} (h : repo.Holds sha256 (.tree t)) :
    openTree sha256 repo ((Object.tree t).id sha256) = .ok t := by
  unfold openTree
  rw [Repository.readObject_of_stored sha256 h]

theorem openBlob_of_holds {bytes : List UInt8} (h : repo.Holds sha256 (.blob bytes)) (e : TreeEntry)
    (he : e.id = (Object.blob bytes).id sha256) : openBlob sha256 repo e = .ok bytes := by
  unfold openBlob
  rw [he, Repository.readObject_of_stored sha256 h]

/-- The store has all of a tree where it has all of its entries. -/
theorem storedEntries_ok_iff {storedTree : ObjectId → Except FolderError Unit × Place} {entries : List TreeEntry} :
    (storedEntries sha256 repo storedTree entries).1 = .ok () ↔
      ∀ e ∈ entries, (storedEntry sha256 repo storedTree e).1 = .ok () := by
  induction entries with
  | nil => simp [storedEntries]
  | cons e entries ih =>
      rw [List.forall_mem_cons, ← ih]
      cases hstored : (storedEntry sha256 repo storedTree e).1 with
      | error err =>
          rw [storedEntries_of_error hstored]
          simp
      | ok u =>
          rw [storedEntries_of_ok hstored]
          simp

/-- What the store has for an entry stands under its name. -/
theorem get_storedEntries {storedTree : ObjectId → Except FolderError Unit × Place} {entries : List TreeEntry}
    (hok : (storedEntries sha256 repo storedTree entries).1 = .ok ())
    (hnames : entries.Pairwise fun e e' => e.name ≠ e'.name) {e : TreeEntry} (he : e ∈ entries) :
    (storedEntries sha256 repo storedTree entries).2.get (utf8 e.name) = (storedEntry sha256 repo storedTree e).2 := by
  induction entries with
  | nil => cases he
  | cons d entries ih =>
      obtain ⟨hhead, htail⟩ := List.pairwise_cons.mp hnames
      have hall := storedEntries_ok_iff.mp hok
      rw [storedEntries_of_ok (hall d (by simp)), get_consPlace (notMem_storedEntries hhead)]
      cases List.mem_cons.mp he with
      | inl heq => rw [heq, if_pos rfl]
      | inr hmem =>
          rw [if_neg fun heq => hhead e hmem (utf8_injective heq)]
          exact ih (storedEntries_ok_iff.mpr fun a ha => hall a (List.mem_cons_of_mem _ ha)) htail hmem

/-- What the store has of a tree under a name is what it has for the entry of that name. -/
theorem get_stored_entries {storedTree : ObjectId → Except FolderError Unit × Place} {t : Tree}
    (hok : (storedEntries sha256 repo storedTree t.entries).1 = .ok ()) (name : OsName) :
    (storedEntries sha256 repo storedTree t.entries).2.get name =
      ((fromUtf8 name).bind t.get).bind fun e => (storedEntry sha256 repo storedTree e).2 := by
  cases hread : (fromUtf8 name).bind t.get with
  | some e =>
      obtain ⟨n, hn, hget⟩ := Option.bind_eq_some_iff.mp hread
      have hname : e.name = n := by
        rw [Tree.get_eq] at hget
        simpa using List.find?_some hget
      have he : e ∈ t.entries := (t.mem_entries_iff e).mpr (hname ▸ hget)
      rw [← utf8_of_fromUtf8 hn, ← hname, get_storedEntries hok t.pairwise_names he, Option.bind_some]
  | none =>
      rw [Option.bind_none, get_eq_none_iff]
      intro hmem
      obtain ⟨e, he, rfl⟩ := names_storedEntries hmem
      rw [fromUtf8_utf8, Option.bind_some, (t.mem_entries_iff e).mp he] at hread
      cases hread

end

/-- The objects a snapshot stores for a node. -/
def nodeObjects (sha256 : List UInt8 → ObjectId) : Node OsName Leaf → List Object
  | .leaf (.regular bytes) => [.blob bytes]
  | .leaf (.special _) => []
  | .directory below => storedFor sha256 below

theorem objectsOf_cons (sha256 : List UInt8 → ObjectId) (name : OsName) (node : Node OsName Leaf) (rest : WorkListing) :
    objectsOf sha256 (cons name node rest) =
      (if (trackedName name).isSome then nodeObjects sha256 node else []) ++ objectsOf sha256 rest := by
  cases node with
  | leaf c => cases c <;> cases htracked : trackedName name <;> simp [cons, objectsOf, nodeObjects, htracked]
  | directory below => cases htracked : trackedName name <;> simp [cons, objectsOf, nodeObjects, storedFor, htracked]

/-- The objects of what is listed under a name that a snapshot takes. -/
theorem mem_objectsOf {sha256 : List UInt8 → ObjectId} (hget : l.get name = some node)
    (hname : (trackedName name).isSome = true) {o : Object} (ho : o ∈ nodeObjects sha256 node) :
    o ∈ objectsOf sha256 l := by
  induction l using consRec with
  | nil => cases hget
  | cons n first rest _ ih =>
      rw [objectsOf_cons, List.mem_append]
      rw [get_cons] at hget
      split at hget
      · rename_i hn
        rw [hn, if_pos hname]
        exact .inl (Option.some.inj hget ▸ ho)
      · exact .inr (ih hget)

section

variable {sha256 : List UInt8 → ObjectId} {repo : Repository}

/-- The store has all of a tree whose entries it has all of. -/
theorem stored_succ {fuel : Nat} {id : ObjectId} {t : Tree} (hopen : openTree sha256 repo id = .ok t)
    (hall : ∀ e ∈ t.entries, (storedEntry sha256 repo (stored sha256 repo fuel) e).1 = .ok ()) :
    stored sha256 repo (fuel + 1) id =
      (.ok (), some (.directory (storedEntries sha256 repo (stored sha256 repo fuel) t.entries).2)) := by
  rw [stored, hopen]
  exact Prod.ext (storedEntries_ok_iff.mpr hall) rfl

/-- What the store has for the entry of a node is what a snapshot takes of the node. -/
def StoredAs (sha256 : List UInt8 → ObjectId) (repo : Repository) (storedTree : ObjectId → Except FolderError Unit × Place)
    (n : Str) (node : Node OsName Leaf) : Prop :=
  (∀ e, entryOf sha256 n node = some e → (storedEntry sha256 repo storedTree e).1 = .ok ()) ∧
    ∀ path, contentAt ((entryOf sha256 n node).bind fun e => (storedEntry sha256 repo storedTree e).2) path =
      contentAt (trackedNode node) path

theorem storedAs_of_holds {storedTree : ObjectId → Except FolderError Unit × Place} {n : Str}
    (hholdable : Holdable sha256 n node) (hholds : ∀ o ∈ nodeObjects sha256 node, repo.Holds sha256 o)
    (hbelow : ∀ below t, node = .directory below → treeOf sha256 below .new = .ok t →
      ∃ l, storedTree ((Object.tree t).id sha256) = (.ok (), some (.directory l)) ∧
        ∀ path, l.content path = (tracked below).content path) : StoredAs sha256 repo storedTree n node := by
  cases node with
  | leaf c =>
      cases c with
      | special what => exact ⟨nofun, fun path => by simp [entryOf, trackedNode]⟩
      | regular bytes =>
          have hopen : openBlob sha256 repo ⟨n, .blob, (Object.blob bytes).id sha256⟩ = .ok bytes :=
            openBlob_of_holds (hholds _ (List.mem_singleton_self _)) _ rfl
          constructor
          · rintro e ⟨⟩
            simp [storedEntry, hopen]
          · intro path
            simp [entryOf, storedEntry, hopen, trackedNode]
  | directory below =>
      obtain ⟨-, t, ht⟩ := hholdable
      obtain ⟨l, hstored, hcontent⟩ := hbelow below t rfl ht
      constructor
      · intro e he
        rw [entryOf, ht] at he
        cases he
        simp [storedEntry, hstored]
      · intro path
        simp [entryOf, ht, Except.toOption, storedEntry, hstored, trackedNode, hcontent]

/-- What the store has of a snapshot is what the snapshot took. -/
theorem stored_of_holds (h : l.Apart) {t : Tree} (htree : treeOf sha256 l .new = .ok t)
    (hholds : ∀ o ∈ storedFor sha256 l, repo.Holds sha256 o) {fuel : Nat} (hfuel : l.depth < fuel) :
    ∃ l', stored sha256 repo fuel ((Object.tree t).id sha256) = (.ok (), some (.directory l')) ∧
      ∀ path, l'.content path = (tracked l).content path := by
  induction l using belowRec generalizing t fuel with
  | step l ih =>
      cases fuel with
      | zero => exact absurd hfuel (Nat.not_lt_zero _)
      | succ fuel =>
          obtain ⟨hholdable, hget⟩ := (treeOf_ok_iff h).mp htree
          have hentry : ∀ n, t.get n = entryUnder sha256 l n := fun n => (hget n).trans (Option.or_none)
          have hopen : openTree sha256 repo ((Object.tree t).id sha256) = .ok t := by
            refine openTree_of_holds (hholds _ (List.mem_append_right _ ?_))
            rw [treeObject, htree]
            exact List.mem_singleton_self _
          -- the nodes that a snapshot takes are stored
          have hnode : ∀ n, n ∉ controlNames → ∀ node, l.get (utf8 n) = some node →
              StoredAs sha256 repo (stored sha256 repo fuel) n node := by
            intro n hn node hthere
            have hname : (trackedName (utf8 n)).isSome = true := by simp [trackedName_utf8, hn]
            refine storedAs_of_holds (hholdable n hn node hthere)
              (fun o ho => hholds o (List.mem_append_left _ (mem_objectsOf hthere hname ho))) ?_
            rintro below u rfl hu
            refine ih _ below hthere (h.get hthere) hu (fun o ho => ?_) ?_
            · exact hholds o (List.mem_append_left _ (mem_objectsOf hthere hname ho))
            · have := depth_lt_of_get hthere
              omega
          have hall : ∀ e ∈ t.entries, (storedEntry sha256 repo (stored sha256 repo fuel) e).1 = .ok () := by
            intro e he
            have hunder := (hentry e.name).symm.trans ((t.mem_entries_iff e).mp he)
            unfold entryUnder at hunder
            split at hunder
            · cases hunder
            · rename_i hn
              obtain ⟨node, hthere, hof⟩ := Option.bind_eq_some_iff.mp hunder
              exact (hnode e.name hn node hthere).1 e hof
          refine ⟨_, stored_succ hopen hall, fun path => ?_⟩
          cases path with
          | nil => simp
          | cons name path =>
              rw [content_cons_path, content_cons_path, get_stored_entries (storedEntries_ok_iff.mpr hall), get_tracked h]
              cases hread : fromUtf8 name with
              | none => simp [trackedName, hread]
              | some n =>
                  obtain rfl := utf8_of_fromUtf8 hread
                  rw [trackedName_utf8, Option.bind_some, hentry n, entryUnder]
                  by_cases hn : n ∈ controlNames
                  · simp [hn]
                  · rw [if_neg hn, if_neg (by simpa using hn), Option.bind_some]
                    cases hthere : l.get (utf8 n) with
                    | none => simp
                    | some node => exact (hnode n hn node hthere).2 path

/-! ## The snapshot of what the store has -/

/-- A tree can hold a directory whose nodes it can hold. -/
theorem exists_treeOf {l : WorkListing} (h : l.Apart)
    (hholdable : ∀ n, n ∉ controlNames → ∀ node, l.get (utf8 n) = some node → Holdable sha256 n node) (t : Tree) :
    ∃ t', treeOf sha256 l t = .ok t' := by
  induction l using consRec generalizing t with
  | nil => exact ⟨t, rfl⟩
  | cons name node rest _ ih =>
      obtain ⟨hfresh, -, hrest⟩ := (apart_cons name node rest).mp h
      rw [← get_eq_none_iff] at hfresh
      have hbehind := ih hrest fun n hn node' hget => hholdable n hn node' (by
        rw [get_cons, if_neg]
        · exact hget
        · rintro rfl
          simp [hfresh] at hget)
      simp only [treeOf_cons_ok_iff]
      cases htracked : trackedName name with
      | none =>
          obtain ⟨t', ht'⟩ := hbehind t
          exact ⟨t', t, ht', rfl⟩
      | some m =>
          obtain ⟨rfl, hm⟩ := trackedName_eq_some_iff.mp htracked
          have hfirst := hholdable m hm node (by simp)
          obtain ⟨u, hu⟩ := exists_with_entry hfirst t
          obtain ⟨t', ht'⟩ := hbehind u
          exact ⟨t', u, ht', hfirst, hu⟩

theorem id_of_openTree {id : ObjectId} {t : Tree} (h : openTree sha256 repo id = .ok t) :
    (Object.tree t).id sha256 = id := by
  unfold openTree at h
  split at h
  · cases h
  · cases h
  · cases h
  · rename_i hread
    cases h
    exact Repository.id_of_readObject sha256 hread

theorem id_of_openBlob {e : TreeEntry} {bytes : List UInt8} (h : openBlob sha256 repo e = .ok bytes) :
    (Object.blob bytes).id sha256 = e.id := by
  unfold openBlob at h
  split at h
  · cases h
  · cases h
  · cases h
  · rename_i hread
    cases h
    exact Repository.id_of_readObject sha256 hread

/-- Of a tree that it has all of the store has a directory. -/
theorem exists_directory_of_stored {fuel : Nat} {id : ObjectId} (h : (stored sha256 repo fuel id).1 = .ok ()) :
    ∃ l, stored sha256 repo fuel id = (.ok (), some (.directory l)) := by
  cases fuel with
  | zero => cases h
  | succ fuel =>
      unfold stored at h ⊢
      split at h
      · cases h
      · exact ⟨_, Prod.ext h rfl⟩

/-- What the store has for an entry is something that a tree can hold, with the same entry again
    where a snapshot takes all there is below it. -/
theorem exists_of_storedEntry {fuel : Nat} {e : TreeEntry} (hvalid : ValidName e.name)
    (h : (storedEntry sha256 repo (stored sha256 repo fuel) e).1 = .ok ())
    (hbelow : ∀ below, stored sha256 repo fuel e.id = (.ok (), some (.directory below)) →
      ∃ t, treeOf sha256 below .new = .ok t ∧ (Plain below → (Object.tree t).id sha256 = e.id)) :
    ∃ node, (storedEntry sha256 repo (stored sha256 repo fuel) e).2 = some node ∧ Holdable sha256 e.name node ∧
      (PlainNode node → entryOf sha256 e.name node = some e) := by
  obtain ⟨name, kind, id⟩ := e
  unfold storedEntry at h ⊢
  cases kind with
  | blob =>
      cases hopen : openBlob sha256 repo ⟨name, .blob, id⟩ with
      | error err => simp [hopen] at h
      | ok bytes =>
          refine ⟨.leaf (.regular bytes), rfl, hvalid, fun _ => ?_⟩
          rw [entryOf, id_of_openBlob hopen]
  | tree =>
      obtain ⟨below, hstored⟩ := exists_directory_of_stored h
      obtain ⟨t, ht, hid⟩ := hbelow below hstored
      refine ⟨.directory below, congrArg Prod.snd hstored, ⟨hvalid, t, ht⟩, fun hplain => ?_⟩
      rw [entryOf, ht, Except.toOption, Option.map_some, hid hplain]

/-- A snapshot takes a tree of what the store has of one, and the same tree where it takes all
    there is: where no name is a control name. -/
theorem treeOf_stored {fuel : Nat} {id : ObjectId} {l : WorkListing}
    (h : stored sha256 repo fuel id = (.ok (), some (.directory l))) :
    ∃ t, treeOf sha256 l .new = .ok t ∧ (Plain l → (Object.tree t).id sha256 = id) := by
  induction fuel generalizing id l with
  | zero => cases h
  | succ fuel ih =>
      have hapart : l.Apart := @apart_stored sha256 repo (fuel + 1) id _ (congrArg Prod.snd h)
      unfold stored at h
      split at h
      · cases h
      rename_i t₀ hopen
      simp only [Prod.mk.injEq, Option.some.injEq, Node.directory.injEq] at h
      obtain ⟨hok, rfl⟩ := h
      have hentry : ∀ n e, t₀.get n = some e →
          ∃ node, (storedEntry sha256 repo (stored sha256 repo fuel) e).2 = some node ∧ Holdable sha256 n node ∧
            (PlainNode node → entryOf sha256 n node = some e) := by
        intro n e he
        obtain rfl : e.name = n := by
          rw [Tree.get_eq] at he
          simpa using List.find?_some he
        have hmem := (t₀.mem_entries_iff e).mpr he
        exact exists_of_storedEntry (t₀.valid e hmem) (storedEntries_ok_iff.mp hok e hmem) fun below hbelow => ih hbelow
      have hget : ∀ n, (storedEntries sha256 repo (stored sha256 repo fuel) t₀.entries).2.get (utf8 n) =
          (t₀.get n).bind fun e => (storedEntry sha256 repo (stored sha256 repo fuel) e).2 := by
        intro n
        rw [get_stored_entries hok, fromUtf8_utf8, Option.bind_some]
      -- everything the store has for an entry can be held by a tree again
      obtain ⟨t, ht⟩ := @exists_treeOf sha256 _ hapart (fun n _ node hthere => by
        rw [hget n] at hthere
        obtain ⟨e, he, hplace⟩ := Option.bind_eq_some_iff.mp hthere
        obtain ⟨node', hnode, hholdable, -⟩ := hentry n e he
        rw [hplace, Option.some.injEq] at hnode
        exact hnode ▸ hholdable) .new
      refine ⟨t, ht, fun hplain => ?_⟩
      rw [← id_of_openTree hopen]
      congr 2
      refine Tree.ext_get fun n => (((treeOf_ok_iff hapart).mp ht).2 n).trans (Option.or_none.trans ?_)
      rw [entryUnder, hget n]
      cases he : t₀.get n with
      | none => simp
      | some e =>
          obtain ⟨node, hnode, -, hsame⟩ := hentry n e he
          -- in a plain listing no entry is passed over, so the tree is the one that was read
          obtain ⟨hname, hplainNode⟩ := (plain_iff hapart).mp hplain (utf8 n) node (by rw [hget n, he]; exact hnode)
          have hn : n ∉ controlNames := by
            rw [trackedName_utf8] at hname
            intro hmem
            simp [hmem] at hname
          rw [if_neg hn, Option.bind_some, hnode]
          exact hsame hplainNode

end

/-! ## Snapshots of checkouts -/

section

variable {sha256 : List UInt8 → ObjectId} {repo : Repository}

theorem snapshot_eq_ok_iff {id : ObjectId} {repo' : Repository} :
    snapshot sha256 l repo = (.ok id, repo') ↔
      ∃ t, treeOf sha256 l .new = .ok t ∧ (Object.tree t).id sha256 = id ∧
        repo.writeAll sha256 (storedFor sha256 l) = repo' := by
  obtain ⟨hfst, hsnd⟩ := @snapshotTree_eq sha256 l .new repo
  unfold snapshot storedFor treeObject
  cases hrun : snapshotTree sha256 l .new repo with
  | mk r repo₁ =>
      rw [hrun] at hfst hsnd
      cases r with
      | error e =>
          rw [← hfst]
          simp
      | ok t =>
          rw [← hfst] at hsnd ⊢
          obtain rfl := hsnd t rfl
          simp only [Prod.mk.injEq, Except.ok.injEq, exists_eq_left', Repository.writeAll_append, Repository.writeObject]
          rfl

/-- The id of a snapshot does not depend on what is stored. -/
theorem snapshot_fst (t : Tree) (h : treeOf sha256 l .new = .ok t) (repo : Repository) :
    (snapshot sha256 l repo).1 = .ok ((Object.tree t).id sha256) :=
  congrArg Prod.fst (snapshot_eq_ok_iff.mpr ⟨t, h, rfl, rfl⟩)

/-- Behind a snapshot the store has the objects of it, and all it had. -/
theorem holds_of_snapshot {objects : List Object} (h : Repository.NoCollision sha256 (objects ++ storedFor sha256 l))
    {o : Object} (ho : o ∈ storedFor sha256 l) :
    ((Repository.ofObjects sha256 objects).writeAll sha256 (storedFor sha256 l)).Holds sha256 o := by
  unfold Repository.ofObjects
  rw [← Repository.writeAll_append]
  exact (Repository.ofObjects_spec sha256 h).1 o (List.mem_append_right _ ho)

/-- A tree of no control names is written over the control entries as far as the store has it. -/
theorem materialize_fst {fuel : Nat} {id : ObjectId} {t : Tree} (hopen : openTree sha256 repo id = .ok t)
    (h : ∀ e ∈ t.entries, e.name ∉ controlNames) {dir : Place} (hdir : dir = none ∨ ∃ l, dir = some (.directory l)) :
    (materialize sha256 repo fuel id dir).1 = (stored sha256 repo fuel id).1 := by
  rcases hdir with rfl | ⟨l, rfl⟩
  · exact writeTreeInto_none fuel id []
  · refine writeTreeInto_clear fuel id [] fun t' ht' e he => ?_
    rw [hopen, Except.ok.injEq] at ht'
    subst ht'
    rw [get_filter, if_neg]
    rw [isControlName_iff]
    rintro ⟨n, hn, heq⟩
    exact h e he (utf8_injective heq ▸ hn)

/-- A tree that a snapshot has stored is checked out whole, over what is kept. -/
theorem materialize_of_holds (h : l.Apart) {t : Tree} (htree : treeOf sha256 l .new = .ok t)
    (hholds : ∀ o ∈ storedFor sha256 l, repo.Holds sha256 o) {fuel : Nat} (hfuel : l.depth < fuel) {dir : Place}
    (hdir : dir = none ∨ ∃ l, dir = some (.directory l)) :
    (materialize sha256 repo fuel ((Object.tree t).id sha256) dir).1 = .ok () ∧
      ∀ path, contentAt (materialize sha256 repo fuel ((Object.tree t).id sha256) dir).2 path =
        ((tracked l).content path).or (keptContent dir path) := by
  obtain ⟨l', hstored, hcontent⟩ := stored_of_holds h htree hholds hfuel
  have hopen : openTree sha256 repo ((Object.tree t).id sha256) = .ok t := by
    refine openTree_of_holds (hholds _ (List.mem_append_right _ ?_))
    rw [treeObject, htree]
    exact List.mem_singleton_self _
  have hnames : ∀ e ∈ t.entries, e.name ∉ controlNames := by
    intro e he hcontrol
    have hget := ((treeOf_ok_iff h).mp htree).2 e.name
    rw [entryUnder, if_pos hcontrol, (t.mem_entries_iff e).mp he] at hget
    cases hget
  have hok : (materialize sha256 repo fuel ((Object.tree t).id sha256) dir).1 = .ok () := by
    rw [materialize_fst hopen hnames hdir, hstored]
  have htold : Told (materialize sha256 repo fuel ((Object.tree t).id sha256) dir).1 := by
    rw [hok]
    exact told_ok ()
  refine ⟨hok, fun path => ?_⟩
  rw [(materialize_spec htold).2 path, hstored, contentAt_directory, hcontent]

/-- A snapshot is checked out into a directory of which it is the snapshot. -/
theorem snapshot_roundtrip (sha256 : List UInt8 → ObjectId) (objects : List Object) (folder : WorkFolder) {id : ObjectId}
    {repo' : Repository} (h : snapshot sha256 folder.listing (.ofObjects sha256 objects) = (.ok id, repo')) :
    (Repository.NoCollision sha256 (objects ++ storedFor sha256 folder.listing) →
      ∀ fuel, folder.listing.depth < fuel → ∀ dir : Place, dir = none ∨ dir = some (.directory .nil) →
        ∃ folder' : WorkFolder, materialize sha256 repo' fuel id dir = (.ok (), some (.directory folder'.listing)) ∧
          ∀ repo, (snapshot sha256 folder'.listing repo).1 = .ok id) ∧
      ∀ folder' : WorkFolder, (∀ path, folder'.listing.content path = folder.listing.content path) →
        ∀ repo, (snapshot sha256 folder'.listing repo).1 = .ok id := by
  obtain ⟨t, htree, rfl, rfl⟩ := snapshot_eq_ok_iff.mp h
  constructor
  · intro hdistinct fuel hfuel dir hdir
    obtain ⟨hok, hcontent⟩ := materialize_of_holds folder.apart htree (fun o ho => holds_of_snapshot hdistinct ho) hfuel
      (hdir.imp_right fun heq => ⟨_, heq⟩)
    have hkept : ∀ name path, keptContent dir (name :: path) = none := by
      rcases hdir with rfl | rfl <;> simp [keptContent_cons]
    obtain ⟨l', hl'⟩ := exists_directory ((hcontent []).trans (by simp))
    have hapart : l'.Apart := by
      refine @apart_materialize sha256 _ fuel _ dir ?_ _ hl'
      rcases hdir with rfl | rfl
      · rintro node hnode
        cases hnode
      · rintro node ⟨⟩
        trivial
    refine ⟨⟨l', hapart⟩, Prod.ext hok hl', snapshot_fst t ?_⟩
    refine treeOf_congr (apart_tracked folder.apart) hapart (fun n _ path => ?_) ?_
    · rw [← content_cons_path, ← content_cons_path, ← contentAt_directory l', ← hl', hcontent, hkept, Option.or_none]
    · rw [treeOf_tracked, htree]
  · intro folder' hsame
    refine snapshot_fst t (treeOf_congr folder.apart folder'.apart (fun n _ path => ?_) htree)
    rw [← content_cons_path, ← content_cons_path, hsame]

end

/-- A directory with a file and a link. -/
def fileAndLink : WorkFolder :=
  ⟨.leaf (utf8 "a".toList) (.regular [1]) (.leaf (utf8 "l".toList) (.special (utf8 "a".toList)) .nil), by
    simp only [Listing.Apart, Listing.names]
    decide⟩

theorem snapshot_roundtrip_link :
    ∃ id repo', snapshot ObjectId.ofSha256 fileAndLink.listing (.ofObjects ObjectId.ofSha256 []) = (.ok id, repo') ∧
      ∃ folder' : WorkFolder,
        materialize ObjectId.ofSha256 repo' 1 id (some (.directory .nil)) = (.ok (), some (.directory folder'.listing)) ∧
          (snapshot ObjectId.ofSha256 folder'.listing repo').1 = .ok id := by
  obtain ⟨t, ht⟩ : ∃ t, treeOf ObjectId.ofSha256 fileAndLink.listing .new = .ok t := ⟨_, rfl⟩
  have h : snapshot ObjectId.ofSha256 fileAndLink.listing (.ofObjects ObjectId.ofSha256 []) = _ :=
    snapshot_eq_ok_iff.mpr ⟨t, ht, rfl, rfl⟩
  obtain ⟨hback, -⟩ := snapshot_roundtrip ObjectId.ofSha256 [] fileAndLink h
  obtain ⟨folder', hmat, hagain⟩ := hback (by decide +kernel) 1 (by decide) _ (.inr rfl)
  exact ⟨_, _, h, folder', hmat, hagain _⟩

/-! ## Checkouts of a clean folder -/

/-- A snapshot takes everything that a checkout removes. -/
def TakesRemoved (l : WorkListing) : Prop :=
  ∀ name node, l.get name = some node → isControlName name = false →
    (trackedName name).isSome = true ∧ PlainNode node

/-- What a snapshot takes of a node is all of its content exactly where the node is plain. -/
theorem contentAt_trackedNode_iff {node : Node OsName Leaf} (h : node.Apart) :
    (∀ path, contentAt (trackedNode node) path = contentAt (some node) path) ↔ PlainNode node := by
  cases node with
  | leaf c =>
      cases c with
      | regular bytes => simp [trackedNode, PlainNode]
      | special what =>
          simp only [PlainNode, iff_false]
          intro hsame
          simpa [trackedNode, contentAt_leaf] using hsame []
  | directory below =>
      simp only [trackedNode, contentAt_directory]
      exact content_tracked_iff h

/-- A snapshot that a checkout is over keeps everything exactly where it takes what is removed. -/
theorem overlay_unchanged_iff {l : WorkListing} (h : l.Apart) :
    (∀ path, ((tracked l).content path).or (keptContent (some (.directory l)) path) = l.content path) ↔
      TakesRemoved l := by
  -- a snapshot passes over control names, and a checkout keeps them
  have hcontrol : ∀ name path, isControlName name = true →
      ((tracked l).content (name :: path)).or (keptContent (some (.directory l)) (name :: path)) =
        l.content (name :: path) := by
    intro name path hname
    have huntracked : trackedName name = none := by
      cases htracked : trackedName name with
      | none => rfl
      | some n => simp [isControlName_of_tracked htracked] at hname
    rw [keptContent_cons, if_pos hname, content_cons_path, get_tracked h, huntracked, Option.bind_none,
      contentAt_none, Option.none_or, contentAt_directory]
  -- under any other name there is afterwards what the snapshot took
  have hworking : ∀ name path, isControlName name = false →
      ((tracked l).content (name :: path)).or (keptContent (some (.directory l)) (name :: path)) =
        contentAt ((trackedName name).bind fun _ => (l.get name).bind trackedNode) path := by
    intro name path hname
    rw [keptContent_cons, hname, content_cons_path, get_tracked h]
    simp
  constructor
  · intro hsame name node hget hname
    have hplace : ∀ path, contentAt ((trackedName name).bind fun _ => trackedNode node) path = contentAt (some node) path := by
      intro path
      have hpath := hsame (name :: path)
      rw [hworking name path hname, content_cons_path, hget] at hpath
      exact hpath
    cases htracked : trackedName name with
    | none =>
        rw [htracked] at hplace
        cases contentAt_nil_eq_none_iff.mp (hplace []).symm
    | some n =>
        rw [htracked] at hplace
        exact ⟨rfl, (contentAt_trackedNode_iff (h.get hget)).mp hplace⟩
  · intro htakes path
    cases path with
    | nil => simp
    | cons name path =>
        cases hname : isControlName name with
        | true => exact hcontrol name path hname
        | false =>
            rw [hworking name path hname, content_cons_path]
            cases hget : l.get name with
            | none => cases htracked : trackedName name <;> simp
            | some node =>
                obtain ⟨htracked, hplain⟩ := htakes name node hget hname
                obtain ⟨n, hn⟩ := Option.isSome_iff_exists.mp htracked
                rw [hn]
                exact (contentAt_trackedNode_iff (h.get hget)).mpr hplain path

/-- A directory is clean at the tip that its snapshot gives. -/
theorem isDirty_eq_clean_iff {sha256 : List UInt8 → ObjectId} {l : WorkListing} {tip current : CommitId}
    {repo repo' : Repository} :
    isDirty sha256 l (some tip) repo = (.ok (false, current), repo') ↔
      ∃ id, snapshot sha256 l repo = (.ok id, repo') ∧ tip = id.toText ∧ current = id.toText := by
  unfold isDirty
  split
  · rename_i e repo₁ hsnapshot
    simp [hsnapshot]
  · rename_i id repo₁ hsnapshot
    simp only [hsnapshot, Prod.mk.injEq, Except.ok.injEq, bne_eq_false_iff_eq]
    constructor
    · rintro ⟨⟨htip, hcurrent⟩, hrepo⟩
      exact ⟨id, ⟨rfl, hrepo⟩, htip.symm, hcurrent.symm⟩
    · rintro ⟨id', ⟨rfl, hrepo⟩, htip, hcurrent⟩
      exact ⟨⟨htip.symm, hcurrent.symm⟩, hrepo⟩

/-- A checkout of the tip that a directory is clean at succeeds, and keeps all there is exactly
    where the snapshot takes everything that a checkout removes. -/
theorem clean_checkout_keeps_iff (sha256 : List UInt8 → ObjectId) (objects : List Object) (folder : WorkFolder)
    {tip current : CommitId} {repo' : Repository}
    (h : isDirty sha256 folder.listing (some tip) (.ofObjects sha256 objects) = (.ok (false, current), repo'))
    (hdistinct : Repository.NoCollision sha256 (objects ++ storedFor sha256 folder.listing)) {fuel : Nat}
    (hfuel : folder.listing.depth < fuel) :
    ∃ id, ObjectId.parse tip = .ok (.ok id) ∧
      (materialize sha256 repo' fuel id (some (.directory folder.listing))).1 = .ok () ∧
      ((∀ path, contentAt (materialize sha256 repo' fuel id (some (.directory folder.listing))).2 path =
          folder.listing.content path) ↔ TakesRemoved folder.listing) := by
  obtain ⟨id, hsnapshot, rfl, -⟩ := isDirty_eq_clean_iff.mp h
  obtain ⟨t, htree, rfl, rfl⟩ := snapshot_eq_ok_iff.mp hsnapshot
  obtain ⟨hok, hcontent⟩ := materialize_of_holds folder.apart htree (fun o ho => holds_of_snapshot hdistinct ho) hfuel
    (.inr ⟨folder.listing, rfl⟩)
  refine ⟨_, ObjectId.parse_toText _, hok, ?_⟩
  simp only [hcontent]
  exact overlay_unchanged_iff folder.apart

/-- A directory with a link is clean at the tip of its files. -/
theorem clean_checkout_keeps_iff_link :
    ∃ tip repo', isDirty ObjectId.ofSha256 fileAndLink.listing (some tip) (.ofObjects ObjectId.ofSha256 []) =
        (.ok (false, tip), repo') ∧
      ∃ id, ObjectId.parse tip = .ok (.ok id) ∧
        (materialize ObjectId.ofSha256 repo' 1 id (some (.directory fileAndLink.listing))).1 = .ok () ∧
        ((∀ path, contentAt (materialize ObjectId.ofSha256 repo' 1 id (some (.directory fileAndLink.listing))).2 path =
          fileAndLink.listing.content path) ↔ TakesRemoved fileAndLink.listing) := by
  obtain ⟨t, ht⟩ : ∃ t, treeOf ObjectId.ofSha256 fileAndLink.listing .new = .ok t := ⟨_, rfl⟩
  have hsnapshot : snapshot ObjectId.ofSha256 fileAndLink.listing (.ofObjects ObjectId.ofSha256 []) = _ :=
    snapshot_eq_ok_iff.mpr ⟨t, ht, rfl, rfl⟩
  have hclean := isDirty_eq_clean_iff.mpr ⟨_, hsnapshot, rfl, rfl⟩
  exact ⟨_, _, hclean, clean_checkout_keeps_iff _ [] fileAndLink hclean (by decide +kernel) (by decide)⟩

/-- The link is not in the tip that the directory is clean at, and a checkout of the tip removes it. -/
theorem clean_checkout_loses_link :
    let sha256 := ObjectId.ofSha256
    let tip := (Object.tree (.build [⟨"a".toList, .blob, (Object.blob [1]).id sha256⟩])).id sha256
    let r := isDirty sha256 fileAndLink.listing (some tip.toText) .init
    let after := materialize sha256 r.2 1 tip (some (.directory fileAndLink.listing))
    r.1 = .ok (false, tip.toText) ∧ after.1 = .ok () ∧ contentAt after.2 [utf8 "l".toList] = none ∧
      fileAndLink.listing.content [utf8 "l".toList] = some (.file (.special (utf8 "a".toList))) := by
  decide +kernel

end Folder

end Omoplata
