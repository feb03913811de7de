-- SUMMARY: Importing the objects that git refs lead to, and what the import has at the end.
import Omoplata.Git.Object
import Omoplata.Lib.Walk
import Omoplata.Store.Repository

/-!
# Importing git objects

An import walks over the objects below its refs with a stack. A tree is stored together
with all below it, by recursion, since its id in the store is made from the ids of its
entries. The walk and the recursion share a map of what has been stored.

The stack and the recursion are run for so many turns and so deep.
-/

open Codec Relation Walk

namespace Omoplata

/-- Objects by their ids. -/
abbrev GitObjects := BTreeMap GitOid GitObject

/-- What an import holds. -/
structure GitImport where
  oidMap : BTreeMap GitOid ObjectId
  gitObjects : GitObjects
  commitDag : BTreeMap GitOid GitCommit
  refs : List (Str × GitOid)
  blobs : Nat
  trees : Nat
  commits : Nat
  tags : Nat

/-- Why an import ends early. -/
inductive ImportStop where
  | unfinished
  | failed (e : GitError)
  deriving DecidableEq

/-- The ids an object refers to, in the order they are pushed. -/
def GitObject.children : GitObject → List GitOid
  | .blob _ => []
  | .tree entries => entries.map GitTreeEntry.oid
  | .commit c => c.tree :: c.parents
  | .tag t => [t.object]

/-- Blobs and trees are stored. -/
def GitObject.isContent : GitObject → Bool
  | .blob _ => true
  | .tree _ => true
  | .commit _ => false
  | .tag _ => false

/-- The types of objects. -/
inductive GitKind where
  | blob
  | tree
  | commit
  | tag
  deriving DecidableEq

def GitObject.kind : GitObject → GitKind
  | .blob _ => .blob
  | .tree _ => .tree
  | .commit _ => .commit
  | .tag _ => .tag

/-- The kind of entry a mode stands for. -/
def modeToKind (mode : Str) : Except GitError EntryKind :=
  if mode = "40000".toList ∨ mode = "040000".toList then .ok .tree
  else if mode = "100644".toList ∨ mode = "100755".toList ∨ mode = "120000".toList then .ok .blob
  else .error (.unsupportedMode mode)

def resolveObject (oid : GitOid) (objects : GitObjects) : Except GitError GitObject :=
  match objects[oid]? with
  | some object => .ok object
  | none => .error (.missingObject oid.hex)

theorem resolveObject_eq_ok {oid : GitOid} {objects : GitObjects} {object : GitObject} :
    resolveObject oid objects = .ok object ↔ objects[oid]? = some object := by
  unfold resolveObject
  cases objects[oid]? with
  | none => exact iff_of_false (fun h => by cases h) fun h => by cases h
  | some o => rw [Except.ok.injEq, Option.some.injEq]

/-- What has been stored: the ids by git id, and the store. -/
structure Imported where
  oidMap : BTreeMap GitOid ObjectId
  repo : Repository

section

variable (sha1 : List UInt8 → GitOid) (sha256 : List UInt8 → ObjectId) (objects : GitObjects)

/-- Store an object for a git id. -/
def Imported.store (s : Imported) (oid : GitOid) (object : Object) : ObjectId × Imported :=
  let (id, repo) := s.repo.writeObject sha256 object
  (id, ⟨s.oidMap.insert oid id, repo⟩)

/-- Import the entries of a tree, each with what is below it. -/
def importEntries (sub : GitOid → GitObject → Imported → Except ImportStop (ObjectId × Imported)) :
    List GitTreeEntry → Tree → Imported → Except ImportStop (Tree × Imported)
  | [], tree, s => .ok (tree, s)
  | e :: entries, tree, s => do
      let kind ← (modeToKind e.mode).mapError .failed
      let child ← (resolveObject e.oid objects).mapError .failed
      let (id, s) ← sub e.oid child s
      let tree ← (tree.insert e.name kind id).mapError fun err => .failed (.object err)
      importEntries sub entries tree s

/-- Import a tree with what is below it, unless it has been. -/
def importTreeObject : Nat → GitOid → GitObject → Imported → Except ImportStop (ObjectId × Imported)
  | 0, _, _, _ => .error .unfinished
  | depth + 1, oid, object, s =>
      match s.oidMap[oid]? with
      | some id => .ok (id, s)
      | none =>
          match object with
          | .blob bytes => .ok (s.store sha256 oid (.blob bytes))
          | .tree entries => do
              let (tree, s) ← importEntries objects (importTreeObject depth) entries .new s
              .ok (s.store sha256 oid (.tree tree))
          | .commit _ => .error (.failed (.unsupportedMode object.typeStr))
          | .tag _ => .error (.failed (.unsupportedMode object.typeStr))

/-- The state of a walk, the top of its stack first. -/
structure ImportWalk where
  stack : List GitOid
  made : GitImport
  repo : Repository

/-- Record an object by its type. -/
def ImportWalk.accept (depth : Nat) (w : ImportWalk) (oid : GitOid) (object : GitObject) :
    Except ImportStop ImportWalk :=
  match object with
  | .commit c =>
      .ok { w with made := { w.made with commits := w.made.commits + 1, commitDag := w.made.commitDag.insert oid c } }
  | .tag _ => .ok { w with made := { w.made with tags := w.made.tags + 1 } }
  | .tree _ => do
      let (_, s) ← importTreeObject sha256 objects depth oid object ⟨w.made.oidMap, w.repo⟩
      .ok { w with made := { w.made with trees := w.made.trees + 1, oidMap := s.oidMap }, repo := s.repo }
  | .blob bytes =>
      let (_, s) := Imported.store sha256 ⟨w.made.oidMap, w.repo⟩ oid (.blob bytes)
      .ok { w with made := { w.made with blobs := w.made.blobs + 1, oidMap := s.oidMap }, repo := s.repo }

/-- A turn of the walk, unless its stack is empty. -/
def ImportWalk.step (depth : Nat) (w : ImportWalk) : Except ImportStop (Option ImportWalk) :=
  match w.stack with
  | [] => .ok none
  | oid :: stack =>
      if oid ∈ w.made.gitObjects then .ok (some { w with stack := stack })
      else do
        let object ← (resolveObject oid objects).mapError .failed
        let _ ← (roundtripOk sha1 object.encode).mapError .failed
        let w ← w.accept sha256 objects depth oid object
        .ok (some { w with
          stack := object.children.reverse ++ stack
          made := { w.made with gitObjects := w.made.gitObjects.insert oid object } })

/-- The walk, for so many turns. -/
def ImportWalk.run (depth : Nat) : Nat → ImportWalk → Except ImportStop (GitImport × Repository)
  | 0, _ => .error .unfinished
  | turns + 1, w => do
      match ← w.step sha1 sha256 objects depth with
      | none => .ok (w.made, w.repo)
      | some w => ImportWalk.run depth turns w

/-- Import what some refs lead to. -/
def importObjects (depth turns : Nat) (refs : List (Str × GitOid)) (repo : Repository) :
    Except ImportStop (GitImport × Repository) :=
  ImportWalk.run sha1 sha256 objects depth turns
    ⟨(refs.map Prod.snd).reverse, ⟨∅, ∅, ∅, refs, 0, 0, 0, 0⟩, repo⟩

end

/-! ## What refs lead to -/

/-- An object refers to another one. -/
def Refers (objects : GitObjects) (a b : GitOid) : Prop := ∃ o, objects[a]? = some o ∧ b ∈ o.children

/-- A tree has an entry for another object. -/
def Inside (objects : GitObjects) (a b : GitOid) : Prop :=
  ∃ entries, objects[a]? = some (.tree entries) ∧ b ∈ entries.map GitTreeEntry.oid

/-- What some roots lead to is there and passes the gate, and the modes of its trees are supported. -/
structure Walkable (sha1 : List UInt8 → GitOid) (objects : GitObjects) (roots : List GitOid) : Prop where
  present : ∀ a, Leads (Refers objects) roots a → ∃ o, objects[a]? = some o
  roundtrips : ∀ a o, Leads (Refers objects) roots a → objects[a]? = some o →
    ∃ oid, roundtripOk sha1 o.encode = .ok oid
  modes : ∀ a entries, Leads (Refers objects) roots a → objects[a]? = some (.tree entries) →
    ∀ e ∈ entries, ∃ kind, modeToKind e.mode = .ok kind

/-- The trees that some roots lead to can be stored: the store takes their names, their entries are
    for blobs and trees, and none is inside itself. -/
structure Storable (objects : GitObjects) (roots : List GitOid) : Prop where
  names : ∀ a entries, Leads (Refers objects) roots a → objects[a]? = some (.tree entries) →
    ∀ e ∈ entries, ValidName e.name
  content : ∀ a entries, Leads (Refers objects) roots a → objects[a]? = some (.tree entries) →
    ∀ e ∈ entries, ∀ o, objects[e.oid]? = some o → o.isContent
  nested : ∀ a, Leads (Refers objects) roots a → ¬ TransGen (Inside objects) a a

section

variable {sha1 : List UInt8 → GitOid} {sha256 : List UInt8 → ObjectId} {objects : GitObjects}

/-! ## Deeper recursion and longer walks -/

theorem importEntries_mono {sub sub' : GitOid → GitObject → Imported → Except ImportStop (ObjectId × Imported)}
    (hsub : ∀ oid o s r, sub oid o s = .ok r → sub' oid o s = .ok r) {entries : List GitTreeEntry} {tree : Tree}
    {s : Imported} {r : Tree × Imported} (h : importEntries objects sub entries tree s = .ok r) :
    importEntries objects sub' entries tree s = .ok r := by
  induction entries generalizing tree s with
  | nil => exact h
  | cons e entries ih =>
      simp only [importEntries, bind_eq_ok] at h ⊢
      obtain ⟨kind, hkind, child, hchild, ⟨id, s'⟩, hid, tree', htree, h⟩ := h
      exact ⟨kind, hkind, child, hchild, (id, s'), hsub _ _ _ _ hid, tree', htree, ih h⟩

theorem importTreeObject_succ {depth : Nat} {oid : GitOid} {o : GitObject} {s : Imported} {r : ObjectId × Imported}
    (h : importTreeObject sha256 objects depth oid o s = .ok r) :
    importTreeObject sha256 objects (depth + 1) oid o s = .ok r := by
  induction depth generalizing oid o s r with
  | zero => cases h
  | succ depth ih =>
      unfold importTreeObject at h ⊢
      split
      · rename_i id hid
        simpa only [hid] using h
      · rename_i hid
        simp only [hid] at h
        cases o with
        | blob bytes => exact h
        | tree entries =>
            simp only [bind_eq_ok] at h ⊢
            obtain ⟨built, hbuilt, h⟩ := h
            exact ⟨built, importEntries_mono (fun _ _ _ _ => ih) hbuilt, h⟩
        | commit c => cases h
        | tag t => cases h

theorem importTreeObject_mono {depth depth' : Nat} (hle : depth ≤ depth') {oid : GitOid} {o : GitObject}
    {s : Imported} {r : ObjectId × Imported} (h : importTreeObject sha256 objects depth oid o s = .ok r) :
    importTreeObject sha256 objects depth' oid o s = .ok r := by
  induction hle with
  | refl => exact h
  | step _ ih => exact importTreeObject_succ ih

theorem ImportWalk.accept_mono {depth depth' : Nat} (hle : depth ≤ depth') {w w' : ImportWalk} {oid : GitOid}
    {o : GitObject} (h : w.accept sha256 objects depth oid o = .ok w') :
    w.accept sha256 objects depth' oid o = .ok w' := by
  cases o with
  | blob bytes => exact h
  | commit c => exact h
  | tag t => exact h
  | tree entries =>
      simp only [accept, bind_eq_ok] at h ⊢
      obtain ⟨r, hr, h⟩ := h
      exact ⟨r, importTreeObject_mono hle hr, h⟩

theorem ImportWalk.step_mono {depth depth' : Nat} (hle : depth ≤ depth') {w : ImportWalk} {r : Option ImportWalk}
    (h : w.step sha1 sha256 objects depth = .ok r) : w.step sha1 sha256 objects depth' = .ok r := by
  unfold step at h ⊢
  split
  · rename_i hstack
    simpa only [hstack] using h
  · rename_i oid stack hstack
    simp only [hstack] at h
    split
    · rename_i hseen
      simpa only [if_pos hseen] using h
    · rename_i hseen
      rw [if_neg hseen] at h
      simp only [bind_eq_ok] at h ⊢
      obtain ⟨o, ho, oid', hoid', w', hw', h⟩ := h
      exact ⟨o, ho, oid', hoid', w', accept_mono hle hw', h⟩

/-- An import that ends stays the same with a deeper recursion and more turns. -/
theorem ImportWalk.run_mono {depth depth' turns turns' : Nat} (hdepth : depth ≤ depth') (hturns : turns ≤ turns')
    {w : ImportWalk} {r : GitImport × Repository} (h : w.run sha1 sha256 objects depth turns = .ok r) :
    w.run sha1 sha256 objects depth' turns' = .ok r := by
  induction turns generalizing turns' w with
  | zero => cases h
  | succ turns ih =>
      obtain ⟨turns', rfl⟩ : ∃ n, turns' = n + 1 := ⟨turns' - 1, by omega⟩
      simp only [run, bind_eq_ok] at h ⊢
      obtain ⟨next, hstep, h⟩ := h
      refine ⟨next, step_mono hdepth hstep, ?_⟩
      cases next with
      | none => exact h
      | some w' => exact ih (Nat.le_of_succ_le_succ hturns) h

/-! ## Trees and what is below them -/

/-- What has been stored grows, by content that some roots lead to. -/
structure Imported.Grows (objects : GitObjects) (roots : List GitOid) (s s' : Imported) : Prop where
  kept : ∀ a ∈ s.oidMap, a ∈ s'.oidMap
  new : ∀ a ∈ s'.oidMap, a ∈ s.oidMap ∨
    Leads (Refers objects) roots a ∧ ∃ o, objects[a]? = some o ∧ o.isContent

variable {roots : List GitOid}

theorem Imported.Grows.refl (s : Imported) : s.Grows objects roots s := ⟨fun _ => id, fun _ => .inl⟩

theorem Imported.Grows.trans {s s' s'' : Imported} (h : s.Grows objects roots s') (h' : s'.Grows objects roots s'') :
    s.Grows objects roots s'' :=
  ⟨fun a ha => h'.kept a (h.kept a ha), fun a ha => (h'.new a ha).elim (h.new a) .inr⟩

variable (sha256) in
theorem Imported.Grows.store (s : Imported) {oid : GitOid} {o : GitObject} (object : Object)
    (hleads : Leads (Refers objects) roots oid) (ho : objects[oid]? = some o) (hcontent : o.isContent) :
    s.Grows objects roots (s.store sha256 oid object).2 ∧ oid ∈ (s.store sha256 oid object).2.oidMap := by
  have hmem : ∀ a, a ∈ (s.store sha256 oid object).2.oidMap ↔ oid = a ∨ a ∈ s.oidMap := fun a => by
    change a ∈ s.oidMap.insert oid _ ↔ _
    rw [Std.ExtTreeMap.mem_insert, Std.compare_eq_iff_eq]
  refine ⟨⟨fun a ha => (hmem a).mpr (.inr ha), fun a ha => ?_⟩, (hmem oid).mpr (.inl rfl)⟩
  cases (hmem a).mp ha with
  | inl heq => exact .inr ⟨heq ▸ hleads, o, heq ▸ ho, hcontent⟩
  | inr hold => exact .inl hold

theorem importEntries_total {sub : GitOid → GitObject → Imported → Except ImportStop (ObjectId × Imported)}
    {entries : List GitTreeEntry}
    (hmodes : ∀ e ∈ entries, ∃ kind, modeToKind e.mode = .ok kind) (hnames : ∀ e ∈ entries, ValidName e.name)
    (hsub : ∀ e ∈ entries, ∃ o, objects[e.oid]? = some o ∧
      ∀ s, ∃ r, sub e.oid o s = .ok r ∧ s.Grows objects roots r.2) (tree : Tree) (s : Imported) :
    ∃ r, importEntries objects sub entries tree s = .ok r ∧ s.Grows objects roots r.2 := by
  induction entries generalizing tree s with
  | nil => exact ⟨(tree, s), rfl, .refl s⟩
  | cons e entries ih =>
      obtain ⟨kind, hkind⟩ := hmodes e List.mem_cons_self
      obtain ⟨o, ho, htotal⟩ := hsub e List.mem_cons_self
      obtain ⟨⟨id, s'⟩, hid, hgrows⟩ := htotal s
      obtain ⟨tree', htree⟩ : ∃ tree', tree.insert e.name kind id = .ok tree' := by
        unfold Tree.insert
        rw [dif_pos (hnames e List.mem_cons_self)]
        exact ⟨_, rfl⟩
      obtain ⟨r, hr, hrest⟩ := ih (fun d hd => hmodes d (List.mem_cons_of_mem e hd))
        (fun d hd => hnames d (List.mem_cons_of_mem e hd)) (fun d hd => hsub d (List.mem_cons_of_mem e hd)) tree' s'
      refine ⟨r, ?_, hgrows.trans hrest⟩
      simp only [importEntries, bind_eq_ok]
      refine ⟨kind, by rw [hkind]; rfl, o, by rw [resolveObject, ho]; rfl, (id, s'), hid, tree', ?_, hr⟩
      rw [htree]
      rfl

variable (sha256) in
/-- Deep enough, every tree that the roots lead to is imported with all below it. -/
theorem importTreeObject_total (hwalk : Walkable sha1 objects roots) (hstore : Storable objects roots) :
    ∃ depth, ∀ a, Leads (Refers objects) roots a → ∀ o, objects[a]? = some o → o.isContent →
      ∀ s, ∃ r, importTreeObject sha256 objects depth a o s = .ok r ∧ s.Grows objects roots r.2 ∧ a ∈ r.2.oidMap := by
  classical
  let nodes := objects.keys.filter fun a => Leads (Refers objects) roots a
  have hmem : ∀ a, a ∈ nodes ↔ Leads (Refers objects) roots a := fun a => by
    constructor
    · exact fun h => of_decide_eq_true (List.mem_filter.mp h).2
    · intro hleads
      refine List.mem_filter.mpr ⟨?_, decide_eq_true hleads⟩
      rw [Std.ExtTreeMap.mem_keys, Std.ExtTreeMap.mem_iff_isSome_getElem?, Option.isSome_iff_exists]
      exact hwalk.present a hleads
  let P (a : GitOid) (depth : Nat) : Prop := ∀ o, objects[a]? = some o → o.isContent →
    ∀ s, ∃ r, importTreeObject sha256 objects depth a o s = .ok r ∧ s.Grows objects roots r.2 ∧ a ∈ r.2.oidMap
  suffices hnodes : ∀ a ∈ nodes, ∃ n, ∀ m, n ≤ m → P a m by
    obtain ⟨n, hn⟩ := exists_uniform hnodes
    exact ⟨n, fun a hleads => hn a ((hmem a).mpr hleads) n n.le_refl⟩
  have hnested : ∀ a ∈ nodes, ¬ TransGen (Inside objects) a a := fun a ha => hstore.nested a ((hmem a).mp ha)
  refine acyclic_induct hnested fun a ha ih => ?_
  have hleads := (hmem a).mp ha
  obtain ⟨o, ho⟩ := hwalk.present a hleads
  -- an entry leads to a node again
  have hbelow : ∀ entries, o = .tree entries → ∀ b ∈ entries.map GitTreeEntry.oid, b ∈ nodes := by
    rintro entries rfl b hb
    exact (hmem b).mpr (hleads.tail ⟨_, ho, hb⟩)
  obtain ⟨n, hn⟩ : ∃ n, ∀ entries, o = .tree entries →
      ∀ b ∈ entries.map GitTreeEntry.oid, ∀ m, n ≤ m → P b m := by
    cases o with
    | tree entries =>
        obtain ⟨n, hn⟩ := exists_uniform fun b hb => ih b (hbelow entries rfl b hb) ⟨entries, ho, hb⟩
        refine ⟨n, ?_⟩
        rintro _ ⟨⟩
        exact hn
    | blob bytes => exact ⟨0, nofun⟩
    | commit c => exact ⟨0, nofun⟩
    | tag t => exact ⟨0, nofun⟩
  refine ⟨n + 1, fun m hm o' ho' hcontent s => ?_⟩
  obtain ⟨m, rfl⟩ : ∃ k, m = k + 1 := ⟨m - 1, by omega⟩
  obtain rfl : o = o' := Option.some.inj (ho.symm.trans ho')
  unfold importTreeObject
  split
  · rename_i id hid
    refine ⟨_, rfl, .refl s, ?_⟩
    rw [Std.ExtTreeMap.mem_iff_isSome_getElem?, hid]
    rfl
  · cases o with
    | blob bytes => exact ⟨_, rfl, Imported.Grows.store sha256 s _ hleads ho hcontent⟩
    | tree entries =>
        have hentries : ∀ e ∈ entries, ∃ child, objects[e.oid]? = some child ∧
            ∀ s, ∃ r, importTreeObject sha256 objects m e.oid child s = .ok r ∧ s.Grows objects roots r.2 := by
          intro e he
          have heb : e.oid ∈ entries.map GitTreeEntry.oid := List.mem_map_of_mem he
          obtain ⟨child, hchild⟩ := hwalk.present e.oid ((hmem _).mp (hbelow entries rfl _ heb))
          refine ⟨child, hchild, fun s => ?_⟩
          obtain ⟨r, hr, hgrows, -⟩ := hn entries rfl _ heb m (by omega) child hchild
            (hstore.content a entries hleads ho e he child hchild) s
          exact ⟨r, hr, hgrows⟩
        obtain ⟨⟨tree, s'⟩, hbuilt, hgrows⟩ := importEntries_total (hwalk.modes a entries hleads ho)
          (hstore.names a entries hleads ho) hentries .new s
        obtain ⟨hstored, hself⟩ := Imported.Grows.store sha256 s' (.tree tree) hleads ho hcontent
        exact ⟨_, bind_eq_ok.mpr ⟨(tree, s'), hbuilt, rfl⟩, hgrows.trans hstored, hself⟩
    | commit c => cases hcontent
    | tag t => cases hcontent

/-! ## What the walk keeps -/

/-- How many objects are of a kind. -/
def GitObjects.count (m : GitObjects) (kind : GitKind) : Nat := m.toList.countP fun e => e.2.kind = kind

theorem GitObjects.count_insert {m : GitObjects} {a : GitOid} (o : GitObject) (h : m[a]? = none) (kind : GitKind) :
    GitObjects.count (m.insert a o) kind = GitObjects.count m kind + if o.kind = kind then 1 else 0 := by
  unfold count
  rw [(BTreeMap.toList_insert_perm o h).countP_eq, List.countP_cons]
  simp

/-- What has been made of the objects it holds. -/
structure GitImport.Holds (objects : GitObjects) (roots : List GitOid) (made : GitImport) : Prop where
  same : ∀ (a : GitOid) (o : GitObject), made.gitObjects[a]? = some o → objects[a]? = some o
  blobs : made.blobs = GitObjects.count made.gitObjects .blob
  trees : made.trees = GitObjects.count made.gitObjects .tree
  commits : made.commits = GitObjects.count made.gitObjects .commit
  tags : made.tags = GitObjects.count made.gitObjects .tag
  dag : ∀ (a : GitOid) (c : GitCommit), made.commitDag[a]? = some c ↔ made.gitObjects[a]? = some (.commit c)
  stored : ∀ (a : GitOid) (o : GitObject), made.gitObjects[a]? = some o → o.isContent → a ∈ made.oidMap
  content : ∀ a ∈ made.oidMap, Leads (Refers objects) roots a ∧ ∃ o, objects[a]? = some o ∧ o.isContent

theorem GitImport.Holds.init (refs : List (Str × GitOid)) :
    GitImport.Holds objects roots ⟨∅, ∅, ∅, refs, 0, 0, 0, 0⟩ := by
  have hcount : ∀ kind, GitObjects.count ∅ kind = 0 := fun kind => by simp [GitObjects.count]
  refine ⟨?_, (hcount _).symm, (hcount _).symm, (hcount _).symm, (hcount _).symm, ?_, ?_, ?_⟩ <;> simp

/-- One object more, counted by its kind, in the graph if it is a commit, and stored if it is content. -/
theorem GitImport.Holds.record {made made' : GitImport} {oid : GitOid} {o : GitObject}
    (h : made.Holds objects roots) (hnew : made.gitObjects[oid]? = none) (ho : objects[oid]? = some o)
    (hobjects : made'.gitObjects = made.gitObjects.insert oid o)
    (hblobs : made'.blobs = made.blobs + if o.kind = .blob then 1 else 0)
    (htrees : made'.trees = made.trees + if o.kind = .tree then 1 else 0)
    (hcommits : made'.commits = made.commits + if o.kind = .commit then 1 else 0)
    (htags : made'.tags = made.tags + if o.kind = .tag then 1 else 0)
    (hdag : ∀ (a : GitOid) (c : GitCommit),
      made'.commitDag[a]? = some c ↔ if oid = a then o = .commit c else made.commitDag[a]? = some c)
    (hself : o.isContent → oid ∈ made'.oidMap)
    {repo repo' : Repository} (hgrows : Imported.Grows objects roots ⟨made.oidMap, repo⟩ ⟨made'.oidMap, repo'⟩) :
    made'.Holds objects roots := by
  have hget : ∀ (a : GitOid), made'.gitObjects[a]? = if oid = a then some o else made.gitObjects[a]? := fun a => by
    rw [hobjects, BTreeMap.getElem?_insert]
  refine ⟨?_, ?_, ?_, ?_, ?_, ?_, ?_, ?_⟩
  · intro a o' ha
    rw [hget] at ha
    split at ha
    · rename_i heq
      rw [← heq, ho, ha]
    · exact h.same a o' ha
  · rw [hblobs, h.blobs, hobjects, GitObjects.count_insert o hnew]
  · rw [htrees, h.trees, hobjects, GitObjects.count_insert o hnew]
  · rw [hcommits, h.commits, hobjects, GitObjects.count_insert o hnew]
  · rw [htags, h.tags, hobjects, GitObjects.count_insert o hnew]
  · intro a c
    rw [hdag, hget]
    split
    · exact Option.some_inj.symm
    · exact h.dag a c
  · intro a o' ha hcontent
    rw [hget] at ha
    split at ha
    · rename_i heq
      cases ha
      exact heq ▸ hself hcontent
    · exact hgrows.kept a (h.stored a o' ha hcontent)
  · intro a ha
    exact (hgrows.new a ha).elim (h.content a) id

/-- An object is accepted, and what is made then holds of it too. -/
theorem ImportWalk.accept_holds {depth : Nat} {w : ImportWalk} {oid : GitOid} {o : GitObject}
    (hdepth : o.isContent → ∀ s, ∃ r, importTreeObject sha256 objects depth oid o s = .ok r ∧
      s.Grows objects roots r.2 ∧ oid ∈ r.2.oidMap)
    (h : w.made.Holds objects roots) (hnew : w.made.gitObjects[oid]? = none)
    (hleads : Leads (Refers objects) roots oid) (ho : objects[oid]? = some o) :
    ∃ w', w.accept sha256 objects depth oid o = .ok w' ∧ w'.made.gitObjects = w.made.gitObjects ∧
      w'.made.refs = w.made.refs ∧
      GitImport.Holds objects roots { w'.made with gitObjects := w'.made.gitObjects.insert oid o } := by
  -- a commit that has not been seen is not in the graph
  have hdag : ∀ (a : GitOid) (c : GitCommit), o.kind ≠ .commit →
      (w.made.commitDag[a]? = some c ↔ if oid = a then o = .commit c else w.made.commitDag[a]? = some c) := by
    intro a c hkind
    split
    · rename_i heq
      rw [h.dag, ← heq, hnew]
      constructor
      · nofun
      · rintro rfl
        exact absurd rfl hkind
    · exact Iff.rfl
  cases o with
  | blob bytes =>
      obtain ⟨hgrows, hself⟩ := Imported.Grows.store sha256 ⟨w.made.oidMap, w.repo⟩ (.blob bytes) hleads ho rfl
      refine ⟨_, rfl, rfl, rfl, h.record hnew ho rfl rfl rfl rfl rfl (fun a c => hdag a c nofun) (fun _ => hself) hgrows⟩
  | tree entries =>
      obtain ⟨r, hr, hgrows, hself⟩ := hdepth rfl ⟨w.made.oidMap, w.repo⟩
      refine ⟨_, bind_eq_ok.mpr ⟨r, hr, rfl⟩, rfl, rfl, ?_⟩
      exact h.record hnew ho rfl rfl rfl rfl rfl (fun a c => hdag a c nofun) (fun _ => hself) hgrows
  | commit c =>
      refine ⟨_, rfl, rfl, rfl, h.record hnew ho rfl rfl rfl rfl rfl (fun a c' => ?_) nofun (.refl ⟨_, w.repo⟩)⟩
      change (w.made.commitDag.insert oid c)[a]? = some c' ↔ _
      rw [BTreeMap.getElem?_insert]
      split
      · rw [Option.some_inj, GitObject.commit.injEq]
      · exact Iff.rfl
  | tag t =>
      exact ⟨_, rfl, rfl, rfl,
        h.record hnew ho rfl rfl rfl rfl rfl (fun a c => hdag a c nofun) nofun (.refl ⟨_, w.repo⟩)⟩

/-- What the walk keeps: it explores what the roots lead to, and holds what it has explored. -/
structure ImportWalk.Invariant (objects : GitObjects) (roots : List GitOid) (w : ImportWalk) : Prop where
  explores : Explores (Refers objects) roots {a | a ∈ w.made.gitObjects} w.stack
  holds : w.made.Holds objects roots

/-- The turns a walk may still take. -/
def ImportWalk.turnsLeft (objects : GitObjects) (w : ImportWalk) : Nat :=
  turns objects.keys (fun a => (objects[a]?.elim [] GitObject.children).length) w.made.gitObjects.keys w.stack

/-- Recording an object explores it, and leaves what it refers to pending. -/
theorem explores_insert {m : GitObjects} {oid : GitOid} {o : GitObject} {stack : List GitOid}
    (h : Explores (Refers objects) roots {a | a ∈ m} (oid :: stack)) (ho : objects[oid]? = some o) :
    Explores (Refers objects) roots {a | a ∈ m.insert oid o} (o.children.reverse ++ stack) := by
  have hpending : ∀ b, b ∈ o.children.reverse ++ stack ↔ Refers objects oid b ∨ b ∈ stack := fun b => by
    rw [List.mem_append, List.mem_reverse]
    exact or_congr_left ⟨fun hb => ⟨o, ho, hb⟩, fun ⟨o', ho', hb⟩ => Option.some.inj (ho.symm.trans ho') ▸ hb⟩
  have hset : {a | a ∈ m.insert oid o} = insert oid {a | a ∈ m} := by
    ext a
    rw [Set.mem_ofPred_eq, Std.ExtTreeMap.mem_insert, Std.compare_eq_iff_eq]
    exact or_congr_left eq_comm
  exact hset ▸ h.visit hpending

/-- A turn of a walk that is not over goes well, keeps the invariant and takes one off the turns left. -/
theorem ImportWalk.Invariant.step {depth : Nat} {w : ImportWalk} {oid : GitOid} {stack : List GitOid}
    (h : w.Invariant objects roots) (hwalk : Walkable sha1 objects roots)
    (hdepth : ∀ a, Leads (Refers objects) roots a → ∀ o, objects[a]? = some o → o.isContent →
      ∀ s, ∃ r, importTreeObject sha256 objects depth a o s = .ok r ∧ s.Grows objects roots r.2 ∧ a ∈ r.2.oidMap)
    (hstack : w.stack = oid :: stack) :
    ∃ w', w.step sha1 sha256 objects depth = .ok (some w') ∧ w'.Invariant objects roots ∧
      w'.turnsLeft objects + 1 = w.turnsLeft objects ∧ w'.made.refs = w.made.refs := by
  obtain ⟨pending, made, repo⟩ := w
  obtain rfl : pending = oid :: stack := hstack
  obtain ⟨hexplores, hholds⟩ := h
  by_cases hseen : oid ∈ made.gitObjects
  · refine ⟨⟨stack, made, repo⟩, if_pos hseen, ⟨hexplores.skip hseen, hholds⟩, turns_skip .., rfl⟩
  · have hleads : Leads (Refers objects) roots oid := hexplores.reached oid (.inr List.mem_cons_self)
    obtain ⟨o, ho⟩ := hwalk.present oid hleads
    obtain ⟨oid', hgate⟩ := hwalk.roundtrips oid o hleads ho
    have hnew : made.gitObjects[oid]? = none := Std.ExtTreeMap.getElem?_eq_none hseen
    obtain ⟨w', haccept, hobjects, hrefs, hholds'⟩ :=
      accept_holds (w := ⟨oid :: stack, made, repo⟩) (hdepth oid hleads o ho) hholds hnew hleads ho
    have hmem : ∀ a, a ∈ w'.made.gitObjects.insert oid o ↔ oid = a ∨ a ∈ made.gitObjects := fun a => by
      rw [Std.ExtTreeMap.mem_insert, Std.compare_eq_iff_eq, hobjects]
    refine ⟨⟨o.children.reverse ++ stack, { w'.made with gitObjects := w'.made.gitObjects.insert oid o }, w'.repo⟩,
      ?_, ⟨?_, hholds'⟩, ?_, hrefs⟩
    · refine (if_neg hseen).trans ?_
      simp only [bind_eq_ok]
      refine ⟨o, by rw [resolveObject, ho]; rfl, oid', by rw [hgate]; rfl, w', haccept, rfl⟩
    · exact hobjects ▸ explores_insert hexplores ho
    · unfold turnsLeft
      have hseen' : ∀ a, a ∈ (w'.made.gitObjects.insert oid o).keys ↔ a ∈ oid :: made.gitObjects.keys := fun a => by
        rw [Std.ExtTreeMap.mem_keys, hmem, List.mem_cons, Std.ExtTreeMap.mem_keys, eq_comm]
      rw [turns_congr _ _ hseen']
      refine turns_visit Std.ExtTreeMap.nodup_keys ?_ ?_ ?_
      · rw [Std.ExtTreeMap.mem_keys, Std.ExtTreeMap.mem_iff_isSome_getElem?, ho]
        rfl
      · rwa [Std.ExtTreeMap.mem_keys]
      · rw [List.length_append, List.length_reverse, ho]
        rfl

/-- A walk goes on to its end, where nothing is pending. -/
theorem ImportWalk.Invariant.run {depth : Nat} (hwalk : Walkable sha1 objects roots)
    (hdepth : ∀ a, Leads (Refers objects) roots a → ∀ o, objects[a]? = some o → o.isContent →
      ∀ s, ∃ r, importTreeObject sha256 objects depth a o s = .ok r ∧ s.Grows objects roots r.2 ∧ a ∈ r.2.oidMap)
    {n : Nat} {w : ImportWalk} (h : w.Invariant objects roots) (hn : w.turnsLeft objects = n) :
    ∃ made repo, w.run sha1 sha256 objects depth (n + 1) = .ok (made, repo) ∧
      ImportWalk.Invariant objects roots ⟨[], made, repo⟩ ∧ made.refs = w.made.refs := by
  induction n generalizing w with
  | zero =>
      obtain ⟨pending, made, repo⟩ := w
      cases pending with
      | nil => exact ⟨made, repo, rfl, h, rfl⟩
      | cons oid stack =>
          obtain ⟨w', -, -, hturns, -⟩ := h.step hwalk hdepth rfl
          rw [hn] at hturns
          exact absurd hturns (Nat.succ_ne_zero _)
  | succ n ih =>
      obtain ⟨pending, made, repo⟩ := w
      cases pending with
      | nil => exact ⟨made, repo, rfl, h, rfl⟩
      | cons oid stack =>
          obtain ⟨w', hstep, hinv, hturns, hrefs⟩ := h.step hwalk hdepth rfl
          obtain ⟨made', repo', hrun, hend, hrefs'⟩ := ih hinv (Nat.succ.inj (hturns.trans hn))
          refine ⟨made', repo', ?_, hend, hrefs'.trans hrefs⟩
          simp only [ImportWalk.run, bind_eq_ok]
          exact ⟨some w', hstep, hrun⟩

/-! ## A walk that has ended -/

/-- What the walk keeps as long as it goes well: it explores what the roots lead to, and what it has explored
    is from the objects and passed the gate. -/
structure ImportWalk.Sound (sha1 : List UInt8 → GitOid) (objects : GitObjects) (roots : List GitOid)
    (refs : List (Str × GitOid)) (w : ImportWalk) : Prop where
  explores : Explores (Refers objects) roots {a | a ∈ w.made.gitObjects} w.stack
  same : ∀ (a : GitOid) (o : GitObject), w.made.gitObjects[a]? = some o → objects[a]? = some o
  gated : ∀ (a : GitOid) (o : GitObject), w.made.gitObjects[a]? = some o → ∃ oid, roundtripOk sha1 o.encode = .ok oid
  refs : w.made.refs = refs

theorem ImportWalk.accept_eq_ok {depth : Nat} {w w' : ImportWalk} {oid : GitOid} {o : GitObject}
    (h : w.accept sha256 objects depth oid o = .ok w') :
    w'.made.gitObjects = w.made.gitObjects ∧ w'.made.refs = w.made.refs := by
  cases o with
  | blob bytes => cases h; exact ⟨rfl, rfl⟩
  | commit c => cases h; exact ⟨rfl, rfl⟩
  | tag t => cases h; exact ⟨rfl, rfl⟩
  | tree entries =>
      obtain ⟨r, -, h⟩ := bind_eq_ok.mp h
      cases h
      exact ⟨rfl, rfl⟩

variable {refs : List (Str × GitOid)}

theorem ImportWalk.Sound.step {depth : Nat} {w w' : ImportWalk} (h : w.Sound sha1 objects roots refs)
    (hstep : w.step sha1 sha256 objects depth = .ok (some w')) : w'.Sound sha1 objects roots refs := by
  obtain ⟨pending, made, repo⟩ := w
  cases pending with
  | nil => cases hstep
  | cons oid stack =>
      unfold ImportWalk.step at hstep
      simp only at hstep
      split at hstep
      · rename_i hseen
        cases hstep
        exact ⟨h.explores.skip hseen, h.same, h.gated, h.refs⟩
      · obtain ⟨o, ho, hstep⟩ := bind_eq_ok.mp hstep
        obtain ⟨oid', hgate, hstep⟩ := bind_eq_ok.mp hstep
        obtain ⟨w₁, haccept, hstep⟩ := bind_eq_ok.mp hstep
        cases hstep
        have hfound := resolveObject_eq_ok.mp (mapError_eq_ok.mp ho)
        obtain ⟨hobjects, hrefs⟩ := accept_eq_ok haccept
        have hget : ∀ a : GitOid, (w₁.made.gitObjects.insert oid o)[a]? = if oid = a then some o else made.gitObjects[a]? := by
          intro a
          rw [BTreeMap.getElem?_insert, hobjects]
        refine ⟨hobjects ▸ explores_insert h.explores hfound, fun a o' ha => ?_, fun a o' ha => ?_, hrefs.trans h.refs⟩
        · rw [hget] at ha
          split at ha
          · rename_i heq
            cases ha
            exact heq ▸ hfound
          · exact h.same a o' ha
        · rw [hget] at ha
          split at ha
          · cases ha
            cases hgated : roundtripOk sha1 o.encode with
            | error e => rw [hgated] at hgate; cases hgate
            | ok id => exact ⟨id, rfl⟩
          · exact h.gated a o' ha

theorem ImportWalk.Sound.run {depth turns : Nat} {w : ImportWalk} {r : GitImport × Repository}
    (h : w.Sound sha1 objects roots refs) (hrun : w.run sha1 sha256 objects depth turns = .ok r) :
    ImportWalk.Sound sha1 objects roots refs ⟨[], r.1, r.2⟩ := by
  induction turns generalizing w with
  | zero => cases hrun
  | succ turns ih =>
      obtain ⟨next, hstep, hrun⟩ := bind_eq_ok.mp hrun
      cases next with
      | some w' => exact ih (h.step hstep) hrun
      | none =>
          obtain ⟨pending, made, repo⟩ := w
          cases hrun
          cases pending with
          | nil => exact h
          | cons oid stack =>
              exfalso
              unfold ImportWalk.step at hstep
              simp only at hstep
              split at hstep
              · cases hstep
              · obtain ⟨o, -, hstep⟩ := bind_eq_ok.mp hstep
                obtain ⟨oid', -, hstep⟩ := bind_eq_ok.mp hstep
                obtain ⟨w₁, -, hstep⟩ := bind_eq_ok.mp hstep
                cases hstep

theorem ImportWalk.Sound.init (sha1 : List UInt8 → GitOid) (objects : GitObjects) (refs : List (Str × GitOid))
    (repo : Repository) : ImportWalk.Sound sha1 objects (refs.map Prod.snd) refs
      ⟨(refs.map Prod.snd).reverse, ⟨∅, ∅, ∅, refs, 0, 0, 0, 0⟩, repo⟩ := by
  have hempty : {a | a ∈ (∅ : GitObjects)} = ∅ := Set.eq_empty_of_forall_notMem fun _ => Std.ExtTreeMap.not_mem_empty
  exact ⟨hempty ▸ Explores.init fun a => List.mem_reverse, by simp, by simp, rfl⟩

/-- An import that goes well has just what its refs lead to, and all of it passed the gate. -/
theorem importObjects_eq_ok {depth turns : Nat} {repo : Repository} {r : GitImport × Repository}
    (h : importObjects sha1 sha256 objects depth turns refs repo = .ok r) :
    r.1.refs = refs ∧
      (∀ (a : GitOid) (o : GitObject), r.1.gitObjects[a]? = some o ↔
        Leads (Refers objects) (refs.map Prod.snd) a ∧ objects[a]? = some o) ∧
      (∀ a, Leads (Refers objects) (refs.map Prod.snd) a → a ∈ r.1.gitObjects) ∧
      ∀ (a : GitOid) (o : GitObject), r.1.gitObjects[a]? = some o → ∃ oid, roundtripOk sha1 o.encode = .ok oid := by
  have hsound := (ImportWalk.Sound.init sha1 objects refs repo).run h
  refine ⟨hsound.refs, fun a o => ?_, fun a => (hsound.explores.finish a).mpr, hsound.gated⟩
  have hseen := hsound.explores.finish a
  rw [Set.mem_ofPred_eq, Std.ExtTreeMap.mem_iff_isSome_getElem?, Option.isSome_iff_exists] at hseen
  constructor
  · exact fun ha => ⟨hseen.mp ⟨o, ha⟩, hsound.same a o ha⟩
  · rintro ⟨hleads, ho⟩
    obtain ⟨o', ho'⟩ := hseen.mpr hleads
    rw [ho', ← hsound.same a o' ho', ho]

variable (sha256) in
/-- Where all that the refs lead to is there, passes the gate and can be stored, the import ends, with
    just that: counted by kind, its commits in the graph, its blobs and trees stored. -/
theorem import_reachable (refs : List (Str × GitOid)) (repo : Repository)
    (hwalk : Walkable sha1 objects (refs.map Prod.snd)) (hstore : Storable objects (refs.map Prod.snd)) :
    ∃ depth turns made repo',
      (∀ depth' turns', depth ≤ depth' → turns ≤ turns' →
        importObjects sha1 sha256 objects depth' turns' refs repo = .ok (made, repo')) ∧
      made.refs = refs ∧
      (∀ (a : GitOid) (o : GitObject), made.gitObjects[a]? = some o ↔
        Leads (Refers objects) (refs.map Prod.snd) a ∧ objects[a]? = some o) ∧
      made.blobs = GitObjects.count made.gitObjects .blob ∧ made.trees = GitObjects.count made.gitObjects .tree ∧
      made.commits = GitObjects.count made.gitObjects .commit ∧ made.tags = GitObjects.count made.gitObjects .tag ∧
      (∀ (a : GitOid) (c : GitCommit), made.commitDag[a]? = some c ↔ made.gitObjects[a]? = some (.commit c)) ∧
      ∀ a, a ∈ made.oidMap ↔ ∃ o, made.gitObjects[a]? = some o ∧ o.isContent := by
  obtain ⟨depth, hdepth⟩ := importTreeObject_total sha256 hwalk hstore
  have hinit : ImportWalk.Invariant objects (refs.map Prod.snd)
      ⟨(refs.map Prod.snd).reverse, ⟨∅, ∅, ∅, refs, 0, 0, 0, 0⟩, repo⟩ :=
    ⟨(ImportWalk.Sound.init sha1 objects refs repo).explores, GitImport.Holds.init refs⟩
  obtain ⟨made, repo', hrun, ⟨-, hholds⟩, hrefs⟩ := hinit.run hwalk hdepth rfl
  have hmade := (importObjects_eq_ok hrun).2.1
  refine ⟨depth, _, made, repo', fun depth' turns' hd ht => ImportWalk.run_mono hd ht hrun, hrefs, hmade,
    hholds.blobs, hholds.trees, hholds.commits, hholds.tags, hholds.dag, fun a => ⟨fun ha => ?_, ?_⟩⟩
  · obtain ⟨hleads, o, ho, hcontent⟩ := hholds.content a ha
    exact ⟨o, (hmade a o).mpr ⟨hleads, ho⟩, hcontent⟩
  · rintro ⟨o, ho, hcontent⟩
    exact hholds.stored a o ho hcontent

end

/-! ## Objects under their own ids -/

def GitObject.entries : GitObject → List GitTreeEntry
  | .tree entries => entries
  | .blob _ => []
  | .commit _ => []
  | .tag _ => []

/-- Objects under their own ids. -/
def keyed (sha1 : List UInt8 → GitOid) (os : List GitObject) : GitObjects :=
  os.foldl (fun m o => m.insert (o.oid sha1) o) ∅

section

variable {sha1 : List UInt8 → GitOid} {os : List GitObject} {roots : List GitOid}

theorem mem_of_getElem?_keyed {a : GitOid} {o : GitObject} (h : (keyed sha1 os)[a]? = some o) :
    o ∈ os ∧ o.oid sha1 = a := by
  obtain ⟨o', ho', hoid, rfl⟩ := BTreeMap.mem_of_getElem?_collect (g := id) h
  exact ⟨ho', hoid⟩

theorem exists_getElem?_keyed {a : GitOid} (h : a ∈ os.map (GitObject.oid sha1)) :
    ∃ o, (keyed sha1 os)[a]? = some o := by
  obtain ⟨o, ho, rfl⟩ := List.mem_map.mp h
  exact BTreeMap.exists_getElem?_collect (g := id) ho

/-- Objects that refer to each other only, pass the gate and have supported modes can be walked over. -/
theorem walkable_keyed (hclosed : ∀ o ∈ os, ∀ b ∈ o.children, b ∈ os.map (GitObject.oid sha1))
    (hgate : ∀ o ∈ os, (roundtripOk sha1 o.encode).isOk)
    (hmodes : ∀ o ∈ os, ∀ e ∈ o.entries, (modeToKind e.mode).isOk)
    (hroots : ∀ r ∈ roots, r ∈ os.map (GitObject.oid sha1)) : Walkable sha1 (keyed sha1 os) roots := by
  refine ⟨fun a ha => exists_getElem?_keyed ?_, fun a o _ ho => ?_, fun a entries _ ho e he => ?_⟩
  · refine ha.induct (P := fun a => a ∈ os.map (GitObject.oid sha1)) hroots ?_
    rintro b c - ⟨o, ho, hc⟩
    exact hclosed o (mem_of_getElem?_keyed ho).1 c hc
  · exact exists_of_isOk (hgate o (mem_of_getElem?_keyed ho).1)
  · exact exists_of_isOk (hmodes _ (mem_of_getElem?_keyed ho).1 e he)

/-- They can be stored where their names are valid, their trees are of content, and the entries of a
    tree are ranked below it. -/
theorem storable_keyed (hnames : ∀ o ∈ os, ∀ e ∈ o.entries, ValidName e.name)
    (hcontent : ∀ o ∈ os, ∀ e ∈ o.entries, ∀ o' ∈ os, o'.oid sha1 = e.oid → o'.isContent)
    (rank : GitOid → Nat) (hrank : ∀ o ∈ os, ∀ e ∈ o.entries, rank e.oid < rank (o.oid sha1)) :
    Storable (keyed sha1 os) roots := by
  refine ⟨fun a entries _ ho e he => ?_, fun a entries _ ho e he o' ho' => ?_, fun a _ hself => ?_⟩
  · exact hnames _ (mem_of_getElem?_keyed ho).1 e he
  · obtain ⟨hmem, hoid⟩ := mem_of_getElem?_keyed ho'
    exact hcontent _ (mem_of_getElem?_keyed ho).1 e he o' hmem hoid
  · have hdown : ∀ b, TransGen (Inside (keyed sha1 os)) a b → rank b < rank a := by
      have hedge : ∀ b c, Inside (keyed sha1 os) b c → rank c < rank b := by
        rintro b c ⟨entries, ho, hc⟩
        obtain ⟨hmem, rfl⟩ := mem_of_getElem?_keyed ho
        obtain ⟨e, he, rfl⟩ := List.mem_map.mp hc
        exact hrank _ hmem e he
      intro b hb
      induction hb with
      | single h => exact hedge _ _ h
      | tail _ h ih => exact (hedge _ _ h).trans ih
    exact lt_irrefl _ (hdown a hself)

end

/-- A tree with a single entry. -/
def singleEntry (mode name : Str) (oid : GitOid) : GitObject := .tree [⟨mode, name, oid⟩]

theorem import_reachable_file :
    let blob : GitObject := .blob [1]
    let tree := singleEntry "100644".toList "a b".toList (blob.oid .ofSha1)
    ∃ depth turns made repo,
      importObjects .ofSha1 .ofSha256 (keyed .ofSha1 [blob, tree]) depth turns
        [("HEAD".toList, tree.oid .ofSha1)] .init = .ok (made, repo) ∧
      made.trees = GitObjects.count made.gitObjects .tree ∧ made.refs = [("HEAD".toList, tree.oid .ofSha1)] := by
  intro blob tree
  have hwalk : Walkable .ofSha1 (keyed .ofSha1 [blob, tree]) [tree.oid .ofSha1] :=
    walkable_keyed (by decide +kernel) (by decide +kernel) (by decide +kernel) (by decide +kernel)
  have hstore : Storable (keyed .ofSha1 [blob, tree]) [tree.oid .ofSha1] :=
    storable_keyed (by decide +kernel) (by decide +kernel) (fun a => if a = tree.oid .ofSha1 then 1 else 0)
      (by decide +kernel)
  obtain ⟨depth, turns, made, repo, hrun, hrefs, -, -, htrees, -, -, -, -⟩ :=
    import_reachable .ofSha256 [("HEAD".toList, tree.oid .ofSha1)] .init hwalk hstore
  exact ⟨depth, turns, made, repo, hrun depth turns le_rfl le_rfl, htrees, hrefs⟩

/-- Where a tree has a file whose name has a newline, or an entry for a tag, the import fails. -/
theorem import_fails :
    (let blob : GitObject := .blob [1]
      let tree := singleEntry "100644".toList "a\nb".toList (blob.oid .ofSha1)
      Walkable .ofSha1 (keyed .ofSha1 [blob, tree]) [tree.oid .ofSha1] ∧
        importObjects .ofSha1 .ofSha256 (keyed .ofSha1 [blob, tree]) 2 2 [("HEAD".toList, tree.oid .ofSha1)] .init =
          .error (.failed (.object (.invalidName "a\nb".toList)))) ∧
      (let blob : GitObject := .blob [1]
        let object := "object ".toList ++ (blob.oid .ofSha1).hex
        let tag : GitObject := .tag ⟨blob.oid .ofSha1, [], [], [], [], utf8 object⟩
        let tree := singleEntry "40000".toList "a".toList (tag.oid .ofSha1)
        Walkable .ofSha1 (keyed .ofSha1 [blob, tag, tree]) [tree.oid .ofSha1] ∧
          importObjects .ofSha1 .ofSha256 (keyed .ofSha1 [blob, tag, tree]) 2 2
              [("HEAD".toList, tree.oid .ofSha1)] .init =
            .error (.failed (.unsupportedMode "tag".toList))) := by
  have hstop : ∀ {x : Except ImportStop (GitImport × Repository)} {e : ImportStop},
      (match x with | .error e => some e | .ok _ => none) = some e → x = .error e := fun {x e} h => by
    cases x with
    | error e' => rw [Option.some.inj h]
    | ok r => cases h
  refine ⟨⟨?_, hstop (by decide +kernel)⟩, ?_, hstop (by decide +kernel)⟩
  · exact walkable_keyed (by decide +kernel) (by decide +kernel) (by decide +kernel) (by decide +kernel)
  · exact walkable_keyed (by decide +kernel) (by decide +kernel) (by decide +kernel) (by decide +kernel)

end Omoplata
