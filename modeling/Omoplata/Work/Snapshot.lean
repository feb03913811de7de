-- SUMMARY: What a snapshot of a folder stores: a tree that its content determines, and the objects below it.
import Omoplata.Work.Folder

/-!
# Snapshots of folders

The tree of a snapshot does not depend on what is stored, nor on the order in which the
directories list their entries. A store that writes have built holds every object written
to it, where no two of them have one hash.
-/

open Listing

namespace Omoplata

/-! ## Names -/

theorem trackedName_utf8 (n : Str) : trackedName (utf8 n) = if controlNames.contains n then none else some n := by
  unfold trackedName
  rw [fromUtf8_utf8]

theorem trackedName_eq_some_iff {name : OsName} {n : Str} :
    trackedName name = some n ↔ name = utf8 n ∧ n ∉ controlNames := by
  unfold trackedName
  cases hname : fromUtf8 name with
  | none =>
      simp only [reduceCtorEq, false_iff, not_and]
      rintro rfl
      rw [fromUtf8_utf8] at hname
      cases hname
  | some m =>
      have hm := utf8_of_fromUtf8 hname
      simp only [List.contains_iff_mem]
      by_cases hcontrol : m ∈ controlNames
      · rw [if_pos hcontrol]
        simp only [reduceCtorEq, false_iff, not_and, not_not]
        rintro rfl
        rw [fromUtf8_utf8, Option.some.injEq] at hname
        exact hname ▸ hcontrol
      · rw [if_neg hcontrol, Option.some.injEq]
        constructor
        · rintro rfl
          exact ⟨hm.symm, hcontrol⟩
        · rintro ⟨rfl, -⟩
          rw [fromUtf8_utf8, Option.some.injEq] at hname
          exact hname.symm

theorem utf8_injective : Function.Injective utf8 := by
  intro s s' h
  have hread := congrArg fromUtf8 h
  rwa [fromUtf8_utf8, fromUtf8_utf8, Option.some.injEq] at hread

/-- A snapshot takes a name, or a checkout leaves it alone, or it is not a text. -/
theorem isControlName_iff {name : OsName} : isControlName name = true ↔ ∃ n ∈ controlNames, name = utf8 n := by
  unfold isControlName
  cases hname : fromUtf8 name with
  | none =>
      simp only [Bool.false_eq_true, false_iff, not_exists, not_and]
      rintro n - rfl
      rw [fromUtf8_utf8] at hname
      cases hname
  | some m =>
      simp only [List.contains_iff_mem]
      constructor
      · exact fun h => ⟨m, h, (utf8_of_fromUtf8 hname).symm⟩
      · rintro ⟨n, hn, rfl⟩
        rw [fromUtf8_utf8, Option.some.injEq] at hname
        exact hname ▸ hn

theorem isControlName_of_tracked {name : OsName} {n : Str} (h : trackedName name = some n) :
    isControlName name = false := by
  obtain ⟨rfl, hn⟩ := trackedName_eq_some_iff.mp h
  rw [Bool.eq_false_iff, ne_eq, isControlName_iff]
  rintro ⟨m, hm, heq⟩
  exact hn (utf8_injective heq ▸ hm)

namespace Folder

section

variable (sha256 : List UInt8 → ObjectId)

/-! ## The tree of a folder -/

/-- The tree a snapshot makes of a directory, behind a tree it has begun. -/
def treeOf : WorkListing → Tree → Except FolderError Tree
  | .nil, t => .ok t
  | .leaf name (.regular bytes) rest, t =>
      match trackedName name with
      | none => treeOf rest t
      | some n =>
          match insertNamed t n .blob ((Object.blob bytes).id sha256) with
          | .error e => .error e
          | .ok t => treeOf rest t
  | .leaf _ (.special _) rest, t => treeOf rest t
  | .directory name below rest, t =>
      match trackedName name with
      | none => treeOf rest t
      | some n =>
          match treeOf below .new with
          | .error e => .error e
          | .ok subtree =>
              match insertNamed t n .tree ((Object.tree subtree).id sha256) with
              | .error e => .error e
              | .ok t => treeOf rest t

/-- The object of a directory, if a tree can hold it. -/
def treeObject (l : WorkListing) : List Object :=
  match treeOf sha256 l .new with
  | .error _ => []
  | .ok t => [.tree t]

/-- The objects a snapshot stores for the entries of a directory, in order. -/
def objectsOf : WorkListing → List Object
  | .nil => []
  | .leaf name (.regular bytes) rest =>
      if (trackedName name).isSome then .blob bytes :: objectsOf rest else objectsOf rest
  | .leaf _ (.special _) rest => objectsOf rest
  | .directory name below rest =>
      if (trackedName name).isSome then objectsOf below ++ treeObject sha256 below ++ objectsOf rest
      else objectsOf rest

/-- The objects a snapshot of a directory stores. -/
def storedFor (l : WorkListing) : List Object := objectsOf sha256 l ++ treeObject sha256 l

end

end Folder

namespace Folder

variable {sha256 : List UInt8 → ObjectId}

/-- A snapshot gives the tree of the directory, and where there is one stores its objects. -/
theorem snapshotTree_eq (l : WorkListing) (t : Tree) (repo : Repository) :
    (snapshotTree sha256 l t repo).1 = treeOf sha256 l t ∧
      ∀ t', treeOf sha256 l t = .ok t' → (snapshotTree sha256 l t repo).2 = repo.writeAll sha256 (objectsOf sha256 l) := by
  induction l generalizing t repo with
  | nil => exact ⟨rfl, fun _ _ => rfl⟩
  | leaf name c rest ih =>
      cases c with
      | special what => exact ih t repo
      | regular bytes =>
          unfold snapshotTree treeOf objectsOf
          cases trackedName name with
          | none => exact ih t repo
          | some n =>
              simp only [Repository.writeBlob, Repository.writeObject]
              cases insertNamed t n .blob ((Object.blob bytes).id sha256) with
              | error e => exact ⟨rfl, nofun⟩
              | ok t => exact ih t _
  | directory name below rest ihbelow ih =>
      unfold snapshotTree treeOf objectsOf treeObject
      cases trackedName name with
      | none => exact ih t repo
      | some n =>
          -- a directory is stored below its own tree, in front of what is still to come
          obtain ⟨hfst, hsnd⟩ := ihbelow .new repo
          simp only
          cases hbelow : snapshotTree sha256 below .new repo with
          | mk r repo₁ =>
              rw [hbelow] at hfst hsnd
              simp only at hfst hsnd
              cases r with
              | error e =>
                  rw [← hfst]
                  exact ⟨rfl, nofun⟩
              | ok subtree =>
                  rw [← hfst] at hsnd ⊢
                  obtain rfl := hsnd subtree rfl
                  simp only [Repository.writeObject]
                  cases insertNamed t n .tree ((Object.tree subtree).id sha256) with
                  | error e => exact ⟨rfl, nofun⟩
                  | ok t =>
                      obtain ⟨hfst', hsnd'⟩ := ih t ((repo.writeAll sha256 (objectsOf sha256 below)).writeObject sha256 (.tree subtree)).2
                      refine ⟨hfst', fun t' ht' => (hsnd' t' ht').trans ?_⟩
                      simp only [Option.isSome_some, if_true, Repository.writeAll_append]
                      rfl

/-! ## What a tree holds -/

/-- A tree can hold a node under a name, or a snapshot passes over it. -/
def Holdable (sha256 : List UInt8 → ObjectId) (n : Str) : Node OsName Leaf → Prop
  | .leaf (.regular _) => ValidName n
  | .leaf (.special _) => True
  | .directory below => ValidName n ∧ ∃ t, treeOf sha256 below .new = .ok t

/-- The entry of a snapshot for a node. -/
def entryOf (sha256 : List UInt8 → ObjectId) (n : Str) : Node OsName Leaf → Option TreeEntry
  | .leaf (.regular bytes) => some ⟨n, .blob, (Object.blob bytes).id sha256⟩
  | .leaf (.special _) => none
  | .directory below => (treeOf sha256 below .new).toOption.map fun t => ⟨n, .tree, (Object.tree t).id sha256⟩

/-- The entry of a snapshot under a name. -/
def entryUnder (sha256 : List UInt8 → ObjectId) (l : WorkListing) (n : Str) : Option TreeEntry :=
  if n ∈ controlNames then none else (l.get (utf8 n)).bind (entryOf sha256 n)

theorem insertNamed_ok_iff {t t' : Tree} {n : Str} {kind : EntryKind} {id : ObjectId} :
    insertNamed t n kind id = .ok t' ↔
      ValidName n ∧ ∀ m, t'.get m = (if n = m then some ⟨n, kind, id⟩ else none).or (t.get m) := by
  have hget : ∀ u, t.insert n kind id = .ok u →
      ∀ m, u.get m = (if n = m then some ⟨n, kind, id⟩ else none).or (t.get m) := by
    intro u hu m
    rw [Tree.get_insert hu]
    split <;> simp
  unfold insertNamed
  by_cases hvalid : ValidName n
  · obtain ⟨u, hu⟩ : ∃ u, t.insert n kind id = .ok u := by
      unfold Tree.insert
      rw [dif_pos hvalid]
      exact ⟨_, rfl⟩
    rw [hu]
    simp only [Except.mapError, Except.ok.injEq]
    constructor
    · rintro rfl
      exact ⟨hvalid, hget u hu⟩
    · rintro ⟨-, hsame⟩
      exact Tree.ext_get fun m => (hget u hu m).trans (hsame m).symm
  · have hrefused : t.insert n kind id = .error (.invalidName n) := by
      unfold Tree.insert
      rw [dif_neg hvalid]
    rw [hrefused]
    simp [Except.mapError, hvalid]

/-- A tree with the entry of one more node. -/
theorem exists_with_entry {n : Str} {node : Node OsName Leaf} (h : Holdable sha256 n node) (t : Tree) :
    ∃ u : Tree, ∀ m, u.get m = (if n = m then entryOf sha256 n node else none).or (t.get m) := by
  have hinsert : ValidName n → ∀ kind id, ∃ u : Tree, ∀ m,
      u.get m = (if n = m then some ⟨n, kind, id⟩ else none).or (t.get m) := by
    intro hvalid kind id
    cases hu : insertNamed t n kind id with
    | error e => simp [insertNamed, Tree.insert, hvalid, Except.mapError] at hu
    | ok u => exact ⟨u, (insertNamed_ok_iff.mp hu).2⟩
  cases node with
  | leaf c =>
      cases c with
      | regular bytes => exact hinsert h _ _
      | special what => exact ⟨t, fun m => by simp [entryOf]⟩
  | directory below =>
      obtain ⟨hvalid, subtree, hsubtree⟩ := h
      simpa [entryOf, hsubtree, Except.toOption] using hinsert hvalid .tree ((Object.tree subtree).id sha256)

/-- The first entry of a listing, and the rest behind what it makes of a tree. -/
theorem treeOf_cons_ok_iff {name : OsName} {node : Node OsName Leaf} {rest : WorkListing} {t t' : Tree} :
    treeOf sha256 (cons name node rest) t = .ok t' ↔
      ∃ u, treeOf sha256 rest u = .ok t' ∧
        match trackedName name with
        | none => u = t
        | some n => Holdable sha256 n node ∧
            ∀ m, u.get m = (if n = m then entryOf sha256 n node else none).or (t.get m) := by
  -- a node that has no entry leaves the tree as it was
  have hself : ∀ {n : Str} {u : Tree}, (∀ m, u.get m = (if n = m then none else none).or (t.get m)) ↔ u = t := by
    intro n u
    constructor
    · exact fun h => Tree.ext_get fun m => by simpa using h m
    · rintro rfl
      simp
  cases htracked : trackedName name with
  | none =>
      have hskip : treeOf sha256 (cons name node rest) t = treeOf sha256 rest t := by
        cases node with
        | leaf c => cases c <;> simp [cons, treeOf, htracked]
        | directory below => simp [cons, treeOf, htracked]
      simp [hskip]
  | some n =>
      cases node with
      | leaf c =>
          cases c with
          | special what =>
              simp only [cons, treeOf, Holdable, entryOf, true_and, hself]
              simp
          | regular bytes =>
              simp only [cons, treeOf, htracked, Holdable, entryOf]
              simp only [← insertNamed_ok_iff]
              cases insertNamed t n .blob ((Object.blob bytes).id sha256) with
              | error e => simp
              | ok u => simp
      | directory below =>
          simp only [cons, treeOf, htracked, Holdable, entryOf]
          cases hbelow : treeOf sha256 below .new with
          | error e => simp
          | ok subtree =>
              simp only [Except.ok.injEq, exists_eq', and_true, Except.toOption, Option.map_some, ← insertNamed_ok_iff]
              cases insertNamed t n .tree ((Object.tree subtree).id sha256) with
              | error e => simp
              | ok u => simp

/-- The first entry of a listing is under no name that a snapshot takes, where it passes over it. -/
theorem get_cons_of_untracked {name : OsName} {node : Node OsName Leaf} {rest : WorkListing}
    (h : trackedName name = none) {n : Str} (hn : n ∉ controlNames) :
    (cons name node rest).get (utf8 n) = rest.get (utf8 n) := by
  rw [get_cons, if_neg]
  rintro rfl
  rw [trackedName_utf8, if_neg (by simpa using hn)] at h
  cases h

theorem entryUnder_cons_of_untracked {name : OsName} {node : Node OsName Leaf} {rest : WorkListing}
    (h : trackedName name = none) (n : Str) :
    entryUnder sha256 (cons name node rest) n = entryUnder sha256 rest n := by
  unfold entryUnder
  split
  · rfl
  · rename_i hn
    rw [get_cons_of_untracked h hn]

theorem get_cons_utf8_of_ne {m n : Str} (h : n ≠ m) (node : Node OsName Leaf) (rest : WorkListing) :
    (cons (utf8 m) node rest).get (utf8 n) = rest.get (utf8 n) := by
  rw [get_cons, if_neg fun heq => h (utf8_injective heq).symm]

/-- The entries of a listing are that of its first node, before those of the rest. -/
theorem entryUnder_cons {m : Str} (hm : m ∉ controlNames) {node : Node OsName Leaf} {rest : WorkListing}
    (hfresh : rest.get (utf8 m) = none) (n : Str) :
    entryUnder sha256 (cons (utf8 m) node rest) n =
      (if m = n then entryOf sha256 m node else none).or (entryUnder sha256 rest n) := by
  unfold entryUnder
  by_cases hn : m = n
  · subst hn
    rw [if_neg hm, if_neg hm, get_cons, if_pos rfl, hfresh]
    simp
  · rw [get_cons_utf8_of_ne (Ne.symm hn), if_neg hn, Option.none_or]

theorem holdable_cons_iff {m : Str} (hm : m ∉ controlNames) {node : Node OsName Leaf} {rest : WorkListing}
    (hfresh : rest.get (utf8 m) = none) :
    (∀ n, n ∉ controlNames → ∀ node', (cons (utf8 m) node rest).get (utf8 n) = some node' → Holdable sha256 n node') ↔
      Holdable sha256 m node ∧
        ∀ n, n ∉ controlNames → ∀ node', rest.get (utf8 n) = some node' → Holdable sha256 n node' := by
  constructor
  · refine fun hall => ⟨hall m hm node (by simp), fun n hn node' hget => hall n hn node' ?_⟩
    rw [get_cons_utf8_of_ne fun heq => by simp [← heq, hget] at hfresh]
    exact hget
  · rintro ⟨hfirst, hall⟩ n hn node' hget
    by_cases heq : n = m
    · subst heq
      rw [get_cons, if_pos rfl] at hget
      exact Option.some.inj hget ▸ hfirst
    · rw [get_cons_utf8_of_ne heq] at hget
      exact hall n hn node' hget

/-- The tree of a directory has, before what was there, the entry of everything that a tree
    can hold and a snapshot does not pass over. -/
theorem treeOf_ok_iff {l : WorkListing} (h : l.Apart) {t t' : Tree} :
    treeOf sha256 l t = .ok t' ↔
      (∀ n, n ∉ controlNames → ∀ node, l.get (utf8 n) = some node → Holdable sha256 n node) ∧
        ∀ n, t'.get n = (entryUnder sha256 l n).or (t.get n) := by
  induction l using consRec generalizing t with
  | nil =>
      simp only [treeOf, Except.ok.injEq, entryUnder, get_nil, reduceCtorEq, false_imp_iff, implies_true, true_and,
        Option.bind_none, ite_self, Option.none_or]
      exact ⟨fun heq => heq ▸ fun _ => rfl, fun hget => (Tree.ext_get hget).symm⟩
  | cons name node rest _ ih =>
      obtain ⟨hfresh, -, hrest⟩ := (apart_cons name node rest).mp h
      rw [treeOf_cons_ok_iff]
      cases htracked : trackedName name with
      | none =>
          simp only [exists_eq_right, ih hrest, entryUnder_cons_of_untracked htracked]
          exact and_congr_left' (forall₂_congr fun n hn => by rw [get_cons_of_untracked htracked hn])
      | some m =>
          obtain ⟨rfl, hm⟩ := trackedName_eq_some_iff.mp htracked
          rw [← get_eq_none_iff] at hfresh
          simp only [ih hrest, holdable_cons_iff hm hfresh, entryUnder_cons hm hfresh]
          -- the rest has no entry under the name of the first
          have hunder : entryUnder sha256 rest m = none := by simp [entryUnder, hfresh]
          have hswap : ∀ n, (entryUnder sha256 rest n).or ((if m = n then entryOf sha256 m node else none).or (t.get n)) =
              ((if m = n then entryOf sha256 m node else none).or (entryUnder sha256 rest n)).or (t.get n) := by
            intro n
            by_cases hn : m = n
            · subst hn
              simp [hunder]
            · simp [hn]
          constructor
          · rintro ⟨u, ⟨hall, hget⟩, hfirst, hu⟩
            refine ⟨⟨hfirst, hall⟩, fun n => ?_⟩
            rw [hget n, hu n, hswap]
          · rintro ⟨⟨hfirst, hall⟩, hget⟩
            obtain ⟨u, hu⟩ := exists_with_entry hfirst t
            refine ⟨u, ⟨hall, fun n => ?_⟩, hfirst, hu⟩
            rw [hget n, hu n, hswap]

/-- The tree of a directory is that of its content: the order in which the directories list
    their entries does not matter, nor does what a snapshot passes over. -/
theorem treeOf_congr {l l' : WorkListing} (h : l.Apart) (h' : l'.Apart)
    (hsame : ∀ n, n ∉ controlNames → ∀ path, contentAt (l.get (utf8 n)) path = contentAt (l'.get (utf8 n)) path)
    {t t' : Tree} (htree : treeOf sha256 l t = .ok t') : treeOf sha256 l' t = .ok t' := by
  induction l using belowRec generalizing l' t t' with
  | step l ih =>
      obtain ⟨hholdable, hget⟩ := (treeOf_ok_iff h).mp htree
      have hnode : ∀ n, n ∉ controlNames → l.get (utf8 n) = l'.get (utf8 n) ∨
          ∃ below below', l.get (utf8 n) = some (.directory below) ∧ l'.get (utf8 n) = some (.directory below') ∧
            ∀ subtree, treeOf sha256 below .new = .ok subtree → treeOf sha256 below' .new = .ok subtree := by
        intro n hn
        refine (eq_or_directories (hsame n hn)).imp_right fun ⟨below, below', hbelow, hbelow', hcontent⟩ => ?_
        refine ⟨below, below', hbelow, hbelow', fun subtree hsubtree => ?_⟩
        refine ih _ below hbelow (h.get hbelow) (h'.get hbelow') (fun m _ path => ?_) hsubtree
        rw [← content_cons_path, ← content_cons_path]
        exact hcontent _
      refine (treeOf_ok_iff h').mpr ⟨fun n hn node' hget' => ?_, fun n => ?_⟩
      · rcases hnode n hn with heq | ⟨below, below', hbelow, hbelow', hsub⟩
        · exact hholdable n hn node' (heq.trans hget')
        · rw [hget', Option.some.injEq] at hbelow'
          subst hbelow'
          obtain ⟨hvalid, subtree, hsubtree⟩ := hholdable n hn _ hbelow
          exact ⟨hvalid, subtree, hsub subtree hsubtree⟩
      · rw [hget n]
        congr 1
        unfold entryUnder
        by_cases hn : n ∈ controlNames
        · rw [if_pos hn, if_pos hn]
        · rw [if_neg hn, if_neg hn]
          rcases hnode n hn with heq | ⟨below, below', hbelow, hbelow', hsub⟩
          · rw [heq]
          · obtain ⟨-, subtree, hsubtree⟩ := hholdable n hn _ hbelow
            rw [hbelow, hbelow', Option.bind_some, Option.bind_some, entryOf, entryOf, hsubtree, hsub subtree hsubtree]

end Folder

end Omoplata
