-- SUMMARY: Directories as the lists of their entries, and their content as a file system.
import Omoplata.Lib.FileSystem

/-!
# Listings

A directory lists its entries in some order: leaves and directories under names. What
stands at a path in it does not depend on the order; two listings are of one content where
they have the same at every path.
-/

universe u v

open FileSystem

/-- The entries of a directory, in the order it lists them. -/
inductive Listing (ν : Type u) (α : Type v) where
  | nil
  | leaf (name : ν) (content : α) (rest : Listing ν α)
  | directory (name : ν) (below rest : Listing ν α)
  deriving DecidableEq

namespace Listing

/-- What a directory has under a name. -/
inductive Node (ν : Type u) (α : Type v) where
  | leaf (content : α)
  | directory (below : Listing ν α)
  deriving DecidableEq

section Defs

variable {ν : Type u} {α : Type v}

/-- List a node under a name in front of other entries. -/
def cons (name : ν) : Node ν α → Listing ν α → Listing ν α
  | .leaf c, rest => .leaf name c rest
  | .directory below, rest => .directory name below rest

def names : Listing ν α → List ν
  | nil => []
  | leaf name _ rest => name :: rest.names
  | directory name _ rest => name :: rest.names

/-- No directory lists a name twice. -/
def Apart : Listing ν α → Prop
  | nil => True
  | leaf name _ rest => name ∉ rest.names ∧ rest.Apart
  | directory name below rest => name ∉ rest.names ∧ below.Apart ∧ rest.Apart

def Node.Apart : Node ν α → Prop
  | .leaf _ => True
  | .directory below => below.Apart

/-- How deep the directories are nested. -/
def depth : Listing ν α → Nat
  | nil => 0
  | leaf _ _ rest => rest.depth
  | directory _ below rest => max (below.depth + 1) rest.depth

/-- The entries whose names pass. -/
def filter (p : ν → Bool) : Listing ν α → Listing ν α
  | nil => nil
  | leaf name c rest => if p name then leaf name c (rest.filter p) else rest.filter p
  | directory name below rest => if p name then directory name below (rest.filter p) else rest.filter p

variable [DecidableEq ν]

/-- What is listed under a name. -/
def get : Listing ν α → ν → Option (Node ν α)
  | nil, _ => none
  | leaf n c rest, name => if n = name then some (.leaf c) else rest.get name
  | directory n below rest, name => if n = name then some (.directory below) else rest.get name

/-- Put a node under a name, in the place of what is there or behind all. -/
def put : Listing ν α → ν → Node ν α → Listing ν α
  | nil, name, node => cons name node nil
  | leaf n c rest, name, node => if n = name then cons name node rest else leaf n c (rest.put name node)
  | directory n below rest, name, node =>
      if n = name then cons name node rest else directory n below (rest.put name node)

/-- What stands at a path. -/
def content (l : Listing ν α) : Volume ν α
  | [] => some .directory
  | name :: path =>
      match l.get name with
      | none => none
      | some (.leaf c) => if path = [] then some (.file c) else none
      | some (.directory below) => below.content path

/-- What stands at a path from a place. -/
def contentAt : Option (Node ν α) → Volume ν α
  | none, _ => none
  | some (.leaf c), path => if path = [] then some (.file c) else none
  | some (.directory below), path => below.content path

end Defs

/-- A listing whose directories list no name twice. -/
structure Folder (ν : Type u) (α : Type v) where
  listing : Listing ν α
  apart : listing.Apart

section

variable {ν : Type u} {α : Type v} {l : Listing ν α} {node : Node ν α} {name : ν}

/-- Induction over the entries of a listing and of the directories in it. -/
@[elab_as_elim]
theorem consRec {motive : Listing ν α → Prop} (l : Listing ν α) (nil : motive nil)
    (cons : ∀ name node rest, (∀ below, node = .directory below → motive below) → motive rest →
      motive (cons name node rest)) : motive l := by
  induction l with
  | nil => exact nil
  | leaf name c rest ih => exact cons name (.leaf c) rest nofun ih
  | directory name below rest ihbelow ih =>
      refine cons name (.directory below) rest (fun below' h => ?_) ih
      cases h
      exact ihbelow

@[simp] theorem names_cons (name : ν) (node : Node ν α) (rest : Listing ν α) :
    (cons name node rest).names = name :: rest.names := by
  cases node <;> rfl

@[simp] theorem apart_cons (name : ν) (node : Node ν α) (rest : Listing ν α) :
    (cons name node rest).Apart ↔ name ∉ rest.names ∧ node.Apart ∧ rest.Apart := by
  cases node with
  | leaf c => simp [cons, Listing.Apart, Node.Apart]
  | directory below => rfl

@[simp] theorem filter_cons (p : ν → Bool) (name : ν) (node : Node ν α) (rest : Listing ν α) :
    (cons name node rest).filter p = if p name then cons name node (rest.filter p) else rest.filter p := by
  cases node <;> rfl

theorem mem_names_filter {p : ν → Bool} : name ∈ (l.filter p).names ↔ name ∈ l.names ∧ p name = true := by
  induction l using consRec with
  | nil => simp [filter, names]
  | cons n node rest _ ih =>
      rw [filter_cons, names_cons, List.mem_cons]
      by_cases hp : p n = true
      · rw [if_pos hp, names_cons, List.mem_cons, ih]
        constructor
        · rintro (rfl | ⟨hmem, hname⟩)
          · exact ⟨.inl rfl, hp⟩
          · exact ⟨.inr hmem, hname⟩
        · rintro ⟨rfl | hmem, hname⟩
          · exact .inl rfl
          · exact .inr ⟨hmem, hname⟩
      · rw [if_neg hp, ih]
        refine ⟨fun ⟨hmem, hname⟩ => ⟨.inr hmem, hname⟩, fun ⟨hmem, hname⟩ => ⟨hmem.resolve_left ?_, hname⟩⟩
        rintro rfl
        exact hp hname

theorem Apart.filter (h : l.Apart) (p : ν → Bool) : (l.filter p).Apart := by
  induction l using consRec with
  | nil => exact h
  | cons n node rest _ ih =>
      obtain ⟨hfresh, hnode, hrest⟩ := (apart_cons n node rest).mp h
      rw [filter_cons]
      split
      · exact (apart_cons _ _ _).mpr ⟨fun hmem => hfresh (mem_names_filter.mp hmem).1, hnode, ih hrest⟩
      · exact ih hrest

variable [DecidableEq ν]

@[simp] theorem get_nil (name : ν) : (nil : Listing ν α).get name = none := rfl

@[simp] theorem get_cons (n : ν) (node : Node ν α) (rest : Listing ν α) (name : ν) :
    (cons n node rest).get name = if n = name then some node else rest.get name := by
  cases node <;> rfl

@[simp] theorem put_nil (name : ν) (node : Node ν α) : (nil : Listing ν α).put name node = cons name node nil := rfl

@[simp] theorem put_cons (n : ν) (node : Node ν α) (rest : Listing ν α) (name : ν) (node' : Node ν α) :
    (cons n node rest).put name node' =
      if n = name then cons name node' rest else cons n node (rest.put name node') := by
  cases node <;> rfl

/-- A name is listed where there is something under it. -/
theorem get_eq_none_iff : l.get name = none ↔ name ∉ l.names := by
  induction l using consRec with
  | nil => simp [names]
  | cons n node rest _ ih =>
      rw [get_cons, names_cons, List.mem_cons, not_or, ← ih]
      by_cases hn : n = name
      · simp [hn]
      · simp [hn, Ne.symm hn]

theorem get_filter (p : ν → Bool) (name : ν) : (l.filter p).get name = if p name then l.get name else none := by
  induction l using consRec with
  | nil => simp [filter]
  | cons n node rest _ ih =>
      rw [filter_cons, get_cons]
      by_cases hn : n = name
      · subst hn
        by_cases hp : p n = true <;> simp [hp, ih]
      · by_cases hp : p n = true <;> simp [hp, hn, ih]

theorem get_put (l : Listing ν α) (n : ν) (node : Node ν α) (name : ν) :
    (l.put n node).get name = if n = name then some node else l.get name := by
  induction l using consRec with
  | nil => rw [put_nil, get_cons]
  | cons m node' rest _ ih =>
      rw [put_cons, get_cons]
      by_cases hm : m = n
      · subst hm
        rw [if_pos rfl, get_cons]
        by_cases hn : m = name <;> simp [hn]
      · rw [if_neg hm, get_cons, ih]
        by_cases hn : m = name
        · have hname : n ≠ name := fun heq => hm (hn.trans heq.symm)
          simp [hn, hname]
        · simp [hn]

theorem Apart.put (h : l.Apart) (hnode : node.Apart) (name : ν) : (l.put name node).Apart := by
  induction l using consRec with
  | nil => exact (apart_cons _ _ _).mpr ⟨List.not_mem_nil, hnode, trivial⟩
  | cons n node' rest _ ih =>
      obtain ⟨hfresh, hnode', hrest⟩ := (apart_cons n node' rest).mp h
      rw [put_cons]
      split
      · rename_i hn
        exact (apart_cons _ _ _).mpr ⟨hn ▸ hfresh, hnode, hrest⟩
      · rename_i hn
        refine (apart_cons _ _ _).mpr ⟨?_, hnode', ih hrest⟩
        rw [← get_eq_none_iff, get_put, if_neg (Ne.symm hn), get_eq_none_iff]
        exact hfresh

/-- What a listing has under a name is apart where the listing is. -/
theorem Apart.get (h : l.Apart) (hget : l.get name = some node) : node.Apart := by
  induction l using consRec with
  | nil => cases hget
  | cons n node' rest _ ih =>
      obtain ⟨-, hnode, hrest⟩ := (apart_cons n node' rest).mp h
      rw [get_cons] at hget
      split at hget
      · exact Option.some.inj hget ▸ hnode
      · exact ih hrest hget

theorem depth_lt_of_get {below : Listing ν α} (h : l.get name = some (.directory below)) : below.depth < l.depth := by
  induction l with
  | nil => cases h
  | leaf n c rest ih =>
      unfold get at h
      split at h
      · cases h
      · exact ih h
  | directory n below' rest _ ih =>
      unfold get at h
      split at h
      · cases h
        exact Nat.lt_of_lt_of_le (Nat.lt_succ_self _) (Nat.le_max_left _ _)
      · exact Nat.lt_of_lt_of_le (ih h) (Nat.le_max_right _ _)

/-- Induction over the directories of a listing. -/
@[elab_as_elim]
theorem belowRec {motive : Listing ν α → Prop} (l : Listing ν α)
    (step : ∀ l, (∀ name below, l.get name = some (.directory below) → motive below) → motive l) : motive l := by
  suffices h : ∀ n, ∀ l : Listing ν α, l.depth < n → motive l from h _ l (Nat.lt_succ_self _)
  intro n
  induction n with
  | zero => exact fun l hl => absurd hl (Nat.not_lt_zero _)
  | succ n ih =>
      refine fun l hl => step l fun name below hget => ih below ?_
      have := depth_lt_of_get hget
      omega

/-! ## Content -/

@[simp] theorem content_nil_path : l.content [] = some .directory := by
  unfold content
  rfl

@[simp] theorem content_cons_path (name : ν) (path : List ν) : l.content (name :: path) = contentAt (l.get name) path := by
  rw [content.eq_def]
  cases hget : l.get name with
  | none => simp [hget, contentAt]
  | some node => cases node <;> simp [hget, contentAt]

@[simp] theorem contentAt_none (path : List ν) : contentAt (none : Option (Node ν α)) path = none := by
  cases path <;> rfl

@[simp] theorem contentAt_directory (below : Listing ν α) (path : List ν) :
    contentAt (some (.directory below)) path = below.content path := by
  cases path <;> rfl

theorem contentAt_leaf (c : α) (path : List ν) :
    contentAt (some (.leaf c) : Option (Node ν α)) path = if path = [] then some (.file c) else none := by
  cases path <;> rfl

/-- Something stands at a place exactly where the place is not empty. -/
theorem contentAt_nil_eq_none_iff {place : Option (Node ν α)} : contentAt place [] = none ↔ place = none := by
  cases place with
  | none => simp
  | some node => cases node <;> simp [contentAt_leaf]

/-- A leaf is told by its content. -/
theorem contentAt_eq_leaf_iff {place : Option (Node ν α)} {c : α} :
    contentAt place [] = some (.file c) ↔ place = some (.leaf c) := by
  cases place with
  | none => simp
  | some node => cases node <;> simp [contentAt_leaf]

theorem exists_directory {place : Option (Node ν α)} (h : contentAt place [] = some .directory) :
    ∃ below, place = some (.directory below) := by
  cases place with
  | none => cases h
  | some node =>
      cases node with
      | leaf c => simp [contentAt_leaf] at h
      | directory below => exact ⟨below, rfl⟩

/-- Places of one content are the same, or directories of one content. -/
theorem eq_or_directories {p p' : Option (Node ν α)} (h : ∀ path, contentAt p path = contentAt p' path) :
    p = p' ∨ ∃ below below', p = some (.directory below) ∧ p' = some (.directory below') ∧
      ∀ path, below.content path = below'.content path := by
  have hroot := h []
  cases p with
  | none =>
      rw [contentAt_none] at hroot
      exact .inl (contentAt_nil_eq_none_iff.mp hroot.symm).symm
  | some node =>
      cases node with
      | leaf c =>
          rw [contentAt_leaf, if_pos rfl] at hroot
          exact .inl (contentAt_eq_leaf_iff.mp hroot.symm).symm
      | directory below =>
          cases p' with
          | none => simp at hroot
          | some node' =>
              cases node' with
              | leaf c => simp [contentAt_leaf] at hroot
              | directory below' =>
                  refine .inr ⟨below, below', rfl, rfl, fun path => ?_⟩
                  have hpath := h path
                  rwa [contentAt_directory, contentAt_directory] at hpath

end

end Listing
