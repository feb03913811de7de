-- SUMMARY: Files put in place through temporary siblings: what deaths, power losses and readers find.
import Mathlib.Data.List.Infix
import Mathlib.Logic.Function.Basic
import Mathlib.Logic.Relation

/-!
# Staged writes

A call creates a temporary file, writes it piece by piece, syncs it, renames it onto its
target, and syncs the directory. Calls interleave at each of these steps, any of them may
stop at any of them, and the power may go: then a directory falls back to what it was at some
moment since it was last synced, and what has not been synced of a file is lost.

Whoever opens a target reads what one call has written, all of it.
-/

open Relation

universe u

namespace Staged

variable {δ ν β ι κ ρ : Type u}

/-! ## Directories -/

/-- What the names of a directory stand for, and the calls that have put files in place there. -/
structure Listing (ν β ι : Type u) where
  entry : ν → Option Nat
  published : List (ι × List β)

/-- A directory. Its files are numbered. `older` lists what it has been since it was last synced. -/
structure Folder (ν β ι : Type u) where
  content : Nat → List β
  synced : Nat → Bool
  next : Nat
  now : Listing ν β ι
  older : List (Listing ν β ι)

namespace Folder

def empty : Folder ν β ι := ⟨fun _ => [], fun _ => false, 0, ⟨fun _ => none, []⟩, []⟩

/-- Everything the directory may fall back to. -/
def listings (f : Folder ν β ι) : List (Listing ν β ι) := f.now :: f.older

/-- What a file holds, by its name. -/
def lookup (f : Folder ν β ι) (name : ν) : Option (List β) := (f.now.entry name).map f.content

/-- Change what a file holds. -/
def write (f : Folder ν β ι) (file : Nat) (bytes : List β) : Folder ν β ι :=
  { f with content := Function.update f.content file bytes, synced := Function.update f.synced file false }

/-- Sync a file. -/
def sync (f : Folder ν β ι) (file : Nat) : Folder ν β ι :=
  { f with synced := Function.update f.synced file true }

/-- Change what the names stand for. -/
def turn (f : Folder ν β ι) (listing : Listing ν β ι) : Folder ν β ι := { f with now := listing, older := f.listings }

/-- Sync the directory. -/
def syncDir (f : Folder ν β ι) : Folder ν β ι := { f with older := [] }

@[simp] theorem write_content (f : Folder ν β ι) (file : Nat) (bytes : List β) :
    (f.write file bytes).content = Function.update f.content file bytes := rfl

@[simp] theorem sync_synced (f : Folder ν β ι) (file : Nat) :
    (f.sync file).synced = Function.update f.synced file true := rfl

@[simp] theorem turn_now (f : Folder ν β ι) (listing : Listing ν β ι) : (f.turn listing).now = listing := rfl

variable [DecidableEq ν]

/-- Let a name stand for a new file. -/
def link (f : Folder ν β ι) (name : ν) : Folder ν β ι :=
  { f.turn { f.now with entry := Function.update f.now.entry name (some f.next) } with next := f.next + 1 }

/-- Open a file for writing, new or emptied. -/
def create (f : Folder ν β ι) (name : ν) : Nat × Folder ν β ι :=
  match f.now.entry name with
  | some file => (file, f.write file [])
  | none => (f.next, (f.link name).write f.next [])

/-- Rename a file over whatever stands at the new name. -/
def rename (f : Folder ν β ι) (source target : ν) (call : ι × List β) : Option (Folder ν β ι) :=
  match f.now.entry source with
  | none => none
  | some file =>
      some (f.turn ⟨Function.update (Function.update f.now.entry source none) target (some file),
        f.now.published ++ [call]⟩)

@[simp] theorem link_entry (f : Folder ν β ι) (name : ν) :
    (f.link name).now.entry = Function.update f.now.entry name (some f.next) := rfl

/-- What a power loss may leave: some listing, and of the files what has been synced. -/
structure Survives (f f' : Folder ν β ι) : Prop where
  now : f'.now ∈ f.listings
  older : f'.older = []
  next : f'.next = f.next
  content : ∀ file, f.synced file = true → f'.content file = f.content file ∧ f'.synced file = true

end Folder

/-! ## Calls and readers -/

/-- How far a call has come. -/
inductive Stage (β : Type u) where
  | outside
  | writing (file : Nat) (bytes rest : List β)
  | synced (file : Nat) (bytes : List β)
  | renamed (bytes : List β)
  | returned (bytes : List β) (durable : Bool)
  | found
  | stopped

/-- The temporary file of a call. -/
def Stage.file? : Stage β → Option Nat
  | writing file _ _ | synced file _ => some file
  | _ => none

/-- A call has begun to write its temporary file. -/
def Stage.Stages (bytes : List β) : Stage β → Prop
  | writing _ bytes' _ | synced _ bytes' => bytes' = bytes
  | _ => False

/-- Whether a call is under way. -/
def Stage.isOpen : Stage β → Bool
  | writing _ _ _ | synced _ _ | renamed _ => true
  | _ => false

/-- What a power loss leaves to say about a call. -/
def Stage.afterLoss (kept : Bool) : Stage β → Stage β
  | outside => outside
  | returned bytes true => if kept then returned bytes true else stopped
  | _ => stopped

/-- How far a reader has come. `full` is what the file held when it was opened. -/
inductive Reader (δ ν β : Type u) where
  | idle
  | reading (dir : δ) (name : ν) (file : Nat) (full got : List β)
  | done (dir : δ) (name : ν) (full got : List β)

def Reader.afterLoss : Reader δ ν β → Reader δ ν β
  | reading _ _ _ _ _ => idle
  | reader => reader

/-- The calls of a system: where each writes, under which temporary name, and what it may write.
    Calls of one `owner` are never under way together. `kept` marks the directories that are
    themselves synced, `skips` says whether a call leaves a target that is there. -/
structure Config (δ ν β ι κ : Type u) where
  dir : ι → δ
  target : ι → ν
  temp : ι → ν
  owner : ι → κ
  goal : ι → List β → Prop
  kept : δ → Bool
  skips : Bool

/-- Temporary names are no targets, and tell owners apart. -/
structure Config.Lawful (cfg : Config δ ν β ι κ) : Prop where
  temp_ne : ∀ i j, cfg.temp i ≠ cfg.target j
  owner_eq : ∀ i j, cfg.temp i = cfg.temp j → cfg.owner i = cfg.owner j

/-- The names that readers open. -/
def Config.IsPlain (cfg : Config δ ν β ι κ) (name : ν) : Prop := ∀ i, cfg.temp i ≠ name

structure System (δ ν β ι ρ : Type u) where
  folder : δ → Option (Folder ν β ι)
  stage : ι → Stage β
  reader : ρ → Reader δ ν β

namespace System

/-- What a file of a directory holds. -/
def lookup (s : System δ ν β ι ρ) (d : δ) (name : ν) : Option (List β) := (s.folder d).bind (·.lookup name)

variable [DecidableEq δ] [DecidableEq ι]

/-- A call moves on. -/
def move (s : System δ ν β ι ρ) (i : ι) (stage : Stage β) : System δ ν β ι ρ :=
  { s with stage := Function.update s.stage i stage }

/-- A call moves on and changes a directory. -/
def act (s : System δ ν β ι ρ) (i : ι) (dir : δ) (f : Folder ν β ι) (stage : Stage β) : System δ ν β ι ρ :=
  { s.move i stage with folder := Function.update s.folder dir (some f) }

@[simp] theorem act_stage (s : System δ ν β ι ρ) (i : ι) (d : δ) (f : Folder ν β ι) (stage : Stage β) :
    (s.act i d f stage).stage i = stage := Function.update_self ..

@[simp] theorem act_folder (s : System δ ν β ι ρ) (i : ι) (d : δ) (f : Folder ν β ι) (stage : Stage β) :
    (s.act i d f stage).folder d = some f := Function.update_self ..

/-- A reader moves on. -/
def look [DecidableEq ρ] (s : System δ ν β ι ρ) (r : ρ) (reader : Reader δ ν β) : System δ ν β ι ρ :=
  { s with reader := Function.update s.reader r reader }

end System

/-- What a power loss may leave of a system. Directories that are not kept may be lost. -/
structure Loses (cfg : Config δ ν β ι κ) (s s' : System δ ν β ι ρ) : Prop where
  absent : ∀ d, s.folder d = none → s'.folder d = none
  folder : ∀ d f, s.folder d = some f →
    (∃ f', s'.folder d = some f' ∧ f.Survives f') ∨ cfg.kept d = false ∧ s'.folder d = none
  stage : ∀ i, s'.stage i = (s.stage i).afterLoss (cfg.kept (cfg.dir i))
  reader : ∀ r, s'.reader r = (s.reader r).afterLoss

section

variable [DecidableEq δ] [DecidableEq ν] [DecidableEq ι] [DecidableEq ρ]

/-- A call works on its temporary file. -/
inductive Works (cfg : Config δ ν β ι κ) (s : System δ ν β ι ρ) (i : ι) : System δ ν β ι ρ → Prop
  | write (file : Nat) (bytes chunk rest : List β) (f : Folder ν β ι)
      (hi : s.stage i = .writing file bytes (chunk ++ rest)) (hf : s.folder (cfg.dir i) = some f) :
      Works cfg s i (s.act i (cfg.dir i) (f.write file (f.content file ++ chunk)) (.writing file bytes rest))
  | sync (file : Nat) (bytes : List β) (f : Folder ν β ι) (hi : s.stage i = .writing file bytes [])
      (hf : s.folder (cfg.dir i) = some f) : Works cfg s i (s.act i (cfg.dir i) (f.sync file) (.synced file bytes))

/-- A reader goes on, a piece at a time up to the end of the file. -/
inductive Looks (cfg : Config δ ν β ι κ) (s : System δ ν β ι ρ) (r : ρ) : Reader δ ν β → Prop
  | opens (d : δ) (name : ν) (file : Nat) (f : Folder ν β ι) (hname : cfg.IsPlain name)
      (hf : s.folder d = some f) (hfile : f.now.entry name = some file) :
      Looks cfg s r (.reading d name file (f.content file) [])
  | reads (d : δ) (name : ν) (file : Nat) (full got chunk : List β) (f : Folder ν β ι)
      (hr : s.reader r = .reading d name file full got) (hf : s.folder d = some f)
      (hchunk : got ++ chunk <+: f.content file) : Looks cfg s r (.reading d name file full (got ++ chunk))
  | closes (d : δ) (name : ν) (file : Nat) (full got : List β) (f : Folder ν β ι)
      (hr : s.reader r = .reading d name file full got) (hf : s.folder d = some f)
      (hend : (f.content file).length ≤ got.length) : Looks cfg s r (.done d name full got)

/-- The steps of calls and of readers. -/
inductive Acts (cfg : Config δ ν β ι κ) (s : System δ ν β ι ρ) : System δ ν β ι ρ → Prop
  | mkdir (d : δ) (hd : s.folder d = none) :
      Acts cfg s { s with folder := Function.update s.folder d (some .empty) }
  | found (i : ι) (f : Folder ν β ι) (hi : s.stage i = .outside) (hskips : cfg.skips)
      (hf : s.folder (cfg.dir i) = some f) (hthere : (f.lookup (cfg.target i)).isSome) : Acts cfg s (s.move i .found)
  | create (i : ι) (bytes : List β) (f : Folder ν β ι) (hi : s.stage i = .outside) (hgoal : cfg.goal i bytes)
      (hf : s.folder (cfg.dir i) = some f) (hfree : ∀ j, (s.stage j).isOpen → cfg.owner j ≠ cfg.owner i) :
      Acts cfg s (s.act i (cfg.dir i) (f.create (cfg.temp i)).2 (.writing (f.create (cfg.temp i)).1 bytes bytes))
  | work (i : ι) (s' : System δ ν β ι ρ) (h : Works cfg s i s') : Acts cfg s s'
  | rename (i : ι) (file : Nat) (bytes : List β) (f f' : Folder ν β ι) (hi : s.stage i = .synced file bytes)
      (hf : s.folder (cfg.dir i) = some f) (hrename : f.rename (cfg.temp i) (cfg.target i) (i, bytes) = some f') :
      Acts cfg s (s.act i (cfg.dir i) f' (.renamed bytes))
  | syncDir (i : ι) (bytes : List β) (f : Folder ν β ι) (hi : s.stage i = .renamed bytes)
      (hf : s.folder (cfg.dir i) = some f) : Acts cfg s (s.act i (cfg.dir i) f.syncDir (.returned bytes true))
  | leave (i : ι) (bytes : List β) (hi : s.stage i = .renamed bytes) : Acts cfg s (s.move i (.returned bytes false))
  | stop (i : ι) (hi : (s.stage i).isOpen) : Acts cfg s (s.move i .stopped)
  | look (r : ρ) (reader : Reader δ ν β) (h : Looks cfg s r reader) : Acts cfg s (s.look r reader)

/-- The steps of a system that may lose its power. -/
inductive Step (cfg : Config δ ν β ι κ) (s : System δ ν β ι ρ) : System δ ν β ι ρ → Prop
  | acts (s' : System δ ν β ι ρ) (h : Acts cfg s s') : Step cfg s s'
  | powerLoss (s' : System δ ν β ι ρ) (h : Loses cfg s s') : Step cfg s s'

end

/-! ## What holds in every state -/

variable [DecidableEq ν]

section Defs

variable (cfg : Config δ ν β ι κ)

/-- What the calls that have published leave at each name. -/
def Config.puts (base : ν → Option (List β)) (published : List (ι × List β)) : ν → Option (List β) :=
  published.foldl (fun shown call => Function.update shown (cfg.target call.1) (some call.2)) base

/-- What may stand at a name: what stood there, or what a call for this name writes. -/
def Config.Complete (base : δ → ν → Option (List β)) (d : δ) (name : ν) (bytes : List β) : Prop :=
  base d name = some bytes ∨ ∃ i, cfg.dir i = d ∧ cfg.target i = name ∧ cfg.goal i bytes

/-- Whatever a directory falls back to shows at each target what the calls published there have
    written, and no file at a target is a temporary file as well. -/
structure Sound (base : ν → Option (List β)) (d : δ) (f : Folder ν β ι) : Prop where
  injective : ∀ v ∈ f.listings, ∀ n m file, v.entry n = some file → v.entry m = some file → n = m
  below : ∀ v ∈ f.listings, ∀ n file, v.entry n = some file → file < f.next
  shows : ∀ v ∈ f.listings, ∀ n, cfg.IsPlain n → (v.entry n).map f.content = cfg.puts base v.published n
  settled : ∀ v ∈ f.listings, ∀ n file, cfg.IsPlain n → v.entry n = some file → f.synced file = true
  hidden : ∀ v ∈ f.listings, ∀ n file, cfg.IsPlain n → v.entry n = some file →
    ∀ i, f.now.entry (cfg.temp i) ≠ some file
  goals : ∀ v ∈ f.listings, ∀ i bytes, (i, bytes) ∈ v.published → cfg.dir i = d ∧ cfg.goal i bytes
  earlier : ∀ v ∈ f.listings, v.published <+: f.now.published

/-- What the others rely on when a call changes a directory. -/
structure Grows (i : ι) (f f' : Folder ν β ι) : Prop where
  next : f.next ≤ f'.next
  entry : ∀ j, cfg.temp j ≠ cfg.temp i → f'.now.entry (cfg.temp j) = f.now.entry (cfg.temp j)
  content : ∀ file, file < f.next → f.now.entry (cfg.temp i) ≠ some file →
    f'.content file = f.content file ∧ (f.synced file = true → f'.synced file = true)
  temps : ∀ j file, file < f.next → f'.now.entry (cfg.temp j) = some file → f.now.entry (cfg.temp j) = some file
  published : ∀ call ∈ f.now.published, call ∈ f'.now.published
  listings : ∀ call, (∀ v ∈ f.listings, call ∈ v.published) → ∀ v ∈ f'.listings, call ∈ v.published
  lookup : ∀ n, cfg.IsPlain n → (f.lookup n).isSome → (f'.lookup n).isSome

/-- What a call at a stage knows. -/
def Fits (s : System δ ν β ι ρ) (i : ι) : Stage β → Prop
  | .outside | .stopped => True
  | .writing file bytes rest =>
      ∃ f, s.folder (cfg.dir i) = some f ∧ f.now.entry (cfg.temp i) = some file ∧ cfg.goal i bytes ∧
        f.content file ++ rest = bytes
  | .synced file bytes =>
      ∃ f, s.folder (cfg.dir i) = some f ∧ f.now.entry (cfg.temp i) = some file ∧ cfg.goal i bytes ∧
        f.content file = bytes ∧ f.synced file = true
  | .renamed bytes => ∃ f, s.folder (cfg.dir i) = some f ∧ (i, bytes) ∈ f.now.published
  | .returned bytes durable =>
      ∃ f, s.folder (cfg.dir i) = some f ∧ (i, bytes) ∈ f.now.published ∧
        (durable = true → ∀ v ∈ f.listings, (i, bytes) ∈ v.published)
  | .found => ∃ f, s.folder (cfg.dir i) = some f ∧ (f.lookup (cfg.target i)).isSome

/-- What a reader knows. -/
def Reader.Fits (base : δ → ν → Option (List β)) (s : System δ ν β ι ρ) : Reader δ ν β → Prop
  | .idle => True
  | .reading d name file full got =>
      cfg.Complete base d name full ∧ got <+: full ∧
        ∃ f, s.folder d = some f ∧ f.content file = full ∧ file < f.next ∧ ∀ i, f.now.entry (cfg.temp i) ≠ some file
  | .done d name full got => cfg.Complete base d name full ∧ got = full

/-- What holds in every state of a run. -/
structure Inv (base : δ → ν → Option (List β)) (s : System δ ν β ι ρ) : Prop where
  sound : ∀ d f, s.folder d = some f → Sound cfg (base d) d f
  kept : ∀ d, cfg.kept d = true → (s.folder d).isSome
  lost : ∀ d, cfg.kept d = false → base d = fun _ => none
  owners : ∀ i j, (s.stage i).isOpen → (s.stage j).isOpen → cfg.owner i = cfg.owner j → i = j
  stage : ∀ i, Fits cfg s i (s.stage i)
  reader : ∀ r, (s.reader r).Fits cfg base s

/-- A system in which no call has begun and no reader looks. The directories that are there are kept,
    and what they hold is on the disk. -/
structure Fresh (base : δ → ν → Option (List β)) (s : System δ ν β ι ρ) : Prop where
  stage : ∀ i, s.stage i = .outside
  reader : ∀ r, s.reader r = .idle
  kept : ∀ d, cfg.kept d = (s.folder d).isSome
  lost : ∀ d, s.folder d = none → base d = fun _ => none
  older : ∀ d f, s.folder d = some f → f.older = []
  published : ∀ d f, s.folder d = some f → f.now.published = []
  injective : ∀ d f, s.folder d = some f → ∀ n m file,
    f.now.entry n = some file → f.now.entry m = some file → n = m
  below : ∀ d f, s.folder d = some f → ∀ n file, f.now.entry n = some file → file < f.next ∧ f.synced file = true
  shows : ∀ d f, s.folder d = some f → ∀ n, cfg.IsPlain n → f.lookup n = base d n

end Defs

variable {cfg : Config δ ν β ι κ}

/-! ## What is published -/

namespace Folder

/-- Nothing is published. -/
structure Quiet (f f' : Folder ν β ι) : Prop where
  now : f'.now.published = f.now.published
  listings : ∀ v ∈ f'.listings, ∃ w ∈ f.listings, w.published = v.published

omit [DecidableEq ν] in
theorem quiet_of_listings {f f' : Folder ν β ι} (hnow : f'.now = f.now) (holder : ∀ v ∈ f'.older, v ∈ f.older) :
    Quiet f f' where
  now := congrArg Listing.published hnow
  listings v hv := by
    cases List.mem_cons.mp hv with
    | inl heq => exact ⟨f.now, List.mem_cons_self, by rw [heq, hnow]⟩
    | inr hold => exact ⟨v, List.mem_cons_of_mem _ (holder v hold), rfl⟩

theorem quiet_create (f : Folder ν β ι) (name : ν) : Quiet f (f.create name).2 := by
  unfold create
  split
  · exact quiet_of_listings rfl fun _ hv => hv
  · refine ⟨rfl, fun v hv => ?_⟩
    cases List.mem_cons.mp hv with
    | inl heq => exact ⟨f.now, List.mem_cons_self, heq ▸ rfl⟩
    | inr hold => exact ⟨v, hold, rfl⟩

/-- A file that has been opened for writing is empty, and has its name. -/
theorem create_spec (f : Folder ν β ι) (name : ν) :
    (f.create name).2.now.entry name = some (f.create name).1 ∧ (f.create name).2.content (f.create name).1 = [] := by
  unfold create
  split
  · rename_i file hfile
    exact ⟨hfile, by simp⟩
  · exact ⟨Function.update_self .., by simp⟩

theorem rename_of_entry {f : Folder ν β ι} {source : ν} (target : ν) (call : ι × List β) {file : Nat}
    (h : f.now.entry source = some file) :
    ∃ f', f.rename source target call = some f' ∧ f'.lookup target = some (f.content file) := by
  unfold rename
  rw [h]
  refine ⟨_, rfl, ?_⟩
  unfold lookup
  simp [turn]

theorem rename_published {f f' : Folder ν β ι} {source target : ν} {call : ι × List β}
    (h : f.rename source target call = some f') :
    f'.now.published = f.now.published ++ [call] ∧ f'.older = f.listings := by
  unfold rename at h
  split at h
  · cases h
  · cases h
    exact ⟨rfl, rfl⟩

end Folder

/-- No call is under way after a power loss. -/
theorem Stage.isOpen_afterLoss (kept : Bool) (stage : Stage β) : (stage.afterLoss kept).isOpen = false := by
  unfold Stage.afterLoss
  split
  · rfl
  · split <;> rfl
  · rfl

omit [DecidableEq ν] in
/-- What work on a temporary file is. -/
theorem Works.exists_act [DecidableEq δ] [DecidableEq ι] {cfg : Config δ ν β ι κ} {s s' : System δ ν β ι ρ} {i : ι}
    (h : Works cfg s i s') :
    ∃ f f' stage bytes, s.folder (cfg.dir i) = some f ∧ s' = s.act i (cfg.dir i) f' stage ∧ f.Quiet f' ∧
      (s.stage i).Stages bytes ∧ stage.Stages bytes := by
  cases h with
  | write file bytes chunk rest f hi hf =>
      exact ⟨f, _, _, bytes, hf, rfl, Folder.quiet_of_listings rfl fun _ hv => hv, by rw [hi]; rfl, rfl⟩
  | sync file bytes f hi hf =>
      exact ⟨f, _, _, bytes, hf, rfl, Folder.quiet_of_listings rfl fun _ hv => hv, by rw [hi]; rfl, rfl⟩

theorem Stage.Stages.unique {stage : Stage β} {bytes bytes' : List β} (h : stage.Stages bytes)
    (h' : stage.Stages bytes') : bytes = bytes' := by
  cases stage with
  | writing file b rest => exact h.symm.trans h'
  | synced file b => exact h.symm.trans h'
  | outside => cases h
  | renamed b => cases h
  | returned b durable => cases h
  | found => cases h
  | stopped => cases h

theorem Stage.stages_of_file {stage : Stage β} (h : stage.file?.isSome) : stage.isOpen ∧ ∃ bytes, stage.Stages bytes := by
  cases stage with
  | writing file bytes rest => exact ⟨rfl, bytes, rfl⟩
  | synced file bytes => exact ⟨rfl, bytes, rfl⟩
  | outside => cases h
  | renamed bytes => cases h
  | returned bytes durable => cases h
  | found => cases h
  | stopped => cases h

/-! ## Directories stay sound -/

theorem Config.puts_append (base : ν → Option (List β)) (published : List (ι × List β)) (call : ι × List β) :
    cfg.puts base (published ++ [call]) =
      Function.update (cfg.puts base published) (cfg.target call.1) (some call.2) := by
  unfold Config.puts
  rw [List.foldl_append]
  rfl

/-- What published calls leave at a name is there from the start, or of a call for the name. -/
theorem Config.puts_eq_some {base : ν → Option (List β)} {published : List (ι × List β)} {name : ν}
    {bytes : List β} (h : cfg.puts base published name = some bytes) :
    base name = some bytes ∨ ∃ i, (i, bytes) ∈ published ∧ cfg.target i = name := by
  induction published using List.reverseRecOn with
  | nil => exact .inl h
  | append_singleton published call ih =>
      rw [Config.puts_append, Function.update_apply] at h
      split at h
      · rename_i heq
        cases h
        exact .inr ⟨call.1, by simp, heq.symm⟩
      · cases ih h with
        | inl hbase => exact .inl hbase
        | inr hcall =>
            obtain ⟨i, hi, htarget⟩ := hcall
            exact .inr ⟨i, List.mem_append_left _ hi, htarget⟩

/-- More calls take nothing away. -/
theorem Config.puts_isSome_append {base : ν → Option (List β)} {published : List (ι × List β)} {name : ν}
    (later : List (ι × List β)) (h : (cfg.puts base published name).isSome) :
    (cfg.puts base (published ++ later) name).isSome := by
  induction later using List.reverseRecOn with
  | nil => rwa [List.append_nil]
  | append_singleton later call ih =>
      rw [← List.append_assoc, Config.puts_append, Function.update_apply]
      split
      · rfl
      · exact ih

/-- The target of a published call is there. -/
theorem Config.puts_isSome {base : ν → Option (List β)} {published : List (ι × List β)} {call : ι × List β}
    (h : call ∈ published) : (cfg.puts base published (cfg.target call.1)).isSome := by
  induction published using List.reverseRecOn with
  | nil => cases h
  | append_singleton published last ih =>
      rw [Config.puts_append, Function.update_apply]
      split
      · rfl
      · rename_i hne
        cases List.mem_append.mp h with
        | inl hin => exact ih hin
        | inr hlast => exact absurd (by rw [List.mem_singleton.mp hlast]) hne

namespace Sound

variable {base : ν → Option (List β)} {d : δ} {f f' : Folder ν β ι}

theorem empty (d : δ) : Sound cfg (fun _ => none) d (.empty : Folder ν β ι) := by
  have hnow : ∀ v ∈ (Folder.empty : Folder ν β ι).listings, v = ⟨fun _ => none, []⟩ := by
    intro v hv
    exact List.mem_singleton.mp hv
  refine ⟨?_, ?_, ?_, ?_, ?_, ?_, ?_⟩
  all_goals
    intro v hv
    rw [hnow v hv]
    simp [Config.puts, Folder.empty]

/-- Changing a file that no target has stood for. -/
theorem write (h : Sound cfg base d f) {file : Nat} (bytes : List β)
    (hfile : ∀ v ∈ f.listings, ∀ n, cfg.IsPlain n → v.entry n ≠ some file) : Sound cfg base d (f.write file bytes) where
  injective := h.injective
  below := h.below
  shows v hv n hn := by
    rw [← h.shows v hv n hn]
    cases hentry : v.entry n with
    | none => rfl
    | some k =>
        have hne : k ≠ file := fun heq => hfile v hv n hn (heq ▸ hentry)
        simp [Function.update_of_ne hne]
  settled v hv n k hn hentry := by
    have hne : k ≠ file := fun heq => hfile v hv n hn (heq ▸ hentry)
    unfold Folder.write
    simp only [Function.update_of_ne hne]
    exact h.settled v hv n k hn hentry
  hidden := h.hidden
  goals := h.goals
  earlier := h.earlier

theorem not_mem_of_temp (h : Sound cfg base d f) {i : ι} {file : Nat} (hfile : f.now.entry (cfg.temp i) = some file) :
    ∀ v ∈ f.listings, ∀ n, cfg.IsPlain n → v.entry n ≠ some file := by
  intro v hv n hn hentry
  exact h.hidden v hv n file hn hentry i hfile

theorem sync (h : Sound cfg base d f) (file : Nat) : Sound cfg base d (f.sync file) where
  injective := h.injective
  below := h.below
  shows := h.shows
  settled v hv n k hn hentry := by
    unfold Folder.sync
    simp only [Function.update_apply]
    split
    · rfl
    · exact h.settled v hv n k hn hentry
  hidden := h.hidden
  goals := h.goals
  earlier := h.earlier

theorem syncDir (h : Sound cfg base d f) : Sound cfg base d f.syncDir := by
  have hmem : ∀ v ∈ f.syncDir.listings, v ∈ f.listings := by
    intro v hv
    rw [List.mem_singleton.mp hv]
    exact List.mem_cons_self
  exact ⟨fun v hv => h.injective v (hmem v hv), fun v hv => h.below v (hmem v hv), fun v hv => h.shows v (hmem v hv),
    fun v hv => h.settled v (hmem v hv), fun v hv => h.hidden v (hmem v hv), fun v hv => h.goals v (hmem v hv),
    fun v hv => h.earlier v (hmem v hv)⟩

/-- Changing what the names stand for, so that no file a target has stood for gets a temporary name. -/
theorem turn (h : Sound cfg base d f) {v : Listing ν β ι}
    (hinjective : ∀ n m file, v.entry n = some file → v.entry m = some file → n = m)
    (hbelow : ∀ n file, v.entry n = some file → file < f.next)
    (hshows : ∀ n, cfg.IsPlain n → (v.entry n).map f.content = cfg.puts base v.published n)
    (hsettled : ∀ n file, cfg.IsPlain n → v.entry n = some file → f.synced file = true)
    (htemps : ∀ i file, v.entry (cfg.temp i) = some file → ∀ w ∈ f.listings, ∀ n, cfg.IsPlain n → w.entry n ≠ some file)
    (hgoals : ∀ i bytes, (i, bytes) ∈ v.published → cfg.dir i = d ∧ cfg.goal i bytes)
    (hearlier : f.now.published <+: v.published) : Sound cfg base d (f.turn v) where
  injective := List.forall_mem_cons.mpr ⟨hinjective, h.injective⟩
  below := List.forall_mem_cons.mpr ⟨hbelow, h.below⟩
  shows := List.forall_mem_cons.mpr ⟨hshows, h.shows⟩
  settled := List.forall_mem_cons.mpr ⟨hsettled, h.settled⟩
  hidden := by
    refine List.forall_mem_cons.mpr ⟨fun n file hn hfile i hi => ?_, fun w hw n file hn hfile i hi => ?_⟩
    · exact hn i (hinjective _ _ file hi hfile)
    · exact htemps i file hi w hw n hn hfile
  goals := List.forall_mem_cons.mpr ⟨hgoals, h.goals⟩
  earlier := List.forall_mem_cons.mpr ⟨List.prefix_rfl, fun w hw => (h.earlier w hw).trans hearlier⟩

/-- Letting a temporary name stand for a new file. -/
theorem link (h : Sound cfg base d f) {i : ι} : Sound cfg base d (f.link (cfg.temp i)) := by
  have hnow := h.below f.now List.mem_cons_self
  -- only the temporary name leads to the new file
  have hentry : ∀ n k, Function.update f.now.entry (cfg.temp i) (some f.next) n = some k →
      (n = cfg.temp i ∧ k = f.next) ∨ (f.now.entry n = some k ∧ k < f.next) := by
    intro n k hk
    rw [Function.update_apply] at hk
    split at hk
    · exact .inl ⟨‹_›, (Option.some.inj hk).symm⟩
    · exact .inr ⟨hk, hnow n k hk⟩
  have hplain : ∀ n, cfg.IsPlain n → Function.update f.now.entry (cfg.temp i) (some f.next) n = f.now.entry n :=
    fun n hn => Function.update_of_ne (Ne.symm (hn i)) ..
  have hmore : Sound cfg base d { f with next := f.next + 1 } :=
    ⟨h.injective, fun v hv n k hk => Nat.lt_succ_of_lt (h.below v hv n k hk), h.shows, h.settled, h.hidden, h.goals,
      h.earlier⟩
  refine hmore.turn (fun n m k hn hm => ?_) (fun n k hk => ?_) (fun n hn => ?_) (fun n k hn hk => ?_)
    (fun j k hk w hw n hn hwk => ?_) (h.goals f.now List.mem_cons_self) List.prefix_rfl
  · cases hentry n k hn with
    | inl hn =>
        cases hentry m k hm with
        | inl hm => rw [hn.1, hm.1]
        | inr hm => exact absurd hm.2 (by simp [hn.2])
    | inr hn =>
        cases hentry m k hm with
        | inl hm => exact absurd hn.2 (by simp [hm.2])
        | inr hm => exact h.injective f.now List.mem_cons_self n m k hn.1 hm.1
  · cases hentry n k hk with
    | inl hnew => exact hnew.2 ▸ Nat.lt_succ_self _
    | inr hold => exact Nat.lt_succ_of_lt hold.2
  · exact (congrArg (Option.map f.content) (hplain n hn)).trans (h.shows f.now List.mem_cons_self n hn)
  · exact h.settled f.now List.mem_cons_self n k hn ((hplain n hn).symm.trans hk)
  · cases hentry _ k hk with
    | inl hnew => exact absurd (h.below w hw n k hwk) (by simp [hnew.2])
    | inr hold => exact h.hidden w hw n k hn hwk j hold.1

/-- Opening a temporary file empties no target. -/
theorem create (h : Sound cfg base d f) (i : ι) : Sound cfg base d (f.create (cfg.temp i)).2 := by
  unfold Folder.create
  split
  · rename_i file hfile
    exact h.write [] (h.not_mem_of_temp hfile)
  · refine h.link.write [] (h.link.not_mem_of_temp (i := i) ?_)
    exact Function.update_self ..

/-- Renaming a file that has been written and synced. -/
theorem rename (h : Sound cfg base d f) (hcfg : cfg.Lawful) {i : ι} {bytes : List β} {file : Nat}
    (hfile : f.now.entry (cfg.temp i) = some file) (hcontent : f.content file = bytes) (hsynced : f.synced file = true)
    (hi : cfg.dir i = d ∧ cfg.goal i bytes)
    (hrename : f.rename (cfg.temp i) (cfg.target i) (i, bytes) = some f') : Sound cfg base d f' := by
  unfold Folder.rename at hrename
  simp only [hfile, Option.some.injEq] at hrename
  subst hrename
  have hnow := List.mem_cons_self (a := f.now) (l := f.older)
  -- a name behind the rename has the file that was staged, or what it had before
  have hentry : ∀ n k, Function.update (Function.update f.now.entry (cfg.temp i) none) (cfg.target i) (some file) n =
      some k → (n = cfg.target i ∧ k = file) ∨ (n ≠ cfg.temp i ∧ f.now.entry n = some k) := by
    intro n k hk
    rw [Function.update_apply] at hk
    split at hk
    · exact .inl ⟨‹_›, (Option.some.inj hk).symm⟩
    · rw [Function.update_apply] at hk
      split at hk
      · cases hk
      · exact .inr ⟨‹_›, hk⟩
  refine h.turn (fun n m k hn hm => ?_) (fun n k hk => ?_) (fun n hn => ?_) (fun n k hn hk => ?_)
    (fun j k hk w hw n hn hwk => ?_) (fun j bytes' hcall => ?_) (List.prefix_append ..)
  -- two names share a file only if both are the target: the temporary name is gone
  · cases hentry n k hn with
    | inl hn =>
        cases hentry m k hm with
        | inl hm => rw [hn.1, hm.1]
        | inr hm => exact absurd (h.injective f.now hnow _ _ _ hm.2 (hn.2 ▸ hfile)) hm.1
    | inr hn =>
        cases hentry m k hm with
        | inl hm => exact absurd (h.injective f.now hnow _ _ _ hn.2 (hm.2 ▸ hfile)) hn.1
        | inr hm => exact h.injective f.now hnow n m k hn.2 hm.2
  · cases hentry n k hk with
    | inl hnew => exact hnew.2 ▸ h.below f.now hnow _ _ hfile
    | inr hold => exact h.below f.now hnow n k hold.2
  · dsimp only
    rw [Config.puts_append]
    by_cases htarget : n = cfg.target i
    · rw [htarget, Function.update_self, Function.update_self, Option.map_some, hcontent]
    · rw [Function.update_of_ne htarget, Function.update_of_ne (Ne.symm (hn i)), Function.update_of_ne htarget]
      exact h.shows f.now hnow n hn
  · cases hentry n k hk with
    | inl hnew => exact hnew.2 ▸ hsynced
    | inr hold => exact h.settled f.now hnow n k hn hold.2
  · cases hentry _ k hk with
    | inl hnew => exact hcfg.temp_ne j i hnew.1
    | inr hold => exact h.hidden w hw n k hn hwk j hold.2
  · cases List.mem_append.mp hcall with
    | inl hold => exact h.goals f.now hnow j bytes' hold
    | inr hnew =>
        cases List.mem_singleton.mp hnew
        exact hi

/-- A power loss leaves a sound directory. -/
theorem survives (h : Sound cfg base d f) (hloss : f.Survives f') : Sound cfg base d f' := by
  have hmem : ∀ v ∈ f'.listings, v = f'.now := by
    intro v hv
    rw [Folder.listings, hloss.older] at hv
    exact List.mem_singleton.mp hv
  refine ⟨fun v hv => ?_, fun v hv => ?_, fun v hv => ?_, fun v hv => ?_, fun v hv => ?_, fun v hv => ?_,
    fun v hv => ?_⟩
  all_goals rw [hmem v hv]
  · exact h.injective _ hloss.now
  · rw [hloss.next]
    exact h.below _ hloss.now
  · intro n hn
    rw [← h.shows _ hloss.now n hn]
    cases hentry : f'.now.entry n with
    | none => rfl
    | some k => simp [(hloss.content k (h.settled _ hloss.now n k hn hentry)).1]
  · intro n k hn hk
    exact (hloss.content k (h.settled _ hloss.now n k hn hk)).2
  · intro n k hn hk i hi
    exact hn i (h.injective _ hloss.now _ _ k hi hk)
  · exact h.goals _ hloss.now

/-- What stands at a target is complete. -/
theorem complete {base : δ → ν → Option (List β)} (h : Sound cfg (base d) d f) {name : ν} (hname : cfg.IsPlain name)
    {file : Nat} (hfile : f.now.entry name = some file) : cfg.Complete base d name (f.content file) := by
  have hshows := h.shows f.now List.mem_cons_self name hname
  rw [hfile, Option.map_some] at hshows
  cases Config.puts_eq_some hshows.symm with
  | inl hbase => exact .inl hbase
  | inr hcall =>
      obtain ⟨i, hi, htarget⟩ := hcall
      obtain ⟨hdir, hgoal⟩ := h.goals f.now List.mem_cons_self i _ hi
      exact .inr ⟨i, hdir, htarget, hgoal⟩

end Sound

/-! ## What a change leaves to the others -/

namespace Grows

variable {i : ι} {f f' : Folder ν β ι}

omit [DecidableEq ν] in
/-- Changing the temporary file. -/
theorem write {file : Nat} (bytes : List β) (hfile : f.now.entry (cfg.temp i) = some file) :
    Grows cfg i f (f.write file bytes) where
  next := Nat.le_refl _
  entry _ _ := rfl
  content k _ hk := by
    have hne : k ≠ file := fun heq => hk (heq ▸ hfile)
    simp [Folder.write, Function.update_of_ne hne]
  temps _ _ _ h := h
  published _ h := h
  listings _ h := h
  lookup n _ h := by
    unfold Folder.lookup at h ⊢
    rwa [Option.isSome_map] at h ⊢

omit [DecidableEq ν] in
theorem sync (file : Nat) : Grows cfg i f (f.sync file) where
  next := Nat.le_refl _
  entry _ _ := rfl
  content k _ _ := by
    refine ⟨rfl, fun hsynced => ?_⟩
    by_cases hk : k = file
    · simp [hk]
    · simpa [Function.update_of_ne hk] using hsynced
  temps _ _ _ h := h
  published _ h := h
  listings _ h := h
  lookup _ _ h := h

omit [DecidableEq ν] in
theorem syncDir : Grows cfg i f f.syncDir where
  next := Nat.le_refl _
  entry _ _ := rfl
  content _ _ _ := ⟨rfl, id⟩
  temps _ _ _ h := h
  published _ h := h
  listings _ h _ hv := List.mem_singleton.mp hv ▸ h f.now List.mem_cons_self
  lookup _ _ h := h

theorem link : Grows cfg i f (f.link (cfg.temp i)) where
  next := Nat.le_succ _
  entry j hj := Function.update_of_ne hj ..
  content _ _ _ := ⟨rfl, id⟩
  temps j k hk hentry := by
    rw [Folder.link_entry, Function.update_apply] at hentry
    split at hentry
    · cases hentry
      exact absurd hk (Nat.lt_irrefl _)
    · exact hentry
  published _ h := h
  listings call h := List.forall_mem_cons.mpr ⟨h f.now List.mem_cons_self, h⟩
  lookup n hn h := by
    unfold Folder.lookup at h ⊢
    rw [Folder.link_entry, Function.update_of_ne (Ne.symm (hn i))]
    rwa [Option.isSome_map] at h ⊢

omit [DecidableEq ν] in
theorem trans {f₁ f₂ f₃ : Folder ν β ι} (h : Grows cfg i f₁ f₂) (h' : Grows cfg i f₂ f₃)
    (htemp : ∀ file, file < f₁.next → f₂.now.entry (cfg.temp i) = some file → f₁.now.entry (cfg.temp i) = some file) :
    Grows cfg i f₁ f₃ where
  next := h.next.trans h'.next
  entry j hj := (h'.entry j hj).trans (h.entry j hj)
  content k hk hentry := by
    have h₂ := h.content k hk hentry
    have h₃ := h'.content k (hk.trans_le h.next) fun heq => hentry (htemp k hk heq)
    exact ⟨h₃.1.trans h₂.1, fun hsynced => h₃.2 (h₂.2 hsynced)⟩
  temps j k hk hentry := h.temps j k hk (h'.temps j k (hk.trans_le h.next) hentry)
  published call hcall := h'.published call (h.published call hcall)
  listings call hcall := h'.listings call (h.listings call hcall)
  lookup n hn hthere := h'.lookup n hn (h.lookup n hn hthere)

theorem create : Grows cfg i f (f.create (cfg.temp i)).2 := by
  unfold Folder.create
  split
  · rename_i file hfile
    exact write [] hfile
  · exact link.trans (write [] (Function.update_self ..)) fun k hk hentry => link.temps i k hk hentry

theorem rename (hcfg : cfg.Lawful) {bytes : List β}
    (hrename : f.rename (cfg.temp i) (cfg.target i) (i, bytes) = some f') : Grows cfg i f f' := by
  unfold Folder.rename at hrename
  split at hrename
  · cases hrename
  · rename_i file hfile
    cases hrename
    refine ⟨Nat.le_refl _, fun j hj => ?_, fun _ _ _ => ⟨rfl, id⟩, fun j k _ hentry => ?_, fun call hcall => ?_,
      fun call hcall => ?_, fun n hn hthere => ?_⟩
    · simp only [Folder.turn_now, Function.update_of_ne (hcfg.temp_ne j i), Function.update_of_ne hj]
    · simp only [Folder.turn_now, Function.update_of_ne (hcfg.temp_ne j i), Function.update_apply] at hentry
      split at hentry
      · cases hentry
      · exact hentry
    · exact List.mem_append_left _ hcall
    · exact List.forall_mem_cons.mpr ⟨List.mem_append_left _ (hcall f.now List.mem_cons_self), hcall⟩
    · unfold Folder.lookup at hthere ⊢
      rw [Option.isSome_map] at hthere ⊢
      simp only [Folder.turn_now]
      rw [Function.update_apply]
      split
      · rfl
      · rwa [Function.update_of_ne (Ne.symm (hn i))]

end Grows

/-! ## Runs -/

section Run

variable {base : δ → ν → Option (List β)} {s s' : System δ ν β ι ρ}

omit [DecidableEq ν] in
/-- A reader only relies on files that no call has under a temporary name. -/
theorem Reader.Fits.of_folder {reader : Reader δ ν β} (h : reader.Fits cfg base s)
    (hfolder : ∀ d f file, s.folder d = some f → file < f.next → (∀ i, f.now.entry (cfg.temp i) ≠ some file) →
      ∃ f', s'.folder d = some f' ∧ f'.content file = f.content file ∧ file < f'.next ∧
        ∀ i, f'.now.entry (cfg.temp i) ≠ some file) : reader.Fits cfg base s' := by
  cases reader with
  | idle => trivial
  | done d name full got => exact h
  | reading d name file full got =>
      obtain ⟨hcomplete, hgot, f, hf, hfull, hbelow, htemps⟩ := h
      obtain ⟨f', hf', hcontent, hbelow', htemps'⟩ := hfolder d f file hf hbelow htemps
      exact ⟨hcomplete, hgot, f', hf', hcontent.trans hfull, hbelow', htemps'⟩

omit [DecidableEq ν] in
/-- A call relies on its temporary file, on what it has published, and on targets that are there. -/
theorem Fits.of_folder {i : ι} {stage : Stage β} (hcfg : cfg.Lawful) (h : Fits cfg s i stage)
    (hfolder : ∀ f, s.folder (cfg.dir i) = some f → ∃ f', s'.folder (cfg.dir i) = some f' ∧
      (∀ file, stage.file? = some file → f.now.entry (cfg.temp i) = some file →
        f'.now.entry (cfg.temp i) = some file ∧ f'.content file = f.content file ∧
          (f.synced file = true → f'.synced file = true)) ∧
      (∀ call ∈ f.now.published, call ∈ f'.now.published) ∧
      (∀ call, (∀ v ∈ f.listings, call ∈ v.published) → ∀ v ∈ f'.listings, call ∈ v.published) ∧
      (∀ n, cfg.IsPlain n → (f.lookup n).isSome → (f'.lookup n).isSome)) : Fits cfg s' i stage := by
  cases stage with
  | outside => trivial
  | stopped => trivial
  | writing file bytes rest =>
      obtain ⟨f, hf, hentry, hgoal, hbytes⟩ := h
      obtain ⟨f', hf', hfile, -⟩ := hfolder f hf
      obtain ⟨hentry', hcontent, -⟩ := hfile file rfl hentry
      exact ⟨f', hf', hentry', hgoal, hcontent ▸ hbytes⟩
  | synced file bytes =>
      obtain ⟨f, hf, hentry, hgoal, hbytes, hsynced⟩ := h
      obtain ⟨f', hf', hfile, -⟩ := hfolder f hf
      obtain ⟨hentry', hcontent, hsynced'⟩ := hfile file rfl hentry
      exact ⟨f', hf', hentry', hgoal, hcontent.trans hbytes, hsynced' hsynced⟩
  | renamed bytes =>
      obtain ⟨f, hf, hpublished⟩ := h
      obtain ⟨f', hf', -, hkept, -⟩ := hfolder f hf
      exact ⟨f', hf', hkept _ hpublished⟩
  | returned bytes durable =>
      obtain ⟨f, hf, hpublished, hdurable⟩ := h
      obtain ⟨f', hf', -, hkept, hlistings, -⟩ := hfolder f hf
      exact ⟨f', hf', hkept _ hpublished, fun hd => hlistings _ (hdurable hd)⟩
  | found =>
      obtain ⟨f, hf, hthere⟩ := h
      obtain ⟨f', hf', -, -, -, hlookup⟩ := hfolder f hf
      exact ⟨f', hf', hlookup _ (fun j => hcfg.temp_ne j i) hthere⟩

/-- A call that moves on without changing a directory. -/
theorem Inv.move [DecidableEq ι] (h : Inv cfg base s) {i : ι} {stage : Stage β} (hfits : Fits cfg s i stage)
    (hopen : stage.isOpen → (s.stage i).isOpen) : Inv cfg base (s.move i stage) where
  sound := h.sound
  kept := h.kept
  lost := h.lost
  reader := h.reader
  owners j k hj hk := by
    have hwas : ∀ j, (Function.update s.stage i stage j).isOpen → (s.stage j).isOpen := by
      intro j hj
      rw [Function.update_apply] at hj
      split at hj
      · subst j
        exact hopen hj
      · exact hj
    exact h.owners j k (hwas j hj) (hwas k hk)
  stage j := by
    by_cases hj : j = i
    · subst hj
      show Fits cfg s j (Function.update s.stage j stage j)
      rwa [Function.update_self]
    · show Fits cfg s j (Function.update s.stage i stage j)
      rw [Function.update_of_ne hj]
      exact h.stage j

/-- A call that moves on and changes the directory it writes to. -/
theorem Inv.act [DecidableEq δ] [DecidableEq ι] (h : Inv cfg base s) (hcfg : cfg.Lawful) {i : ι} {f f' : Folder ν β ι} {stage : Stage β}
    (hf : s.folder (cfg.dir i) = some f) (hsound : Sound cfg (base (cfg.dir i)) (cfg.dir i) f')
    (hgrows : Grows cfg i f f') (howner : ∀ j, j ≠ i → (s.stage j).isOpen → cfg.owner j ≠ cfg.owner i)
    (hfits : ∀ s' : System δ ν β ι ρ, s'.folder (cfg.dir i) = some f' → Fits cfg s' i stage) :
    Inv cfg base (s.act i (cfg.dir i) f' stage) := by
  have hself : (s.act i (cfg.dir i) f' stage).folder (cfg.dir i) = some f' := Function.update_self ..
  have hother : ∀ d, d ≠ cfg.dir i → (s.act i (cfg.dir i) f' stage).folder d = s.folder d :=
    fun d hd => Function.update_of_ne hd ..
  have hstage : ∀ j, j ≠ i → (s.act i (cfg.dir i) f' stage).stage j = s.stage j :=
    fun j hj => Function.update_of_ne hj ..
  have hbefore := h.sound _ f hf
  refine ⟨fun d g hg => ?_, fun d hd => ?_, h.lost, fun j k hj hk hjk => ?_, fun j => ?_, fun r => ?_⟩
  · by_cases hd : d = cfg.dir i
    · subst hd
      rw [hself] at hg
      cases hg
      exact hsound
    · exact h.sound d g (hother d hd ▸ hg)
  · by_cases hdir : d = cfg.dir i
    · rw [hdir, hself]
      rfl
    · rw [hother d hdir]
      exact h.kept d hd
  · by_cases hji : j = i
    · by_cases hki : k = i
      · rw [hji, hki]
      · exact absurd (hji ▸ hjk.symm) (howner k hki (hstage k hki ▸ hk))
    · by_cases hki : k = i
      · exact absurd (hki ▸ hjk) (howner j hji (hstage j hji ▸ hj))
      · exact h.owners j k (hstage j hji ▸ hj) (hstage k hki ▸ hk) hjk
  · by_cases hj : j = i
    · subst hj
      rw [show (s.act j (cfg.dir j) f' stage).stage j = stage from Function.update_self ..]
      exact hfits _ hself
    · rw [hstage j hj]
      refine (h.stage j).of_folder hcfg fun g hg => ?_
      by_cases hd : cfg.dir j = cfg.dir i
      · rw [hd] at hg ⊢
        obtain rfl : f = g := Option.some.inj (hf.symm.trans hg)
        refine ⟨f', hself, fun file hfile hentry => ?_, hgrows.published, hgrows.listings, hgrows.lookup⟩
        -- both calls are under way, so that they have different temporary names
        have hopen : (s.stage j).isOpen := (Stage.stages_of_file (Option.isSome_of_eq_some hfile)).1
        have hne : cfg.temp j ≠ cfg.temp i := fun heq => howner j hj hopen (hcfg.owner_eq j i heq)
        have hbelow := hbefore.below f.now List.mem_cons_self _ file hentry
        have hkeeps := hgrows.content file hbelow fun heq =>
          hne (hbefore.injective f.now List.mem_cons_self _ _ file hentry heq)
        exact ⟨(hgrows.entry j hne).trans hentry, hkeeps⟩
      · exact ⟨g, (hother _ hd).trans hg, fun file _ hentry => ⟨hentry, rfl, id⟩, fun _ h => h, fun _ h => h,
          fun _ _ h => h⟩
  · refine (h.reader r).of_folder fun d g file hg hbelow htemps => ?_
    by_cases hd : d = cfg.dir i
    · subst hd
      obtain rfl : f = g := Option.some.inj (hf.symm.trans hg)
      exact ⟨f', hself, (hgrows.content file hbelow (htemps i)).1, hbelow.trans_le hgrows.next,
        fun j hj => htemps j (hgrows.temps j file hbelow hj)⟩
    · exact ⟨g, (hother d hd).trans hg, rfl, hbelow, htemps⟩

/-- A reader that moves on. -/
theorem Inv.look [DecidableEq ρ] (h : Inv cfg base s) {r : ρ} {reader : Reader δ ν β} (hfits : reader.Fits cfg base s) :
    Inv cfg base (s.look r reader) where
  sound := h.sound
  kept := h.kept
  lost := h.lost
  owners := h.owners
  stage := h.stage
  reader r' := by
    by_cases hr : r' = r
    · subst hr
      show Reader.Fits cfg base s (Function.update s.reader r' reader r')
      rwa [Function.update_self]
    · show Reader.Fits cfg base s (Function.update s.reader r reader r')
      rw [Function.update_of_ne hr]
      exact h.reader r'

/-- A power loss keeps what holds. -/
theorem Inv.loses (h : Inv cfg base s) (hloss : Loses cfg s s') : Inv cfg base s' := by
  -- whatever was under way has stopped
  have hclosed : ∀ i, ¬(s'.stage i).isOpen := by
    intro i
    rw [hloss.stage i, Stage.isOpen_afterLoss]
    exact Bool.false_ne_true
  -- a folder that is left was there, and it shows something it may show
  have hfolder : ∀ d f', s'.folder d = some f' → ∃ f, s.folder d = some f ∧ f.Survives f' := by
    intro d f' hf'
    cases hf : s.folder d with
    | none => simp [hloss.absent d hf] at hf'
    | some f =>
        cases hloss.folder d f hf with
        | inl hsurvives =>
            obtain ⟨g, hg, hsurvives⟩ := hsurvives
            rw [hg] at hf'
            cases hf'
            exact ⟨f, rfl, hsurvives⟩
        | inr hlost => simp [hlost.2] at hf'
  refine ⟨fun d f' hf' => ?_, fun d hd => ?_, h.lost, fun i j hi => absurd hi (hclosed i), fun i => ?_, fun r => ?_⟩
  · obtain ⟨f, hf, hsurvives⟩ := hfolder d f' hf'
    exact (h.sound d f hf).survives hsurvives
  · obtain ⟨f, hf⟩ := Option.isSome_iff_exists.mp (h.kept d hd)
    cases hloss.folder d f hf with
    | inl hsurvives =>
        obtain ⟨g, hg, -⟩ := hsurvives
        simp [hg]
    | inr hlost => simp [hd] at hlost
  · have hfits := h.stage i
    rw [hloss.stage i]
    unfold Stage.afterLoss
    split
    · trivial
    · rename_i bytes heq
      split
      -- a call that had returned in a folder that is kept is still right: all its listings agreed
      · rename_i hkept
        rw [heq] at hfits
        obtain ⟨f, hf, hpublished, hdurable⟩ := hfits
        cases hloss.folder _ f hf with
        | inr hlost => simp [hkept] at hlost
        | inl hsurvives =>
            obtain ⟨f', hf', hsurvives⟩ := hsurvives
            have hnow := hdurable rfl f'.now hsurvives.now
            refine ⟨f', hf', hnow, fun _ v hv => ?_⟩
            rw [Folder.listings, hsurvives.older] at hv
            exact List.mem_singleton.mp hv ▸ hnow
      · trivial
    · trivial
  · have hfits := h.reader r
    rw [hloss.reader r]
    cases hr : s.reader r with
    | idle => trivial
    | reading d name file full got => trivial
    | done d name full got =>
        rw [hr] at hfits
        exact hfits

variable [DecidableEq δ] [DecidableEq ι] [DecidableEq ρ]

omit [DecidableEq ι] [DecidableEq ρ] in
theorem Inv.mkdir (h : Inv cfg base s) (hcfg : cfg.Lawful) {d : δ} (hd : s.folder d = none) :
    Inv cfg base { s with folder := Function.update s.folder d (some .empty) } := by
  have hother : ∀ d' f, s.folder d' = some f → Function.update s.folder d (some .empty) d' = some f := by
    intro d' f hf
    have hne : d' ≠ d := fun heq => by simp [heq, hd] at hf
    rw [Function.update_of_ne hne, hf]
  refine ⟨fun d' f hf => ?_, fun d' hd' => ?_, h.lost, h.owners, fun i => ?_, fun r => ?_⟩
  · by_cases heq : d' = d
    · subst heq
      simp only [Function.update_self, Option.some.injEq] at hf
      subst hf
      have hlost : cfg.kept d' = false := by
        rw [← Bool.not_eq_true]
        intro hkept
        simpa [hd] using h.kept d' hkept
      rw [h.lost d' hlost]
      exact .empty d'
    · simp only [Function.update_of_ne heq] at hf
      exact h.sound d' f hf
  · obtain ⟨f, hf⟩ := Option.isSome_iff_exists.mp (h.kept d' hd')
    exact Option.isSome_iff_exists.mpr ⟨f, hother d' f hf⟩
  · exact (h.stage i).of_folder hcfg fun f hf =>
      ⟨f, hother _ f hf, fun _ _ hentry => ⟨hentry, rfl, id⟩, fun _ h => h, fun _ h => h, fun _ _ h => h⟩
  · exact (h.reader r).of_folder fun d' f file hf hbelow htemps => ⟨f, hother d' f hf, rfl, hbelow, htemps⟩

omit [DecidableEq δ] [DecidableEq ι] [DecidableEq ρ] in
/-- Two calls that are under way have different owners. -/
theorem Inv.owner_ne (h : Inv cfg base s) {i : ι} (hi : (s.stage i).isOpen) :
    ∀ j, j ≠ i → (s.stage j).isOpen → cfg.owner j ≠ cfg.owner i :=
  fun j hj hopen heq => hj (h.owners j i hopen hi heq)

omit [DecidableEq ρ] in
theorem Inv.works (h : Inv cfg base s) (hcfg : cfg.Lawful) {i : ι} (hworks : Works cfg s i s') : Inv cfg base s' := by
  have hfits := h.stage i
  cases hworks with
  | write file bytes chunk rest f hi hf =>
      rw [hi] at hfits
      obtain ⟨g, hg, hentry, hgoal, hbytes⟩ := hfits
      cases hf.symm.trans hg
      have hsound := h.sound _ f hf
      refine h.act hcfg hf (hsound.write _ (hsound.not_mem_of_temp hentry)) (.write _ hentry)
        (h.owner_ne (by rw [hi]; rfl)) fun s' hs' => ⟨_, hs', hentry, hgoal, ?_⟩
      rw [Folder.write_content, Function.update_self, List.append_assoc]
      exact hbytes
  | sync file bytes f hi hf =>
      rw [hi] at hfits
      obtain ⟨g, hg, hentry, hgoal, hbytes⟩ := hfits
      cases hf.symm.trans hg
      refine h.act hcfg hf ((h.sound _ f hf).sync file) (.sync file)
        (h.owner_ne (by rw [hi]; rfl)) fun s' hs' => ⟨_, hs', hentry, hgoal, ?_, ?_⟩
      · exact (List.append_nil _).symm.trans hbytes
      · rw [Folder.sync_synced, Function.update_self]

omit [DecidableEq δ] [DecidableEq ι] in
theorem Inv.looks (h : Inv cfg base s) {r : ρ} {reader : Reader δ ν β} (hlooks : Looks cfg s r reader) :
    Inv cfg base (s.look r reader) := by
  have hfits := h.reader r
  cases hlooks with
  | opens d name file f hname hf hfile =>
      have hsound := h.sound d f hf
      exact h.look ⟨hsound.complete hname hfile, List.nil_prefix, f, hf, rfl,
        hsound.below f.now List.mem_cons_self name file hfile,
        hsound.hidden f.now List.mem_cons_self name file hname hfile⟩
  | reads d name file full got chunk f hr hf hchunk =>
      rw [hr] at hfits
      obtain ⟨hcomplete, -, g, hg, hfull, hrest⟩ := hfits
      cases hf.symm.trans hg
      exact h.look ⟨hcomplete, hfull ▸ hchunk, f, hf, hfull, hrest⟩
  | closes d name file full got f hr hf hend =>
      rw [hr] at hfits
      obtain ⟨hcomplete, hgot, g, hg, hfull, -⟩ := hfits
      cases hf.symm.trans hg
      exact h.look ⟨hcomplete, hgot.eq_of_length_le (hfull ▸ hend)⟩

theorem Inv.acts (h : Inv cfg base s) (hcfg : cfg.Lawful) (hacts : Acts cfg s s') : Inv cfg base s' := by
  have hfits := h.stage
  cases hacts with
  | mkdir d hd => exact h.mkdir hcfg hd
  | found i f hi hskips hf hthere => exact h.move ⟨f, hf, hthere⟩ (fun hopen => absurd hopen Bool.false_ne_true)
  | create i bytes f hi hgoal hf hfree =>
      refine h.act hcfg hf ((h.sound _ f hf).create i) .create (fun j _ hj => hfree j hj) fun s' hs' => ?_
      refine ⟨_, hs', ?_, hgoal, ?_⟩
      · unfold Folder.create
        split
        · assumption
        · exact Function.update_self ..
      · unfold Folder.create
        split <;> simp
  | work i s' hworks => exact h.works hcfg hworks
  | rename i file bytes f f' hi hf hrename =>
      have hi' := hfits i
      rw [hi] at hi'
      obtain ⟨g, hg, hentry, hgoal, hbytes, hsynced⟩ := hi'
      cases hf.symm.trans hg
      refine h.act hcfg hf ((h.sound _ f hf).rename hcfg hentry hbytes hsynced ⟨rfl, hgoal⟩ hrename)
        (.rename hcfg hrename) (h.owner_ne (by rw [hi]; rfl)) fun s' hs' => ⟨f', hs', ?_⟩
      simp [(Folder.rename_published hrename).1]
  | syncDir i bytes f hi hf =>
      have hi' := hfits i
      rw [hi] at hi'
      obtain ⟨g, hg, hpublished⟩ := hi'
      cases hf.symm.trans hg
      refine h.act hcfg hf (h.sound _ f hf).syncDir .syncDir (h.owner_ne (by rw [hi]; rfl)) fun s' hs' =>
        ⟨_, hs', hpublished, fun _ v hv => ?_⟩
      exact List.mem_singleton.mp hv ▸ hpublished
  | leave i bytes hi =>
      have hi' := hfits i
      rw [hi] at hi'
      obtain ⟨f, hf, hpublished⟩ := hi'
      exact h.move ⟨f, hf, hpublished, fun hd => absurd hd Bool.false_ne_true⟩
        (fun hopen => absurd hopen Bool.false_ne_true)
  | stop i hi => exact h.move trivial (fun hopen => absurd hopen Bool.false_ne_true)
  | look r reader hlooks => exact h.looks hlooks

theorem Inv.step (h : Inv cfg base s) (hcfg : cfg.Lawful) (hstep : Step cfg s s') : Inv cfg base s' := by
  cases hstep with
  | acts hacts => exact h.acts hcfg hacts
  | powerLoss hloss => exact h.loses hloss

omit [DecidableEq δ] [DecidableEq ι] [DecidableEq ρ] in
theorem Fresh.inv (h : Fresh cfg base s) : Inv cfg base s where
  sound d f hf := by
    have hmem : ∀ v ∈ f.listings, v = f.now := by
      intro v hv
      rw [Folder.listings, h.older d f hf] at hv
      exact List.mem_singleton.mp hv
    refine ⟨fun v hv => ?_, fun v hv => ?_, fun v hv => ?_, fun v hv => ?_, fun v hv => ?_, fun v hv => ?_,
      fun v hv => ?_⟩
    all_goals rw [hmem v hv]
    · exact h.injective d f hf
    · exact fun n file hfile => (h.below d f hf n file hfile).1
    · intro n hn
      rw [h.published d f hf]
      exact h.shows d f hf n hn
    · exact fun n file _ hfile => (h.below d f hf n file hfile).2
    · exact fun n file hn hfile i hi => hn i (h.injective d f hf _ _ file hi hfile)
    · intro i bytes hcall
      simp [h.published d f hf] at hcall
  kept d hd := h.kept d ▸ hd
  lost d hd := h.lost d (Option.not_isSome_iff_eq_none.mp (by simp [← h.kept d, hd]))
  owners i _ hi := by simp [h.stage i, Stage.isOpen] at hi
  stage i := h.stage i ▸ trivial
  reader r := h.reader r ▸ trivial

theorem inv_of_reaches {start : System δ ν β ι ρ} (hcfg : cfg.Lawful) (hfresh : Fresh cfg base start)
    (h : ReflTransGen (Step cfg) start s) : Inv cfg base s := by
  induction h with
  | refl => exact hfresh.inv
  | tail _ hstep ih => exact ih.step hcfg hstep

/-! ## What the targets show -/

omit [DecidableEq δ] [DecidableEq ι] [DecidableEq ρ] in
/-- Whatever stands at a target is complete. -/
theorem Inv.complete (h : Inv cfg base s) {d : δ} {name : ν} {bytes : List β} (hname : cfg.IsPlain name)
    (hlookup : s.lookup d name = some bytes) : cfg.Complete base d name bytes := by
  obtain ⟨f, hf, hshown⟩ := Option.bind_eq_some_iff.mp hlookup
  obtain ⟨file, hfile, rfl⟩ := Option.map_eq_some_iff.mp hshown
  exact (h.sound d f hf).complete hname hfile

omit [DecidableEq δ] [DecidableEq ι] [DecidableEq ρ] in
theorem Inv.lookup_eq_puts (h : Inv cfg base s) {d : δ} {name : ν} (hname : cfg.IsPlain name) {f : Folder ν β ι}
    (hf : s.folder d = some f) : s.lookup d name = cfg.puts (base d) f.now.published name := by
  rw [← (h.sound d f hf).shows f.now List.mem_cons_self name hname]
  unfold System.lookup Folder.lookup
  rw [hf, Option.bind_some]

omit [DecidableEq δ] [DecidableEq ι] [DecidableEq ρ] in
/-- What stands at a target after a power loss, stood there before. -/
theorem Inv.isSome_of_loses (h : Inv cfg base s) (hloss : Loses cfg s s') {d : δ} {name : ν} (hname : cfg.IsPlain name)
    (hlookup : (s'.lookup d name).isSome) : (s.lookup d name).isSome := by
  have h' := h.loses hloss
  cases hf : s.folder d with
  | none =>
      unfold System.lookup at hlookup
      simp [hloss.absent d hf] at hlookup
  | some f =>
      cases hloss.folder d f hf with
      | inr hlost =>
          unfold System.lookup at hlookup
          simp [hlost.2] at hlookup
      | inl hsurvives =>
          obtain ⟨f', hf', hsurvives⟩ := hsurvives
          rw [h'.lookup_eq_puts hname hf'] at hlookup
          rw [h.lookup_eq_puts hname hf]
          obtain ⟨later, hlater⟩ := (h.sound d f hf).earlier f'.now hsurvives.now
          rw [← hlater]
          exact Config.puts_isSome_append later hlookup

omit [DecidableEq δ] [DecidableEq ι] [DecidableEq ρ] in
/-- The target of a call that has returned is there. -/
theorem Inv.present (h : Inv cfg base s) (hcfg : cfg.Lawful) {i : ι}
    (hi : (∃ bytes durable, s.stage i = .returned bytes durable) ∨ s.stage i = .found) :
    (s.lookup (cfg.dir i) (cfg.target i)).isSome := by
  have hfits := h.stage i
  rcases hi with ⟨bytes, durable, hi⟩ | hi
  · rw [hi] at hfits
    obtain ⟨f, hf, hpublished, -⟩ := hfits
    rw [h.lookup_eq_puts (fun j => hcfg.temp_ne j i) hf]
    exact Config.puts_isSome hpublished
  · rw [hi] at hfits
    obtain ⟨f, hf, hthere⟩ := hfits
    unfold System.lookup
    rwa [hf, Option.bind_some]

omit [DecidableEq ρ] in
/-- A step that publishes nothing shows nothing new. -/
theorem Inv.lookup_act (h : Inv cfg base s) {i : ι} {f f' : Folder ν β ι} {stage : Stage β}
    (h' : Inv cfg base (s.act i (cfg.dir i) f' stage)) (hf : s.folder (cfg.dir i) = some f)
    (hpublished : f'.now.published = f.now.published) (d : δ) {name : ν} (hname : cfg.IsPlain name) :
    (s.act i (cfg.dir i) f' stage).lookup d name = s.lookup d name := by
  by_cases hd : d = cfg.dir i
  · subst hd
    rw [h.lookup_eq_puts hname hf, h'.lookup_eq_puts hname (Function.update_self ..), hpublished]
  · unfold System.lookup System.act
    simp only [Function.update_of_ne hd]

/-- A step shows nothing new at the targets, but for a rename, which shows the file of its call. -/
theorem Acts.lookup (hacts : Acts cfg s s') (h : Inv cfg base s) (hcfg : cfg.Lawful) :
    (∀ d name, cfg.IsPlain name → s'.lookup d name = s.lookup d name) ∨
      ∃ i file bytes, s.stage i = .synced file bytes ∧ s'.stage i = .renamed bytes ∧ cfg.goal i bytes ∧
        ∀ d name, cfg.IsPlain name →
          s'.lookup d name = if d = cfg.dir i ∧ name = cfg.target i then some bytes else s.lookup d name := by
  have h' := h.acts hcfg hacts
  cases hacts with
  | mkdir d hd =>
      refine .inl fun d' name hname => ?_
      unfold System.lookup
      by_cases heq : d' = d
      · subst heq
        simp only [Function.update_self, hd]
        rfl
      · simp only [Function.update_of_ne heq]
  | found i f hi hskips hf hthere => exact .inl fun _ _ _ => rfl
  | create i bytes f hi hgoal hf hfree =>
      exact .inl fun d name hname => h.lookup_act h' hf (f.quiet_create _).now d hname
  | work i s' hworks =>
      cases hworks with
      | write file bytes chunk rest f hi hf => exact .inl fun d name hname => h.lookup_act h' hf rfl d hname
      | sync file bytes f hi hf => exact .inl fun d name hname => h.lookup_act h' hf rfl d hname
  | rename i file bytes f f' hi hf hrename =>
      have hfits := h.stage i
      rw [hi] at hfits
      obtain ⟨g, hg, hentry, hgoal, -⟩ := hfits
      have hpublished := (Folder.rename_published hrename).1
      refine .inr ⟨i, file, bytes, hi, System.act_stage .., hgoal, fun d name hname => ?_⟩
      by_cases hd : d = cfg.dir i
      · subst hd
        rw [h'.lookup_eq_puts hname (Function.update_self ..), hpublished, Config.puts_append,
          h.lookup_eq_puts hname hf, Function.update_apply]
        simp only [true_and]
      · rw [if_neg fun heq => hd heq.1]
        unfold System.lookup System.act
        simp only [Function.update_of_ne hd]
  | syncDir i bytes f hi hf => exact .inl fun d name hname => h.lookup_act h' hf rfl d hname
  | leave i bytes hi => exact .inl fun _ _ _ => rfl
  | stop i hi => exact .inl fun _ _ _ => rfl
  | look r reader hlooks => exact .inl fun _ _ _ => rfl

/-! ## A call that is not disturbed -/

omit [DecidableEq ν] [DecidableEq ρ] in
/-- Writing all bytes at once into a file that is empty. -/
theorem Works.write_all {i : ι} {file : Nat} {bytes : List β} {f : Folder ν β ι} (hempty : f.content file = [])
    (hi : s.stage i = .writing file bytes bytes) (hf : s.folder (cfg.dir i) = some f) :
    Works cfg s i (s.act i (cfg.dir i) (f.write file bytes) (.writing file bytes [])) := by
  have hworks : Works cfg s i _ := .write file bytes bytes [] f (by simpa using hi) hf
  rwa [hempty, List.nil_append] at hworks

variable (cfg) in
/-- What a call that has returned has written, when nothing else has happened. -/
structure Done (s s' : System δ ν β ι ρ) (i : ι) (bytes : List β) : Prop where
  run : ReflTransGen (Acts cfg) s s'
  stage : s'.stage i = .returned bytes true
  lookup : s'.lookup (cfg.dir i) (cfg.target i) = some bytes
  reader : s'.reader = s.reader

/-- A call can always run to its end. -/
theorem exists_done (cfg : Config δ ν β ι κ) (s : System δ ν β ι ρ) {i : ι} {bytes : List β} {f : Folder ν β ι}
    (hf : s.folder (cfg.dir i) = some f) (hi : s.stage i = .outside) (hgoal : cfg.goal i bytes)
    (hfree : ∀ j, (s.stage j).isOpen → cfg.owner j ≠ cfg.owner i) : ∃ s', Done cfg s s' i bytes := by
  have hcreate : Acts cfg s _ := .create i bytes f hi hgoal hf hfree
  obtain ⟨hentry, hempty⟩ := f.create_spec (cfg.temp i)
  generalize f.create (cfg.temp i) = new at hcreate hentry hempty
  obtain ⟨file, f₁⟩ := new
  let s₁ := s.act i (cfg.dir i) f₁ (.writing file bytes bytes)
  let s₂ := s₁.act i (cfg.dir i) (f₁.write file bytes) (.writing file bytes [])
  let s₃ := s₂.act i (cfg.dir i) ((f₁.write file bytes).sync file) (.synced file bytes)
  have hwrite : Acts cfg s₁ s₂ := .work i s₂ (.write_all hempty (System.act_stage ..) (System.act_folder ..))
  have hsync : Acts cfg s₂ s₃ := .work i s₃ (.sync file bytes _ (System.act_stage ..) (System.act_folder ..))
  obtain ⟨f₂, hrename, hlookup⟩ := Folder.rename_of_entry (f := (f₁.write file bytes).sync file) (cfg.target i) (i, bytes)
    hentry
  let s₄ := s₃.act i (cfg.dir i) f₂ (.renamed bytes)
  have hpublish : Acts cfg s₃ s₄ := .rename i file bytes _ f₂ (System.act_stage ..) (System.act_folder ..) hrename
  have hfinish : Acts cfg s₄ _ := .syncDir i bytes f₂ (System.act_stage ..) (System.act_folder ..)
  refine ⟨_, .tail (.tail (.tail (.tail (.single hcreate) hwrite) hsync) hpublish) hfinish, System.act_stage .., ?_, rfl⟩
  unfold System.lookup
  rw [System.act_folder, Option.bind_some]
  refine hlookup.trans ?_
  simp [Folder.sync]

end Run

end Staged
