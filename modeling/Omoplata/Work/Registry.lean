-- SUMMARY: The registries of queues, workspaces and remotes: what calls under the lock leave of them on the disk.
import Omoplata.Lib.Codec
import Omoplata.Lib.Entries
import Omoplata.Work.Crash
import Omoplata.Work.Queue
import Omoplata.Work.Workspace

/-!
# Registries

Queues, workspaces and remotes are registered under names, each kind in a file of its own. A
registry is a map from names; the file lists its entries in the order of their registration.
A call takes the lock of the repository, loads the file, changes the registry and saves it.

`RegistryJson` stands for the external JSON library.
-/

open Relation

namespace Omoplata

/-- What tells one registry from another: its file, the names of its entries, and its errors. -/
structure RegistryKind (α : Type) where
  file : Str
  name : α → Str
  taken : Str → WorkError
  unknown : Str → WorkError
  visible : file.head? ≠ some '.'

namespace RegistryKind

variable {α : Type} (K : RegistryKind α)

def get (entries : List α) (name : Str) : Option α := Entries.find K.name entries name

/-- Register an entry under a name that is not taken. -/
def add (entries : List α) (e : α) : Except WorkError (List α) :=
  if (K.get entries (K.name e)).isSome then .error (K.taken (K.name e)) else .ok (entries ++ [e])

def remove (entries : List α) (name : Str) : Except WorkError (α × List α) :=
  (Entries.takeOut K.name name entries).elim (.error (K.unknown name)) .ok

def change (entries : List α) (name : Str) (f : α → α) : Except WorkError (List α) :=
  (Entries.revise K.name name f entries).elim (.error (K.unknown name)) .ok

variable {K} {entries entries' : List α} {name : Str}

theorem add_eq_ok_iff {e : α} :
    K.add entries e = .ok entries' ↔ K.get entries (K.name e) = none ∧ entries ++ [e] = entries' := by
  unfold add
  cases K.get entries (K.name e) with
  | none => simp
  | some e' => simp

theorem remove_eq_ok_iff {r : α × List α} :
    K.remove entries name = .ok r ↔ Entries.takeOut K.name name entries = some r := by
  unfold remove
  cases Entries.takeOut K.name name entries with
  | none => simp
  | some r' => simp

theorem change_eq_ok_iff {f : α → α} :
    K.change entries name f = .ok entries' ↔ Entries.revise K.name name f entries = some entries' := by
  unfold change
  cases Entries.revise K.name name f entries with
  | none => simp
  | some revised => simp

end RegistryKind

/-! ## The three kinds -/

def queueKind : RegistryKind QueuePolicy where
  file := "queues.json".toList
  name := QueuePolicy.name
  taken := .queueExists
  unknown := .unknownQueue
  visible := by decide

def workspaceKind : RegistryKind Workspace where
  file := "workspaces.json".toList
  name := Workspace.name
  taken := .workspaceExists
  unknown := .unknownWorkspace
  visible := by decide

/-- A registered remote. -/
structure Remote where
  name : Str
  path : Str
  token : Option Str
  deriving DecidableEq, Repr, Encodable

def remoteKind : RegistryKind Remote where
  file := "remotes.json".toList
  name := Remote.name
  taken := .remoteExists
  unknown := .unknownRemote
  visible := by decide

def QueueRegistry.remove (reg : QueueRegistry) (name : Str) : Except WorkError (QueuePolicy × QueueRegistry) :=
  (queueKind.remove reg.queues name).map fun r => (r.1, ⟨r.2⟩)

/-- Register a workspace, with a change that is called after it. -/
def WorkspaceRegistry.add (reg : WorkspaceRegistry) (name workingDir : Str) : Except WorkError WorkspaceRegistry :=
  (workspaceKind.add reg.workspaces ⟨name, workingDir, "ws/".toList ++ name⟩).map WorkspaceRegistry.mk

def WorkspaceRegistry.remove (reg : WorkspaceRegistry) (name : Str) : Except WorkError (Workspace × WorkspaceRegistry) :=
  (workspaceKind.remove reg.workspaces name).map fun r => (r.1, ⟨r.2⟩)

/-- The registered remotes, in registration order. -/
structure RemoteRegistry where
  remotes : List Remote
  deriving DecidableEq, Repr

def RemoteRegistry.get (reg : RemoteRegistry) (name : Str) : Option Remote := remoteKind.get reg.remotes name

def RemoteRegistry.add (reg : RemoteRegistry) (name path : Str) (token : Option Str) : Except WorkError RemoteRegistry :=
  (remoteKind.add reg.remotes ⟨name, path, token⟩).map RemoteRegistry.mk

def RemoteRegistry.remove (reg : RemoteRegistry) (name : Str) : Except WorkError (Remote × RemoteRegistry) :=
  (remoteKind.remove reg.remotes name).map fun r => (r.1, ⟨r.2⟩)

theorem QueueRegistry.get_eq (reg : QueueRegistry) : reg.get = queueKind.get reg.queues := by
  funext name
  unfold QueueRegistry.get RegistryKind.get Entries.find
  exact congrArg (List.find? · reg.queues) (funext fun q => beq_eq_decide ..)

theorem QueueRegistry.add_eq (reg : QueueRegistry) (policy : QueuePolicy) :
    reg.add policy = (queueKind.add reg.queues policy).map QueueRegistry.mk := by
  unfold QueueRegistry.add RegistryKind.add
  rw [QueueRegistry.get_eq, show queueKind.name policy = policy.name from rfl]
  split
  · rfl
  · rfl

/-- A queue is resolved as it is registered, and an unregistered `trunk` by itself. -/
theorem QueueRegistry.resolve_eq (reg : QueueRegistry) (name : Str) : reg.resolve name =
    (queueKind.get reg.queues name).elim
      (if name = "trunk".toList then .ok .trunk else .error (queueKind.unknown name)) .ok := by
  unfold QueueRegistry.resolve
  rw [QueueRegistry.get_eq]
  cases queueKind.get reg.queues name with
  | none => rfl
  | some policy => rfl

theorem WorkspaceRegistry.setChange_eq (reg : WorkspaceRegistry) (name : Str) (change : ChangeId) :
    reg.setChange name change =
      ((workspaceKind.change reg.workspaces name fun w => { w with change }).map WorkspaceRegistry.mk).toOption := by
  have hpoint : ∀ workspaces, WorkspaceRegistry.pointTo name change workspaces =
      Entries.revise Workspace.name name (fun w => { w with change }) workspaces := by
    intro workspaces
    induction workspaces with
    | nil => rfl
    | cons w workspaces ih => rw [WorkspaceRegistry.pointTo, Entries.revise, ih]
  unfold WorkspaceRegistry.setChange RegistryKind.change
  rw [hpoint, show workspaceKind.name = Workspace.name from rfl]
  cases Entries.revise Workspace.name name (fun w => { w with change }) reg.workspaces with
  | none => rfl
  | some workspaces => rfl

/-! ## Calls -/

/-- What a call does to a registry. A change keeps the name of the entry. -/
inductive RegistryCall {α : Type} (K : RegistryKind α) where
  | add (e : α)
  | remove (name : Str)
  | change (name : Str) (f : α → α) (hf : ∀ e, K.name (f e) = K.name e)

namespace RegistryCall

variable {α : Type} {K : RegistryKind α}

/-- A call on the entries, with the entry it hands back. -/
def run : RegistryCall K → List α → Except WorkError (Option α × List α)
  | .add e, entries => (K.add entries e).map fun entries => (some e, entries)
  | .remove name, entries => (K.remove entries name).map fun r => (some r.1, r.2)
  | .change name f _, entries => (K.change entries name f).map fun entries => (none, entries)

/-- A call on the map from names. It goes through where its name is free, or taken. -/
inductive Effect (m : Str → Option α) : RegistryCall K → Option α → (Str → Option α) → Prop
  | add (e : α) (hfree : m (K.name e) = none) :
      Effect m (.add e) (some e) (Function.update m (K.name e) (some e))
  | remove (name : Str) (e : α) (hthere : m name = some e) :
      Effect m (.remove name) (some e) (Function.update m name none)
  | change (name : Str) (f : α → α) (hf : ∀ e, K.name (f e) = K.name e) (e : α) (hthere : m name = some e) :
      Effect m (.change name f hf) none (Function.update m name (some (f e)))

/-- Whether a call takes away or changes what is registered under a name. -/
def Disturbs : RegistryCall K → Str → Prop
  | .add _, _ => False
  | .remove name, k => name = k
  | .change name _ _, k => name = k

/-- The name a call registers, if it registers one. -/
def adds : RegistryCall K → List Str
  | .add e => [K.name e]
  | .remove _ => []
  | .change _ _ _ => []

theorem effect_of_run {call : RegistryCall K} {entries entries' : List α} {out : Option α}
    (hunique : (entries.map K.name).Nodup) (h : call.run entries = .ok (out, entries')) :
    Effect (K.get entries) call out (K.get entries') ∧ (entries'.map K.name).Nodup ∧
      (entries'.map K.name).Sublist (entries.map K.name ++ call.adds) := by
  cases call with
  | add e =>
      obtain ⟨added, hadd, heq⟩ := Codec.map_eq_ok.mp h
      cases heq
      obtain ⟨hfree, rfl⟩ := RegistryKind.add_eq_ok_iff.mp hadd
      refine ⟨?_, Entries.nodup_append hunique hfree, by rw [List.map_append]; rfl⟩
      have hget : K.get (entries ++ [e]) = _ := Entries.find_append hfree
      exact hget ▸ .add e hfree
  | remove name =>
      obtain ⟨r, hremove, heq⟩ := Codec.map_eq_ok.mp h
      cases heq
      have htake := RegistryKind.remove_eq_ok_iff.mp hremove
      have hthere := Entries.find_of_takeOut htake
      obtain ⟨hothers, hsublist⟩ := Entries.takeOut_spec hunique htake
      have hnames := hsublist.map K.name
      refine ⟨?_, hunique.sublist hnames, hnames.trans (List.sublist_append_left ..)⟩
      have hget : K.get r.2 = _ := hothers
      exact hget ▸ .remove name r.1 hthere
  | change name f hf =>
      obtain ⟨revised, hchange, heq⟩ := Codec.map_eq_ok.mp h
      cases heq
      obtain ⟨e, hthere, hothers, hnames⟩ := Entries.revise_spec hf (RegistryKind.change_eq_ok_iff.mp hchange)
      refine ⟨?_, hnames ▸ hunique, hnames ▸ List.sublist_append_left ..⟩
      have hget : K.get entries' = _ := hothers
      exact hget ▸ .change name f hf e hthere

/-- A call goes through exactly where its name is free, or taken, as it needs it. -/
theorem exists_run_iff {call : RegistryCall K} {entries : List α} (hunique : (entries.map K.name).Nodup)
    {out : Option α} :
    (∃ entries', call.run entries = .ok (out, entries')) ↔ ∃ m, Effect (K.get entries) call out m := by
  constructor
  · rintro ⟨entries', hrun⟩
    exact ⟨_, (effect_of_run hunique hrun).1⟩
  · rintro ⟨m, heffect⟩
    cases heffect with
    | add e hfree =>
        exact ⟨_, Codec.map_eq_ok.mpr ⟨_, RegistryKind.add_eq_ok_iff.mpr ⟨hfree, rfl⟩, rfl⟩⟩
    | remove name e hthere =>
        cases htake : Entries.takeOut K.name name entries with
        | none => cases hthere.symm.trans (Entries.takeOut_eq_none_iff.mp htake)
        | some r =>
            have hsame : some r.1 = some e := (Entries.find_of_takeOut htake).symm.trans hthere
            exact ⟨r.2, Codec.map_eq_ok.mpr ⟨r, RegistryKind.remove_eq_ok_iff.mpr htake, by rw [hsame]⟩⟩
    | change name f hf e hthere =>
        cases hrevise : Entries.revise K.name name f entries with
        | none => cases hthere.symm.trans (Entries.revise_eq_none_iff.mp hrevise)
        | some revised => exact ⟨revised, Codec.map_eq_ok.mpr ⟨revised, RegistryKind.change_eq_ok_iff.mpr hrevise, rfl⟩⟩

/-- Calls on the map one after another. -/
inductive Effects {ι : Type} (calls : ι → RegistryCall K) (m : Str → Option α) :
    List (ι × Option α) → (Str → Option α) → Prop
  | nil : Effects calls m [] m
  | snoc {order : List (ι × Option α)} {m₁ m₂ : Str → Option α} {i : ι} {out : Option α} (h : Effects calls m order m₁)
      (hcall : Effect m₁ (calls i) out m₂) : Effects calls m (order ++ [(i, out)]) m₂

/-- What nobody disturbs stays. -/
theorem Effect.keeps {call : RegistryCall K} {m m' : Str → Option α} {out : Option α} (h : Effect m call out m')
    {name : Str} (hkept : ¬ call.Disturbs name) {e : α} (he : m name = some e) : m' name = some e := by
  cases h with
  | add e' hfree =>
      have hne : name ≠ K.name e' := fun heq => by
        rw [heq, hfree] at he
        cases he
      rw [Function.update_of_ne hne, he]
  | remove k e' hthere => rw [Function.update_of_ne (Ne.symm hkept), he]
  | change k f hf e' hthere => rw [Function.update_of_ne (Ne.symm hkept), he]

section

variable {ι : Type} {calls : ι → RegistryCall K} {m m' : Str → Option α} {order : List (ι × Option α)}

theorem Effects.registered (h : Effects calls m order m') {i : ι} {e : α} (hi : calls i = .add e)
    (hkept : ∀ j, ¬ (calls j).Disturbs (K.name e)) {out : Option α} (hmem : (i, out) ∈ order) :
    m' (K.name e) = some e := by
  induction h with
  | nil => cases hmem
  | snoc h hcall ih =>
      cases List.mem_append.mp hmem with
      | inl hmem => exact hcall.keeps (hkept _) (ih hmem)
      | inr hmem =>
          cases List.mem_singleton.mp hmem
          rw [hi] at hcall
          cases hcall with
          | add _ hfree => exact Function.update_self ..

/-- Of the calls that register one name, which nobody disturbs, one goes through. -/
theorem Effects.add_unique (h : Effects calls m order m') {i j : ι} {e e' : α} (hi : calls i = .add e)
    (hj : calls j = .add e') (hname : K.name e = K.name e') (hkept : ∀ k, ¬ (calls k).Disturbs (K.name e))
    {out out' : Option α} (hmem : (i, out) ∈ order) (hmem' : (j, out') ∈ order) : i = j := by
  -- The later of the two finds the name taken.
  have htaken : ∀ {m₁ m₂ : Str → Option α} {order : List (ι × Option α)} {i j : ι} {e e' : α} {out out' : Option α},
      Effects calls m order m₁ → calls i = .add e → (i, out) ∈ order → (∀ k, ¬ (calls k).Disturbs (K.name e)) →
      calls j = .add e' → K.name e = K.name e' → ¬ Effect m₁ (calls j) out' m₂ := by
    intro m₁ m₂ order i j e e' out out' h hi hmem hkept hj hname hcall
    have hthere := h.registered hi hkept hmem
    rw [hj] at hcall
    cases hcall with
    | add _ hfree =>
        rw [hname, hfree] at hthere
        cases hthere
  induction h with
  | nil => cases hmem
  | snoc h hcall ih =>
      rcases List.mem_append.mp hmem with hold | hnew
      · rcases List.mem_append.mp hmem' with hold' | hnew'
        · exact ih hold hold'
        · cases List.mem_singleton.mp hnew'
          exact absurd hcall (htaken h hi hold hkept hj hname)
      · cases List.mem_singleton.mp hnew
        rcases List.mem_append.mp hmem' with hold' | hnew'
        · exact absurd hcall (htaken h hj hold' (hname ▸ hkept) hi hname.symm)
        · cases List.mem_singleton.mp hnew'
          rfl

end

end RegistryCall

/-! ## The file -/

/-- Printing and reading the entries of a registry. -/
structure RegistryJson (α : Type) where
  toVecPretty : List α → List UInt8
  fromSlice : List UInt8 → Except Str (List α)

/-- What is documented of the library: it reads back what it prints. -/
def RegistryJson.Lawful {α : Type} (json : RegistryJson α) : Prop :=
  ∀ entries, json.fromSlice (json.toVecPretty entries) = .ok entries

/-- The entries in a file. A missing file is an empty registry. -/
def RegistryJson.load {α : Type} (json : RegistryJson α) : Option (List UInt8) → Except WorkError (List α)
  | none => .ok []
  | some bytes => (json.fromSlice bytes).mapError .decode

namespace RegistryCall

section

variable {α ι ρ : Type} {K : RegistryKind α}

/-- Calls of `mutate_locked` on a registry. A call is known by its process and by the count of the
    temporary names that the process has used. -/
def program (json : RegistryJson α) (calls : ι → RegistryCall K) (pid counter : ι → Nat) :
    Durable.Program Str UInt8 ι (List α) WorkError (Option α) where
  cell := K.file
  temp i := tempName (pid i) (counter i) K.file
  load := json.load
  save := json.toVecPretty
  body i := (calls i).run

theorem program_lawful (json : RegistryJson α) (calls : ι → RegistryCall K) (pid counter : ι → Nat) :
    (program json calls pid counter).Lawful := by
  intro i h
  have hhead := congrArg List.head? h
  exact K.visible hhead.symm

/-- What a moment of a run has to show for a registry on the disk. The calls in `order` are those
    whose registry stands. -/
structure Registered (json : RegistryJson α) (calls : ι → RegistryCall K) (pid counter : ι → Nat) (initial : List α)
    (s : Durable.System Str UInt8 ι ρ (List α) WorkError (Option α)) (entries : List α) : Prop where
  load_eq : json.load (s.cell (program json calls pid counter)) = .ok entries
  unique : (entries.map K.name).Nodup
  effects : Effects calls (K.get initial) s.order (K.get entries)
  in_order : (entries.map K.name).Sublist (initial.map K.name ++ s.order.flatMap fun call => (calls call.1).adds)
  once : (s.order.map Prod.fst).Nodup
  lock_order : (s.order.map Prod.fst).Sublist s.acquired
  returned : ∀ i out durable, s.phase i = .returned out durable → (i, out) ∈ s.order
  failed : ∀ i e, s.phase i = .stopped (some e) → i ∉ s.order.map Prod.fst
  read : ∀ r full got, s.disk.reader r = .done ⟨⟩ K.file full got → got = full ∧
    ∃ entries order, json.load (some got) = .ok entries ∧ (entries.map K.name).Nodup ∧
      Effects calls (K.get initial) order (K.get entries)

end

section

variable {α ι ρ : Type} {K : RegistryKind α} {json : RegistryJson α} {calls : ι → RegistryCall K}
  {pid counter : ι → Nat} {initial : List α}

/-- Calls one after another keep the names apart, and do on the map what they do on the file. -/
theorem effects_of_serial (hjson : json.Lawful) {c file : Option (List UInt8)} (hinitial : json.load c = .ok initial)
    (hunique : (initial.map K.name).Nodup) {order : List (ι × Option α)}
    (h : (program json calls pid counter).Serial c order file) :
    ∃ entries, json.load file = .ok entries ∧ (entries.map K.name).Nodup ∧
      Effects calls (K.get initial) order (K.get entries) ∧
      (entries.map K.name).Sublist (initial.map K.name ++ order.flatMap fun call => (calls call.1).adds) := by
  induction h with
  | nil => exact ⟨initial, hinitial, hunique, .nil, by simp⟩
  | @snoc order c₁ c₂ i out h hcall ih =>
      obtain ⟨entries, hload, hnodup, heffects, hnames⟩ := ih
      unfold Locked.alone program at hcall
      simp only [hload] at hcall
      cases hrun : (calls i).run entries with
      | error e => simp [hrun] at hcall
      | ok r =>
          obtain ⟨out', entries'⟩ := r
          simp only [hrun, Except.ok.injEq, Prod.mk.injEq] at hcall
          obtain ⟨rfl, rfl⟩ := hcall
          obtain ⟨heffect, hnodup', hadded⟩ := effect_of_run hnodup hrun
          refine ⟨entries', ?_, hnodup', heffects.snoc heffect, ?_⟩
          · exact congrArg (Except.mapError WorkError.decode) (hjson entries')
          · rw [List.flatMap_append, List.flatMap_singleton, ← List.append_assoc]
            exact hadded.trans (hnames.append (List.Sublist.refl _))

variable [DecidableEq ι] [DecidableEq ρ]

/-- No crash and no race tears a registry, loses an entry or doubles a name. Whatever the order of the
    steps of any number of calls, and wherever they fail, die or lose the power, the file holds what
    the calls in `order` make of the map from names one after another, in the order of the lock, each
    with its name free or taken as it has to be; every call that has returned is among them; and a
    reader that takes no lock gets a whole registry. -/
theorem registry_onDisk (hjson : json.Lawful) {base : PUnit → Str → Option (List UInt8)}
    (hinitial : json.load (base ⟨⟩ K.file) = .ok initial) (hunique : (initial.map K.name).Nodup)
    {start s : Durable.System Str UInt8 ι ρ (List α) WorkError (Option α)}
    (hstart : Durable.Fresh (program json calls pid counter) base start)
    (hrun : ReflTransGen (Durable.Step (program json calls pid counter)) start s) :
    ∃ entries, Registered json calls pid counter initial s entries := by
  have hP := program_lawful json calls pid counter
  have hinv := Durable.inv_of_reaches hP hstart hrun
  obtain ⟨entries, hload, hnodup, heffects, hnames⟩ := effects_of_serial hjson hinitial hunique (hinv.serial hP)
  refine ⟨entries, hload, hnodup, heffects, hnames, hinv.nodup, hinv.sublist, fun i out durable hi => ?_,
    fun i e hi => ?_, fun r full got hr => ?_⟩
  · exact (hinv.fits_of hi).2
  · exact (hinv.fits_of hi).2 rfl
  · have hreader := hinv.disk.reader r
    have hexplained := hinv.readers r
    rw [hr] at hreader hexplained
    obtain ⟨-, rfl⟩ := hreader
    obtain ⟨order, -, hserial⟩ := hexplained rfl
    obtain ⟨shown, hshown, hnodup', heffects', -⟩ := effects_of_serial hjson hinitial hunique hserial
    exact ⟨rfl, shown, order, hshown, hnodup', heffects'⟩

/-- A registration that has returned stands, and is the only one of its name, where no call takes it
    away or changes it. -/
theorem registration_stands (hjson : json.Lawful) {base : PUnit → Str → Option (List UInt8)}
    (hinitial : json.load (base ⟨⟩ K.file) = .ok initial) (hunique : (initial.map K.name).Nodup)
    {start s : Durable.System Str UInt8 ι ρ (List α) WorkError (Option α)}
    (hstart : Durable.Fresh (program json calls pid counter) base start)
    (hrun : ReflTransGen (Durable.Step (program json calls pid counter)) start s) {i : ι} {e : α}
    (hadd : calls i = .add e) (hkept : ∀ j, ¬ (calls j).Disturbs (K.name e)) {out : Option α} {durable : Bool}
    (hreturned : s.phase i = .returned out durable) :
    (∃ entries, json.load (s.cell (program json calls pid counter)) = .ok entries ∧
      K.get entries (K.name e) = some e) ∧
      ∀ j e' out' durable', calls j = .add e' → K.name e = K.name e' → s.phase j = .returned out' durable' → i = j := by
  have hP := program_lawful json calls pid counter
  have hinv := Durable.inv_of_reaches hP hstart hrun
  obtain ⟨entries, hload, -, heffects, -⟩ := effects_of_serial hjson hinitial hunique (hinv.serial hP)
  have hmem := (hinv.fits_of hreturned).2
  refine ⟨⟨entries, hload, heffects.registered hadd hkept hmem⟩, fun j e' out' durable' hadd' hname hreturned' => ?_⟩
  exact heffects.add_unique hadd hadd' hname hkept hmem (hinv.fits_of hreturned').2

end

/-- The remote `origin`. -/
def origin : Remote := ⟨"origin".toList, "/srv/omo".toList, none⟩

def originFile : List UInt8 :=
  utf8 ("\x7b\n  \"remotes\": [\n    \x7b\n      \"name\": \"origin\",\n      \"path\": \"/srv/omo\"\n    \x7d\n  ]\n" ++
    "\x7d").toList

/-- A library that prints the registry with `origin` as it is documented, and every other one by a
    number. -/
def originJson : RegistryJson Remote where
  toVecPretty entries := if entries = [origin] then originFile else List.replicate (Encodable.encode entries) 120
  fromSlice bytes :=
    if bytes = originFile then .ok [origin]
    else
      match (Encodable.decode bytes.length : Option (List Remote)) with
      | some entries => .ok entries
      | none => .error "expected value at line 1 column 1".toList

theorem originJson_lawful : originJson.Lawful := by
  intro entries
  unfold originJson
  by_cases h : entries = [origin]
  · simp [h]
  · have hne : List.replicate (Encodable.encode entries) 120 ≠ originFile := by
      intro heq
      have hmem : (123 : UInt8) ∈ originFile := by decide
      rw [← heq, List.mem_replicate] at hmem
      exact absurd hmem.2 (by decide)
    simp [h, hne]

/-- One call, which registers `origin`. -/
abbrev originProgram : Durable.Program Str UInt8 Unit (List Remote) WorkError (Option Remote) :=
  program (K := remoteKind) originJson (fun _ => .add origin) (fun _ => 7) fun _ => 0

theorem exists_origin_returned : ∃ s : Durable.System Str UInt8 Unit Unit (List Remote) WorkError (Option Remote),
    ReflTransGen (Durable.Step originProgram) .empty s ∧ s.phase () = .returned (some origin) true := by
  obtain ⟨s, hrun, hphase, -⟩ := Durable.exists_returned (P := originProgram)
    (Durable.System.empty : Durable.System Str UInt8 Unit Unit (List Remote) WorkError (Option Remote))
    (i := ()) (f := .empty) (a := []) (b := [origin]) (some origin) rfl rfl rfl rfl rfl
  exact ⟨s, hrun, hphase⟩

/-- The call leaves a registry with `origin` on the disk. -/
theorem registry_onDisk_origin :
    ∃ (s : Durable.System Str UInt8 Unit Unit (List Remote) WorkError (Option Remote)) (entries : List Remote),
      s.phase () = .returned (some origin) true ∧
      Registered (K := remoteKind) originJson (fun _ => .add origin) (fun _ => 7) (fun _ => 0) [] s entries := by
  obtain ⟨s, hrun, hphase⟩ := exists_origin_returned
  have hnil : (([] : List Remote).map remoteKind.name).Nodup := List.nodup_nil
  obtain ⟨entries, hregistered⟩ := registry_onDisk originJson_lawful rfl hnil (Durable.fresh_empty _) hrun
  exact ⟨s, entries, hphase, hregistered⟩

/-- What it has registered is found there. -/
theorem registration_stands_origin :
    ∃ (s : Durable.System Str UInt8 Unit Unit (List Remote) WorkError (Option Remote)) (entries : List Remote),
      originJson.load (s.cell originProgram) = .ok entries ∧
        remoteKind.get entries "origin".toList = some origin := by
  obtain ⟨s, hrun, hphase⟩ := exists_origin_returned
  have hnil : (([] : List Remote).map remoteKind.name).Nodup := List.nodup_nil
  have hstands := registration_stands originJson_lawful rfl hnil (Durable.fresh_empty _) hrun (i := ()) rfl
    (fun _ hdisturbs => hdisturbs) hphase
  exact ⟨s, hstands.1⟩

end RegistryCall

end Omoplata
