-- SUMMARY: Read-modify-write calls under a lock, on a file that is replaced as a whole, with deaths and power losses.
import Omoplata.Lib.Locked
import Omoplata.Lib.Staged

/-!
# Calls under a lock, on a disk

The cell that calls change under a lock is a file, and what a call publishes is staged and
renamed into place. The lock falls free when its holder dies. After a power loss the file holds
what a front part of the calls has left, with every call in it that has synced the directory.
-/

open Relation

universe u

namespace Durable

variable {ν β ι ρ : Type u} {α : Type u} {ε τ : Type u}

/-- The calls: the file they change, where each stages it, and what each makes of its content. -/
structure Program (ν β ι α ε τ : Type u) where
  cell : ν
  temp : ι → ν
  load : Option (List β) → Except ε α
  save : α → List β
  body : ι → α → Except ε (τ × α)

namespace Program

variable (P : Program ν β ι α ε τ)

def Lawful : Prop := ∀ i, P.temp i ≠ P.cell

/-- The calls as staged writes of one file, in a directory that is itself on the disk. -/
def config : Staged.Config PUnit ν β ι ν where
  dir _ := ⟨⟩
  target _ := P.cell
  temp := P.temp
  owner := P.temp
  goal _ _ := True
  kept _ := true
  skips := false

/-- A call that is not interrupted. -/
def alone (i : ι) (c : Option (List β)) : Except ε (τ × Option (List β)) :=
  Locked.alone P.load (fun a => some (P.save a)) P.body i c

/-- Calls one after another. -/
abbrev Serial (c : Option (List β)) : List (ι × τ) → Option (List β) → Prop :=
  Locked.Serial P.load (fun a => some (P.save a)) P.body c

end Program

/-- How far a call has come. A call stops with an error or because it dies. -/
inductive Phase (α ε τ : Type u) where
  | outside
  | holding
  | loaded (a : α)
  | changed (out : τ) (a : α)
  | saving (out : τ) (a : α)
  | returned (out : τ) (durable : Bool)
  | stopped (e : Option ε)

namespace Phase

/-- Whether a call holds the lock and has not begun to save. -/
def isEarly : Phase α ε τ → Bool
  | holding | loaded _ | changed _ _ => true
  | _ => false

/-- Whether a call holds the lock. -/
def holds : Phase α ε τ → Bool
  | holding | loaded _ | changed _ _ | saving _ _ => true
  | _ => false

/-- What a power loss leaves to say about a call. -/
def afterLoss : Phase α ε τ → Phase α ε τ
  | outside => outside
  | returned out true => returned out true
  | stopped (some e) => stopped (some e)
  | _ => stopped none

end Phase

/-- The disk, the holder of the lock, and the calls. `acquired` lists the calls in the order they
    took the lock, `order` those whose file stands. -/
structure System (ν β ι ρ α ε τ : Type u) where
  disk : Staged.System PUnit ν β ι ρ
  holder : Option ι
  phase : ι → Phase α ε τ
  acquired : List ι
  order : List (ι × τ)

/-- What the file holds. -/
def System.cell (P : Program ν β ι α ε τ) (s : System ν β ι ρ α ε τ) : Option (List β) := s.disk.lookup ⟨⟩ P.cell

/-- A call moves on. -/
def System.move [DecidableEq ι] (s : System ν β ι ρ α ε τ) (i : ι) (phase : Phase α ε τ) : System ν β ι ρ α ε τ :=
  { s with phase := Function.update s.phase i phase }

variable [DecidableEq ν] [DecidableEq ι] [DecidableEq ρ]

/-- The steps of calls, of readers, and of the world. -/
inductive Step (P : Program ν β ι α ε τ) (s : System ν β ι ρ α ε τ) : System ν β ι ρ α ε τ → Prop
  | acquire (i : ι) (hi : s.phase i = .outside) (hfree : s.holder = none) :
      Step P s { s.move i .holding with holder := some i, acquired := s.acquired ++ [i] }
  | lockFails (i : ι) (e : ε) (hi : s.phase i = .outside) : Step P s (s.move i (.stopped (some e)))
  | load (i : ι) (a : α) (hi : s.phase i = .holding) (ha : P.load (s.cell P) = .ok a) : Step P s (s.move i (.loaded a))
  | change (i : ι) (a b : α) (out : τ) (hi : s.phase i = .loaded a) (hb : P.body i a = .ok (out, b)) :
      Step P s (s.move i (.changed out b))
  | save (i : ι) (out : τ) (b : α) (f : Staged.Folder ν β ι) (hi : s.phase i = .changed out b)
      (hf : s.disk.folder ⟨⟩ = some f) :
      Step P s { s.move i (.saving out b) with
        disk := s.disk.act i ⟨⟩ (f.create (P.temp i)).2 (.writing (f.create (P.temp i)).1 (P.save b) (P.save b)) }
  | work (i : ι) (out : τ) (b : α) (disk : Staged.System PUnit ν β ι ρ) (hi : s.phase i = .saving out b)
      (h : Staged.Works P.config s.disk i disk) : Step P s { s with disk := disk }
  | publish (i : ι) (out : τ) (b : α) (file : Nat) (f f' : Staged.Folder ν β ι) (hi : s.phase i = .saving out b)
      (hsynced : s.disk.stage i = .synced file (P.save b)) (hf : s.disk.folder ⟨⟩ = some f)
      (hrename : f.rename (P.temp i) P.cell (i, P.save b) = some f') :
      Step P s { s with
        disk := s.disk.act i ⟨⟩ f' (.renamed (P.save b))
        order := s.order ++ [(i, out)] }
  | finish (i : ι) (out : τ) (b : α) (f : Staged.Folder ν β ι) (hi : s.phase i = .saving out b)
      (hrenamed : s.disk.stage i = .renamed (P.save b)) (hf : s.disk.folder ⟨⟩ = some f) :
      Step P s { s.move i (.returned out true) with
        disk := s.disk.act i ⟨⟩ f.syncDir (.returned (P.save b) true)
        holder := none }
  | leave (i : ι) (out : τ) (b : α) (hi : s.phase i = .saving out b)
      (hrenamed : s.disk.stage i = .renamed (P.save b)) :
      Step P s { s.move i (.returned out false) with
        disk := s.disk.move i (.returned (P.save b) false)
        holder := none }
  | fail (i : ι) (e : Option ε) (hi : (s.phase i).isEarly) : Step P s { s.move i (.stopped e) with holder := none }
  | saveFails (i : ι) (e : Option ε) (out : τ) (b : α) (hi : s.phase i = .saving out b)
      (hfile : (s.disk.stage i).file?.isSome) :
      Step P s { s.move i (.stopped e) with disk := s.disk.move i .stopped, holder := none }
  | dies (i : ι) (out : τ) (b : α) (hi : s.phase i = .saving out b)
      (hrenamed : s.disk.stage i = .renamed (P.save b)) :
      Step P s { s.move i (.stopped none) with disk := s.disk.move i .stopped, holder := none }
  | look (r : ρ) (reader : Staged.Reader PUnit ν β) (h : Staged.Looks P.config s.disk r reader) :
      Step P s { s with disk := s.disk.look r reader }
  | powerLoss (disk : Staged.System PUnit ν β ι ρ) (f : Staged.Folder ν β ι)
      (h : Staged.Loses P.config s.disk disk) (hf : disk.folder ⟨⟩ = some f) :
      Step P s { s with
        disk := disk
        holder := none
        phase := fun i => (s.phase i).afterLoss
        order := s.order.take f.now.published.length }

/-! ## What holds in every state -/

section Defs

variable (P : Program ν β ι α ε τ)

/-- A call that has not published is behind all that have, in the order of the lock. -/
def Unpublished (s : System ν β ι ρ α ε τ) (i : ι) : Prop :=
  s.holder = some i ∧ i ∉ s.order.map Prod.fst ∧
    ∃ before, s.acquired = before ++ [i] ∧ (s.order.map Prod.fst).Sublist before

/-- What a call knows. -/
def Fits (s : System ν β ι ρ α ε τ) (i : ι) : Phase α ε τ → Prop
  | .outside => s.disk.stage i = .outside ∧ i ∉ s.order.map Prod.fst
  | .holding => Unpublished s i ∧ s.disk.stage i = .outside
  | .loaded a => Unpublished s i ∧ s.disk.stage i = .outside ∧ P.load (s.cell P) = .ok a
  | .changed out b =>
      Unpublished s i ∧ s.disk.stage i = .outside ∧ P.alone i (s.cell P) = .ok (out, some (P.save b))
  | .saving out b =>
      Unpublished s i ∧ (s.disk.stage i).Stages (P.save b) ∧ P.alone i (s.cell P) = .ok (out, some (P.save b)) ∨
        s.holder = some i ∧ s.disk.stage i = .renamed (P.save b) ∧ (i, out) ∈ s.order
  | .returned out durable => (∃ bytes, s.disk.stage i = .returned bytes durable) ∧ (i, out) ∈ s.order
  | .stopped e => (s.disk.stage i).isOpen = false ∧ (e.isSome → i ∉ s.order.map Prod.fst)

/-- Whatever the directory falls back to shows what a front part of the calls has left. -/
structure Ordered (base : PUnit → ν → Option (List β)) (order : List (ι × τ)) (f : Staged.Folder ν β ι) : Prop where
  now : order.map Prod.fst = f.now.published.map Prod.fst
  listings : ∀ v ∈ f.listings, ∃ front, front <+: order ∧ front.map Prod.fst = v.published.map Prod.fst ∧
    P.Serial (base ⟨⟩ P.cell) front (P.config.puts (base ⟨⟩) v.published P.cell)

/-- What a reader of the file has in hand is what some calls have left, one after another. -/
def Explained (base : PUnit → ν → Option (List β)) : Staged.Reader PUnit ν β → Prop
  | .idle => True
  | .reading _ name _ full _ | .done _ name full _ =>
      name = P.cell → ∃ order : List (ι × τ), (order.map Prod.fst).Nodup ∧ P.Serial (base ⟨⟩ P.cell) order (some full)

/-- What holds in every state of a run. -/
structure Inv (base : PUnit → ν → Option (List β)) (s : System ν β ι ρ α ε τ) : Prop where
  disk : Staged.Inv P.config base s.disk
  ordered : ∀ f, s.disk.folder ⟨⟩ = some f → Ordered P base s.order f
  nodup : (s.order.map Prod.fst).Nodup
  sublist : (s.order.map Prod.fst).Sublist s.acquired
  fits : ∀ i, Fits P s i (s.phase i)
  holder : ∀ i, s.holder = some i → (s.phase i).holds
  readers : ∀ r, Explained P base (s.disk.reader r)

/-- A system in which no call has begun. -/
structure Fresh (base : PUnit → ν → Option (List β)) (s : System ν β ι ρ α ε τ) : Prop where
  disk : Staged.Fresh P.config base s.disk
  holder : s.holder = none
  phase : ∀ i, s.phase i = .outside
  order : s.order = []

end Defs

section Run

variable {P : Program ν β ι α ε τ} {base : PUnit → ν → Option (List β)} {s s' : System ν β ι ρ α ε τ}

omit [DecidableEq ν] [DecidableEq ι] [DecidableEq ρ]

/-- An empty directory that nothing has been done to. -/
def System.empty : System ν β ι ρ α ε τ where
  disk := ⟨fun _ => some .empty, fun _ => .outside, fun _ => .idle⟩
  holder := none
  phase _ := .outside
  acquired := []
  order := []

theorem fresh_empty (P : Program ν β ι α ε τ) : Fresh (ρ := ρ) P (fun _ _ => none) .empty where
  disk :=
    { stage := fun _ => rfl
      reader := fun _ => rfl
      kept := fun _ => rfl
      lost := fun _ h => by cases h
      older := fun _ _ h => by cases h; rfl
      published := fun _ _ h => by cases h; rfl
      injective := fun _ _ h _ _ _ hn => by cases h; cases hn
      below := fun _ _ h _ _ hn => by cases h; cases hn
      shows := fun _ _ h _ _ => by cases h; rfl }
  holder := rfl
  phase _ := rfl
  order := rfl

theorem Program.Lawful.config (h : P.Lawful) : P.config.Lawful where
  temp_ne i _ := h i
  owner_eq _ _ heq := heq

theorem Program.Lawful.isPlain (h : P.Lawful) : P.config.IsPlain P.cell := h

/-- A call that does not hold the lock only knows its own file and whether it has published. -/
theorem Fits.frame {i : ι} {phase : Phase α ε τ} (h : Fits P s i phase) (hholder : s.holder ≠ some i)
    (hstage : s'.disk.stage i = s.disk.stage i) (horder : ∀ out, (i, out) ∈ s'.order ↔ (i, out) ∈ s.order) :
    Fits P s' i phase := by
  have habsent : i ∉ s.order.map Prod.fst → i ∉ s'.order.map Prod.fst := by
    intro hi hmem
    obtain ⟨⟨j, out⟩, hout, rfl⟩ := List.mem_map.mp hmem
    exact hi (List.mem_map.mpr ⟨(j, out), (horder out).mp hout, rfl⟩)
  cases phase with
  | outside => exact ⟨hstage.trans h.1, habsent h.2⟩
  | holding => exact absurd h.1.1 hholder
  | loaded a => exact absurd h.1.1 hholder
  | changed out b => exact absurd h.1.1 hholder
  | saving out b =>
      cases h with
      | inl hearly => exact absurd hearly.1.1 hholder
      | inr hlate => exact absurd hlate.1 hholder
  | returned out durable =>
      obtain ⟨⟨bytes, hbytes⟩, hmem⟩ := h
      exact ⟨⟨bytes, hstage.trans hbytes⟩, (horder out).mpr hmem⟩
  | stopped e => exact ⟨hstage ▸ h.1, fun he => habsent (h.2 he)⟩

/-- A call that has not begun to save. -/
theorem Fits.early {i : ι} {phase : Phase α ε τ} (h : Fits P s i phase) (hearly : phase.isEarly) :
    Unpublished s i ∧ s.disk.stage i = .outside := by
  cases phase with
  | holding => exact h
  | loaded a => exact ⟨h.1, h.2.1⟩
  | changed out b => exact ⟨h.1, h.2.1⟩
  | outside => cases hearly
  | saving out b => cases hearly
  | returned out durable => cases hearly
  | stopped e => cases hearly

/-- A call whose file is being written holds the lock. -/
theorem Fits.holder_of_isOpen {i : ι} {phase : Phase α ε τ} (h : Fits P s i phase)
    (hopen : (s.disk.stage i).isOpen) : s.holder = some i := by
  cases phase with
  | outside => simp [h.1, Staged.Stage.isOpen] at hopen
  | holding => exact h.1.1
  | loaded a => exact h.1.1
  | changed out b => exact h.1.1
  | saving out b =>
      cases h with
      | inl hearly => exact hearly.1.1
      | inr hlate => exact hlate.1
  | returned out durable =>
      obtain ⟨⟨bytes, hbytes⟩, -⟩ := h
      simp [hbytes, Staged.Stage.isOpen] at hopen
  | stopped e => simp [h.1] at hopen

/-- While a call holds the lock, the others only know their own files and what they have published. -/
theorem Fits.others {i : ι} (hholds : s.holder = some i) (hstage : ∀ j, j ≠ i → s'.disk.stage j = s.disk.stage j)
    (horder : ∀ j, j ≠ i → ∀ out, (j, out) ∈ s'.order ↔ (j, out) ∈ s.order) :
    ∀ j, j ≠ i → Fits P s j (s.phase j) → Fits P s' j (s.phase j) := by
  intro j hj hfits
  exact hfits.frame (by simp [hholds, Ne.symm hj]) (hstage j hj) (horder j hj)

/-- What a call knows after a power loss, where the calls that have returned with their files on the
    disk have still published. -/
theorem Fits.afterLoss {i : ι} {phase : Phase α ε τ} (h : Fits P s i phase)
    (hstage : s'.disk.stage i = (s.disk.stage i).afterLoss true) (horder : s'.order.Sublist s.order)
    (hdurable : ∀ bytes out, s'.disk.stage i = .returned bytes true → (i, out) ∈ s.order → (i, out) ∈ s'.order) :
    Fits P s' i phase.afterLoss := by
  have habsent : i ∉ s.order.map Prod.fst → i ∉ s'.order.map Prod.fst :=
    fun hi hmem => hi ((horder.map _).subset hmem)
  have hclosed : (s'.disk.stage i).isOpen = false := by rw [hstage, Staged.Stage.isOpen_afterLoss]
  have hlost : Fits P s' i (.stopped none) := ⟨hclosed, fun he => absurd he Bool.false_ne_true⟩
  cases phase with
  | outside => exact ⟨by rw [hstage, h.1]; rfl, habsent h.2⟩
  | holding => exact hlost
  | loaded a => exact hlost
  | changed out b => exact hlost
  | saving out b => exact hlost
  | stopped e =>
      cases e with
      | none => exact hlost
      | some e => exact ⟨hclosed, fun he => habsent (h.2 he)⟩
  | returned out durable =>
      cases durable with
      | false => exact hlost
      | true =>
          obtain ⟨⟨bytes, hbytes⟩, hmem⟩ := h
          have hreturned : s'.disk.stage i = .returned bytes true := by
            rw [hstage, hbytes]
            rfl
          exact ⟨⟨bytes, hreturned⟩, hdurable bytes out hreturned hmem⟩

theorem Explained.afterLoss {reader : Staged.Reader PUnit ν β} (h : Explained P base reader) :
    Explained P base reader.afterLoss := by
  cases reader with
  | idle => trivial
  | reading d name file full got => trivial
  | done d name full got => exact h

theorem phase_eq_update [DecidableEq ι] {i : ι} {phase : Phase α ε τ} (hi : s.phase i = phase) :
    s.phase = Function.update s.phase i phase := by
  rw [← hi, Function.update_eq_self]

theorem stage_act_of_ne [DecidableEq ι] {disk : Staged.System PUnit ν β ι ρ} {i : ι} {f : Staged.Folder ν β ι}
    {stage : Staged.Stage β} : ∀ j, j ≠ i → (disk.act i ⟨⟩ f stage).stage j = disk.stage j :=
  fun _ hj => Function.update_of_ne hj ..

variable [DecidableEq ν]

theorem Inv.exists_folder (h : Inv P base s) : ∃ f, s.disk.folder ⟨⟩ = some f :=
  Option.isSome_iff_exists.mp (h.disk.kept ⟨⟩ rfl)

/-- A front part of the calls is known from its length. -/
theorem eq_take_of_published {order front : List (ι × τ)} {published : List (ι × List β)} (hfront : front <+: order)
    (hmap : front.map Prod.fst = published.map Prod.fst) : front = order.take published.length := by
  have hlength := congrArg List.length hmap
  simp only [List.length_map] at hlength
  rw [← hlength]
  exact List.prefix_iff_eq_take.mp hfront

/-- The file holds what the calls that have published have left, one after another. -/
theorem Inv.serial (h : Inv P base s) (hP : P.Lawful) : P.Serial (base ⟨⟩ P.cell) s.order (s.cell P) := by
  obtain ⟨f, hf⟩ := h.exists_folder
  obtain ⟨front, hfront, hmap, hserial⟩ := (h.ordered f hf).listings f.now List.mem_cons_self
  have heq : front = s.order := by
    refine hfront.eq_of_length ?_
    rw [← List.length_map Prod.fst, hmap, ← (h.ordered f hf).now, List.length_map]
  rw [System.cell, h.disk.lookup_eq_puts hP.isPlain hf]
  exact heq ▸ hserial

theorem Ordered.quiet {order : List (ι × τ)} {f f' : Staged.Folder ν β ι} (h : Ordered P base order f)
    (hquiet : f.Quiet f') : Ordered P base order f' where
  now := hquiet.now ▸ h.now
  listings v hv := by
    obtain ⟨w, hw, heq⟩ := hquiet.listings v hv
    exact heq ▸ h.listings w hw

/-- A call that publishes comes after all others. -/
theorem Ordered.publish {order : List (ι × τ)} {f f' : Staged.Folder ν β ι} (h : Ordered P base order f) {i : ι}
    {out : τ} {b : α} (halone : P.alone i (P.config.puts (base ⟨⟩) f.now.published P.cell) = .ok (out, some (P.save b)))
    (hrename : f.rename (P.temp i) P.cell (i, P.save b) = some f') : Ordered P base (order ++ [(i, out)]) f' := by
  obtain ⟨hnow, holder⟩ := Staged.Folder.rename_published hrename
  refine ⟨?_, fun v hv => ?_⟩
  · rw [hnow, List.map_append, List.map_append, h.now]
    rfl
  · cases List.mem_cons.mp hv with
    | inr hold =>
        obtain ⟨front, hfront, hrest⟩ := h.listings v (holder ▸ hold)
        exact ⟨front, hfront.trans (List.prefix_append ..), hrest⟩
    | inl heq =>
        obtain ⟨front, hfront, hmap, hserial⟩ := h.listings f.now List.mem_cons_self
        have hall : front = order := by
          refine hfront.eq_of_length ?_
          rw [← List.length_map Prod.fst, hmap, ← h.now, List.length_map]
        subst hall
        refine ⟨front ++ [(i, out)], List.prefix_rfl, ?_, ?_⟩
        · rw [heq, hnow, List.map_append, List.map_append, hmap]
          rfl
        · rw [heq, hnow, Staged.Config.puts_append]
          have hself : Function.update (P.config.puts (base ⟨⟩) f.now.published) P.cell (some (P.save b)) P.cell =
              some (P.save b) := Function.update_self ..
          exact hself.symm ▸ hserial.snoc halone

/-- A power loss leaves a front part of the calls. -/
theorem Ordered.survives {order : List (ι × τ)} {f f' : Staged.Folder ν β ι} (h : Ordered P base order f)
    (hloss : f.Survives f') : Ordered P base (order.take f'.now.published.length) f' := by
  obtain ⟨front, hfront, hmap, hserial⟩ := h.listings f'.now hloss.now
  have htake := eq_take_of_published hfront hmap
  refine ⟨htake ▸ hmap, fun v hv => ?_⟩
  rw [Staged.Folder.listings, hloss.older] at hv
  rw [List.mem_singleton.mp hv]
  exact ⟨front, htake ▸ List.prefix_rfl, hmap, hserial⟩

/-! ## Runs -/

/-- A step at which one call moves on. -/
theorem Inv.of_move [DecidableEq ι] (h : Inv P base s) {i : ι} {phase : Phase α ε τ}
    (hphase : s'.phase = Function.update s.phase i phase) (hdisk : Staged.Inv P.config base s'.disk)
    (hordered : ∀ f, s'.disk.folder ⟨⟩ = some f → Ordered P base s'.order f)
    (hnodup : (s'.order.map Prod.fst).Nodup) (hsublist : (s'.order.map Prod.fst).Sublist s'.acquired)
    (hfits : Fits P s' i phase) (hothers : ∀ j, j ≠ i → Fits P s j (s.phase j) → Fits P s' j (s.phase j))
    (hholder : s'.holder = some i ∧ phase.holds ∨ s'.holder = none ∨ s'.holder = s.holder ∧ s.holder ≠ some i)
    (hreader : s'.disk.reader = s.disk.reader) : Inv P base s' where
  disk := hdisk
  ordered := hordered
  nodup := hnodup
  sublist := hsublist
  fits j := by
    rw [hphase]
    by_cases hj : j = i
    · subst hj
      rwa [Function.update_self]
    · rw [Function.update_of_ne hj]
      exact hothers j hj (h.fits j)
  holder j hj := by
    rw [hphase]
    rcases hholder with ⟨hi, hholds⟩ | hnone | ⟨hsame, hi⟩
    · obtain rfl : i = j := Option.some.inj (hi.symm.trans hj)
      rwa [Function.update_self]
    · cases hnone.symm.trans hj
    · have hne : j ≠ i := fun heq => hi (heq ▸ hsame.symm.trans hj)
      rw [Function.update_of_ne hne]
      exact h.holder j (hsame.symm.trans hj)
  readers r := hreader ▸ h.readers r

theorem inv_fresh (h : Fresh P base s) : Inv P base s where
  disk := h.disk.inv
  ordered f hf := by
    have hnone := h.disk.published ⟨⟩ f hf
    refine ⟨by simp [h.order, hnone], fun v hv => ⟨[], List.nil_prefix, ?_⟩⟩
    rw [Staged.Folder.listings, h.disk.older ⟨⟩ f hf] at hv
    rw [List.mem_singleton.mp hv, hnone]
    exact ⟨rfl, .nil⟩
  nodup := by simp [h.order]
  sublist := by simp [h.order]
  fits i := by
    rw [h.phase i]
    exact ⟨h.disk.stage i, by simp [h.order]⟩
  holder i hi := by simp [h.holder] at hi
  readers r := by
    rw [h.disk.reader r]
    trivial

theorem Inv.fits_of (h : Inv P base s) {i : ι} {phase : Phase α ε τ} (hi : s.phase i = phase) : Fits P s i phase :=
  hi ▸ h.fits i

/-- A call that saves and has renamed its file has published. -/
theorem Inv.renamed (h : Inv P base s) {i : ι} {out : τ} {b : α} (hi : s.phase i = .saving out b)
    (hrenamed : s.disk.stage i = .renamed (P.save b)) : s.holder = some i ∧ (i, out) ∈ s.order := by
  cases h.fits_of hi with
  | inr hlate => exact ⟨hlate.1, hlate.2.2⟩
  | inl hearly =>
      have hstages := hearly.2.1
      simp [hrenamed, Staged.Stage.Stages] at hstages

/-- A call that saves and has a file has not published. -/
theorem Inv.staged (h : Inv P base s) {i : ι} {out : τ} {b : α} (hi : s.phase i = .saving out b)
    (hfile : (s.disk.stage i).file?.isSome) :
    Unpublished s i ∧ (s.disk.stage i).Stages (P.save b) ∧ P.alone i (s.cell P) = .ok (out, some (P.save b)) := by
  cases h.fits_of hi with
  | inl hearly => exact hearly
  | inr hlate => simp [hlate.2.1, Staged.Stage.file?] at hfile

/-- What a call does beside the names leaves the order as it is. -/
theorem Inv.ordered_act [DecidableEq ι] (h : Inv P base s) {i : ι} {f f' : Staged.Folder ν β ι} {stage : Staged.Stage β}
    (hf : s.disk.folder ⟨⟩ = some f) (hquiet : f.Quiet f') :
    ∀ g, (s.disk.act i ⟨⟩ f' stage).folder ⟨⟩ = some g → Ordered P base s.order g := by
  intro g hg
  cases (Staged.System.act_folder ..).symm.trans hg
  exact (h.ordered f hf).quiet hquiet

theorem Inv.powerLoss (h : Inv P base s) {disk : Staged.System PUnit ν β ι ρ} {f : Staged.Folder ν β ι}
    (hloss : Staged.Loses P.config s.disk disk) (hf : disk.folder ⟨⟩ = some f) :
    Inv P base { s with
      disk := disk
      holder := none
      phase := fun i => (s.phase i).afterLoss
      order := s.order.take f.now.published.length } := by
  have hdisk := h.disk.loses hloss
  obtain ⟨g, hg⟩ := h.exists_folder
  have hsurvives : g.Survives f := by
    rcases hloss.folder ⟨⟩ g hg with ⟨f', hf', hsurvives⟩ | hlost
    · cases hf.symm.trans hf'
      exact hsurvives
    · cases hlost.1
  have hordered := (h.ordered g hg).survives hsurvives
  have htake : (s.order.take f.now.published.length).Sublist s.order := List.take_sublist ..
  -- what has been synced is in every listing
  have hdurable : ∀ i bytes out, disk.stage i = .returned bytes true → (i, out) ∈ s.order →
      (i, out) ∈ s.order.take f.now.published.length := by
    intro i bytes out hstage hmem
    have hpublished := hdisk.stage i
    rw [hstage] at hpublished
    obtain ⟨f', hf', hin, -⟩ := hpublished
    cases hf.symm.trans hf'
    have hfirst : i ∈ (s.order.take f.now.published.length).map Prod.fst := hordered.now ▸ List.mem_map_of_mem hin
    obtain ⟨⟨j, out'⟩, hout', rfl⟩ := List.mem_map.mp hfirst
    have heq := List.inj_on_of_nodup_map h.nodup hmem (htake.subset hout') rfl
    exact heq ▸ hout'
  refine ⟨hdisk, fun f' hf' => ?_, h.nodup.sublist (htake.map _), (htake.map _).trans h.sublist,
    fun i => (h.fits i).afterLoss (hloss.stage i) htake (hdurable i), fun i hi => ?_, fun r => ?_⟩
  · cases hf.symm.trans hf'
    exact hordered
  · cases hi
  · show Explained P base (disk.reader r)
    rw [hloss.reader r]
    exact (h.readers r).afterLoss

variable [DecidableEq ι] [DecidableEq ρ]

theorem Inv.save (h : Inv P base s) (hP : P.Lawful) {i : ι} {out : τ} {b : α} {f : Staged.Folder ν β ι}
    (hi : s.phase i = .changed out b) (hf : s.disk.folder ⟨⟩ = some f) :
    Inv P base { s.move i (.saving out b) with
      disk := s.disk.act i ⟨⟩ (f.create (P.temp i)).2 (.writing (f.create (P.temp i)).1 (P.save b) (P.save b)) } := by
  obtain ⟨hunpublished, hstage, halone⟩ := h.fits_of hi
  -- no other call is writing, since none holds the lock
  have hfree : ∀ j, (s.disk.stage j).isOpen → P.config.owner j ≠ P.config.owner i := by
    intro j hj
    obtain rfl : i = j := Option.some.inj (hunpublished.1.symm.trans ((h.fits j).holder_of_isOpen hj))
    simp [hstage, Staged.Stage.isOpen] at hj
  have hcreate : Staged.Acts P.config s.disk _ := .create i (P.save b) f hstage trivial hf hfree
  have hdisk := h.disk.acts hP.config hcreate
  have hcell := h.disk.lookup_act hdisk hf (f.quiet_create _).now ⟨⟩ hP.isPlain
  refine h.of_move rfl hdisk (h.ordered_act hf (f.quiet_create _)) h.nodup h.sublist
    (.inl ⟨hunpublished, ?_, (congrArg (P.alone i) hcell).trans halone⟩)
    (Fits.others hunpublished.1 stage_act_of_ne fun _ _ _ => Iff.rfl) (.inl ⟨hunpublished.1, rfl⟩) rfl
  rw [show Staged.System.stage _ i = _ from Staged.System.act_stage ..]
  rfl

theorem Inv.work (h : Inv P base s) (hP : P.Lawful) {i : ι} {out : τ} {b : α} {disk : Staged.System PUnit ν β ι ρ}
    (hi : s.phase i = .saving out b) (hworks : Staged.Works P.config s.disk i disk) :
    Inv P base { s with disk := disk } := by
  have hdisk := h.disk.acts hP.config (.work i disk hworks)
  obtain ⟨f, f', stage, bytes, hf, rfl, hquiet, hstage, hstage'⟩ := hworks.exists_act
  cases h.fits_of hi with
  | inr hlate => simp [hlate.2.1, Staged.Stage.Stages] at hstage
  | inl hearly =>
      obtain ⟨hunpublished, hstages, halone⟩ := hearly
      have hcell := h.disk.lookup_act hdisk hf hquiet.now ⟨⟩ hP.isPlain
      refine h.of_move (phase_eq_update hi) hdisk (h.ordered_act hf hquiet) h.nodup h.sublist
        (.inl ⟨hunpublished, ?_, (congrArg (P.alone i) hcell).trans halone⟩)
        (Fits.others hunpublished.1 stage_act_of_ne fun _ _ _ => Iff.rfl) (.inl ⟨hunpublished.1, rfl⟩) rfl
      rw [show Staged.System.stage _ i = _ from Staged.System.act_stage .., ← hstage.unique hstages]
      exact hstage'

theorem Inv.publish (h : Inv P base s) (hP : P.Lawful) {i : ι} {out : τ} {b : α} {file : Nat}
    {f f' : Staged.Folder ν β ι} (hi : s.phase i = .saving out b) (hsynced : s.disk.stage i = .synced file (P.save b))
    (hf : s.disk.folder ⟨⟩ = some f) (hrename : f.rename (P.temp i) P.cell (i, P.save b) = some f') :
    Inv P base { s with
      disk := s.disk.act i ⟨⟩ f' (.renamed (P.save b))
      order := s.order ++ [(i, out)] } := by
  obtain ⟨⟨hholds, habsent, before, hacquired, hbefore⟩, -, halone⟩ := h.staged hi (by rw [hsynced]; rfl)
  have hacts : Staged.Acts P.config s.disk _ := .rename i file (P.save b) f f' hsynced hf hrename
  have hdisk := h.disk.acts hP.config hacts
  have horder : (s.order ++ [(i, out)]).map Prod.fst = s.order.map Prod.fst ++ [i] := by simp
  refine h.of_move (phase_eq_update hi) hdisk (fun g hg => ?_) ?_ ?_
    (.inr ⟨hholds, Staged.System.act_stage .., by simp⟩)
    (Fits.others hholds stage_act_of_ne fun j hj out' => by simp [hj]) (.inl ⟨hholds, rfl⟩) rfl
  · cases (Staged.System.act_folder ..).symm.trans hg
    refine (h.ordered f hf).publish ?_ hrename
    rw [← h.disk.lookup_eq_puts hP.isPlain hf]
    exact halone
  · rw [horder, List.nodup_append]
    exact ⟨h.nodup, List.nodup_singleton i, by grind⟩
  · rw [horder]
    show List.Sublist _ s.acquired
    rw [hacquired]
    exact hbefore.append (List.Sublist.refl [i])

theorem Inv.finish (h : Inv P base s) (hP : P.Lawful) {i : ι} {out : τ} {b : α} {f : Staged.Folder ν β ι}
    (hi : s.phase i = .saving out b) (hrenamed : s.disk.stage i = .renamed (P.save b))
    (hf : s.disk.folder ⟨⟩ = some f) :
    Inv P base { s.move i (.returned out true) with
      disk := s.disk.act i ⟨⟩ f.syncDir (.returned (P.save b) true)
      holder := none } := by
  obtain ⟨hholds, hmem⟩ := h.renamed hi hrenamed
  have hacts : Staged.Acts P.config s.disk _ := .syncDir i (P.save b) f hrenamed hf
  exact h.of_move rfl (h.disk.acts hP.config hacts)
    (h.ordered_act hf (Staged.Folder.quiet_of_listings rfl fun _ hv => by cases hv)) h.nodup h.sublist
    ⟨⟨_, Staged.System.act_stage ..⟩, hmem⟩ (Fits.others hholds stage_act_of_ne fun _ _ _ => Iff.rfl)
    (.inr (.inl rfl)) rfl

/-- A call that stops while it saves. What it tells is that it has not published. -/
theorem Inv.stop (h : Inv P base s) (hP : P.Lawful) {i : ι} {e : Option ε} (hopen : (s.disk.stage i).isOpen)
    (he : e.isSome → i ∉ s.order.map Prod.fst) :
    Inv P base { s.move i (.stopped e) with disk := s.disk.move i .stopped, holder := none } := by
  have hstop : Staged.Acts P.config s.disk _ := .stop i hopen
  refine h.of_move rfl (h.disk.acts hP.config hstop) h.ordered h.nodup h.sublist ⟨?_, he⟩
    (Fits.others ((h.fits i).holder_of_isOpen hopen) (fun _ hj => Function.update_of_ne hj ..) fun _ _ _ => Iff.rfl)
    (.inr (.inl rfl)) rfl
  rw [show Staged.System.stage _ i = Staged.Stage.stopped from Function.update_self ..]
  rfl

theorem Inv.look (h : Inv P base s) (hP : P.Lawful) {r : ρ} {reader : Staged.Reader PUnit ν β}
    (hlooks : Staged.Looks P.config s.disk r reader) : Inv P base { s with disk := s.disk.look r reader } := by
  have hlook : Staged.Acts P.config s.disk _ := .look r reader hlooks
  refine ⟨h.disk.acts hP.config hlook, h.ordered, h.nodup, h.sublist, h.fits, h.holder, fun r' => ?_⟩
  show Explained P base (Function.update s.disk.reader r reader r')
  by_cases hr : r' = r
  · subst hr
    rw [Function.update_self]
    have hbefore := h.readers r'
    cases hlooks with
    | opens d name file f hname hf hfile =>
        -- what a reader opens is the file as it stands
        rintro rfl
        have hcell : s.cell P = some (f.content file) := by
          unfold System.cell Staged.System.lookup Staged.Folder.lookup
          rw [hf, Option.bind_some, hfile, Option.map_some]
        exact ⟨s.order, h.nodup, hcell ▸ h.serial hP⟩
    | reads d name file full got chunk f hr hf hchunk =>
        rw [hr] at hbefore
        exact hbefore
    | closes d name file full got f hr hf hend =>
        rw [hr] at hbefore
        exact hbefore
  · rw [Function.update_of_ne hr]
    exact h.readers r'

theorem Inv.step (h : Inv P base s) (hP : P.Lawful) (hstep : Step P s s') : Inv P base s' := by
  cases hstep with
  | acquire i hi hfree =>
      obtain ⟨hstage, habsent⟩ := h.fits_of hi
      exact h.of_move rfl h.disk h.ordered h.nodup (h.sublist.trans (List.sublist_append_left ..))
        ⟨⟨rfl, habsent, s.acquired, rfl, h.sublist⟩, hstage⟩
        (fun j _ hj => hj.frame (by simp [hfree]) rfl fun _ => Iff.rfl) (.inl ⟨rfl, rfl⟩) rfl
  -- a call that does not get the lock has touched nothing
  | lockFails i e hi =>
      obtain ⟨hstage, habsent⟩ := h.fits_of hi
      have hfree : s.holder ≠ some i := by
        intro hholds
        have hholder := h.holder i hholds
        simp [hi, Phase.holds] at hholder
      refine h.of_move rfl h.disk h.ordered h.nodup h.sublist ⟨?_, fun _ => habsent⟩ (fun _ _ hj => hj)
        (.inr (.inr ⟨rfl, hfree⟩)) rfl
      show (s.disk.stage i).isOpen = false
      rw [hstage]
      rfl
  | load i a hi ha =>
      obtain ⟨hunpublished, hstage⟩ := h.fits_of hi
      exact h.of_move rfl h.disk h.ordered h.nodup h.sublist ⟨hunpublished, hstage, ha⟩
        (Fits.others hunpublished.1 (fun _ _ => rfl) fun _ _ _ => Iff.rfl) (.inl ⟨hunpublished.1, rfl⟩) rfl
  | change i a b out hi hb =>
      obtain ⟨hunpublished, hstage, hload⟩ := h.fits_of hi
      exact h.of_move rfl h.disk h.ordered h.nodup h.sublist ⟨hunpublished, hstage, Locked.alone_of hload hb⟩
        (Fits.others hunpublished.1 (fun _ _ => rfl) fun _ _ _ => Iff.rfl) (.inl ⟨hunpublished.1, rfl⟩) rfl
  | save i out b f hi hf => exact h.save hP hi hf
  | work i out b disk hi hworks => exact h.work hP hi hworks
  | publish i out b file f f' hi hsynced hf hrename => exact h.publish hP hi hsynced hf hrename
  | finish i out b f hi hrenamed hf => exact h.finish hP hi hrenamed hf
  -- a call that returns without the last sync has its entry renamed all the same
  | leave i out b hi hrenamed =>
      obtain ⟨hholds, hmem⟩ := h.renamed hi hrenamed
      have hleave : Staged.Acts P.config s.disk _ := .leave i (P.save b) hrenamed
      exact h.of_move rfl (h.disk.acts hP.config hleave) h.ordered h.nodup h.sublist
        ⟨⟨_, Function.update_self ..⟩, hmem⟩
        (Fits.others hholds (fun _ hj => Function.update_of_ne hj ..) fun _ _ _ => Iff.rfl) (.inr (.inl rfl)) rfl
  | fail i e hi =>
      obtain ⟨hunpublished, hstage⟩ := (h.fits i).early hi
      refine h.of_move rfl h.disk h.ordered h.nodup h.sublist ⟨?_, fun _ => hunpublished.2.1⟩
        (Fits.others hunpublished.1 (fun _ _ => rfl) fun _ _ _ => Iff.rfl) (.inr (.inl rfl)) rfl
      show (s.disk.stage i).isOpen = false
      rw [hstage]
      rfl
  | saveFails i e out b hi hfile =>
      have hunpublished := (h.staged hi hfile).1
      exact h.stop hP (Staged.Stage.stages_of_file hfile).1 fun _ => hunpublished.2.1
  | dies i out b hi hrenamed => exact h.stop hP (by rw [hrenamed]; rfl) fun he => absurd he Bool.false_ne_true
  | look r reader hlooks => exact h.look hP hlooks
  | powerLoss disk f hloss hf => exact h.powerLoss hloss hf

theorem inv_of_reaches {start : System ν β ι ρ α ε τ} (hP : P.Lawful) (hfresh : Fresh P base start)
    (h : ReflTransGen (Step P) start s) : Inv P base s := by
  induction h with
  | refl => exact inv_fresh hfresh
  | tail _ hstep ih => exact ih.step hP hstep

/-- A call that is not disturbed goes through. -/
theorem exists_returned (s : System ν β ι ρ α ε τ) {i : ι} {f : Staged.Folder ν β ι} {a b : α} (out : τ)
    (hf : s.disk.folder ⟨⟩ = some f) (hphase : s.phase i = .outside) (hfree : s.holder = none)
    (ha : P.load (s.cell P) = .ok a) (hb : P.body i a = .ok (out, b)) :
    ∃ s', ReflTransGen (Step P) s s' ∧ s'.phase i = .returned out true ∧ s'.cell P = some (P.save b) := by
  obtain ⟨hentry, hempty⟩ := f.create_spec (P.temp i)
  have hself : ∀ (s : System ν β ι ρ α ε τ) (phase : Phase α ε τ), (s.move i phase).phase i = phase :=
    fun s phase => Function.update_self ..
  let s₁ : System ν β ι ρ α ε τ := { s.move i .holding with holder := some i, acquired := s.acquired ++ [i] }
  have hacquire : Step P s s₁ := .acquire i hphase hfree
  let s₂ := s₁.move i (.loaded a)
  have hload : Step P s₁ s₂ := .load i a (hself s _) ha
  let s₃ := s₂.move i (.changed out b)
  have hchange : Step P s₂ s₃ := .change i a b out (hself s₁ _) hb
  have hsave := Step.save (P := P) (s := s₃) i out b f (hself s₂ _) hf
  generalize f.create (P.temp i) = new at hentry hempty hsave
  obtain ⟨file, f₁⟩ := new
  let s₄ : System ν β ι ρ α ε τ :=
    { s₃.move i (.saving out b) with disk := s₃.disk.act i ⟨⟩ f₁ (.writing file (P.save b) (P.save b)) }
  let s₅ : System ν β ι ρ α ε τ :=
    { s₄ with disk := s₄.disk.act i ⟨⟩ (f₁.write file (P.save b)) (.writing file (P.save b) []) }
  have hwrite : Step P s₄ s₅ := .work i out b _ (hself s₃ _)
    (.write_all hempty (Staged.System.act_stage ..) (Staged.System.act_folder ..))
  let s₆ : System ν β ι ρ α ε τ :=
    { s₅ with disk := s₅.disk.act i ⟨⟩ ((f₁.write file (P.save b)).sync file) (.synced file (P.save b)) }
  have hsync : Step P s₅ s₆ := .work i out b _ (hself s₃ _)
    (.sync file (P.save b) _ (Staged.System.act_stage ..) (Staged.System.act_folder ..))
  obtain ⟨f₂, hrename, hlookup⟩ := Staged.Folder.rename_of_entry (f := (f₁.write file (P.save b)).sync file) P.cell
    (i, P.save b) hentry
  let s₇ : System ν β ι ρ α ε τ :=
    { s₆ with disk := s₆.disk.act i ⟨⟩ f₂ (.renamed (P.save b)), order := s₆.order ++ [(i, out)] }
  have hpublish : Step P s₆ s₇ := .publish i out b file _ f₂ (hself s₃ _) (Staged.System.act_stage ..)
    (Staged.System.act_folder ..) hrename
  have hfinish := Step.finish (P := P) (s := s₇) i out b f₂ (hself s₃ _) (Staged.System.act_stage ..)
    (Staged.System.act_folder ..)
  refine ⟨_, .tail (.tail (.tail (.tail (.tail (.tail (.tail (.single hacquire) hload) hchange) hsave) hwrite) hsync)
    hpublish) hfinish, hself s₇ _, ?_⟩
  unfold System.cell Staged.System.lookup
  rw [Staged.System.act_folder, Option.bind_some]
  refine hlookup.trans ?_
  simp [Staged.Folder.sync]

end Run

end Durable
