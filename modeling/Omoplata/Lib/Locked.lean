-- SUMMARY: Read-modify-write calls under one lock: every interleaving is one call after another.
import Mathlib.Data.List.Nodup
import Mathlib.Logic.Function.Basic
import Mathlib.Logic.Relation

/-!
# Calls under a lock

A call takes a lock, loads the content of a cell, changes what it has loaded, publishes
the result in the cell and returns. The steps of different calls interleave, and a call
may fail at any step before it has published. The cell always holds what the calls that
have published leave when they run one after another, in the order they took the lock.
-/

open Relation

universe u v w

namespace Locked

variable {σ : Type u} {α : Type v} {ι : Type w} {ε τ : Type*}

section Defs

variable (load : σ → Except ε α) (save : α → σ) (body : ι → α → Except ε (τ × α))

/-- A call that is not interrupted. -/
def alone (i : ι) (c : σ) : Except ε (τ × σ) :=
  match load c with
  | .error e => .error e
  | .ok a =>
      match body i a with
      | .error e => .error e
      | .ok (out, b) => .ok (out, save b)

/-- Calls one after another, each with what it returns. -/
inductive Serial (c : σ) : List (ι × τ) → σ → Prop
  | nil : Serial c [] c
  | snoc {order : List (ι × τ)} {c₁ c₂ : σ} {i : ι} {out : τ} (h : Serial c order c₁)
      (hcall : alone load save body i c₁ = .ok (out, c₂)) : Serial c (order ++ [(i, out)]) c₂

/-- How far a call has come. -/
inductive Stage (α : Type v) (ε τ : Type*) where
  | outside
  | holding
  | loaded (a : α)
  | changed (out : τ) (a : α)
  | published (out : τ)
  | returned (out : τ)
  | failed (e : ε)

/-- Whether a call holds the lock and has not published. -/
def Stage.isOpen : Stage α ε τ → Bool
  | holding | loaded _ | changed _ _ => true
  | _ => false

/-- The cell, the holder of the lock, and the calls. `acquired` lists the calls in the order they
    took the lock, `order` those that have published. -/
structure System (σ : Type u) (α : Type v) (ι : Type w) (ε τ : Type*) where
  cell : σ
  holder : Option ι
  stage : ι → Stage α ε τ
  acquired : List ι
  order : List (ι × τ)

/-- No call has begun. -/
def System.start (c : σ) : System σ α ι ε τ := ⟨c, none, fun _ => .outside, [], []⟩

variable [DecidableEq ι]

/-- A call moves on. -/
def System.move (s : System σ α ι ε τ) (i : ι) (stage : Stage α ε τ) : System σ α ι ε τ :=
  { s with stage := Function.update s.stage i stage }

/-- The steps of the calls. -/
inductive Step (s : System σ α ι ε τ) : System σ α ι ε τ → Prop
  | acquire (i : ι) (hi : s.stage i = .outside) (hfree : s.holder = none) :
      Step s { s.move i .holding with holder := some i, acquired := s.acquired ++ [i] }
  | lockFails (i : ι) (e : ε) (hi : s.stage i = .outside) : Step s (s.move i (.failed e))
  | load (i : ι) (a : α) (hi : s.stage i = .holding) (ha : load s.cell = .ok a) : Step s (s.move i (.loaded a))
  | change (i : ι) (a b : α) (out : τ) (hi : s.stage i = .loaded a) (hb : body i a = .ok (out, b)) :
      Step s (s.move i (.changed out b))
  | publish (i : ι) (b : α) (out : τ) (hi : s.stage i = .changed out b) :
      Step s { s.move i (.published out) with cell := save b, order := s.order ++ [(i, out)] }
  | finish (i : ι) (out : τ) (hi : s.stage i = .published out) :
      Step s { s.move i (.returned out) with holder := none }
  | fail (i : ι) (e : ε) (hi : (s.stage i).isOpen) : Step s { s.move i (.failed e) with holder := none }

/-- A call that has not published is behind all that have, in the order of the lock. -/
def Unpublished (s : System σ α ι ε τ) (i : ι) : Prop :=
  s.holder = some i ∧ i ∉ s.order.map Prod.fst ∧
    ∃ before, s.acquired = before ++ [i] ∧ (s.order.map Prod.fst).Sublist before

/-- What a call at a stage knows of the rest of the system. -/
def Fits (s : System σ α ι ε τ) (i : ι) : Stage α ε τ → Prop
  | .outside | .failed _ => i ∉ s.order.map Prod.fst
  | .holding => Unpublished s i
  | .loaded a => Unpublished s i ∧ load s.cell = .ok a
  | .changed out b => Unpublished s i ∧ alone load save body i s.cell = .ok (out, save b)
  | .published out => s.holder = some i ∧ (i, out) ∈ s.order
  | .returned out => (i, out) ∈ s.order

/-- What holds in every state of a run from the cell `c`. -/
structure Inv (c : σ) (s : System σ α ι ε τ) : Prop where
  serial : Serial load save body c s.order s.cell
  nodup : (s.order.map Prod.fst).Nodup
  sublist : (s.order.map Prod.fst).Sublist s.acquired
  fits : ∀ i, Fits load save body s i (s.stage i)

end Defs

variable {load : σ → Except ε α} {save : α → σ} {body : ι → α → Except ε (τ × α)}

theorem alone_of {c : σ} {i : ι} {a b : α} {out : τ} (ha : load c = .ok a) (hb : body i a = .ok (out, b)) :
    alone load save body i c = .ok (out, save b) := by
  simp only [alone, ha, hb]

/-- A call at a stage where it does not hold the lock only knows whether it has published. -/
theorem Fits.of_not_holds {s s' : System σ α ι ε τ} {i : ι} {stage : Stage α ε τ}
    (h : Fits load save body s i stage) (hholder : s.holder ≠ some i)
    (horder : ∀ out, (i, out) ∈ s'.order ↔ (i, out) ∈ s.order) : Fits load save body s' i stage := by
  have habsent : i ∉ s.order.map Prod.fst → i ∉ s'.order.map Prod.fst := by
    intro h hmem
    obtain ⟨⟨j, out⟩, hout, rfl⟩ := List.mem_map.mp hmem
    exact h (List.mem_map.mpr ⟨(j, out), (horder out).mp hout, rfl⟩)
  cases stage with
  | outside => exact habsent h
  | failed e => exact habsent h
  | holding => exact absurd h.1 hholder
  | loaded a => exact absurd h.1.1 hholder
  | changed out b => exact absurd h.1.1 hholder
  | published out => exact absurd h.1 hholder
  | returned out => exact (horder out).mpr h

/-- A call before it publishes. -/
theorem Fits.unpublished {s : System σ α ι ε τ} {i : ι} {stage : Stage α ε τ} (h : Fits load save body s i stage)
    (hopen : stage.isOpen) : Unpublished s i := by
  cases stage with
  | holding => exact h
  | loaded a => exact h.1
  | changed out b => exact h.1
  | outside => cases hopen
  | published out => cases hopen
  | returned out => cases hopen
  | failed e => cases hopen

theorem inv_start (c : σ) : Inv load save body c (System.start c) where
  serial := .nil
  nodup := .nil
  sublist := List.nil_sublist _
  fits _ := List.not_mem_nil

section Run

variable [DecidableEq ι] {c : σ} {s s' : System σ α ι ε τ}

/-- A call that moves on leaves the others where they are. -/
theorem fits_move (i : ι) (stage : Stage α ε τ) (hi : Fits load save body s' i stage)
    (hstage : s'.stage = Function.update s.stage i stage)
    (hothers : ∀ j, j ≠ i → Fits load save body s' j (s.stage j)) (j : ι) :
    Fits load save body s' j (s'.stage j) := by
  rw [hstage]
  by_cases hj : j = i
  · subst hj
    rwa [Function.update_self]
  · rw [Function.update_of_ne hj]
    exact hothers j hj

theorem inv_step (hinv : Inv load save body c s) (h : Step load save body s s') : Inv load save body c s' := by
  cases h with
  | acquire i hi hfree =>
      -- a call that waits has not published
      have habsent : i ∉ s.order.map Prod.fst := by
        have hfits := hinv.fits i
        rwa [hi] at hfits
      refine ⟨hinv.serial, hinv.nodup, hinv.sublist.trans (List.sublist_append_left ..), ?_⟩
      refine fits_move i .holding ⟨rfl, habsent, s.acquired, rfl, hinv.sublist⟩ rfl fun j _ => ?_
      exact (hinv.fits j).of_not_holds (by simp [hfree]) fun out => Iff.rfl
  | lockFails i e hi =>
      have habsent : i ∉ s.order.map Prod.fst := by
        have hfits := hinv.fits i
        rwa [hi] at hfits
      exact ⟨hinv.serial, hinv.nodup, hinv.sublist, fits_move i (.failed e) habsent rfl fun j _ => hinv.fits j⟩
  | load i a hi ha =>
      have hopen := (hinv.fits i).unpublished (by simp [hi, Stage.isOpen])
      exact ⟨hinv.serial, hinv.nodup, hinv.sublist, fits_move i (.loaded a) ⟨hopen, ha⟩ rfl fun j _ => hinv.fits j⟩
  | change i a b out hi hb =>
      have hfits := hinv.fits i
      rw [hi] at hfits
      exact ⟨hinv.serial, hinv.nodup, hinv.sublist,
        fits_move i (.changed out b) ⟨hfits.1, alone_of hfits.2 hb⟩ rfl fun j _ => hinv.fits j⟩
  -- the one call that holds the lock has read the last state, so its turn goes behind all others
  | publish i b out hi =>
      have hfits := hinv.fits i
      rw [hi] at hfits
      obtain ⟨⟨hholds, habsent, before, hacquired, hbefore⟩, halone⟩ := hfits
      have horder : (s.order ++ [(i, out)]).map Prod.fst = s.order.map Prod.fst ++ [i] := by simp
      refine ⟨hinv.serial.snoc halone, ?_, ?_, ?_⟩
      · rw [horder, List.nodup_append]
        exact ⟨hinv.nodup, List.nodup_singleton i, by grind⟩
      · rw [horder]
        show List.Sublist _ s.acquired
        rw [hacquired]
        exact hbefore.append (List.Sublist.refl [i])
      · refine fits_move i (.published out) ⟨hholds, by simp⟩ rfl fun j hj => ?_
        refine (hinv.fits j).of_not_holds (by simp [hholds, Ne.symm hj]) fun out' => ?_
        simp [hj]
  | finish i out hi =>
      have hfits := hinv.fits i
      rw [hi] at hfits
      refine ⟨hinv.serial, hinv.nodup, hinv.sublist, fits_move i (.returned out) hfits.2 rfl fun j hj => ?_⟩
      exact (hinv.fits j).of_not_holds (by simp [hfits.1, Ne.symm hj]) fun out => Iff.rfl
  -- a call that fails has published nothing
  | fail i e hi =>
      have hopen := (hinv.fits i).unpublished hi
      refine ⟨hinv.serial, hinv.nodup, hinv.sublist, fits_move i (.failed e) hopen.2.1 rfl fun j hj => ?_⟩
      exact (hinv.fits j).of_not_holds (by simp [hopen.1, Ne.symm hj]) fun out => Iff.rfl

theorem inv_of_reaches (h : ReflTransGen (Step load save body) (System.start c) s) : Inv load save body c s := by
  induction h with
  | refl => exact inv_start c
  | tail _ hstep ih => exact inv_step ih hstep

end Run

/-- The calls that have published are those that have returned, and the one that is about to. -/
theorem Inv.mem_order_iff {c : σ} {s : System σ α ι ε τ} (h : Inv load save body c s) (i : ι) (out : τ) :
    (i, out) ∈ s.order ↔ s.stage i = .returned out ∨ s.stage i = .published out := by
  have hfits := h.fits i
  have hunique : ∀ {out'}, (i, out') ∈ s.order → ((i, out) ∈ s.order ↔ out' = out) := by
    intro out' hout'
    constructor
    · intro hout
      exact congrArg Prod.snd (List.inj_on_of_nodup_map h.nodup hout' hout rfl)
    · rintro rfl
      exact hout'
  have habsent : i ∉ s.order.map Prod.fst → (i, out) ∉ s.order := fun hi hout => hi (List.mem_map_of_mem hout)
  cases hstage : s.stage i with
  | outside =>
      rw [hstage] at hfits
      simpa using habsent hfits
  | failed e =>
      rw [hstage] at hfits
      simpa using habsent hfits
  | holding => simpa using habsent (hfits.unpublished (by simp [hstage, Stage.isOpen])).2.1
  | loaded a => simpa using habsent (hfits.unpublished (by simp [hstage, Stage.isOpen])).2.1
  | changed out' b => simpa using habsent (hfits.unpublished (by simp [hstage, Stage.isOpen])).2.1
  | published out' =>
      rw [hstage] at hfits
      simpa using hunique hfits.2
  | returned out' =>
      rw [hstage] at hfits
      simpa using hunique hfits

end Locked
