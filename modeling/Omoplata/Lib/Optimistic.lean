-- SUMMARY: Transactions that plan outside of their lock, and when their interleavings are serializable.
import Mathlib.Data.List.Basic
import Mathlib.Logic.Function.Basic
import Mathlib.Logic.Relation
import Mathlib.Order.Basic

/-!
# Optimistic transactions

A transaction enters the shared state in a first locked section, reads it without
the lock, plans on what it has read, and commits its plan in a last locked
section. Beside the shared state there is a resource that only grows, and that
plans draw on.

Nothing makes a commit notice what has happened since the read. A run in which
every commit finds the state its transaction has read, and that is the state its
transaction would have entered on its own, is serializable in commit order.
-/

universe u v w

/-- A transaction on a shared state `σ` over a growing resource `ρ`, with plans in `π`. -/
structure Transaction (ρ : Type u) (σ : Type v) (π : Type w) [Preorder ρ] where
  enter : ρ → σ → ρ × σ
  plan : ρ → σ → Option π × ρ
  commit : π → σ → Option σ
  /-- What is entered does not depend on the resource. -/
  enter_congr : ∀ (r r' : ρ) (s : σ), (enter r s).2 = (enter r' s).2
  le_enter : ∀ (r : ρ) (s : σ), r ≤ (enter r s).1
  le_plan : ∀ (r : ρ) (s : σ), r ≤ (plan r s).2
  /-- What can be planned over a resource is planned alike over a larger one. -/
  plan_mono : ∀ {r r' : ρ} {s : σ} {p : π}, r ≤ r' → (plan r s).1 = some p → (plan r' s).1 = some p

namespace Transaction

variable {ρ : Type u} {σ : Type v} {π : Type w} [Preorder ρ] {ι : Type*}

/-- A transaction on its own. -/
def run (t : Transaction ρ σ π) (s : ρ × σ) : Option (ρ × σ) :=
  let (r, shared) := t.enter s.1 s.2
  match t.plan r shared with
  | (some p, r) => (t.commit p shared).map fun shared => (r, shared)
  | (none, _) => none

/-- Transactions one after the other. -/
def serial (ts : ι → Transaction ρ σ π) (order : List ι) (s : ρ × σ) : Option (ρ × σ) :=
  order.foldlM (fun s i => (ts i).run s) s

/-- A transaction on its own, from the plan it makes over a smaller resource. -/
theorem run_of_plan (t : Transaction ρ σ π) {r₀ r : ρ} {s s' : σ} {p : π} (hle : r₀ ≤ r)
    (hplan : (t.plan r₀ (t.enter r s).2).1 = some p) (hcommit : t.commit p (t.enter r s).2 = some s') :
    ∃ r', r ≤ r' ∧ t.run (r, s) = some (r', s') := by
  have hplan' : (t.plan (t.enter r s).1 (t.enter r s).2).1 = some p :=
    t.plan_mono (hle.trans (t.le_enter r s)) hplan
  have hgrow := (t.le_enter r s).trans (t.le_plan (t.enter r s).1 (t.enter r s).2)
  unfold run
  cases hp : t.plan (t.enter r s).1 (t.enter r s).2 with
  | mk made r' =>
      rw [hp] at hplan' hgrow
      obtain rfl : made = some p := hplan'
      exact ⟨r', hgrow, by simp [hp, hcommit]⟩

theorem serial_append (ts : ι → Transaction ρ σ π) (order : List ι) (i : ι) (s : ρ × σ) :
    serial ts (order ++ [i]) s = (serial ts order s).bind (ts i).run := by
  simp [serial, List.foldlM_append]

end Transaction

/-- How far a transaction has come. -/
inductive Progress (σ : Type v) (π : Type w) where
  | ready
  | entered
  | read (seen : σ)
  | planned (seen : σ) (plan : π)
  | done
  | failed

namespace Progress

def isDone {σ : Type v} {π : Type w} : Progress σ π → Bool
  | done => true
  | _ => false

theorem isDone_iff {σ : Type v} {π : Type w} {p : Progress σ π} : p.isDone = true ↔ p = .done := by
  cases p <;> simp [isDone]

end Progress

/-- Transactions under way on a shared state. `base` is the state the last commit left and
    `order` lists the transactions that have committed. -/
structure System (ρ : Type u) (σ : Type v) (π : Type w) (ι : Type*) where
  resource : ρ
  shared : σ
  progress : ι → Progress σ π
  base : σ
  order : List ι

namespace System

variable {ρ : Type u} {σ : Type v} {π : Type w} {ι : Type*}

/-- No transaction has begun. -/
def start (resource : ρ) (shared : σ) : System ρ σ π ι :=
  ⟨resource, shared, fun _ => .ready, shared, []⟩

variable [Preorder ρ] [DecidableEq ι] (ts : ι → Transaction ρ σ π)

/-- A transaction moves on to `next`. -/
def move (s : System ρ σ π ι) (i : ι) (next : Progress σ π) : System ρ σ π ι :=
  { s with progress := Function.update s.progress i next }

/-- The next step of a transaction. -/
def step (s : System ρ σ π ι) (i : ι) : System ρ σ π ι :=
  match s.progress i with
  | .ready =>
      let (resource, shared) := (ts i).enter s.resource s.shared
      { s with resource := resource, shared := shared }.move i .entered
  | .entered => s.move i (.read s.shared)
  | .read seen =>
      match (ts i).plan s.resource seen with
      | (some p, resource) => { s with resource := resource }.move i (.planned seen p)
      | (none, resource) => { s with resource := resource }.move i .failed
  | .planned _ p =>
      match (ts i).commit p s.shared with
      | some shared => { s with shared := shared, base := shared, order := s.order ++ [i] }.move i .done
      | none => s.move i .failed
  | .done => s
  | .failed => s

/-- The next step of a transaction does not overtake another: if it commits, the state is
    the one it has read, and that is the state it enters from what the last commit left. -/
def Undisturbed (s : System ρ σ π ι) (i : ι) : Prop :=
  ∀ seen p, s.progress i = .planned seen p →
    s.shared = seen ∧ seen = ((ts i).enter s.resource s.base).2

instance [DecidableEq σ] (s : System ρ σ π ι) (i : ι) : Decidable (s.Undisturbed ts i) :=
  match h : s.progress i with
  | .planned seen _ =>
      decidable_of_iff (s.shared = seen ∧ seen = ((ts i).enter s.resource s.base).2) (by
        simp [Undisturbed, h])
  | .ready | .entered | .read _ | .done | .failed => isTrue (by simp [Undisturbed, h])

/-- A step that overtakes none. -/
def Step (s s' : System ρ σ π ι) : Prop := ∃ i, s.Undisturbed ts i ∧ s' = s.step ts i

/-- Every step of a schedule overtakes none. -/
def UndisturbedAll : System ρ σ π ι → List ι → Prop
  | _, [] => True
  | s, i :: schedule => s.Undisturbed ts i ∧ UndisturbedAll (s.step ts i) schedule

instance decidableUndisturbedAll [DecidableEq σ] :
    (s : System ρ σ π ι) → (schedule : List ι) → Decidable (s.UndisturbedAll ts schedule)
  | _, [] => isTrue trivial
  | s, i :: schedule =>
      have := decidableUndisturbedAll (s.step ts i) schedule
      inferInstanceAs (Decidable (s.Undisturbed ts i ∧ UndisturbedAll ts (s.step ts i) schedule))

theorem UndisturbedAll.run {s : System ρ σ π ι} {schedule : List ι} (h : s.UndisturbedAll ts schedule) :
    Relation.ReflTransGen (Step ts) s (schedule.foldl (step ts) s) := by
  induction schedule generalizing s with
  | nil => exact .refl
  | cons i schedule ih => exact .head ⟨i, h.1, rfl⟩ (ih h.2)

/-- The base is what the committed transactions make of the initial state on their own. -/
structure Serializable (initial : σ) (s : System ρ σ π ι) : Prop where
  nodup : s.order.Nodup
  mem_order : ∀ i, i ∈ s.order ↔ s.progress i = .done
  /-- A plan has been made over the resource as it was at some time, and what it left of the
      resource is still there. -/
  plan_eq : ∀ i seen p, s.progress i = .planned seen p →
    ∃ r, ((ts i).plan r seen).1 = some p ∧ ((ts i).plan r seen).2 ≤ s.resource
  /-- Only a transaction that has entered and not committed parts the state from the base. -/
  shared_eq : (∀ i, s.progress i = .ready ∨ s.progress i = .done) → s.shared = s.base
  base_eq : ∀ r ≥ s.resource, ∃ r' ≥ r, Transaction.serial ts s.order (r, initial) = some (r', s.base)

variable {ts}

theorem undisturbedAll_append {s : System ρ σ π ι} {front back : List ι} :
    s.UndisturbedAll ts (front ++ back) ↔
      s.UndisturbedAll ts front ∧ (front.foldl (step ts) s).UndisturbedAll ts back := by
  induction front generalizing s with
  | nil => simp [UndisturbedAll]
  | cons i front ih => simp only [List.cons_append, UndisturbedAll, ih, List.foldl_cons, and_assoc]

omit [DecidableEq ι] in
theorem serializable_start (resource : ρ) (shared : σ) :
    Serializable ts shared (start resource shared : System ρ σ π ι) where
  nodup := List.nodup_nil
  mem_order i := by simp [start]
  plan_eq i seen p h := by simp [start] at h
  shared_eq _ := rfl
  base_eq r _ := ⟨r, le_rfl, rfl⟩

/-- A transaction that moves on within its course, while others keep theirs. -/
theorem Serializable.move {initial : σ} {s s' : System ρ σ π ι} {i : ι} (next : Progress σ π)
    (h : s.Serializable ts initial) (hi : s.progress i ≠ .done) (hnext : next ≠ .ready ∧ next ≠ .done)
    (hprogress : s'.progress = Function.update s.progress i next) (hle : s.resource ≤ s'.resource)
    (hbase : s'.base = s.base) (horder : s'.order = s.order)
    (hplan : ∀ seen p, next = .planned seen p →
      ∃ r, ((ts i).plan r seen).1 = some p ∧ ((ts i).plan r seen).2 ≤ s'.resource) :
    s'.Serializable ts initial where
  nodup := horder ▸ h.nodup
  mem_order j := by
    rw [horder, hprogress, h.mem_order]
    by_cases hj : j = i
    · subst hj
      simp [hi, hnext.2]
    · simp [hj]
  plan_eq j seen p hj := by
    rw [hprogress] at hj
    by_cases hji : j = i
    · subst hji
      exact hplan seen p (by simpa using hj)
    · rw [Function.update_of_ne hji] at hj
      obtain ⟨r, hp, hr⟩ := h.plan_eq j seen p hj
      exact ⟨r, hp, hr.trans hle⟩
  shared_eq hall := by
    have hthis := hall i
    rw [hprogress, Function.update_self] at hthis
    exact absurd hthis (by simp [hnext.1, hnext.2])
  base_eq r hr := by
    rw [horder, hbase]
    exact h.base_eq r (hle.trans hr)

/-- A commit that overtakes none extends the serial order. -/
theorem Serializable.commit {initial : σ} {s : System ρ σ π ι} {i : ι} {seen shared : σ} {p : π}
    (h : s.Serializable ts initial) (hi : s.progress i = .planned seen p) (hok : s.Undisturbed ts i)
    (hcommit : (ts i).commit p s.shared = some shared) :
    ({ s with shared := shared, base := shared, order := s.order ++ [i] }.move i .done :
      System ρ σ π ι).Serializable ts initial where
  nodup := by
    have hnew : i ∉ s.order := by simp [h.mem_order, hi]
    exact List.nodup_append.mpr ⟨h.nodup, by simp, by
      rintro j hj _ hi' rfl
      exact hnew (List.mem_singleton.mp hi' ▸ hj)⟩
  mem_order j := by
    by_cases hj : j = i
    · simp [System.move, hj]
    · simp [System.move, hj, h.mem_order]
  plan_eq j seen' p' hj := by
    have hne : j ≠ i := by
      rintro rfl
      simp [System.move] at hj
    exact h.plan_eq j seen' p' (by simpa [System.move, hne] using hj)
  shared_eq _ := rfl
  base_eq r hr := by
    obtain ⟨hshared, hseen⟩ := hok seen p hi
    obtain ⟨r₀, hplan, hdrawn⟩ := h.plan_eq i seen p hi
    have hr₀ := ((ts i).le_plan r₀ seen).trans hdrawn
    obtain ⟨r', hr', hserial⟩ := h.base_eq r hr
    -- The serial run has come to the base; there the transaction enters what it has read.
    have hentered : ((ts i).enter r' s.base).2 = seen := by
      rw [hseen]
      exact (ts i).enter_congr r' s.resource s.base
    obtain ⟨r'', hr'', hrun⟩ := (ts i).run_of_plan
      (hr₀.trans (hr.le.trans hr')) (hentered.symm ▸ hplan) (by rw [hentered, ← hshared, hcommit])
    refine ⟨r'', hr'.le.trans hr'', ?_⟩
    simp only [System.move, Transaction.serial_append, hserial, Option.bind_some, hrun]

theorem Step.serializable {initial : σ} {s s' : System ρ σ π ι} (hstep : Step ts s s')
    (h : s.Serializable ts initial) : s'.Serializable ts initial := by
  obtain ⟨i, hok, rfl⟩ := hstep
  unfold step
  cases hi : s.progress i with
  | ready =>
      exact h.move .entered (by simp [hi]) ⟨nofun, nofun⟩ rfl ((ts i).le_enter _ _) rfl rfl nofun
  | entered =>
      exact h.move (.read s.shared) (by simp [hi]) ⟨nofun, nofun⟩ rfl le_rfl rfl rfl nofun
  | read seen =>
      have hgrow := (ts i).le_plan s.resource seen
      cases hplan : (ts i).plan s.resource seen with
      | mk made resource =>
          simp only [hplan] at hgrow ⊢
          cases made with
          | none => exact h.move .failed (by simp [hi]) ⟨nofun, nofun⟩ rfl hgrow rfl rfl nofun
          | some p =>
              refine h.move (.planned seen p) (by simp [hi]) ⟨nofun, nofun⟩ rfl hgrow rfl rfl fun seen' p' heq => ?_
              obtain ⟨rfl, rfl⟩ := Progress.planned.inj heq
              exact ⟨s.resource, by rw [hplan], le_of_eq (by rw [hplan]; rfl)⟩
  | planned seen p =>
      cases hcommit : (ts i).commit p s.shared with
      | none =>
          simp only [hcommit]
          exact h.move .failed (by simp [hi]) ⟨nofun, nofun⟩ rfl le_rfl rfl rfl nofun
      | some shared =>
          simp only [hcommit]
          -- this is the step that takes its place in the order
          exact h.commit hi hok hcommit
  | done => exact h
  | failed => exact h

/-- A run whose commits overtake none is serializable. -/
theorem serializable_of_run {resource : ρ} {initial : σ} {s : System ρ σ π ι}
    (h : Relation.ReflTransGen (Step ts) (start resource initial) s) : s.Serializable ts initial := by
  induction h with
  | refl => exact serializable_start resource initial
  | tail _ hstep ih => exact hstep.serializable ih

/-! ## The commits of a run -/

/-- What holds at every commit of a schedule, of the state before it, the transaction and what it has read. -/
def AtCommits (ts : ι → Transaction ρ σ π) (P : System ρ σ π ι → ι → σ → Prop) : System ρ σ π ι → List ι → Prop
  | _, [] => True
  | s, i :: schedule => (∀ seen p, s.progress i = .planned seen p → P s i seen) ∧ AtCommits ts P (s.step ts i) schedule

instance decidableAtCommits (P : System ρ σ π ι → ι → σ → Prop) [∀ s i seen, Decidable (P s i seen)] :
    (s : System ρ σ π ι) → (schedule : List ι) → Decidable (AtCommits ts P s schedule)
  | _, [] => isTrue trivial
  | s, i :: schedule =>
      have := decidableAtCommits P (s.step ts i) schedule
      have : Decidable (∀ seen p, s.progress i = .planned seen p → P s i seen) :=
        match h : s.progress i with
        | .planned seen _ => decidable_of_iff (P s i seen) (by simp)
        | .ready | .entered | .read _ | .done | .failed => isTrue (by simp)
      inferInstanceAs (Decidable (_ ∧ AtCommits ts P (s.step ts i) schedule))

theorem AtCommits.mono {P Q : System ρ σ π ι → ι → σ → Prop} (himp : ∀ s i seen, P s i seen → Q s i seen)
    {s : System ρ σ π ι} {schedule : List ι} (h : AtCommits ts P s schedule) : AtCommits ts Q s schedule := by
  induction schedule generalizing s with
  | nil => trivial
  | cons i schedule ih => exact ⟨fun seen p hplanned => himp s i seen (h.1 seen p hplanned), ih h.2⟩

/-- The step that finishes a transaction is its own, and commits its plan. -/
theorem step_done {s : System ρ σ π ι} {i j : ι} (h : (s.step ts j).progress i = .done) (hi : s.progress i ≠ .done) :
    j = i ∧ ∃ seen p, s.progress i = .planned seen p := by
  have hmoves : ∃ next, (s.step ts j).progress = Function.update s.progress j next ∧
      (next = .done → s.progress j = .done ∨ ∃ seen p, s.progress j = .planned seen p) := by
    unfold step
    cases hj : s.progress j with
    | ready => exact ⟨.entered, rfl, nofun⟩
    | entered => exact ⟨.read s.shared, rfl, nofun⟩
    | read seen =>
        cases hplan : (ts j).plan s.resource seen with
        | mk made resource =>
            cases made with
            | none => exact ⟨.failed, by simp only [hplan]; rfl, nofun⟩
            | some p => exact ⟨.planned seen p, by simp only [hplan]; rfl, nofun⟩
    | planned seen p =>
        cases hcommit : (ts j).commit p s.shared with
        | none => exact ⟨.failed, by simp only [hcommit]; rfl, nofun⟩
        | some shared => exact ⟨.done, by simp only [hcommit]; rfl, fun _ => .inr ⟨seen, p, rfl⟩⟩
    | done => exact ⟨.done, (Function.update_eq_self_iff.mpr hj.symm).symm, fun _ => .inl rfl⟩
    | failed => exact ⟨.failed, (Function.update_eq_self_iff.mpr hj.symm).symm, nofun⟩
  obtain ⟨next, hprogress, hnext⟩ := hmoves
  rw [hprogress] at h
  by_cases hji : i = j
  · subst hji
    rw [Function.update_self] at h
    exact ⟨rfl, (hnext h).resolve_left hi⟩
  · rw [Function.update_of_ne hji] at h
    exact absurd h hi

/-- A property of states that a commit of one transaction brings about, and that every step keeps,
    holds at the end of a run in which this transaction commits. -/
theorem run_brings {initial : σ} {P : System ρ σ π ι → Prop} {Q R : System ρ σ π ι → ι → σ → Prop}
    {i : ι}
    (hkeeps : ∀ (s : System ρ σ π ι) (j : ι), s.Serializable ts initial → s.Undisturbed ts j →
      (∀ seen p, s.progress j = .planned seen p → Q s j seen) → P s → P (s.step ts j))
    (hbrings : ∀ (s : System ρ σ π ι) (seen : σ) (p : π), s.Serializable ts initial → s.Undisturbed ts i →
      s.progress i = .planned seen p → Q s i seen → R s i seen → (s.step ts i).progress i = .done → P (s.step ts i))
    {s : System ρ σ π ι} {schedule : List ι} (hs : s.Serializable ts initial) (hrun : s.UndisturbedAll ts schedule)
    (hQ : AtCommits ts Q s schedule) (hR : AtCommits ts (fun s j seen => j = i → R s i seen) s schedule)
    (hdone : (schedule.foldl (step ts) s).progress i = .done) (h : P s ∨ s.progress i ≠ .done) :
    P (schedule.foldl (step ts) s) := by
  induction schedule generalizing s with
  | nil => exact h.resolve_right (not_not_intro hdone)
  | cons j schedule ih =>
      have hnext : (s.step ts j).Serializable ts initial := Step.serializable ⟨j, hrun.1, rfl⟩ hs
      refine ih hnext hrun.2 hQ.2 hR.2 hdone ?_
      rcases h with hP | hi
      · exact .inl (hkeeps s j hs hrun.1 hQ.1 hP)
      · by_cases hcommits : (s.step ts j).progress i = .done
        · obtain ⟨rfl, seen, p, hplanned⟩ := step_done hcommits hi
          exact .inl (hbrings s seen p hs hrun.1 hplanned (hQ.1 seen p hplanned) (hR.1 seen p hplanned rfl) hcommits)
        · exact .inr hcommits

/-- Where every transaction of such a run has committed, the shared state is that of a
    serial run. -/
theorem serial_of_run {resource : ρ} {initial : σ} {s : System ρ σ π ι}
    (h : Relation.ReflTransGen (Step ts) (start resource initial) s)
    (hdone : ∀ i, s.progress i = .done) :
    ∃ order : List ι, order.Nodup ∧ (∀ i, i ∈ order) ∧ ∀ r ≥ s.resource, ∃ r',
      Transaction.serial ts order (r, initial) = some (r', s.shared) := by
  have hs := serializable_of_run h
  refine ⟨s.order, hs.nodup, fun i => (hs.mem_order i).mpr (hdone i), fun r hr => ?_⟩
  obtain ⟨r', -, hserial⟩ := hs.base_eq r hr
  exact ⟨r', by rw [hs.shared_eq fun i => .inr (hdone i), hserial]⟩

end System
