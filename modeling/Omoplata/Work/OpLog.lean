-- SUMMARY: The bi-temporal operation log: folding refs over undone and redone operations.
import Mathlib.Logic.Relation
import Omoplata.Identity
import Omoplata.Work.Error

/-!
# The operation log

Refs are the fold of the operations in effect. An operation is in effect unless
an odd number of operations in effect undo it, so its status depends on the
operations after it.

`isActive?` and `foldRefs?` read any list of operations, also one decoded from a
file; they give nothing where the recursion of the source would not end. An
`OpLog` carries the invariant under which it ends: sequence numbers are
positions, and an undo points backwards.
-/

namespace Omoplata

/-- The refs of a repository. -/
abbrev Refs := BTreeMap Str CommitId

/-- The kind of a repository mutation. -/
inductive OpKind where
  | setRef (name : Str) (old new : Option CommitId)
  | setPhase (change : ChangeId) (fromPhase toPhase : Phase)
  | rebase (change : ChangeId) (oldTip newTip onto : CommitId) (conflicts : Nat)
  | commit (workspace : Str) (change : ChangeId) (tree : CommitId) (parent : Option CommitId)
      (message : Option Str)
  | switch (workspace : Str) (change : ChangeId) (fromTip : Option CommitId) (toTip : CommitId)
  | undo (targetSeq : Nat)
  deriving DecidableEq, Repr

namespace OpKind

/-- The operation an undo inverts. -/
def undoTarget : OpKind → Option Nat
  | undo target => some target
  | _ => none

/-- What an operation in effect does to the refs. -/
def applyTo (refs : Refs) : OpKind → Refs
  | setRef name _ (some tip) => refs.insert name tip
  | setRef name _ none => refs.erase name
  | rebase change _ newTip _ _ => refs.insert change newTip
  | commit _ change tree _ _ => refs.insert change tree
  | switch _ change _ toTip => refs.insert change toTip
  | setPhase .. => refs
  | undo _ => refs

end OpKind

/-- One entry of the log. -/
structure Operation where
  seq : Nat
  kind : OpKind
  note : Option Str
  time : Option Str
  deriving DecidableEq, Repr

/-! ## Reading a list of operations -/

/-- The operations a query at transaction time `limit` considers: the loops break at
    the first one past it. Without a limit they consider all. -/
def visible (ops : List Operation) : Option Nat → List Operation
  | none => ops
  | some limit => ops.takeWhile fun op => decide (op.seq ≤ limit)

/-- How many of the operations undo `seq` and are in effect. -/
def activeUndos (isActive : Nat → Option Bool) (seq : Nat) : List Operation → Option Nat
  | [] => some 0
  | op :: ops =>
      if op.kind.undoTarget = some seq then do
        let active ← isActive op.seq
        let rest ← activeUndos isActive seq ops
        some (if active then rest + 1 else rest)
      else activeUndos isActive seq ops

/-- Whether the operation at `seq` is in effect. A chain of undos longer than the log
    passes one of them twice and does not end. -/
def isActive? (ops : List Operation) : Nat → Nat → Option Bool
  | 0, _ => none
  | fuel + 1, seq => do
      let undos ← activeUndos (isActive? ops fuel) seq ops
      some (undos % 2 == 0)

/-- Fold the operations in effect into refs. -/
def foldRefs? (ops : List Operation) : Option Refs :=
  ops.foldlM (fun refs op => do
    if ← isActive? ops (ops.length + 1) op.seq then some (op.kind.applyTo refs) else some refs) ∅

/-! ## Well-formed logs -/

/-- An operation with the next sequence number keeps the numbers positions. -/
theorem seq_eq_concat {ops : List Operation} {op : Operation}
    (h : ∀ (i : Nat) (op' : Operation), ops[i]? = some op' → op'.seq = i) (hseq : op.seq = ops.length)
    (i : Nat) (op' : Operation) (hi : (ops ++ [op])[i]? = some op') : op'.seq = i := by
  rcases Nat.lt_or_ge i ops.length with hlt | hge
  · rw [List.getElem?_append_left hlt] at hi
    exact h i op' hi
  · rw [List.getElem?_append_right hge] at hi
    obtain ⟨hlt, rfl⟩ := List.getElem?_eq_some_iff.mp hi
    simp only [List.length_singleton] at hlt
    simp only [List.getElem_singleton, hseq]
    omega

/-- Sequence numbers are positions and undos point backwards. -/
structure OpsWellFormed (ops : List Operation) : Prop where
  seq_eq : ∀ (i : Nat) (op : Operation), ops[i]? = some op → op.seq = i
  undo_lt : ∀ op ∈ ops, ∀ target, op.kind.undoTarget = some target → target < op.seq

namespace OpsWellFormed

variable {ops ops' : List Operation}

theorem nil : OpsWellFormed [] := ⟨by simp, by simp⟩

theorem seq_lt (h : OpsWellFormed ops) {op : Operation} (hop : op ∈ ops) : op.seq < ops.length := by
  obtain ⟨i, hi, rfl⟩ := List.getElem_of_mem hop
  rw [h.seq_eq i _ (List.getElem?_eq_getElem hi)]
  exact hi

/-- A log that starts the same way is well formed. -/
theorem of_append (h : OpsWellFormed (ops ++ ops')) : OpsWellFormed ops where
  seq_eq i op hi := h.seq_eq i op (by
    rw [List.getElem?_append_left (List.getElem?_eq_some_iff.mp hi).1, hi])
  undo_lt op hop := h.undo_lt op (List.mem_append_left _ hop)

theorem visible (h : OpsWellFormed ops) (limit : Option Nat) :
    OpsWellFormed (visible ops limit) := by
  cases limit with
  | none => exact h
  | some limit =>
      have hsplit := List.takeWhile_append_dropWhile (p := fun op => decide (op.seq ≤ limit)) (l := ops)
      exact of_append (hsplit ▸ h)

theorem concat (h : OpsWellFormed ops) {op : Operation} (hseq : op.seq = ops.length)
    (hundo : ∀ target, op.kind.undoTarget = some target → target < ops.length) :
    OpsWellFormed (ops ++ [op]) where
  seq_eq := seq_eq_concat h.seq_eq hseq
  undo_lt op' hop := by
    rcases List.mem_append.mp hop with hop | hop
    · exact h.undo_lt op' hop
    · rw [List.mem_singleton.mp hop, hseq]
      exact hundo

end OpsWellFormed

/-! ## Activity -/

section Activity

variable {ops tail : List Operation}

/-- Where the recursion gives `f`, the loop counts by `f`. -/
private theorem activeUndos_eq {isActive : Nat → Option Bool} {f : Nat → Bool} {seq : Nat}
    {ops : List Operation}
    (h : ∀ op ∈ ops, op.kind.undoTarget = some seq → isActive op.seq = some (f op.seq)) :
    activeUndos isActive seq ops =
      some (ops.countP fun op => decide (op.kind.undoTarget = some seq) && f op.seq) := by
  induction ops with
  | nil => rfl
  | cons op ops ih =>
      have hrest := ih fun op' hop' => h op' (List.mem_cons_of_mem _ hop')
      rw [activeUndos, List.countP_cons]
      by_cases htarget : op.kind.undoTarget = some seq
      · rw [if_pos htarget, h op (by simp) htarget, hrest]
        cases f op.seq <;> simp [htarget]
      · rw [if_neg htarget, hrest]
        simp [htarget]

/-- On a well-formed log the recursion ends, and more fuel changes nothing: it only
    visits later operations. -/
private theorem isActive?_stable (h : OpsWellFormed ops) (n seq : Nat) (hn : ops.length - seq ≤ n)
    (fuel fuel' : Nat) (hf : n < fuel) (hf' : n < fuel') :
    ∃ b, isActive? ops fuel seq = some b ∧ isActive? ops fuel' seq = some b := by
  induction n generalizing seq fuel fuel' with
  | zero =>
      obtain ⟨fuel, rfl⟩ : ∃ m, fuel = m + 1 := ⟨fuel - 1, by omega⟩
      obtain ⟨fuel', rfl⟩ : ∃ m, fuel' = m + 1 := ⟨fuel' - 1, by omega⟩
      have hnone : ∀ op ∈ ops, op.kind.undoTarget ≠ some seq := fun op hop htarget => by
        have := h.undo_lt op hop seq htarget
        have := h.seq_lt hop
        omega
      have hcount : ∀ isActive : Nat → Option Bool,
          activeUndos isActive seq ops = some (ops.countP fun op =>
            decide (op.kind.undoTarget = some seq) && true) := fun isActive =>
        activeUndos_eq (f := fun _ => true) fun op hop htarget => absurd htarget (hnone op hop)
      exact ⟨_, by rw [isActive?, hcount]; rfl, by rw [isActive?, hcount]; rfl⟩
  | succ n ih =>
      obtain ⟨fuel, rfl⟩ : ∃ m, fuel = m + 1 := ⟨fuel - 1, by omega⟩
      obtain ⟨fuel', rfl⟩ : ∃ m, fuel' = m + 1 := ⟨fuel' - 1, by omega⟩
      let f : Nat → Bool := fun s => (isActive? ops fuel s).getD true
      have hrec : ∀ op ∈ ops, op.kind.undoTarget = some seq →
          isActive? ops fuel op.seq = some (f op.seq) ∧
            isActive? ops fuel' op.seq = some (f op.seq) := by
        intro op hop htarget
        have hlt := h.undo_lt op hop seq htarget
        have hlen := h.seq_lt hop
        obtain ⟨b, hb, hb'⟩ := ih op.seq (by omega) fuel fuel' (by omega) (by omega)
        simp only [f, hb, hb', Option.getD_some, and_self]
      have hcount := activeUndos_eq (f := f) fun op hop ht => (hrec op hop ht).1
      have hcount' := activeUndos_eq (f := f) fun op hop ht => (hrec op hop ht).2
      exact ⟨_, by rw [isActive?, hcount]; rfl, by rw [isActive?, hcount']; rfl⟩

/-- Whether the operation at `seq` of a well-formed log is in effect. -/
def activeAt (ops : List Operation) (seq : Nat) : Bool :=
  (isActive? ops (ops.length + 1) seq).getD true

theorem isActive?_eq (h : OpsWellFormed ops) {fuel seq : Nat} (hfuel : ops.length < seq + fuel)
    (hpos : 0 < fuel) : isActive? ops fuel seq = some (activeAt ops seq) := by
  obtain ⟨b, hb, hb'⟩ := isActive?_stable h (ops.length - seq) seq (Nat.le_refl _) fuel
    (ops.length + 1) (by omega) (by omega)
  rw [activeAt, hb, hb', Option.getD_some]

/-- An operation is in effect exactly when an even number of undos of it are. -/
theorem activeAt_eq (h : OpsWellFormed ops) (seq : Nat) :
    activeAt ops seq =
      (ops.countP (fun op => decide (op.kind.undoTarget = some seq) && activeAt ops op.seq) % 2 == 0) := by
  rw [activeAt, isActive?, activeUndos_eq (f := activeAt ops)]
  · rfl
  · intro op hop htarget
    have hlt := h.undo_lt op hop seq htarget
    have hlen := h.seq_lt hop
    exact isActive?_eq h (by omega) (by omega)

/-- The refs that the operations in effect give. -/
theorem foldRefs?_eq (h : OpsWellFormed ops) :
    foldRefs? ops = some (ops.foldl (fun refs op =>
      if activeAt ops op.seq then op.kind.applyTo refs else refs) ∅) := by
  have hloop : ∀ (todo : List Operation) (refs : Refs),
      todo.foldlM (fun refs op => do
        if ← isActive? ops (ops.length + 1) op.seq then some (op.kind.applyTo refs) else some refs)
          refs =
        some (todo.foldl (fun refs op =>
          if activeAt ops op.seq then op.kind.applyTo refs else refs) refs) := by
    intro todo
    induction todo with
    | nil => exact fun refs => rfl
    | cons op todo ih =>
        intro refs
        rw [List.foldlM_cons, List.foldl_cons, ← ih, isActive?_eq h (by omega) (by omega)]
        cases activeAt ops op.seq <;> rfl
  exact hloop ops ∅

/-- An operation nothing undoes is in effect. -/
theorem activeAt_of_not_undone (h : OpsWellFormed ops) {seq : Nat}
    (hnone : ∀ op ∈ ops, op.kind.undoTarget ≠ some seq) : activeAt ops seq = true := by
  rw [activeAt_eq h, List.countP_eq_zero.mpr]
  · rfl
  · intro op hop
    simp [hnone op hop]

/-- Operations behind a log change the status of none of its own operations, as long
    as those that undo one are not in effect. -/
theorem activeAt_append (h : OpsWellFormed (ops ++ tail))
    (htail : ∀ op ∈ tail, ∀ target, op.kind.undoTarget = some target → target < ops.length →
      activeAt (ops ++ tail) op.seq = false)
    {seq : Nat} (hseq : seq < ops.length) : activeAt (ops ++ tail) seq = activeAt ops seq := by
  -- An undo stands behind what it undoes, so the induction goes down from the end.
  induction hn : ops.length - seq using Nat.strongRecOn generalizing seq with
  | ind n ih =>
      have hops : ops.countP (fun op => decide (op.kind.undoTarget = some seq) &&
          activeAt (ops ++ tail) op.seq) =
          ops.countP (fun op => decide (op.kind.undoTarget = some seq) && activeAt ops op.seq) := by
        refine List.countP_congr fun op hop => ?_
        by_cases htarget : op.kind.undoTarget = some seq
        · have hlater := h.of_append.undo_lt op hop seq htarget
          have hlen := h.of_append.seq_lt hop
          rw [ih (ops.length - op.seq) (by omega) hlen rfl]
        · simp [htarget]
      have hnone : tail.countP (fun op => decide (op.kind.undoTarget = some seq) &&
          activeAt (ops ++ tail) op.seq) = 0 := by
        refine List.countP_eq_zero.mpr fun op hop => ?_
        by_cases htarget : op.kind.undoTarget = some seq
        · simp [htail op hop seq htarget hseq]
        · simp [htarget]
      rw [activeAt_eq h, activeAt_eq h.of_append, List.countP_append, hops, hnone, Nat.add_zero]

/-- The refs of a longer log are those of its start, folded on. -/
theorem foldRefs?_append (h : OpsWellFormed (ops ++ tail)) {refs : Refs}
    (hrefs : foldRefs? ops = some refs)
    (htail : ∀ op ∈ tail, ∀ target, op.kind.undoTarget = some target → target < ops.length →
      activeAt (ops ++ tail) op.seq = false) :
    foldRefs? (ops ++ tail) = some (tail.foldl (fun refs op =>
      if activeAt (ops ++ tail) op.seq then op.kind.applyTo refs else refs) refs) := by
  rw [foldRefs?_eq h.of_append, Option.some.injEq] at hrefs
  rw [foldRefs?_eq h, List.foldl_append, ← hrefs]
  congr 2
  refine List.foldl_ext _ _ _ fun refs op hop => ?_
  rw [activeAt_append h htail (h.of_append.seq_lt hop)]

/-- An operation with its undo right behind it, at the end of a log, is not in effect. -/
private theorem activeAt_undone {op undo : Operation} (h : OpsWellFormed (ops ++ [op, undo]))
    (hundo : undo.kind.undoTarget = some op.seq) (hseq : op.seq = ops.length) :
    activeAt (ops ++ [op, undo]) op.seq = false := by
  have huseq : undo.seq = ops.length + 1 := h.seq_eq _ undo (by simp)
  have hlast : activeAt (ops ++ [op, undo]) undo.seq = true := by
    refine activeAt_of_not_undone h fun op' hop' htarget => ?_
    have := h.undo_lt op' hop' _ htarget
    have := h.seq_lt hop'
    simp only [List.length_append, List.length_cons, List.length_nil] at this
    omega
  have hwf : OpsWellFormed (ops ++ [op]) := by
    rw [← List.singleton_append, ← List.append_assoc] at h
    exact h.of_append
  have hbefore : (ops ++ [op]).countP (fun op' => decide (op'.kind.undoTarget = some op.seq) &&
      activeAt (ops ++ [op, undo]) op'.seq) = 0 := by
    refine List.countP_eq_zero.mpr fun op' hop' hcount => ?_
    simp only [Bool.and_eq_true, decide_eq_true_eq] at hcount
    have := hwf.undo_lt op' hop' _ hcount.1
    have := hwf.seq_lt hop'
    rw [List.length_append, List.length_singleton] at this
    omega
  rw [activeAt_eq h]
  have hsplit : ops ++ [op, undo] = (ops ++ [op]) ++ [undo] := by simp
  conv_lhs => rw [hsplit, List.countP_append, ← hsplit, hbefore]
  simp [hundo, hlast]

/-- An operation and its undo at the end of a log leave its refs as they were. -/
theorem foldRefs?_undone {op undo : Operation} (h : OpsWellFormed (ops ++ [op, undo]))
    (hundo : undo.kind = .undo op.seq) (hseq : op.seq = ops.length) :
    foldRefs? (ops ++ [op, undo]) = foldRefs? ops := by
  have htarget : undo.kind.undoTarget = some op.seq := by rw [hundo]; rfl
  have hundone := activeAt_undone h htarget hseq
  have hrefs := foldRefs?_eq h.of_append
  rw [foldRefs?_append h hrefs, hrefs]
  · rw [List.foldl_cons, List.foldl_cons, List.foldl_nil, hundone, hundo]
    simp [OpKind.applyTo]
  · intro op' hop' target htarget' hlt
    simp only [List.mem_cons, List.not_mem_nil, or_false] at hop'
    rcases hop' with rfl | rfl
    · exact hundone
    · rw [htarget, Option.some.injEq] at htarget'
      omega

end Activity

/-! ## The log -/

/-- An append-only operation log. -/
structure OpLog where
  ops : List Operation
  wellFormed : OpsWellFormed ops
  deriving DecidableEq

namespace OpLog

def new : OpLog := ⟨[], .nil⟩

/-- The transaction time of the next operation. -/
def nextSeq (log : OpLog) : Nat := log.ops.length

/-- Append a mutation with a caller-supplied wall-clock label. An undo has to name an
    operation of the log. -/
def appendAt (log : OpLog) (kind : OpKind) (note time : Option Str)
    (h : ∀ target, kind.undoTarget = some target → target < log.nextSeq) : OpLog :=
  ⟨log.ops ++ [⟨log.nextSeq, kind, note, time⟩], log.wellFormed.concat rfl h⟩

/-- Append a mutation. -/
def append (log : OpLog) (kind : OpKind) (note : Option Str)
    (h : ∀ target, kind.undoTarget = some target → target < log.nextSeq) : OpLog :=
  log.appendAt kind note none h

theorem foldRefs?_isSome (log : OpLog) (limit : Option Nat) :
    (foldRefs? (visible log.ops limit)).isSome := by
  rw [foldRefs?_eq (log.wellFormed.visible limit)]
  rfl

/-- The refs folded up to a transaction time. -/
def foldRefs (log : OpLog) (limit : Option Nat) : Refs :=
  (foldRefs? (visible log.ops limit)).get (log.foldRefs?_isSome limit)

/-- The current ref state. -/
def refsNow (log : OpLog) : Refs := log.foldRefs none

/-- The ref state as believed at transaction time `seq`. -/
def refsAt (log : OpLog) (seq : Nat) : Refs := log.foldRefs (some seq)

/-- Point `name` at `target`, recording where it pointed. -/
def setRef (log : OpLog) (name : Str) (target : Option CommitId) (note : Option Str) : OpLog :=
  let old := log.refsNow[name]?
  log.append (.setRef name old target) note nofun

/-- Undo the most recent operation still in effect, by appending its inverse. -/
def undo (log : OpLog) : Except WorkError OpLog :=
  match h : log.ops.reverse.find? fun op => isActive? log.ops (log.ops.length + 1) op.seq == some true with
  | some op => .ok (log.append (.undo op.seq) none fun target htarget => by
      obtain rfl : op.seq = target := Option.some.inj htarget
      exact log.wellFormed.seq_lt (List.mem_reverse.mp (List.mem_of_find?_eq_some h)))
  | none => .error .nothingToUndo

/-- The operations up to a transaction time are the first ones. -/
private theorem visible_eq_take {ops : List Operation} (h : OpsWellFormed ops) (limit : Nat) :
    visible ops (some limit) = ops.take (limit + 1) := by
  have htake : ∀ (ops : List Operation) (start : Nat),
      (∀ (i : Nat) (op : Operation), ops[i]? = some op → op.seq = start + i) →
      (ops.takeWhile fun op => decide (op.seq ≤ limit)) = ops.take (limit + 1 - start) := by
    intro ops
    induction ops with
    | nil => simp
    | cons op ops ih =>
        intro start hseq
        have hhead : op.seq = start := hseq 0 op rfl
        have htail := ih (start + 1) fun i op' hi => by
          rw [hseq (i + 1) op' (by simpa using hi)]
          omega
        rw [List.takeWhile_cons, hhead, htail]
        by_cases hle : start ≤ limit
        · obtain ⟨n, hn⟩ : ∃ n, limit + 1 - start = n + 1 := ⟨limit - start, by omega⟩
          have hrest : limit + 1 - (start + 1) = n := by omega
          rw [hn, hrest, List.take_succ_cons]
          simp [hle]
        · have hzero : limit + 1 - start = 0 := by omega
          simp [hle, hzero]
  exact htake ops 0 fun i op hi => by rw [h.seq_eq i op hi, Nat.zero_add]

/-- The refs at a transaction time do not depend on what comes behind it. -/
theorem refsAt_of_append {log log' : OpLog} {tail : List Operation} (hops : log'.ops = log.ops ++ tail)
    {seq : Nat} (hseq : seq < log.nextSeq) : log'.refsAt seq = log.refsAt seq := by
  have hvisible : visible log'.ops (some seq) = visible log.ops (some seq) := by
    rw [visible_eq_take log'.wellFormed, visible_eq_take log.wellFormed, hops,
      List.take_append_of_le_length hseq]
  simp only [refsAt, foldRefs, hvisible]

/-- The refs at the last transaction time are those now. -/
theorem refsAt_of_nextSeq_le {log : OpLog} {seq : Nat} (hseq : log.nextSeq ≤ seq + 1) :
    log.refsAt seq = log.refsNow := by
  have hvisible : visible log.ops (some seq) = visible log.ops none := by
    rw [visible_eq_take log.wellFormed, List.take_of_length_le hseq, visible]
  simp only [refsAt, refsNow, foldRefs, hvisible]

theorem foldRefs?_eq_refsNow (log : OpLog) : foldRefs? log.ops = some log.refsNow :=
  (Option.some_get (log.foldRefs?_isSome none)).symm

theorem refsNow_new : OpLog.new.refsNow = ∅ := rfl

/-- Nothing in a log undoes what comes behind it. -/
private theorem not_undone_of_ge (log : OpLog) {op : Operation} (hop : op ∈ log.ops) {seq : Nat}
    (hseq : log.ops.length ≤ seq) : op.kind.undoTarget ≠ some seq := fun htarget => by
  have := log.wellFormed.undo_lt op hop seq htarget
  have := log.wellFormed.seq_lt hop
  omega

/-- Appending anything but an undo folds it into the refs. -/
theorem refsNow_appendAt (log : OpLog) {kind : OpKind} (hkind : kind.undoTarget = none)
    (note time : Option Str)
    (h : ∀ target, kind.undoTarget = some target → target < log.nextSeq) :
    (log.appendAt kind note time h).refsNow = kind.applyTo log.refsNow := by
  have hwf := (log.appendAt kind note time h).wellFormed
  have hactive : activeAt (log.ops ++ [⟨log.nextSeq, kind, note, time⟩]) log.nextSeq = true := by
    refine activeAt_of_not_undone hwf fun op hop => ?_
    rcases List.mem_append.mp hop with hop | hop
    · exact log.not_undone_of_ge hop (Nat.le_refl _)
    · rw [List.mem_singleton.mp hop]
      simp [hkind]
  have hfold := foldRefs?_append hwf log.foldRefs?_eq_refsNow fun op hop target htarget => by
    rw [List.mem_singleton.mp hop] at htarget
    simp [hkind] at htarget
  have hnow := (log.appendAt kind note time h).foldRefs?_eq_refsNow
  rw [appendAt, hfold, Option.some.injEq] at hnow
  rw [appendAt, ← hnow, List.foldl_cons, List.foldl_nil, hactive, if_pos rfl]

/-- Setting a ref sets it and no other. -/
theorem getElem?_refsNow_setRef (log : OpLog) (name a : Str) (target : Option CommitId)
    (note : Option Str) :
    (log.setRef name target note).refsNow[a]? = if name = a then target else log.refsNow[a]? := by
  rw [setRef, append, refsNow_appendAt log rfl]
  cases target with
  | none => rw [OpKind.applyTo, BTreeMap.getElem?_erase]
  | some tip => rw [OpKind.applyTo, BTreeMap.getElem?_insert]

/-- Refs set one after another. -/
def SetsRefs : OpLog → OpLog → Prop :=
  Relation.ReflTransGen fun log log' => ∃ name target note, log' = log.setRef name target note

/-- Setting refs appends operations that set refs. -/
theorem SetsRefs.ops_eq {log log' : OpLog} (h : log.SetsRefs log') :
    ∃ tail, log'.ops = log.ops ++ tail ∧ ∀ op ∈ tail, ∃ name old new, op.kind = .setRef name old new := by
  induction h with
  | refl => exact ⟨[], by simp⟩
  | @tail log₁ _ _ hset ih =>
      obtain ⟨tail, hops, hkinds⟩ := ih
      obtain ⟨name, target, note, rfl⟩ := hset
      have hset : (log₁.setRef name target note).ops =
          log₁.ops ++ [⟨log₁.nextSeq, .setRef name log₁.refsNow[name]? target, note, none⟩] := rfl
      refine ⟨tail ++ [⟨log₁.nextSeq, .setRef name log₁.refsNow[name]? target, note, none⟩], ?_,
        fun op hop => ?_⟩
      · rw [hset, hops, List.append_assoc]
      · rcases List.mem_append.mp hop with hop | hop
        · exact hkinds op hop
        · rw [List.mem_singleton.mp hop]
          exact ⟨_, _, _, rfl⟩

/-- Undoing takes the last operation of the log back. -/
theorem undo_eq (log : OpLog) {ops : List Operation} {op : Operation}
    (hops : log.ops = ops ++ [op]) :
    ∃ log', log.undo = .ok log' ∧ log'.ops = log.ops ++ [⟨log.nextSeq, .undo op.seq, none, none⟩] ∧
      foldRefs? ops = some log'.refsNow := by
  have hseq : op.seq = ops.length := log.wellFormed.seq_eq _ op (by simp [hops])
  have hmem : op ∈ log.ops := by simp [hops]
  -- nothing comes behind the last operation, so nothing undoes it
  have hlast : activeAt log.ops op.seq = true := by
    refine activeAt_of_not_undone log.wellFormed fun op' hop' htarget => ?_
    have := log.wellFormed.undo_lt op' hop' _ htarget
    have := log.wellFormed.seq_lt hop'
    rw [hops, List.length_append, List.length_singleton] at this
    omega
  have hfind : (log.ops.reverse.find? fun op =>
      isActive? log.ops (log.ops.length + 1) op.seq == some true) = some op := by
    have hactive : isActive? log.ops (log.ops.length + 1) op.seq = some (activeAt log.ops op.seq) :=
      isActive?_eq log.wellFormed (by omega) (by omega)
    rw [hlast] at hactive
    conv_lhs => rw [hops, List.reverse_append, List.reverse_singleton, List.singleton_append]
    rw [← hops, List.find?_cons_of_pos (by simp [hactive])]
  have hrun : ∃ log', log.undo = .ok log' ∧
      log'.ops = log.ops ++ [⟨log.nextSeq, .undo op.seq, none, none⟩] := by
    unfold undo
    split
    · rename_i op' hop'
      obtain rfl : op = op' := Option.some.inj (hfind.symm.trans hop')
      exact ⟨_, rfl, rfl⟩
    · rename_i hnone
      simp [hfind] at hnone
  obtain ⟨log', hundo, hops'⟩ := hrun
  refine ⟨log', hundo, hops', ?_⟩
  rw [hops, List.append_assoc, List.singleton_append] at hops'
  have hwf := log'.wellFormed
  rw [hops'] at hwf
  rw [← log'.foldRefs?_eq_refsNow, hops', foldRefs?_undone hwf rfl hseq]

/-- One step of building a log. -/
inductive Step : OpLog → OpLog → Prop
  | appendAt (log : OpLog) (kind : OpKind) (note time : Option Str) (h : kind.undoTarget = none) :
      Step log (log.appendAt kind note time (by simp [h]))
  | setRef (log : OpLog) (name : Str) (target : Option CommitId) (note : Option Str) :
      Step log (log.setRef name target note)
  | undo (log log' : OpLog) (h : log.undo = .ok log') : Step log log'

/-- A step keeps every operation and adds one. -/
theorem Step.ops_eq {log log' : OpLog} (h : Step log log') : ∃ op, log'.ops = log.ops ++ [op] := by
  cases h with
  | appendAt kind note time h => exact ⟨_, rfl⟩
  | setRef name target note => exact ⟨_, rfl⟩
  | undo _ h =>
      rcases List.eq_nil_or_concat log.ops with hnil | ⟨ops, op, hops⟩
      · unfold OpLog.undo at h
        split at h
        · rename_i op hop
          simp [hnil] at hop
        · simp at h
      · obtain ⟨log'', hundo, hops', -⟩ := log.undo_eq (hops.trans List.concat_eq_append)
        rw [h, Except.ok.injEq] at hundo
        exact ⟨_, hundo ▸ hops'⟩

/-- Building on a log keeps every operation it holds. -/
theorem steps_keep_ops {log log' : OpLog} (h : Relation.ReflTransGen Step log log') :
    log.ops <+: log'.ops := by
  induction h with
  | refl => exact List.prefix_refl _
  | tail _ hstep ih =>
      obtain ⟨op, hop⟩ := hstep.ops_eq
      exact ih.trans (hop ▸ List.prefix_append _ _)

/-- Undo is an exact inverse: it takes back what was appended last, and undoing it
    brings that back. On a non-empty log it does not fail. Operations stay in the log
    unchanged, at the positions their sequence numbers name. -/
theorem undo_inverse (log : OpLog) :
    (∀ (kind : OpKind) (note time : Option Str) (hkind : kind.undoTarget = none),
      ∃ log', (log.appendAt kind note time (by simp [hkind])).undo = .ok log' ∧
        log'.refsNow = log.refsNow) ∧
    (log.ops ≠ [] → ∃ log₁ log₂, log.undo = .ok log₁ ∧ log₁.undo = .ok log₂ ∧
      log₂.refsNow = log.refsNow) ∧
    (∀ log', Relation.ReflTransGen Step log log' → log.ops <+: log'.ops) ∧
    (∀ (i : Nat) (op : Operation), log.ops[i]? = some op → op.seq = i) := by
  refine ⟨fun kind note time hkind => ?_, fun hne => ?_, fun _ => steps_keep_ops,
    log.wellFormed.seq_eq⟩
  · obtain ⟨log', hundo, -, hrefs⟩ :=
      (log.appendAt kind note time (by simp [hkind])).undo_eq rfl
    rw [log.foldRefs?_eq_refsNow, Option.some.injEq] at hrefs
    exact ⟨log', hundo, hrefs.symm⟩
  · obtain ⟨ops, op, hops⟩ := (List.eq_nil_or_concat log.ops).resolve_left hne
    obtain ⟨log₁, hundo₁, hops₁, -⟩ := log.undo_eq (hops.trans List.concat_eq_append)
    obtain ⟨log₂, hundo₂, -, hrefs⟩ := log₁.undo_eq hops₁
    rw [log.foldRefs?_eq_refsNow, Option.some.injEq] at hrefs
    exact ⟨log₁, log₂, hundo₁, hundo₂, hrefs.symm⟩

/-- The first operations of a log. -/
def truncate (log : OpLog) (n : Nat) : OpLog :=
  ⟨log.ops.take n, (List.take_append_drop n log.ops ▸ log.wellFormed).of_append⟩

/-- The refs at a transaction time are those of the log that ends there. -/
theorem refsAt_eq_truncate (log : OpLog) (t : Nat) : log.refsAt t = (log.truncate (t + 1)).refsNow := by
  have hvisible : visible log.ops (some t) = visible (log.truncate (t + 1)).ops none := by
    rw [visible_eq_take log.wellFormed]
    rfl
  simp only [refsAt, refsNow, foldRefs, hvisible]

/-- What was believed at a transaction time of a log stays so however the log goes on, and is
    what the log believed when it ended there. -/
theorem refsAt_stable {log log' : OpLog} (h : Relation.ReflTransGen Step log log') {t : Nat}
    (ht : t < log.nextSeq) :
    log'.refsAt t = log.refsAt t ∧ log.refsAt t = (log.truncate (t + 1)).refsNow := by
  obtain ⟨tail, htail⟩ := steps_keep_ops h
  exact ⟨refsAt_of_append htail.symm ht, log.refsAt_eq_truncate t⟩

/-- A ref that is set and then taken back was there in between. -/
theorem refsAt_stable_undone :
    ∃ log', (new.setRef ['m'] (some ['a']) none).undo = .ok log' ∧
      log'.refsAt 0 = (new.setRef ['m'] (some ['a']) none).refsAt 0 := by
  obtain ⟨log', hundo, -⟩ := (new.setRef ['m'] (some ['a']) none).undo_eq rfl
  exact ⟨log', hundo, (refsAt_stable (.single (.undo _ _ hundo)) (by decide)).1⟩

end OpLog

end Omoplata
