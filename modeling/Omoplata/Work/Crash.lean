-- SUMMARY: The operation log on the disk: what calls that die, power losses and readers without a lock find in it.
import Omoplata.Lib.Durable
import Omoplata.Store.Lock
import Omoplata.Work.LogFile

/-!
# The log on the disk

A call takes the lock of the repository, loads the log, changes it and saves it through a
temporary sibling. It may fail or die at any step, a save may fail half-way, and the power may go.
The directory of the log has been on the disk since the repository was made.
-/

open Relation

namespace Omoplata

namespace OpLog

/-- What the bytes of a file are to a reader of text. -/
def contentOf (bytes : List UInt8) : Content :=
  match fromUtf8 bytes with
  | some text => .text text
  | none => .binary bytes

/-- The bytes of a saved log. -/
def saveBytes (json : OperationJson) (ops : List Operation) : List UInt8 :=
  utf8 (ops.flatMap fun op => json.toString op ++ ['\n'])

theorem contentOf_saveBytes (json : OperationJson) (ops : List Operation) :
    contentOf (saveBytes json ops) = save json ops := by
  unfold contentOf saveBytes
  rw [fromUtf8_utf8]
  rfl

def logName : Str := "oplog.jsonl".toList

section

variable {ι ρ τ : Type}

/-- Calls of `mutate_locked` as calls on the disk. A call is known by its process and by the count of
    the temporary names that the process has used. -/
def program (json : OperationJson) (path : Str) (closures : ι → Closure τ) (pid counter : ι → Nat) :
    Durable.Program Str UInt8 ι (List Operation) WorkError τ where
  cell := logName
  temp i := tempName (pid i) (counter i) logName
  load file := load json path (file.map contentOf)
  save := saveBytes json
  body i := (closures i).run

theorem program_lawful (json : OperationJson) (path : Str) (closures : ι → Closure τ) (pid counter : ι → Nat) :
    (program json path closures pid counter).Lawful := by
  intro i h
  have hhead := congrArg List.head? h
  unfold program tempName logName at hhead
  simp at hhead

/-- What a moment of a run has to show for the log on the disk. The calls in `order` are those
    whose log stands; `added` is what each of them has appended. -/
structure OnDisk (json : OperationJson) (path : Str) (closures : ι → Closure τ) (pid counter : ι → Nat)
    (initial : List Operation) (added : ι → List Operation)
    (s : Durable.System Str UInt8 ι ρ (List Operation) WorkError τ) : Prop where
  load_eq : (program json path closures pid counter).load (s.cell (program json path closures pid counter)) =
    .ok (initial ++ s.order.flatMap fun call => added call.1)
  run_eq : ∀ before i out after, s.order = before ++ (i, out) :: after →
    (closures i).run (initial ++ before.flatMap fun call => added call.1) =
      .ok (out, (initial ++ before.flatMap fun call => added call.1) ++ added i)
  numbered : Numbered initial → Numbered (initial ++ s.order.flatMap fun call => added call.1)
  once : (s.order.map Prod.fst).Nodup
  lock_order : (s.order.map Prod.fst).Sublist s.acquired
  returned : ∀ i out durable, s.phase i = .returned out durable → (i, out) ∈ s.order
  failed : ∀ i e, s.phase i = .stopped (some e) → i ∉ s.order.map Prod.fst
  holder : ∀ i, s.holder = some i → (s.phase i).holds
  read : ∀ r full got, s.disk.reader r = .done ⟨⟩ logName full got → got = full ∧
    ∃ log, load json path (some (contentOf got)) = .ok log ∧ initial <+: log ∧ (Numbered initial → Numbered log)

end

section

variable {ι ρ τ : Type} {json : OperationJson} {path : Str} {closures : ι → Closure τ} {pid counter : ι → Nat}

/-- Calls on the bytes of a file are calls on what is read of it. -/
theorem serial_content {c file : Option (List UInt8)} {order : List (ι × τ)}
    (h : (program json path closures pid counter).Serial c order file) :
    Locked.Serial (load json path) (fun ops => some (save json ops)) (fun i => (closures i).run) (c.map contentOf) order
      (file.map contentOf) := by
  induction h with
  | nil => exact .nil
  | @snoc order c₁ c₂ i out h hcall ih =>
      refine ih.snoc ?_
      unfold Locked.alone program at hcall
      unfold Locked.alone
      dsimp only at hcall
      cases hload : load json path (c₁.map contentOf) with
      | error e => simp [hload] at hcall
      | ok log =>
          cases hrun : (closures i).run log with
          | error e => simp [hload, hrun] at hcall
          | ok result =>
              simp only [hload, hrun, Except.ok.injEq, Prod.mk.injEq] at hcall
              obtain ⟨hout, rfl⟩ := hcall
              simp only [hrun, Option.map_some, contentOf_saveBytes, hout]

variable [DecidableEq ι] [DecidableEq ρ]

/-- No crash tears or loses the log. Whatever the order of the steps of any number of calls, and
    wherever they fail, die or lose the power, the file holds the initial log followed by what the
    calls in it have appended one after another, in the order of the lock; every call that has
    returned is among them, also after a power loss if it has synced the directory; no dead call
    holds the lock; and a reader that takes no lock gets a whole log. -/
theorem mutateLocked_onDisk (hjson : json.Lawful) {base : PUnit → Str → Option (List UInt8)} {initial : List Operation}
    (hinitial : load json path ((base ⟨⟩ logName).map contentOf) = .ok initial)
    {start s : Durable.System Str UInt8 ι ρ (List Operation) WorkError τ}
    (hstart : Durable.Fresh (program json path closures pid counter) base start)
    (hrun : ReflTransGen (Durable.Step (program json path closures pid counter)) start s) :
    ∃ added : ι → List Operation, OnDisk json path closures pid counter initial added s := by
  have hP := program_lawful json path closures pid counter
  have hinv := Durable.inv_of_reaches hP hstart hrun
  have hserial := serial_content (hinv.serial hP)
  obtain ⟨added, hload, hnumbered, hruns⟩ := exists_added hjson hinitial hinv.nodup hserial
  refine ⟨added, hload, hruns, hnumbered, hinv.nodup, hinv.sublist, fun i out durable hi => ?_, fun i e hi => ?_,
    hinv.holder, fun r full got hr => ?_⟩
  · have hfits := hinv.fits i
    rw [hi] at hfits
    exact hfits.2
  · have hfits := hinv.fits i
    rw [hi] at hfits
    exact hfits.2 rfl
  · have hreader := hinv.disk.reader r
    have hexplained := hinv.readers r
    rw [hr] at hreader hexplained
    obtain ⟨-, rfl⟩ := hreader
    obtain ⟨order, hnodup, horder⟩ := hexplained rfl
    obtain ⟨added', hload', hnumbered', -⟩ := exists_added hjson hinitial hnodup (serial_content horder)
    exact ⟨rfl, _, hload', List.prefix_append .., hnumbered'⟩

/-- A repository without a log. -/
def noLog (ι ρ : Type) (τ : Type) : Durable.System Str UInt8 ι ρ (List Operation) WorkError τ where
  disk := ⟨fun _ => some .empty, fun _ => .outside, fun _ => .idle⟩
  holder := none
  phase _ := .outside
  acquired := []
  order := []

omit [DecidableEq ι] [DecidableEq ρ] in
theorem fresh_noLog : Durable.Fresh (ρ := ρ) (program json path closures pid counter) (fun _ _ => none) (noLog ι ρ τ) :=
  Durable.fresh_empty _

end

/-- A call that points `main` at a commit leaves a log of one operation on the disk. -/
theorem mutateLocked_onDisk_first :
    ∃ (s : Durable.System Str UInt8 Unit Unit (List Operation) WorkError Nat) (added : Unit → List Operation),
      s.phase () = .returned 0 true ∧
      OnDisk mainJson logName (fun _ => setRefClosure "main".toList (some ['a'])) (fun _ => 7) (fun _ => 0) [] added s := by
  obtain ⟨s, hrun, hphase, -⟩ := Durable.exists_returned
    (P := program mainJson logName (fun _ : Unit => setRefClosure "main".toList (some ['a'])) (fun _ => 7) fun _ => 0)
    (noLog Unit Unit Nat) (i := ()) (f := .empty) (a := []) (b := [mainOp]) 0 rfl rfl rfl rfl rfl
  obtain ⟨added, honDisk⟩ := mutateLocked_onDisk mainJson_lawful rfl fresh_noLog hrun
  exact ⟨s, added, hphase, honDisk⟩

end OpLog

end Omoplata
