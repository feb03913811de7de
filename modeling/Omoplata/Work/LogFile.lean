-- SUMMARY: The operation log as a file of JSON lines, and appending to it under the repository lock.
import Mathlib.Logic.Equiv.List
import Mathlib.Tactic.DeriveEncodable
import Omoplata.Drivers.Select
import Omoplata.Lib.Locked
import Omoplata.Work.OpLog

/-!
# The log file

A log is saved as one line of JSON for each operation and published as a whole. Writers
load, change and save it under the exclusive lock of the repository; readers take no lock.

`OperationJson` stands for the external JSON library. A closure gets the loaded log and
can only append to it.
-/

namespace Omoplata

/-- Printing and reading one operation. -/
structure OperationJson where
  toString : Operation → Str
  fromStr : Str → Except Str Operation

/-- What is documented of the library: it reads back what it prints, escapes control characters,
    and prints a record as an object. -/
structure OperationJson.Lawful (json : OperationJson) : Prop where
  fromStr_toString : ∀ op, json.fromStr (json.toString op) = .ok op
  escapes : ∀ op, ∀ c ∈ json.toString op, 32 ≤ c.toNat
  head : ∀ op, (json.toString op).head? = some '\x7b'

/-- The first line of a text. -/
theorem splitInclusive_line {line : Line} (h : '\n' ∉ line) (rest : Str) :
    splitInclusive (line ++ '\n' :: rest) = (line ++ ['\n']) :: splitInclusive rest := by
  induction line with
  | nil => simp [splitInclusive]
  | cons c line ih =>
      have hc : c ≠ '\n' := fun heq => h (by simp [heq])
      rw [List.cons_append, splitInclusive, if_neg hc, ih fun hmem => h (List.mem_cons_of_mem _ hmem)]
      rfl

namespace OpLog

section File

variable (json : OperationJson) (path : Str)

/-- The text of a saved log. -/
def save (ops : List Operation) : Content := .text (ops.flatMap fun op => json.toString op ++ ['\n'])

/-- The log in a file. A missing file is an empty log, and blank lines are passed over. -/
def load : Option Content → Except WorkError (List Operation)
  | none => .ok []
  | some content =>
      match content.readToString with
      | none => .error (.io path)
      | some text =>
          ((textLines text).filter fun line => !line.all isWhiteSpace).mapM fun line =>
            (json.fromStr line).mapError .decode

/-- Load the log, let a closure change it, and save it. -/
def mutateLocked {τ : Type} (f : List Operation → Except WorkError (τ × List Operation)) (file : Option Content) :
    Except WorkError (τ × Option Content) := do
  let log ← load json path file
  let (out, log) ← f log
  pure (out, some (save json log))

variable {json} {path} (hjson : json.Lawful)

include hjson in
/-- The lines of a saved log are the printed operations. -/
theorem textLines_save (ops : List Operation) :
    textLines (ops.flatMap fun op => json.toString op ++ ['\n']) = ops.map json.toString := by
  have hescapes : ∀ op, ∀ c ∈ json.toString op, c ≠ '\n' ∧ c ≠ '\r' := by
    intro op c hc
    have hle := hjson.escapes op c hc
    constructor
    all_goals
      rintro rfl
      exact absurd hle (by decide)
  unfold textLines
  induction ops with
  | nil => rfl
  | cons op ops ih =>
      have hnewline : '\n' ∉ json.toString op := fun hmem => (hescapes op _ hmem).1 rfl
      have hreturn : (json.toString op).getLast? ≠ some '\r' := fun hlast =>
        (hescapes op _ (List.mem_of_getLast? hlast)).2 rfl
      rw [List.flatMap_cons, List.append_assoc, List.singleton_append, splitInclusive_line hnewline,
        List.map_cons, ih]
      simp [stripReturn, hreturn]

include hjson in
/-- Loading a saved log gives the log. -/
theorem load_save (ops : List Operation) : load json path (some (save json ops)) = .ok ops := by
  have hfilter : (ops.map json.toString).filter (fun line => !line.all isWhiteSpace) = ops.map json.toString := by
    refine List.filter_eq_self.mpr fun line hline => ?_
    obtain ⟨op, -, rfl⟩ := List.mem_map.mp hline
    obtain ⟨rest, hrest⟩ : ∃ rest, json.toString op = '\x7b' :: rest := List.head?_eq_some_iff.mp (hjson.head op)
    have hbrace : isWhiteSpace '\x7b' = false := by decide
    simp [hrest, hbrace]
  unfold load save Content.readToString
  simp only [textLines_save hjson, hfilter]
  clear hfilter
  induction ops with
  | nil => rfl
  | cons op ops ih =>
      rw [List.map_cons, List.mapM_cons, ih, hjson.fromStr_toString]
      rfl

end File

/-! ## Calls from many processes -/

/-- Append operations, each with the next sequence number. -/
def appendAll (ops : List Operation) (added : List (OpKind × Option Str × Option Str)) : List Operation :=
  added.foldl (fun ops (kind, note, time) => ops ++ [⟨ops.length, kind, note, time⟩]) ops

/-- What a call does with the log it has loaded. It may fail; else it has appended operations. -/
structure Closure (τ : Type) where
  run : List Operation → Except WorkError (τ × List Operation)
  appends : ∀ {ops ops' : List Operation} {out : τ}, run ops = .ok (out, ops') → ∃ added, ops' = appendAll ops added

/-- Sequence numbers are positions. -/
def Numbered (ops : List Operation) : Prop := ∀ (i : Nat) (op : Operation), ops[i]? = some op → op.seq = i

theorem appendAll_eq (ops : List Operation) (added : List (OpKind × Option Str × Option Str)) :
    ∃ tail, appendAll ops added = ops ++ tail ∧ (Numbered ops → Numbered (ops ++ tail)) := by
  induction added generalizing ops with
  | nil => exact ⟨[], by simp [appendAll], by simp⟩
  | cons a added ih =>
      obtain ⟨kind, note, time⟩ := a
      obtain ⟨tail, heq, hnumbered⟩ := ih (ops ++ [⟨ops.length, kind, note, time⟩])
      refine ⟨⟨ops.length, kind, note, time⟩ :: tail, by rw [appendAll, List.foldl_cons, ← appendAll, heq]; simp,
        fun h => ?_⟩
      rw [List.append_cons]
      exact hnumbered (seq_eq_concat h rfl)

/-- An uninterrupted call is `mutateLocked`. -/
theorem alone_eq_mutateLocked {ι τ : Type} (json : OperationJson) (path : Str) (closures : ι → Closure τ) (i : ι)
    (file : Option Content) :
    Locked.alone (load json path) (fun ops => some (save json ops)) (fun i => (closures i).run) i file =
      mutateLocked json path (closures i).run file := by
  unfold Locked.alone mutateLocked
  cases load json path file with
  | error e => rfl
  | ok log =>
      simp only [bind, Except.bind]
      cases (closures i).run log <;> rfl

/-- A call appends to the log in the file. -/
theorem mutateLocked_ok {τ : Type} {json : OperationJson} (hjson : json.Lawful) {path : Str} {f : Closure τ}
    {file file' : Option Content} {log : List Operation} {out : τ} (hload : load json path file = .ok log)
    (h : mutateLocked json path f.run file = .ok (out, file')) :
    ∃ tail, f.run log = .ok (out, log ++ tail) ∧ load json path file' = .ok (log ++ tail) ∧
      (Numbered log → Numbered (log ++ tail)) := by
  unfold mutateLocked at h
  simp only [hload, bind, Except.bind] at h
  cases hrun : f.run log with
  | error e => simp [hrun] at h
  | ok r =>
      obtain ⟨out', log'⟩ := r
      simp only [hrun, pure, Except.pure, Except.ok.injEq, Prod.mk.injEq] at h
      obtain ⟨rfl, rfl⟩ := h
      obtain ⟨added, rfl⟩ := f.appends hrun
      obtain ⟨tail, heq, hnumbered⟩ := appendAll_eq log added
      rw [heq]
      exact ⟨tail, rfl, load_save hjson _, hnumbered⟩

/-- The log that calls leave one after another: the initial one, followed by the operations that
    each call has appended to the log before it. -/
theorem exists_added {ι τ : Type} [DecidableEq ι] {json : OperationJson} (hjson : json.Lawful) {path : Str}
    {closures : ι → Closure τ} {file file' : Option Content} {initial : List Operation}
    (hinitial : load json path file = .ok initial) {order : List (ι × τ)} (hnodup : (order.map Prod.fst).Nodup)
    (h : Locked.Serial (load json path) (fun ops => some (save json ops)) (fun i => (closures i).run) file order file') :
    ∃ added : ι → List Operation,
      load json path file' = .ok (initial ++ order.flatMap fun call => added call.1) ∧
      (Numbered initial → Numbered (initial ++ order.flatMap fun call => added call.1)) ∧
      ∀ before i out after, order = before ++ (i, out) :: after →
        (closures i).run (initial ++ before.flatMap fun call => added call.1) =
          .ok (out, (initial ++ before.flatMap fun call => added call.1) ++ added i) := by
  induction h with
  | nil => exact ⟨fun _ => [], by simpa using hinitial, by simp, by simp⟩
  | @snoc order c₁ c₂ i out h hcall ih =>
      rw [List.map_append, List.nodup_append] at hnodup
      obtain ⟨added, hload, hnumbered, hruns⟩ := ih hnodup.1
      rw [alone_eq_mutateLocked] at hcall
      obtain ⟨tail, hrun, hload', hnumbered'⟩ := mutateLocked_ok hjson hload hcall
      have hne : ∀ call ∈ order, call.1 ≠ i := fun call hcall =>
        hnodup.2.2 _ (List.mem_map_of_mem hcall) _ (by simp)
      -- what the earlier calls have appended stays
      have hsame : ∀ calls : List (ι × τ), (∀ call ∈ calls, call ∈ order) →
          (calls.flatMap fun call => Function.update added i tail call.1) = calls.flatMap fun call => added call.1 := by
        intro calls hcalls
        refine List.flatMap_congr fun call hcall => ?_
        rw [Function.update_of_ne (hne call (hcalls call hcall))]
      have hall : ((order ++ [(i, out)]).flatMap fun call => Function.update added i tail call.1) =
          (order.flatMap fun call => added call.1) ++ tail := by
        rw [List.flatMap_append, hsame order fun _ h => h]
        simp
      refine ⟨Function.update added i tail, ?_, ?_, fun before j out' after hsplit => ?_⟩
      · rw [hall, ← List.append_assoc]
        exact hload'
      · intro hinit
        rw [hall, ← List.append_assoc]
        exact hnumbered' (hnumbered hinit)
      · rcases List.eq_nil_or_concat after with rfl | ⟨after, last, rfl⟩
        · obtain ⟨rfl, hlast⟩ := List.append_inj' hsplit rfl
          rw [List.singleton_inj, Prod.mk.injEq] at hlast
          obtain ⟨rfl, rfl⟩ := hlast
          rw [hsame order fun _ h => h, Function.update_self]
          exact hrun
        · rw [List.concat_eq_append, ← List.cons_append, ← List.append_assoc] at hsplit
          obtain ⟨rfl, -⟩ := List.append_inj' hsplit rfl
          have hj : j ≠ i := hne (j, out') (by simp)
          rw [hsame before fun call hcall => by simp [hcall], Function.update_of_ne hj]
          exact hruns before j out' after rfl

/-- What a moment of a run of calls has to show for the log in the file: it is the initial one,
    followed by what the calls that have published appended, in the order they took the lock. -/
structure Appended {ι τ : Type} (json : OperationJson) (path : Str) (closures : ι → Closure τ)
    (initial : List Operation) (added : ι → List Operation) (s : Locked.System (Option Content) (List Operation) ι WorkError τ) :
    Prop where
  load_eq : load json path s.cell = .ok (initial ++ s.order.flatMap fun call => added call.1)
  run_eq : ∀ before i out after, s.order = before ++ (i, out) :: after →
    (closures i).run (initial ++ before.flatMap fun call => added call.1) =
      .ok (out, (initial ++ before.flatMap fun call => added call.1) ++ added i)
  numbered : Numbered initial → Numbered (initial ++ s.order.flatMap fun call => added call.1)
  once : (s.order.map Prod.fst).Nodup
  lock_order : (s.order.map Prod.fst).Sublist s.acquired
  returned : ∀ i out, s.stage i = .returned out → (i, out) ∈ s.order
  failed : ∀ i e, s.stage i = .failed e → i ∉ s.order.map Prod.fst
  complete : s.holder = none → ∀ i out, (i, out) ∈ s.order → s.stage i = .returned out

/-- Calls of `mutateLocked` from any number of processes lose nothing: at every moment the file
    holds the initial log followed by what the published calls appended, one call after another,
    and when no call is under way these are the calls that have returned. -/
theorem mutateLocked_serializes {ι τ : Type} [DecidableEq ι] {json : OperationJson} (hjson : json.Lawful) {path : Str}
    (closures : ι → Closure τ) {file : Option Content} {initial : List Operation}
    (hinitial : load json path file = .ok initial)
    {s : Locked.System (Option Content) (List Operation) ι WorkError τ}
    (hrun : Relation.ReflTransGen
      (Locked.Step (load json path) (fun ops => some (save json ops)) fun i => (closures i).run) (.start file) s) :
    ∃ added : ι → List Operation, Appended json path closures initial added s := by
  have hinv := Locked.inv_of_reaches hrun
  obtain ⟨added, hload, hnumbered, hruns⟩ := exists_added hjson hinitial hinv.nodup hinv.serial
  refine ⟨added, hload, hruns, hnumbered, hinv.nodup, hinv.sublist, fun i out hi => ?_, fun i e hi => ?_,
    fun hfree i out hi => ?_⟩
  · exact (hinv.mem_order_iff i out).mpr (.inl hi)
  · have hfits := hinv.fits i
    rwa [hi] at hfits
  · rcases (hinv.mem_order_iff i out).mp hi with h | h
    · exact h
    · have hfits := hinv.fits i
      rw [h] at hfits
      cases hfree.symm.trans hfits.1

/-- The closure that points a ref at a commit and returns the sequence number. -/
def setRefClosure (name : Str) (target : Option CommitId) : Closure Nat where
  run ops :=
    let old := (foldRefs? ops).bind (·[name]?)
    .ok (ops.length, appendAll ops [(.setRef name old target, none, none)])
  appends h := ⟨_, (congrArg Prod.snd (Except.ok.inj h)).symm⟩

instance : Encodable Char := Encodable.ofLeftInverse Char.toNat Char.ofNat Char.ofNat_toNat

deriving instance Encodable for Phase, OpKind, Operation

/-- A library that prints one operation as a given line, and every other one by a number. -/
def singleJson (one : Operation) (line : Str) : OperationJson where
  toString op := if op = one then line else '\x7b' :: List.replicate (Encodable.encode op) 'x'
  fromStr text :=
    if text = line then .ok one
    else
      match (Encodable.decode (text.length - 1) : Option Operation) with
      | some op => .ok op
      | none => .error text

theorem singleJson_lawful (one : Operation) {line : Str} (hquote : '"' ∈ line)
    (hescapes : (line.all fun c => 32 ≤ c.toNat) = true) (hhead : line.head? = some '\x7b') :
    (singleJson one line).Lawful where
  fromStr_toString op := by
    unfold singleJson
    by_cases h : op = one
    · simp [h]
    · have hne : '\x7b' :: List.replicate (Encodable.encode op) 'x' ≠ line := by
        intro heq
        rw [← heq] at hquote
        simp at hquote
      simp [h, hne]
  escapes op c hc := by
    by_cases h : op = one
    · simp only [singleJson, if_pos h] at hc
      exact of_decide_eq_true (List.all_eq_true.mp hescapes c hc)
    · simp only [singleJson, if_neg h, List.mem_cons, List.mem_replicate] at hc
      rcases hc with rfl | ⟨-, rfl⟩ <;> decide
  head op := by
    by_cases h : op = one
    · simp only [singleJson, if_pos h]
      exact hhead
    · simp only [singleJson, if_neg h]
      rfl

/-- The operation that first points `main` at `a`, and its line. -/
def mainOp : Operation := ⟨0, .setRef "main".toList none (some ['a']), none, none⟩

def mainLine : Str :=
  "\x7b\"seq\":0,\"kind\":\x7b\"SetRef\":\x7b\"name\":\"main\",\"old\":null,\"new\":\"a\"\x7d\x7d,\"note\":null\x7d".toList

/-- A library that prints this operation as it is documented, and every other one by a number. -/
def mainJson : OperationJson where
  toString op := if op = mainOp then mainLine else '\x7b' :: List.replicate (Encodable.encode op) 'x'
  fromStr line :=
    if line = mainLine then .ok mainOp
    else
      match (Encodable.decode (line.length - 1) : Option Operation) with
      | some op => .ok op
      | none => .error line

theorem mainJson_lawful : mainJson.Lawful := @singleJson_lawful mainOp mainLine (by decide) (by decide) rfl

/-- The operation that points `main` from `a` at `b`. -/
def movedOp : Operation := ⟨1, .setRef "main".toList (some ['a']) (some ['b']), none, none⟩

/-- Three calls on a missing file: the lock fails for the last one while the first is under way, and the
    second finds what the first has written. -/
theorem mutateLocked_serializes_two :
    let closures : Fin 3 → Closure Nat := fun i => setRefClosure "main".toList (some (if i = 0 then ['a'] else ['b']))
    ∃ (s : Locked.System (Option Content) (List Operation) (Fin 3) WorkError Nat) (added : Fin 3 → List Operation),
      s.stage 0 = .returned 0 ∧ s.stage 1 = .returned 1 ∧ s.stage 2 = .failed (.io "lock".toList) ∧
      s.cell = some (save mainJson [mainOp, movedOp]) ∧
      Appended mainJson "oplog.jsonl".toList closures [] added s := by
  intro closures
  have hfirst : load mainJson "oplog.jsonl".toList (some (save mainJson [mainOp])) = .ok [mainOp] := by decide +kernel
  have hrun : Relation.ReflTransGen
      (Locked.Step (load mainJson "oplog.jsonl".toList) (fun ops => some (save mainJson ops))
        fun i => (closures i).run)
      (.start none) _ :=
    .tail (.tail (.tail (.tail (.tail (.tail (.tail (.tail (.tail (.tail (.single (.acquire 0 rfl rfl))
      (.load 0 [] rfl rfl)) (.lockFails 2 (.io "lock".toList) rfl)) (.change 0 [] [mainOp] 0 rfl rfl)) (.publish 0 [mainOp] 0 rfl))
      (.finish 0 0 rfl)) (.acquire 1 rfl rfl)) (.load 1 [mainOp] rfl hfirst))
      (.change 1 [mainOp] [mainOp, movedOp] 1 rfl rfl)) (.publish 1 [mainOp, movedOp] 1 rfl)) (.finish 1 1 rfl)
  obtain ⟨added, happended⟩ := mutateLocked_serializes mainJson_lawful closures
    (show load mainJson "oplog.jsonl".toList none = .ok [] from rfl) hrun
  exact ⟨_, added, rfl, rfl, rfl, rfl, happended⟩

end OpLog

end Omoplata
