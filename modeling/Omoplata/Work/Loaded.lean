-- SUMMARY: What a loaded log may hold, and on which logs reading the refs ends.
import Omoplata.Work.LogFile

/-!
# Loaded logs

`load` decodes the lines of a file one by one and compares no two of them. A file can hold an undo of itself,
or of an operation behind it, and the recursion that finds out what is in effect then does not end. It ends
exactly where no operation is reached from itself along the undos (`ends_iff_acc`), and the files that hold a
usable log are those whose operations can have been appended one behind the other.
-/

namespace Omoplata

/-! ## Where the recursion ends -/

section Ends

variable {ops : List Operation} {seq : Nat}

theorem activeUndos_mono {f g : Nat → Option Bool} (hfg : ∀ s b, f s = some b → g s = some b) {n : Nat}
    (h : activeUndos f seq ops = some n) : activeUndos g seq ops = some n := by
  induction ops generalizing n with
  | nil => exact h
  | cons op ops ih =>
      unfold activeUndos at h ⊢
      split at h
      · rename_i htarget
        simp only [Option.bind_eq_bind, Option.bind_eq_some_iff] at h
        obtain ⟨active, hactive, rest, hrest, hn⟩ := h
        rw [if_pos htarget, hfg _ _ hactive, ih hrest]
        exact hn
      · rename_i htarget
        rw [if_neg htarget]
        exact ih h

theorem isActive?_mono {fuel fuel' : Nat} (hle : fuel ≤ fuel') {b : Bool} (h : isActive? ops fuel seq = some b) :
    isActive? ops fuel' seq = some b := by
  induction fuel generalizing fuel' seq b with
  | zero => cases h
  | succ fuel ih =>
      cases fuel' with
      | zero => cases hle
      | succ fuel' =>
          unfold isActive? at h ⊢
          simp only [Option.bind_eq_bind, Option.bind_eq_some_iff] at h
          obtain ⟨undos, hundos, hb⟩ := h
          rw [activeUndos_mono (fun s b hs => ih (Nat.le_of_succ_le_succ hle) hs) hundos]
          exact hb

theorem activeUndos_isSome_iff {f : Nat → Option Bool} : (activeUndos f seq ops).isSome = true ↔
    ∀ op ∈ ops, op.kind.undoTarget = some seq → (f op.seq).isSome = true := by
  induction ops with
  | nil => exact ⟨fun _ => nofun, fun _ => rfl⟩
  | cons op ops ih =>
      unfold activeUndos
      rw [List.forall_mem_cons, ← ih]
      split
      · rename_i htarget
        cases hf : f op.seq with
        | none => simp [htarget]
        | some active => cases activeUndos f seq ops <;> simp
      · rename_i htarget
        simp [htarget]

/-- An undo of the operation at `earlier` stands at `later`. -/
def Undoes (ops : List Operation) (later earlier : Nat) : Prop :=
  ∃ op ∈ ops, op.seq = later ∧ op.kind.undoTarget = some earlier

/-- The recursion for the operation at `seq` ends. -/
def Ends (ops : List Operation) (seq : Nat) : Prop := ∃ fuel, (isActive? ops fuel seq).isSome = true

theorem isActive?_isSome_iff {fuel : Nat} : (isActive? ops (fuel + 1) seq).isSome = true ↔
    ∀ later, Undoes ops later seq → (isActive? ops fuel later).isSome = true := by
  have hundos : (isActive? ops (fuel + 1) seq).isSome = (activeUndos (isActive? ops fuel) seq ops).isSome := by
    unfold isActive?
    cases activeUndos (isActive? ops fuel) seq ops <;> rfl
  rw [hundos, activeUndos_isSome_iff]
  constructor
  · rintro h later ⟨op, hop, rfl, htarget⟩
    exact h op hop htarget
  · exact fun h op hop htarget => h op.seq ⟨op, hop, rfl, htarget⟩

/-- The recursion ends exactly where there is no way on along the undos without end. -/
theorem ends_iff_acc : Ends ops seq ↔ Acc (Undoes ops) seq := by
  constructor
  · rintro ⟨fuel, h⟩
    induction fuel generalizing seq with
    | zero => cases h
    | succ fuel ih => exact .intro seq fun later hlater => ih (isActive?_isSome_iff.mp h later hlater)
  · intro h
    induction h with
    | intro seq _ ih =>
        -- the longest of the recursions for the undos bounds them all
        have hbound : ∀ todo : List Operation, (∀ op ∈ todo, op ∈ ops) →
            ∃ fuel, ∀ op ∈ todo, op.kind.undoTarget = some seq → (isActive? ops fuel op.seq).isSome = true := by
          intro todo htodo
          induction todo with
          | nil => exact ⟨0, nofun⟩
          | cons op todo ihtodo =>
              obtain ⟨fuel, hfuel⟩ := ihtodo fun op' hop' => htodo op' (List.mem_cons_of_mem _ hop')
              have hmono : ∀ {n m s : Nat}, n ≤ m → (isActive? ops n s).isSome = true → (isActive? ops m s).isSome = true := by
                intro n m s hle hsome
                obtain ⟨b, hb⟩ := Option.isSome_iff_exists.mp hsome
                rw [isActive?_mono hle hb]
                rfl
              by_cases htarget : op.kind.undoTarget = some seq
              · obtain ⟨fuel', hfuel'⟩ := ih op.seq ⟨op, htodo op List.mem_cons_self, rfl, htarget⟩
                refine ⟨max fuel fuel', List.forall_mem_cons.mpr ⟨fun _ => hmono (Nat.le_max_right _ _) hfuel', ?_⟩⟩
                exact fun op' hop' htarget' => hmono (Nat.le_max_left _ _) (hfuel op' hop' htarget')
              · exact ⟨fuel, List.forall_mem_cons.mpr ⟨fun h => absurd h htarget, hfuel⟩⟩
        obtain ⟨fuel, hfuel⟩ := hbound ops fun _ h => h
        refine ⟨fuel + 1, isActive?_isSome_iff.mpr ?_⟩
        rintro later ⟨op, hop, rfl, htarget⟩
        exact hfuel op hop htarget

/-- An operation that undoes itself is never found out about. -/
theorem not_ends_of_undoes_self (h : Undoes ops seq seq) : ¬ Ends ops seq := by
  rw [ends_iff_acc]
  intro hacc
  induction hacc with
  | intro seq _ ih => exact ih seq h h

end Ends

/-! ## What a file holds -/

namespace OpLog

/-- The operations that the lines of a file hold. -/
def Holds (json : OperationJson) (file : Option Content) (ops : List Operation) : Prop :=
  match file with
  | none => ops = []
  | some content => ∃ text, content.readToString = some text ∧
      List.Forall₂ (fun line op => json.fromStr line = .ok op)
        ((textLines text).filter fun line => !line.all isWhiteSpace) ops

theorem load_eq_ok_iff {json : OperationJson} {path : Str} {file : Option Content} {ops : List Operation} :
    load json path file = .ok ops ↔ Holds json file ops := by
  -- the loop stops at the first line that is no operation
  have hlines : ∀ (lines : List Str) (ops : List Operation),
      lines.mapM (fun line => (json.fromStr line).mapError WorkError.decode) = .ok ops ↔
        List.Forall₂ (fun line op => json.fromStr line = .ok op) lines ops := by
    intro lines
    induction lines with
    | nil =>
        intro ops
        rw [List.forall₂_nil_left_iff]
        exact ⟨fun h => (Except.ok.inj h).symm, fun h => congrArg Except.ok h.symm⟩
    | cons line lines ih =>
        intro ops
        rw [List.mapM_cons, List.forall₂_cons_left_iff]
        cases hline : json.fromStr line with
        | error e => exact ⟨nofun, by rintro ⟨_, _, h, -, -⟩; cases h⟩
        | ok op =>
            cases hrest : lines.mapM fun line => (json.fromStr line).mapError WorkError.decode with
            | error e =>
                refine ⟨nofun, ?_⟩
                rintro ⟨_, rest, -, hall, -⟩
                rw [(ih rest).mpr hall] at hrest
                cases hrest
            | ok rest =>
                have hrest' := (ih rest).mp hrest
                constructor
                · intro h
                  cases h
                  exact ⟨op, rest, rfl, hrest', rfl⟩
                · rintro ⟨op', rest', hop, hall, rfl⟩
                  cases hop
                  have hsame := (ih rest').mpr hall
                  rw [hrest] at hsame
                  cases hsame
                  rfl
  unfold load Holds
  cases file with
  | none => exact ⟨fun h => (Except.ok.inj h).symm, fun h => congrArg Except.ok h.symm⟩
  | some content =>
      dsimp only
      cases content.readToString with
      | none => simp
      | some text => simp [hlines]

/-- Operations appended one behind the other, an undo for one that is there. -/
inductive History : List Operation → Prop
  | nil : History []
  | append {ops : List Operation} (kind : OpKind) (note time : Option Str)
      (h : ∀ target, kind.undoTarget = some target → target < ops.length) (hops : History ops) :
      History (ops ++ [⟨ops.length, kind, note, time⟩])

theorem history_iff {ops : List Operation} : History ops ↔ OpsWellFormed ops := by
  constructor
  · intro h
    induction h with
    | nil => exact .nil
    | append kind note time h _ ih => exact ih.concat rfl h
  · intro h
    induction hn : ops.length generalizing ops with
    | zero =>
        rw [List.eq_nil_of_length_eq_zero hn]
        exact .nil
    | succ n ih =>
        rcases List.eq_nil_or_concat ops with rfl | ⟨front, op, rfl⟩
        · cases hn
        · rw [List.concat_eq_append] at h hn ⊢
          have hseq : op.seq = front.length := h.seq_eq _ op (by simp)
          have hfront := ih h.of_append (by simpa using hn)
          have hundo : ∀ target, op.kind.undoTarget = some target → target < front.length := by
            intro target htarget
            rw [← hseq]
            exact h.undo_lt op (by simp) target htarget
          have happend := History.append op.kind op.note op.time hundo hfront
          rwa [← hseq] at happend

/-- A log on which the refs can be read at every transaction time, and the last operation in effect be found. -/
structure Usable (ops : List Operation) : Prop where
  seq_eq : ∀ (i : Nat) (op : Operation), ops[i]? = some op → op.seq = i
  undo_lt : ∀ op ∈ ops, ∀ target, op.kind.undoTarget = some target → target < op.seq
  ends : ∀ limit, ∀ op ∈ visible ops limit, Ends (visible ops limit) op.seq

theorem usable_iff {ops : List Operation} : Usable ops ↔ OpsWellFormed ops := by
  constructor
  · exact fun h => ⟨h.seq_eq, h.undo_lt⟩
  · intro h
    refine ⟨h.seq_eq, h.undo_lt, fun limit op _ => ⟨(visible ops limit).length + 1, ?_⟩⟩
    rw [isActive?_eq (h.visible limit) (by omega) (by omega)]
    rfl

/-- The files that load as usable logs and no others are those whose operations can have been appended one
    behind the other. -/
theorem load_usable_iff (json : OperationJson) (path : Str) (file : Option Content) :
    (∀ ops, load json path file = .ok ops → Usable ops) ↔ ∀ ops, Holds json file ops → History ops :=
  forall_congr' fun _ => imp_congr load_eq_ok_iff (usable_iff.trans history_iff.symm)

/-- An operation that undoes itself, and its line. -/
def selfUndo : Operation := ⟨0, .undo 0, none, none⟩

def selfUndoLine : Str := "\x7b\"seq\":0,\"kind\":\x7b\"Undo\":\x7b\"target_seq\":0\x7d\x7d,\"note\":null\x7d".toList

def selfUndoFile : Option Content := some (.text (selfUndoLine ++ ['\n']))

/-- With a library that prints this operation as documented, the file loads, and whether the operation is in
    effect is never found out. -/
theorem load_self_undo :
    let json := singleJson selfUndo selfUndoLine
    json.Lawful ∧ load json "oplog.jsonl".toList selfUndoFile = .ok [selfUndo] ∧
      (∀ fuel, isActive? [selfUndo] fuel 0 = none) ∧ ¬ Usable [selfUndo] := by
  have hself : ¬ Ends [selfUndo] 0 := not_ends_of_undoes_self ⟨selfUndo, List.mem_singleton_self _, rfl, rfl⟩
  refine ⟨singleJson_lawful selfUndo (by decide) (by decide) rfl, by decide +kernel, fun fuel => ?_, fun h => ?_⟩
  · cases hactive : isActive? [selfUndo] fuel 0 with
    | none => rfl
    | some b => exact absurd ⟨fuel, Option.isSome_iff_exists.mpr ⟨b, hactive⟩⟩ hself
  · exact hself (h.ends none selfUndo (List.mem_singleton_self _))

end OpLog

end Omoplata
