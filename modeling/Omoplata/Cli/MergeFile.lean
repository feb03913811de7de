-- SUMMARY: The merge commands: proposers that are not trusted, the kernel before them, and validators behind it.
import Omoplata.Algebra.Kernel
import Omoplata.Drivers.Diff3
import Omoplata.Drivers.Rescan
import Omoplata.Work.LogFile

/-!
# Merging files

`omo merge` prints the three-way merge of three files, `omo admit` what the kernel makes of them,
and `omo merge-file` what a driver proposes. The driver is not trusted: a proposal without conflicts
has to be the one the kernel comes to on its own, and then a validator may still refuse it.
-/

namespace Omoplata

open ListEdit

/-! ## Dynamic validation -/

/-- What is left of an admission once a validator has had its say. -/
inductive Validated where
  | accepted (result : Doc)
  | demoted (conflict : Conflict) (reason : Str)
  deriving DecidableEq, Repr

def dynamicValidate (base left right : Doc) (admission : Admission) (passed : Bool) (reason : Str) : Validated :=
  match admission with
  | .merged result _ =>
      if passed then .accepted result else .demoted ⟨base.lines, left.lines, right.lines⟩ reason
  | .conflict conflicts =>
      .demoted (conflicts.head?.getD ⟨base.lines, left.lines, right.lines⟩)
        "merge already conflicted; nothing provisional to validate".toList

/-! ## The commands -/

/-- What the merge commands call outside: the files, the merge tools, and a shell with the temporary
    file it is given to read. -/
structure MergeHost where
  readToString : Str → Except Str Str
  tools : Tools
  tempFile : Except Str Str
  shell : Str → Str → Except Str Bool

/-- Why a merge command fails. -/
inductive MergeFailure where
  | reading (path reason : Str)
  | driver (e : DriverError)
  | validating (reason : Str)
  deriving DecidableEq, Repr

/-- How a command ends: its exit code, what it prints, and what it says beside that. -/
structure CommandEnd where
  code : Nat
  stdout : Str
  stderr : List Str
  deriving DecidableEq, Repr

namespace MergeHost

variable (host : MergeHost)

def readText (path : Str) : Except MergeFailure Str := (host.readToString path).mapError (.reading path)

def readDoc (path : Str) : Except MergeFailure Doc := (host.readText path).map Doc.fromStr

/-- A command with a path in place of each pair of braces, or none where there is no pair. -/
def placed (path : Str) : Str → Option Str
  | '\x7b' :: '\x7d' :: rest => some (path ++ (placed path rest).getD rest)
  | c :: rest => (placed path rest).map (c :: ·)
  | [] => none

/-- Run a validator on a temporary file that holds the merged text. -/
def runValidator (cmd merged : Str) : Except Str Bool := do
  let path ← host.tempFile
  host.shell ((placed path cmd).getD (cmd ++ " '".toList ++ path ++ "'".toList)) merged

end MergeHost

/-- A conflict as a diff3 block. -/
def renderSemanticConflict (conflict : Conflict) : Str :=
  (Doc.mk ("<<<<<<< left".toList :: (conflict.left ++ "||||||| base".toList :: (conflict.base ++
    "=======".toList :: (conflict.right ++ [">>>>>>> right".toList]))))).toStr ++ ['\n']

def countText (n : Nat) (unit : String) : Str := Nat.toDigits 10 n ++ unit.toList

/-- What becomes of a proposal: its conflicts are reported, and without any it goes to the kernel and
    then to the validator. -/
def settleProposal (host : MergeHost) (base left right : Doc) (out : DriverOutput) (validate : Option Str) :
    Except MergeFailure CommandEnd :=
  let k := out.carried.length
  let summary := out.driver ++ " merge: ".toList ++ countText out.conflicts.length " conflict(s)"
  if !out.isMergeable then
    .ok ⟨1, out.merged, [if k = 0 then summary else summary ++ ", ".toList ++ countText k " carried forward"]⟩
  else if 0 < k then
    .ok ⟨2, out.merged, [out.driver ++ " merge: 0 new conflict(s), ".toList ++
      countText k " carried forward (values ride through; resolve later)"]⟩
  else
    match Kernel.certify base left right (Doc.fromStr out.merged) with
    | .conflict _ =>
        .ok ⟨1, out.merged, [summary, "kernel: downgraded to conflict (".toList ++ out.driver ++
          " proposal not independently witnessed)".toList]⟩
    | .merged result witness =>
        let admitted := "kernel: admitted (commutation witness: ".toList ++
          countText witness.p.hunks.length " hunks p, " ++ countText witness.q.hunks.length " hunks q)"
        match validate with
        | none => .ok ⟨0, out.merged, [summary, admitted]⟩
        | some cmd => do
            let passed ← (host.runValidator cmd out.merged).mapError .validating
            let reason := "validator `".toList ++ cmd ++ "` exited non-zero".toList
            match dynamicValidate base left right (.merged result witness) passed reason with
            | .accepted result => pure ⟨0, result.toStr, [summary, admitted, "dynamic validation PASSED".toList]⟩
            | .demoted conflict reason =>
                pure ⟨1, renderSemanticConflict conflict, [summary, admitted,
                  "dynamic validation FAILED: demoted to semantic conflict (".toList ++ reason ++ ")".toList]⟩

def cmdMergeFile (host : MergeHost) (base left right : Str) (validate : Option Str) :
    Except MergeFailure CommandEnd := do
  let baseText ← host.readText base
  let leftText ← host.readText left
  let rightText ← host.readText right
  let out ← (selectDriver host.tools base ⟨baseText, leftText, rightText, base⟩).mapError .driver
  settleProposal host (Doc.fromStr baseText) (Doc.fromStr leftText) (Doc.fromStr rightText) out validate

def cmdMerge (host : MergeHost) (base left right : Str) : Except MergeFailure CommandEnd := do
  let baseDoc ← host.readDoc base
  let leftDoc ← host.readDoc left
  let rightDoc ← host.readDoc right
  let result := merge3 baseDoc leftDoc rightDoc
  if result.isClean then pure ⟨0, result.merged.toStr, []⟩
  else pure ⟨1, result.merged.toStr, [countText result.conflicts.length " conflict(s)"]⟩

def cmdAdmit (host : MergeHost) (base left right : Str) : Except MergeFailure CommandEnd := do
  let baseDoc ← host.readDoc base
  let leftDoc ← host.readDoc left
  let rightDoc ← host.readDoc right
  match Kernel.admitMerge baseDoc leftDoc rightDoc with
  | .merged result witness =>
      pure ⟨0, result.toStr, ["admitted: commutation witness (support: ".toList ++
        countText witness.p.hunks.length " hunks p, " ++ countText witness.q.hunks.length " hunks q)"]⟩
  | .conflict conflicts =>
      pure ⟨1, (merge3 baseDoc leftDoc rightDoc).merged.toStr,
        ["conflict: ".toList ++ countText conflicts.length " region(s)"]⟩

/-! ## What the kernel admits -/

/-- A document that the changes of both sides lead to, in either order. -/
structure BothOrders (base left right result : Doc) : Prop where
  separable : (diff base left).Separable (diff base right)
  rightLast : apply (Commute.rebase (diff base right) (diff base left)) left = .ok result
  leftLast : apply (Commute.rebase (diff base left) (diff base right)) right = .ok result

section

variable {base left right result proposed : Doc}

theorem Kernel.admitted_iff :
    (∃ w, Kernel.admitMerge base left right = .merged result w) ↔ BothOrders base left right result := by
  constructor
  · rintro ⟨w, hadmitted⟩
    obtain ⟨hp, hq, p', q', hcommute, hresult⟩ := Kernel.admitMerge_eq_merged_iff.mp hadmitted
    obtain ⟨hsep, rfl, rfl⟩ := commute_eq_independent_iff.mp hcommute
    rw [← hp, ← hq] at hsep hresult
    obtain ⟨ss, hss, -⟩ := exists_isScript (fits_diff base left) (fits_diff base right) hsep
    have hleft : left = ⟨ss.flatMap Seg.onLeft⟩ := Except.ok.inj ((apply_diff base left).symm.trans hss.apply_left)
    have hright : right = ⟨ss.flatMap Seg.onRight⟩ :=
      Except.ok.inj ((apply_diff base right).symm.trans hss.apply_right)
    have hboth : result = ⟨ss.flatMap Seg.onBoth⟩ := by
      rw [combine, hss.apply_left] at hresult
      exact Except.ok.inj (hresult.symm.trans (hss.apply_rebase_right hsep))
    have hrightLast := hss.apply_rebase_right hsep
    have hleftLast := hss.apply_rebase_left hsep
    rw [← hleft, ← hboth] at hrightLast
    rw [← hright, ← hboth] at hleftLast
    exact ⟨hsep, hrightLast, hleftLast⟩
  · intro h
    refine ⟨⟨diff base left, diff base right⟩, Kernel.admitMerge_eq_merged_iff.mpr ⟨rfl, rfl, _, _,
      commute_of_separable h.separable, ?_⟩⟩
    rw [combine, apply_diff]
    exact h.rightLast

/-- A proposal is admitted if the kernel comes to the same document. -/
theorem Kernel.certify_eq_merged_iff {w : CommutationWitness} :
    Kernel.certify base left right proposed = .merged result w ↔
      Kernel.admitMerge base left right = .merged result w ∧ result = proposed := by
  unfold Kernel.certify
  cases Kernel.admitMerge base left right with
  | conflict cs => simp
  | merged result' w' =>
      by_cases hsame : result' = proposed
      · simp only [hsame, if_true, Admission.merged.injEq]
        exact ⟨fun h => ⟨h, h.1.symm⟩, fun h => h.1⟩
      · simp only [hsame, if_false, reduceCtorEq, Admission.merged.injEq, false_iff]
        rintro ⟨⟨rfl, -⟩, heq⟩
        exact hsame heq

theorem Kernel.certified_iff :
    (∃ result w, Kernel.certify base left right proposed = .merged result w) ↔ BothOrders base left right proposed := by
  simp only [Kernel.certify_eq_merged_iff, ← Kernel.admitted_iff]
  constructor
  · rintro ⟨result, w, hadmitted, rfl⟩
    exact ⟨w, hadmitted⟩
  · rintro ⟨w, hadmitted⟩
    exact ⟨proposed, w, hadmitted, rfl⟩

end

/-! ## Proposals -/

/-- A proposal that goes through to the validator. -/
structure Proposal (base left right : Doc) (out : DriverOutput) : Prop where
  settled : out.conflicts = []
  fresh : out.carried = []
  merged : BothOrders base left right (Doc.fromStr out.merged)

section

variable {host : MergeHost} {base left right : Doc} {out : DriverOutput}

/-- A proposal that does not go through ends the same way whatever validates it, and not well. -/
theorem settleProposal_of_not (host : MergeHost) (h : ¬ Proposal base left right out) :
    ∃ code text said, code ≠ 0 ∧ ∀ validate, settleProposal host base left right out validate = .ok ⟨code, text, said⟩ := by
  unfold settleProposal DriverOutput.isMergeable
  cases hconflicts : out.conflicts with
  | cons c cs => exact ⟨1, _, _, by decide, fun validate => rfl⟩
  | nil =>
      cases hcarried : out.carried with
      | cons c cs => exact ⟨2, _, _, by decide, fun validate => rfl⟩
      | nil =>
          cases hcertified : Kernel.certify base left right (Doc.fromStr out.merged) with
          | conflict cs => exact ⟨1, _, _, by decide, fun validate => rfl⟩
          | merged result w => exact absurd ⟨hconflicts, hcarried, Kernel.certified_iff.mp ⟨result, w, hcertified⟩⟩ h

/-- A proposal that goes through ends as its validator says. -/
theorem settleProposal_of_proposal (host : MergeHost) (h : Proposal base left right out) :
    (∃ said, settleProposal host base left right out none = .ok ⟨0, out.merged, said⟩) ∧
    ∀ cmd, (host.runValidator cmd out.merged = .ok true →
        ∃ said, settleProposal host base left right out (some cmd) = .ok ⟨0, out.merged, said⟩) ∧
      (host.runValidator cmd out.merged = .ok false →
        ∃ said, settleProposal host base left right out (some cmd) =
          .ok ⟨1, renderSemanticConflict ⟨base.lines, left.lines, right.lines⟩, said⟩) ∧
      ∀ e, host.runValidator cmd out.merged = .error e →
        settleProposal host base left right out (some cmd) = .error (.validating e) := by
  obtain ⟨result, w, hcertified⟩ := Kernel.certified_iff.mpr h.merged
  obtain rfl := (Kernel.certify_eq_merged_iff.mp hcertified).2
  unfold settleProposal DriverOutput.isMergeable
  simp only [h.settled, h.fresh, hcertified, List.isEmpty_nil, Bool.not_true, Bool.false_eq_true, if_false,
    List.length_nil, Nat.lt_irrefl]
  refine ⟨⟨_, rfl⟩, fun cmd => ⟨fun hpassed => ?_, fun hfailed => ?_, fun e herror => ?_⟩⟩
  · have htext := Doc.toStr_fromStr out.merged
    simp only [hpassed, Except.mapError, bind, Except.bind, dynamicValidate, if_true, htext]
    exact ⟨_, rfl⟩
  · rw [hfailed]
    exact ⟨_, rfl⟩
  · rw [herror]
    rfl

/-- A command that has ended ends in one way. -/
theorem CommandEnd.eq_of_ok {e e' : CommandEnd} {x : Except MergeFailure CommandEnd} (h : x = .ok e) (h' : x = .ok e') :
    e = e' := Except.ok.inj (h.symm.trans h')

theorem settleProposal_accepts_iff {validate : Option Str} {text : Str} :
    (∃ said, settleProposal host base left right out validate = .ok ⟨0, text, said⟩) ↔
      Proposal base left right out ∧ out.merged = text ∧ ∀ cmd ∈ validate, host.runValidator cmd text = .ok true := by
  by_cases hproposal : Proposal base left right out
  · obtain ⟨⟨said', hnone⟩, hsome⟩ := settleProposal_of_proposal host hproposal
    cases validate with
    | none =>
        constructor
        · rintro ⟨said, hok⟩
          have hend := CommandEnd.eq_of_ok hnone hok
          exact ⟨hproposal, congrArg CommandEnd.stdout hend, fun cmd hcmd => by cases hcmd⟩
        · rintro ⟨-, rfl, -⟩
          exact ⟨said', hnone⟩
    | some cmd =>
        obtain ⟨hpassed, hfailed, herror⟩ := hsome cmd
        constructor
        · rintro ⟨said, hok⟩
          cases hrun : host.runValidator cmd out.merged with
          | error e =>
              rw [herror e hrun] at hok
              cases hok
          | ok passed =>
              cases passed with
              | false =>
                  obtain ⟨said'', hdemoted⟩ := hfailed hrun
                  cases CommandEnd.eq_of_ok hdemoted hok
              | true =>
                  obtain ⟨said'', haccepted⟩ := hpassed hrun
                  obtain rfl := congrArg CommandEnd.stdout (CommandEnd.eq_of_ok haccepted hok)
                  exact ⟨hproposal, rfl, fun cmd' hcmd => Option.some.inj hcmd ▸ hrun⟩
        · rintro ⟨-, rfl, hruns⟩
          exact hpassed (hruns cmd rfl)
  · obtain ⟨code, text', said', hcode, hend⟩ := settleProposal_of_not host hproposal
    constructor
    · rintro ⟨said, hok⟩
      exact absurd (congrArg CommandEnd.code (CommandEnd.eq_of_ok (hend validate) hok)) hcode
    · rintro ⟨h, -⟩
      exact absurd h hproposal

end

/-! ## Demotions -/

/-- A line that comes back as it is when it is written out. -/
def WholeLine (line : Line) : Prop := '\n' ∉ line ∧ line.getLast? ≠ some '\r'

instance (line : Line) : Decidable (WholeLine line) := inferInstanceAs (Decidable (_ ∧ _))

theorem textLines_flatMap {lines : List Line} (h : ∀ line ∈ lines, WholeLine line) :
    textLines (lines.flatMap fun line => line ++ ['\n']) = lines := by
  induction lines with
  | nil => rfl
  | cons line lines ih =>
      obtain ⟨⟨hnewline, hreturn⟩, hlines⟩ := List.forall_mem_cons.mp h
      have hrest := ih hlines
      unfold textLines at hrest ⊢
      rw [List.flatMap_cons, List.append_assoc, List.singleton_append, splitInclusive_line hnewline, List.map_cons, hrest]
      simp [stripReturn, hreturn]

theorem intercalate_newline {lines : List Line} (hne : lines ≠ []) :
    ['\n'].intercalate lines ++ ['\n'] = lines.flatMap fun line => line ++ ['\n'] := by
  induction lines with
  | nil => exact absurd rfl hne
  | cons line rest ih =>
      cases rest with
      | nil => simp
      | cons next rest =>
          rw [List.intercalate_cons_cons, List.flatMap_cons, ← ih (List.cons_ne_nil _ _), List.append_assoc,
            List.append_assoc]

open Diff3 in
/-- A demoted merge can be read back from what is printed of it, where its lines are no markers and have
    plain ends. -/
theorem parse_renderSemanticConflict {base left right : List Line}
    (hplain : ∀ side ∈ [left, base, right], ∀ line ∈ side, markOf line = .plain)
    (hwhole : ∀ side ∈ [left, base, right], ∀ line ∈ side, WholeLine line) :
    parseDiff3Conflicts (renderSemanticConflict ⟨base, left, right⟩) = [⟨base, left, right⟩] := by
  have hleft : left ∈ [left, base, right] := List.mem_cons_self
  have hbase : base ∈ [left, base, right] := List.mem_cons_of_mem _ List.mem_cons_self
  have hright : right ∈ [left, base, right] := List.mem_cons_of_mem _ (List.mem_cons_of_mem _ List.mem_cons_self)
  have hblock := IsBlock.threeWay (by decide : markOf "<<<<<<< left".toList = .start) (hplain left hleft)
    (by decide : markOf "||||||| base".toList = .base) (hplain base hbase) (by decide : markOf "=======".toList = .sep)
    (hplain right hright) (by decide : markOf ">>>>>>> right".toList = .stop)
  have hlines : ∀ line ∈ "<<<<<<< left".toList :: (left ++ "||||||| base".toList :: (base ++
      "=======".toList :: (right ++ [">>>>>>> right".toList]))), WholeLine line := by
    refine List.forall_mem_cons.mpr ⟨by decide, List.forall_mem_append.mpr ⟨hwhole left hleft, ?_⟩⟩
    refine List.forall_mem_cons.mpr ⟨by decide, List.forall_mem_append.mpr ⟨hwhole base hbase, ?_⟩⟩
    refine List.forall_mem_cons.mpr ⟨by decide, List.forall_mem_append.mpr ⟨hwhole right hright, ?_⟩⟩
    exact List.forall_mem_singleton.mpr (by decide)
  unfold parseDiff3Conflicts renderSemanticConflict Doc.toStr
  rw [intercalate_newline (List.cons_ne_nil _ _), textLines_flatMap hlines]
  rw [← List.append_nil (_ :: _)]
  exact loop_block hblock

/-! ## The commands on three files -/

section

variable {host : MergeHost} {base left right : Str}

/-- Three files with their texts. -/
structure ReadsFiles (host : MergeHost) (base left right b l r : Str) : Prop where
  readsBase : host.readToString base = .ok b
  readsLeft : host.readToString left = .ok l
  readsRight : host.readToString right = .ok r

/-- What the driver of the first file proposes for three files. -/
structure Proposes (host : MergeHost) (base left right b l r : Str) (out : DriverOutput) : Prop
    extends ReadsFiles host base left right b l r where
  proposal : selectDriver host.tools base ⟨b, l, r, base⟩ = .ok out

theorem Proposes.cmdMergeFile_eq {b l r : Str} {out : DriverOutput} (h : Proposes host base left right b l r out)
    (validate : Option Str) : cmdMergeFile host base left right validate =
      settleProposal host (.fromStr b) (.fromStr l) (.fromStr r) out validate := by
  unfold cmdMergeFile MergeHost.readText
  simp only [h.readsBase, h.readsLeft, h.readsRight, h.proposal, Except.mapError, bind, Except.bind]

/-- Three files are read, or one of them is not and every command says so. -/
theorem reads_or_fails (host : MergeHost) (base left right : Str) : (∃ b l r, ReadsFiles host base left right b l r) ∨
    ∃ e, (∀ validate, cmdMergeFile host base left right validate = .error e) ∧
      cmdMerge host base left right = .error e ∧ cmdAdmit host base left right = .error e := by
  simp only [cmdMergeFile, cmdMerge, cmdAdmit, MergeHost.readDoc, MergeHost.readText]
  cases hbase : host.readToString base with
  | error e => exact .inr ⟨.reading base e, fun validate => rfl, rfl, rfl⟩
  | ok b =>
      cases hleft : host.readToString left with
      | error e => exact .inr ⟨.reading left e, fun validate => rfl, rfl, rfl⟩
      | ok l =>
          cases hright : host.readToString right with
          | error e => exact .inr ⟨.reading right e, fun validate => rfl, rfl, rfl⟩
          | ok r => exact .inl ⟨b, l, r, hbase, hleft, hright⟩

/-- A merge of files fails before there is a proposal, or there is one to settle. -/
theorem cmdMergeFile_cases (host : MergeHost) (base left right : Str) :
    (∃ e, ∀ validate, cmdMergeFile host base left right validate = .error e) ∨
      ∃ b l r out, Proposes host base left right b l r out ∧ ∀ validate, cmdMergeFile host base left right validate =
        settleProposal host (.fromStr b) (.fromStr l) (.fromStr r) out validate := by
  rcases reads_or_fails host base left right with ⟨b, l, r, hreads⟩ | ⟨e, hfail, -⟩
  · cases hout : selectDriver host.tools base ⟨b, l, r, base⟩ with
    | error e =>
        refine .inl ⟨.driver e, fun validate => ?_⟩
        simp only [cmdMergeFile, MergeHost.readText, hreads.readsBase, hreads.readsLeft, hreads.readsRight, hout,
          Except.mapError, bind, Except.bind]
    | ok out =>
        have hproposes : Proposes host base left right b l r out := ⟨hreads, hout⟩
        exact .inr ⟨b, l, r, out, hproposes, hproposes.cmdMergeFile_eq⟩
  · exact .inl ⟨e, hfail⟩

/-- A merge of files ends well exactly with a proposal of the driver that both sides' changes lead to in
    either order, and that the validator passes. -/
theorem cmdMergeFile_accepts_iff (host : MergeHost) (base left right : Str) (validate : Option Str) (text : Str) :
    (∃ said, cmdMergeFile host base left right validate = .ok ⟨0, text, said⟩) ↔
      ∃ b l r out, Proposes host base left right b l r out ∧ out.conflicts = [] ∧ out.carried = [] ∧
        out.merged = text ∧ BothOrders (.fromStr b) (.fromStr l) (.fromStr r) (.fromStr text) ∧
        ∀ cmd ∈ validate, host.runValidator cmd text = .ok true := by
  constructor
  · rintro ⟨said, hok⟩
    rcases cmdMergeFile_cases host base left right with ⟨e, hfail⟩ | ⟨b, l, r, out, hproposes, hsettle⟩
    · rw [hfail] at hok
      cases hok
    · rw [hsettle] at hok
      obtain ⟨hproposal, rfl, hvalidator⟩ := settleProposal_accepts_iff.mp ⟨said, hok⟩
      exact ⟨b, l, r, out, hproposes, hproposal.settled, hproposal.fresh, rfl, hproposal.merged, hvalidator⟩
  · rintro ⟨b, l, r, out, hproposes, hconflicts, hcarried, rfl, hmerged, hvalidator⟩
    rw [hproposes.cmdMergeFile_eq]
    exact settleProposal_accepts_iff.mpr ⟨⟨hconflicts, hcarried, hmerged⟩, rfl, hvalidator⟩

open Diff3 in
/-- A validator changes nothing but a merge that would end well. It lets that stand, or it has the three
    files printed as one conflict instead, which can be read back. -/
theorem cmdMergeFile_validate (host : MergeHost) (base left right cmd : Str) :
    (∀ text said, cmdMergeFile host base left right none = .ok ⟨0, text, said⟩ →
      (host.runValidator cmd text = .ok true →
        ∃ said', cmdMergeFile host base left right (some cmd) = .ok ⟨0, text, said'⟩) ∧
      (host.runValidator cmd text = .ok false →
        ∃ b l r shown said', ReadsFiles host base left right b l r ∧
          cmdMergeFile host base left right (some cmd) = .ok ⟨1, shown, said'⟩ ∧
          ((∀ side ∈ [l, b, r], ∀ line ∈ lines side, markOf line = .plain ∧ line.getLast? ≠ some '\r') →
            parseDiff3Conflicts shown = [⟨lines b, lines l, lines r⟩])) ∧
      ∀ e, host.runValidator cmd text = .error e →
        cmdMergeFile host base left right (some cmd) = .error (.validating e)) ∧
    ((∀ text said, cmdMergeFile host base left right none ≠ .ok ⟨0, text, said⟩) →
      cmdMergeFile host base left right (some cmd) = cmdMergeFile host base left right none) := by
  rcases cmdMergeFile_cases host base left right with ⟨e, hfail⟩ | ⟨b, l, r, out, hproposes, hsettle⟩
  · constructor
    · intro text said hok
      rw [hfail] at hok
      cases hok
    · intro _
      rw [hfail, hfail]
  · simp only [hsettle]
    by_cases hproposal : Proposal (.fromStr b) (.fromStr l) (.fromStr r) out
    · obtain ⟨⟨said', hnone⟩, hsome⟩ := settleProposal_of_proposal host hproposal
      obtain ⟨hpassed, hfailed, herror⟩ := hsome cmd
      refine ⟨fun text said hok => ?_, fun hnever => absurd hnone (hnever _ _)⟩
      obtain rfl := congrArg CommandEnd.stdout (CommandEnd.eq_of_ok hnone hok)
      refine ⟨hpassed, fun hrun => ?_, herror⟩
      obtain ⟨said'', hdemoted⟩ := hfailed hrun
      refine ⟨b, l, r, _, said'', hproposes.toReadsFiles, hdemoted, fun hinert => ?_⟩
      have hsides : ∀ {P : Line → Prop}, (∀ side ∈ [l, b, r], ∀ line ∈ lines side, P line) →
          ∀ side ∈ [lines l, lines b, lines r], ∀ line ∈ side, P line := fun h side hside => by
        obtain ⟨text, htext, rfl⟩ := List.mem_map.mp (show side ∈ [l, b, r].map lines from hside)
        exact h text htext
      exact parse_renderSemanticConflict (hsides fun side hside line hline => (hinert side hside line hline).1)
        (hsides fun side hside line hline => ⟨not_mem_of_mem_lines hline, (hinert side hside line hline).2⟩)
    · obtain ⟨code, text, said, hcode, hend⟩ := settleProposal_of_not host hproposal
      refine ⟨fun text' said' hok => ?_, fun _ => by rw [hend, hend]⟩
      exact absurd (congrArg CommandEnd.code (CommandEnd.eq_of_ok (hend none) hok)) hcode

end

/-! ## Where the drivers are not needed -/

/-- A cut of documents that have lines writes some. -/
theorem IsCut.output_ne_nil {b l r : List Line} {steps : List CutStep} (h : IsCut b l r steps) (hb : b ≠ [])
    (hl : l ≠ []) (hr : r ≠ []) : steps.flatMap CutStep.output ≠ [] := by
  have hrun : ∀ {step : CutStep} {rest : List CutStep}, step.run ≠ [] → (step :: rest).flatMap CutStep.output ≠ [] := by
    intro step rest hne hnil
    rw [List.flatMap_cons, CutStep.output] at hnil
    exact hne (List.append_eq_nil_iff.mp (List.append_eq_nil_iff.mp hnil).1).1
  cases h with
  | trailing => exact hrun hb
  | unanchored run o l r =>
      cases run with
      | cons x run => exact hrun (List.cons_ne_nil _ _)
      | nil =>
          intro hnil
          rw [List.flatMap_cons, CutStep.output] at hnil
          have hregion := (List.append_eq_nil_iff.mp (List.append_eq_nil_iff.mp hnil).1).2
          split at hregion
          · exact hr hregion
          · split at hregion
            · exact hl hregion
            · simp at hregion
  | anchored run o lf rt x b l r tail next steps _ _ hnext =>
      have hne : next.run ≠ [] := hnext ▸ List.cons_ne_nil _ _
      intro hnil
      rw [List.flatMap_cons] at hnil
      exact hrun hne (List.append_eq_nil_iff.mp hnil).2

theorem Doc.fromStr_toStr {d : Doc} (hne : d.lines ≠ []) (hnewline : ∀ line ∈ d.lines, '\n' ∉ line) :
    Doc.fromStr d.toStr = d := by
  unfold Doc.fromStr Doc.toStr
  rw [List.splitOn_intercalate '\n' hnewline hne]

/-- A merge of texts is a text. -/
theorem fromStr_toStr_merge3 (b l r : Str) :
    let merged := (merge3 (.fromStr b) (.fromStr l) (.fromStr r)).merged
    Doc.fromStr merged.toStr = merged := by
  intro merged
  refine Doc.fromStr_toStr ?_ fun line hline => ?_
  · show (merge3 _ _ _).merged.lines ≠ []
    rw [merge3_eq]
    exact (isCut_mergeCut _ _ _).output_ne_nil (lines_ne_nil b) (lines_ne_nil l) (lines_ne_nil r)
  · rcases mem_merge3 hline with hline | hline | hline
    · exact not_mem_of_mem_lines hline
    · exact not_mem_of_mem_lines hline
    · exact (by decide : ∀ line ∈ [conflictStart, conflictSep, conflictEnd], '\n' ∉ line) line hline

section

variable {host : MergeHost} {base left right b l r : Str}

theorem ReadsFiles.cmdMerge_accepts_iff (h : ReadsFiles host base left right b l r) {text : Str} :
    (∃ said, cmdMerge host base left right = .ok ⟨0, text, said⟩) ↔
      (merge3 (.fromStr b) (.fromStr l) (.fromStr r)).conflicts = [] ∧
        (merge3 (.fromStr b) (.fromStr l) (.fromStr r)).merged.toStr = text := by
  simp only [cmdMerge, MergeHost.readDoc, MergeHost.readText, h.readsBase, h.readsLeft, h.readsRight, Except.mapError,
    Except.map, bind, Except.bind, Merge.isClean]
  cases merge3 (.fromStr b) (.fromStr l) (.fromStr r) with
  | mk merged conflicts => cases conflicts <;> simp [pure, Except.pure]

theorem ReadsFiles.cmdAdmit_accepts_iff (h : ReadsFiles host base left right b l r) {text : Str} :
    (∃ said, cmdAdmit host base left right = .ok ⟨0, text, said⟩) ↔
      ∃ result, BothOrders (.fromStr b) (.fromStr l) (.fromStr r) result ∧ result.toStr = text := by
  simp only [cmdAdmit, MergeHost.readDoc, MergeHost.readText, h.readsBase, h.readsLeft, h.readsRight, Except.mapError,
    Except.map, bind, Except.bind, ← Kernel.admitted_iff]
  cases Kernel.admitMerge (.fromStr b) (.fromStr l) (.fromStr r) with
  | merged result w => simp [pure, Except.pure]
  | conflict cs => simp [pure, Except.pure]

/-- Where the line driver merges, the three commands end well together and print the same. -/
theorem merge_commands_agree (hline : lineMerged host.tools base = true) (left right text : Str) :
    (∃ said, cmdMergeFile host base left right none = .ok ⟨0, text, said⟩) ↔
      (∃ said, cmdMerge host base left right = .ok ⟨0, text, said⟩) ∧
        ∃ said, cmdAdmit host base left right = .ok ⟨0, text, said⟩ := by
  rcases reads_or_fails host base left right with ⟨b, l, r, hreads⟩ | ⟨e, hfail, hmerge, hadmit⟩
  · have hproposes : Proposes host base left right b l r (lineMerge ⟨b, l, r, base⟩) :=
      ⟨hreads, selectDriver_of_lineMerged hline _⟩
    rw [hproposes.cmdMergeFile_eq, settleProposal_accepts_iff, hreads.cmdMerge_accepts_iff, hreads.cmdAdmit_accepts_iff]
    have htext := fromStr_toStr_merge3 b l r
    constructor
    · rintro ⟨⟨hclean, -, hboth⟩, rfl, -⟩
      exact ⟨⟨hclean, rfl⟩, _, hboth, Doc.toStr_fromStr _⟩
    · rintro ⟨⟨hclean, rfl⟩, result, hboth, -⟩
      -- The kernel's document is that of the merge, which is the one the driver writes.
      obtain ⟨w, hadmitted⟩ := Kernel.admitted_iff.mpr hboth
      obtain rfl := Kernel.merged_of_clean hadmitted hclean
      refine ⟨⟨hclean, rfl, ?_⟩, rfl, fun cmd hcmd => by cases hcmd⟩
      exact htext.symm ▸ hboth
  · simp only [hfail, hmerge, hadmit, reduceCtorEq, exists_false, and_self]

end

/-- Three files of which the sides change one line each. -/
def lettersHost : MergeHost where
  readToString path :=
    if path = "base.txt".toList then .ok "a\nb\nc".toList
    else if path = "left.txt".toList then .ok "A\nb\nc".toList
    else if path = "right.txt".toList then .ok "a\nb\nC".toList
    else .error "No such file or directory".toList
  tools := ⟨tableGrammar [] (List.forall_mem_nil _), none⟩
  tempFile := .ok "/tmp/merged".toList
  shell _ _ := .ok true

theorem merge_commands_agree_letters :
    ∃ said, cmdMergeFile lettersHost "base.txt".toList "left.txt".toList "right.txt".toList none =
      .ok ⟨0, "A\nb\nC".toList, said⟩ := by
  have hmerge : ∃ said, cmdMerge lettersHost "base.txt".toList "left.txt".toList "right.txt".toList =
      .ok ⟨0, "A\nb\nC".toList, said⟩ := ⟨_, rfl⟩
  have hadmit : ∃ said, cmdAdmit lettersHost "base.txt".toList "left.txt".toList "right.txt".toList =
      .ok ⟨0, "A\nb\nC".toList, said⟩ := ⟨_, rfl⟩
  exact (merge_commands_agree (by decide) _ _ _).mpr ⟨hmerge, hadmit⟩

end Omoplata
