-- SUMMARY: Change and commit identities, phases, and review submissions.
import Omoplata.Algebra.Doc

/-!
# Identity

Ids are strings. A submission refers to changes, not to their commits; its
approval is a flag with the certificates that carry it across rebases.
-/

namespace Omoplata

/-- The stable identity of a change. -/
abbrev ChangeId := Str

/-- The identity of a commit. -/
abbrev CommitId := Str

/-- A unique identifier for a review submission. -/
abbrev SubmissionId := Str

/-- The phase of a change. -/
inductive Phase where
  | draft
  | published
  deriving DecidableEq, Repr

/-- A certificate that a change's approval persists across a rebase. -/
structure ApprovalCertificate where
  changeId : ChangeId
  originalCommit : CommitId
  rebasedCommit : CommitId
  approvedBy : Str
  proofWitness : Str
  deriving DecidableEq, Repr

/-- Review approval status of a submission. -/
inductive Approval where
  | pending
  | approved (reviewer : Str) (certificates : List ApprovalCertificate)
  | rejected (reason : Str)
  deriving DecidableEq, Repr

/-- A review submission. -/
structure Submission where
  id : SubmissionId
  title : Str
  changes : List ChangeId
  author : Str
  approval : Approval
  deriving DecidableEq, Repr

namespace Submission

/-- A new pending submission. -/
def new (id : SubmissionId) (title : Str) (changes : List ChangeId) (author : Str) : Submission :=
  ⟨id, title, changes, author, .pending⟩

def approve (s : Submission) (reviewer : Str) : Submission :=
  { s with approval := .approved reviewer [] }

/-- Attach a certificate; nothing happens unless the submission is approved. -/
def addCertificate (s : Submission) (cert : ApprovalCertificate) : Submission :=
  match s.approval with
  | .approved reviewer certificates =>
      { s with approval := .approved reviewer (certificates ++ [cert]) }
  | _ => s

def isApproved (s : Submission) : Bool :=
  match s.approval with
  | .approved .. => true
  | _ => false

end Submission

end Omoplata
