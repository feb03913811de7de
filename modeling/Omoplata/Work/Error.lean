-- SUMMARY: The errors of the working model.
import Omoplata.Identity.Definition
import Omoplata.Store

namespace Omoplata

/-- Why a commit does not read as text. -/
inductive ContentError where
  | malformedId (commit : Str) (e : ObjectError)
  | notUtf8 (commit : Str)
  | tree (commit : Str)
  deriving DecidableEq

/-- Why an operation on the working model fails. -/
inductive WorkError where
  | nothingToUndo
  | decode (reason : Str)
  | io (path : Str)
  | store (e : StoreError)
  | content (reason : ContentError)
  | identity (e : IdentityError)
  | unknownChange (change : Str)
  | submissionNotApproved (submission : Str)
  | queueExists (queue : Str)
  | unknownQueue (queue : Str)
  | queueCarriedRefused (queue : Str) (count : Nat)
  | queueValidationFailed (queue : Str) (reason : Str)
  | batchOverlap (a b : Str) (paths : List Str)
  | parse (reason : Str)
  | unknownRef (name : Str)
  | workspaceExists (name : Str)
  | unknownWorkspace (name : Str)
  | remoteExists (name : Str)
  | unknownRemote (name : Str)
  deriving DecidableEq

end Omoplata
