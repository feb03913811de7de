-- SUMMARY: Paths in text form, and the steps they take.
import Omoplata.Lib.FileSystem
import Omoplata.Store

/-!
# Paths

A path is text with slashes between its components. An absolute path starts at the root,
and two dots step up.
-/

open FileSystem

namespace Omoplata

/-- What a component of a path does; an empty one and a dot do nothing. -/
def stepOf (component : Str) : Option (Step Str) :=
  if component = [] ∨ component = ['.'] then none
  else if component = ['.', '.'] then some .up
  else some (.down component)

/-- The steps of a path. -/
def stepsOf (path : Str) : List (Step Str) := (path.splitOn '/').filterMap stepOf

/-- Join a path to another one; an absolute one replaces it. -/
def joinPath (base : List (Step Str)) (path : Str) : List (Step Str) :=
  if path.head? = some '/' then stepsOf path else base ++ stepsOf path

/-- The name a path ends in, if it ends in one. -/
def pathFileName (path : List (Step Str)) : Option Str :=
  match path.getLast? with
  | some (.down name) => some name
  | _ => none

/-- Whether a path can be handed to the system: no name holds a zero byte. -/
def representable (path : List (Step Str)) : Bool :=
  path.all fun step =>
    match step with
    | .up => true
    | .down name => !name.contains (Char.ofNat 0)

end Omoplata
