-- SUMMARY: What a merge driver takes and gives, and the line driver every other falls back to.
import Omoplata.Algebra.Merge

/-!
# Merge drivers

A driver proposes a merged text for three versions of a file, with the conflicts
it leaves as values. The line driver wraps `merge3`.
-/

namespace Omoplata

/-- The three sides of a merge and the path being merged. -/
structure MergeInput where
  base : Str
  left : Str
  right : Str
  path : Str
  deriving DecidableEq, Repr

/-- What a driver proposes. `carried` are conflicts of the inputs that rode through;
    `driver` names the one that ran. -/
structure DriverOutput where
  merged : Str
  conflicts : List Conflict
  carried : List Conflict
  driver : Str
  deriving DecidableEq, Repr

namespace DriverOutput

def isClean (o : DriverOutput) : Bool := o.conflicts.isEmpty && o.carried.isEmpty

/-- Whether the merge made no new conflict. -/
def isMergeable (o : DriverOutput) : Bool := o.conflicts.isEmpty

end DriverOutput

/-- A failure of an external merge tool. -/
inductive DriverError where
  | tool (reason : Str)
  deriving DecidableEq, Repr

/-- The line driver. -/
def lineMerge (input : MergeInput) : DriverOutput :=
  let merge := merge3 (Doc.fromStr input.base) (Doc.fromStr input.left) (Doc.fromStr input.right)
  ⟨merge.merged.toStr, merge.conflicts, [], "line".toList⟩

/-- The line driver takes the side that changed. -/
theorem lineMerge_base_left (base right path : Str) :
    lineMerge ⟨base, base, right, path⟩ = ⟨right, [], [], "line".toList⟩ := by
  unfold lineMerge
  simp only [merge3_base_left, Doc.toStr_fromStr]

theorem lineMerge_base_right (base left path : Str) :
    lineMerge ⟨base, left, base, path⟩ = ⟨left, [], [], "line".toList⟩ := by
  unfold lineMerge
  simp only [merge3_base_right, Doc.toStr_fromStr]

theorem lineMerge_same (base side path : Str) :
    lineMerge ⟨base, side, side, path⟩ = ⟨side, [], [], "line".toList⟩ := by
  unfold lineMerge
  simp only [merge3_same, Doc.toStr_fromStr]

end Omoplata
