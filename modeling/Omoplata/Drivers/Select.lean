-- SUMMARY: The Mergiraf driver around the external tool, and the choice of a driver by extension.
import Omoplata.Drivers.Rust

/-!
# Choosing a driver

Rust files go to the structural driver. Other files go to Mergiraf where it is
installed and knows the extension, and to the line driver otherwise.
-/

namespace Omoplata

/-! ## Mergiraf -/

/-- Whether a line is the marker `sigil`, with or without a label. -/
def isMarker (line sigil : Line) : Bool :=
  line == sigil || (sigil.isPrefixOf line && (line.drop sigil.length).head? == some ' ')

/-- The sections of a diff3 block. -/
inductive Diff3Section where
  | left
  | base
  | right
  deriving DecidableEq, Repr

/-- A block the parser has entered, with the section it is in. -/
structure Diff3Block where
  current : Diff3Section
  left : List Line
  base : List Line
  right : List Line

/-- The walk over the lines; a malformed block is dropped and the walk goes on behind
    the line that broke it. -/
def diff3Loop : List Line → Option Diff3Block → List Conflict
  | [], _ => []
  | line :: rest, none =>
      if isMarker line "<<<<<<<".toList then diff3Loop rest (some ⟨.left, [], [], []⟩)
      else diff3Loop rest none
  | line :: rest, some block =>
      if isMarker line "|||||||".toList then
        match block.current with
        | .left => diff3Loop rest (some { block with current := .base })
        | _ => diff3Loop rest none
      else if isMarker line "=======".toList then
        match block.current with
        | .right => diff3Loop rest none
        | _ => diff3Loop rest (some { block with current := .right })
      else if isMarker line ">>>>>>>".toList then
        ⟨block.base, block.left, block.right⟩ :: diff3Loop rest none
      else
        match block.current with
        | .left => diff3Loop rest (some { block with left := block.left ++ [line] })
        | .base => diff3Loop rest (some { block with base := block.base ++ [line] })
        | .right => diff3Loop rest (some { block with right := block.right ++ [line] })

/-- The conflicts of a diff3 text. -/
def parseDiff3Conflicts (merged : Str) : List Conflict := diff3Loop (textLines merged) none

/-- A run of the tool that gave an output: whether conflicts remain, and the output. -/
structure MergirafRun where
  conflicted : Bool
  output : Str

/-- The programs outside the repository: the Rust grammar, and `mergiraf` where it is
    installed. -/
structure Tools where
  grammar : Grammar
  mergiraf : Option (MergeInput → Except DriverError MergirafRun)

/-- The Mergiraf driver, around a run of the tool. -/
def mergirafMerge (run : MergeInput → Except DriverError MergirafRun) (input : MergeInput) :
    Except DriverError DriverOutput := do
  let out ← run input
  pure ⟨out.output, if out.conflicted then parseDiff3Conflicts out.output else [], [],
    "mergiraf".toList⟩

/-! ## Extensions -/

/-- The last component of a path. -/
def fileName (path : Str) : Str := (path.splitOn '/').getLastD []

/-- What stands behind the last dot of a path's last component. -/
def finalExtension (path : Str) : Option Str :=
  let parts := (fileName path).splitOn '.'
  if parts.length < 2 then none else parts.getLast?

def hasExtension (path ext : Str) : Bool := finalExtension path == some ext

/-- The final extension, if it is not empty. -/
def extensionOf (path : Str) : Option Str := (finalExtension path).filter fun e => !e.isEmpty

/-- The extensions Mergiraf merges. -/
def supportedExtensions : List Str :=
  ["c", "h", "cc", "hh", "cpp", "hpp", "cxx", "hxx", "c++", "h++", "mpp", "cppm", "ixx", "tcc",
    "cs", "go", "rs", "java", "kt", "kts", "scala", "sbt", "dart", "sol", "sv", "svh", "f", "for",
    "f90", "py", "rb", "php", "phtml", "php3", "php4", "php5", "phps", "phpt", "lua", "js", "jsx",
    "mjs", "cjs", "ts", "mts", "cts", "tsx", "sh", "bash", "r", "gleam", "ex", "exs", "json",
    "yaml", "yml", "toml", "xml", "xhtml", "html", "htm", "ini", "properties", "nix", "hcl", "tf",
    "tfvars", "md", "scm", "dts", "bzl", "bxl", "bazel", "star", "sky", "cmake", "mk", "ml", "mli",
    "hs"].map String.toList

/-- An ASCII letter in lower case. -/
def asciiLower (c : Char) : Char := if 'A' ≤ c ∧ c ≤ 'Z' then Char.ofNat (c.toNat + 32) else c

def supportsExtension (path : Str) : Bool :=
  match extensionOf path with
  | some ext => supportedExtensions.contains (ext.map asciiLower)
  | none => false

/-! ## The choice -/

/-- The driver for a path. -/
def selectDriver (tools : Tools) (path : Str) (input : MergeInput) :
    Except DriverError DriverOutput :=
  if hasExtension path "rs".toList then .ok (rustMerge tools.grammar input)
  else
    match tools.mergiraf with
    | some run => if supportsExtension path then mergirafMerge run input else .ok (lineMerge input)
    | none => .ok (lineMerge input)

/-- Whether a path goes to the line driver. -/
def lineMerged (tools : Tools) (path : Str) : Bool :=
  !hasExtension path "rs".toList && !(tools.mergiraf.isSome && supportsExtension path)

theorem selectDriver_of_lineMerged {tools : Tools} {path : Str} (h : lineMerged tools path = true)
    (input : MergeInput) : selectDriver tools path input = .ok (lineMerge input) := by
  unfold lineMerged at h
  rw [Bool.and_eq_true, Bool.not_eq_true', Bool.not_eq_true'] at h
  obtain ⟨hrs, hmergiraf⟩ := h
  unfold selectDriver
  rw [hrs, if_neg Bool.false_ne_true]
  cases hrun : tools.mergiraf with
  | none => rfl
  | some run =>
      rw [hrun, Option.isSome_some, Bool.true_and] at hmergiraf
      simp only [hmergiraf, Bool.false_eq_true, if_false]

end Omoplata
