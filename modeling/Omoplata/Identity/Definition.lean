-- SUMMARY: Definitions of a Rust source, the grammar that finds them, and the tiered matcher.
import Omoplata.Algebra.Patch

/-!
# Definitions

A `Grammar` stands for the tree-sitter parser: the definitions it finds in a text
and its verdict on whether the text parses. All it promises is that the ranges of
the definitions lie in the text, in source order, nested or apart.

`matchDefinitions` carries identity from one list of definitions to another in
three tiers that differ only in what they compare.
-/

namespace Omoplata

/-- The kind of a definition. -/
inductive DefinitionKind where
  | function
  | struct
  | enum
  | trait
  | impl
  | module
  | typeAlias
  | const
  | static
  deriving DecidableEq, Repr

/-- The label of a kind in reports. -/
def DefinitionKind.label : DefinitionKind → Str
  | function => "fn".toList
  | struct => "struct".toList
  | enum => "enum".toList
  | trait => "trait".toList
  | impl => "impl".toList
  | module => "mod".toList
  | typeAlias => "type".toList
  | const => "const".toList
  | static => "static".toList

/-- A definition of a source text. Its range counts characters. -/
structure Definition where
  kind : DefinitionKind
  path : Str
  name : Str
  byteRange : Range
  bodyHash : Str
  deriving DecidableEq, Repr

/-- Why the identity layer fails. -/
inductive IdentityError where
  | unknownChange (change : Str)
  | unknownCommit (commit : Str)
  | supersessionCycle (old new : Str)
  | publicImmutable (commit : Str)
  | phaseRegression (change : Str)
  | grammar (reason : Str)
  | parse
  | unknownOccurrence (occurrence : Nat)
  deriving DecidableEq, Repr

/-- Of two definitions in source order the second starts later, and it lies behind
    the first or inside it. -/
def Definition.Before (d e : Definition) : Prop :=
  d.byteRange.start ≤ e.byteRange.start ∧
    (d.byteRange.stop ≤ e.byteRange.start ∨ e.byteRange.stop ≤ d.byteRange.stop)

instance (d e : Definition) : Decidable (d.Before e) := by unfold Definition.Before; infer_instance

/-- The ranges of the definitions of a text. -/
structure DefinitionsWellFormed (source : Str) (defs : List Definition) : Prop where
  start_le : ∀ d ∈ defs, d.byteRange.start ≤ d.byteRange.stop
  stop_le : ∀ d ∈ defs, d.byteRange.stop ≤ source.length
  before : defs.Pairwise Definition.Before

/-- The Rust grammar of the external parser. -/
structure Grammar where
  extractDefinitions : Str → Except IdentityError (List Definition)
  parsesCleanly : Str → Except IdentityError Bool
  wellFormed : ∀ source defs, extractDefinitions source = .ok defs →
    DefinitionsWellFormed source defs

/-! ## The matcher -/

/-- How a definition fared between two versions. -/
inductive MatchStatus where
  | added
  | deleted
  | unchanged
  | modified
  | renamed
  deriving DecidableEq, Repr

/-- One entry of the matcher's report: positions in the two versions, and the rule
    that decided. -/
structure DefMatch where
  old : Option Nat
  new : Option Nat
  status : MatchStatus
  reason : Str
  deriving DecidableEq, Repr

/-- What the matcher has settled so far. -/
structure Matching where
  matchedOld : List Bool
  matchedNew : List Bool
  found : List DefMatch

/-- Whether a flag is set. -/
def flagged (flags : List Bool) (i : Nat) : Bool := flags.getD i false

/-- One tier: each new definition not yet matched takes the first old one not yet
    matched that it is `akin` to. -/
def matchTier (akin : Definition → Definition → Bool)
    (classify : Definition → Definition → MatchStatus × Str) (old new : List Definition)
    (m : Matching) : Matching :=
  new.zipIdx.foldl (fun m (nd, j) =>
    if flagged m.matchedNew j then m
    else
      match old.zipIdx.find? fun (od, i) => !flagged m.matchedOld i && akin od nd with
      | some (od, i) =>
          let (status, reason) := classify od nd
          ⟨m.matchedOld.set i true, m.matchedNew.set j true,
            m.found ++ [⟨some i, some j, status, reason⟩]⟩
      | none => m) m

/-- Tier 1: the same kind and path. -/
def matchExact : List Definition → List Definition → Matching → Matching :=
  matchTier (fun od nd => od.kind == nd.kind && od.path == nd.path) fun od nd =>
    if od.bodyHash = nd.bodyHash then
      (.unchanged, "tier1: exact (kind,path), body identical".toList)
    else (.modified, "tier1: exact (kind,path), body edited".toList)

/-- Tier 2: the same kind and body under another path. -/
def matchRename : List Definition → List Definition → Matching → Matching :=
  matchTier
    (fun od nd => od.kind == nd.kind && od.bodyHash == nd.bodyHash && !(od.path == nd.path))
    fun _ _ => (.renamed, "tier2: identical body, path changed (rename)".toList)

/-- Tier 3: the same kind, name and body under another path. -/
def matchMove : List Definition → List Definition → Matching → Matching :=
  matchTier
    (fun od nd =>
      od.kind == nd.kind && od.name == nd.name && od.bodyHash == nd.bodyHash &&
        !(od.path == nd.path))
    fun _ _ => (.renamed, "tier3: same name and body, container moved".toList)

/-- The tiered matcher: pairs in new order tier by tier, then deletions in old order,
    then additions in new order. -/
def matchDefinitions (old new : List Definition) : List DefMatch :=
  let start : Matching := ⟨old.map fun _ => false, new.map fun _ => false, []⟩
  let m := matchMove old new (matchRename old new (matchExact old new start))
  m.found ++
    ((List.range old.length).filter fun i => !flagged m.matchedOld i).map
      (fun i => ⟨some i, none, .deleted, "no surviving match in new version".toList⟩) ++
    ((List.range new.length).filter fun j => !flagged m.matchedNew j).map
      (fun j => ⟨none, some j, .added, "first appearance: mint new identity".toList⟩)

/-! ## A grammar for examples -/

instance (source : Str) (defs : List Definition) : Decidable (DefinitionsWellFormed source defs) :=
  decidable_of_iff
    ((∀ d ∈ defs, d.byteRange.start ≤ d.byteRange.stop) ∧ (∀ d ∈ defs, d.byteRange.stop ≤ source.length) ∧
      defs.Pairwise Definition.Before)
    ⟨fun ⟨hstart, hstop, hbefore⟩ => ⟨hstart, hstop, hbefore⟩, fun h => ⟨h.start_le, h.stop_le, h.before⟩⟩

/-- A grammar that knows the definitions of some texts and finds none in the others. -/
def tableGrammar (table : List (Str × List Definition))
    (h : ∀ entry ∈ table, DefinitionsWellFormed entry.1 entry.2) : Grammar where
  extractDefinitions text := .ok (((table.find? fun entry => entry.1 == text).map Prod.snd).getD [])
  parsesCleanly _ := .ok true
  wellFormed source defs hdefs := by
    rw [Except.ok.injEq] at hdefs
    cases hfind : table.find? fun entry => entry.1 == source with
    | none =>
        obtain rfl : [] = defs := by simpa [hfind] using hdefs
        exact ⟨by simp, by simp, .nil⟩
    | some entry =>
        obtain rfl : entry.2 = defs := by simpa [hfind] using hdefs
        have hentry : entry.1 = source := by simpa using List.find?_some hfind
        exact hentry ▸ h entry (List.mem_of_find?_eq_some hfind)

/-- The function of a name on a span. -/
def fnDefinition (name : Str) (range : Range) (body : Str) : Definition :=
  ⟨.function, name, name, range, body⟩

/-- The constant of a name on a span. -/
def constDefinition (name : Str) (range : Range) (body : Str) : Definition :=
  ⟨.const, name, name, range, body⟩

end Omoplata
