-- SUMMARY: The structural driver for Rust: conflict values, segmentation, pairing, container recursion.
import Omoplata.Drivers.Driver
import Omoplata.Identity.Definition

/-!
# The structural driver

A Rust file is cut into its top-level definitions and the gaps between them. The
items of the three sides are paired by the definition matcher and settled one by
one; a container edited on both sides is settled by the same merge over its
members. The result is put together from the gaps and bodies in base order,
followed by the items either side added.

Texts are lists of characters, so offsets count characters. The recursion into
containers is on the depth that is left; `structuralMergeWith` is one level of it,
over how a base item is settled.
-/

namespace Omoplata

/-! ## Texts -/

/-- The pieces of a text up to and with each newline. -/
def splitInclusive : Str → List Str
  | [] => []
  | c :: cs =>
      if c = '\n' then ['\n'] :: splitInclusive cs
      else
        match splitInclusive cs with
        | [] => [[c]]
        | piece :: pieces => (c :: piece) :: pieces

/-- A line without its newline. -/
def stripNewline (line : Str) : Str :=
  if line.getLast? = some '\n' then line.dropLast else line

/-- A line without the carriage return of its line ending. -/
def stripReturn (line : Line) : Line :=
  if line.getLast? = some '\r' then line.dropLast else line

/-- The lines of a text, without their line endings and without an empty last line. -/
def textLines (text : Str) : List Line :=
  (splitInclusive text).map fun piece =>
    if piece.getLast? = some '\n' then stripReturn piece.dropLast else piece

/-- Unicode white space. -/
def isWhiteSpace (c : Char) : Bool :=
  let n := c.toNat
  (9 ≤ n && n ≤ 13) || n == 32 || n == 0x85 || n == 0xa0 || n == 0x1680 ||
    (0x2000 ≤ n && n ≤ 0x200a) || n == 0x2028 || n == 0x2029 || n == 0x202f || n == 0x205f ||
    n == 0x3000

def trimStart (s : Str) : Str := s.dropWhile isWhiteSpace

/-- The position of the first `c`. -/
def findChar (c : Char) (s : Str) : Option Nat := s.findIdx? (· == c)

/-- The position of the last `c`. -/
def rfindChar (c : Char) (s : Str) : Option Nat :=
  (findChar c s.reverse).map fun i => s.length - 1 - i

/-- The span of a range, or nothing where it leaves the text. -/
def getRange (s : Str) (r : Range) : Option Str := slice? s r.start r.stop

/-- Replace the span of a range. -/
def replaceRange (s : Str) (r : Range) (new : Str) : Str :=
  s.take r.start ++ new ++ s.drop r.stop

/-- Whether one range lies in another. -/
def Range.contains (outer inner : Range) : Bool :=
  outer.start ≤ inner.start && inner.stop ≤ outer.stop

/-- A text as its lines. -/
def lines (text : Str) : List Line := text.splitOn '\n'

/-! ## Conflict values -/

/-- A marker block of an input: its text, and the lines of its two variants. -/
structure MarkerBlock where
  original : Str
  left : List Line
  right : List Line
  deriving DecidableEq, Repr

/-- A marker block and where it lies. -/
structure LocatedBlock where
  range : Range
  block : MarkerBlock
  deriving DecidableEq, Repr

/-- A block the scan has entered: where it starts, its left lines, and its right lines
    once the separator has been seen. -/
structure OpenBlock where
  start : Nat
  left : List Line
  right : Option (List Line)

def startMarker : Str := "<<<<<<<".toList

def endMarker : Str := ">>>>>>>".toList

/-- The loop of the scan, over the lines from `pos` on. -/
def scanLoop (text : Str) :
    List Str → Nat → Option OpenBlock → List LocatedBlock → Option (List LocatedBlock)
  | [], _, cur, blocks => if cur.isSome then none else some blocks
  | line :: rest, start, cur, blocks =>
      let pos := start + line.length
      let stripped := stripNewline line
      let trimmed := trimStart stripped
      if startMarker.isPrefixOf trimmed then
        if cur.isSome then none else scanLoop text rest pos (some ⟨start, [], none⟩) blocks
      else if trimmed = conflictSep then
        match cur with
        | some ⟨bstart, left, none⟩ => scanLoop text rest pos (some ⟨bstart, left, some []⟩) blocks
        | _ => none
      else if endMarker.isPrefixOf trimmed then
        match cur with
        | some ⟨bstart, left, some right⟩ => do
            let range : Range := ⟨bstart, start + stripped.length⟩
            let original ← getRange text range
            scanLoop text rest pos none (blocks ++ [⟨range, original, left, right⟩])
        | _ => none
      else
        match cur with
        | some ⟨bstart, left, some right⟩ =>
            scanLoop text rest pos (some ⟨bstart, left, some (right ++ [stripped])⟩) blocks
        | some ⟨bstart, left, none⟩ =>
            scanLoop text rest pos (some ⟨bstart, left ++ [stripped], none⟩) blocks
        | none => scanLoop text rest pos none blocks

/-- The marker blocks of a text, or nothing if its markers are malformed. -/
def scanMarkerBlocks (text : Str) : Option (List LocatedBlock) :=
  scanLoop text (splitInclusive text) 0 none []

/-- An input with every marker block replaced by its left variant, and the blocks at
    their ranges in the replaced text. -/
structure Prepared where
  sanitized : Str
  values : List LocatedBlock

/-- The loop that replaces the blocks from `cursor` on. -/
def sanitizeLoop (text : Str) : List LocatedBlock → Nat → Prepared → Option Prepared
  | [], cursor, p => do
      let tail ← getRange text ⟨cursor, text.length⟩
      some { p with sanitized := p.sanitized ++ tail }
  | ⟨range, block⟩ :: blocks, cursor, p => do
      let between ← getRange text ⟨cursor, range.start⟩
      let sanitized := p.sanitized ++ between
      let replaced := sanitized ++ List.intercalate ['\n'] block.left
      sanitizeLoop text blocks range.stop
        ⟨replaced, p.values ++ [⟨⟨sanitized.length, replaced.length⟩, block⟩]⟩

/-- Scan and sanitize a text. -/
def Prepared.of (text : Str) : Option Prepared := do
  let blocks ← scanMarkerBlocks text
  if blocks.isEmpty then some ⟨text, []⟩ else sanitizeLoop text blocks 0 ⟨[], []⟩

/-! ## Segmentation -/

/-- One item: its definition, its sanitized text, its true text, and the conflict
    values pinned to it. -/
structure Item where
  definition : Definition
  text : Str
  originalText : Str
  carried : List Conflict
  byteRange : Range
  deriving DecidableEq, Repr

def Item.conflictFree (d : Definition) (text : Str) (byteRange : Range) : Item :=
  ⟨d, text, text, [], byteRange⟩

/-- Items and the text between them: `gaps[i]` precedes `items[i]`, the last gap is the
    trailing text. -/
structure Segmentation where
  items : List Item
  gaps : List Str
  deriving DecidableEq, Repr

/-- The loop over the definitions, with the end of the last item taken. -/
def segmentLoop (source : Str) : List Definition → Nat → Segmentation → Segmentation
  | [], cursor, seg =>
      { seg with gaps := seg.gaps ++ [(getRange source ⟨cursor, source.length⟩).getD []] }
  | d :: defs, cursor, seg =>
      if d.byteRange.start < cursor then segmentLoop source defs cursor seg
      else
        let gap := (getRange source ⟨cursor, d.byteRange.start⟩).getD []
        let text := (getRange source d.byteRange).getD []
        segmentLoop source defs d.byteRange.stop
          ⟨seg.items ++ [.conflictFree d text d.byteRange], seg.gaps ++ [gap]⟩

namespace Segmentation

/-- Cut a source into its top-level items and the gaps between them. -/
def of (G : Grammar) (source : Str) : Except IdentityError Segmentation := do
  let defs ← G.extractDefinitions source
  pure (segmentLoop source defs 0 ⟨[], []⟩)

def defs (seg : Segmentation) : List Definition := seg.items.map Item.definition

end Segmentation

/-- A conflict value pinned to an item, at its range in the item. -/
structure Pin where
  item : Nat
  range : Range
  block : MarkerBlock

/-- Pin each value to the item that contains it. -/
def pinValues (items : List Item) (values : List LocatedBlock) : Option (List Pin) :=
  values.mapM fun ⟨range, block⟩ => do
    let idx ← items.findIdx? fun it => it.byteRange.contains range
    let it ← items[idx]?
    some ⟨idx, ⟨range.start - it.byteRange.start, range.stop - it.byteRange.start⟩, block⟩

/-- Put a block's true text back into its item. -/
def Item.splice (it : Item) (pin : Pin) : Item :=
  { it with
    originalText := replaceRange it.originalText pin.range pin.block.original
    carried := ⟨[], pin.block.left, pin.block.right⟩ :: it.carried }

/-- Segment the sanitized text and pin the conflict values, last to first so that
    offsets stay valid. -/
def Prepared.segment (G : Grammar) (p : Prepared) : Option Segmentation := do
  let seg ← (Segmentation.of G p.sanitized).toOption
  let pins ← pinValues seg.items p.values
  let spliced := pins.reverse.foldl (fun items pin => items.modify pin.item (·.splice pin)) seg.items
  some { seg with items := spliced }

/-! ## Pairing -/

/-- For each base item the side's counterpart, and the items the side added. -/
structure Pairing where
  baseToSide : List (Option Nat)
  added : List Nat

/-- Read one entry of the matcher's report. -/
def Pairing.record (p : Pairing) (m : DefMatch) : Pairing :=
  match m.status, m.old, m.new with
  | .unchanged, some o, some n | .modified, some o, some n | .renamed, some o, some n =>
      { p with baseToSide := p.baseToSide.set o (some n) }
  | .added, _, some n => { p with added := p.added ++ [n] }
  | _, _, _ => p

/-- Pair base items with the items of one side. -/
def pair (base side : Segmentation) : Pairing :=
  (matchDefinitions base.defs side.defs).foldl Pairing.record ⟨base.items.map fun _ => none, []⟩

/-! ## Settling one item -/

/-- How a base item is settled. -/
inductive Resolution where
  | keep (body : Str)
  | drop
  | conflict (rendered : Str) (conflicts : List Conflict)
  | carry (rendered : Str) (carried : List Conflict)
  deriving DecidableEq, Repr

/-- Render a conflict between two texts with the line driver's markers. -/
def renderConflict (left right : Str) : Str :=
  conflictStart ++ ['\n'] ++ left ++ ['\n'] ++ conflictSep ++ ['\n'] ++ right ++ ['\n'] ++
    conflictEnd

/-- Keep a changed side's text, with the conflicts it carries. -/
def keepOrCarry (side : Item) : Resolution :=
  if side.carried.isEmpty then .keep side.originalText
  else .carry side.originalText side.carried

/-- Settle an item edited on both sides by merging its lines. -/
def interiorMerge (base l r : Item) : Resolution :=
  let merged := merge3 (Doc.fromStr base.text) (Doc.fromStr l.text) (Doc.fromStr r.text)
  if merged.isClean then .keep merged.merged.toStr
  else .conflict merged.merged.toStr merged.conflicts

/-- Settle a base item against its counterparts; `container` merges the members of a
    container. -/
def resolveBaseItem (container : Item → Item → Item → Option Resolution) (base : Item) :
    Option Item → Option Item → Resolution
  | some l, some r =>
      match decide (l.originalText ≠ base.originalText),
          decide (r.originalText ≠ base.originalText) with
      | false, false =>
          if base.carried.isEmpty then .keep base.originalText
          else .carry base.originalText base.carried
      | true, false => keepOrCarry l
      | false, true => keepOrCarry r
      | true, true =>
          if !l.carried.isEmpty || !r.carried.isEmpty then
            .conflict (renderConflict l.originalText r.originalText)
              [⟨lines base.originalText, lines l.originalText, lines r.originalText⟩]
          else (container base l r).getD (interiorMerge base l r)
  | some l, none =>
      if l.originalText = base.originalText then .drop
      else
        .conflict (renderConflict l.originalText [])
          [⟨lines base.originalText, lines l.originalText, []⟩]
  | none, some r =>
      if r.originalText = base.originalText then .drop
      else
        .conflict (renderConflict [] r.originalText)
          [⟨lines base.originalText, [], lines r.originalText⟩]
  | none, none => .drop

/-! ## Containers -/

/-- Whether items of this kind are merged member by member. -/
def recursable : DefinitionKind → Bool
  | .impl | .module | .trait => true
  | _ => false

/-- A container split into its header up to the opening brace, its members, and its
    footer from the closing brace. -/
structure ContainerParts where
  header : Str
  members : Segmentation
  footer : Str

/-- The loop over the definitions of a container. -/
def memberLoop (text : Str) (headerEnd footerStart : Nat) :
    List Definition → Nat → Segmentation → Option Segmentation
  | [], cursor, seg => do
      let gap ← getRange text ⟨cursor, footerStart⟩
      some { seg with gaps := seg.gaps ++ [gap] }
  | d :: defs, cursor, seg =>
      if d.byteRange.start < cursor then memberLoop text headerEnd footerStart defs cursor seg
      else if d.byteRange.start < headerEnd ∨ d.byteRange.stop > footerStart then none
      else do
        let gap ← getRange text ⟨cursor, d.byteRange.start⟩
        let member ← getRange text d.byteRange
        memberLoop text headerEnd footerStart defs d.byteRange.stop
          ⟨seg.items ++ [.conflictFree d member d.byteRange], seg.gaps ++ [gap]⟩

/-- Split a container; nothing when its text does not have the shape of one. -/
def splitContainer (G : Grammar) (text : Str) : Option ContainerParts := do
  let defs ← (G.extractDefinitions text).toOption
  let container ← defs.head?
  if container.byteRange.start ≠ 0 ∨ container.byteRange.stop ≠ text.length then none
  else do
    let headerEnd := (← findChar '{' text) + 1
    let footerStart ← rfindChar '}' text
    if footerStart < headerEnd then none
    else do
      let members ← memberLoop text headerEnd footerStart defs.tail headerEnd ⟨[], []⟩
      some ⟨← getRange text ⟨0, headerEnd⟩, members, ← getRange text ⟨footerStart, text.length⟩⟩

/-- Merge a container edited on both sides member by member, where its header and
    footer are the same on all three sides. -/
def tryContainerMerge (G : Grammar)
    (merge : Segmentation → Segmentation → Segmentation → DriverOutput) (base l r : Item) :
    Option Resolution :=
  if !(recursable base.definition.kind && l.definition.kind == base.definition.kind &&
      r.definition.kind == base.definition.kind) then none
  else do
    let bp ← splitContainer G base.text
    let lp ← splitContainer G l.text
    let rp ← splitContainer G r.text
    if !(bp.header == lp.header && bp.header == rp.header) then none
    else if !(bp.footer == lp.footer && bp.footer == rp.footer) then none
    else
      let out := merge bp.members lp.members rp.members
      let rendered := bp.header ++ out.merged ++ bp.footer
      if out.conflicts.isEmpty && out.carried.isEmpty then some (.keep rendered)
      else if out.conflicts.isEmpty then some (.carry rendered out.carried)
      else some (.conflict rendered (out.conflicts ++ out.carried))

/-! ## The merge -/

/-- What has been put together: pieces with their leading gaps, and the conflicts. -/
structure Assembly where
  out : List (Str × Str)
  conflicts : List Conflict
  carried : List Conflict

namespace Assembly

/-- Emit a settled base item behind its leading gap. -/
def emit (a : Assembly) (leading : Str) : Resolution → Assembly
  | .keep body => { a with out := a.out ++ [(leading, body)] }
  | .drop => a
  | .conflict rendered cs =>
      { a with conflicts := a.conflicts ++ cs, out := a.out ++ [(leading, rendered)] }
  | .carry rendered cv =>
      { a with carried := a.carried ++ cv, out := a.out ++ [(leading, rendered)] }

/-- Emit an added item, with the conflicts it carries. -/
def pushAdded (a : Assembly) (leading : Str) (it : Item) : Assembly :=
  { a with
    carried := if it.carried.isEmpty then a.carried else a.carried ++ it.carried
    out := a.out ++ [(leading, it.originalText)] }

end Assembly

/-- Settle the base items, in base order. -/
def settleBase (resolve : Item → Option Item → Option Item → Resolution)
    (base left right : Segmentation) (lp rp : Pairing) (a : Assembly) : Assembly :=
  base.items.zipIdx.foldl (fun a (item, i) =>
    let l := (lp.baseToSide.getD i none).bind fun n => left.items[n]?
    let r := (rp.baseToSide.getD i none).bind fun n => right.items[n]?
    a.emit (base.gaps.getD i []) (resolve item l r)) a

/-- Emit the items added on the left, each together with the item of the same kind and
    path added on the right. The flags are the right items so consumed. -/
def addLeft (left right : Segmentation) (lp rp : Pairing) (a : Assembly) :
    Assembly × List Bool :=
  lp.added.foldl (fun (a, consumed) lj =>
    match left.items[lj]? with
    | none => (a, consumed)
    | some litem =>
        let leading := left.gaps.getD lj []
        let counterpart := rp.added.find? fun rj =>
          !consumed.getD rj true &&
            (right.items[rj]?).any fun ri =>
              ri.definition.kind == litem.definition.kind && ri.definition.path == litem.definition.path
        match counterpart with
        | some rj =>
            let rtext := ((right.items[rj]?).map Item.originalText).getD []
            (if rtext = litem.originalText then a.pushAdded leading litem
            else
              { a with
                conflicts := a.conflicts ++ [⟨[], lines litem.originalText, lines rtext⟩]
                out := a.out ++ [(leading, renderConflict litem.originalText rtext)] },
              consumed.set rj true)
        | none => (a.pushAdded leading litem, consumed)) (a, right.items.map fun _ => false)

/-- Emit the other items added on the right. -/
def addRight (right : Segmentation) (rp : Pairing) (consumed : List Bool) (a : Assembly) :
    Assembly :=
  rp.added.foldl (fun a rj =>
    if consumed.getD rj false then a
    else
      match right.items[rj]? with
      | none => a
      | some ritem => a.pushAdded (right.gaps.getD rj []) ritem) a

/-- One level of the structural merge. -/
def structuralMergeWith (resolve : Item → Option Item → Option Item → Resolution)
    (base left right : Segmentation) : DriverOutput :=
  let lp := pair base left
  let rp := pair base right
  let a := settleBase resolve base left right lp rp ⟨[], [], []⟩
  let (a, consumed) := addLeft left right lp rp a
  let a := addRight right rp consumed a
  ⟨(a.out.flatMap fun p => p.1 ++ p.2) ++ (base.gaps.getLast?).getD [], a.conflicts, a.carried,
    "rust-structural".toList⟩

/-- The structural merge, with `depth` levels of containers left. -/
def structuralMerge (G : Grammar) :
    Nat → Segmentation → Segmentation → Segmentation → DriverOutput
  | 0 => structuralMergeWith (resolveBaseItem fun _ _ _ => none)
  | depth + 1 =>
      structuralMergeWith (resolveBaseItem (tryContainerMerge G (structuralMerge G depth)))

/-- The bound on container recursion. -/
def maxContainerDepth : Nat := 3

/-- Whether a text parses without error. -/
def Grammar.accepts (G : Grammar) (text : Str) : Bool :=
  match G.parsesCleanly text with
  | .ok verdict => verdict
  | .error _ => false

/-- The segmentations of the three sides, where the structural path is open: the markers
    are well formed, the sanitized texts parse, and every value lies in an item. -/
def structuralSides (G : Grammar) (input : MergeInput) :
    Option (Segmentation × Segmentation × Segmentation) := do
  let basep ← Prepared.of input.base
  let leftp ← Prepared.of input.left
  let rightp ← Prepared.of input.right
  if [basep, leftp, rightp].all fun p => G.accepts p.sanitized then
    some (← basep.segment G, ← leftp.segment G, ← rightp.segment G)
  else none

/-- The structural driver, with the line driver where the structural path is closed. -/
def rustMerge (G : Grammar) (input : MergeInput) : DriverOutput :=
  match structuralSides G input with
  | some (base, left, right) => structuralMerge G maxContainerDepth base left right
  | none => lineMerge input

/-! ## Queries -/

/-- A conflict value of a source: the definition that contains it, the line it starts
    at, and its variants. -/
structure ConflictValue where
  definition : Option Str
  line : Nat
  left : List Line
  right : List Line
  deriving DecidableEq, Repr

/-- The deepest of the definitions around a range: the last of those that start last. -/
def deepest (defs : List Definition) (range : Range) : Option Definition :=
  (defs.filter fun d => d.byteRange.contains range).foldl (fun best d =>
    match best with
    | some b => if b.byteRange.start ≤ d.byteRange.start then some d else some b
    | none => some d) none

/-- The conflict values a source carries. -/
def conflictValues (G : Grammar) (source : Str) : Option (List ConflictValue) := do
  let prepared ← Prepared.of source
  if prepared.values.isEmpty then some []
  else do
    let defs ← (G.extractDefinitions prepared.sanitized).toOption
    let blocks ← scanMarkerBlocks source
    some (List.zipWith (fun value located =>
      ⟨(deepest defs value.range).map Definition.path,
        (source.take located.range.start).count '\n' + 1, located.block.left, located.block.right⟩)
      prepared.values blocks)

end Omoplata
