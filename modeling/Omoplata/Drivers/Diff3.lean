-- SUMMARY: The conflicts read from a diff3 text against its well-formed blocks.
import Omoplata.Drivers.Select

/-!
# Well-formed diff3 blocks

A block of a diff3 text is a start marker, its left lines, possibly a base marker and its base
lines, a separator, its right lines and an end marker, and no other marker is among them. The
parser is compared with the blocks of the lines it has read, line after line: an end marker
closes whatever it has entered, a start marker is content of a block it is in, and what it drops
at a repeated divider may hold the beginning of a block.
-/

namespace Omoplata

namespace Diff3

/-! ## Marker lines -/

def baseMarker : Str := "|||||||".toList

def separator : Str := "=======".toList

/-- What a line is to the parser. -/
inductive Mark where
  | start
  | base
  | sep
  | stop
  | plain
  deriving DecidableEq, Repr

def markOf (line : Line) : Mark :=
  if isMarker line startMarker then .start
  else if isMarker line baseMarker then .base
  else if isMarker line separator then .sep
  else if isMarker line endMarker then .stop
  else .plain

/-- The text of a marker. -/
def Mark.sigil : Mark → Str
  | .start => startMarker
  | .base => baseMarker
  | .sep => separator
  | .stop => endMarker
  | .plain => []

def isPlain (line : Line) : Bool := markOf line == .plain

/-! ## Well-formed blocks -/

/-- The lines of a well-formed block, with the conflict it stands for. -/
inductive IsBlock : List Line → Conflict → Prop where
  | twoWay {start sep stop : Line} {left right : List Line} :
      markOf start = .start → (∀ line ∈ left, markOf line = .plain) → markOf sep = .sep →
      (∀ line ∈ right, markOf line = .plain) → markOf stop = .stop →
      IsBlock (start :: (left ++ sep :: (right ++ [stop]))) ⟨[], left, right⟩
  | threeWay {start bar sep stop : Line} {left base right : List Line} :
      markOf start = .start → (∀ line ∈ left, markOf line = .plain) → markOf bar = .base →
      (∀ line ∈ base, markOf line = .plain) → markOf sep = .sep →
      (∀ line ∈ right, markOf line = .plain) → markOf stop = .stop →
      IsBlock (start :: (left ++ bar :: (base ++ sep :: (right ++ [stop])))) ⟨base, left, right⟩

/-- The lines behind a first line that is this marker. -/
def behind (m : Mark) : List Line → Option (List Line)
  | [] => none
  | line :: rest => if markOf line = m then some rest else none

/-- The end of a block from its separator on. -/
def closeAt (left base : List Line) (lines : List Line) : Option Conflict := do
  let rest ← behind .sep lines
  let _ ← behind .stop (rest.dropWhile isPlain)
  some ⟨base, left, rest.takeWhile isPlain⟩

/-- The well-formed block the lines begin with. -/
def blockAt (lines : List Line) : Option Conflict := do
  let rest ← behind .start lines
  let left := rest.takeWhile isPlain
  match behind .base (rest.dropWhile isPlain) with
  | some rest => closeAt left (rest.takeWhile isPlain) (rest.dropWhile isPlain)
  | none => closeAt left [] (rest.dropWhile isPlain)

/-- The well-formed blocks of the lines, in order. -/
def blocks (lines : List Line) : List Conflict := lines.tails.filterMap blockAt

/-! ## Where the parser returns them -/

/-- The base markers and separators among the lines. -/
def dividers (lines : List Line) : List Mark :=
  (lines.map markOf).filter fun m => m == .base || m == .sep

/-- At most one base marker and at most one separator behind it. -/
def InOrder (lines : List Line) : Prop := (dividers lines).Sublist [.base, .sep]

/-- A block that a divider out of order breaks off before any end marker. -/
inductive Broken : List Line → Prop where
  | mk {start last : Line} {inner : List Line} :
      markOf start = .start → (∀ line ∈ inner ++ [last], markOf line ≠ .stop) → InOrder inner →
      ¬ InOrder (inner ++ [last]) → Broken (start :: (inner ++ [last]))

/-- Lines outside of blocks, well-formed blocks, broken blocks with no well-formed block beginning
    in them, and at the end maybe a block without an end marker. -/
inductive Readable : List Line → Prop where
  | nil : Readable []
  | outside {line : Line} {rest : List Line} :
      markOf line ≠ .start → Readable rest → Readable (line :: rest)
  | block {lines rest : List Line} {c : Conflict} :
      IsBlock lines c → Readable rest → Readable (lines ++ rest)
  | broken {lines rest : List Line} :
      Broken lines → (∀ within, within <:+ lines → within ≠ [] → blockAt (within ++ rest) = none) →
      Readable rest → Readable (lines ++ rest)
  | unterminated {start : Line} {lines : List Line} :
      markOf start = .start → (∀ line ∈ lines, markOf line ≠ .stop) → InOrder lines →
      Readable (start :: lines)

/-- Up to every line, the conflicts returned are the well-formed blocks that have ended. -/
def ReturnsBlocks (lines : List Line) : Prop :=
  ∀ front, front <+: lines → diff3Loop front none = blocks front

/-! ## One line of the parser -/

section

variable {line start stop : Line} {lines rest front inner : List Line} {c : Conflict} {b : Diff3Block} {m : Mark}

theorem take_of_isMarker {sigil : Line} (h : isMarker line sigil = true) : line.take sigil.length = sigil := by
  unfold isMarker at h
  rw [Bool.or_eq_true, Bool.and_eq_true, beq_iff_eq] at h
  cases h with
  | inl heq => rw [heq, List.take_length]
  | inr hlabel =>
      have hprefix : sigil <+: line := List.isPrefixOf_iff_prefix.mp hlabel.1
      exact (List.prefix_iff_eq_take.mp hprefix).symm

theorem sigil_length (hm : m ≠ .plain) : m.sigil.length = 7 := by
  cases m with
  | plain => exact absurd rfl hm
  | _ => decide

theorem sigil_injective (n : Mark) (h : m.sigil = n.sigil) : m = n := by
  cases m <;> cases n <;> first | rfl | exact absurd h (by decide)

/-- A line is one marker at most. -/
theorem isMarker_other {n : Mark} (hm : m ≠ .plain) (hn : n ≠ .plain) (hne : m ≠ n)
    (h : isMarker line m.sigil = true) : isMarker line n.sigil = false := by
  cases hother : isMarker line n.sigil with
  | false => rfl
  | true =>
      have heq : m.sigil = n.sigil := by
        rw [← take_of_isMarker h, ← take_of_isMarker hother, sigil_length hm, sigil_length hn]
      exact absurd (sigil_injective n heq) hne

theorem markOf_eq : markOf line =
    if isMarker line Mark.start.sigil then .start
    else if isMarker line Mark.base.sigil then .base
    else if isMarker line Mark.sep.sigil then .sep
    else if isMarker line Mark.stop.sigil then .stop
    else .plain := rfl

theorem markOf_of_isMarker (hm : m ≠ .plain) (h : isMarker line m.sigil = true) : markOf line = m := by
  have hother : ∀ n : Mark, n ≠ .plain → m ≠ n → isMarker line n.sigil = false :=
    fun n hn hne => isMarker_other hm hn hne h
  rw [markOf_eq]
  cases m with
  | start => simp only [h, if_true]
  | base => simp [h, hother .start]
  | sep => simp [h, hother .start, hother .base]
  | stop => simp [h, hother .start, hother .base, hother .sep]
  | plain => exact absurd rfl hm

theorem isMarker_of_markOf (hm : m ≠ .plain) (h : markOf line = m) : isMarker line m.sigil = true := by
  subst h
  rw [markOf_eq] at hm ⊢
  split
  · assumption
  · split
    · assumption
    · split
      · assumption
      · split
        · assumption
        · simp_all

/-- A test of the parser, by what the line is. -/
theorem isMarker_sigil (hm : m ≠ .plain) : isMarker line m.sigil = (markOf line == m) := by
  rw [Bool.eq_iff_iff, beq_iff_eq]
  exact ⟨markOf_of_isMarker hm, isMarker_of_markOf hm⟩

theorem loop_outside (h : markOf line ≠ .start) : diff3Loop (line :: rest) none = diff3Loop rest none := by
  have hloop : diff3Loop (line :: rest) none =
      if isMarker line Mark.start.sigil then diff3Loop rest (some ⟨.left, [], [], []⟩)
      else diff3Loop rest none := rfl
  rw [hloop, isMarker_sigil (by decide), beq_eq_false_iff_ne.mpr h]
  rfl

/-- A block just entered. -/
def entered : Diff3Block := ⟨.left, [], [], []⟩

theorem loop_start (h : markOf line = .start) :
    diff3Loop (line :: rest) none = diff3Loop rest (some entered) := by
  have hloop : diff3Loop (line :: rest) none =
      if isMarker line Mark.start.sigil then diff3Loop rest (some ⟨.left, [], [], []⟩)
      else diff3Loop rest none := rfl
  rw [hloop, isMarker_of_markOf (by decide) h, if_pos rfl]
  rfl

/-- The dividers a block may still have. -/
def allowed : Diff3Section → List Mark
  | .left => [.base, .sep]
  | .base => [.sep]
  | .right => []

/-- A block behind one more of its lines. -/
def readLine (b : Diff3Block) (line : Line) : Diff3Block :=
  match markOf line with
  | .base => { b with current := .base }
  | .sep => { b with current := .right }
  | _ =>
      match b.current with
      | .left => { b with left := b.left ++ [line] }
      | .base => { b with base := b.base ++ [line] }
      | .right => { b with right := b.right ++ [line] }

/-- The parser inside a block, by what the line is. -/
theorem loop_inside : diff3Loop (line :: rest) (some b) =
    if markOf line = .stop then ⟨b.base, b.left, b.right⟩ :: diff3Loop rest none
    else if (dividers [line]).Sublist (allowed b.current) then diff3Loop rest (some (readLine b line))
    else diff3Loop rest none := by
  have hbase : isMarker line "|||||||".toList = (markOf line == .base) := isMarker_sigil (m := .base) (by decide)
  have hsep : isMarker line "=======".toList = (markOf line == .sep) := isMarker_sigil (m := .sep) (by decide)
  have hstop : isMarker line ">>>>>>>".toList = (markOf line == .stop) := isMarker_sigil (m := .stop) (by decide)
  have hdividers : dividers [line] = [markOf line].filter fun m => m == .base || m == .sep := rfl
  rw [diff3Loop, hbase, hsep, hstop, hdividers, readLine]
  cases markOf line <;> cases b.current <;> simp [allowed]

theorem loop_stop (h : markOf line = .stop) :
    diff3Loop (line :: rest) (some b) = ⟨b.base, b.left, b.right⟩ :: diff3Loop rest none := by
  rw [loop_inside, if_pos h]

/-! ## The lines of one block -/

theorem dividers_append (lines rest : List Line) : dividers (lines ++ rest) = dividers lines ++ dividers rest := by
  unfold dividers
  rw [List.map_append, List.filter_append]

theorem dividers_cons (line : Line) (rest : List Line) : dividers (line :: rest) = dividers [line] ++ dividers rest :=
  dividers_append [line] rest

theorem dividers_eq_nil (h : ∀ line ∈ lines, markOf line = .plain) : dividers lines = [] := by
  apply List.filter_eq_nil_iff.mpr
  intro m hm
  obtain ⟨line, hline, rfl⟩ := List.mem_map.mp hm
  rw [h line hline]
  decide

/-- What the next line leaves for the lines behind it. -/
theorem sublist_allowed_cons : (dividers (line :: rest)).Sublist (allowed b.current) ↔
    (dividers [line]).Sublist (allowed b.current) ∧
      (dividers rest).Sublist (allowed (readLine b line).current) := by
  have hone : dividers [line] = [markOf line].filter fun m => m == .base || m == .sep := rfl
  rw [dividers_cons, hone, readLine]
  cases markOf line <;> cases b.current <;> simp [allowed, List.cons_sublist_cons']

theorem sublist_allowed_append : (dividers (inner ++ rest)).Sublist (allowed b.current) ↔
    (dividers inner).Sublist (allowed b.current) ∧
      (dividers rest).Sublist (allowed (inner.foldl readLine b).current) := by
  induction inner generalizing b with
  | nil => simp [dividers]
  | cons line inner ih =>
      rw [List.cons_append, sublist_allowed_cons, ih, ← and_assoc, ← sublist_allowed_cons]
      rfl

theorem loop_inner (hstop : ∀ line ∈ inner, markOf line ≠ .stop)
    (horder : (dividers inner).Sublist (allowed b.current)) :
    diff3Loop (inner ++ rest) (some b) = diff3Loop rest (some (inner.foldl readLine b)) := by
  induction inner generalizing b with
  | nil => rfl
  | cons line inner ih =>
      obtain ⟨hline, hinner⟩ := sublist_allowed_cons.mp horder
      have hne : markOf line ≠ .stop := hstop line List.mem_cons_self
      rw [List.cons_append, loop_inside, if_neg hne, if_pos hline]
      exact ih (fun l hl => hstop l (List.mem_cons_of_mem line hl)) hinner

/-- The conflict of a block as far as it has been read. -/
def conflictOf (b : Diff3Block) : Conflict := ⟨b.base, b.left, b.right⟩

/-- An end marker closes a block that has come to it with its dividers in order. -/
theorem loop_closed (hstart : markOf start = .start) (hinner : ∀ line ∈ inner, markOf line ≠ .stop)
    (horder : InOrder inner) (hstop : markOf stop = .stop) :
    diff3Loop (start :: (inner ++ stop :: rest)) none =
      conflictOf (inner.foldl readLine entered) :: diff3Loop rest none := by
  rw [loop_start hstart, loop_inner (b := entered) hinner horder, loop_stop hstop]
  rfl

theorem loop_broken (h : Broken lines) : diff3Loop (lines ++ rest) none = diff3Loop rest none := by
  cases h with
  | @mk start last inner hstart hstop horder hbreak =>
      have hinner : ∀ line ∈ inner, markOf line ≠ .stop :=
        fun line hline => hstop line (List.mem_append_left _ hline)
      have hlast : markOf last ≠ .stop := hstop last (List.mem_append_right _ List.mem_cons_self)
      -- the divider that breaks the block is not allowed behind the lines before it
      have hnot : ¬ (dividers [last]).Sublist (allowed (inner.foldl readLine entered).current) :=
        fun hsub => hbreak ((sublist_allowed_append (b := entered)).mpr ⟨horder, hsub⟩)
      rw [List.cons_append, List.append_assoc, loop_start hstart, loop_inner (b := entered) hinner horder,
        List.singleton_append, loop_inside, if_neg hlast]
      exact if_neg hnot

/-- A block with more lines in the section it is in. -/
def withLines (b : Diff3Block) (lines : List Line) : Diff3Block :=
  match b.current with
  | .left => { b with left := b.left ++ lines }
  | .base => { b with base := b.base ++ lines }
  | .right => { b with right := b.right ++ lines }

theorem foldl_readLine_plain (h : ∀ line ∈ lines, markOf line = .plain) :
    lines.foldl readLine b = withLines b lines := by
  induction lines generalizing b with
  | nil =>
      unfold withLines
      cases b with
      | mk current left base right => cases current <;> simp
  | cons line lines ih =>
      rw [List.foldl_cons, ih fun l hl => h l (List.mem_cons_of_mem line hl)]
      unfold readLine withLines
      rw [h line List.mem_cons_self]
      cases b.current <;> simp

theorem not_delimiter_of_plain (h : ∀ line ∈ lines, markOf line = .plain) :
    ∀ line ∈ lines, markOf line ≠ .start ∧ markOf line ≠ .stop := by
  intro line hline
  rw [h line hline]
  decide

/-- A well-formed block by its delimiters, and what the parser makes of the lines between them. -/
theorem parts_of_isBlock (h : IsBlock lines c) : ∃ start inner stop, lines = start :: (inner ++ [stop]) ∧
    markOf start = .start ∧ markOf stop = .stop ∧
    (∀ line ∈ inner, markOf line ≠ .start ∧ markOf line ≠ .stop) ∧ InOrder inner ∧
    conflictOf (inner.foldl readLine entered) = c := by
  cases h with
  | @twoWay start sep stop left right hstart hleft hsep hright hstop =>
      refine ⟨start, left ++ sep :: right, stop, by simp, hstart, hstop, ?_, ?_, ?_⟩
      -- a separator ends no block, and nor does a plain line
      · have hmark : markOf sep ≠ .start ∧ markOf sep ≠ .stop := by
          rw [hsep]
          decide
        exact List.forall_mem_append.mpr ⟨not_delimiter_of_plain hleft,
          List.forall_mem_cons.mpr ⟨hmark, not_delimiter_of_plain hright⟩⟩
      · have hdividers : dividers (left ++ sep :: right) = [.sep] := by
          rw [dividers_append, dividers_eq_nil hleft, dividers_cons, dividers_eq_nil hright]
          simp [dividers, hsep]
        unfold InOrder
        rw [hdividers]
        decide
      · rw [List.foldl_append, foldl_readLine_plain hleft, List.foldl_cons, foldl_readLine_plain hright]
        simp [conflictOf, withLines, readLine, entered, hsep]
  | @threeWay start bar sep stop left base right hstart hleft hbar hbase hsep hright hstop =>
      refine ⟨start, left ++ bar :: (base ++ sep :: right), stop, by simp, hstart, hstop, ?_, ?_, ?_⟩
      · have hmark : markOf bar ≠ .start ∧ markOf bar ≠ .stop := by
          rw [hbar]
          decide
        have hmark' : markOf sep ≠ .start ∧ markOf sep ≠ .stop := by
          rw [hsep]
          decide
        have hbehind := List.forall_mem_append.mpr ⟨not_delimiter_of_plain hbase,
          List.forall_mem_cons.mpr ⟨hmark', not_delimiter_of_plain hright⟩⟩
        exact List.forall_mem_append.mpr ⟨not_delimiter_of_plain hleft,
          List.forall_mem_cons.mpr ⟨hmark, hbehind⟩⟩
      · have hdividers : dividers (left ++ bar :: (base ++ sep :: right)) = [.base, .sep] := by
          rw [dividers_append, dividers_eq_nil hleft, dividers_cons bar, dividers_append,
            dividers_eq_nil hbase, dividers_cons sep, dividers_eq_nil hright]
          simp [dividers, hsep, hbar]
        unfold InOrder
        rw [hdividers]
      · rw [List.foldl_append, foldl_readLine_plain hleft, List.foldl_cons, List.foldl_append,
          foldl_readLine_plain hbase, List.foldl_cons, foldl_readLine_plain hright]
        simp [conflictOf, withLines, readLine, entered, hsep, hbar]

theorem loop_block (h : IsBlock lines c) : diff3Loop (lines ++ rest) none = c :: diff3Loop rest none := by
  obtain ⟨start, inner, stop, rfl, hstart, hstop, hinner, horder, rfl⟩ := parts_of_isBlock h
  rw [List.cons_append, List.append_assoc, List.singleton_append]
  exact loop_closed hstart (fun line hline => (hinner line hline).2) horder hstop

/-- Every line between the markers of a well-formed block is plain. -/
theorem plain_of_isBlock (h : IsBlock lines c) (hline : line ∈ c.left ++ c.base ++ c.right) :
    markOf line = .plain := by
  cases h with
  | twoWay _ hleft _ hright _ =>
      simp only [List.append_nil, List.mem_append] at hline
      exact hline.elim (hleft line) (hright line)
  | threeWay _ hleft _ hbase _ hright _ =>
      simp only [List.mem_append] at hline
      exact hline.elim (fun h => h.elim (hleft line) (hbase line)) (hright line)

/-- The lines a block has been given. -/
def held (b : Diff3Block) : List Line := b.left ++ b.base ++ b.right

theorem held_readLine (h : line ∈ held b) (next : Line) : line ∈ held (readLine b next) := by
  unfold held at h
  unfold held readLine
  simp only [List.mem_append] at h
  cases markOf next <;> cases b.current <;> simp <;> grind

theorem held_foldl (h : line ∈ held b) (lines : List Line) : line ∈ held (lines.foldl readLine b) := by
  induction lines generalizing b with
  | nil => exact h
  | cons next lines ih => exact ih (held_readLine h next)

/-- A start marker inside a block is one of its lines. -/
theorem start_mem_held (h : line ∈ inner) (hstart : markOf line = .start) :
    line ∈ held (inner.foldl readLine b) := by
  induction inner generalizing b with
  | nil => exact absurd h List.not_mem_nil
  | cons next inner ih =>
      cases List.mem_cons.mp h with
      | inr hinner => exact ih hinner
      | inl heq =>
          subst heq
          have hread : line ∈ held (readLine b line) := by
            unfold held readLine
            rw [hstart]
            cases b.current <;> simp
          exact held_foldl hread inner

/-! ## The blocks of the lines -/

theorem behind_eq_some : behind m lines = some rest ↔ ∃ line, lines = line :: rest ∧ markOf line = m := by
  cases lines with
  | nil => simp [behind]
  | cons line lines =>
      simp only [behind, Option.ite_none_right_eq_some, Option.some.injEq, List.cons.injEq]
      constructor
      · rintro ⟨hmark, rfl⟩
        exact ⟨line, ⟨rfl, rfl⟩, hmark⟩
      · rintro ⟨_, ⟨rfl, rfl⟩, hmark⟩
        exact ⟨hmark, rfl⟩

theorem plain_takeWhile (lines : List Line) (h : line ∈ lines.takeWhile isPlain) : markOf line = .plain :=
  beq_iff_eq.mp (List.all_eq_true.mp List.all_takeWhile line h)

/-- Plain lines up to a marker. -/
theorem split_plain (h : ∀ l ∈ lines, markOf l = .plain) (hline : markOf line ≠ .plain) (rest : List Line) :
    (lines ++ line :: rest).takeWhile isPlain = lines ∧
      (lines ++ line :: rest).dropWhile isPlain = line :: rest := by
  have hplain : ∀ l ∈ lines, isPlain l = true := fun l hl => beq_iff_eq.mpr (h l hl)
  have hmarker : isPlain line = false := beq_eq_false_iff_ne.mpr hline
  rw [List.takeWhile_append_of_pos hplain, List.dropWhile_append_of_pos hplain, List.takeWhile_cons,
    List.dropWhile_cons, hmarker]
  exact ⟨List.append_nil lines, rfl⟩

theorem closeAt_eq_some {left base : List Line} : closeAt left base lines = some c ↔
    ∃ sep right stop rest, lines = sep :: (right ++ stop :: rest) ∧ markOf sep = .sep ∧
      (∀ line ∈ right, markOf line = .plain) ∧ markOf stop = .stop ∧ c = ⟨base, left, right⟩ := by
  constructor
  · intro h
    obtain ⟨rest, hrest, h⟩ := Option.bind_eq_some_iff.mp h
    obtain ⟨tail, htail, hc⟩ := Option.bind_eq_some_iff.mp h
    obtain ⟨sep, rfl, hsep⟩ := behind_eq_some.mp hrest
    obtain ⟨stop, hdrop, hstop⟩ := behind_eq_some.mp htail
    refine ⟨sep, rest.takeWhile isPlain, stop, tail, ?_, hsep, fun l hl => plain_takeWhile rest hl, hstop,
      (Option.some.inj hc).symm⟩
    rw [← hdrop, List.takeWhile_append_dropWhile]
  · rintro ⟨sep, right, stop, rest, rfl, hsep, hright, hstop, rfl⟩
    have hne : markOf stop ≠ .plain := by
      rw [hstop]
      decide
    obtain ⟨htake, hdrop⟩ := split_plain hright hne rest
    unfold closeAt
    rw [behind_eq_some.mpr ⟨sep, rfl, hsep⟩, Option.bind_eq_bind, Option.bind_some, hdrop,
      behind_eq_some.mpr ⟨stop, rfl, hstop⟩, htake]
    rfl

/-- A start marker and plain lines, up to a base marker. -/
theorem blockAt_base {left : List Line} (hstart : markOf start = .start)
    (hleft : ∀ l ∈ left, markOf l = .plain) (hline : markOf line = .base) :
    blockAt (start :: (left ++ line :: rest)) = closeAt left (rest.takeWhile isPlain) (rest.dropWhile isPlain) := by
  have hne : markOf line ≠ .plain := by
    rw [hline]
    decide
  obtain ⟨htake, hdrop⟩ := split_plain hleft hne rest
  unfold blockAt
  rw [behind_eq_some.mpr ⟨start, rfl, hstart⟩, Option.bind_eq_bind, Option.bind_some]
  dsimp only
  rw [htake, hdrop, behind_eq_some.mpr ⟨line, rfl, hline⟩]

/-- A start marker and plain lines, up to another marker. -/
theorem blockAt_marker {left : List Line} (hstart : markOf start = .start)
    (hleft : ∀ l ∈ left, markOf l = .plain) (hne : markOf line ≠ .plain) (hline : markOf line ≠ .base) :
    blockAt (start :: (left ++ line :: rest)) = closeAt left [] (line :: rest) := by
  obtain ⟨htake, hdrop⟩ := split_plain hleft hne rest
  have hnone : behind .base (line :: rest) = none := if_neg hline
  unfold blockAt
  rw [behind_eq_some.mpr ⟨start, rfl, hstart⟩, Option.bind_eq_bind, Option.bind_some]
  dsimp only
  rw [htake, hdrop, hnone]

theorem blockAt_of_isBlock {block : List Line} (h : IsBlock block c) (rest : List Line) :
    blockAt (block ++ rest) = some c := by
  cases h with
  | @twoWay start sep stop left right hstart hleft hsep hright hstop =>
      have hlines : start :: (left ++ sep :: (right ++ [stop])) ++ rest =
          start :: (left ++ sep :: (right ++ stop :: rest)) := by simp
      have hmark : markOf sep ≠ .plain ∧ markOf sep ≠ .base := by
        rw [hsep]
        decide
      rw [hlines, blockAt_marker hstart hleft hmark.1 hmark.2]
      exact closeAt_eq_some.mpr ⟨sep, right, stop, rest, rfl, hsep, hright, hstop, rfl⟩
  | @threeWay start bar sep stop left base right hstart hleft hbar hbase hsep hright hstop =>
      have hlines : start :: (left ++ bar :: (base ++ sep :: (right ++ [stop]))) ++ rest =
          start :: (left ++ bar :: (base ++ sep :: (right ++ stop :: rest))) := by simp
      have hne : markOf sep ≠ .plain := by
        rw [hsep]
        decide
      obtain ⟨htake, hdrop⟩ := split_plain hbase hne (right ++ stop :: rest)
      rw [hlines, blockAt_base hstart hleft hbar, htake, hdrop]
      exact closeAt_eq_some.mpr ⟨sep, right, stop, rest, rfl, hsep, hright, hstop, rfl⟩

theorem exists_isBlock (h : blockAt lines = some c) : ∃ block rest, lines = block ++ rest ∧ IsBlock block c := by
  obtain ⟨rest, hrest, hblock⟩ := Option.bind_eq_some_iff.mp h
  obtain ⟨start, rfl, hstart⟩ := behind_eq_some.mp hrest
  have hleft : ∀ l ∈ rest.takeWhile isPlain, markOf l = .plain := fun l hl => plain_takeWhile rest hl
  have hsplit : rest.takeWhile isPlain ++ rest.dropWhile isPlain = rest := List.takeWhile_append_dropWhile
  dsimp only at hblock
  cases hbar : behind .base (rest.dropWhile isPlain) with
  | none =>
      rw [hbar] at hblock
      obtain ⟨sep, right, stop, tail, hclose, hsep, hright, hstop, rfl⟩ := closeAt_eq_some.mp hblock
      refine ⟨_, tail, ?_, .twoWay hstart hleft hsep hright hstop⟩
      rw [hclose] at hsplit
      conv_lhs => rw [← hsplit]
      simp only [List.cons_append, List.append_assoc, List.nil_append]
  | some tail =>
      rw [hbar] at hblock
      obtain ⟨bar, hdrop, hmark⟩ := behind_eq_some.mp hbar
      obtain ⟨sep, right, stop, rest', hclose, hsep, hright, hstop, rfl⟩ := closeAt_eq_some.mp hblock
      have hbase : ∀ l ∈ tail.takeWhile isPlain, markOf l = .plain := fun l hl => plain_takeWhile tail hl
      have htail : tail.takeWhile isPlain ++ tail.dropWhile isPlain = tail := List.takeWhile_append_dropWhile
      refine ⟨_, rest', ?_, .threeWay hstart hleft hmark hbase hsep hright hstop⟩
      rw [hclose] at htail
      rw [hdrop, ← htail] at hsplit
      conv_lhs => rw [← hsplit]
      simp only [List.cons_append, List.append_assoc, List.nil_append]

/-- The lines begin with a well-formed block exactly where it is found. -/
theorem blockAt_eq_some : blockAt lines = some c ↔ ∃ block rest, lines = block ++ rest ∧ IsBlock block c := by
  constructor
  · exact exists_isBlock
  · rintro ⟨block, rest, rfl, hblock⟩
    exact blockAt_of_isBlock hblock rest

theorem blockAt_append (h : blockAt lines = some c) (rest : List Line) : blockAt (lines ++ rest) = some c := by
  obtain ⟨block, more, rfl, hblock⟩ := blockAt_eq_some.mp h
  exact blockAt_eq_some.mpr ⟨block, more ++ rest, List.append_assoc block more rest, hblock⟩

theorem blockAt_outside (h : markOf line ≠ .start) : blockAt (line :: rest) = none := by
  have hbehind : behind .start (line :: rest) = none := if_neg h
  unfold blockAt
  rw [hbehind]
  rfl

theorem blocks_cons (line : Line) (rest : List Line) :
    blocks (line :: rest) = (blockAt (line :: rest)).toList ++ blocks rest := by
  unfold blocks
  rw [List.tails_cons, List.filterMap_cons]
  cases blockAt (line :: rest) <;> rfl

theorem mem_blocks : c ∈ blocks lines ↔ ∃ within, within <:+ lines ∧ blockAt within = some c := by
  simp only [blocks, List.mem_filterMap, List.mem_tails]

/-- Lines that no block begins in have no part in the blocks. -/
theorem blocks_append (h : ∀ within, within <:+ lines → within ≠ [] → blockAt (within ++ rest) = none) :
    blocks (lines ++ rest) = blocks rest := by
  induction lines with
  | nil => rfl
  | cons line lines ih =>
      have hhead : blockAt (line :: (lines ++ rest)) = none :=
        h (line :: lines) List.suffix_rfl (List.cons_ne_nil line lines)
      rw [List.cons_append, blocks_cons, hhead]
      exact ih fun within hwithin => h within (hwithin.trans (List.suffix_cons line lines))

theorem blockAt_of_not_start (h : ∀ line ∈ lines, markOf line ≠ .start) (hne : lines ≠ []) :
    blockAt (lines ++ rest) = none := by
  cases lines with
  | nil => exact absurd rfl hne
  | cons line lines => exact blockAt_outside (h line List.mem_cons_self)

theorem not_start_concat (h : ∀ line ∈ lines, markOf line ≠ .start) (hstop : markOf stop = .stop) :
    ∀ line ∈ lines ++ [stop], markOf line ≠ .start := by
  have hlast : markOf stop ≠ .start := by
    rw [hstop]
    decide
  exact List.forall_mem_append.mpr ⟨h, List.forall_mem_singleton.mpr hlast⟩

theorem blocks_append_block (h : IsBlock lines c) : blocks (lines ++ rest) = c :: blocks rest := by
  have hhead : blockAt (lines ++ rest) = some c := blockAt_eq_some.mpr ⟨lines, rest, rfl, h⟩
  obtain ⟨start, inner, stop, rfl, hstart, hstop, hinner, _, _⟩ := parts_of_isBlock h
  have hlines : start :: (inner ++ [stop]) ++ rest = start :: ((inner ++ [stop]) ++ rest) := rfl
  have htail := not_start_concat (fun line hline => (hinner line hline).1) hstop
  have hrest : blocks ((inner ++ [stop]) ++ rest) = blocks rest := by
    apply blocks_append
    intro within hwithin hne
    exact blockAt_of_not_start (fun line hline => htail line (hwithin.subset hline)) hne
  rw [hlines] at hhead ⊢
  rw [blocks_cons, hhead, hrest]
  rfl

/-- Lines without an end marker have no block and give no conflict. -/
theorem quiet (h : ∀ line ∈ lines, markOf line ≠ .stop) :
    (∀ state, diff3Loop lines state = []) ∧ blocks lines = [] := by
  constructor
  · induction lines with
    | nil =>
        intro state
        cases state <;> rfl
    | cons line lines ih =>
        have hlines := ih fun l hl => h l (List.mem_cons_of_mem line hl)
        have hline : markOf line ≠ .stop := h line List.mem_cons_self
        intro state
        cases state with
        | none =>
            by_cases hstart : markOf line = .start
            · rw [loop_start hstart, hlines]
            · rw [loop_outside hstart, hlines]
        | some b => rw [loop_inside, if_neg hline, hlines, hlines, ite_self]
  · apply List.eq_nil_iff_forall_not_mem.mpr
    intro c hc
    obtain ⟨within, hwithin, hat⟩ := mem_blocks.mp hc
    obtain ⟨block, rest, rfl, hblock⟩ := blockAt_eq_some.mp hat
    obtain ⟨start, inner, stop, rfl, _, hstop, _⟩ := parts_of_isBlock hblock
    exact h stop (hwithin.subset (by simp)) hstop

/-! ## The parser and the blocks -/

theorem prefix_append_cases {α : Type} {front xs ys : List α} (h : front <+: xs ++ ys) :
    front <+: xs ∨ ∃ more, front = xs ++ more ∧ more <+: ys := by
  cases List.prefix_or_prefix_of_prefix h (List.prefix_append xs ys) with
  | inl hshort => exact .inl hshort
  | inr hlong =>
      obtain ⟨more, rfl⟩ := hlong
      exact .inr ⟨more, rfl, (List.prefix_append_right_inj xs).mp h⟩

theorem returnsBlocks_of_quiet (h : ∀ line ∈ lines, markOf line ≠ .stop) : ReturnsBlocks lines := by
  intro front hfront
  obtain ⟨hloop, hblocks⟩ := quiet fun line hline => h line (hfront.subset hline)
  rw [hloop, hblocks]

/-- What begins no block with all of the lines behind it begins none with fewer of them. -/
theorem not_within_front
    (h : ∀ within, within <:+ lines → within ≠ [] → blockAt (within ++ rest) = none) (hfront : front <+: rest) :
    ∀ within, within <:+ lines → within ≠ [] → blockAt (within ++ front) = none := by
  intro within hwithin hne
  apply Option.eq_none_iff_forall_ne_some.mpr
  intro c hc
  obtain ⟨tail, rfl⟩ := hfront
  have hlong := blockAt_append hc tail
  rw [List.append_assoc, h within hwithin hne] at hlong
  cases hlong

theorem not_stop_cons (hstart : markOf start = .start) (h : ∀ line ∈ lines, markOf line ≠ .stop) :
    ∀ line ∈ start :: lines, markOf line ≠ .stop := by
  have hfirst : markOf start ≠ .stop := by
    rw [hstart]
    decide
  exact List.forall_mem_cons.mpr ⟨hfirst, h⟩

/-- A line outside has no part in the blocks, nor in what is returned. -/
theorem returnsBlocks_outside (h : markOf line ≠ .start) :
    ReturnsBlocks (line :: rest) ↔ ReturnsBlocks rest := by
  constructor
  · intro hlines front hfront
    have hreturned := hlines (line :: front) (List.cons_prefix_cons.mpr ⟨rfl, hfront⟩)
    rw [loop_outside h, blocks_cons, blockAt_outside h] at hreturned
    exact hreturned
  · intro hrest front hfront
    rcases List.prefix_cons_iff.mp hfront with rfl | ⟨more, rfl, hmore⟩
    · rfl
    · rw [loop_outside h, blocks_cons, blockAt_outside h]
      exact hrest more hmore

/-- A well-formed block is one of the blocks, and is returned. -/
theorem returnsBlocks_block (h : IsBlock lines c) : ReturnsBlocks (lines ++ rest) ↔ ReturnsBlocks rest := by
  constructor
  · intro hlines front hfront
    have hreturned := hlines (lines ++ front) ((List.prefix_append_right_inj lines).mpr hfront)
    rw [loop_block h, blocks_append_block h] at hreturned
    exact (List.cons.inj hreturned).2
  · intro hrest front hfront
    obtain ⟨start, inner, stop, rfl, hstart, _, hinner, _, _⟩ := parts_of_isBlock h
    -- up to its end marker a block gives nothing
    have hquiet := not_stop_cons hstart fun line hline => (hinner line hline).2
    rw [← List.cons_append, List.append_assoc] at hfront
    rcases prefix_append_cases hfront with hshort | ⟨more, rfl, hmore⟩
    · exact returnsBlocks_of_quiet hquiet front hshort
    · rcases List.prefix_cons_iff.mp hmore with rfl | ⟨behind, rfl, hbehind⟩
      · rw [List.append_nil]
        exact returnsBlocks_of_quiet hquiet _ List.prefix_rfl
      · have hfront : (start :: inner) ++ stop :: behind = start :: (inner ++ [stop]) ++ behind := by simp
        rw [hfront, loop_block h, blocks_append_block h, hrest behind hbehind]

/-- A broken block that no well-formed block begins in gives nothing. -/
theorem returnsBlocks_broken (h : Broken lines)
    (hwithin : ∀ within, within <:+ lines → within ≠ [] → blockAt (within ++ rest) = none) :
    ReturnsBlocks (lines ++ rest) ↔ ReturnsBlocks rest := by
  constructor
  · intro hlines front hfront
    have hreturned := hlines (lines ++ front) ((List.prefix_append_right_inj lines).mpr hfront)
    rw [loop_broken h, blocks_append (not_within_front hwithin hfront)] at hreturned
    exact hreturned
  · intro hrest front hfront
    rcases prefix_append_cases hfront with hshort | ⟨more, rfl, hmore⟩
    · cases h with
      | mk hstart hstop _ _ => exact returnsBlocks_of_quiet (not_stop_cons hstart hstop) front hshort
    · rw [loop_broken h, blocks_append (not_within_front hwithin hmore), hrest more hmore]

theorem returnsBlocks_of_readable (h : Readable lines) : ReturnsBlocks lines := by
  induction h with
  | nil => exact returnsBlocks_of_quiet fun line hline => absurd hline List.not_mem_nil
  | outside hline _ ih => exact (returnsBlocks_outside hline).mpr ih
  | block hblock _ ih => exact (returnsBlocks_block hblock).mpr ih
  | broken hbroken hwithin _ ih => exact (returnsBlocks_broken hbroken hwithin).mpr ih
  | unterminated hstart hstop _ => exact returnsBlocks_of_quiet (not_stop_cons hstart hstop)

/-- The lines up to the first one that a property of the lines so far does not survive. -/
theorem exists_break {α : Type} (p : List α → Prop) (hnil : p []) (xs : List α) :
    p xs ∨ ∃ front x rest, xs = front ++ x :: rest ∧ p front ∧ ¬ p (front ++ [x]) := by
  induction xs using List.reverseRecOn with
  | nil => exact .inl hnil
  | append_singleton xs x ih =>
      rcases ih with hxs | ⟨front, y, rest, rfl, hfront, hbreak⟩
      · by_cases hx : p (xs ++ [x])
        · exact .inl hx
        · exact .inr ⟨xs, x, [], rfl, hxs, hx⟩
      · exact .inr ⟨front, y, rest ++ [x], by simp, hfront, hbreak⟩

/-- What the parser meets behind a start marker: no end of the block, its end, or a divider that
    breaks it off. -/
theorem cases_of_start (hstart : markOf start = .start) (lines : List Line) :
    ((∀ line ∈ lines, markOf line ≠ .stop) ∧ InOrder lines) ∨
    (∃ inner stop rest, lines = inner ++ stop :: rest ∧ (∀ line ∈ inner, markOf line ≠ .stop) ∧ InOrder inner ∧
      markOf stop = .stop) ∨
    ∃ inner last rest, lines = inner ++ last :: rest ∧ Broken (start :: (inner ++ [last])) := by
  have hbreak := exists_break (fun ls => (∀ line ∈ ls, markOf line ≠ .stop) ∧ InOrder ls)
    ⟨fun line hline => absurd hline List.not_mem_nil, List.nil_sublist _⟩ lines
  rcases hbreak with hall | ⟨inner, last, rest, rfl, ⟨hinner, horder⟩, hnot⟩
  · exact .inl hall
  · by_cases hlast : markOf last = .stop
    · exact .inr (.inl ⟨inner, last, rest, rfl, hinner, horder, hlast⟩)
    · have hstops : ∀ line ∈ inner ++ [last], markOf line ≠ .stop :=
        List.forall_mem_append.mpr ⟨hinner, List.forall_mem_singleton.mpr hlast⟩
      have hbroken : Broken (start :: (inner ++ [last])) :=
        .mk hstart hstops horder fun hin => hnot ⟨hstops, hin⟩
      exact .inr (.inr ⟨inner, last, rest, rfl, hbroken⟩)

theorem loop_not_start (h : ∀ line ∈ lines, markOf line ≠ .start) : diff3Loop lines none = [] := by
  induction lines with
  | nil => rfl
  | cons line lines ih =>
      rw [loop_outside (h line List.mem_cons_self)]
      exact ih fun l hl => h l (List.mem_cons_of_mem line hl)

/-- What an end marker closes is a well-formed block, where it is returned as one. -/
theorem isBlock_of_returned (hstart : markOf start = .start) (hinner : ∀ line ∈ inner, markOf line ≠ .stop)
    (horder : InOrder inner) (hstop : markOf stop = .stop)
    (h : ReturnsBlocks (start :: (inner ++ [stop]))) : ∃ c, IsBlock (start :: (inner ++ [stop])) c := by
  have hreturned := h _ List.prefix_rfl
  rw [loop_closed hstart hinner horder hstop] at hreturned
  have hmem : conflictOf (inner.foldl readLine entered) ∈ blocks (start :: (inner ++ [stop])) := by
    rw [← hreturned]
    exact List.mem_cons_self
  obtain ⟨within, hwithin, hat⟩ := mem_blocks.mp hmem
  obtain ⟨block, rest, rfl, hblock⟩ := blockAt_eq_some.mp hat
  obtain ⟨start', inner', stop', rfl, hstart', hstop', _, _, _⟩ := parts_of_isBlock hblock
  cases List.suffix_cons_iff.mp hwithin with
  | inl heq =>
      -- no end marker stands before the last line, so the block is all of it
      cases List.eq_nil_or_concat rest with
      | inl hnil =>
          rw [hnil, List.append_nil] at heq
          rw [← heq]
          exact ⟨_, hblock⟩
      | inr hconcat =>
          obtain ⟨more, last, rfl⟩ := hconcat
          have htails : (inner' ++ stop' :: more) ++ [last] = inner ++ [stop] := by
            have := (List.cons.inj heq).2
            simpa using this
          have hshort := (List.append_inj' htails rfl).1
          have hmem : stop' ∈ inner := by
            rw [← hshort]
            exact List.mem_append_right inner' List.mem_cons_self
          exact absurd hstop' (hinner stop' hmem)
  | inr hinside =>
      -- a block inside begins with a start marker, which is a line of what was closed
      have hmem : start' ∈ inner ++ [stop] := hinside.subset (by simp)
      have hne : start' ≠ stop := by
        intro heq
        rw [heq, hstop] at hstart'
        cases hstart'
      have hmem' : start' ∈ inner :=
        (List.mem_append.mp hmem).resolve_right fun h => hne (List.mem_singleton.mp h)
      have hheld : start' ∈ held (inner.foldl readLine entered) := start_mem_held hmem' hstart'
      rw [plain_of_isBlock hblock hheld] at hstart'
      cases hstart'

/-- No well-formed block begins in a broken one, where the blocks are returned. -/
theorem not_within_of_returned (hbroken : Broken lines) (h : ReturnsBlocks (lines ++ rest)) :
    ∀ within, within <:+ lines → within ≠ [] → blockAt (within ++ rest) = none := by
  intro within hwithin hne
  apply Option.eq_none_iff_forall_ne_some.mpr
  intro c hc
  obtain ⟨block, more, heq, hblock⟩ := blockAt_eq_some.mp hc
  obtain ⟨start, inner, stop, hlines, hstart, hstop, hinner, _, _⟩ := parts_of_isBlock hblock
  have hnostop : ∀ line ∈ lines, markOf line ≠ .stop := by
    cases hbroken with
    | mk hs hstops _ _ => exact not_stop_cons hs hstops
  cases List.append_eq_append_iff.mp heq with
  | inr hinside =>
      obtain ⟨tail, rfl, _⟩ := hinside
      have hmem : stop ∈ lines := hwithin.subset (by rw [hlines]; simp)
      exact hnostop stop hmem hstop
  | inl hacross =>
      obtain ⟨tail, htail, rfl⟩ := hacross
      -- behind the broken block the rest of the block gives nothing
      have hfront := h (lines ++ tail) (by rw [← List.append_assoc]; exact List.prefix_append _ more)
      have hplain : ∀ line ∈ tail, markOf line ≠ .start := by
        intro line hline
        cases within with
        | nil => exact absurd rfl hne
        | cons first within =>
            rw [hlines] at htail
            have htails := (List.cons.inj htail).2
            apply not_start_concat (fun line hline => (hinner line hline).1) hstop
            rw [htails]
            exact List.mem_append_right within hline
      rw [loop_broken hbroken, loop_not_start hplain] at hfront
      have hmem : c ∈ blocks (lines ++ tail) := by
        apply mem_blocks.mpr
        refine ⟨within ++ tail, List.suffix_append_self_iff.mpr hwithin, ?_⟩
        rw [← htail]
        exact blockAt_eq_some.mpr ⟨block, [], (List.append_nil block).symm, hblock⟩
      rw [← hfront] at hmem
      exact absurd hmem List.not_mem_nil

theorem readable_of_returnsBlocks (h : ReturnsBlocks lines) : Readable lines := by
  induction hlength : lines.length using Nat.strong_induction_on generalizing lines with
  | _ n ih =>
      subst hlength
      cases lines with
      | nil => exact .nil
      | cons start lines =>
          by_cases hstart : markOf start = .start
          · have hsplit : ∀ inner last (rest : List Line),
                start :: (inner ++ last :: rest) = start :: (inner ++ [last]) ++ rest := by simp
            have hshorter : ∀ inner last (rest : List Line),
                rest.length < (start :: (inner ++ last :: rest)).length := by
              intro inner last rest
              simp only [List.length_cons, List.length_append]
              omega
            rcases cases_of_start hstart lines with ⟨hstop, horder⟩ |
              ⟨inner, stop, rest, rfl, hinner, horder, hstop⟩ | ⟨inner, last, rest, rfl, hbroken⟩
            · exact .unterminated hstart hstop horder
            · have hrest : ReturnsBlocks rest → Readable rest :=
                fun hreturns => ih rest.length (hshorter inner stop rest) hreturns rfl
              rw [hsplit] at h ⊢
              have hblock := isBlock_of_returned hstart hinner horder hstop
                fun front hfront => h front (hfront.trans (List.prefix_append _ rest))
              obtain ⟨c, hblock⟩ := hblock
              exact .block hblock (hrest ((returnsBlocks_block hblock).mp h))
            · have hrest : ReturnsBlocks rest → Readable rest :=
                fun hreturns => ih rest.length (hshorter inner last rest) hreturns rfl
              rw [hsplit] at h ⊢
              have hwithin := not_within_of_returned hbroken h
              exact .broken hbroken hwithin (hrest ((returnsBlocks_broken hbroken hwithin).mp h))
          · have hrest : ReturnsBlocks lines → Readable lines :=
              fun hreturns => ih lines.length (Nat.lt_succ_self _) hreturns rfl
            exact .outside hstart (hrest ((returnsBlocks_outside hstart).mp h))

theorem returnsBlocks_iff : ReturnsBlocks lines ↔ Readable lines :=
  ⟨readable_of_returnsBlocks, returnsBlocks_of_readable⟩

end

end Diff3

open Diff3

/-- The conflicts of a text are its well-formed blocks where no broken block holds the beginning of
    one and an end marker only closes well-formed blocks; and up to each of its lines they are so
    for these texts only. -/
theorem parseDiff3Conflicts_blocks (text : Str) :
    (Readable (textLines text) → parseDiff3Conflicts text = blocks (textLines text)) ∧
      (ReturnsBlocks (textLines text) ↔ Readable (textLines text)) :=
  ⟨fun h => returnsBlocks_of_readable h _ List.prefix_rfl, returnsBlocks_iff⟩

/-- The conflicts the driver gives where the output of the tool is such a text. -/
theorem mergirafMerge_blocks {run : MergeInput → Except DriverError MergirafRun} {input : MergeInput}
    {out : MergirafRun} (hrun : run input = .ok out) (h : Readable (textLines out.output)) :
    mergirafMerge run input =
      .ok ⟨out.output, if out.conflicted then blocks (textLines out.output) else [], [], "mergiraf".toList⟩ := by
  have hconflicts : parseDiff3Conflicts out.output = blocks (textLines out.output) :=
    returnsBlocks_of_readable h _ List.prefix_rfl
  unfold mergirafMerge
  rw [hrun, ← hconflicts]
  rfl

/-- A block without a separator is returned, a start marker inside a block is a line of it, and a
    block broken off by a second base marker takes the block that begins in it along. -/
theorem parseDiff3Conflicts_fails :
    (parseDiff3Conflicts "<<<<<<< left\na\n>>>>>>> right\n".toList = [⟨[], ["a".toList], []⟩] ∧
      blocks (textLines "<<<<<<< left\na\n>>>>>>> right\n".toList) = []) ∧
    (parseDiff3Conflicts "<<<<<<< left\n<<<<<<< left\na\n=======\nb\n>>>>>>> right\n".toList =
        [⟨[], ["<<<<<<< left".toList, "a".toList], ["b".toList]⟩] ∧
      blocks (textLines "<<<<<<< left\n<<<<<<< left\na\n=======\nb\n>>>>>>> right\n".toList) =
        [⟨[], ["a".toList], ["b".toList]⟩]) ∧
    (parseDiff3Conflicts
        "<<<<<<< left\n|||||||\n<<<<<<< left\na\n|||||||\nb\n=======\nc\n>>>>>>> right\n".toList = [] ∧
      blocks (textLines
        "<<<<<<< left\n|||||||\n<<<<<<< left\na\n|||||||\nb\n=======\nc\n>>>>>>> right\n".toList) =
        [⟨["b".toList], ["a".toList], ["c".toList]⟩]) ∧
    ¬ ∀ text, parseDiff3Conflicts text = blocks (textLines text) :=
  ⟨by decide, by decide, by decide,
    fun h => absurd (h "<<<<<<< left\na\n>>>>>>> right\n".toList) (by decide)⟩

end Omoplata
