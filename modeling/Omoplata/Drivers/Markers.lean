-- SUMMARY: The blocks that the markers of a text make up, line by line, and where a scan finds them.
import Omoplata.Drivers.Gaps
import Omoplata.Lib.Blocks

/-!
# What the markers of a text read as

The scan for conflict values is a scan of the lines of a text for blocks. It finds a text
well formed just if its lines read as blocks, and each block it finds is made up of whole
lines that read as this block alone.

Texts that are put one behind the other read as the blocks of both where the second one
starts on a line of its own, and as those of the first where the second has no marker.
-/

namespace Omoplata

/-! ## Markers -/

/-- What a line is to the scan for conflict values. -/
def markerKind (line : Line) : Blocks.Kind :=
  let trimmed := trimStart line
  if startMarker.isPrefixOf trimmed then .start
  else if trimmed = conflictSep then .sep
  else if endMarker.isPrefixOf trimmed then .stop
  else .plain

/-- A text that reads as these blocks. -/
def ReadsAs (t : Str) (bs : List (Blocks.Block Line)) : Prop := Blocks.Reads markerKind (lines t) bs

/-- A text without a line that is a marker. -/
def Unmarked (t : Str) : Prop := ∀ line ∈ lines t, markerKind line = .plain

instance (t : Str) : Decidable (Unmarked t) :=
  inferInstanceAs (Decidable (∀ line ∈ lines t, markerKind line = .plain))

theorem Unmarked.readsAs {t : Str} (h : Unmarked t) : ReadsAs t [] := Blocks.reads_plain h

theorem markerKind_eq_plain {line : Line} : markerKind line = .plain ↔
    ¬ startMarker <+: trimStart line ∧ trimStart line ≠ conflictSep ∧ ¬ endMarker <+: trimStart line := by
  unfold markerKind
  simp only [List.isPrefixOf_iff_prefix]
  split_ifs <;> simp_all

theorem markerKind_eq_stop {line : Line} : markerKind line = .stop ↔ endMarker <+: trimStart line := by
  have hhead : ∀ rest, (endMarker ++ rest).head? = some '>' := fun rest => by
    rw [List.head?_append, show endMarker.head? = some '>' by decide, Option.some_or]
  have hstart : ∀ rest, ¬ startMarker <+: endMarker ++ rest := by
    rintro rest ⟨rest', h⟩
    have hhead' := congrArg List.head? h
    rw [hhead, List.head?_append, show startMarker.head? = some '<' by decide, Option.some_or] at hhead'
    exact absurd (Option.some.inj hhead') (by decide)
  have hsep : ∀ rest, endMarker ++ rest ≠ conflictSep := fun rest h =>
    absurd ((congrArg List.head? h).symm.trans (hhead rest)) (by decide)
  unfold markerKind
  simp only [List.isPrefixOf_iff_prefix]
  constructor
  · intro h
    split_ifs at h with _ _ hend
    exact hend
  · rintro ⟨rest, hrest⟩
    rw [← hrest, if_neg (hstart rest), if_neg (hsep rest), if_pos (List.prefix_append _ _)]

/-- A line of white space. -/
def Blank (line : Line) : Prop := ∀ c ∈ line, isWhiteSpace c = true

instance (line : Line) : Decidable (Blank line) := decidable_of_iff (line.all isWhiteSpace = true) List.all_eq_true

/-- The characters that markers are made of. -/
def markerChars : Str := "<=>".toList

/-- A text that does not go on with a marker. -/
def Unmarking (t : Str) : Prop := ∀ c ∈ t.head?, c ∉ markerChars

instance : (t : Str) → Decidable (Unmarking t)
  | [] => .isTrue (by simp [Unmarking])
  | c :: _ => decidable_of_iff (c ∉ markerChars) (by simp [Unmarking])

theorem markerKind_blank_append {x : Line} (hx : Blank x) (y : Line) : markerKind (x ++ y) = markerKind y := by
  unfold markerKind trimStart
  rw [List.dropWhile_append_of_pos hx]

theorem trimStart_cons {c : Char} (h : isWhiteSpace c = false) (s : Str) : trimStart (c :: s) = c :: s :=
  List.dropWhile_cons_of_neg (by simp [h])

theorem trimStart_append {x : Line} (hx : ¬ Blank x) (y : Line) :
    trimStart (x ++ y) = trimStart x ++ y := by
  have hne : trimStart x ≠ [] := fun hnil => hx (List.dropWhile_eq_nil_iff.mp hnil)
  unfold trimStart at *
  rw [List.dropWhile_append, if_neg (by simpa using hne)]

/-- A marker that a text goes on with is in front of it. -/
theorem prefix_of_unmarking {m u y : Str} (hm : m.all markerChars.contains = true) (hy : Unmarking y)
    (h : m <+: u ++ y) : m <+: u := by
  cases y with
  | nil => simpa using h
  | cons c y =>
      by_cases hle : m.length ≤ u.length
      · exact List.prefix_of_prefix_length_le h (List.prefix_append u _) hle
      · -- the marker would reach the first character of the text
        have hlt : u.length < m.length := Nat.lt_of_not_le hle
        have hget : m[u.length]? = some c := by
          obtain ⟨rest, hrest⟩ := h
          have hin : (m ++ rest)[u.length]? = m[u.length]? := List.getElem?_append_left hlt
          rw [← hin, hrest, List.getElem?_append_right le_rfl]
          simp
        have hmem := List.all_eq_true.mp hm c (List.mem_of_getElem? hget)
        exact absurd (List.contains_iff_mem.mp hmem) (hy c rfl)

theorem markerKind_append_plain {x y : Line} (hx : markerKind x = .plain) (hy : markerKind y = .plain)
    (hhead : Unmarking y) : markerKind (x ++ y) = .plain := by
  by_cases hblank : Blank x
  · rw [markerKind_blank_append hblank, hy]
  · obtain ⟨hstart, hsep, hend⟩ := markerKind_eq_plain.mp hx
    rw [markerKind_eq_plain, trimStart_append hblank]
    refine ⟨fun h => hstart (prefix_of_unmarking (by decide) hhead h), fun h => hsep ?_,
      fun h => hend (prefix_of_unmarking (by decide) hhead h)⟩
    obtain ⟨rest, hrest⟩ : conflictSep <+: trimStart x :=
      prefix_of_unmarking (by decide) hhead (h ▸ List.prefix_rfl)
    have hlength := congrArg List.length h
    rw [← hrest, List.length_append, List.length_append] at hlength
    rw [← hrest, List.eq_nil_of_length_eq_zero (l := rest) (by omega), List.append_nil]

theorem markerKind_append_stop {x : Line} (hx : markerKind x = .stop) (y : Line) :
    markerKind (x ++ y) = .stop := by
  rw [markerKind_eq_stop] at hx ⊢
  by_cases hblank : Blank x
  · have hnil : trimStart x = [] := List.dropWhile_eq_nil_iff.mpr hblank
    rw [hnil] at hx
    exact absurd (List.prefix_nil.mp hx) (by decide)
  · rw [trimStart_append hblank]
    exact hx.trans (List.prefix_append _ _)

theorem markerKind_blank {x : Line} (hx : Blank x) : markerKind x = .plain := by
  have h := markerKind_blank_append hx []
  rw [List.append_nil] at h
  exact h

/-! ## Texts one behind the other -/

/-- The last line of a text and the first one of the text behind it are one line. -/
theorem exists_lines_join (s t : Str) : ∃ front more, lines s = front ++ [lastLine s] ∧
    lines t = lineTail t :: more ∧ lines (s ++ t) = front ++ (lastLine s ++ lineTail t) :: more := by
  obtain ⟨front, hfront⟩ := exists_lines_append s
  have hs := hfront []
  rw [List.append_nil, List.append_nil, lines_of_not_mem (not_mem_lastLine s)] at hs
  have ht : ∃ more, lines t = lineTail t :: more := by
    by_cases hmem : '\n' ∈ t
    · refine ⟨lines (lineRest t), ?_⟩
      conv_lhs => rw [← lineTail_append_lineRest hmem]
      rw [lines_append_newline, lines_of_not_mem (not_mem_lineTail t)]
      rfl
    · exact ⟨[], by rw [lines_of_not_mem hmem, lineTail_of_not_mem hmem]⟩
  obtain ⟨more, hmore⟩ := ht
  refine ⟨front, more, hs, hmore, ?_⟩
  rw [hfront, lines_append_left (not_mem_lastLine s), hmore]
  rfl

namespace ReadsAs

variable {s t : Str} {bs cs : List (Blocks.Block Line)}

/-- A text that starts on a line of its own. -/
theorem append (hs : ReadsAs s bs) (hlast : Blank (lastLine s)) (ht : ReadsAs t cs) : ReadsAs (s ++ t) (bs ++ cs) := by
  obtain ⟨front, more, hlines, hmore, hjoin⟩ := exists_lines_join s t
  unfold ReadsAs at hs ht ⊢
  rw [hlines] at hs
  rw [hmore] at ht
  rw [hjoin]
  exact (hs.of_concat_plain (markerKind_blank hlast)).append (ht.replace_first (markerKind_blank_append hlast _))

/-- A text whose first line is plain may also stand behind other text. -/
theorem append_plain (hs : ReadsAs s bs) (ht : ReadsAs t cs) (hfirst : markerKind (lineTail t) = .plain)
    (hhead : Unmarking t) : ReadsAs (s ++ t) (bs ++ cs) := by
  obtain ⟨front, more, hlines, hmore, hjoin⟩ := exists_lines_join s t
  have hline : Unmarking (lineTail t) := by
    cases t with
    | nil => exact hhead
    | cons c t =>
        intro d hd
        by_cases hc : c = '\n'
        · simp [lineTail, hc] at hd
        · simp only [lineTail, List.takeWhile_cons, bne_iff_ne, ne_eq, hc, not_false_eq_true, if_true] at hd
          exact hhead d hd
  unfold ReadsAs at hs ht ⊢
  rw [hlines] at hs
  rw [hmore] at ht
  have hrest : Blocks.Reads markerKind more cs := by
    unfold Blocks.Reads at ht ⊢
    rwa [Blocks.scan_cons, Blocks.step, hfirst] at ht
  -- The last line of the text in front is plain, or ends a block, also with more behind it.
  have hlast : Blocks.Reads markerKind (front ++ [lastLine s ++ lineTail t]) bs :=
    hs.replace_last (fun h => markerKind_append_plain h hfirst hline) fun h => markerKind_append_stop h _
  rw [hjoin, List.append_cons]
  exact hlast.append hrest

/-- A text without a marker. -/
theorem append_unmarked (hs : ReadsAs s bs) (ht : Unmarked t) (hhead : Unmarking t) : ReadsAs (s ++ t) bs := by
  obtain ⟨-, more, -, hmore, -⟩ := exists_lines_join s t
  have hfirst : markerKind (lineTail t) = .plain := ht _ (hmore ▸ List.mem_cons_self)
  rw [← List.append_nil bs]
  exact hs.append_plain ht.readsAs hfirst hhead

end ReadsAs

/-! ## The scan -/

/-- The pieces of a text: each ends in its newline, but the last one need not. -/
inductive Pieces : List Str → Prop
  | nil : Pieces []
  | last {l : Str} (hl : '\n' ∉ l) : Pieces [l]
  | cons {l : Str} {pieces : List Str} (hl : '\n' ∉ l) (h : Pieces pieces) : Pieces ((l ++ ['\n']) :: pieces)

theorem pieces_splitInclusive (s : Str) : Pieces (splitInclusive s) ∧ (splitInclusive s).flatten = s := by
  induction s with
  | nil => exact ⟨.nil, rfl⟩
  | cons c s ih =>
      obtain ⟨hpieces, hflat⟩ := ih
      unfold splitInclusive
      by_cases hc : c = '\n'
      · rw [if_pos hc, List.flatten_cons, hflat, hc]
        exact ⟨.cons List.not_mem_nil hpieces, rfl⟩
      · rw [if_neg hc]
        have hadd : ∀ {l : Str}, '\n' ∉ l → '\n' ∉ c :: l := fun hl => by simp [hl, Ne.symm hc]
        cases hsplit : splitInclusive s with
        | nil =>
            rw [hsplit] at hflat
            exact ⟨.last (hadd List.not_mem_nil), by rw [← hflat]; rfl⟩
        | cons piece pieces =>
            rw [hsplit] at hpieces hflat
            rw [← hflat]
            cases hpieces with
            | last hl => exact ⟨.last (hadd hl), rfl⟩
            | cons hl h => exact ⟨.cons (hadd hl) h, rfl⟩

theorem stripNewline_append {l : Str} : stripNewline (l ++ ['\n']) = l := by
  unfold stripNewline
  rw [if_pos (by simp), List.dropLast_concat]

theorem stripNewline_of_not_mem {l : Str} (hl : '\n' ∉ l) : stripNewline l = l :=
  if_neg fun h => hl (List.mem_of_getLast? h)

/-- The lines of a text are its pieces, and an empty one behind the last newline. -/
theorem Pieces.lines {pieces : List Str} (h : Pieces pieces) :
    ∃ tail, (tail = [] ∨ tail = [[]]) ∧ Omoplata.lines pieces.flatten = pieces.map stripNewline ++ tail := by
  induction h with
  | nil => exact ⟨[[]], .inr rfl, rfl⟩
  | last hl =>
      refine ⟨[], .inl rfl, ?_⟩
      rw [List.flatten_singleton, lines_of_not_mem hl, List.map_singleton, stripNewline_of_not_mem hl]
      rfl
  | cons hl h ih =>
      obtain ⟨tail, htail, hlines⟩ := ih
      refine ⟨tail, htail, ?_⟩
      rw [List.flatten_cons, List.append_assoc, List.singleton_append, lines_append_newline, hlines,
        lines_of_not_mem hl, List.map_cons, stripNewline_append]
      rfl

/-- Where the scan of the lines is while the scan of the text is in this block. -/
def openState : Option OpenBlock → Blocks.State Line
  | none => .closed
  | some ⟨_, left, none⟩ => .first left
  | some ⟨_, left, some right⟩ => .second left right

/-- The lines of the two variants of a block. -/
def LocatedBlock.variants (b : LocatedBlock) : Blocks.Block Line := (b.block.left, b.block.right)

/-- What the scan does with one piece. -/
def scanStep (text piece : Str) (start : Nat) (cur : Option OpenBlock) (blocks : List LocatedBlock) :
    Option (Option OpenBlock × List LocatedBlock) :=
  let stripped := stripNewline piece
  match markerKind stripped, cur with
  | .start, none => some (some ⟨start, [], none⟩, blocks)
  | .sep, some ⟨bstart, left, none⟩ => some (some ⟨bstart, left, some []⟩, blocks)
  | .stop, some ⟨bstart, left, some right⟩ =>
      let range : Range := ⟨bstart, start + stripped.length⟩
      (getRange text range).map fun original => (none, blocks ++ [⟨range, original, left, right⟩])
  | .plain, some ⟨bstart, left, some right⟩ => some (some ⟨bstart, left, some (right ++ [stripped])⟩, blocks)
  | .plain, some ⟨bstart, left, none⟩ => some (some ⟨bstart, left ++ [stripped], none⟩, blocks)
  | .plain, none => some (none, blocks)
  | _, _ => none

theorem scanLoop_cons (text piece : Str) (rest : List Str) (start : Nat) (cur : Option OpenBlock)
    (blocks : List LocatedBlock) : scanLoop text (piece :: rest) start cur blocks =
      (scanStep text piece start cur blocks).bind fun s => scanLoop text rest (start + piece.length) s.1 s.2 := by
  conv_lhs => unfold scanLoop
  unfold scanStep markerKind
  rcases cur with _ | ⟨bstart, left, _ | right⟩ <;>
    simp only [Option.isSome_none, Option.isSome_some, Bool.false_eq_true, if_true, if_false] <;> split_ifs
  any_goals rfl
  simp only []
  cases getRange text ⟨bstart, start + (stripNewline piece).length⟩ <;> rfl

section

variable {text piece : Str} {start : Nat} {cur : Option OpenBlock} {blocks : List LocatedBlock}

/-- A piece is to the scan what its line is to the scan of the lines. -/
theorem scanStep_view (hcur : ∀ o ∈ cur, o.start ≤ start) (hlength : start + piece.length ≤ text.length) :
    (scanStep text piece start cur blocks).map (fun s => (openState s.1, s.2.map LocatedBlock.variants)) =
      Blocks.step markerKind (openState cur, blocks.map LocatedBlock.variants) (stripNewline piece) := by
  have hstrip : (stripNewline piece).length ≤ piece.length := by
    unfold stripNewline
    split
    · simp
    · exact le_rfl
  unfold scanStep
  rcases cur with _ | ⟨bstart, left, _ | right⟩
  · cases hkind : markerKind (stripNewline piece) <;> simp [openState, Blocks.step, hkind]
  · cases hkind : markerKind (stripNewline piece) <;> simp [openState, Blocks.step, hkind]
  · have hstart : bstart ≤ start := hcur _ rfl
    cases hkind : markerKind (stripNewline piece) with
    | stop =>
        have hslice : slice? text bstart (start + (stripNewline piece).length) = some _ :=
          slice?_eq_some (hstart.trans (Nat.le_add_right _ _)) (by omega)
        simp [openState, Blocks.step, hkind, LocatedBlock.variants, getRange, hslice]
    | _ => simp [openState, Blocks.step, hkind]

/-- One piece leaves the scan between blocks, opens a block, goes on in one or ends it. -/
theorem scanStep_cases {cur' : Option OpenBlock} {blocks' : List LocatedBlock}
    (h : scanStep text piece start cur blocks = some (cur', blocks')) :
    (cur = none ∧ cur' = none ∧ blocks' = blocks) ∨
    (cur = none ∧ cur' = some ⟨start, [], none⟩ ∧ blocks' = blocks ∧ markerKind (stripNewline piece) = .start) ∨
    (∃ o o', cur = some o ∧ cur' = some o' ∧ blocks' = blocks ∧ o'.start = o.start ∧
      Blocks.step markerKind (openState cur, []) (stripNewline piece) = some (openState cur', [])) ∨
    ∃ bstart left right original, cur = some ⟨bstart, left, some right⟩ ∧ cur' = none ∧
      markerKind (stripNewline piece) = .stop ∧
      getRange text ⟨bstart, start + (stripNewline piece).length⟩ = some original ∧
      blocks' = blocks ++ [⟨⟨bstart, start + (stripNewline piece).length⟩, original, left, right⟩] := by
  unfold scanStep at h
  cases hkind : markerKind (stripNewline piece) <;> rcases cur with _ | ⟨bstart, left, _ | right⟩ <;>
    simp only [hkind, Option.some.injEq, Prod.mk.injEq, Option.map_eq_some_iff, reduceCtorEq] at h
  · exact .inr (.inl ⟨rfl, h.1.symm, h.2.symm, rfl⟩)
  · obtain ⟨rfl, rfl⟩ := h
    exact .inr (.inr (.inl ⟨_, _, rfl, rfl, rfl, rfl, by simp [openState, Blocks.step, hkind]⟩))
  · obtain ⟨original, horiginal, rfl, rfl⟩ := h
    exact .inr (.inr (.inr ⟨_, _, _, original, rfl, rfl, rfl, horiginal, rfl⟩))
  · exact .inl ⟨rfl, h.1.symm, h.2.symm⟩
  · obtain ⟨rfl, rfl⟩ := h
    exact .inr (.inr (.inl ⟨_, _, rfl, rfl, rfl, rfl, by simp [openState, Blocks.step, hkind]⟩))
  · obtain ⟨rfl, rfl⟩ := h
    exact .inr (.inr (.inl ⟨_, _, rfl, rfl, rfl, rfl, by simp [openState, Blocks.step, hkind]⟩))

theorem scanStep_start {cur' : Option OpenBlock} {blocks' : List LocatedBlock}
    (h : scanStep text piece start cur blocks = some (cur', blocks')) (hcur : ∀ o ∈ cur, o.start ≤ start) :
    ∀ o ∈ cur', o.start ≤ start := by
  rcases scanStep_cases h with ⟨-, rfl, -⟩ | ⟨-, rfl, -⟩ | ⟨o, o', rfl, rfl, -, hstart, -⟩ |
    ⟨_, _, _, _, -, rfl, -⟩
  · nofun
  · rintro _ ⟨⟩
    exact le_rfl
  · rintro _ ⟨⟩
    exact hstart.trans_le (hcur o rfl)
  · nofun

/-- The blocks of a scan that is in none. -/
def closedBlocks (s : Blocks.State Line × List (Blocks.Block Line)) : Option (List (Blocks.Block Line)) :=
  match s.1 with
  | .closed => some s.2
  | _ => none

theorem scanLoop_view {pieces : List Str} (hcur : ∀ o ∈ cur, o.start ≤ start)
    (hlength : start + pieces.flatten.length ≤ text.length) :
    (scanLoop text pieces start cur blocks).map (List.map LocatedBlock.variants) =
      (Blocks.scan markerKind (openState cur, blocks.map LocatedBlock.variants)
        (pieces.map stripNewline)).bind closedBlocks := by
  induction pieces generalizing start cur blocks with
  | nil => rcases cur with _ | ⟨bstart, left, _ | right⟩ <;> rfl
  | cons piece pieces ih =>
      rw [List.flatten_cons, List.length_append] at hlength
      rw [scanLoop_cons, List.map_cons, Blocks.scan_cons,
        ← scanStep_view hcur (by omega : start + piece.length ≤ text.length)]
      cases hstep : scanStep text piece start cur blocks with
      | none => rfl
      | some s =>
          refine ih (fun o ho => ?_) (by omega)
          exact (scanStep_start hstep hcur o ho).trans (Nat.le_add_right _ _)

end

/-- The scan finds the blocks that the lines read as. -/
theorem scanMarkerBlocks_iff {text : Str} {bs : List (Blocks.Block Line)} :
    (∃ blocks, scanMarkerBlocks text = some blocks ∧ blocks.map LocatedBlock.variants = bs) ↔ ReadsAs text bs := by
  obtain ⟨hpieces, hflat⟩ := pieces_splitInclusive text
  obtain ⟨tail, htail, hlines⟩ := hpieces.lines
  rw [hflat] at hlines
  have hview := @scanLoop_view text 0 none [] (splitInclusive text) nofun (by rw [hflat, Nat.zero_add])
  have hblocks : (∃ blocks, scanMarkerBlocks text = some blocks ∧ blocks.map LocatedBlock.variants = bs) ↔
      (Blocks.scan markerKind (.closed, []) ((splitInclusive text).map stripNewline)).bind closedBlocks = some bs := by
    rw [← Option.map_eq_some_iff]
    exact hview ▸ Iff.rfl
  rw [hblocks, ReadsAs, Blocks.Reads, hlines, Blocks.scan_append]
  cases hscan : Blocks.scan markerKind (.closed, []) ((splitInclusive text).map stripNewline) with
  | none => simp
  | some s =>
      obtain ⟨st, cs⟩ := s
      -- an empty line behind the last newline is plain
      have hempty : markerKind [] = .plain := by decide
      rcases htail with rfl | rfl <;> cases st <;>
        simp [closedBlocks, Blocks.scan_nil, Blocks.scan_cons, Blocks.step, hempty]

end Omoplata
