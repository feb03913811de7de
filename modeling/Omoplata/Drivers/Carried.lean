-- SUMMARY: A conflict value from the text it is scanned in to the item that carries it: always whole lines.
import Omoplata.Drivers.Markers

/-!
# The values an item carries

A block that the scan finds is made up of whole lines, and so is the left variant that
stands for it in the sanitized text. An item cut from the sanitized text holds the variant
as whole lines as well, so that the true text of the item reads as the values it carries.
-/

namespace Omoplata

/-! ## Whole lines -/

theorem lastLine_append_of_mem {t : Str} (h : '\n' ∈ t) (s : Str) : lastLine (s ++ t) = lastLine t := by
  unfold lastLine lineTail
  rw [List.reverse_append, List.takeWhile_append, if_neg]
  intro hlength
  have hall := List.takeWhile_eq_self_iff.mp (List.takeWhile_prefix _ |>.eq_of_length hlength)
  simpa using hall '\n' (List.mem_reverse.mpr h)

theorem lastLine_append_of_not_mem {t : Str} (h : '\n' ∉ t) (s : Str) : lastLine (s ++ t) = lastLine s ++ t := by
  have hkeep : ∀ c ∈ t.reverse, (c != '\n') = true := by
    intro c hc
    simp only [bne_iff_ne]
    rintro rfl
    exact h (List.mem_reverse.mp hc)
  unfold lastLine lineTail
  rw [List.reverse_append, List.takeWhile_append_of_pos hkeep, List.reverse_append, List.reverse_reverse]

theorem lastLine_newline (s : Str) : lastLine (s ++ ['\n']) = [] := by
  rw [lastLine_append_of_mem (by simp)]
  rfl

theorem lastLine_right {s t : Str} (h : lastLine (s ++ t) = []) : lastLine t = [] := by
  by_cases hmem : '\n' ∈ t
  · rwa [lastLine_append_of_mem hmem] at h
  · rw [lastLine_append_of_not_mem hmem] at h
    rw [(List.append_eq_nil_iff.mp h).2]
    rfl

theorem lineTail_left {s t : Str} (h : lineTail (s ++ t) = []) : lineTail s = [] := by
  unfold lineTail at *
  cases s with
  | nil => rfl
  | cons c s => cases hc : (c != '\n') <;> simp [hc] at h ⊢

theorem lastLine_append_whole {t : Str} (ht : lastLine t = []) (hne : t ≠ []) (s : Str) : lastLine (s ++ t) = [] := by
  by_cases h : '\n' ∈ t
  · rwa [lastLine_append_of_mem h]
  · rw [lastLine, lineTail_of_not_mem (by simpa using h)] at ht
    exact absurd (List.reverse_eq_nil_iff.mp ht) (by simpa using hne)

theorem lineTail_append_whole {s : Str} (hs : lineTail s = []) (hne : s ≠ []) (t : Str) : lineTail (s ++ t) = [] := by
  unfold lineTail at *
  cases s with
  | nil => exact absurd rfl hne
  | cons c s => cases hc : (c != '\n') <;> simp [hc] at hs ⊢

/-- Whole lines are in front of whatever follows. -/
theorem lines_append_of_whole {s : Str} {front : List Line} (h : lines s = front ++ [[]]) (t : Str) :
    lines (s ++ t) = front ++ lines t := by
  obtain ⟨front', hfront⟩ := exists_lines_append s
  have hs := hfront []
  rw [List.append_nil, List.append_nil, lines_of_not_mem (not_mem_lastLine s), h] at hs
  obtain ⟨rfl, hlast⟩ := List.append_inj' hs rfl
  rw [hfront, ← (List.singleton_inj.mp hlast)]
  rfl

/-! ## What the scan finds -/

/-- A block at whole lines of a text, whose own text reads as this block. -/
structure Lodged (text : Str) (b : LocatedBlock) : Prop where
  starts : lastLine (text.take b.range.start) = []
  ends : lineTail (text.drop b.range.stop) = []
  ordered : b.range.start ≤ b.range.stop
  le_length : b.range.stop ≤ text.length
  reads : ReadsAs b.block.original [b.variants]

/-- What the scan has found up to a position: blocks one behind the other, and the lines of
    the block it is in. -/
structure Found (text : Str) (pos : Nat) (cur : Option OpenBlock) (blocks : List LocatedBlock) : Prop where
  lodged : ∀ b ∈ blocks, Lodged text b
  apart : blocks.Pairwise fun b c => b.range.stop < c.range.start
  front : ∀ b ∈ blocks, b.range.stop < ((cur.map OpenBlock.start).getD pos)
  within : ∀ o ∈ cur, o.start ≤ pos ∧ lastLine (text.take o.start) = [] ∧ ∃ front,
    lines (slice text o.start pos) = front ++ [[]] ∧
      Blocks.scan markerKind (.closed, []) front = some (openState cur, [])

namespace Found

variable {text pre l tail piece : Str} {cur cur' : Option OpenBlock} {blocks blocks' : List LocatedBlock}

/-- The block that a piece ends is one of whole lines. -/
theorem lodged_step (h : Found text pre.length cur blocks) (hl : '\n' ∉ l) (htext : text = pre ++ (l ++ tail))
    (htail : lineTail tail = []) (hstrip : stripNewline piece = l)
    (hstep : scanStep text piece pre.length cur blocks = some (cur', blocks')) :
    (∀ b ∈ blocks', Lodged text b) ∧ blocks'.Pairwise fun b c => b.range.stop < c.range.start := by
  rcases scanStep_cases hstep with ⟨-, -, rfl⟩ | ⟨-, -, rfl, -⟩ | ⟨_, _, -, -, rfl, -⟩ |
    ⟨bstart, left, right, original, rfl, -, hkind, horiginal, rfl⟩
  · exact ⟨h.lodged, h.apart⟩
  · exact ⟨h.lodged, h.apart⟩
  · exact ⟨h.lodged, h.apart⟩
  · rw [hstrip] at hkind horiginal ⊢
    obtain ⟨hstart, hwhole, front, hlines, hscan⟩ := h.within _ rfl
    simp only at hstart hwhole hlines
    obtain ⟨-, hstop, rfl⟩ := getRange_eq_some horiginal
    have hslice : slice text bstart (pre.length + l.length) = slice text bstart pre.length ++ l := by
      rw [← slice_append_slice hstart (Nat.le_add_right _ _)]
      congr 1
      rw [htext, slice, ← List.append_assoc, ← List.length_append, List.take_left, List.drop_left]
    have hnew : Lodged text ⟨⟨bstart, pre.length + l.length⟩, slice text bstart (pre.length + l.length), left, right⟩ := by
      refine ⟨hwhole, ?_, hstart.trans (Nat.le_add_right _ _), hstop, ?_⟩
      · rw [htext, ← List.append_assoc, ← List.length_append, List.drop_left]
        exact htail
      · unfold ReadsAs Blocks.Reads
        rw [hslice, lines_append_of_whole hlines, lines_of_not_mem hl, Blocks.scan_append, hscan, Option.bind_some,
          Blocks.scan_cons, openState, Blocks.step, hkind]
        rfl
    refine ⟨fun b hb => ?_, List.pairwise_append.mpr ⟨h.apart, List.pairwise_singleton _ _, fun b hb c hc => ?_⟩⟩
    · rcases List.mem_append.mp hb with hb | hb
      · exact h.lodged b hb
      · exact List.mem_singleton.mp hb ▸ hnew
    · rw [List.mem_singleton.mp hc]
      exact h.front b hb

/-- The scan of a line that ends in a newline. -/
theorem step (h : Found text pre.length cur blocks) (hpre : lastLine pre = []) (hl : '\n' ∉ l)
    (htext : text = pre ++ (l ++ '\n' :: tail)) (hstrip : stripNewline piece = l)
    (hstep : scanStep text piece pre.length cur blocks = some (cur', blocks')) :
    Found text (pre ++ (l ++ ['\n'])).length cur' blocks' := by
  obtain ⟨hlodged, hapart⟩ := h.lodged_step hl htext rfl hstrip hstep
  have hlength : (pre ++ (l ++ ['\n'])).length = pre.length + l.length + 1 := by simp [Nat.add_assoc]
  have htake : text.take (pre ++ (l ++ ['\n'])).length = pre ++ (l ++ ['\n']) := by
    rw [htext, show pre ++ (l ++ '\n' :: tail) = pre ++ (l ++ ['\n']) ++ tail by simp, List.take_left]
  have hfront := h.front
  refine ⟨hlodged, hapart, ?_, ?_⟩
  -- the closed blocks end before the line, except for one that this line closes
  · rcases scanStep_cases hstep with ⟨rfl, rfl, rfl⟩ | ⟨rfl, rfl, rfl, -⟩ | ⟨o, o', rfl, rfl, rfl, hstart, -⟩ |
      ⟨bstart, left, right, original, rfl, rfl, -, -, rfl⟩
    · intro b hb
      have hlt : b.range.stop < pre.length := hfront b hb
      simp only [Option.map_none, Option.getD_none]
      omega
    · exact hfront
    · simp only [Option.map_some, Option.getD_some, hstart]
      exact hfront
    · obtain ⟨hstart, -⟩ := h.within _ rfl
      intro b hb
      simp only [Option.map_none, Option.getD_none]
      rcases List.mem_append.mp hb with hb | hb
      · have hlt : b.range.stop < bstart := hfront b hb
        simp only at hstart
        omega
      · rw [List.mem_singleton.mp hb, hstrip, hlength]
        exact Nat.lt_succ_self _
  · -- the open block has one line more
    have hslice : ∀ i ≤ pre.length, slice text i (pre ++ (l ++ ['\n'])).length =
        slice text i pre.length ++ (l ++ ['\n']) := by
      intro i hi
      rw [slice, htake, List.drop_append_of_le_length hi, slice, htext, List.take_left]
    rcases scanStep_cases hstep with ⟨rfl, rfl, rfl⟩ | ⟨rfl, rfl, rfl, hkind⟩ | ⟨o, o', rfl, rfl, rfl, hstart, hblock⟩ |
      ⟨bstart, left, right, original, rfl, rfl, -, -, rfl⟩
    · intro o ho
      cases ho
    · rintro _ ⟨⟩
      rw [hstrip] at hkind
      refine ⟨by simp only; omega, by rw [htext, List.take_left, hpre], [l], ?_, ?_⟩
      · rw [hslice _ le_rfl, slice, List.drop_take, Nat.sub_self, List.take_zero, List.nil_append,
          lines_append_newline, lines_of_not_mem hl]
        rfl
      · rw [Blocks.scan_cons, Blocks.step, hkind]
        rfl
    · rintro _ ⟨⟩
      obtain ⟨hle, hwhole, front, hlines, hscan⟩ := h.within _ rfl
      rw [hstart]
      refine ⟨by omega, hwhole, front ++ [l], ?_, ?_⟩
      · rw [hslice _ hle, lines_append_of_whole hlines, lines_append_newline, lines_of_not_mem hl, List.append_assoc]
        rfl
      · rw [hstrip] at hblock
        rw [Blocks.scan_append, hscan, Option.bind_some, Blocks.scan_cons, hblock]
        rfl
    · intro o ho
      cases ho

end Found

/-- The blocks of a text are whole lines, one behind the other. -/
theorem scanLoop_lodged {text pre : Str} {pieces : List Str} (hpieces : Pieces pieces)
    (htext : text = pre ++ pieces.flatten) (hpre : lastLine pre = []) {cur : Option OpenBlock}
    {blocks blocks' : List LocatedBlock} (hfound : Found text pre.length cur blocks)
    (h : scanLoop text pieces pre.length cur blocks = some blocks') :
    (∀ b ∈ blocks', Lodged text b) ∧ blocks'.Pairwise fun b c => b.range.stop < c.range.start := by
  induction hpieces generalizing pre cur blocks with
  | nil =>
      unfold scanLoop at h
      split at h
      · simp at h
      · exact Option.some.inj h ▸ ⟨hfound.lodged, hfound.apart⟩
  | @last l hl =>
      rw [scanLoop_cons] at h
      obtain ⟨⟨cur', found⟩, hstep, h⟩ := Option.bind_eq_some_iff.mp h
      have htext : text = pre ++ (l ++ []) := by simpa using htext
      have hlodged := hfound.lodged_step hl htext rfl (stripNewline_of_not_mem hl) hstep
      unfold scanLoop at h
      split at h
      · simp at h
      · exact Option.some.inj h ▸ hlodged
  | @cons l pieces hl _ ih =>
      rw [scanLoop_cons] at h
      obtain ⟨⟨cur', found⟩, hstep, h⟩ := Option.bind_eq_some_iff.mp h
      rw [← List.length_append] at h
      refine ih ?_ ?_ ?_ h
      · rw [htext, List.flatten_cons, ← List.append_assoc]
      · rw [← List.append_assoc]
        exact lastLine_newline _
      · exact hfound.step hpre hl (by simpa using htext) stripNewline_append hstep

theorem scanMarkerBlocks_lodged {text : Str} {blocks : List LocatedBlock} (h : scanMarkerBlocks text = some blocks) :
    (∀ b ∈ blocks, Lodged text b) ∧ blocks.Pairwise fun b c => b.range.stop < c.range.start := by
  obtain ⟨hpieces, hflat⟩ := pieces_splitInclusive text
  exact @scanLoop_lodged text [] _ hpieces hflat.symm rfl none [] _ ⟨by simp, .nil, by simp, by simp⟩ h

/-! ## What stands in the sanitized text -/

theorem sanitizeLoop_lodged {text : Str} {blocks : List LocatedBlock} {cursor : Nat} {p p' : Prepared}
    (h : sanitizeLoop text blocks cursor p = some p') (hlodged : ∀ b ∈ blocks, Lodged text b)
    (hapart : blocks.Pairwise fun b c => b.range.stop < c.range.start)
    (hcursor : (∀ b ∈ blocks, cursor < b.range.start) ∨ (cursor = 0 ∧ p.sanitized = [])) :
    ∃ rest values, p'.sanitized = p.sanitized ++ rest ∧ p'.values = p.values ++ values ∧
      (∀ v ∈ values, Lodged p'.sanitized v) ∧ (values.Pairwise fun v w => v.range.stop < w.range.start) ∧
      ((∀ b ∈ blocks, cursor < b.range.start) →
        (∀ v ∈ values, p.sanitized.length < v.range.start) ∧
          (lineTail (text.drop cursor) = [] → lineTail rest = [])) := by
  induction blocks generalizing cursor p with
  | nil =>
      unfold sanitizeLoop at h
      obtain ⟨tail, htail, h⟩ := Option.bind_eq_some_iff.mp h
      obtain ⟨-, -, rfl⟩ := getRange_eq_some htail
      obtain rfl := Option.some.inj h
      refine ⟨_, [], rfl, (List.append_nil _).symm, by simp, .nil, fun _ => ⟨by simp, fun hwhole => ?_⟩⟩
      rw [slice_length]
      exact hwhole
  | cons located blocks ih =>
      obtain ⟨range, block⟩ := located
      obtain ⟨hblock, hblocks⟩ := List.forall_mem_cons.mp hlodged
      obtain ⟨hnext, hrest⟩ := List.pairwise_cons.mp hapart
      unfold sanitizeLoop at h
      obtain ⟨between, hbetween, h⟩ := Option.bind_eq_some_iff.mp h
      obtain ⟨hle, hlen, rfl⟩ := getRange_eq_some hbetween
      obtain ⟨rest, values, hsanitized, hvalues, hlodgeds, hspread, hbehind⟩ := ih h hblocks hrest (.inl hnext)
      obtain ⟨hfront, htail⟩ := hbehind hnext
      have htail := htail hblock.ends
      simp only at hle hlen hsanitized hvalues hnext hfront
      -- what stands in front of the value ends in a whole line
      have hsplit : text.take cursor ++ slice text cursor range.start = text.take range.start := by
        rw [← slice_zero, ← slice_zero, slice_append_slice (Nat.zero_le _) hle]
      have hwhole : lastLine (slice text cursor range.start) = [] := by
        have hstarts := hblock.starts
        rw [← hsplit] at hstarts
        exact lastLine_right hstarts
      have hne : cursor < range.start → slice text cursor range.start ≠ [] := fun hlt hnil => by
        have hlength := length_slice (i := cursor) hlen
        rw [hnil, List.length_nil] at hlength
        omega
      have hstarts : lastLine (p.sanitized ++ slice text cursor range.start) = [] := by
        rcases hcursor with hlt | ⟨-, hnil⟩
        · exact lastLine_append_whole hwhole (hne (hlt _ List.mem_cons_self)) _
        · rw [hnil, List.nil_append, hwhole]
      have htext : p'.sanitized = (p.sanitized ++ slice text cursor range.start) ++
          (List.intercalate ['\n'] block.left ++ rest) := by rw [hsanitized, List.append_assoc]
      refine ⟨slice text cursor range.start ++ (List.intercalate ['\n'] block.left ++ rest),
        ⟨⟨(p.sanitized ++ slice text cursor range.start).length,
          (p.sanitized ++ slice text cursor range.start ++ List.intercalate ['\n'] block.left).length⟩, block⟩ :: values,
        by rw [htext, List.append_assoc], by rw [hvalues, List.append_assoc, List.singleton_append],
        List.forall_mem_cons.mpr ⟨⟨?_, ?_, ?_, ?_, hblock.reads⟩, hlodgeds⟩, List.pairwise_cons.mpr ⟨hfront, hspread⟩,
        fun hlt => ⟨List.forall_mem_cons.mpr ⟨?_, fun v hv => ?_⟩, fun hdrop => ?_⟩⟩
      · rw [htext, List.take_left]
        exact hstarts
      · rw [hsanitized, List.drop_left]
        exact htail
      · simp only [List.length_append]
        omega
      · rw [hsanitized]
        simp only [List.length_append]
        omega
      · have hlength := length_slice (i := cursor) hlen
        have hlt := hlt _ List.mem_cons_self
        simp only [List.length_append]
        simp only at hlt
        omega
      · have hlt := hfront v hv
        simp only [List.length_append] at hlt
        omega
      · refine lineTail_append_whole ?_ (hne (hlt _ List.mem_cons_self)) _
        rw [← slice_length, ← slice_append_slice hle hlen] at hdrop
        exact lineTail_left hdrop

theorem Prepared.of_lodged {text : Str} {p : Prepared} (h : Prepared.of text = some p) :
    (∀ v ∈ p.values, Lodged p.sanitized v) ∧ p.values.Pairwise fun v w => v.range.stop < w.range.start := by
  unfold Prepared.of at h
  obtain ⟨blocks, hblocks, h⟩ := Option.bind_eq_some_iff.mp h
  obtain ⟨hlodged, hapart⟩ := scanMarkerBlocks_lodged hblocks
  split at h
  · obtain rfl := Option.some.inj h
    exact ⟨by simp, .nil⟩
  · obtain ⟨rest, values, -, hvalues, hlodgeds, hspread, -⟩ := sanitizeLoop_lodged h hlodged hapart (.inr ⟨rfl, rfl⟩)
    rw [hvalues, List.nil_append]
    exact ⟨hlodgeds, hspread⟩

theorem sanitizeLoop_eq {text : Str} {blocks : List LocatedBlock} {cursor : Nat} (p : Prepared)
    (hlodged : ∀ b ∈ blocks, Lodged text b) (hapart : blocks.Pairwise fun b c => b.range.stop < c.range.start)
    (hcursor : cursor ≤ text.length) (hbehind : ∀ b ∈ blocks, cursor ≤ b.range.start) :
    ∃ p', sanitizeLoop text blocks cursor p = some p' ∧
      p'.values.map LocatedBlock.block = p.values.map LocatedBlock.block ++ blocks.map LocatedBlock.block := by
  induction blocks generalizing cursor p with
  | nil =>
      unfold sanitizeLoop getRange
      rw [slice?_eq_some hcursor le_rfl]
      exact ⟨_, rfl, (List.append_nil _).symm⟩
  | cons located blocks ih =>
      obtain ⟨range, block⟩ := located
      obtain ⟨hblock, hblocks⟩ := List.forall_mem_cons.mp hlodged
      obtain ⟨hnext, hrest⟩ := List.pairwise_cons.mp hapart
      unfold sanitizeLoop getRange
      rw [slice?_eq_some (hbehind _ List.mem_cons_self) (hblock.ordered.trans hblock.le_length)]
      obtain ⟨p', hp', hvalues⟩ := ih ⟨_, p.values ++ [⟨_, block⟩]⟩ hblocks hrest hblock.le_length
        fun c hc => (hnext c hc).le
      refine ⟨p', hp', ?_⟩
      rw [hvalues, List.map_append, List.append_assoc]
      rfl

/-- A text with well-formed markers can be prepared, and its values are its blocks. -/
theorem Prepared.of_eq {text : Str} {blocks : List LocatedBlock} (h : scanMarkerBlocks text = some blocks) :
    ∃ p, Prepared.of text = some p ∧ p.values.map LocatedBlock.block = blocks.map LocatedBlock.block := by
  obtain ⟨hlodged, hapart⟩ := scanMarkerBlocks_lodged h
  unfold Prepared.of
  rw [h, Option.bind_eq_bind, Option.bind_some]
  by_cases hnil : blocks = []
  · rw [hnil]
    exact ⟨_, rfl, rfl⟩
  · rw [if_neg (by simpa using hnil)]
    exact sanitizeLoop_eq ⟨[], []⟩ hlodged hapart (Nat.zero_le _) fun _ _ => Nat.zero_le _

/-- The values that a text is queried for are its blocks. -/
theorem conflictValues_eq {G : Grammar} {text : Str} {blocks : List LocatedBlock}
    (h : scanMarkerBlocks text = some blocks) {values : List ConflictValue} (hvalues : conflictValues G text = some values) :
    values.map (fun v => (v.left, v.right)) = blocks.map LocatedBlock.variants := by
  obtain ⟨p, hp, hblocks⟩ := Prepared.of_eq h
  have hlength : p.values.length = blocks.length := by
    have hlength := congrArg List.length hblocks
    rwa [List.length_map, List.length_map] at hlength
  unfold conflictValues at hvalues
  rw [hp, h, Option.bind_eq_bind, Option.bind_some] at hvalues
  split at hvalues
  · rename_i hnil
    rw [List.isEmpty_iff.mp hnil, List.length_nil] at hlength
    rw [← Option.some.inj hvalues, List.eq_nil_of_length_eq_zero hlength.symm]
    rfl
  · obtain ⟨defs, -, hvalues⟩ := Option.bind_eq_some_iff.mp hvalues
    rw [Option.bind_eq_bind, Option.bind_some, Option.some.injEq] at hvalues
    have hzip : (p.values.zip blocks).map Prod.snd = blocks := List.map_snd_zip hlength.ge
    rw [← hvalues, List.map_zipWith, ← List.map_uncurry_zip_eq_zipWith]
    conv_rhs => rw [← hzip, List.map_map]
    rfl

/-! ## What an item carries -/

theorem Unmarked.right {s t : Str} (h : Unmarked (s ++ t)) (hs : lastLine s = []) : Unmarked t := by
  obtain ⟨front, hfront⟩ := exists_lines_append s
  have hlines := hfront t
  rw [hs, List.nil_append] at hlines
  unfold Unmarked at h
  rw [hlines] at h
  exact fun line hline => h line (List.mem_append_right _ hline)

theorem Unmarked.left {s t : Str} (h : Unmarked (s ++ t)) (hs : lastLine s = []) : Unmarked s := by
  obtain ⟨front, hfront⟩ := exists_lines_append s
  have hlines := hfront t
  have hself := hfront []
  rw [hs, List.nil_append] at hlines hself
  rw [List.append_nil] at hself
  unfold Unmarked at h ⊢
  rw [hlines] at h
  rw [hself]
  intro line hline
  rcases List.mem_append.mp hline with hline | hline
  · exact h line (List.mem_append_left _ hline)
  · rw [List.mem_singleton.mp hline]
    decide

/-- The lines of the two variants of a conflict. -/
def Conflict.variants (c : Conflict) : Blocks.Block Line := (c.left, c.right)

/-- An item with the values of its pins put back. -/
def Item.spliceAll (it : Item) (pins : List Pin) : Item := pins.foldr (fun pin it => it.splice pin) it

theorem Item.spliceAll_text (it : Item) (pins : List Pin) : (it.spliceAll pins).text = it.text := by
  induction pins with
  | nil => rfl
  | cons pin pins ih => exact ih

theorem Item.spliceAll_carried (it : Item) (pins : List Pin) :
    (it.spliceAll pins).carried = pins.map (fun pin => ⟨[], pin.block.left, pin.block.right⟩) ++ it.carried := by
  induction pins with
  | nil => rfl
  | cons pin pins ih => exact congrArg (_ :: ·) ih

/-- Behind whole lines an item reads as the values put back there. -/
theorem Item.spliceAll_reads {it : Item} (hplain : Unmarked it.text) (horiginal : it.originalText = it.text)
    {pins : List Pin} (hlodged : ∀ pin ∈ pins, Lodged it.text ⟨pin.range, pin.block⟩)
    (hapart : pins.Pairwise fun p q => p.range.stop < q.range.start) {pos : Nat}
    (hpos : pos ≤ it.text.length) (hwhole : lastLine (it.text.take pos) = [])
    (hbehind : ∀ pin ∈ pins, pos ≤ pin.range.start) :
    ∃ rest, (it.spliceAll pins).originalText = it.text.take pos ++ rest ∧
      ReadsAs rest (pins.map fun pin => (pin.block.left, pin.block.right)) := by
  induction pins generalizing pos with
  | nil =>
      refine ⟨it.text.drop pos, ?_, ?_⟩
      · rw [List.take_append_drop]
        exact horiginal
      · rw [← List.take_append_drop pos it.text] at hplain
        exact (hplain.right hwhole).readsAs
  | cons pin pins ih =>
      obtain ⟨hpin, hpins⟩ := List.forall_mem_cons.mp hlodged
      obtain ⟨hnext, hrest⟩ := List.pairwise_cons.mp hapart
      obtain ⟨hstarts, hends, hordered, hlength, hreads⟩ := hpin
      simp only at hstarts hends hordered hlength hreads
      have hle := hbehind pin List.mem_cons_self
      -- the lines between the position and the value
      have hsplit : it.text.take pos ++ slice it.text pos pin.range.start = it.text.take pin.range.start := by
        rw [← slice_zero, ← slice_zero, slice_append_slice (Nat.zero_le _) hle]
      have hfront : Unmarked (slice it.text pos pin.range.start) := by
        rw [← List.take_append_drop pin.range.start it.text, ← hsplit, List.append_assoc] at hplain
        rw [← hsplit] at hstarts
        exact (hplain.right hwhole).left (lastLine_right hstarts)
      have hblank : Blank (lastLine (slice it.text pos pin.range.start)) := by
        rw [← hsplit] at hstarts
        rw [lastLine_right hstarts]
        nofun
      have hvalue : ∀ tail bs, ReadsAs (pin.block.original ++ tail) bs →
          ReadsAs (slice it.text pos pin.range.start ++ (pin.block.original ++ tail)) bs :=
        fun tail bs h => hfront.readsAs.append hblank h
      by_cases hstop : pin.range.stop = it.text.length
      · obtain rfl : pins = [] := by
          refine List.eq_nil_iff_forall_not_mem.mpr fun q hq => ?_
          have hlt := hnext q hq
          obtain ⟨-, -, hq', hq'', -⟩ := hpins q hq
          simp only at hq' hq''
          omega
        refine ⟨slice it.text pos pin.range.start ++ (pin.block.original ++ []), ?_, hvalue _ _ ?_⟩
        · show replaceRange it.originalText pin.range pin.block.original = _
          rw [replaceRange, horiginal, hstop, List.drop_length, ← List.append_assoc, hsplit, List.append_assoc]
        · rw [List.append_nil]
          exact hreads
      · have hdrop : it.text.drop pin.range.stop = '\n' :: it.text.drop (pin.range.stop + 1) := by
          have hlt : pin.range.stop < it.text.length := Nat.lt_of_le_of_ne hlength hstop
          rw [List.drop_eq_getElem_cons hlt] at hends ⊢
          have hc : it.text[pin.range.stop] = '\n' := by
            by_contra hc
            rw [lineTail, List.takeWhile_cons_of_pos (by simpa using hc)] at hends
            exact List.cons_ne_nil _ _ hends
          rw [hc]
        have htake : it.text.take (pin.range.stop + 1) = it.text.take pin.range.stop ++ ['\n'] := by
          rw [List.take_add, hdrop]
          rfl
        have hnewline : lastLine (it.text.take (pin.range.stop + 1)) = [] := by rw [htake, lastLine_newline]
        obtain ⟨rest, htext, hreads'⟩ := ih hpins hrest (Nat.lt_of_le_of_ne hlength hstop) hnewline
          fun q hq => hnext q hq
        refine ⟨slice it.text pos pin.range.start ++ (pin.block.original ++ '\n' :: rest), ?_, hvalue _ _ ?_⟩
        · show replaceRange (it.spliceAll pins).originalText pin.range pin.block.original = _
          have hlen : (it.text.take pin.range.stop).length = pin.range.stop := by
            rw [List.length_take, Nat.min_eq_left hlength]
          rw [htext, htake, List.append_assoc, List.singleton_append, replaceRange,
            List.take_append_of_le_length (by omega), List.take_take, Nat.min_eq_left hordered,
            List.drop_left' hlen, ← List.append_assoc, hsplit, List.append_assoc]
        · unfold ReadsAs at *
          rw [lines_append_newline, List.map_cons]
          exact hreads.append hreads'

/-- A value that a span of a text holds is one of whole lines of the span. -/
theorem Lodged.slice {text : Str} {v : LocatedBlock} (h : Lodged text v) {i j : Nat} (hi : i ≤ v.range.start)
    (hj : v.range.stop ≤ j) (hlength : j ≤ text.length) :
    Lodged (Omoplata.slice text i j) ⟨⟨v.range.start - i, v.range.stop - i⟩, v.block⟩ := by
  obtain ⟨hstarts, hends, hordered, -, hreads⟩ := h
  have hspan := length_slice (i := i) hlength
  refine ⟨?_, ?_, Nat.sub_le_sub_right hordered i, ?_, hreads⟩
  · have htake : (Omoplata.slice text i j).take (v.range.start - i) = (text.take v.range.start).drop i := by
      rw [Omoplata.slice, List.take_drop, Nat.add_sub_cancel' hi, List.take_take,
        Nat.min_eq_left (hordered.trans hj)]
    rw [htake]
    rw [← List.take_append_drop i (text.take v.range.start)] at hstarts
    exact lastLine_right hstarts
  · have hdrop : (Omoplata.slice text i j).drop (v.range.stop - i) = (text.take j).drop v.range.stop := by
      rw [Omoplata.slice, List.drop_drop, Nat.add_sub_cancel' (hi.trans hordered)]
    rw [hdrop]
    rw [← List.take_append_drop j text, List.drop_append_of_le_length (by rw [List.length_take]; omega)] at hends
    exact lineTail_left hends
  · rw [hspan]
    exact Nat.sub_le_sub_right hj i

theorem pinValues_pinned {items : List Item} {values : List LocatedBlock} {pins : List Pin}
    (h : pinValues items values = some pins) :
    List.Forall₂ (fun v pin => ∃ it, PinnedTo items v pin it) values pins := by
  induction values generalizing pins with
  | nil =>
      obtain rfl : [] = pins := by simpa [pinValues] using h
      exact .nil
  | cons v values ih =>
      obtain ⟨pin, it, pins', rfl, hpins', hpin⟩ := pinValues_cons h
      exact .cons ⟨it, hpin⟩ (ih hpins')

theorem exists_pinned {items : List Item} {values : List LocatedBlock} {pins : List Pin}
    (h : List.Forall₂ (fun v pin => ∃ it, PinnedTo items v pin it) values pins) {pin : Pin} (hpin : pin ∈ pins) :
    ∃ v ∈ values, ∃ it, PinnedTo items v pin it := by
  induction h with
  | nil => simp at hpin
  | @cons v _ _ _ hfirst _ ih =>
      rcases List.mem_cons.mp hpin with rfl | hpin
      · exact ⟨v, List.mem_cons_self, hfirst⟩
      · obtain ⟨w, hw, hpinned⟩ := ih hpin
        exact ⟨w, List.mem_cons_of_mem _ hw, hpinned⟩

/-- The pins of an item are apart in it as their values are in the text. -/
theorem pinned_apart {items : List Item} {values : List LocatedBlock} {pins : List Pin}
    (h : List.Forall₂ (fun v pin => ∃ it, PinnedTo items v pin it) values pins)
    (hordered : ∀ v ∈ values, v.range.start ≤ v.range.stop)
    (hapart : values.Pairwise fun v w => v.range.stop < w.range.start) :
    pins.Pairwise fun p q => p.item = q.item → p.range.stop < q.range.start := by
  induction h with
  | nil => exact .nil
  | @cons v pin values pins hpin hrest ih =>
      obtain ⟨hv, hordered⟩ := List.forall_mem_cons.mp hordered
      obtain ⟨hnext, hapart⟩ := List.pairwise_cons.mp hapart
      refine List.pairwise_cons.mpr ⟨fun q hq heq => ?_, ih hordered hapart⟩
      obtain ⟨it, hpin⟩ := hpin
      obtain ⟨w, hw, it', hq⟩ := exists_pinned hrest hq
      obtain rfl : it = it' := by
        have hitem := hpin.item
        rw [heq] at hitem
        exact Option.some.inj (hitem.symm.trans hq.item)
      have hlt := hnext w hw
      have hstart := hpin.start_le
      rw [hpin.range, hq.range]
      simp only
      omega

theorem getElem?_spliceAll (items : List Item) (pins : List Pin) (k : Nat) :
    (spliceAll items pins)[k]? = items[k]?.map fun it => it.spliceAll (pins.filter fun pin => pin.item == k) := by
  induction pins with
  | nil => exact Option.map_id'.symm
  | cons pin pins ih =>
      rw [spliceAll, List.foldr_cons, ← spliceAll, List.getElem?_modify, ih, List.filter_cons]
      cases items[k]? with
      | none => rfl
      | some it =>
          by_cases hk : pin.item = k
          · simp [hk, Item.spliceAll]
          · simp [hk]

/-- An item of a text reads as the values it carries, if no line of it is a marker without them. -/
theorem textSegmentation_reads {G : Grammar} {text : Str} {seg : Segmentation}
    (h : textSegmentation G text = some seg) {it : Item} (hit : it ∈ seg.items) (hplain : Unmarked it.text) :
    ReadsAs it.originalText (it.carried.map Conflict.variants) := by
  unfold textSegmentation at h
  obtain ⟨p, hp, h⟩ := Option.bind_eq_some_iff.mp h
  obtain ⟨hlodged, hapart⟩ := Prepared.of_lodged hp
  split at h
  · obtain ⟨gaps, items, pins, hcovers, hpins, rfl⟩ := Prepared.segment_ok h
    obtain ⟨k, hk⟩ := List.mem_iff_getElem?.mp hit
    change (spliceAll items pins)[k]? = some it at hk
    rw [getElem?_spliceAll] at hk
    obtain ⟨it₀, hit₀, rfl⟩ := Option.map_eq_some_iff.mp hk
    have hpinned := pinValues_pinned hpins
    obtain ⟨hcarried, horiginal⟩ := hcovers.carried (List.mem_of_getElem? hit₀)
    rw [Item.spliceAll_text] at hplain
    have hpin : ∀ pin ∈ pins.filter fun pin => pin.item == k, Lodged it₀.text ⟨pin.range, pin.block⟩ := by
      intro pin hpin
      obtain ⟨hpin, hitem⟩ := List.mem_filter.mp hpin
      obtain ⟨v, hv, it, hpinned⟩ := exists_pinned hpinned hpin
      obtain rfl : it = it₀ := by
        have hat := hpinned.item
        rw [beq_iff_eq.mp hitem] at hat
        exact Option.some.inj (hat.symm.trans hit₀)
      rw [hpinned.range, hpinned.block, hcovers.text hit₀]
      exact (hlodged v hv).slice hpinned.start_le hpinned.le_stop (hcovers.start_le hit₀).2.2
    have hspread : (pins.filter fun pin => pin.item == k).Pairwise fun p q => p.range.stop < q.range.start := by
      refine ((pinned_apart hpinned (fun v hv => (hlodged v hv).ordered) hapart).filter _).imp_of_mem ?_
      intro a b ha hb hlt
      have ha := beq_iff_eq.mp (List.mem_filter.mp ha).2
      have hb := beq_iff_eq.mp (List.mem_filter.mp hb).2
      exact hlt (ha.trans hb.symm)
    obtain ⟨rest, htext, hreads⟩ := @Item.spliceAll_reads it₀ hplain horiginal _ hpin hspread 0 (Nat.zero_le _) rfl
      fun _ _ => Nat.zero_le _
    rw [htext, Item.spliceAll_carried, hcarried, List.append_nil, List.map_map]
    exact hreads
  · simp at h

/-! ## Nothing is lost -/

/-- A list in the order of a bounded key is the row of its fibres. -/
theorem flatMap_fibres {α : Type} {key : α → Nat} {xs : List α} (hsorted : xs.Pairwise fun x y => key x ≤ key y) {n : Nat}
    (hlt : ∀ x ∈ xs, key x < n) : (List.range n).flatMap (fun k => xs.filter fun x => key x == k) = xs := by
  induction n generalizing xs with
  | zero => exact (List.eq_nil_iff_forall_not_mem.mpr fun x hx => Nat.not_lt_zero _ (hlt x hx)).symm
  | succ n ih =>
      -- the last fibre stands behind the others
      have hsplit : (xs.filter fun x => decide (key x < n)) ++ (xs.filter fun x => key x == n) = xs := by
        clear ih
        induction xs with
        | nil => rfl
        | cons x xs ih =>
            obtain ⟨hnext, hsorted⟩ := List.pairwise_cons.mp hsorted
            obtain ⟨hx, hrest⟩ := List.forall_mem_cons.mp hlt
            cases Nat.lt_succ_iff_lt_or_eq.mp hx with
            | inl hx =>
                rw [List.filter_cons_of_pos (by simpa using hx), List.filter_cons_of_neg (by simpa using hx.ne),
                  List.cons_append, ih hsorted hrest]
            | inr hx =>
                have hall : ∀ y ∈ xs, key y = n := fun y hy =>
                  Nat.le_antisymm (Nat.lt_succ_iff.mp (hrest y hy)) (hx ▸ hnext y hy)
                have hnone : (xs.filter fun y => decide (key y < n)) = [] :=
                  List.filter_eq_nil_iff.mpr fun y hy => by simp [hall y hy]
                have hself : (xs.filter fun y => key y == n) = xs :=
                  List.filter_eq_self.mpr fun y hy => by simp [hall y hy]
                rw [List.filter_cons_of_neg (by simp [hx]), List.filter_cons_of_pos (by simp [hx]), hnone, hself]
                rfl
      have hfront := ih (hsorted.filter fun x => decide (key x < n))
        fun x hx => of_decide_eq_true (List.mem_filter.mp hx).2
      rw [List.range_succ, List.flatMap_append, List.flatMap_singleton]
      refine Eq.trans ?_ hsplit
      rw [← hfront]
      congr 1
      refine List.flatMap_congr fun k hk => ?_
      rw [List.filter_filter]
      refine List.filter_congr fun x _ => ?_
      have hk := List.mem_range.mp hk
      by_cases hx : key x = k
      · simp [hx, hk]
      · simp [hx]

theorem pinned_blocks {items : List Item} {values : List LocatedBlock} {pins : List Pin}
    (h : List.Forall₂ (fun v pin => ∃ it, PinnedTo items v pin it) values pins) :
    pins.map Pin.block = values.map LocatedBlock.block := by
  induction h with
  | nil => rfl
  | cons hpin _ ih =>
      obtain ⟨it, hpin⟩ := hpin
      rw [List.map_cons, List.map_cons, ih, hpin.block]

/-- The values of a text are pinned to items in their order. -/
theorem pinned_sorted {source : Str} {limit pos : Nat} {gaps : List Str} {items : List Item}
    (hcovers : Covers source limit pos gaps items) {values : List LocatedBlock} {pins : List Pin}
    (h : List.Forall₂ (fun v pin => ∃ it, PinnedTo items v pin it) values pins)
    (hordered : ∀ v ∈ values, v.range.start ≤ v.range.stop)
    (hapart : values.Pairwise fun v w => v.range.stop < w.range.start) :
    pins.Pairwise fun p q => p.item ≤ q.item := by
  induction h with
  | nil => exact .nil
  | @cons v pin values pins hpin hrest ih =>
      obtain ⟨hv, hordered⟩ := List.forall_mem_cons.mp hordered
      obtain ⟨hnext, hapart⟩ := List.pairwise_cons.mp hapart
      refine List.pairwise_cons.mpr ⟨fun q hq => ?_, ih hordered hapart⟩
      obtain ⟨it, hpin⟩ := hpin
      obtain ⟨w, hw, it', hq⟩ := exists_pinned hrest hq
      by_contra hlt
      -- an earlier item ends before the first value starts
      have hends := hcovers.stop_le_start (Nat.lt_of_not_le hlt) hq.item hpin.item
      have hstart := hpin.start_le
      have hstop := hq.le_stop
      have hbehind := hnext w hw
      have hw := hordered w hw
      omega

/-- The conflict that a block of two variants is carried as. -/
def Conflict.ofVariants (b : Blocks.Block Line) : Conflict := ⟨[], b.1, b.2⟩

/-- The items carry the values that are put back, in order. -/
theorem spliceAll_carried {items : List Item} (hitems : ∀ it ∈ items, it.carried = []) {pins : List Pin}
    (hlt : ∀ pin ∈ pins, pin.item < items.length) (hsorted : pins.Pairwise fun p q => p.item ≤ q.item) :
    (spliceAll items pins).flatMap Item.carried =
      pins.map fun pin => .ofVariants (pin.block.left, pin.block.right) := by
  have hrow : (spliceAll items pins).map Item.carried = (List.range items.length).map fun k =>
      (pins.filter fun pin => pin.item == k).map fun pin => .ofVariants (pin.block.left, pin.block.right) := by
    refine List.ext_getElem? fun k => ?_
    rw [List.getElem?_map, getElem?_spliceAll, List.getElem?_map]
    cases hit : items[k]? with
    | none =>
        rw [List.getElem?_eq_none (by simpa using hit)]
        rfl
    | some it =>
        have hk := (List.getElem?_eq_some_iff.mp hit).1
        rw [List.getElem?_range hk, Option.map_some, Option.map_some, Option.map_some, Item.spliceAll_carried,
          hitems it (List.mem_of_getElem? hit), List.append_nil]
        rfl
  rw [List.flatMap_def, hrow, ← List.flatMap_def, ← List.map_flatMap, flatMap_fibres hsorted hlt]

/-- Sanitizing and splicing lose nothing: of a text with well-formed blocks, the gaps and the true
    texts of the items make up the text, and the items carry its blocks in order. -/
theorem Prepared.segmentWith_lossless {text : Str} {bs : List (Blocks.Block Line)} {p : Prepared}
    {defs : List Definition} {seg : Segmentation} (hreads : ReadsAs text bs) (hp : Prepared.of text = some p)
    (hdefs : ∀ d ∈ defs, d.byteRange.start ≤ d.byteRange.stop ∧ d.byteRange.stop ≤ p.sanitized.length)
    (h : p.segmentWith defs = some seg) :
    seg.joined = text ∧ seg.gaps.length = seg.items.length + 1 ∧
      seg.items.flatMap Item.carried = bs.map .ofVariants := by
  obtain ⟨gaps, items, pins, hcovers, hpins, rfl⟩ := segmentWith_ok hdefs h
  obtain ⟨hspaced, hrestore⟩ := Prepared.of_ok hp
  obtain ⟨hlodged, hapart⟩ := Prepared.of_lodged hp
  have hordered : ∀ v ∈ p.values, v.range.start ≤ v.range.stop := fun v hv => (hlodged v hv).ordered
  have hspliced := Spliced.of_pinValues hcovers hspaced hpins
  have hpinned := pinValues_pinned hpins
  refine ⟨hspliced.joined.trans hrestore, ?_, ?_⟩
  · rw [hcovers.length_gaps]
    exact congrArg (· + 1) hspliced.length.symm
  · have hlt : ∀ pin ∈ pins, pin.item < items.length := by
      intro pin hpin
      obtain ⟨v, -, it, hat⟩ := exists_pinned hpinned hpin
      exact (List.getElem?_eq_some_iff.mp hat.item).1
    have hcarried := spliceAll_carried (fun it hit => (hcovers.carried hit).1) hlt
      (pinned_sorted hcovers hpinned hordered hapart)
    -- the pins are the values, and the values the blocks
    have hvalues := pinned_blocks hpinned
    obtain ⟨blocks, hblocks, rfl⟩ := scanMarkerBlocks_iff.mpr hreads
    obtain ⟨p', hp', hsame⟩ := Prepared.of_eq hblocks
    obtain rfl := Option.some.inj (hp.symm.trans hp')
    rw [hcarried]
    have hmap := congrArg (List.map fun b : MarkerBlock => Conflict.ofVariants (b.left, b.right)) (hvalues.trans hsame)
    rw [List.map_map, List.map_map] at hmap
    rw [List.map_map]
    exact hmap

/-- A block with an empty left variant in one item, and one whose left variant is the next item. -/
theorem Prepared.segmentWith_two_blocks :
    let text := "fn a() \x7b\n<<<<<<<\n=======\nx\n>>>>>>>\n\x7d\n<<<<<<<\nfn b() {}\n=======\n>>>>>>>\n".toList
    let defs := [fnDefinition "a".toList ⟨0, 11⟩ "a".toList, fnDefinition "b".toList ⟨12, 21⟩ "b".toList]
    ∃ seg, (Prepared.of text).bind (fun p => p.segmentWith defs) = some seg ∧ seg.joined = text ∧
      seg.items.flatMap Item.carried = [⟨[], [], ["x".toList]⟩, ⟨[], ["fn b() {}".toList], []⟩] := by
  intro text defs
  have hsome : ((Prepared.of text).bind fun p => p.segmentWith defs).isSome = true := by decide +kernel
  obtain ⟨seg, hseg⟩ := Option.isSome_iff_exists.mp hsome
  obtain ⟨p, hp, h⟩ := Option.bind_eq_some_iff.mp hseg
  have hlength : (Prepared.of text).map (fun p => p.sanitized.length) = some 22 := by decide +kernel
  rw [hp, Option.map_some, Option.some.injEq] at hlength
  have hreads : ReadsAs text [([], ["x".toList]), (["fn b() {}".toList], [])] := by
    unfold ReadsAs Blocks.Reads
    decide +kernel
  have hdefs : ∀ d ∈ defs, d.byteRange.start ≤ d.byteRange.stop ∧ d.byteRange.stop ≤ p.sanitized.length := by
    rw [hlength]
    decide
  obtain ⟨hjoined, -, hcarried⟩ := segmentWith_lossless hreads hp hdefs h
  exact ⟨seg, hseg, hjoined, hcarried⟩

end Omoplata
