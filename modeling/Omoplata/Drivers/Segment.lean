-- SUMMARY: What a segmentation covers: its gaps and items make up the text, with the conflict values put back.
import Mathlib.Algebra.GroupWithZero.Nat
import Omoplata.Drivers.Rust

/-!
# What a segmentation covers

The gaps and items of a segmentation make up the text it was cut from, and so do those
of a container. Conflict values go out of a text before it is cut and back into the
items that hold them, from the last to the first, so that the offsets in front stay
good.
-/

namespace Omoplata

/-! ## Gaps and items -/

theorem slice_append_slice {s : Str} {i j k : Nat} (hij : i ≤ j) (hjk : j ≤ k) :
    slice s i j ++ slice s j k = slice s i k := by
  rw [slice_eq_take_drop, slice_eq_take_drop, slice_eq_take_drop, ← Nat.sub_add_sub_cancel hjk hij,
    Nat.add_comm, List.take_add, List.drop_drop, Nat.add_sub_cancel' hij]

theorem length_slice {s : Str} {i j : Nat} (hj : j ≤ s.length) : (slice s i j).length = j - i := by
  rw [slice, List.length_drop, List.length_take, Nat.min_eq_left hj]

theorem getRange_eq_some {s t : Str} {r : Range} (h : getRange s r = some t) :
    r.start ≤ r.stop ∧ r.stop ≤ s.length ∧ t = slice s r.start r.stop := by
  unfold getRange slice? at h
  split at h
  · rename_i hbounds
    exact ⟨hbounds.1, hbounds.2, (Option.some.inj h).symm⟩
  · simp at h

/-- Texts with the gaps around them, in a row. -/
def interleave : List Str → List Str → Str
  | gap :: gaps, text :: texts => gap ++ text ++ interleave gaps texts
  | gap :: _, [] => gap
  | [], _ => []

/-- The text that a segmentation makes up. -/
def Segmentation.joined (seg : Segmentation) : Str :=
  interleave seg.gaps (seg.items.map Item.originalText)

/-- Gaps and items that make up a span of a source, without conflict values. -/
inductive Covers (source : Str) (limit : Nat) : Nat → List Str → List Item → Prop
  | last {pos : Nat} (hpos : pos ≤ limit) : Covers source limit pos [slice source pos limit] []
  | item {pos : Nat} {gaps : List Str} {items : List Item} (d : Definition)
      (hstart : pos ≤ d.byteRange.start) (hstop : d.byteRange.start ≤ d.byteRange.stop)
      (hlimit : d.byteRange.stop ≤ limit) (hrest : Covers source limit d.byteRange.stop gaps items) :
      Covers source limit pos (slice source pos d.byteRange.start :: gaps)
        (.conflictFree d (slice source d.byteRange.start d.byteRange.stop) d.byteRange :: items)

namespace Covers

variable {source : Str} {limit pos : Nat} {gaps : List Str} {items : List Item}

theorem length_gaps (h : Covers source limit pos gaps items) : gaps.length = items.length + 1 := by
  induction h with
  | last _ => rfl
  | item d _ _ _ _ ih => rw [List.length_cons, List.length_cons, ih]

theorem joined (h : Covers source limit pos gaps items) :
    interleave gaps (items.map Item.originalText) = slice source pos limit := by
  induction h with
  | last _ => rfl
  | item d hstart hstop hle _ ih =>
      rw [List.map_cons, interleave, ih, Item.conflictFree, slice_append_slice hstart hstop,
        slice_append_slice (hstart.trans hstop) hle]

/-- An item that has just been cut carries nothing. -/
theorem carried (h : Covers source limit pos gaps items) {it : Item} (hit : it ∈ items) :
    it.carried = [] ∧ it.originalText = it.text := by
  induction h with
  | last _ => simp at hit
  | item d _ _ _ _ ih =>
      rcases List.mem_cons.mp hit with rfl | hrest
      · exact ⟨rfl, rfl⟩
      · exact ih hrest

end Covers

/-- The loop over the definitions covers the source from its cursor on. -/
theorem segmentLoop_covers {source : Str} {defs : List Definition}
    (hdefs : ∀ d ∈ defs, d.byteRange.start ≤ d.byteRange.stop ∧ d.byteRange.stop ≤ source.length)
    {cursor : Nat} (hcursor : cursor ≤ source.length) (seg : Segmentation) :
    ∃ gaps items, segmentLoop source defs cursor seg = ⟨seg.items ++ items, seg.gaps ++ gaps⟩ ∧
      Covers source source.length cursor gaps items := by
  induction defs generalizing cursor seg with
  | nil =>
      refine ⟨[slice source cursor source.length], [], ?_, .last hcursor⟩
      rw [segmentLoop, getRange, slice?_eq_some hcursor le_rfl, Option.getD_some, List.append_nil]
  | cons d defs ih =>
      obtain ⟨hd, hdefs⟩ := List.forall_mem_cons.mp hdefs
      unfold segmentLoop
      by_cases hskip : d.byteRange.start < cursor
      · rw [if_pos hskip]
        exact ih hdefs hcursor seg
      · rw [if_neg hskip]
        have hstart : cursor ≤ d.byteRange.start := Nat.le_of_not_lt hskip
        obtain ⟨gaps, items, hloop, hcovers⟩ := ih hdefs hd.2
          ⟨seg.items ++ [.conflictFree d (slice source d.byteRange.start d.byteRange.stop) d.byteRange],
            seg.gaps ++ [slice source cursor d.byteRange.start]⟩
        refine ⟨_, _, ?_, .item d hstart hd.1 hd.2 hcovers⟩
        simp only [getRange, slice?_eq_some hstart (hd.1.trans hd.2), slice?_eq_some hd.1 hd.2,
          Option.getD_some, hloop, List.append_assoc, List.cons_append, List.nil_append]

/-- The loop over the members covers the container from its cursor to its footer. -/
theorem memberLoop_covers {text : Str} {headerEnd footerStart : Nat}
    {defs : List Definition} {cursor : Nat} {seg seg' : Segmentation}
    (h : memberLoop text headerEnd footerStart defs cursor seg = some seg') :
    ∃ gaps items, seg' = ⟨seg.items ++ items, seg.gaps ++ gaps⟩ ∧
      Covers text footerStart cursor gaps items := by
  induction defs generalizing cursor seg with
  | nil =>
      unfold memberLoop at h
      obtain ⟨gap, hgap, hseg⟩ := Option.bind_eq_some_iff.mp h
      obtain ⟨hcursor, -, rfl⟩ := getRange_eq_some hgap
      refine ⟨_, [], ?_, .last hcursor⟩
      rw [← Option.some.inj hseg, List.append_nil]
  | cons d defs ih =>
      unfold memberLoop at h
      by_cases hskip : d.byteRange.start < cursor
      · rw [if_pos hskip] at h
        exact ih h
      · rw [if_neg hskip] at h
        split at h
        · simp at h
        · rename_i hinside
          obtain ⟨-, hstop⟩ := not_or.mp hinside
          obtain ⟨gap, hgap, h⟩ := Option.bind_eq_some_iff.mp h
          obtain ⟨member, hmember, h⟩ := Option.bind_eq_some_iff.mp h
          obtain ⟨-, -, rfl⟩ := getRange_eq_some hgap
          obtain ⟨hbounds, -, rfl⟩ := getRange_eq_some hmember
          obtain ⟨gaps, items, rfl, hcovers⟩ := ih h
          refine ⟨_, _, ?_, .item d (Nat.le_of_not_lt hskip) hbounds (Nat.le_of_not_lt hstop) hcovers⟩
          simp only [List.append_assoc, List.cons_append, List.nil_append]

/-- A container is its header, its members and its footer. -/
theorem splitContainer_ok {G : Grammar} {text : Str} {parts : ContainerParts}
    (h : splitContainer G text = some parts) :
    parts.header ++ parts.members.joined ++ parts.footer = text ∧
      ∃ pos limit, Covers text limit pos parts.members.gaps parts.members.items := by
  unfold splitContainer at h
  obtain ⟨defs, -, h⟩ := Option.bind_eq_some_iff.mp h
  obtain ⟨container, -, h⟩ := Option.bind_eq_some_iff.mp h
  split at h
  · simp at h
  · obtain ⟨headerEnd, -, h⟩ := Option.bind_eq_some_iff.mp h
    obtain ⟨footerStart, -, h⟩ := Option.bind_eq_some_iff.mp h
    split at h
    · simp at h
    · rename_i hfooter
      obtain ⟨members, hmembers, h⟩ := Option.bind_eq_some_iff.mp h
      obtain ⟨header, hheader, h⟩ := Option.bind_eq_some_iff.mp h
      obtain ⟨footer, hfooter', h⟩ := Option.bind_eq_some_iff.mp h
      obtain ⟨-, -, rfl⟩ := getRange_eq_some hheader
      obtain ⟨hle, -, rfl⟩ := getRange_eq_some hfooter'
      obtain ⟨gaps, items, rfl, hcovers⟩ := memberLoop_covers hmembers
      obtain rfl := Option.some.inj h
      refine ⟨?_, _, _, hcovers⟩
      have hmiddle : headerEnd + 1 ≤ footerStart := Nat.le_of_not_lt hfooter
      simp only [Segmentation.joined, List.nil_append, hcovers.joined]
      rw [slice_append_slice (Nat.zero_le _) hmiddle, slice_append_slice (Nat.zero_le _) hle,
        slice_zero, List.take_length]

/-! ## Conflict values -/

/-- Put the true text of conflict values back, from the last to the first. -/
def restore (s : Str) (values : List LocatedBlock) : Str :=
  values.foldr (fun v s => replaceRange s v.range v.block.original) s

theorem replaceRange_append (a b c new : Str) :
    replaceRange (a ++ b ++ c) ⟨a.length, (a ++ b).length⟩ new = a ++ new ++ c := by
  unfold replaceRange
  dsimp only
  rw [List.drop_left, List.append_assoc a b c, List.take_left]

/-- Values at spans of a text, one behind the other. -/
inductive Spaced (limit : Nat) : Nat → List LocatedBlock → Prop
  | nil {pos : Nat} (hpos : pos ≤ limit) : Spaced limit pos []
  | cons {pos : Nat} {v : LocatedBlock} {values : List LocatedBlock} (hstart : pos ≤ v.range.start)
      (hstop : v.range.start ≤ v.range.stop) (hrest : Spaced limit v.range.stop values) :
      Spaced limit pos (v :: values)

/-- A block that the scan finds has the text at its range. -/
theorem scanLoop_original {text : Str} {pieces : List Str} {start : Nat} {cur : Option OpenBlock}
    {blocks blocks' : List LocatedBlock} (h : scanLoop text pieces start cur blocks = some blocks')
    (hblocks : ∀ b ∈ blocks, getRange text b.range = some b.block.original) :
    ∀ b ∈ blocks', getRange text b.range = some b.block.original := by
  induction pieces generalizing start cur blocks with
  | nil =>
      unfold scanLoop at h
      split at h
      · simp at h
      · exact Option.some.inj h ▸ hblocks
  | cons line rest ih =>
      unfold scanLoop at h
      simp only at h
      split at h
      · split at h
        · simp at h
        · exact ih h hblocks
      · split at h
        · split at h
          · exact ih h hblocks
          · simp at h
        · split at h
          · split at h
            · obtain ⟨original, horiginal, h⟩ := Option.bind_eq_some_iff.mp h
              refine ih h fun b hb => ?_
              rcases List.mem_append.mp hb with hb | hb
              · exact hblocks b hb
              · obtain rfl := List.mem_singleton.mp hb
                exact horiginal
            · simp at h
          · split at h
            · exact ih h hblocks
            · exact ih h hblocks
            · exact ih h hblocks

/-- The loop that takes blocks out leaves values that put the text back. -/
theorem sanitizeLoop_ok {text : Str} {blocks : List LocatedBlock} {cursor : Nat} {p p' : Prepared}
    (h : sanitizeLoop text blocks cursor p = some p')
    (hblocks : ∀ b ∈ blocks, getRange text b.range = some b.block.original) :
    cursor ≤ text.length ∧ ∃ rest values, p'.sanitized = p.sanitized ++ rest ∧
      p'.values = p.values ++ values ∧ Spaced p'.sanitized.length p.sanitized.length values ∧
      restore p'.sanitized values = p.sanitized ++ text.drop cursor := by
  induction blocks generalizing cursor p with
  | nil =>
      unfold sanitizeLoop at h
      obtain ⟨tail, htail, h⟩ := Option.bind_eq_some_iff.mp h
      obtain ⟨hcursor, -, rfl⟩ := getRange_eq_some htail
      obtain rfl := Option.some.inj h
      refine ⟨hcursor, _, [], rfl, (List.append_nil _).symm, .nil (by simp), ?_⟩
      rw [restore, List.foldr_nil, slice_length]
  | cons located blocks ih =>
      obtain ⟨range, block⟩ := located
      obtain ⟨horiginal, hblocks⟩ := List.forall_mem_cons.mp hblocks
      unfold sanitizeLoop at h
      obtain ⟨between, hbetween, h⟩ := Option.bind_eq_some_iff.mp h
      obtain ⟨hcursor, hstart, rfl⟩ := getRange_eq_some hbetween
      obtain ⟨hrange, hstop, horiginal⟩ := getRange_eq_some horiginal
      obtain ⟨-, rest, values, hsanitized, hvalues, hspaced, hrestore⟩ := ih h hblocks
      simp only at hcursor hstart hrange hstop horiginal hsanitized hvalues hspaced hrestore
      refine ⟨hcursor.trans hstart, slice text cursor range.start ++ (List.intercalate ['\n'] block.left ++ rest),
        _, ?_, by rw [hvalues, List.append_assoc, List.singleton_append], .cons ?_ ?_ hspaced, ?_⟩
      · rw [hsanitized, List.append_assoc, List.append_assoc]
      · simp
      · simp
      · rw [restore, List.foldr_cons, ← restore, hrestore]
        dsimp only
        rw [replaceRange_append, horiginal, ← slice_length text range.stop, ← slice_length text cursor,
          List.append_assoc, List.append_assoc, slice_append_slice hrange hstop,
          slice_append_slice hcursor (hrange.trans hstop)]

/-- Where a text starts in a row of texts with gaps. -/
def offset (gaps texts : List Str) (k : Nat) : Nat :=
  ((gaps.take (k + 1)).map List.length).sum + ((texts.take k).map List.length).sum

theorem offset_zero (gap : Str) (gaps texts : List Str) : offset (gap :: gaps) texts 0 = gap.length := by
  simp [offset]

theorem offset_succ (gap text : Str) (gaps texts : List Str) (k : Nat) :
    offset (gap :: gaps) (text :: texts) (k + 1) = gap.length + text.length + offset gaps texts k := by
  simp only [offset, List.take_succ_cons, List.map_cons, List.sum_cons]
  omega

/-- Replacing inside one text replaces in the row. -/
theorem interleave_modify {gaps texts : List Str} {k : Nat} {text : Str} (htext : texts[k]? = some text)
    (hgaps : texts.length < gaps.length) {r : Range} (hr : r.start ≤ r.stop) (hstop : r.stop ≤ text.length)
    (new : Str) :
    interleave gaps (texts.modify k fun t => replaceRange t r new) =
      replaceRange (interleave gaps texts)
        ⟨offset gaps texts k + r.start, offset gaps texts k + r.stop⟩ new := by
  induction k generalizing gaps texts with
  | zero =>
      match texts, gaps, hgaps, htext with
      | t :: texts, gap :: gaps, _, htext =>
          obtain rfl : t = text := Option.some.inj htext
          rw [List.modify_zero_cons, interleave, interleave, offset_zero]
          unfold replaceRange
          dsimp only
          rw [List.append_assoc gap t, List.take_length_add_append, List.drop_length_add_append,
            List.take_append_of_le_length (hr.trans hstop), List.drop_append_of_le_length hstop]
          simp only [List.append_assoc]
  | succ k ih =>
      match texts, gaps, hgaps, htext with
      | t :: texts, gap :: gaps, hgaps, htext =>
          rw [List.modify_succ_cons, interleave, interleave, offset_succ,
            ih (by simpa using htext) (by simpa using hgaps)]
          unfold replaceRange
          dsimp only
          have hlen : (gap ++ t).length = gap.length + t.length := List.length_append
          rw [← hlen, Nat.add_assoc _ _ r.start, Nat.add_assoc _ _ r.stop, List.take_length_add_append,
            List.drop_length_add_append]
          simp only [List.append_assoc]

namespace Covers

variable {source : Str} {limit pos : Nat} {gaps : List Str} {items : List Item}

theorem start_le (h : Covers source limit pos gaps items) {k : Nat} {it : Item} (hit : items[k]? = some it) :
    pos ≤ it.byteRange.start ∧ it.byteRange.start ≤ it.byteRange.stop ∧ it.byteRange.stop ≤ limit := by
  induction h generalizing k with
  | last _ => simp at hit
  | item d hstart hstop hlimit _ ih =>
      cases k with
      | zero =>
          obtain rfl := Option.some.inj hit
          exact ⟨hstart, hstop, hlimit⟩
      | succ k =>
          obtain ⟨hpos, hrest⟩ := ih (by simpa using hit)
          exact ⟨hstart.trans (hstop.trans hpos), hrest⟩

theorem text (h : Covers source limit pos gaps items) {k : Nat} {it : Item} (hit : items[k]? = some it) :
    it.text = slice source it.byteRange.start it.byteRange.stop := by
  induction h generalizing k with
  | last _ => simp at hit
  | item d _ _ _ _ ih =>
      cases k with
      | zero =>
          obtain rfl := Option.some.inj hit
          rfl
      | succ k => exact ih (by simpa using hit)

/-- An item lies where its gaps put it. -/
theorem offset (h : Covers source limit pos gaps items) (hlimit : limit ≤ source.length) {k : Nat} {it : Item}
    (hit : items[k]? = some it) :
    pos + Omoplata.offset gaps (items.map Item.originalText) k = it.byteRange.start ∧
      it.originalText.length = it.byteRange.stop - it.byteRange.start := by
  induction h generalizing k with
  | last _ => simp at hit
  | item d hstart hstop hle _ ih =>
      have hlen := hle.trans hlimit
      cases k with
      | zero =>
          obtain rfl := Option.some.inj hit
          rw [List.map_cons, offset_zero, length_slice (hstop.trans hlen), Item.conflictFree, length_slice hlen]
          exact ⟨Nat.add_sub_cancel' hstart, rfl⟩
      | succ k =>
          obtain ⟨hoffset, hlength⟩ := ih (by simpa using hit)
          refine ⟨?_, hlength⟩
          rw [List.map_cons, offset_succ, length_slice (hstop.trans hlen), Item.conflictFree, length_slice hlen]
          omega

/-- Of two items the earlier one ends before the later one starts. -/
theorem stop_le_start (h : Covers source limit pos gaps items) {j k : Nat} (hjk : j < k) {it it' : Item}
    (hit : items[j]? = some it) (hit' : items[k]? = some it') : it.byteRange.stop ≤ it'.byteRange.start := by
  induction h generalizing j k with
  | last _ => simp at hit
  | item d _ _ _ hrest ih =>
      cases k with
      | zero => exact absurd hjk (Nat.not_lt_zero j)
      | succ k =>
          cases j with
          | zero =>
              obtain rfl := Option.some.inj hit
              exact (hrest.start_le (by simpa using hit')).1
          | succ j => exact ih (Nat.lt_of_succ_lt_succ hjk) (by simpa using hit) (by simpa using hit')

end Covers

/-- A value is pinned to the first item that holds it. -/
structure PinnedTo (items : List Item) (v : LocatedBlock) (pin : Pin) (it : Item) : Prop where
  item : items[pin.item]? = some it
  start_le : it.byteRange.start ≤ v.range.start
  le_stop : v.range.stop ≤ it.byteRange.stop
  first : ∀ j < pin.item, ∀ it', items[j]? = some it' →
    v.range.start < it'.byteRange.start ∨ it'.byteRange.stop < v.range.stop
  range : pin.range = ⟨v.range.start - it.byteRange.start, v.range.stop - it.byteRange.start⟩
  block : pin.block = v.block

theorem pinValues_cons {items : List Item} {v : LocatedBlock} {values : List LocatedBlock} {pins : List Pin}
    (h : pinValues items (v :: values) = some pins) :
    ∃ pin it pins', pins = pin :: pins' ∧ pinValues items values = some pins' ∧ PinnedTo items v pin it := by
  have hcontains : ∀ {r r' : Range}, r.contains r' = true ↔ r.start ≤ r'.start ∧ r'.stop ≤ r.stop := by
    simp [Range.contains]
  unfold pinValues at h ⊢
  rw [List.mapM_cons] at h
  obtain ⟨pin, hpin, h⟩ := Option.bind_eq_some_iff.mp h
  obtain ⟨pins', hpins', h⟩ := Option.bind_eq_some_iff.mp h
  obtain ⟨k, hk, hpin⟩ := Option.bind_eq_some_iff.mp hpin
  obtain ⟨it, hit, hpin⟩ := Option.bind_eq_some_iff.mp hpin
  obtain ⟨hlt, hin, hfirst⟩ := List.findIdx?_eq_some_iff_getElem.mp hk
  have hget : items[k] = it := (List.getElem?_eq_some_iff.mp hit).2
  obtain rfl := Option.some.inj hpin
  obtain ⟨hstart, hstop⟩ := hcontains.mp (hget ▸ hin)
  refine ⟨_, it, pins', (Option.some.inj h).symm, hpins', hit, hstart, hstop, fun j hj it' hit' => ?_, rfl, rfl⟩
  have hout := mt hcontains.mpr (hfirst j hj)
  rw [(List.getElem?_eq_some_iff.mp hit').2] at hout
  omega

/-- The items with values put back into them. -/
def spliceAll (items : List Item) (pins : List Pin) : List Item :=
  pins.foldr (fun pin items => items.modify pin.item (·.splice pin)) items

/-- What splicing values behind a position does: the row of the items is the restored text,
    items that end in front of it stay, and every item keeps its length up to it. -/
structure Spliced (source : Str) (gaps : List Str) (items items' : List Item) (pos : Nat)
    (values : List LocatedBlock) : Prop where
  length : items'.length = items.length
  joined : interleave gaps (items'.map Item.originalText) = restore source values
  kept : ∀ (k : Nat) (it : Item), items[k]? = some it → it.byteRange.stop < pos → items'[k]? = some it
  long : ∀ (k : Nat) (it it' : Item), items[k]? = some it → items'[k]? = some it' →
    ∀ e, it.byteRange.start ≤ e → e ≤ it.byteRange.stop → e ≤ pos →
      e - it.byteRange.start ≤ it'.originalText.length

namespace Spliced

variable {source : Str} {gaps : List Str} {items items' : List Item} {pos : Nat} {values : List LocatedBlock}
  {v : LocatedBlock} {pin : Pin} {it : Item}

/-- The item that holds a value starts where it did while only later values are put back. -/
theorem offset_eq (h : Spliced source gaps items items' v.range.stop values)
    (hcovers : Covers source source.length 0 gaps items) (hpin : PinnedTo items v pin it) :
    offset gaps (items'.map Item.originalText) pin.item = it.byteRange.start := by
  have hfront : (items'.map Item.originalText).take pin.item =
      (items.map Item.originalText).take pin.item := by
    refine List.ext_getElem? fun j => ?_
    rw [List.getElem?_take, List.getElem?_take]
    split
    · rename_i hj
      obtain ⟨it', hit'⟩ : ∃ it', items[j]? = some it' :=
        ⟨_, List.getElem?_eq_getElem (hj.trans (List.getElem?_eq_some_iff.mp hpin.item).1)⟩
      have hbefore := hcovers.stop_le_start hj hit' hpin.item
      have hsorted := (hcovers.start_le hit').2.1
      have hout := hpin.first j hj it' hit'
      have hstart := hpin.start_le
      rw [List.getElem?_map, List.getElem?_map, h.kept j it' hit' (by omega), hit']
    · rfl
  rw [offset, hfront, ← offset, ← (hcovers.offset le_rfl hpin.item).1, Nat.zero_add]

/-- Put one more value back. -/
theorem cons (h : Spliced source gaps items items' v.range.stop values)
    (hcovers : Covers source source.length 0 gaps items) (hpin : PinnedTo items v pin it)
    (hstart : pos ≤ v.range.start) (hstop : v.range.start ≤ v.range.stop) :
    Spliced source gaps items (items'.modify pin.item (·.splice pin)) pos (v :: values) := by
  obtain ⟨it₁, hit₁⟩ : ∃ it₁, items'[pin.item]? = some it₁ := by
    obtain ⟨hlt, -⟩ := List.getElem?_eq_some_iff.mp hpin.item
    exact ⟨_, List.getElem?_eq_getElem (h.length ▸ hlt)⟩
  have hlong : ∀ e, it.byteRange.start ≤ e → e ≤ it.byteRange.stop → e ≤ v.range.stop →
      e - it.byteRange.start ≤ it₁.originalText.length := h.long _ it it₁ hpin.item hit₁
  refine ⟨by rw [List.length_modify, h.length], ?_, fun j it' hit' hj => ?_,
    fun j it' it'' hit' hit'' e he hele hepos => ?_⟩
  -- the spliced item is the one text that changes, and it does so within its range
  · have htexts : (items'.modify pin.item (·.splice pin)).map Item.originalText =
        (items'.map Item.originalText).modify pin.item fun t => replaceRange t pin.range v.block.original := by
      refine List.ext_getElem? fun j => ?_
      rw [List.getElem?_map, List.getElem?_modify, List.getElem?_modify, List.getElem?_map, ← hpin.block]
      cases items'[j]? with
      | none => rfl
      | some it' =>
          simp only [Option.map_some, Option.map_eq_map]
          split <;> rfl
    have hlength : (items'.map Item.originalText).length < gaps.length := by
      rw [List.length_map, h.length, hcovers.length_gaps]
      omega
    have hend := hlong v.range.stop (hpin.start_le.trans hstop) hpin.le_stop le_rfl
    have hle := hpin.start_le
    have htext : (items'.map Item.originalText)[pin.item]? = some it₁.originalText := by simp [hit₁]
    rw [htexts, hpin.range, interleave_modify htext hlength (Nat.sub_le_sub_right hstop _) hend,
      h.offset_eq hcovers hpin, h.joined, restore, restore, List.foldr_cons]
    dsimp only
    rw [Nat.add_sub_cancel' hle, Nat.add_sub_cancel' (hle.trans hstop)]
  -- a value in front of the position belongs to an earlier item
  · have hother : j ≠ pin.item := by
      rintro rfl
      obtain rfl : it' = it := Option.some.inj (hit'.symm.trans hpin.item)
      have hle := hpin.le_stop
      omega
    rw [List.getElem?_modify_ne _ _ (Ne.symm hother)]
    exact h.kept j it' hit' (by omega)
  -- what stands in front of the value is as long as it was
  · by_cases hj : j = pin.item
    · subst hj
      obtain rfl : it' = it := Option.some.inj (hit'.symm.trans hpin.item)
      rw [List.getElem?_modify_eq, hit₁, Option.map_eq_map, Option.map_some, Option.some.injEq] at hit''
      have hkeep := hlong e he hele (hepos.trans (hstart.trans hstop))
      rw [← hit'', Item.splice, hpin.range]
      simp only [replaceRange, List.length_append, List.length_take]
      omega
    · rw [List.getElem?_modify_ne _ _ (Ne.symm hj)] at hit''
      exact h.long j it' it'' hit' hit'' e he hele (hepos.trans (hstart.trans hstop))

/-- Putting all values back. -/
theorem of_pinValues {pins : List Pin} (hcovers : Covers source source.length 0 gaps items)
    (hspaced : Spaced source.length pos values) (hpins : pinValues items values = some pins) :
    Spliced source gaps items (spliceAll items pins) pos values := by
  induction hspaced generalizing pins with
  | nil _ =>
      obtain rfl : [] = pins := by simpa [pinValues] using hpins
      refine ⟨rfl, ?_, fun _ _ hit _ => hit, fun k it it' hit hit' e hstart hstop _ => ?_⟩
      · rw [spliceAll, List.foldr_nil, hcovers.joined, slice_zero, List.take_length]
        rfl
      · obtain rfl : it = it' := Option.some.inj (hit.symm.trans hit')
        rw [(hcovers.offset le_rfl hit).2]
        omega
  | cons hstart hstop _ ih =>
      obtain ⟨pin, it, pins', rfl, hpins', hpin⟩ := pinValues_cons hpins
      exact (ih hpins').cons hcovers hpin hstart hstop

end Spliced

/-- An item without conflict values has its true text. -/
theorem originalText_of_spliceAll {items : List Item} {pins : List Pin}
    (h : ∀ it ∈ items, it.carried = [] ∧ it.originalText = it.text) :
    ∀ it ∈ spliceAll items pins, it.carried = [] → it.originalText = it.text := by
  induction pins with
  | nil => exact fun it hit _ => (h it hit).2
  | cons pin pins ih =>
      intro it hit hcarried
      obtain ⟨j, hj⟩ := List.mem_iff_getElem?.mp hit
      rw [spliceAll, List.foldr_cons, ← spliceAll, List.getElem?_modify] at hj
      obtain ⟨it₁, hit₁, rfl⟩ := Option.map_eq_some_iff.mp hj
      split at hcarried
      · simp [Item.splice] at hcarried
      · rename_i hother
        rw [if_neg hother]
        exact ih it₁ (List.mem_of_getElem? hit₁) hcarried

/-! ## Whole texts -/

theorem Prepared.of_ok {text : Str} {p : Prepared} (h : Prepared.of text = some p) :
    Spaced p.sanitized.length 0 p.values ∧ restore p.sanitized p.values = text := by
  unfold Prepared.of at h
  obtain ⟨blocks, hblocks, h⟩ := Option.bind_eq_some_iff.mp h
  split at h
  · obtain rfl := Option.some.inj h
    exact ⟨.nil (Nat.zero_le _), rfl⟩
  · obtain ⟨-, rest, values, -, hvalues, hspaced, hrestore⟩ := sanitizeLoop_ok h (scanLoop_original hblocks (by simp))
    rw [hvalues, List.nil_append]
    exact ⟨hspaced, hrestore⟩

/-- Segment the sanitized text by the definitions found in it. -/
def Prepared.segmentWith (defs : List Definition) (p : Prepared) : Option Segmentation := do
  let seg := segmentLoop p.sanitized defs 0 ⟨[], []⟩
  let pins ← pinValues seg.items p.values
  some { seg with items := spliceAll seg.items pins }

theorem Prepared.segment_eq (G : Grammar) (p : Prepared) :
    p.segment G = (G.extractDefinitions p.sanitized).toOption.bind p.segmentWith := by
  unfold segment Segmentation.of segmentWith
  cases G.extractDefinitions p.sanitized with
  | error e => rfl
  | ok defs =>
      simp only [bind, Except.bind, pure, Except.pure, Except.toOption, Option.bind_some, List.foldl_reverse]
      rfl

/-- The sanitized text is cut into items and gaps, and its values are put back into the items
    that hold them. -/
theorem Prepared.segmentWith_ok {p : Prepared} {defs : List Definition} {seg : Segmentation}
    (hdefs : ∀ d ∈ defs, d.byteRange.start ≤ d.byteRange.stop ∧ d.byteRange.stop ≤ p.sanitized.length)
    (h : p.segmentWith defs = some seg) :
    ∃ gaps items pins, Covers p.sanitized p.sanitized.length 0 gaps items ∧ pinValues items p.values = some pins ∧
      seg = ⟨spliceAll items pins, gaps⟩ := by
  obtain ⟨gaps, items, hloop, hcovers⟩ := @segmentLoop_covers p.sanitized defs hdefs 0 (Nat.zero_le _) ⟨[], []⟩
  unfold segmentWith at h
  rw [hloop] at h
  obtain ⟨pins, hpins, hseg⟩ := Option.bind_eq_some_iff.mp h
  exact ⟨gaps, items, pins, hcovers, hpins, (Option.some.inj hseg).symm⟩

theorem Prepared.segment_ok {G : Grammar} {p : Prepared} {seg : Segmentation} (h : p.segment G = some seg) :
    ∃ gaps items pins, Covers p.sanitized p.sanitized.length 0 gaps items ∧ pinValues items p.values = some pins ∧
      seg = ⟨spliceAll items pins, gaps⟩ := by
  rw [segment_eq] at h
  cases hdefs : G.extractDefinitions p.sanitized with
  | error e =>
      rw [hdefs] at h
      cases h
  | ok defs =>
      have hwf := G.wellFormed _ _ hdefs
      rw [hdefs] at h
      exact segmentWith_ok (fun d hd => ⟨hwf.start_le d hd, hwf.stop_le d hd⟩) h

/-- The segmentation of a text, where its markers are well formed, it parses without them,
    and every conflict value lies in an item. -/
def textSegmentation (G : Grammar) (text : Str) : Option Segmentation := do
  let p ← Prepared.of text
  if G.accepts p.sanitized then p.segment G else none

theorem structuralSides_eq (G : Grammar) (input : MergeInput) :
    structuralSides G input = (do
      some (← textSegmentation G input.base, ← textSegmentation G input.left,
        ← textSegmentation G input.right)) := by
  unfold structuralSides textSegmentation
  cases Prepared.of input.base with
  | none => rfl
  | some b =>
      cases Prepared.of input.left with
      | none => cases hb : G.accepts b.sanitized <;> simp [hb]
      | some l =>
          cases Prepared.of input.right with
          | none => cases hb : G.accepts b.sanitized <;> cases hl : G.accepts l.sanitized <;> simp [hb, hl]
          | some r =>
              cases hb : G.accepts b.sanitized <;> cases hl : G.accepts l.sanitized <;>
                cases hr : G.accepts r.sanitized <;> simp [hb, hl, hr]

/-- A segmentation that makes up a text. -/
structure Segments (text : Str) (seg : Segmentation) : Prop where
  joined : seg.joined = text
  gaps : seg.gaps.length = seg.items.length + 1
  originals : ∀ it ∈ seg.items, it.carried = [] → it.originalText = it.text

theorem textSegmentation_segments {G : Grammar} {text : Str} {seg : Segmentation}
    (h : textSegmentation G text = some seg) : Segments text seg := by
  unfold textSegmentation at h
  obtain ⟨p, hp, h⟩ := Option.bind_eq_some_iff.mp h
  obtain ⟨hspaced, hrestore⟩ := Prepared.of_ok hp
  split at h
  · obtain ⟨gaps, items, pins, hcovers, hpins, rfl⟩ := Prepared.segment_ok h
    have hspliced := Spliced.of_pinValues hcovers hspaced hpins
    refine ⟨hspliced.joined.trans hrestore, ?_, originalText_of_spliceAll fun it hit => hcovers.carried hit⟩
    rw [hcovers.length_gaps]
    exact congrArg (· + 1) hspliced.length.symm
  · simp at h

end Omoplata
