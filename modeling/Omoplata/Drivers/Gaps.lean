-- SUMMARY: The lines of a row of texts with a line break in every gap, block by block.
import Mathlib.Algebra.BigOperators.Group.List.Basic
import Mathlib.Data.List.TakeWhile
import Omoplata.Algebra.Added
import Omoplata.Drivers.Segment

/-!
# The lines around items

Where every gap holds a line break, the lines of a row of texts fall into blocks: a text
with what stands in front of it behind the line break of its own gap, and with what
stands behind it up to the line break of the next one. No line is in two blocks.
-/

namespace Omoplata

/-! ## Lines -/

theorem lines_append_newline (s t : Str) : lines (s ++ '\n' :: t) = lines s ++ lines t :=
  List.splitOn_append_cons_self s t

theorem lines_ne_nil (s : Str) : lines s ≠ [] := List.splitOn_ne_nil _ _

theorem lines_of_not_mem {s : Str} (h : '\n' ∉ s) : lines s = [s] := List.splitOn_eq_singleton h

/-- The text up to the first line break. -/
def lineTail (s : Str) : Str := s.takeWhile (· != '\n')

/-- The text behind the first line break. -/
def lineRest (s : Str) : Str := (s.dropWhile (· != '\n')).drop 1

/-- The text behind the last line break. -/
def lastLine (s : Str) : Str := (lineTail s.reverse).reverse

theorem not_mem_lineTail (s : Str) : '\n' ∉ lineTail s := by
  intro h
  simpa using List.mem_takeWhile_imp h

theorem not_mem_lastLine (s : Str) : '\n' ∉ lastLine s := by
  unfold lastLine
  rw [List.mem_reverse]
  exact not_mem_lineTail _

theorem lineTail_of_not_mem {s : Str} (h : '\n' ∉ s) : lineTail s = s := by
  refine List.takeWhile_eq_self_iff.mpr fun c hc => ?_
  simp only [bne_iff_ne]
  rintro rfl
  exact h hc

theorem lineTail_append_lineRest {s : Str} (h : '\n' ∈ s) : lineTail s ++ '\n' :: lineRest s = s := by
  obtain ⟨front, back, rfl, hfront⟩ := List.eq_append_cons_of_mem h
  have hkeep : ∀ c ∈ front, (c != '\n') = true := by
    intro c hc
    simp only [bne_iff_ne]
    rintro rfl
    exact hfront hc
  unfold lineTail lineRest
  rw [List.takeWhile_append_of_pos hkeep, List.dropWhile_append_of_pos hkeep]
  simp

/-- A text is whole lines and its last line. -/
theorem exists_lines_append (s : Str) :
    ∃ front : List Line, ∀ t, lines (s ++ t) = front ++ lines (lastLine s ++ t) := by
  by_cases h : '\n' ∈ s
  · refine ⟨lines (lineRest s.reverse).reverse, fun t => ?_⟩
    have hsplit := congrArg List.reverse (lineTail_append_lineRest (List.mem_reverse.mpr h))
    rw [List.reverse_reverse, List.reverse_append, List.reverse_cons, List.append_assoc,
      List.singleton_append] at hsplit
    rw [← lines_append_newline]
    refine congrArg lines ?_
    conv_lhs => rw [← hsplit]
    simp [lastLine]
  · refine ⟨[], fun t => ?_⟩
    rw [lastLine, lineTail_of_not_mem (by simpa using h), List.reverse_reverse, List.nil_append]

theorem not_mem_of_mem_lines {s : Str} {l : Line} (h : l ∈ lines s) : '\n' ∉ l := by
  induction hlen : s.length using Nat.strong_induction_on generalizing s with
  | _ n ih =>
      by_cases hs : '\n' ∈ s
      · rw [← lineTail_append_lineRest hs, lines_append_newline, List.mem_append,
          lines_of_not_mem (not_mem_lineTail s), List.mem_singleton] at h
        rcases h with rfl | h
        · exact not_mem_lineTail s
        · refine ih _ ?_ h rfl
          have hlength := congrArg List.length (lineTail_append_lineRest hs)
          rw [List.length_append, List.length_cons] at hlength
          omega
      · rw [lines_of_not_mem hs, List.mem_singleton] at h
        exact h ▸ hs

/-- A text in front of the first line. -/
theorem lines_append_left {p : Str} (hp : '\n' ∉ p) (t : Str) :
    lines (p ++ t) = Woven.onFirst [] (p ++ ·) (lines t) := by
  by_cases ht : '\n' ∈ t
  · rw [← lineTail_append_lineRest ht, ← List.append_assoc, lines_append_newline, lines_append_newline,
      lines_of_not_mem (not_mem_lineTail t), lines_of_not_mem (by simp [hp, not_mem_lineTail])]
    rfl
  · rw [lines_of_not_mem ht, lines_of_not_mem (by simp [hp, ht])]
    rfl

/-- A text behind the last line. -/
theorem lines_append_right {s : Str} (hs : '\n' ∉ s) (t : Str) :
    lines (t ++ s) = Woven.onLast [] (· ++ s) (lines t) := by
  obtain ⟨front, hfront⟩ := exists_lines_append t
  have hlast := hfront []
  rw [List.append_nil, List.append_nil, lines_of_not_mem (not_mem_lastLine t)] at hlast
  rw [hfront, hlast, lines_of_not_mem (by simp [hs, not_mem_lastLine]),
    Woven.onLast_append _ (List.cons_ne_nil _ _)]
  rfl

/-! ## A merge inside of a text -/

theorem onFirst_lines_toStr {d : Doc} (hd : ∀ l ∈ d.lines, '\n' ∉ l) (f : Line → Line) :
    Woven.onFirst [] f (lines d.toStr) = Woven.onFirst [] f d.lines := by
  unfold Doc.toStr
  by_cases hnil : d.lines = []
  · rw [hnil]
    rfl
  · rw [lines, List.splitOn_intercalate '\n' hd hnil]

theorem onLast_lines_toStr {d : Doc} (hd : ∀ l ∈ d.lines, '\n' ∉ l) (f : Line → Line) :
    Woven.onLast [] f (lines d.toStr) = Woven.onLast [] f d.lines := by
  unfold Doc.toStr
  by_cases hnil : d.lines = []
  · rw [hnil]
    rfl
  · rw [lines, List.splitOn_intercalate '\n' hd hnil]

/-- Between two texts, a document keeps what a side it is cut in step with has in excess, if the
    first or the last line stands alone. -/
theorem mem_lines_of_woven {b l : Str} {d : Doc} (hw : Woven (lines b) (lines l) d.lines)
    (hd : ∀ l ∈ d.lines, '\n' ∉ l) {lead tail : Str} (htail : '\n' ∉ tail)
    (halone : lastLine lead = [] ∨ tail = []) {x : Line}
    (hx : (lines (lead ++ b ++ tail)).count x < (lines (lead ++ l ++ tail)).count x) :
    x ∈ lines (lead ++ d.toStr ++ tail) := by
  obtain ⟨front, hfront⟩ := exists_lines_append lead
  simp only [List.append_assoc] at hx ⊢
  rw [hfront, hfront, List.count_append, List.count_append] at hx
  rw [hfront]
  have hx' := Nat.lt_of_add_lt_add_left hx
  refine List.mem_append_right _ ?_
  rcases halone with hlead | rfl
  · rw [hlead] at hx' ⊢
    rw [List.nil_append, lines_append_right htail] at hx' ⊢
    rw [List.nil_append, lines_append_right htail] at hx'
    rw [onLast_lines_toStr hd]
    exact hw.mem_onLast_of_count_lt [] _ hx'
  · simp only [List.append_nil] at hx' ⊢
    have hlast := not_mem_lastLine lead
    rw [lines_append_left hlast, lines_append_left hlast] at hx'
    rw [lines_append_left hlast, onFirst_lines_toStr hd]
    exact hw.mem_onFirst_of_count_lt [] _ hx'

/-- A text in front of the first line and one behind the last. -/
theorem lines_append_both {p s : Str} (hp : '\n' ∉ p) (hs : '\n' ∉ s) (t : Str) :
    lines (p ++ (t ++ s)) = Woven.onEnds [] (p ++ ·) (· ++ s) (lines t) := by
  rw [← List.append_assoc, lines_append_right hs, lines_append_left hp, Woven.onEnds]

/-- Between two texts, a document that grips a side keeps what the side has in excess. -/
theorem mem_lines_of_gripped {b l : Str} {d : Doc} (hg : Gripped (lines b) (lines l) d.lines)
    (hd : ∀ l ∈ d.lines, '\n' ∉ l) {lead tail : Str} (htail : '\n' ∉ tail) {x : Line}
    (hx : (lines (lead ++ b ++ tail)).count x < (lines (lead ++ l ++ tail)).count x) :
    x ∈ lines (lead ++ d.toStr ++ tail) := by
  obtain ⟨front, hfront⟩ := exists_lines_append lead
  simp only [List.append_assoc] at hx ⊢
  rw [hfront, hfront, List.count_append, List.count_append] at hx
  rw [hfront]
  have hx' := Nat.lt_of_add_lt_add_left hx
  have hlast := not_mem_lastLine lead
  rw [lines_append_both hlast htail, lines_append_both hlast htail] at hx'
  rw [lines_append_both hlast htail, Woven.onEnds, onFirst_lines_toStr hd]
  exact List.mem_append_right _ (hg.mem_onEnds_of_count_lt [] _ _ hx')

/-! ## Blocks -/

/-- The blocks of a row: each text with the lines in front of it and the rest of its own. -/
def blocks : List Str → List Str → List Str
  | gap :: next :: gaps, text :: texts =>
      (lineRest gap ++ text ++ lineTail next) :: blocks (next :: gaps) texts
  | _, _ => []

theorem lines_interleave {gaps texts : List Str} (hlength : gaps.length = texts.length + 1)
    (hgaps : ∀ g ∈ gaps, '\n' ∈ g) (u v : Str) :
    lines (u ++ interleave gaps texts ++ v) = lines (u ++ lineTail (gaps.getD 0 [])) ++
      ((blocks gaps texts).flatMap lines ++ lines (lineRest (gaps.getD texts.length []) ++ v)) := by
  have hcut : ∀ {gap : Str}, '\n' ∈ gap → ∀ w z : Str,
      lines (w ++ gap ++ z) = lines (w ++ lineTail gap) ++ lines (lineRest gap ++ z) := by
    intro gap hgap w z
    conv_lhs => rw [← lineTail_append_lineRest hgap]
    rw [← lines_append_newline]
    simp only [List.append_assoc, List.cons_append]
  induction texts generalizing gaps u with
  | nil =>
      obtain ⟨gap, rfl⟩ := List.length_eq_one_iff.mp hlength
      exact hcut (hgaps gap List.mem_cons_self) u v
  | cons text texts ih =>
      match gaps, hlength with
      | gap :: next :: gaps, hlength =>
          obtain ⟨hgap, hrest⟩ := List.forall_mem_cons.mp hgaps
          have hnext := ih (by simpa using hlength) hrest (lineRest gap ++ text)
          rw [interleave, show u ++ (gap ++ text ++ interleave (next :: gaps) texts) ++ v =
              u ++ gap ++ (text ++ interleave (next :: gaps) texts ++ v) by simp only [List.append_assoc],
            hcut hgap, ← List.append_assoc (lineRest gap), ← List.append_assoc (lineRest gap), hnext,
            blocks, List.flatMap_cons]
          simp only [List.append_assoc]
          rfl

theorem getElem?_blocks {gaps texts : List Str} (hlength : gaps.length = texts.length + 1) (k : Nat) :
    (blocks gaps texts)[k]? = texts[k]?.map fun text =>
      lineRest (gaps.getD k []) ++ text ++ lineTail (gaps.getD (k + 1) []) := by
  induction texts generalizing gaps k with
  | nil =>
      obtain ⟨gap, rfl⟩ := List.length_eq_one_iff.mp hlength
      rfl
  | cons text texts ih =>
      match gaps, hlength with
      | gap :: next :: gaps, hlength =>
          cases k with
          | zero => rfl
          | succ k => exact ih (by simpa using hlength) k

namespace Segmentation

/-- What stands in front of an item, behind the line break of its gap. -/
def before (seg : Segmentation) (k : Nat) : Str := lineRest (seg.gaps.getD k [])

/-- What stands behind an item on its last line. -/
def behind (seg : Segmentation) (k : Nat) : Str := lineTail (seg.gaps.getD (k + 1) [])

/-- How often a line is one of an item's block. -/
def weight (seg : Segmentation) (x : Line) (k : Nat) : Nat :=
  (seg.items[k]?.map fun it => (lines (seg.before k ++ it.originalText ++ seg.behind k)).count x).getD 0

/-- Every gap holds a line break. -/
def Broken (seg : Segmentation) : Prop := ∀ g ∈ seg.gaps, '\n' ∈ g

/-- How often a line is one of a segmentation. -/
theorem count_joined {seg : Segmentation} (hgaps : seg.gaps.length = seg.items.length + 1) (hbroken : seg.Broken)
    (x : Line) (u v : Str) :
    (lines (u ++ seg.joined ++ v)).count x = (lines (u ++ lineTail (seg.gaps.getD 0 []))).count x +
      (((List.range seg.items.length).map (seg.weight x)).sum +
        (lines (lineRest (seg.gaps.getD seg.items.length []) ++ v)).count x) := by
  have hlength : seg.gaps.length = (seg.items.map Item.originalText).length + 1 := by rw [List.length_map, hgaps]
  have hweights : (blocks seg.gaps (seg.items.map Item.originalText)).map (List.count x ∘ lines) =
      (List.range seg.items.length).map (seg.weight x) := by
    refine List.ext_getElem? fun k => ?_
    rw [List.getElem?_map, List.getElem?_map, getElem?_blocks hlength, List.getElem?_map]
    by_cases hk : k < seg.items.length
    · rw [List.getElem?_range hk, List.getElem?_eq_getElem hk]
      simp only [Option.map_some, weight, List.getElem?_eq_getElem hk, Option.getD_some]
      rfl
    · rw [List.getElem?_eq_none (by simpa using hk), List.getElem?_eq_none (by simpa using hk)]
      rfl
  unfold joined
  rw [lines_interleave hlength hbroken, List.count_append, List.count_append, List.count_flatMap, hweights,
    List.length_map]

end Segmentation

end Omoplata
