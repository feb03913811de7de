-- SUMMARY: Which lines that a side adds come out of a structural merge, and one that does not.
import Omoplata.Drivers.Assembly
import Omoplata.Drivers.Gaps
import Omoplata.Drivers.TakeSide

/-!
# Added lines

The text between two items belongs to neither. A structural merge takes it from the base
wherever the base has the item behind it, whatever a side has there, so that a line a side
adds between items it shares with the base is gone without a conflict. Where the sides
leave that text alone, and every item comes out with the rest of its own line behind it,
each line that a side has more often than the base is a line of the merge.
-/

namespace Omoplata

/-! ## Sides that leave the gaps alone -/

/-- A side that leaves alone what stands around the items it shares with the base: in front of
    the first line break, around each shared item, and behind the last. -/
structure Stays (base side : Segmentation) : Prop where
  head : lineTail (side.gaps.getD 0 []) = lineTail (base.gaps.getD 0 [])
  shared : ∀ i j : Nat, (pair base side).baseToSide[i]? = some (some j) →
    side.before j = base.before i ∧ side.behind j = base.behind i
  trailing : lineRest (side.gaps.getD side.items.length []) = lineRest (base.gaps.getD base.items.length [])

section

variable (base left right : Segmentation)

namespace Slot

/-- What stands in front of an item, in its own segmentation. -/
def before (s : Slot) : Str := (s.source base left right).before s.index

/-- What stands behind an item on its line, in its own segmentation. -/
def behind (s : Slot) : Str := (s.source base left right).behind s.index

end Slot

/-- In an output that ends with `closing`, every item has the rest of its own line behind it. -/
def Fits (closing : Str) : List Slot → Prop
  | [] => True
  | s :: rest => s.behind base left right =
      lineTail ((rest.head?.map fun next => next.gap base left right).getD closing) ∧ Fits closing rest

/-- Nothing is lost around the items of a merge; `mend` is asked of an item both sides changed,
    between the text in front of it and the text behind it. -/
structure SteadyWith (mend : Str → Str → Item → Item → Item → Prop) (closing : Str) : Prop where
  leftStays : Stays base left
  rightStays : Stays base right
  fits : Fits base left right closing (slots base left right)
  /-- Items added alike on both sides stand between the same texts. -/
  twins : ∀ lj ∈ (pair base left).added, ∀ rj ∈ (pair base right).added, SameText left right lj rj →
    right.before rj = left.before lj ∧ right.behind rj = left.behind lj
  /-- Taking conflict values out of a base item leaves no line more often than it was. -/
  both : ∀ (i : Nat) (it l r : Item), base.items[i]? = some it →
    counterpart left (pair base left) i = some l → counterpart right (pair base right) i = some r →
    l.originalText ≠ it.originalText → r.originalText ≠ it.originalText →
    (∀ x, (lines (base.before i ++ it.text ++ base.behind i)).count x ≤
      (lines (base.before i ++ it.originalText ++ base.behind i)).count x) ∧
    mend (base.before i) (base.behind i) it l r

end

/-- The parts of a container that all three sides have under one header and footer. -/
def containerSides (G : Grammar) (base l r : Item) :
    Option (ContainerParts × ContainerParts × ContainerParts) :=
  if !(recursable base.definition.kind && l.definition.kind == base.definition.kind &&
      r.definition.kind == base.definition.kind) then none
  else do
    let bp ← splitContainer G base.text
    let lp ← splitContainer G l.text
    let rp ← splitContainer G r.text
    if !(bp.header == lp.header && bp.header == rp.header) then none
    else if !(bp.footer == lp.footer && bp.footer == rp.footer) then none
    else some (bp, lp, rp)

/-- An item merged by lines, on sides that differ, has its first or its last line for itself; or
    its lines hold the texts in front of it and behind it apart. -/
def MergesApart (lead tail : Str) (it l r : Item) : Prop :=
  l.text = r.text ∨ lastLine lead = [] ∨ tail = [] ∨
    ¬ Pinched (mergeCut (Doc.fromStr it.text) (Doc.fromStr l.text) (Doc.fromStr r.text))

/-- Nothing is lost around the items of a merge with `depth` levels of containers left, nor
    around the members of the containers it goes into. -/
def Steady (G : Grammar) : Nat → Str → Segmentation → Segmentation → Segmentation → Prop
  | 0, closing, base, left, right => SteadyWith base left right MergesApart closing
  | depth + 1, closing, base, left, right => SteadyWith base left right (fun lead tail it l r =>
      match containerSides G it l r with
      | some (bp, lp, rp) => (bp.members.Broken ∧ lp.members.Broken ∧ rp.members.Broken) ∧
          Steady G depth ((bp.members.gaps.getLast?).getD []) bp.members lp.members rp.members
      | none => MergesApart lead tail it l r) closing

/-! ## One level -/

/-- A segmentation with a line break in every gap. -/
structure Laid (seg : Segmentation) : Prop where
  gaps : seg.gaps.length = seg.items.length + 1
  broken : seg.Broken
  originals : ∀ it ∈ seg.items, it.carried = [] → it.originalText = it.text

namespace Stays

variable {base side : Segmentation}

theorem weight_eq {seg : Segmentation} {x : Line} {k : Nat} (h : 0 < seg.weight x k) :
    ∃ it, seg.items[k]? = some it ∧
      seg.weight x k = (lines (seg.before k ++ it.originalText ++ seg.behind k)).count x := by
  unfold Segmentation.weight at h ⊢
  cases hit : seg.items[k]? with
  | none => simp [hit] at h
  | some it => exact ⟨it, rfl, rfl⟩

/-- What a side has in excess is in an item it added, or in a shared one between the texts the
    base has around it. -/
theorem excess (hs : Stays base side) (hbase : Laid base) (hside : Laid side) {x : Line} {u v : Str}
    (hx : (lines (u ++ base.joined ++ v)).count x < (lines (u ++ side.joined ++ v)).count x) :
    (∃ i it s, base.items[i]? = some it ∧ counterpart side (pair base side) i = some s ∧
      (lines (base.before i ++ it.originalText ++ base.behind i)).count x <
        (lines (base.before i ++ s.originalText ++ base.behind i)).count x) ∨
    ∃ j ∈ (pair base side).added, ∃ s, side.items[j]? = some s ∧
      x ∈ lines (side.before j ++ s.originalText ++ side.behind j) := by
  rw [Segmentation.count_joined hbase.gaps hbase.broken, Segmentation.count_joined hside.gaps hside.broken,
    hs.head, hs.trailing] at hx
  have hsum := Nat.lt_of_add_lt_add_right (Nat.lt_of_add_lt_add_left hx)
  have hpair := pair_ok base side
  rcases hpair.exists_excess hsum with ⟨i, j, hij, hlt⟩ | ⟨j, hj, hpos⟩
  · obtain ⟨s, hs', hweight⟩ := weight_eq (Nat.zero_lt_of_lt hlt)
    obtain ⟨hbefore, hbehind⟩ := hs.shared i j hij
    have hi : i < base.items.length := hpair.length ▸ (List.getElem?_eq_some_iff.mp hij).1
    obtain ⟨it, hit⟩ : ∃ it, base.items[i]? = some it := ⟨_, List.getElem?_eq_getElem hi⟩
    refine .inl ⟨i, it, s, hit, ?_, ?_⟩
    · unfold counterpart
      rw [List.getD_eq_getElem?_getD, hij, Option.getD_some, Option.bind_some, hs']
    · rw [hweight, hbefore, hbehind, Segmentation.weight, hit] at hlt
      exact hlt
  · obtain ⟨s, hs', hweight⟩ := weight_eq hpos
    exact .inr ⟨j, hj, s, hs', List.count_pos_iff.mp (hweight ▸ hpos)⟩

end Stays

section

variable {base left right : Segmentation} {closing : Str}

/-- The block of an item in an output where every item has the rest of its line behind it. -/
theorem Fits.mem_blocks (body : Slot → Str) {all : List Slot} (h : Fits base left right closing all) {s : Slot}
    (hs : s ∈ all) :
    s.before base left right ++ body s ++ s.behind base left right ∈
      blocks (all.map (Slot.gap base left right) ++ [closing]) (all.map body) := by
  induction all with
  | nil => simp at hs
  | cons s' rest ih =>
      obtain ⟨hfit, hrest⟩ := h
      have hblocks : blocks ((s' :: rest).map (Slot.gap base left right) ++ [closing]) ((s' :: rest).map body) =
          (s'.before base left right ++ body s' ++ s'.behind base left right) ::
            blocks (rest.map (Slot.gap base left right) ++ [closing]) (rest.map body) := by
        rw [hfit]
        cases rest <;> rfl
      rw [hblocks]
      rcases List.mem_cons.mp hs with rfl | hin
      · exact List.mem_cons_self
      · exact List.mem_cons_of_mem _ (ih hrest hin)

/-! ## One item -/

variable {container : Item → Item → Item → Option Resolution}

/-- An item that both sides have, settled without a conflict: the side that changed it, or the
    two changes settled together. -/
theorem resolveBaseItem_clean {it l r : Item}
    (h : (resolveBaseItem container it (some l) (some r)).conflicts = []) :
    (r.originalText = it.originalText ∧ (resolveBaseItem container it (some l) (some r)).body = some l.originalText) ∨
    (l.originalText = it.originalText ∧ (resolveBaseItem container it (some l) (some r)).body = some r.originalText) ∨
    (l.originalText ≠ it.originalText ∧ r.originalText ≠ it.originalText ∧ l.carried = [] ∧ r.carried = [] ∧
      resolveBaseItem container it (some l) (some r) = (container it l r).getD (interiorMerge it l r)) := by
  unfold resolveBaseItem at h ⊢
  by_cases hl : l.originalText = it.originalText
  · refine .inr (.inl ⟨hl, ?_⟩)
    by_cases hr : r.originalText = it.originalText
    · simp only [hl, hr, ne_eq, not_true_eq_false, decide_false]
      split <;> rfl
    · simp only [hl, hr, ne_eq, not_true_eq_false, not_false_eq_true, decide_true, decide_false]
      exact (keepOrCarry_body r).1
  · by_cases hr : r.originalText = it.originalText
    · refine .inl ⟨hr, ?_⟩
      simp only [hl, hr, ne_eq, not_true_eq_false, not_false_eq_true, decide_true, decide_false]
      exact (keepOrCarry_body l).1
    · simp only [hl, hr, ne_eq, not_false_eq_true, decide_true] at h ⊢
      split at h
      · simp [Resolution.conflicts] at h
      · rename_i hcarried
        simp only [Bool.or_eq_true, Bool.not_eq_true', List.isEmpty_eq_false_iff, not_or, not_not] at hcarried
        rw [if_neg (by simp [hcarried.1, hcarried.2])]
        exact .inr (.inr ⟨trivial, trivial, hcarried.1, hcarried.2, rfl⟩)

/-- An item that only one side has, settled without a conflict, is as it was on that side. -/
theorem resolveBaseItem_deleted {it s : Item} :
    ((resolveBaseItem container it (some s) none).conflicts = [] → s.originalText = it.originalText) ∧
      ((resolveBaseItem container it none (some s)).conflicts = [] → s.originalText = it.originalText) := by
  unfold resolveBaseItem
  by_cases hs : s.originalText = it.originalText
  · exact ⟨fun _ => hs, fun _ => hs⟩
  · simp [hs, Resolution.conflicts]

/-- Without a conflict an item comes out if both sides have it. -/
theorem resolveBaseItem_isSome
    (hcontainer : ∀ b l r res, container b l r = some res → res.body.isSome = true) (it : Item)
    (l r : Option Item) (h : (resolveBaseItem container it l r).conflicts = []) :
    (resolveBaseItem container it l r).body.isSome = (l.isSome && r.isSome) := by
  cases l with
  | none =>
      cases r with
      | none => rfl
      | some r =>
          have hr := resolveBaseItem_deleted.2 h
          simp only [resolveBaseItem, if_pos hr]
          rfl
  | some l =>
      cases r with
      | none =>
          have hl := resolveBaseItem_deleted.1 h
          simp only [resolveBaseItem, if_pos hl]
          rfl
      | some r =>
          rcases resolveBaseItem_clean h with ⟨-, hbody⟩ | ⟨-, hbody⟩ | ⟨-, -, -, -, heq⟩
          · rw [hbody]
            rfl
          · rw [hbody]
            rfl
          · rw [heq]
            cases hres : container it l r with
            | none =>
                unfold interiorMerge
                rw [Option.getD_none]
                dsimp only
                split <;> rfl
            | some res => exact hcontainer it l r res hres

/-- Settling two changes of one item keeps what either adds. -/
def Keeps (settle : Item → Item → Item → Resolution) (mend : Str → Str → Item → Item → Item → Prop) : Prop :=
  ∀ (lead tail : Str) (it l r : Item) (m : Str) (x : Line), '\n' ∉ tail → mend lead tail it l r →
    (settle it l r).conflicts = [] → (settle it l r).body = some m →
    ((lines (lead ++ it.text ++ tail)).count x < (lines (lead ++ l.text ++ tail)).count x ∨
      (lines (lead ++ it.text ++ tail)).count x < (lines (lead ++ r.text ++ tail)).count x) →
    x ∈ lines (lead ++ m ++ tail)

/-- What a shared item has in excess on a side comes out between the texts of the base. -/
theorem SteadyWith.settled_keeps {mend : Str → Str → Item → Item → Item → Prop}
    (hs : SteadyWith base left right mend closing)
    (hkeeps : Keeps (fun it l r => (container it l r).getD (interiorMerge it l r)) mend)
    (hleft : Laid left) (hright : Laid right) {i : Nat} {it l r : Item} (hit : base.items[i]? = some it)
    (hl : counterpart left (pair base left) i = some l) (hr : counterpart right (pair base right) i = some r)
    {m : Str} (hclean : (resolveBaseItem container it (some l) (some r)).conflicts = [])
    (hm : (resolveBaseItem container it (some l) (some r)).body = some m) {x : Line}
    (hx : ∃ s, (s = l ∨ s = r) ∧ (lines (base.before i ++ it.originalText ++ base.behind i)).count x <
      (lines (base.before i ++ s.originalText ++ base.behind i)).count x) :
    x ∈ lines (base.before i ++ m ++ base.behind i) := by
  obtain ⟨s, hside, hlt⟩ := hx
  have hpos := List.count_pos_iff.mp (Nat.zero_lt_of_lt hlt)
  have hchanged : s.originalText ≠ it.originalText := fun heq => absurd (heq ▸ hlt) (Nat.lt_irrefl _)
  rcases resolveBaseItem_clean hclean with ⟨hsame, hbody⟩ | ⟨hsame, hbody⟩ | ⟨hlne, hrne, hlc, hrc, heq⟩
  · obtain rfl := Option.some.inj (hm.symm.trans hbody)
    rcases hside with rfl | rfl
    · exact hpos
    · exact absurd hsame hchanged
  · obtain rfl := Option.some.inj (hm.symm.trans hbody)
    rcases hside with rfl | rfl
    · exact absurd hsame hchanged
    · exact hpos
  · obtain ⟨hsanitized, hmend⟩ := hs.both i it l r hit hl hr hlne hrne
    rw [heq] at hclean hm
    have hlt' := Nat.lt_of_le_of_lt (hsanitized x) hlt
    refine hkeeps _ _ it l r m x (not_mem_lineTail _) hmend hclean hm ?_
    rcases hside with rfl | rfl
    · exact .inl (hleft.originals s (mem_of_counterpart hl) hlc ▸ hlt')
    · exact .inr (hright.originals s (mem_of_counterpart hr) hrc ▸ hlt')

/-! ## One level -/

/-- A line is in a block of the output. -/
def InBlock (container : Item → Item → Item → Option Resolution) (base left right : Segmentation) (closing : Str)
    (x : Line) : Prop :=
  ∃ t ∈ blocks ((slots base left right).map (Slot.gap base left right) ++ [closing])
    ((slots base left right).map (Slot.body base left right (resolveBaseItem container))), x ∈ lines t

/-- Every line that a side has in excess is in a block of the output. -/
theorem SteadyWith.mem_blocks {mend : Str → Str → Item → Item → Item → Prop}
    (hs : SteadyWith base left right mend closing)
    (hcontainer : ∀ b l r res, container b l r = some res → res.body.isSome = true)
    (hkeeps : Keeps (fun it l r => (container it l r).getD (interiorMerge it l r)) mend)
    (hclean : Clean base left right (resolveBaseItem container)) (hbase : Laid base) (hleft : Laid left)
    (hright : Laid right) {x : Line} {u v : Str}
    (hx : ∃ side, (side = left ∨ side = right) ∧
      (lines (u ++ base.joined ++ v)).count x < (lines (u ++ side.joined ++ v)).count x) :
    InBlock container base left right closing x := by
  -- a place whose block has the line
  have hplace : ∀ {s : Slot} {text : Str}, s ∈ slots base left right →
      s.body base left right (resolveBaseItem container) = text →
      x ∈ lines (s.before base left right ++ text ++ s.behind base left right) →
      InBlock container base left right closing x := by
    rintro s text hin rfl hline
    exact ⟨_, hs.fits.mem_blocks _ hin, hline⟩
  have hadded : ∀ {side : Segmentation} {j : Nat} {it : Item}, side.items[j]? = some it →
      (side.items[j]?.map Item.originalText).getD [] = it.originalText := fun hit => by
    rw [hit]
    rfl
  -- an item that a side shares with the base and changed
  have hshared : ∀ (i : Nat) (it s : Item), base.items[i]? = some it →
      (counterpart left (pair base left) i = some s ∨ counterpart right (pair base right) i = some s) →
      (lines (base.before i ++ it.originalText ++ base.behind i)).count x <
        (lines (base.before i ++ s.originalText ++ base.behind i)).count x →
      InBlock container base left right closing x := by
    intro i it s hit hside hlt
    have hchanged : s.originalText ≠ it.originalText := fun heq => absurd (heq ▸ hlt) (Nat.lt_irrefl _)
    have hsettled := hclean.settled i it hit
    unfold settled at hsettled
    dsimp only at hsettled
    cases hl : counterpart left (pair base left) i with
    | none =>
        rw [hl] at hside hsettled
        obtain hr := hside.resolve_left (by simp)
        rw [hr] at hsettled
        exact absurd (resolveBaseItem_deleted.2 hsettled) hchanged
    | some l =>
        cases hr : counterpart right (pair base right) i with
        | none =>
            rw [hr] at hside hsettled
            obtain hl' := hside.resolve_right (by simp)
            rw [hl'] at hsettled
            exact absurd (resolveBaseItem_deleted.1 hsettled) hchanged
        | some r =>
            rw [hl, hr] at hsettled hside
            have hsome := resolveBaseItem_isSome hcontainer it (some l) (some r) hsettled
            obtain ⟨m, hm⟩ := Option.isSome_iff_exists.mp hsome
            have hi : i < base.items.length := (List.getElem?_eq_some_iff.mp hit).1
            have hsurvivor : i ∈ survivors base left right :=
              List.mem_filter.mpr ⟨List.mem_range.mpr hi, by simp [hl, hr]⟩
            have hin : Slot.base i ∈ slots base left right :=
              List.mem_append_left _ (List.mem_append_left _ (List.mem_map_of_mem hsurvivor))
            refine @hplace _ m hin ?_ (hs.settled_keeps hkeeps hleft hright hit hl hr hsettled hm
              ⟨s, by simpa [eq_comm] using hside, hlt⟩)
            unfold Slot.body
            dsimp only
            rw [hit, Option.bind_some]
            unfold settled
            dsimp only
            rw [hl, hr, hm, Option.getD_some]
  have hleftAdded : ∀ lj ∈ (pair base left).added, ∀ it, left.items[lj]? = some it →
      x ∈ lines (left.before lj ++ it.originalText ++ left.behind lj) →
      InBlock container base left right closing x := by
    intro lj hlj it hit hline
    have hin : Slot.left lj ∈ slots base left right :=
      List.mem_append_left _ (List.mem_append_right _ (List.mem_map_of_mem hlj))
    exact hplace hin (hadded hit) hline
  obtain ⟨side, hside, hlt⟩ := hx
  rcases hside with rfl | rfl
  · rcases hs.leftStays.excess hbase hleft hlt with ⟨i, it, s, hit, hcounter, hitem⟩ | ⟨j, hj, s, hjs, hline⟩
    · exact hshared i it s hit (.inl hcounter) hitem
    · exact hleftAdded j hj s hjs hline
  · rcases hs.rightStays.excess hbase hright hlt with ⟨i, it, s, hit, hcounter, hitem⟩ | ⟨j, hj, s, hjs, hline⟩
    · exact hshared i it s hit (.inr hcounter) hitem
    · rcases hclean.added j hj with hother | ⟨lj, hlj, hsame⟩
      · exact hplace (List.mem_append_right _ (List.mem_map_of_mem hother)) (hadded hjs) hline
      · -- an item that the left side added alike
        obtain ⟨hbefore, hbehind⟩ := hs.twins lj hlj j hj hsame
        obtain ⟨litem, ritem, hlit, hrit, htext⟩ := hsame
        obtain rfl := Option.some.inj (hjs.symm.trans hrit)
        rw [hbefore, hbehind, htext] at hline
        exact hleftAdded lj hlj litem hlit hline

end

/-! ## Items that both sides changed -/

theorem not_mem_of_mem_fromStr {s : Str} {l : Line} (h : l ∈ (Doc.fromStr s).lines) : '\n' ∉ l :=
  not_mem_of_mem_lines h

theorem newline_notMem_merge3 {b l r : Str} {line : Line}
    (h : line ∈ (merge3 (Doc.fromStr b) (Doc.fromStr l) (Doc.fromStr r)).merged.lines) : '\n' ∉ line := by
  rcases mem_merge3 h with h | h | h
  · exact not_mem_of_mem_fromStr h
  · exact not_mem_of_mem_fromStr h
  · exact (by decide : ∀ line ∈ [conflictStart, conflictSep, conflictEnd], '\n' ∉ line) line h

/-- Merging the lines of an item keeps what either side adds. -/
theorem interiorMerge_keeps {lead tail : Str} {it l r : Item} {m : Str} {x : Line} (htail : '\n' ∉ tail)
    (halone : MergesApart lead tail it l r) (hclean : (interiorMerge it l r).conflicts = [])
    (hm : (interiorMerge it l r).body = some m)
    (hx : (lines (lead ++ it.text ++ tail)).count x < (lines (lead ++ l.text ++ tail)).count x ∨
      (lines (lead ++ it.text ++ tail)).count x < (lines (lead ++ r.text ++ tail)).count x) :
    x ∈ lines (lead ++ m ++ tail) := by
  -- two sides alike are taken as they are
  by_cases hsame : l.text = r.text
  · have heq : interiorMerge it l r = .keep r.text := by
      unfold interiorMerge
      rw [hsame]
      simp only [merge3_same, Doc.toStr_fromStr]
      rfl
    rw [heq] at hm
    obtain rfl := Option.some.inj hm
    rw [hsame, or_self] at hx
    exact List.count_pos_iff.mp (Nat.zero_lt_of_lt hx)
  · have halone' := halone.resolve_left hsame
    unfold interiorMerge at hclean hm
    dsimp only at hclean hm
    cases hmerge : (merge3 (Doc.fromStr it.text) (Doc.fromStr l.text) (Doc.fromStr r.text)).isClean with
    | true =>
        rw [if_pos hmerge] at hm
        obtain rfl := Option.some.inj hm
        -- the lines of a clean merge are lines of the sides, so none of them has a newline
        have hfree : ∀ l' ∈ (merge3 (Doc.fromStr it.text) (Doc.fromStr l.text) (Doc.fromStr r.text)).merged.lines,
            '\n' ∉ l' := by
          intro l' hl'
          rcases mem_of_mem_merge3 hmerge hl' with hin | hin
          · exact not_mem_of_mem_fromStr hin
          · exact not_mem_of_mem_fromStr hin
        rcases or_assoc.mpr halone' with halone' | hpinched
        · obtain ⟨hleft, hright⟩ := merge3_woven hmerge
          rcases hx with hx | hx
          · exact mem_lines_of_woven hleft hfree htail halone' hx
          · exact mem_lines_of_woven hright hfree htail halone' hx
        · -- The first line and the last one are not changed by one region.
          obtain ⟨hleft, hright⟩ := merge3_gripped hmerge hpinched
          rcases hx with hx | hx
          · exact mem_lines_of_gripped hleft hfree htail hx
          · exact mem_lines_of_gripped hright hfree htail hx
    | false =>
        rw [if_neg (by simp [hmerge])] at hclean
        rw [Merge.isClean, List.isEmpty_eq_false_iff] at hmerge
        exact absurd hclean hmerge

theorem tryContainerMerge_eq (G : Grammar)
    (merge : Segmentation → Segmentation → Segmentation → DriverOutput) (base l r : Item) :
    tryContainerMerge G merge base l r = (containerSides G base l r).map fun (bp, lp, rp) =>
      let out := merge bp.members lp.members rp.members
      let rendered := bp.header ++ out.merged ++ bp.footer
      if out.conflicts.isEmpty && out.carried.isEmpty then .keep rendered
      else if out.conflicts.isEmpty then .carry rendered out.carried
      else .conflict rendered (out.conflicts ++ out.carried) := by
  unfold tryContainerMerge containerSides
  split
  · rfl
  · cases splitContainer G base.text with
    | none => rfl
    | some bp =>
        cases splitContainer G l.text with
        | none => rfl
        | some lp =>
            cases splitContainer G r.text with
            | none => rfl
            | some rp =>
                simp only [Option.bind_eq_bind, Option.bind_some]
                split
                · rfl
                · split
                  · rfl
                  · rw [Option.map_some]
                    dsimp only
                    split
                    · rfl
                    · split <;> rfl

theorem tryContainerMerge_isSome {G : Grammar}
    {merge : Segmentation → Segmentation → Segmentation → DriverOutput} {b l r : Item} {res : Resolution}
    (h : tryContainerMerge G merge b l r = some res) : res.body.isSome = true := by
  rw [tryContainerMerge_eq] at h
  obtain ⟨parts, -, rfl⟩ := Option.map_eq_some_iff.mp h
  dsimp only
  split
  · rfl
  · split <;> rfl

/-- The parts of a shared container make up its texts, under one header and footer. -/
theorem containerSides_ok {G : Grammar} {base l r : Item} {bp lp rp : ContainerParts}
    (h : containerSides G base l r = some (bp, lp, rp)) :
    splitContainer G base.text = some bp ∧ splitContainer G l.text = some lp ∧
      splitContainer G r.text = some rp ∧ bp.header = lp.header ∧ bp.header = rp.header ∧
      bp.footer = lp.footer ∧ bp.footer = rp.footer := by
  unfold containerSides at h
  split at h
  · simp at h
  · obtain ⟨bp', hb, h⟩ := Option.bind_eq_some_iff.mp h
    obtain ⟨lp', hl, h⟩ := Option.bind_eq_some_iff.mp h
    obtain ⟨rp', hr, h⟩ := Option.bind_eq_some_iff.mp h
    split at h
    · simp at h
    · rename_i hheader
      split at h
      · simp at h
      · rename_i hfooter
        simp only [Option.some.injEq, Prod.mk.injEq] at h
        obtain ⟨rfl, rfl, rfl⟩ := h
        simp only [Bool.not_eq_true', Bool.not_eq_false, Bool.and_eq_true, beq_iff_eq] at hheader hfooter
        exact ⟨hb, hl, hr, hheader.1, hheader.2, hfooter.1, hfooter.2⟩

/-- The members of a container with a line break in every gap. -/
theorem laid_members {G : Grammar} {text : Str} {parts : ContainerParts} (h : splitContainer G text = some parts)
    (hbroken : parts.members.Broken) : Laid parts.members := by
  obtain ⟨-, pos, limit, hcovers⟩ := splitContainer_ok h
  exact ⟨hcovers.length_gaps, hbroken, fun it hit _ => (hcovers.carried hit).2⟩

theorem interleave_row (gaps : Slot → Str) (body : Slot → Str) (closing : Str) (all : List Slot) :
    interleave (all.map gaps ++ [closing]) (all.map body) =
      rowText (all.map fun s => (gaps s, body s)) ++ closing := by
  induction all with
  | nil => rfl
  | cons s rest ih =>
      have hcons : rowText ((s :: rest).map fun s => (gaps s, body s)) =
          gaps s ++ body s ++ rowText (rest.map fun s => (gaps s, body s)) := List.flatMap_cons
      rw [hcons, List.map_cons, List.map_cons, List.cons_append, interleave, ih]
      simp only [List.append_assoc]

/-- How an item is settled with `depth` levels of containers left. -/
def containerAt (G : Grammar) : Nat → Item → Item → Item → Option Resolution
  | 0 => fun _ _ _ => none
  | depth + 1 => tryContainerMerge G (structuralMerge G depth)

theorem structuralMerge_eq (G : Grammar) (depth : Nat) :
    structuralMerge G depth = structuralMergeWith (resolveBaseItem (containerAt G depth)) := by
  cases depth <;> rfl

theorem containerAt_isSome (G : Grammar) (depth : Nat) (b l r : Item) (res : Resolution)
    (h : containerAt G depth b l r = some res) : res.body.isSome = true := by
  cases depth with
  | zero => simp [containerAt] at h
  | succ depth => exact tryContainerMerge_isSome h

/-- What is asked of an item that both sides changed. -/
def mendAt (G : Grammar) : Nat → Str → Str → Item → Item → Item → Prop
  | 0 => MergesApart
  | depth + 1 => fun lead tail it l r =>
      match containerSides G it l r with
      | some (bp, lp, rp) => (bp.members.Broken ∧ lp.members.Broken ∧ rp.members.Broken) ∧
          Steady G depth ((bp.members.gaps.getLast?).getD []) bp.members lp.members rp.members
      | none => MergesApart lead tail it l r

theorem Steady.steadyWith {G : Grammar} {depth : Nat} {closing : Str} {base left right : Segmentation}
    (h : Steady G depth closing base left right) : SteadyWith base left right (mendAt G depth) closing := by
  cases depth <;> exact h

/-! ## The lines of an output -/

section

variable {base left right : Segmentation}

theorem index_lt_of_mem_slots {s : Slot} (hs : s ∈ slots base left right) :
    s.index < (s.source base left right).items.length := by
  have hadded : ∀ {side : Segmentation} {j : Nat}, j ∈ (pair base side).added → j < side.items.length :=
    fun {side j} hj => (((pair_ok base side).mem_added j).mp hj).1
  unfold slots at hs
  rcases List.mem_append.mp hs with hs | hs
  · rcases List.mem_append.mp hs with hs | hs
    · obtain ⟨i, hi, rfl⟩ := List.mem_map.mp hs
      exact List.mem_range.mp (List.mem_filter.mp hi).1
    · obtain ⟨j, hj, rfl⟩ := List.mem_map.mp hs
      exact hadded hj
  · obtain ⟨j, hj, rfl⟩ := List.mem_map.mp hs
    exact hadded (List.mem_filter.mp hj).1

theorem mem_gap_of_mem_slots (hbase : Laid base) (hleft : Laid left) (hright : Laid right) {s : Slot}
    (hs : s ∈ slots base left right) : '\n' ∈ s.gap base left right := by
  have hgap : ∀ {seg : Segmentation}, Laid seg → ∀ {k : Nat}, k < seg.items.length → '\n' ∈ seg.gaps.getD k [] := by
    intro seg hseg k hk
    have hlt : k < seg.gaps.length := by
      rw [hseg.gaps]
      omega
    rw [List.getD_eq_getElem?_getD, List.getElem?_eq_getElem hlt, Option.getD_some]
    exact hseg.broken _ (List.getElem_mem hlt)
  have hlt := index_lt_of_mem_slots hs
  cases s with
  | base i => exact hgap hbase hlt
  | left j => exact hgap hleft hlt
  | right j => exact hgap hright hlt

/-- The blocks of an output are lines of it. -/
theorem mem_lines_row {gaps body : Slot → Str} {closing : Str} {all : List Slot}
    (hgaps : ∀ s ∈ all, '\n' ∈ gaps s) (hclosing : '\n' ∈ closing) (u v : Str) :
    ∃ front back, front ≠ [] ∧ back ≠ [] ∧
      lines (u ++ (rowText (all.map fun s => (gaps s, body s)) ++ closing) ++ v) =
        front ++ ((blocks (all.map gaps ++ [closing]) (all.map body)).flatMap lines ++ back) := by
  have hlength : (all.map gaps ++ [closing]).length = (all.map body).length + 1 := by simp
  have hbroken : ∀ g ∈ all.map gaps ++ [closing], '\n' ∈ g := by
    intro g hg
    rcases List.mem_append.mp hg with hg | hg
    · obtain ⟨s, hs, rfl⟩ := List.mem_map.mp hg
      exact hgaps s hs
    · exact List.mem_singleton.mp hg ▸ hclosing
  rw [← interleave_row, lines_interleave hlength hbroken]
  exact ⟨_, _, lines_ne_nil _, lines_ne_nil _, rfl⟩

end

/-- Settling two changes of one item keeps what either adds, at every depth. -/
theorem containerAt_keeps (G : Grammar) (depth : Nat) :
    Keeps (fun it l r => (containerAt G depth it l r).getD (interiorMerge it l r)) (mendAt G depth) := by
  induction depth with
  | zero =>
      intro lead tail it l r m x htail hmend hclean hm hx
      exact interiorMerge_keeps htail hmend hclean hm hx
  | succ depth ih =>
      intro lead tail it l r m x htail hmend hclean hm hx
      have heq : containerAt G (depth + 1) it l r = tryContainerMerge G (structuralMerge G depth) it l r := rfl
      dsimp only at hclean hm
      rw [heq, tryContainerMerge_eq] at hclean hm
      unfold mendAt at hmend
      dsimp only at hmend
      cases hparts : containerSides G it l r with
      | none =>
          rw [hparts] at hmend hclean hm
          exact interiorMerge_keeps htail hmend hclean hm hx
      | some parts =>
          obtain ⟨bp, lp, rp⟩ := parts
          rw [hparts] at hmend hclean hm
          obtain ⟨⟨hbb, hlb, hrb⟩, hsteady⟩ := hmend
          obtain ⟨hb, hl, hr, hlheader, hrheader, hlfooter, hrfooter⟩ := containerSides_ok hparts
          have hbase := laid_members hb hbb
          have hleft := laid_members hl hlb
          have hright := laid_members hr hrb
          obtain ⟨hbtext, -⟩ := splitContainer_ok hb
          obtain ⟨hltext, -⟩ := splitContainer_ok hl
          obtain ⟨hrtext, -⟩ := splitContainer_ok hr
          rw [Option.map_some, Option.getD_some] at hclean hm
          dsimp only at hclean hm
          -- the members merge without a conflict into what the item comes out as
          have hmembers : (structuralMerge G depth bp.members lp.members rp.members).conflicts = [] ∧
              m = bp.header ++ (structuralMerge G depth bp.members lp.members rp.members).merged ++ bp.footer := by
            split at hclean
            · rename_i hempty
              rw [if_pos hempty] at hm
              rw [Bool.and_eq_true, List.isEmpty_iff, List.isEmpty_iff] at hempty
              exact ⟨hempty.1, (Option.some.inj hm).symm⟩
            · rename_i hne
              split at hclean
              · rename_i hempty
                rw [if_neg hne, if_pos hempty] at hm
                exact ⟨List.isEmpty_iff.mp hempty, (Option.some.inj hm).symm⟩
              · rename_i hconflicts
                have hnil := (List.append_eq_nil_iff.mp hclean).1
                exact absurd (List.isEmpty_iff.mpr hnil) hconflicts
          obtain ⟨hmembers, rfl⟩ := hmembers
          have hsettle := resolveBaseItem_isSome (containerAt_isSome G depth)
          rw [structuralMerge_eq] at hmembers ⊢
          obtain ⟨hcleanly, hmerged⟩ := structuralMergeWith_clean hsettle hmembers
          have hexcess : ∃ side, (side = lp.members ∨ side = rp.members) ∧
              (lines (lead ++ bp.header ++ bp.members.joined ++ (bp.footer ++ tail))).count x <
                (lines (lead ++ bp.header ++ side.joined ++ (bp.footer ++ tail))).count x := by
            rw [← hbtext, ← hltext, ← hrtext, ← hlheader, ← hrheader, ← hlfooter, ← hrfooter] at hx
            simp only [List.append_assoc] at hx ⊢
            rcases hx with hx | hx
            · exact ⟨lp.members, .inl rfl, hx⟩
            · exact ⟨rp.members, .inr rfl, hx⟩
          obtain ⟨t, ht, hxt⟩ := hsteady.steadyWith.mem_blocks (containerAt_isSome G depth) ih hcleanly hbase hleft
            hright hexcess
          have hclosing : '\n' ∈ (bp.members.gaps.getLast?).getD [] := by
            have hne : bp.members.gaps ≠ [] := List.ne_nil_of_length_eq_add_one hbase.gaps
            rw [List.getLast?_eq_getLast_of_ne_nil hne]
            exact hbb _ (List.getLast_mem hne)
          obtain ⟨front, back, -, -, hlines⟩ := @mem_lines_row
            (Slot.gap bp.members lp.members rp.members)
            (Slot.body bp.members lp.members rp.members (resolveBaseItem (containerAt G depth))) _ _
            (fun s hs => mem_gap_of_mem_slots hbase hleft hright hs) hclosing (lead ++ bp.header) (bp.footer ++ tail)
          rw [hmerged]
          simp only [List.append_assoc] at hlines ⊢
          rw [hlines]
          exact List.mem_append_right _ (List.mem_append_left _ (List.mem_flatMap.mpr ⟨t, ht, hxt⟩))

/-! ## Whole texts -/

/-- Gaps with a line break behind the last. -/
def closeLast : List Str → List Str
  | [] => []
  | [gap] => [gap ++ ['\n']]
  | gap :: next :: gaps => gap :: closeLast (next :: gaps)

theorem length_closeLast (gaps : List Str) : (closeLast gaps).length = gaps.length := by
  induction gaps using closeLast.induct with
  | case1 => rfl
  | case2 gap => rfl
  | case3 gap next gaps ih => exact congrArg (· + 1) ih

theorem getD_closeLast {gaps : List Str} {k : Nat} (hk : k + 1 < gaps.length) :
    (closeLast gaps).getD k [] = gaps.getD k [] := by
  induction gaps using closeLast.induct generalizing k with
  | case1 => simp at hk
  | case2 gap => simp at hk
  | case3 gap next gaps ih =>
      cases k with
      | zero => rfl
      | succ k => exact ih (by simpa using hk)

theorem interleave_closeLast {gaps texts : List Str} (h : gaps.length = texts.length + 1) :
    interleave (closeLast gaps) texts = interleave gaps texts ++ ['\n'] := by
  induction texts generalizing gaps with
  | nil =>
      obtain ⟨gap, rfl⟩ := List.length_eq_one_iff.mp h
      rfl
  | cons text texts ih =>
      match gaps, h with
      | gap :: next :: gaps, h =>
          rw [closeLast, interleave, ih (by simpa using h), interleave, List.append_assoc (gap ++ text)]

namespace Segmentation

/-- The segmentation of a text between two line breaks. -/
def bounded (seg : Segmentation) : Segmentation :=
  { seg with gaps := closeLast (seg.gaps.modifyHead ('\n' :: ·)) }

/-- No line holds parts of two items: there is a line break between any two. -/
def LinesApart (seg : Segmentation) : Prop :=
  ∀ k < seg.items.length, 0 < k → '\n' ∈ seg.gaps.getD k []

variable {seg : Segmentation}

theorem bounded_joined (h : seg.gaps.length = seg.items.length + 1) :
    seg.bounded.joined = '\n' :: seg.joined ++ ['\n'] := by
  obtain ⟨items, gaps⟩ := seg
  unfold bounded joined
  dsimp only at h ⊢
  match gaps, h with
  | gap :: gaps, h =>
      rw [List.modifyHead_cons, interleave_closeLast (by simpa using h)]
      congr 1
      cases items <;> rfl

theorem getD_bounded (h : seg.gaps.length = seg.items.length + 1) {k : Nat} (hk : k < seg.items.length) :
    seg.bounded.gaps.getD k [] = if k = 0 then '\n' :: seg.gaps.getD k [] else seg.gaps.getD k [] := by
  obtain ⟨items, gaps⟩ := seg
  unfold bounded
  dsimp only at h hk ⊢
  match gaps, h with
  | gap :: gaps, h =>
      rw [List.length_cons] at h
      have hlt : k + 1 < (('\n' :: gap) :: gaps).length := by
        rw [List.length_cons, h]
        omega
      rw [List.modifyHead_cons, getD_closeLast hlt]
      cases k <;> rfl

theorem getLast?_closeLast {gaps : List Str} {g : Str} (hg : (closeLast gaps).getLast? = some g) : '\n' ∈ g := by
  induction gaps using closeLast.induct with
  | case1 => simp [closeLast] at hg
  | case2 gap =>
      obtain rfl := Option.some.inj hg
      simp
  | case3 gap next gaps ih =>
      refine ih ?_
      have hne : closeLast (next :: gaps) ≠ [] := by
        intro hnil
        have hlength := congrArg List.length hnil
        rw [length_closeLast] at hlength
        simp at hlength
      obtain ⟨g', rest, hrest⟩ := List.exists_cons_of_ne_nil hne
      rw [closeLast, hrest, List.getLast?_cons_cons] at hg
      rw [hrest]
      exact hg

theorem laid_bounded {text : Str} (h : Segments text seg) (hapart : seg.LinesApart) : Laid seg.bounded := by
  have hlength : seg.bounded.gaps.length = seg.items.length + 1 := by
    unfold bounded
    dsimp only
    rw [length_closeLast, List.length_modifyHead, h.gaps]
  refine ⟨hlength, fun g hg => ?_, h.originals⟩
  obtain ⟨k, hk⟩ := List.mem_iff_getElem?.mp hg
  have hget : seg.bounded.gaps.getD k [] = g := by rw [List.getD_eq_getElem?_getD, hk, Option.getD_some]
  have hlt := (List.getElem?_eq_some_iff.mp hk).1
  by_cases hin : k < seg.items.length
  · rw [getD_bounded h.gaps hin] at hget
    by_cases hzero : k = 0
    · rw [if_pos hzero] at hget
      exact hget ▸ List.mem_cons_self
    · rw [if_neg hzero] at hget
      exact hget ▸ hapart k hin (Nat.pos_of_ne_zero hzero)
  · have hlast : seg.bounded.gaps.getLast? = some g := by
      rw [List.getLast?_eq_getElem?, hlength, Nat.add_sub_cancel]
      rw [hlength] at hlt
      obtain rfl : k = seg.items.length := by omega
      exact hk
    exact getLast?_closeLast hlast

end Segmentation

/-- Nothing is lost around the items of three texts: no item that stands first on a side is put
    behind another, and the rest is steady. -/
def Undisturbed (G : Grammar) (base left right : Segmentation) : Prop :=
  (∀ s ∈ (slots base left right).tail, s.index ≠ 0) ∧
    Steady G maxContainerDepth ((base.gaps.getLast?).getD [] ++ ['\n']) base.bounded left.bounded right.bounded

/-- Lines between two others that are not the first or the last. -/
theorem mem_of_mem_inner {α : Type} {a z x : α} {xs front inner back : List α} (hfront : front ≠ [])
    (hback : back ≠ []) (h : a :: (xs ++ [z]) = front ++ (inner ++ back)) (hx : x ∈ inner) : x ∈ xs := by
  obtain ⟨a', front, rfl⟩ := List.exists_cons_of_ne_nil hfront
  obtain ⟨back, z', rfl⟩ := List.eq_nil_or_concat back |>.resolve_left hback
  rw [List.cons_append, List.concat_eq_append, ← List.append_assoc inner, ← List.append_assoc front] at h
  obtain ⟨-, h⟩ := List.cons.inj h
  obtain ⟨rfl, -⟩ := List.append_inj' h rfl
  exact List.mem_append_right _ (List.mem_append_left _ hx)

theorem lines_bounded (s : Str) : lines ('\n' :: s ++ ['\n']) = [] :: (lines s ++ [[]]) := by
  rw [show '\n' :: s ++ ['\n'] = [] ++ '\n' :: (s ++ '\n' :: []) from rfl, lines_append_newline,
    lines_append_newline]
  rfl

/-- The structural driver retains a line that one side has more often than the base, where nothing
    is lost around the items and no line holds parts of two. -/
theorem rustMerge_retains_excess {G : Grammar} {input : MergeInput} {base left right : Segmentation}
    (hbase : textSegmentation G input.base = some base) (hleft : textSegmentation G input.left = some left)
    (hright : textSegmentation G input.right = some right) (hclean : (rustMerge G input).conflicts = [])
    (hapart : base.LinesApart ∧ left.LinesApart ∧ right.LinesApart) (h : Undisturbed G base left right) {side : Str}
    (hside : side = input.left ∨ side = input.right) {x : Line} (hx : (lines input.base).count x < (lines side).count x) :
    x ∈ lines (rustMerge G input).merged := by
  have hb := textSegmentation_segments hbase
  have hl := textSegmentation_segments hleft
  have hr := textSegmentation_segments hright
  have hlb := Segmentation.laid_bounded hb hapart.1
  have hll := Segmentation.laid_bounded hl hapart.2.1
  have hlr := Segmentation.laid_bounded hr hapart.2.2
  have hopen : rustMerge G input = structuralMergeWith (resolveBaseItem (containerAt G maxContainerDepth))
      base left right := by
    unfold rustMerge
    rw [structuralSides_eq, hbase, hleft, hright, ← structuralMerge_eq]
    rfl
  rw [hopen] at hclean ⊢
  obtain ⟨hcleanly, hmerged⟩ := structuralMergeWith_clean
    (resolveBaseItem_isSome (containerAt_isSome G maxContainerDepth)) hclean
  have hbounded : Clean base.bounded left.bounded right.bounded
      (resolveBaseItem (containerAt G maxContainerDepth)) := ⟨hcleanly.settled, hcleanly.added⟩
  have hexcess : ∃ seg, (seg = left.bounded ∨ seg = right.bounded) ∧
      (lines ([] ++ base.bounded.joined ++ [])).count x < (lines ([] ++ seg.joined ++ [])).count x := by
    have hcount : ∀ {text : Str} {seg : Segmentation}, Segments text seg →
        (lines ([] ++ seg.bounded.joined ++ [])).count x = (lines text).count x + ([[], []] : List Line).count x := by
      intro text seg hseg
      rw [List.nil_append, List.append_nil, Segmentation.bounded_joined hseg.gaps, hseg.joined, lines_bounded]
      simp only [List.count_cons, List.count_append, List.count_nil]
      omega
    rcases hside with rfl | rfl
    · exact ⟨_, .inl rfl, by rw [hcount hb, hcount hl]; omega⟩
    · exact ⟨_, .inr rfl, by rw [hcount hb, hcount hr]; omega⟩
  obtain ⟨t, ht, hxt⟩ := h.2.steadyWith.mem_blocks (containerAt_isSome G maxContainerDepth)
    (containerAt_keeps G maxContainerDepth) hbounded hlb hll hlr hexcess
  have hslots : slots base.bounded left.bounded right.bounded = slots base left right := rfl
  have hbody : Slot.body base.bounded left.bounded right.bounded (resolveBaseItem (containerAt G maxContainerDepth)) =
      Slot.body base left right (resolveBaseItem (containerAt G maxContainerDepth)) := rfl
  have hgap : ∀ s ∈ slots base left right, s.gap base.bounded left.bounded right.bounded =
      if s.index = 0 then '\n' :: s.gap base left right else s.gap base left right := by
    intro s hs
    have hlt := index_lt_of_mem_slots hs
    cases s with
    | base i => exact Segmentation.getD_bounded hb.gaps hlt
    | left j => exact Segmentation.getD_bounded hl.gaps hlt
    | right j => exact Segmentation.getD_bounded hr.gaps hlt
  have hbroken : ∀ s ∈ slots base left right, '\n' ∈ s.gap base.bounded left.bounded right.bounded := fun s hs =>
    mem_gap_of_mem_slots hlb hll hlr (hslots ▸ hs)
  rw [hslots, hbody] at ht
  rw [hmerged]
  have hfirst := h.1
  generalize slots base left right = all at ht hgap hbroken hfirst ⊢
  generalize (base.gaps.getLast?).getD [] = closing at ht ⊢
  cases all with
  | nil => simp [blocks] at ht
  | cons s rest =>
      have hrest : rest.map (fun s => (s.gap base.bounded left.bounded right.bounded,
          s.body base left right (resolveBaseItem (containerAt G maxContainerDepth)))) =
          rest.map fun s => (s.gap base left right,
            s.body base left right (resolveBaseItem (containerAt G maxContainerDepth))) :=
        List.map_congr_left fun s' hs' => by rw [hgap s' (List.mem_cons_of_mem _ hs'), if_neg (hfirst s' hs')]
      have hcons : ∀ (p : Str × Str) (ps : List (Str × Str)), rowText (p :: ps) = p.1 ++ p.2 ++ rowText ps :=
        fun p ps => List.flatMap_cons
      -- the output between two line breaks is the row of the bounded gaps, or that behind one
      obtain ⟨u, hu⟩ : ∃ u : Str, u ++ (rowText ((s :: rest).map fun s =>
          (s.gap base.bounded left.bounded right.bounded,
            s.body base left right (resolveBaseItem (containerAt G maxContainerDepth)))) ++ (closing ++ ['\n'])) ++ [] =
          '\n' :: (rowText ((s :: rest).map fun s => (s.gap base left right,
            s.body base left right (resolveBaseItem (containerAt G maxContainerDepth)))) ++ closing) ++ ['\n'] := by
        rw [List.map_cons, List.map_cons, hrest, hcons, hcons, hgap s List.mem_cons_self]
        by_cases hzero : s.index = 0
        · refine ⟨[], ?_⟩
          rw [if_pos hzero]
          simp
        · refine ⟨['\n'], ?_⟩
          rw [if_neg hzero]
          simp
      obtain ⟨front, back, hfront, hback, hlines⟩ := @mem_lines_row
        (Slot.gap base.bounded left.bounded right.bounded)
        (Slot.body base left right (resolveBaseItem (containerAt G maxContainerDepth))) (closing ++ ['\n'])
        (s :: rest) hbroken (by simp) u []
      rw [hu, lines_bounded] at hlines
      exact mem_of_mem_inner hfront hback hlines (List.mem_flatMap.mpr ⟨t, ht, hxt⟩)

/-- A grammar that knows some texts with the functions `a`, `b` and `c`. -/
def additionsGrammar : Grammar :=
  tableGrammar
    [("fn a() {}\n".toList, [fnDefinition "a".toList ⟨0, 9⟩ "a".toList]),
      ("use x;\nfn a() {}\n".toList, [fnDefinition "a".toList ⟨7, 16⟩ "a".toList]),
      ("fn a() {}\nfn b() {}\n".toList,
        [fnDefinition "a".toList ⟨0, 9⟩ "a".toList, fnDefinition "b".toList ⟨10, 19⟩ "b".toList]),
      ("fn a() {1}\nfn b() {}\n".toList,
        [fnDefinition "a".toList ⟨0, 10⟩ "a1".toList, fnDefinition "b".toList ⟨11, 20⟩ "b".toList]),
      ("fn a() {}\nfn b() {}\nfn c() {}\n".toList,
        [fnDefinition "a".toList ⟨0, 9⟩ "a".toList, fnDefinition "b".toList ⟨10, 19⟩ "b".toList,
          fnDefinition "c".toList ⟨20, 29⟩ "c".toList])]
    (by decide)

end Omoplata
