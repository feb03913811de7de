-- SUMMARY: A merge output scanned again: its blocks are the values the merge reports.
import Omoplata.Drivers.Additions
import Omoplata.Drivers.Carried

/-!
# A merge output scanned again

Three paths write marker blocks: the line merge, the rendering of a settled definition and
a definition that carries a value along. Each writes a text that reads as the values it
reports, and the texts are put one behind the other, each on a line of its own.
-/

namespace Omoplata

/-! ## Reading values back -/

/-- A part without lines is written as one empty line. -/
def shown (part : List Line) : List Line := if part = [] then [[]] else part

/-- The parts of a block as they are written. -/
def shownBlock (b : Blocks.Block Line) : Blocks.Block Line := (shown b.1, shown b.2)

/-- A text that reads as these values, in some order. -/
def ReadsBack (t : Str) (values : List Conflict) : Prop :=
  ∃ bs, ReadsAs t bs ∧ (bs.map shownBlock).Perm (values.map fun c => shownBlock c.variants)

/-- A value without a marker line in it. -/
def Conflict.Flat (c : Conflict) : Prop := ∀ line ∈ c.left ++ c.right, markerKind line = .plain

instance (c : Conflict) : Decidable c.Flat :=
  inferInstanceAs (Decidable (∀ line ∈ c.left ++ c.right, markerKind line = .plain))

theorem ReadsAs.readsBack {t : Str} {values : List Conflict} (h : ReadsAs t (values.map Conflict.variants)) :
    ReadsBack t values := by
  refine ⟨_, h, ?_⟩
  rw [List.map_map]
  rfl

namespace ReadsBack

variable {s t : Str} {values values' : List Conflict}

theorem append (hs : ReadsBack s values) (hlast : Blank (lastLine s)) (ht : ReadsBack t values') :
    ReadsBack (s ++ t) (values ++ values') := by
  obtain ⟨bs, hbs, hperm⟩ := hs
  obtain ⟨cs, hcs, hperm'⟩ := ht
  refine ⟨bs ++ cs, hbs.append hlast hcs, ?_⟩
  rw [List.map_append, List.map_append]
  exact hperm.append hperm'

theorem append_plain (hs : ReadsBack s values) (ht : ReadsBack t values') (hfirst : markerKind (lineTail t) = .plain)
    (hhead : Unmarking t) : ReadsBack (s ++ t) (values ++ values') := by
  obtain ⟨bs, hbs, hperm⟩ := hs
  obtain ⟨cs, hcs, hperm'⟩ := ht
  refine ⟨bs ++ cs, hbs.append_plain hcs hfirst hhead, ?_⟩
  rw [List.map_append, List.map_append]
  exact hperm.append hperm'

theorem append_unmarked (hs : ReadsBack s values) (ht : Unmarked t) (hhead : Unmarking t) :
    ReadsBack (s ++ t) values := by
  obtain ⟨bs, hbs, hperm⟩ := hs
  exact ⟨bs, hbs.append_unmarked ht hhead, hperm⟩

theorem perm (h : ReadsBack t values) (hperm : values.Perm values') : ReadsBack t values' := by
  obtain ⟨bs, hbs, hvalues⟩ := h
  exact ⟨bs, hbs, hvalues.trans (hperm.map _)⟩

/-- What is read back holds no marker line. -/
theorem flat (h : ReadsBack t values) : ∀ c ∈ values, c.Flat := by
  obtain ⟨bs, hbs, hperm⟩ := h
  intro c hc line hline
  obtain ⟨b, hb, hshown⟩ := List.mem_map.mp (hperm.symm.subset (List.mem_map_of_mem hc))
  have hplain := hbs.parts_plain b hb
  have hpart : ∀ {part part' : List Line}, shown part = shown part' → line ∈ part' → line = [] ∨ line ∈ part := by
    intro part part' heq hmem
    unfold shown at heq
    have hne : part' ≠ [] := List.ne_nil_of_mem hmem
    rw [if_neg hne] at heq
    split at heq
    · exact .inl (List.mem_singleton.mp (heq ▸ hmem))
    · exact .inr (heq ▸ hmem)
  obtain ⟨hleft, hright⟩ := Prod.mk.inj hshown
  rcases List.mem_append.mp hline with hmem | hmem
  · rcases hpart hleft hmem with rfl | hmem
    · decide
    · exact hplain line (List.mem_append_left _ hmem)
  · rcases hpart hright hmem with rfl | hmem
    · decide
    · exact hplain line (List.mem_append_right _ hmem)

end ReadsBack

/-! ## The texts that hold blocks -/

/-- A rendered conflict reads as its two texts. -/
theorem renderConflict_reads {left right : Str} (hleft : Unmarked left) (hright : Unmarked right) :
    ReadsAs (renderConflict left right) [(lines left, lines right)] := by
  have hlines : lines (renderConflict left right) =
      conflictStart :: (lines left ++ conflictSep :: (lines right ++ [conflictEnd])) := by
    unfold renderConflict
    simp only [List.append_assoc, List.cons_append, List.nil_append]
    rw [lines_append_newline, lines_append_newline, lines_append_newline, lines_append_newline,
      lines_of_not_mem (show '\n' ∉ conflictStart by decide), lines_of_not_mem (show '\n' ∉ conflictSep by decide),
      lines_of_not_mem (show '\n' ∉ conflictEnd by decide)]
    rfl
  unfold ReadsAs
  rw [hlines]
  exact Blocks.reads_block (by decide) hleft (by decide) hright (by decide)

/-- A step of a line merge reads as its conflict. -/
theorem CutStep.output_reads {step : CutStep} (hrun : ∀ line ∈ step.run, markerKind line = .plain)
    (hleft : ∀ line ∈ step.left, markerKind line = .plain) (hright : ∀ line ∈ step.right, markerKind line = .plain) :
    Blocks.Reads markerKind step.output (step.conflicts.map Conflict.variants) := by
  unfold output conflicts
  rw [← List.nil_append (List.map _ _)]
  refine (Blocks.reads_plain hrun).append ?_
  by_cases hl : step.left = step.base
  · rw [if_pos hl, if_pos (.inl hl)]
    exact Blocks.reads_plain hright
  · rw [if_neg hl]
    by_cases hr : step.right = step.base ∨ step.left = step.right
    · rw [if_pos hr, if_pos (.inr hr)]
      exact Blocks.reads_plain hleft
    · rw [if_neg hr, if_neg (not_or.mpr ⟨hl, hr⟩)]
      simp only [List.append_assoc, List.singleton_append]
      exact Blocks.reads_block (by decide) hleft (by decide) hright (by decide)

/-- The line merge of texts without markers reads as its conflicts. -/
theorem merge3_readsBack {base left right : Str} (hleft : Unmarked left) (hright : Unmarked right) :
    let merge := merge3 (Doc.fromStr base) (Doc.fromStr left) (Doc.fromStr right)
    ReadsBack merge.merged.toStr merge.conflicts := by
  intro merge
  have hnewline : ∀ line ∈ merge.merged.lines, '\n' ∉ line := fun line hline => newline_notMem_merge3 hline
  have hreads : Blocks.Reads markerKind merge.merged.lines (merge.conflicts.map Conflict.variants) := by
    obtain ⟨-, hl, hr⟩ := (isCut_mergeCut (Doc.fromStr base) (Doc.fromStr left) (Doc.fromStr right)).flatMap_eq
    change ∀ line ∈ (Doc.fromStr left).lines, markerKind line = .plain at hleft
    change ∀ line ∈ (Doc.fromStr right).lines, markerKind line = .plain at hright
    have hside : ∀ step ∈ mergeCut (Doc.fromStr base) (Doc.fromStr left) (Doc.fromStr right),
        (∀ line ∈ step.run ++ step.left, markerKind line = .plain) ∧
          ∀ line ∈ step.run ++ step.right, markerKind line = .plain := fun step hstep =>
      ⟨fun line hline => hleft line (hl ▸ List.mem_flatMap.mpr ⟨step, hstep, hline⟩),
        fun line hline => hright line (hr ▸ List.mem_flatMap.mpr ⟨step, hstep, hline⟩)⟩
    show Blocks.Reads markerKind (merge3 _ _ _).merged.lines ((merge3 _ _ _).conflicts.map Conflict.variants)
    rw [merge3_eq]
    generalize mergeCut (Doc.fromStr base) (Doc.fromStr left) (Doc.fromStr right) = steps at hside
    clear hl hr
    induction steps with
    | nil => rfl
    | cons step steps ih =>
        obtain ⟨⟨hstepLeft, hstepRight⟩, hsteps⟩ := List.forall_mem_cons.mp hside
        simp only [List.flatMap_cons, List.map_append]
        refine (CutStep.output_reads ?_ ?_ ?_).append (ih hsteps)
        · exact fun line hline => hstepLeft line (List.mem_append_left _ hline)
        · exact fun line hline => hstepLeft line (List.mem_append_right _ hline)
        · exact fun line hline => hstepRight line (List.mem_append_right _ hline)
  refine ReadsAs.readsBack ?_
  unfold ReadsAs Doc.toStr
  by_cases hnil : merge.merged.lines = []
  · rw [hnil] at hreads ⊢
    obtain hvalues : [] = merge.conflicts.map Conflict.variants := (Prod.mk.inj (Option.some.inj hreads)).2
    rw [← hvalues]
    exact Blocks.reads_plain (by decide)
  · rw [lines, List.splitOn_intercalate '\n' hnewline hnil]
    exact hreads

/-! ## Settled items -/

/-- An item whose text holds no marker but those of the values it carries. -/
structure Item.Legible (it : Item) : Prop where
  plain : Unmarked it.text
  reads : ReadsAs it.originalText (it.carried.map Conflict.variants)

namespace Resolution

/-- The values a settled item leaves. -/
def values : Resolution → List Conflict
  | keep _ => []
  | drop => []
  | conflict _ cs => cs
  | carry _ cv => cv

/-- A settled item whose body reads as the values it leaves, if these do not nest. -/
def Legible (res : Resolution) : Prop :=
  (∀ c ∈ res.values, c.Flat) → ∀ body ∈ res.body, ReadsBack body res.values

end Resolution

theorem keepOrCarry_legible {side : Item} (h : side.Legible) : (keepOrCarry side).Legible := by
  have hreads := h.reads
  unfold keepOrCarry
  split
  · rename_i hnil
    rw [List.isEmpty_iff.mp hnil] at hreads
    rintro - _ ⟨⟩
    exact ReadsAs.readsBack hreads
  · rintro - _ ⟨⟩
    exact hreads.readsBack

theorem interiorMerge_legible {base l r : Item} (hl : l.Legible) (hr : r.Legible) :
    (interiorMerge base l r).Legible := by
  have hreads := @merge3_readsBack base.text _ _ hl.plain hr.plain
  unfold interiorMerge
  dsimp only at hreads ⊢
  split
  · rename_i hclean
    rw [List.isEmpty_iff.mp hclean] at hreads
    rintro - _ ⟨⟩
    exact hreads
  · rintro - _ ⟨⟩
    exact hreads

/-- A value that does not nest is read back from its rendering. -/
theorem renderConflict_legible {base ls rs : List Line} {left right : Str} (hl : ls = lines left ∨ (left = [] ∧ ls = []))
    (hr : rs = lines right ∨ (right = [] ∧ rs = [])) :
    (Resolution.conflict (renderConflict left right) [⟨base, ls, rs⟩]).Legible := by
  rintro hflat _ ⟨⟩
  have hplain : ∀ line ∈ ls ++ rs, markerKind line = .plain := hflat _ List.mem_cons_self
  have hside : ∀ {side : Str} {part : List Line}, (part = lines side ∨ (side = [] ∧ part = [])) →
      (∀ line ∈ part, markerKind line = .plain) → Unmarked side ∧ shown (lines side) = shown part := by
    rintro side part (rfl | ⟨rfl, rfl⟩) hplain
    · exact ⟨hplain, rfl⟩
    · exact ⟨by decide, rfl⟩
  obtain ⟨hleft, hshownLeft⟩ := hside hl fun line hline => hplain line (List.mem_append_left _ hline)
  obtain ⟨hright, hshownRight⟩ := hside hr fun line hline => hplain line (List.mem_append_right _ hline)
  refine ⟨_, renderConflict_reads hleft hright, ?_⟩
  simp only [List.map_cons, List.map_nil, Resolution.values, shownBlock, hshownLeft, hshownRight, Conflict.variants]
  exact List.Perm.rfl

/-- A base item is settled legibly, if a container that is merged on two different sides is. -/
theorem resolveBaseItem_legible {container : Item → Item → Item → Option Resolution} {base : Item}
    {left right : Option Item} (hbase : base.Legible) (hleft : ∀ l ∈ left, l.Legible) (hright : ∀ r ∈ right, r.Legible)
    (hcontainer : ∀ l ∈ left, ∀ r ∈ right, l.originalText ≠ base.originalText → r.originalText ≠ base.originalText →
      ∀ res ∈ container base l r, res.Legible) : (resolveBaseItem container base left right).Legible := by
  have hdrop : Resolution.drop.Legible := fun _ => by simp [Resolution.body]
  cases left with
  | none =>
      cases right with
      | none => exact hdrop
      | some r =>
          simp only [resolveBaseItem]
          split
          · exact hdrop
          · exact renderConflict_legible (.inr ⟨rfl, rfl⟩) (.inl rfl)
  | some l =>
      cases right with
      | none =>
          simp only [resolveBaseItem]
          split
          · exact hdrop
          · exact renderConflict_legible (.inl rfl) (.inr ⟨rfl, rfl⟩)
      | some r =>
          have hl := hleft l rfl
          have hr := hright r rfl
          simp only [resolveBaseItem]
          split
          · exact keepOrCarry_legible hbase
          · exact keepOrCarry_legible hl
          · exact keepOrCarry_legible hr
          · rename_i hlne hrne
            split
            · exact renderConflict_legible (.inl rfl) (.inl rfl)
            · cases hres : container base l r with
              | none => exact interiorMerge_legible hl hr
              | some res => exact hcontainer l rfl r rfl (of_decide_eq_true hlne) (of_decide_eq_true hrne) res hres

/-! ## Rows of pieces -/

namespace Assembly

/-- The values of an assembly, new and carried. -/
def values (a : Assembly) : List Conflict := a.conflicts ++ a.carried

/-- An assembly whose pieces read as its values, if these do not nest. -/
def Legible (a : Assembly) : Prop :=
  (∀ c ∈ a.values, c.Flat) → ∃ parts : List (List Conflict),
    List.Forall₂ (fun piece part => ReadsBack piece.2 part) a.out parts ∧ a.values.Perm parts.flatten

/-- One more piece. -/
theorem Legible.push {a a' : Assembly} (h : a.Legible) {gap body : Str} {part : List Conflict}
    (hout : a'.out = a.out ++ [(gap, body)]) (hvalues : a'.values.Perm (a.values ++ part))
    (hbody : (∀ c ∈ part, c.Flat) → ReadsBack body part) : a'.Legible := by
  intro hflat
  have hall : ∀ c ∈ a.values ++ part, c.Flat := fun c hc => hflat c (hvalues.symm.subset hc)
  obtain ⟨parts, hparts, hperm⟩ := h fun c hc => hall c (List.mem_append_left _ hc)
  have hpiece := hbody fun c hc => hall c (List.mem_append_right _ hc)
  refine ⟨parts ++ [part], hout ▸ List.rel_append hparts (.cons hpiece .nil), ?_⟩
  rw [List.flatten_append, List.flatten_singleton]
  exact hvalues.trans (hperm.append_right part)

theorem Legible.emit {a : Assembly} (h : a.Legible) (gap : Str) {res : Resolution} (hres : res.Legible) :
    (a.emit gap res).Legible := by
  cases res with
  | keep body =>
      refine h.push rfl ?_ fun hflat => hres hflat body rfl
      show a.values.Perm (a.values ++ [])
      rw [List.append_nil]
  | drop => exact h
  | conflict rendered cs =>
      refine h.push rfl ?_ fun hflat => hres hflat rendered rfl
      unfold values Assembly.emit
      simp only [List.append_assoc]
      exact List.perm_append_comm.append_left _
  | carry rendered cv =>
      refine h.push rfl ?_ fun hflat => hres hflat rendered rfl
      unfold values Assembly.emit
      rw [List.append_assoc]
      rfl

theorem Legible.pushAdded {a : Assembly} (h : a.Legible) (gap : Str) {it : Item} (hit : it.Legible) :
    (a.pushAdded gap it).Legible := by
  refine h.push rfl ?_ fun _ => hit.reads.readsBack
  unfold values Assembly.pushAdded
  split
  · rename_i hnil
    rw [List.isEmpty_iff.mp hnil, List.append_nil]
  · rw [List.append_assoc]

theorem Legible.addLeftStep {s : Assembly × List Bool} (h : s.1.Legible) {left right : Segmentation} (rp : Pairing)
    (hleft : ∀ it ∈ left.items, it.Legible) (lj : Nat) : (addLeftStep left right rp s lj).1.Legible := by
  unfold Omoplata.addLeftStep
  cases hl : left.items[lj]? with
  | none => exact h
  | some litem =>
      have hitem := hleft litem (List.mem_of_getElem? hl)
      dsimp only
      split
      · rename_i rj _
        dsimp only
        generalize ((right.items[rj]?).map Item.originalText).getD [] = rtext
        split
        · exact h.pushAdded _ hitem
        · have hconflict : (Resolution.conflict (renderConflict litem.originalText rtext)
              [⟨[], lines litem.originalText, lines rtext⟩]).Legible := renderConflict_legible (.inl rfl) (.inl rfl)
          exact h.emit _ hconflict
      · exact h.pushAdded _ hitem

theorem Legible.pushItem {a : Assembly} (h : a.Legible) {side : Segmentation} (hside : ∀ it ∈ side.items, it.Legible)
    (j : Nat) : (a.pushItem side j).Legible := by
  unfold Assembly.pushItem
  cases hj : side.items[j]? with
  | none => exact h
  | some it => exact h.pushAdded _ (hside it (List.mem_of_getElem? hj))

end Assembly

/-- What a merge puts together: the settled base items, then what either side added. -/
def assembled (resolve : Item → Option Item → Option Item → Resolution) (base left right : Segmentation) : Assembly :=
  let lp := pair base left
  let rp := pair base right
  let s := addLeft left right lp rp (settleBase resolve base left right lp rp ⟨[], [], []⟩)
  addRight right rp s.2 s.1

/-- Settled and added items are put together legibly. -/
theorem assembled_legible {resolve : Item → Option Item → Option Item → Resolution} {base left right : Segmentation}
    (hresolve : ∀ (i : Nat) (it : Item), base.items[i]? = some it →
      (settled resolve left right (pair base left) (pair base right) (it, i)).Legible)
    (hleft : ∀ it ∈ left.items, it.Legible) (hright : ∀ it ∈ right.items, it.Legible) :
    (assembled resolve base left right).Legible := by
  have hbase : (settleBase resolve base left right (pair base left) (pair base right) ⟨[], [], []⟩).Legible := by
    have hloop : ∀ (entries : List (Item × Nat)) (a : Assembly), (∀ e ∈ entries, base.items[e.2]? = some e.1) →
        a.Legible → (entries.foldl (fun a e => a.emit (base.gaps.getD e.2 [])
          (resolve e.1 (counterpart left (pair base left) e.2) (counterpart right (pair base right) e.2))) a).Legible := by
      intro entries
      induction entries with
      | nil => exact fun _ _ h => h
      | cons e entries ih =>
          intro a hentries h
          obtain ⟨he, hentries⟩ := List.forall_mem_cons.mp hentries
          exact ih _ hentries (h.emit _ (hresolve e.2 e.1 he))
    refine hloop base.items.zipIdx _ (fun e he => List.mk_mem_zipIdx_iff_getElem?.mp he) fun _ => ⟨[], .nil, ?_⟩
    exact List.Perm.refl []
  have hadded : ∀ (js : List Nat) (s : Assembly × List Bool), s.1.Legible →
      (js.foldl (addLeftStep left right (pair base right)) s).1.Legible := by
    intro js
    induction js with
    | nil => exact fun _ h => h
    | cons j js ih => exact fun s h => ih _ (h.addLeftStep _ hleft j)
  have hrest : ∀ (js : List Nat) (a : Assembly), a.Legible → (js.foldl (Assembly.pushItem right) a).Legible := by
    intro js
    induction js with
    | nil => exact fun _ h => h
    | cons j js ih => exact fun a h => ih _ (h.pushItem hright j)
  unfold assembled
  dsimp only
  rw [addRight_eq, addLeft_eq]
  exact hrest _ _ (hadded _ _ hbase)

/-- A text that does not begin with a marker, and can stand behind others on their line. -/
def StartsPlain (t : Str) : Prop := markerKind (lineTail t) = .plain ∧ Unmarking t

/-- A row of pieces behind a text: what begins with a marker has only white space in front of it
    on its line. -/
def RowOnLines : Str → List (Str × Str) → Prop
  | _, [] => True
  | front, (gap, body) :: pieces =>
      (Blank (lastLine (front ++ gap)) ∨ StartsPlain body) ∧ RowOnLines (front ++ gap ++ body) pieces

/-- A row on lines of its own reads as the values of its pieces. -/
theorem RowOnLines.readsBack {front : Str} {pieces : List (Str × Str)} (h : RowOnLines front pieces)
    (hgaps : ∀ p ∈ pieces, Unmarked p.1 ∧ Unmarking p.1) {values : List Conflict} (hfront : ReadsBack front values)
    {parts : List (List Conflict)} (hparts : List.Forall₂ (fun piece part => ReadsBack piece.2 part) pieces parts) :
    ReadsBack (front ++ rowText pieces) (values ++ parts.flatten) := by
  induction pieces generalizing front values parts with
  | nil =>
      cases hparts
      simpa [rowText] using hfront
  | cons p pieces ih =>
      obtain ⟨gap, body⟩ := p
      obtain ⟨hstarts, hrow⟩ := h
      obtain ⟨⟨hplain, hhead⟩, hgaps⟩ := List.forall_mem_cons.mp hgaps
      cases hparts with
      | @cons _ part _ parts hpiece hpieces =>
          have hgap := hfront.append_unmarked hplain hhead
          have hnext : ReadsBack (front ++ gap ++ body) (values ++ part) := by
            rcases hstarts with hblank | ⟨hfirst, hbody⟩
            · exact hgap.append hblank hpiece
            · exact hgap.append_plain hpiece hfirst hbody
          have hrest := ih hrow hgaps hnext hpieces
          rw [rowText, List.flatMap_cons, ← rowText]
          simpa only [List.append_assoc, List.flatten_cons] using hrest

/-! ## Containers -/

/-- A line cut behind a character that markers do not have. -/
theorem markerKind_left {x y : Line} (h : markerKind (x ++ y) = .plain) (hx : ∀ c ∈ x.getLast?, c ∉ markerChars) :
    markerKind x = .plain := by
  by_cases hblank : Blank x
  · exact markerKind_blank hblank
  · rw [markerKind_eq_plain, trimStart_append hblank] at h
    obtain ⟨hstart, hsep, hend⟩ := h
    refine markerKind_eq_plain.mpr ⟨fun hpre => hstart (hpre.trans (List.prefix_append _ _)), fun heq => ?_,
      fun hpre => hend (hpre.trans (List.prefix_append _ _))⟩
    -- the separator ends in a character of markers
    have hlast : x.getLast? = some '=' := by
      have hsuffix : trimStart x <:+ x := List.dropWhile_suffix _
      obtain ⟨lead, hlead⟩ := hsuffix
      rw [heq] at hlead
      rw [← hlead, List.getLast?_append, show conflictSep.getLast? = some '=' by decide, Option.some_or]
    exact hx '=' hlast (by decide)

/-- A text cut behind a character that markers do not have. -/
theorem Unmarked.header {u v : Str} {c : Char} (h : Unmarked (u ++ [c] ++ v)) (hc : c ∉ markerChars) (hnewline : c ≠ '\n') :
    Unmarked (u ++ [c]) := by
  obtain ⟨front, more, hlines, -, hjoin⟩ := exists_lines_join (u ++ [c]) v
  unfold Unmarked at h ⊢
  rw [hjoin] at h
  rw [hlines]
  intro line hline
  rcases List.mem_append.mp hline with hline | hline
  · exact h line (List.mem_append_left _ hline)
  · rw [List.mem_singleton.mp hline]
    refine markerKind_left (h _ (List.mem_append_right _ List.mem_cons_self)) fun d hd => ?_
    rw [lastLine_append_of_not_mem (by simpa using Ne.symm hnewline)] at hd
    simp only [List.getLast?_append, List.getLast?_singleton, Option.some_or, Option.mem_some_iff] at hd
    exact hd ▸ hc

/-- A text from a character on that neither markers nor white space have. -/
theorem Unmarked.footer {u v : Str} {c : Char} (h : Unmarked (u ++ c :: v)) (hc : c ∉ markerChars)
    (hspace : isWhiteSpace c = false) : Unmarked (c :: v) := by
  obtain ⟨front, more, -, hmore, hjoin⟩ := exists_lines_join u (c :: v)
  unfold Unmarked at h ⊢
  rw [hjoin] at h
  rw [hmore]
  refine List.forall_mem_cons.mpr ⟨?_, fun line hline => h line (List.mem_append_right _ (List.mem_cons_of_mem _ hline))⟩
  have hnewline : c ≠ '\n' := by
    rintro rfl
    exact absurd hspace (by decide)
  have htail : lineTail (c :: v) = c :: lineTail v := List.takeWhile_cons_of_pos (by simpa using hnewline)
  have htrim : trimStart (c :: lineTail v) = c :: lineTail v := by
    unfold trimStart
    rw [List.dropWhile_cons_of_neg (by simp [hspace])]
  have hhead : Unmarking (c :: lineTail v) := by
    rintro d ⟨⟩
    exact hc
  have hnot : ∀ m : Str, m.all markerChars.contains = true → m ≠ [] → ¬ m <+: c :: lineTail v := fun m hm hne hpre =>
    hne (List.prefix_nil.mp (prefix_of_unmarking hm hhead hpre))
  rw [htail, markerKind_eq_plain, htrim]
  exact ⟨hnot _ (by decide) (by decide), fun heq => hnot conflictSep (by decide) (by decide) (heq ▸ List.prefix_rfl),
    hnot _ (by decide) (by decide)⟩

/-- The frame of a container without a marker holds none. -/
theorem splitContainer_frame {G : Grammar} {text : Str} {parts : ContainerParts}
    (h : splitContainer G text = some parts) (hplain : Unmarked text) :
    Unmarked parts.header ∧ Unmarked parts.footer ∧ Unmarking parts.footer := by
  obtain ⟨hjoin, -⟩ := splitContainer_ok h
  unfold splitContainer at h
  obtain ⟨defs, -, h⟩ := Option.bind_eq_some_iff.mp h
  obtain ⟨container, -, h⟩ := Option.bind_eq_some_iff.mp h
  split at h
  · simp at h
  · obtain ⟨i, hi, h⟩ := Option.bind_eq_some_iff.mp h
    obtain ⟨footerStart, hfooter, h⟩ := Option.bind_eq_some_iff.mp h
    split at h
    · simp at h
    · obtain ⟨members, -, h⟩ := Option.bind_eq_some_iff.mp h
      obtain ⟨header, hheader, h⟩ := Option.bind_eq_some_iff.mp h
      obtain ⟨footer, hfooter', h⟩ := Option.bind_eq_some_iff.mp h
      obtain ⟨-, -, rfl⟩ := getRange_eq_some hheader
      obtain ⟨-, -, rfl⟩ := getRange_eq_some hfooter'
      obtain rfl := Option.some.inj h
      obtain ⟨hlt, hbrace, -⟩ := List.findIdx?_eq_some_iff_getElem.mp hi
      have hopen : slice text 0 (i + 1) = text.take i ++ ['{'] := by
        rw [slice_zero, List.take_succ_eq_append_getElem hlt, beq_iff_eq.mp hbrace]
      have hclose : slice text footerStart text.length = '}' :: text.drop (footerStart + 1) := by
        obtain ⟨j, hj, rfl⟩ := Option.map_eq_some_iff.mp hfooter
        obtain ⟨hlt', hbrace', -⟩ := List.findIdx?_eq_some_iff_getElem.mp hj
        rw [List.length_reverse] at hlt'
        have hget : text[text.length - 1 - j] = '}' := by
          rw [List.getElem_reverse] at hbrace'
          exact beq_iff_eq.mp hbrace'
        rw [slice_length, List.drop_eq_getElem_cons (by omega), hget]
      simp only at hjoin ⊢
      rw [hopen, hclose] at hjoin ⊢
      rw [← hjoin] at hplain
      refine ⟨?_, hplain.footer (by decide) (by decide), by rintro _ ⟨⟩; decide⟩
      rw [List.append_assoc] at hplain
      exact hplain.header (by decide) (by decide)

/-! ## The merge -/

/-- One level of a merge that cuts no marker out of a line, and puts none behind other text on
    a line; `front` is the text in front of it. -/
structure OnLinesWith (resolve : Item → Option Item → Option Item → Resolution) (front : Str)
    (base left right : Segmentation) : Prop where
  items : ∀ it ∈ base.items ++ left.items ++ right.items, Unmarked it.text
  gaps : ∀ p ∈ (assembled resolve base left right).out, Unmarked p.1 ∧ Unmarking p.1
  row : RowOnLines front (assembled resolve base left right).out
  trailing : Unmarked ((base.gaps.getLast?).getD []) ∧ Unmarking ((base.gaps.getLast?).getD [])

/-- The same with `depth` levels of containers left: also within the containers that differ on
    both sides. -/
def OnLines (G : Grammar) : Nat → Str → Segmentation → Segmentation → Segmentation → Prop
  | 0, front, base, left, right => OnLinesWith (resolveBaseItem fun _ _ _ => none) front base left right
  | depth + 1, front, base, left, right =>
      OnLinesWith (resolveBaseItem (tryContainerMerge G (structuralMerge G depth))) front base left right ∧
        ∀ (i : Nat) (it l r : Item), base.items[i]? = some it → counterpart left (pair base left) i = some l →
          counterpart right (pair base right) i = some r → l.originalText ≠ it.originalText →
          r.originalText ≠ it.originalText → ∀ bp lp rp : ContainerParts, containerSides G it l r = some (bp, lp, rp) →
            OnLines G depth bp.header bp.members lp.members rp.members

theorem OnLines.items {G : Grammar} {depth : Nat} {front : Str} {base left right : Segmentation}
    (h : OnLines G depth front base left right) :
    ∀ it ∈ base.items ++ left.items ++ right.items, Unmarked it.text := by
  cases depth with
  | zero => exact OnLinesWith.items h
  | succ depth => exact h.1.items

section

variable {resolve : Item → Option Item → Option Item → Resolution} {front : Str} {base left right : Segmentation}

/-- One level reads as the values it reports, if these do not nest. -/
theorem structuralMergeWith_readsBack (h : OnLinesWith resolve front base left right)
    (hlegible : ∀ it ∈ base.items ++ left.items ++ right.items, it.Legible) (hfront : Unmarked front)
    (hresolve : ∀ (i : Nat) (it : Item), base.items[i]? = some it →
      (settled resolve left right (pair base left) (pair base right) (it, i)).Legible) :
    let out := structuralMergeWith resolve base left right
    (∀ c ∈ out.conflicts ++ out.carried, c.Flat) → ReadsBack (front ++ out.merged) (out.conflicts ++ out.carried) := by
  intro out hflat
  have hassembled := assembled_legible hresolve
    (fun it hit => hlegible it (List.mem_append_left _ (List.mem_append_right _ hit)))
    (fun it hit => hlegible it (List.mem_append_right _ hit))
  obtain ⟨parts, hparts, hperm⟩ := hassembled hflat
  have hempty : ReadsBack front [] := ⟨[], hfront.readsAs, .refl []⟩
  have hrow := h.row.readsBack h.gaps hempty hparts
  have hall := (hrow.append_unmarked h.trailing.1 h.trailing.2).perm hperm.symm
  rwa [List.append_assoc] at hall

/-- The members of a shared container are legible, and so is its frame. -/
theorem containerSides_legible {G : Grammar} {depth : Nat} {it l r : Item} {bp lp rp : ContainerParts}
    (h : containerSides G it l r = some (bp, lp, rp)) (hit : it.Legible)
    (hlines : OnLines G depth bp.header bp.members lp.members rp.members) :
    (Unmarked bp.header ∧ Unmarked bp.footer ∧ Unmarking bp.footer) ∧
      ∀ member ∈ bp.members.items ++ lp.members.items ++ rp.members.items, member.Legible := by
  obtain ⟨hb, hl, hr, -⟩ := containerSides_ok h
  refine ⟨splitContainer_frame hb hit.plain, fun member hmember => ?_⟩
  have hplain := hlines.items member hmember
  have hcarried : member.carried = [] ∧ member.originalText = member.text := by
    obtain ⟨-, _, _, hbase⟩ := splitContainer_ok hb
    obtain ⟨-, _, _, hleft⟩ := splitContainer_ok hl
    obtain ⟨-, _, _, hright⟩ := splitContainer_ok hr
    rcases List.mem_append.mp hmember with hmember | hmember
    · rcases List.mem_append.mp hmember with hmember | hmember
      · exact hbase.carried hmember
      · exact hleft.carried hmember
    · exact hright.carried hmember
  refine ⟨hplain, ?_⟩
  rw [hcarried.1, hcarried.2]
  exact hplain.readsAs

/-- A structural merge reads as the values it reports, if these do not nest. -/
theorem structuralMerge_readsBack (G : Grammar) (depth : Nat) (h : OnLines G depth front base left right)
    (hlegible : ∀ it ∈ base.items ++ left.items ++ right.items, it.Legible) (hfront : Unmarked front) :
    let out := structuralMerge G depth base left right
    (∀ c ∈ out.conflicts ++ out.carried, c.Flat) → ReadsBack (front ++ out.merged) (out.conflicts ++ out.carried) := by
  have hsides : (∀ it ∈ base.items, it.Legible) ∧ (∀ it ∈ left.items, it.Legible) ∧ ∀ it ∈ right.items, it.Legible :=
    ⟨fun it hit => hlegible it (List.mem_append_left _ (List.mem_append_left _ hit)),
      fun it hit => hlegible it (List.mem_append_left _ (List.mem_append_right _ hit)),
      fun it hit => hlegible it (List.mem_append_right _ hit)⟩
  induction depth generalizing front base left right with
  -- at depth zero no container is opened
  | zero =>
      refine structuralMergeWith_readsBack h hlegible hfront fun i it hit => ?_
      refine resolveBaseItem_legible (hsides.1 it (List.mem_of_getElem? hit))
        (fun l hl => hsides.2.1 l (mem_of_counterpart hl)) (fun r hr => hsides.2.2 r (mem_of_counterpart hr)) ?_
      rintro _ - _ - - - _ ⟨⟩
  | succ depth ih =>
      refine structuralMergeWith_readsBack h.1 hlegible hfront fun i it hit => ?_
      have hitem := hsides.1 it (List.mem_of_getElem? hit)
      refine resolveBaseItem_legible hitem
        (fun l hl => hsides.2.1 l (mem_of_counterpart hl)) (fun r hr => hsides.2.2 r (mem_of_counterpart hr)) ?_
      -- a container is merged from its members, between a header and a footer without markers
      intro l hl r hr hlne hrne res hres
      rw [tryContainerMerge_eq, Option.mem_def] at hres
      obtain ⟨⟨bp, lp, rp⟩, hparts, rfl⟩ := Option.map_eq_some_iff.mp hres
      have hmembers := h.2 i it l r hit hl hr hlne hrne bp lp rp hparts
      obtain ⟨⟨hheader, hfooter, hclose⟩, hlegible⟩ := containerSides_legible hparts hitem hmembers
      have hinner := ih hmembers hlegible hheader
        ⟨fun it hit => hlegible it (List.mem_append_left _ (List.mem_append_left _ hit)),
          fun it hit => hlegible it (List.mem_append_left _ (List.mem_append_right _ hit)),
          fun it hit => hlegible it (List.mem_append_right _ hit)⟩
      dsimp only at hinner ⊢
      generalize structuralMerge G depth bp.members lp.members rp.members = out at hinner
      have hrendered := fun hflat => (hinner hflat).append_unmarked hfooter hclose
      split
      · rename_i hnone
        rw [Bool.and_eq_true, List.isEmpty_iff, List.isEmpty_iff] at hnone
        rw [hnone.1, hnone.2] at hrendered
        rintro hflat _ ⟨⟩
        exact hrendered hflat
      · split
        · rename_i hnone
          rw [List.isEmpty_iff.mp hnone] at hrendered
          rintro hflat _ ⟨⟩
          exact hrendered hflat
        · rintro hflat _ ⟨⟩
          exact hrendered hflat

end

/-- A merge that puts no marker behind other text on a line, where the structural path is open;
    where it is not, a merge of sides without markers. -/
def MergesOnLines (G : Grammar) (input : MergeInput) : Prop :=
  match structuralSides G input with
  | some (base, left, right) => OnLines G maxContainerDepth [] base left right
  | none => Unmarked input.left ∧ Unmarked input.right

theorem rustMerge_readsBack {G : Grammar} {input : MergeInput} (h : MergesOnLines G input)
    (hflat : ∀ c ∈ (rustMerge G input).conflicts ++ (rustMerge G input).carried, c.Flat) :
    ReadsBack (rustMerge G input).merged ((rustMerge G input).conflicts ++ (rustMerge G input).carried) := by
  unfold MergesOnLines at h
  unfold rustMerge at *
  cases hsides : structuralSides G input with
  | none =>
      rw [hsides] at h
      simp only [lineMerge, List.append_nil]
      exact merge3_readsBack h.1 h.2
  | some sides =>
      obtain ⟨base, left, right⟩ := sides
      rw [hsides] at h
      simp only [hsides] at hflat ⊢
      rw [structuralSides_eq] at hsides
      obtain ⟨b, hb, hsides⟩ := Option.bind_eq_some_iff.mp hsides
      obtain ⟨l, hl, hsides⟩ := Option.bind_eq_some_iff.mp hsides
      obtain ⟨r, hr, hsides⟩ := Option.bind_eq_some_iff.mp hsides
      obtain ⟨rfl, rfl, rfl⟩ : b = base ∧ l = left ∧ r = right := by simpa using hsides
      have hlegible : ∀ it ∈ b.items ++ l.items ++ r.items, it.Legible := by
        intro it hit
        have hplain := h.items it hit
        refine ⟨hplain, ?_⟩
        rcases List.mem_append.mp hit with hit | hit
        · rcases List.mem_append.mp hit with hit | hit
          · exact textSegmentation_reads hb hit hplain
          · exact textSegmentation_reads hl hit hplain
        · exact textSegmentation_reads hr hit hplain
      have hreads := structuralMerge_readsBack G maxContainerDepth h hlegible (by decide)
      dsimp only at hreads
      rw [List.nil_append] at hreads
      exact hreads hflat

/-- A merge output is scanned as the values the merge reports, but for their order and with a
    part without lines as one empty line, just if no value has a marker line in it. It can then
    be prepared for the next merge, and these are the values it is queried for. -/
theorem rustMerge_scans_iff (G : Grammar) (input : MergeInput) (h : MergesOnLines G input) :
    let out := rustMerge G input
    (∃ blocks, scanMarkerBlocks out.merged = some blocks ∧
      (blocks.map fun b => shownBlock b.variants).Perm
        ((out.conflicts ++ out.carried).map fun c => shownBlock c.variants) ∧
      (Prepared.of out.merged).isSome ∧
      ∀ values, conflictValues G out.merged = some values →
        values.map (fun v => (v.left, v.right)) = blocks.map LocatedBlock.variants) ↔
    ∀ c ∈ out.conflicts ++ out.carried, c.Flat := by
  intro out
  constructor
  -- what a scan finds is what is told only if no value has a marker inside
  · rintro ⟨blocks, hscan, hperm, -⟩
    have hreads : ReadsBack out.merged (out.conflicts ++ out.carried) := by
      refine ⟨_, scanMarkerBlocks_iff.mp ⟨blocks, hscan, rfl⟩, ?_⟩
      rwa [List.map_map]
    exact hreads.flat
  · intro hflat
    -- flat values are shown as blocks of their own, which the scan finds one by one
    obtain ⟨bs, hreads, hperm⟩ := rustMerge_readsBack h hflat
    obtain ⟨blocks, hscan, rfl⟩ := scanMarkerBlocks_iff.mpr hreads
    obtain ⟨p, hp, -⟩ := Prepared.of_eq hscan
    rw [List.map_map] at hperm
    exact ⟨blocks, hscan, hperm, by rw [hp]; rfl, fun values hvalues => conflictValues_eq hscan hvalues⟩

/-! ## Two constants -/

instance (t : Str) : Decidable (StartsPlain t) :=
  inferInstanceAs (Decidable (markerKind (lineTail t) = .plain ∧ Unmarking t))

def decidableRowOnLines : (front : Str) → (pieces : List (Str × Str)) → Decidable (RowOnLines front pieces)
  | _, [] => isTrue trivial
  | front, (gap, body) :: pieces =>
      have := decidableRowOnLines (front ++ gap ++ body) pieces
      inferInstanceAs (Decidable ((Blank (lastLine (front ++ gap)) ∨ StartsPlain body) ∧
        RowOnLines (front ++ gap ++ body) pieces))

instance (front : Str) (pieces : List (Str × Str)) : Decidable (RowOnLines front pieces) :=
  decidableRowOnLines front pieces

instance (resolve : Item → Option Item → Option Item → Resolution) (front : Str) (base left right : Segmentation) :
    Decidable (OnLinesWith resolve front base left right) :=
  decidable_of_iff
    ((∀ it ∈ base.items ++ left.items ++ right.items, Unmarked it.text) ∧
      (∀ p ∈ (assembled resolve base left right).out, Unmarked p.1 ∧ Unmarking p.1) ∧
      RowOnLines front (assembled resolve base left right).out ∧
      Unmarked ((base.gaps.getLast?).getD []) ∧ Unmarking ((base.gaps.getLast?).getD []))
    ⟨fun ⟨hitems, hgaps, hrow, htrailing⟩ => ⟨hitems, hgaps, hrow, htrailing⟩,
      fun h => ⟨h.items, h.gaps, h.row, h.trailing⟩⟩

/-- Without containers only the outermost level counts. -/
theorem OnLinesWith.onLines {G : Grammar} {depth : Nat} {front : Str} {base left right : Segmentation}
    (h : OnLinesWith (resolveBaseItem (tryContainerMerge G (structuralMerge G depth))) front base left right)
    (hkind : ∀ it ∈ base.items, recursable it.definition.kind = false) :
    OnLines G (depth + 1) front base left right := by
  refine ⟨h, fun i it l r hit _ _ _ _ bp lp rp hparts => ?_⟩
  have hnot := hkind it (List.mem_of_getElem? hit)
  unfold containerSides at hparts
  rw [hnot] at hparts
  simp at hparts

/-- A grammar for one constant in three versions, with another one in front of it or without. -/
def rescanGrammar : Grammar :=
  tableGrammar
    [("const A: u8 =\n1\n;\n".toList, [constDefinition "A".toList ⟨0, 17⟩ "1".toList]),
      ("const A: u8 =\n2\n;\n".toList, [constDefinition "A".toList ⟨0, 17⟩ "2".toList]),
      ("const A: u8 =\n3\n;\n".toList, [constDefinition "A".toList ⟨0, 17⟩ "3".toList]),
      ("const B: u8 = 1;\nconst A: u8 =\n1\n;\n".toList,
        [constDefinition "B".toList ⟨0, 16⟩ "1".toList, constDefinition "A".toList ⟨17, 34⟩ "1".toList]),
      ("const B: u8 = 2;\nconst A: u8 =\n1\n;\n".toList,
        [constDefinition "B".toList ⟨0, 16⟩ "2".toList, constDefinition "A".toList ⟨17, 34⟩ "1".toList])]
    (by decide)

/-- A constant that carries a value. -/
def carrying : Str := "const A: u8 =\n<<<<<<< left\n2\n=======\n3\n>>>>>>> right\n;\n".toList

/-- A value that one side carries along is read back. -/
theorem rustMerge_scans_carried :
    let out := rustMerge rescanGrammar ⟨"const A: u8 =\n1\n;\n".toList, carrying, "const A: u8 =\n1\n;\n".toList, "m.rs".toList⟩
    out.carried ≠ [] ∧ ∃ blocks, scanMarkerBlocks out.merged = some blocks ∧
      (blocks.map fun b => shownBlock b.variants).Perm
        ((out.conflicts ++ out.carried).map fun c => shownBlock c.variants) ∧
      (Prepared.of out.merged).isSome ∧
      ∀ values, conflictValues rescanGrammar out.merged = some values →
        values.map (fun v => (v.left, v.right)) = blocks.map LocatedBlock.variants := by
  have hlines : MergesOnLines rescanGrammar
      ⟨"const A: u8 =\n1\n;\n".toList, carrying, "const A: u8 =\n1\n;\n".toList, "m.rs".toList⟩ := by
    have hopen : ∃ sides ∈ structuralSides rescanGrammar
        ⟨"const A: u8 =\n1\n;\n".toList, carrying, "const A: u8 =\n1\n;\n".toList, "m.rs".toList⟩,
        OnLinesWith (resolveBaseItem (tryContainerMerge rescanGrammar (structuralMerge rescanGrammar 2))) []
          sides.1 sides.2.1 sides.2.2 ∧ ∀ it ∈ sides.1.items, recursable it.definition.kind = false := by
      decide +kernel
    obtain ⟨⟨base, left, right⟩, hsides, hlevel, hkind⟩ := hopen
    unfold MergesOnLines
    rw [hsides]
    exact hlevel.onLines hkind
  exact ⟨by decide +kernel, (rustMerge_scans_iff rescanGrammar _ hlines).mpr (by decide +kernel)⟩

/-- Not every merge output can be scanned as the values reported: a definition that carries a
    value is nested when it is settled against another version, the line merge reports no value
    that its sides carry, and a block that follows other text on its line is not seen. -/
theorem rustMerge_not_scanned :
    let nested : MergeInput := ⟨"const A: u8 =\n1\n;\n".toList, carrying, "const A: u8 =\n3\n;\n".toList, "m.rs".toList⟩
    let outside : Str := "<<<<<<< left\nx\n=======\ny\n>>>>>>> right\n".toList
    let glued : MergeInput := ⟨"const A: u8 =\n1\n;\n".toList, "const B: u8 = 1;\nconst A: u8 =\n1\n;\n".toList,
      "const B: u8 = 2;\nconst A: u8 =\n1\n;\n".toList, "m.rs".toList⟩
    ∀ input ∈ [nested, ⟨outside, outside, outside, "m.rs".toList⟩, glued],
      ((scanMarkerBlocks input.base).isSome ∧ (scanMarkerBlocks input.left).isSome ∧
        (scanMarkerBlocks input.right).isSome) ∧
      ¬ ∃ blocks, scanMarkerBlocks (rustMerge rescanGrammar input).merged = some blocks ∧
        (blocks.map LocatedBlock.variants).Perm (((rustMerge rescanGrammar input).conflicts ++
          (rustMerge rescanGrammar input).carried).map Conflict.variants) := by
  decide +kernel

end Omoplata
