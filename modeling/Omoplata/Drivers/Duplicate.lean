-- SUMMARY: When a structural merge without conflicts emits two definitions of one kind and path.
import Mathlib.Data.List.Nodup
import Omoplata.Drivers.Additions

/-!
# Definitions emitted twice

The items of one side differ in kind and path, so that two emitted items that agree come
from different sides, or both sides changed one of them. Items that both sides add are
looked up by kind and path; an item that one side renames is not compared with what the
other side adds or renames.
-/

namespace Omoplata

/-! ## Items that the loop over the left side takes along -/

/-- The kind and path of an item. -/
def Item.key (it : Item) : DefinitionKind × Str := (it.definition.kind, it.definition.path)

section

variable {left right : Segmentation} {lp rp : Pairing}

/-- Items of a side without a repeated kind and path are told apart by it. -/
theorem eq_of_key {seg : Segmentation} (hnodup : (seg.items.map Item.key).Nodup) {j j' : Nat} {it it' : Item}
    (hj : seg.items[j]? = some it) (hj' : seg.items[j']? = some it') (hkey : it.key = it'.key) : j = j' := by
  have hget : ∀ {n : Nat} {it : Item}, seg.items[n]? = some it → (seg.items.map Item.key)[n]? = some it.key := by
    intro n it hn
    rw [List.getElem?_map, hn, Option.map_some]
  have hlt : j < (seg.items.map Item.key).length := (List.getElem?_eq_some_iff.mp (hget hj)).1
  exact (List.getElem?_inj hlt hnodup).mp ((hget hj).trans (hkey ▸ (hget hj').symm))

theorem consumeStep_length (flags : List Bool) (lj : Nat) :
    (consumeStep left right rp flags lj).length = flags.length := by
  unfold consumeStep
  split
  · rfl
  · split
    · exact List.length_set
    · rfl

theorem consumeStep_flagged {flags : List Bool} {j : Nat} (h : flagged flags j = true) (lj : Nat) :
    flagged (consumeStep left right rp flags lj) j = true := by
  unfold consumeStep
  split
  · exact h
  · split
    · rename_i rj _
      cases hset : flagged (flags.set rj true) j with
      | true => rfl
      | false => exact absurd ((flagged_set_false hset).symm.trans h) Bool.false_ne_true
    · exact h

/-- The step at an item added on the left takes along the item of the same kind and path that
    the right side added. -/
theorem consumeStep_takes (hnodup : (right.items.map Item.key).Nodup) {flags : List Bool} {lj rj : Nat} {l r : Item}
    (hlength : flags.length = right.items.length) (hrj : rj ∈ rp.added) (hl : left.items[lj]? = some l)
    (hr : right.items[rj]? = some r) (hkey : l.key = r.key) :
    flagged (consumeStep left right rp flags lj) rj = true := by
  have hlt : rj < flags.length := hlength ▸ (List.getElem?_eq_some_iff.mp hr).1
  cases hflag : flagged flags rj with
  | true => exact consumeStep_flagged hflag lj
  | false =>
      have hopen : flags.getD rj true = false := by
        unfold flagged at hflag
        rw [List.getD_eq_getElem?_getD, List.getElem?_eq_getElem hlt] at hflag ⊢
        exact hflag
      obtain ⟨hkind, hpath⟩ := Prod.mk.inj hkey
      have hsome : (rp.added.find? fun rj => !flags.getD rj true && (right.items[rj]?).any fun ri =>
          ri.definition.kind == l.definition.kind && ri.definition.path == l.definition.path).isSome = true := by
        refine List.find?_isSome.mpr ⟨rj, hrj, ?_⟩
        rw [hopen, hr, Option.any_some, hkind, hpath]
        simp
      obtain ⟨rj', hfind⟩ := Option.isSome_iff_exists.mp hsome
      have hfound := List.find?_some hfind
      rw [Bool.and_eq_true] at hfound
      have hsame : rj' = rj := by
        cases hr' : right.items[rj']? with
        | none =>
            rw [hr', Option.any_none] at hfound
            exact absurd hfound.2 Bool.false_ne_true
        | some r' =>
            rw [hr', Option.any_some, Bool.and_eq_true, beq_iff_eq, beq_iff_eq] at hfound
            exact eq_of_key hnodup hr' hr ((Prod.ext hfound.2.1 hfound.2.2).trans hkey)
      unfold consumeStep
      rw [hl]
      dsimp only
      rw [hfind, hsame]
      exact (flagged_set hlt rj).mpr (.inl rfl)

/-- An item that both sides add comes out with the left side. -/
theorem consumed_of_key (hnodup : (right.items.map Item.key).Nodup) {lj rj : Nat} {l r : Item} (hlj : lj ∈ lp.added)
    (hrj : rj ∈ rp.added) (hl : left.items[lj]? = some l) (hr : right.items[rj]? = some r) (hkey : l.key = r.key) :
    flagged (consumed left right lp rp) rj = true := by
  have hlength : ∀ (js : List Nat) (flags : List Bool),
      (js.foldl (consumeStep left right rp) flags).length = flags.length := by
    intro js
    induction js with
    | nil => exact fun _ => rfl
    | cons j js ih =>
        intro flags
        rw [List.foldl_cons, ih, consumeStep_length]
  obtain ⟨pre, suf, hsplit⟩ := List.append_of_mem hlj
  unfold consumed
  rw [hsplit, List.foldl_append, List.foldl_cons]
  -- the step at the item sets the flag, and the steps behind it leave it set
  refine List.foldlRecOn (motive := fun flags => flagged flags rj = true) suf _ ?_
    fun flags hflags j _ => consumeStep_flagged hflags j
  exact consumeStep_takes hnodup ((hlength pre _).trans (List.length_map _)) hrj hl hr hkey

end

/-! ## Where emitted items come from -/

/-- What texts read as: the kind and path of the definition in them. -/
abbrev Reading := Str → Option (DefinitionKind × Str)

/-- Two texts that do not read as one kind and path. -/
def Reading.Apart (reads : Reading) (s t : Str) : Prop := ∀ k ∈ reads s, k ∉ reads t

instance (reads : Reading) (s t : Str) : Decidable (reads.Apart s t) := by unfold Reading.Apart; infer_instance

theorem Reading.Apart.symm {reads : Reading} {s t : Str} (h : reads.Apart s t) : reads.Apart t s :=
  fun k ht hs => h k hs ht

/-- A segmentation without a repeated kind and path, whose items read as what they are. -/
structure Segmentation.Keyed (reads : Reading) (seg : Segmentation) : Prop where
  reads : ∀ it ∈ seg.items, reads it.originalText = some it.key
  nodup : (seg.items.map Item.key).Nodup

instance (reads : Reading) (seg : Segmentation) : Decidable (seg.Keyed reads) :=
  decidable_of_iff ((∀ it ∈ seg.items, reads it.originalText = some it.key) ∧ (seg.items.map Item.key).Nodup)
    ⟨fun ⟨hreads, hnodup⟩ => ⟨hreads, hnodup⟩, fun h => ⟨h.reads, h.nodup⟩⟩

/-- The place where an item of a side comes out as that side has it: its own if the side added
    it, that of a base item if the other side left the base item alone. -/
inductive ComesOut (base side other : Segmentation) (own : Nat → Slot) : Slot → Nat → Prop
  | added {j : Nat} : j ∈ (pair base side).added → ComesOut base side other own (own j) j
  | shared {i j : Nat} {it o : Item} : (pair base side).baseToSide[i]? = some (some j) →
      base.items[i]? = some it → counterpart other (pair base other) i = some o →
      o.originalText = it.originalText → ComesOut base side other own (.base i) j

/-- A base item that both sides changed, and the text their changes settle to. -/
def Mends (resolve : Item → Option Item → Option Item → Resolution) (base left right : Segmentation) (i : Nat)
    (t : Str) : Prop :=
  ∃ it l r, base.items[i]? = some it ∧ counterpart left (pair base left) i = some l ∧
    counterpart right (pair base right) i = some r ∧ l.originalText ≠ it.originalText ∧
    r.originalText ≠ it.originalText ∧ (resolve it (some l) (some r)).body = some t

section

variable {base side other left right : Segmentation}

theorem counterpart_eq_some {i : Nat} {s : Item} :
    counterpart side (pair base side) i = some s ↔
      ∃ j : Nat, (pair base side).baseToSide[i]? = some (some j) ∧ side.items[j]? = some s := by
  unfold counterpart
  rw [List.getD_eq_getElem?_getD]
  cases (pair base side).baseToSide[i]? with
  | none => simp
  | some o => cases o <;> simp

/-- An item comes out as its side has it in one place at most. -/
theorem ComesOut.place_eq {own : Nat → Slot} {s s' : Slot} {j : Nat} (h : ComesOut base side other own s j)
    (h' : ComesOut base side other own s' j) : s = s' := by
  have hpair := pair_ok base side
  cases h with
  | added hj =>
      cases h' with
      | added => rfl
      | shared hi' => exact absurd hi' (((hpair.mem_added j).mp hj).2 _)
  | shared hi =>
      cases h' with
      | added hj => exact absurd hi (((hpair.mem_added j).mp hj).2 _)
      | shared hi' => rw [hpair.inj _ _ j hi hi']

end

/-! ## The texts of the places -/

section

variable {base left right : Segmentation} {container : Item → Item → Item → Option Resolution} {i : Nat} {it l r : Item}

theorem mem_slots (s : Slot) : s ∈ slots base left right ↔
    match s with
    | .base i => i ∈ survivors base left right
    | .left j => j ∈ (pair base left).added
    | .right j => j ∈ others base left right := by
  unfold slots
  cases s <;> simp

theorem base_mem_slots (hit : base.items[i]? = some it) (hl : counterpart left (pair base left) i = some l)
    (hr : counterpart right (pair base right) i = some r) : Slot.base i ∈ slots base left right := by
  have hlt : i < base.items.length := (List.getElem?_eq_some_iff.mp hit).1
  refine (mem_slots _).mpr (List.mem_filter.mpr ⟨List.mem_range.mpr hlt, ?_⟩)
  rw [hl, hr]
  rfl

theorem body_base {resolve : Item → Option Item → Option Item → Resolution} (hit : base.items[i]? = some it)
    (hl : counterpart left (pair base left) i = some l) (hr : counterpart right (pair base right) i = some r) :
    (Slot.base i).body base left right resolve = ((resolve it (some l) (some r)).body).getD [] := by
  unfold Slot.body settled
  simp only [hit, hl, hr, Option.bind_some]

theorem Clean.resolved (hclean : Clean base left right (resolveBaseItem container)) (hit : base.items[i]? = some it)
    (hl : counterpart left (pair base left) i = some l) (hr : counterpart right (pair base right) i = some r) :
    (resolveBaseItem container it (some l) (some r)).conflicts = [] := by
  have h := hclean.settled i it hit
  unfold Omoplata.settled at h
  rwa [hl, hr] at h

/-- Without conflicts, an item that comes out as on the left is emitted. -/
theorem ComesOut.emitted_left {s : Slot} {j : Nat} (hclean : Clean base left right (resolveBaseItem container))
    (h : ComesOut base left right .left s j) (hl : left.items[j]? = some l) :
    s ∈ slots base left right ∧ s.body base left right (resolveBaseItem container) = l.originalText := by
  cases h with
  | added hj =>
      refine ⟨(mem_slots _).mpr hj, ?_⟩
      unfold Slot.body
      simp only [hl, Option.map_some, Option.getD_some]
  | shared hij hit ho hsame =>
      have hl' := counterpart_eq_some.mpr ⟨j, hij, hl⟩
      refine ⟨base_mem_slots hit hl' ho, ?_⟩
      rw [body_base hit hl' ho]
      rcases resolveBaseItem_clean (hclean.resolved hit hl' ho) with ⟨-, hbody⟩ | ⟨hleft, hbody⟩ | ⟨-, hright, -⟩
      · rw [hbody, Option.getD_some]
      · rw [hbody, Option.getD_some, hsame, hleft]
      · exact absurd hsame hright

/-- Without conflicts, an item that comes out as on the right is emitted, or the left side adds
    one with its text. -/
theorem ComesOut.emitted_right {s : Slot} {j : Nat} (hclean : Clean base left right (resolveBaseItem container))
    (h : ComesOut base right left .right s j) (hr : right.items[j]? = some r) :
    s ∈ slots base left right ∧ s.body base left right (resolveBaseItem container) = r.originalText ∨
      s = .right j ∧ ∃ lj ∈ (pair base left).added, SameText left right lj j := by
  cases h with
  | added hj =>
      rcases hclean.added j hj with hother | htwin
      · refine .inl ⟨(mem_slots _).mpr hother, ?_⟩
        unfold Slot.body
        simp only [hr, Option.map_some, Option.getD_some]
      · exact .inr ⟨rfl, htwin⟩
  | shared hij hit ho hsame =>
      have hr' := counterpart_eq_some.mpr ⟨j, hij, hr⟩
      refine .inl ⟨base_mem_slots hit ho hr', ?_⟩
      rw [body_base hit ho hr']
      rcases resolveBaseItem_clean (hclean.resolved hit ho hr') with ⟨hright, hbody⟩ | ⟨-, hbody⟩ | ⟨hleft, -⟩
      · rw [hbody, Option.getD_some, hsame, hright]
      · rw [hbody, Option.getD_some]
      · exact absurd hsame hleft

/-- What both sides changed is emitted as it is settled. -/
theorem Mends.emitted {resolve : Item → Option Item → Option Item → Resolution} {t : Str}
    (h : Mends resolve base left right i t) :
    Slot.base i ∈ slots base left right ∧ (Slot.base i).body base left right resolve = t := by
  obtain ⟨it, l, r, hit, hl, hr, -, -, hbody⟩ := h
  refine ⟨base_mem_slots hit hl hr, ?_⟩
  rw [body_base hit hl hr, hbody, Option.getD_some]

/-- What both sides changed does not come out as one of them has it. -/
theorem Mends.place_ne {resolve : Item → Option Item → Option Item → Resolution} {t : Str}
    (h : Mends resolve base left right i t) {s : Slot} {j : Nat} :
    (ComesOut base left right .left s j → s ≠ .base i) ∧ (ComesOut base right left .right s j → s ≠ .base i) := by
  obtain ⟨it, l, r, hit, hl, hr, hlne, hrne, -⟩ := h
  constructor
  · rintro (_ | ⟨-, hit', ho, hsame⟩)
    · exact Slot.noConfusion
    · rintro heq
      obtain rfl := Slot.base.inj heq
      obtain rfl := Option.some.inj (hit.symm.trans hit')
      obtain rfl := Option.some.inj (hr.symm.trans ho)
      exact hrne hsame
  · rintro (_ | ⟨-, hit', ho, hsame⟩)
    · exact Slot.noConfusion
    · rintro heq
      obtain rfl := Slot.base.inj heq
      obtain rfl := Option.some.inj (hit.symm.trans hit')
      obtain rfl := Option.some.inj (hl.symm.trans ho)
      exact hlne hsame

/-- Without conflicts, an emitted text is that of an item of one side, or settled from two. -/
theorem body_cases (hcontainer : ∀ b l r res, container b l r = some res → res.body.isSome = true)
    (hclean : Clean base left right (resolveBaseItem container)) {s : Slot} (hs : s ∈ slots base left right) :
    (∃ j l, ComesOut base left right .left s j ∧ left.items[j]? = some l ∧
      s.body base left right (resolveBaseItem container) = l.originalText) ∨
    (∃ j r, ComesOut base right left .right s j ∧ right.items[j]? = some r ∧
      s.body base left right (resolveBaseItem container) = r.originalText) ∨
    ∃ i, s = .base i ∧ Mends (resolveBaseItem container) base left right i
      (s.body base left right (resolveBaseItem container)) := by
  have hlt := index_lt_of_mem_slots hs
  have hplace := (mem_slots s).mp hs
  cases s with
  | left j =>
      have hl : left.items[j]? = some left.items[j] := List.getElem?_eq_getElem hlt
      have hcomes : ComesOut base left right .left (.left j) j := .added hplace
      exact .inl ⟨j, _, hcomes, hl, (hcomes.emitted_left hclean hl).2⟩
  | right j =>
      have hr : right.items[j]? = some right.items[j] := List.getElem?_eq_getElem hlt
      refine .inr (.inl ⟨j, _, .added (List.mem_filter.mp hplace).1, hr, ?_⟩)
      unfold Slot.body
      simp only [hr, Option.map_some, Option.getD_some]
  | base i =>
      have hit : base.items[i]? = some base.items[i] := List.getElem?_eq_getElem hlt
      have hboth := (List.mem_filter.mp hplace).2
      rw [Bool.and_eq_true] at hboth
      obtain ⟨l, hl⟩ := Option.isSome_iff_exists.mp hboth.1
      obtain ⟨r, hr⟩ := Option.isSome_iff_exists.mp hboth.2
      obtain ⟨j, hj, hleft⟩ := counterpart_eq_some.mp hl
      obtain ⟨j', hj', hright⟩ := counterpart_eq_some.mp hr
      have hresolved := hclean.resolved hit hl hr
      rcases resolveBaseItem_clean hresolved with ⟨hsame, hbody⟩ | ⟨hsame, hbody⟩ | ⟨hlne, hrne, -⟩
      · refine .inl ⟨j, l, .shared hj hit hr hsame, hleft, ?_⟩
        rw [body_base hit hl hr, hbody, Option.getD_some]
      · refine .inr (.inl ⟨j', r, .shared hj' hit hl hsame, hright, ?_⟩)
        rw [body_base hit hl hr, hbody, Option.getD_some]
      · -- settled from both sides
        have hsome := resolveBaseItem_isSome hcontainer _ (some l) (some r) hresolved
        obtain ⟨t, ht⟩ := Option.isSome_iff_exists.mp hsome
        refine .inr (.inr ⟨i, rfl, _, l, r, hit, hl, hr, hlne, hrne, ?_⟩)
        rw [body_base hit hl hr, ht, Option.getD_some]

end

/-! ## Emitted twice -/

/-- The items a structural merge emits, in order. -/
def emitted (G : Grammar) (depth : Nat) (base left right : Segmentation) : List Str :=
  (assemble (resolveBaseItem (containerAt G depth)) base left right).out.map Prod.snd

/-- Nothing that one side renames clashes with what the other side has. -/
structure NoClash (reads : Reading) (resolve : Item → Option Item → Option Item → Resolution)
    (base left right : Segmentation) : Prop where
  /-- Items that come out from different sides agree in kind and path only in one place, or if
      both sides added them. -/
  sides : ∀ s s' j j' l r, ComesOut base left right .left s j → ComesOut base right left .right s' j' →
    left.items[j]? = some l → right.items[j']? = some r → l.key = r.key →
    s = s' ∨ s = .left j ∧ s' = .right j'
  /-- What both sides changed does not come out as an item of one of them. -/
  mended : ∀ i t, Mends resolve base left right i t →
    (∀ s j l, ComesOut base left right .left s j → left.items[j]? = some l → reads t ≠ some l.key) ∧
    ∀ s j r, ComesOut base right left .right s j → right.items[j]? = some r → reads t ≠ some r.key
  apart : ∀ i i' t t', Mends resolve base left right i t → Mends resolve base left right i' t' → i ≠ i' →
    reads.Apart t t'

section

variable {G : Grammar} {depth : Nat} {reads : Reading} {base left right : Segmentation}

/-- The places of an output are different. -/
theorem slots_nodup : (slots base left right).Nodup := by
  have hpairs := fun side => pair_ok base side
  unfold slots survivors others
  refine List.nodup_append.mpr ⟨List.nodup_append.mpr ⟨?_, ?_, ?_⟩, ?_, ?_⟩
  · exact List.Nodup.map (fun _ _ => Slot.base.inj) (List.nodup_range.filter _)
  · exact List.Nodup.map (fun _ _ => Slot.left.inj) (hpairs left).nodup
  · simp only [List.mem_map]
    rintro _ ⟨i, -, rfl⟩ _ ⟨j, -, rfl⟩ heq
    cases heq
  · exact List.Nodup.map (fun _ _ => Slot.right.inj) ((hpairs right).nodup.filter _)
  · simp only [List.mem_append, List.mem_map]
    rintro _ (⟨i, -, rfl⟩ | ⟨i, -, rfl⟩) _ ⟨j, -, rfl⟩ heq <;> cases heq

/-- Two items that come out of different places of one side are apart. -/
theorem ComesOut.apart {side other : Segmentation} {own : Nat → Slot} (hside : side.Keyed reads) {s s' : Slot}
    {j j' : Nat} {it it' : Item} (h : ComesOut base side other own s j) (h' : ComesOut base side other own s' j')
    (hit : side.items[j]? = some it) (hit' : side.items[j']? = some it') (hne : s ≠ s') :
    reads.Apart it.originalText it'.originalText := by
  intro k hk hk'
  rw [hside.reads it (List.mem_of_getElem? hit), Option.mem_some] at hk
  rw [hside.reads it' (List.mem_of_getElem? hit'), Option.mem_some] at hk'
  obtain rfl := eq_of_key hside.nodup hit hit' (hk.trans hk'.symm)
  exact hne (h.place_eq h')

/-- The places of an output whose texts are apart two by two. -/
def PlacesApart (reads : Reading) (resolve : Item → Option Item → Option Item → Resolution)
    (base left right : Segmentation) : Prop :=
  ∀ s ∈ slots base left right, ∀ s' ∈ slots base left right, s ≠ s' →
    reads.Apart (s.body base left right resolve) (s'.body base left right resolve)

theorem emitted_eq (hclean : (structuralMerge G depth base left right).conflicts = []) :
    Clean base left right (resolveBaseItem (containerAt G depth)) ∧
      emitted G depth base left right =
        (slots base left right).map (Slot.body base left right (resolveBaseItem (containerAt G depth))) := by
  rw [structuralMerge_eq, structuralMergeWith_eq] at hclean
  obtain ⟨hcleanly, hout⟩ := assemble_clean (resolveBaseItem_isSome (containerAt_isSome G depth)) hclean
  refine ⟨hcleanly, ?_⟩
  unfold emitted
  rw [hout, List.map_map]
  rfl

theorem emitted_pairwise_iff (hclean : (structuralMerge G depth base left right).conflicts = []) :
    (emitted G depth base left right).Pairwise reads.Apart ↔
      PlacesApart reads (resolveBaseItem (containerAt G depth)) base left right := by
  rw [(emitted_eq hclean).2, List.pairwise_map]
  constructor
  · intro h s hs s' hs' hne
    have hsymm : Std.Symm fun s s' : Slot =>
        reads.Apart (s.body base left right (resolveBaseItem (containerAt G depth)))
          (s'.body base left right (resolveBaseItem (containerAt G depth))) := ⟨fun _ _ => Reading.Apart.symm⟩
    exact h.forall hs hs' hne
  · intro h
    exact List.Nodup.pairwise_of_forall_ne slots_nodup h

variable {container : Item → Item → Item → Option Resolution}

/-- Items that come out of different places of two sides are apart. -/
theorem NoClash.sides_apart {resolve : Item → Option Item → Option Item → Resolution} (hleft : left.Keyed reads)
    (hright : right.Keyed reads) (h : NoClash reads resolve base left right) {s s' : Slot} {j j' : Nat} {l r : Item}
    (hs' : s' ∈ slots base left right) (hl : ComesOut base left right .left s j)
    (hr : ComesOut base right left .right s' j') (hlit : left.items[j]? = some l) (hrit : right.items[j']? = some r)
    (hne : s ≠ s') : reads.Apart l.originalText r.originalText := by
  intro k hk hk'
  rw [hleft.reads l (List.mem_of_getElem? hlit), Option.mem_some] at hk
  rw [hright.reads r (List.mem_of_getElem? hrit), Option.mem_some] at hk'
  have hkey : l.key = r.key := hk.trans hk'.symm
  rcases h.sides s s' j j' l r hl hr hlit hrit hkey with heq | ⟨rfl, rfl⟩
  · exact hne heq
  · -- both sides added it, and the loop over the left side has taken the right one along
    have hother := List.mem_filter.mp ((mem_slots _).mp hs')
    have hadded : j ∈ (pair base left).added := by
      cases hl with
      | added hj => exact hj
    have htaken := consumed_of_key hright.nodup hadded hother.1 hlit hrit hkey
    unfold flagged at htaken
    rw [htaken] at hother
    exact Bool.false_ne_true hother.2

/-- Items that come out of the sides are apart from the text of an item that is put together. -/
theorem NoClash.mended_apart {resolve : Item → Option Item → Option Item → Resolution} (hleft : left.Keyed reads)
    (hright : right.Keyed reads) (h : NoClash reads resolve base left right) {i : Nat} {t : Str}
    (hm : Mends resolve base left right i t) :
    (∀ s j l, ComesOut base left right .left s j → left.items[j]? = some l → reads.Apart l.originalText t) ∧
      ∀ s j r, ComesOut base right left .right s j → right.items[j]? = some r → reads.Apart r.originalText t := by
  refine ⟨fun s j l hl hlit k hk => ?_, fun s j r hr hrit k hk => ?_⟩
  · rw [hleft.reads l (List.mem_of_getElem? hlit), Option.mem_some] at hk
    exact hk ▸ (h.mended i t hm).1 s j l hl hlit
  · rw [hright.reads r (List.mem_of_getElem? hrit), Option.mem_some] at hk
    exact hk ▸ (h.mended i t hm).2 s j r hr hrit

theorem NoClash.placesApart (hcontainer : ∀ b l r res, container b l r = some res → res.body.isSome = true)
    (hleft : left.Keyed reads) (hright : right.Keyed reads)
    (hclean : Clean base left right (resolveBaseItem container))
    (h : NoClash reads (resolveBaseItem container) base left right) :
    PlacesApart reads (resolveBaseItem container) base left right := by
  have hmended {i : Nat} {t : Str} (hm : Mends (resolveBaseItem container) base left right i t) :=
    h.mended_apart hleft hright hm
  intro s hs s' hs' hne
  rcases body_cases hcontainer hclean hs with ⟨j, l, hl, hlit, hbody⟩ | ⟨j, r, hr, hrit, hbody⟩ | ⟨i, rfl, hm⟩
  · rw [hbody]
    rcases body_cases hcontainer hclean hs' with ⟨j', l', hl', hlit', hbody'⟩ | ⟨j', r', hr', hrit', hbody'⟩ | ⟨i', rfl, hm'⟩
    · rw [hbody']
      exact hl.apart hleft hl' hlit hlit' hne
    · rw [hbody']
      exact h.sides_apart hleft hright hs' hl hr' hlit hrit' hne
    · exact (hmended hm').1 s j l hl hlit
  · rw [hbody]
    rcases body_cases hcontainer hclean hs' with ⟨j', l', hl', hlit', hbody'⟩ | ⟨j', r', hr', hrit', hbody'⟩ | ⟨i', rfl, hm'⟩
    · rw [hbody']
      exact (h.sides_apart hleft hright hs hl' hr hlit' hrit hne.symm).symm
    · rw [hbody']
      exact hr.apart hright hr' hrit hrit' hne
    · exact (hmended hm').2 s j r hr hrit
  · rcases body_cases hcontainer hclean hs' with ⟨j', l', hl', hlit', hbody'⟩ | ⟨j', r', hr', hrit', hbody'⟩ | ⟨i', rfl, hm'⟩
    · rw [hbody']
      exact ((hmended hm).1 s' j' l' hl' hlit').symm
    · rw [hbody']
      exact ((hmended hm).2 s' j' r' hr' hrit').symm
    · exact h.apart i i' _ _ hm hm' fun heq => hne (congrArg Slot.base heq)

theorem PlacesApart.noClash (hleft : left.Keyed reads) (hright : right.Keyed reads)
    (hclean : Clean base left right (resolveBaseItem container))
    (h : PlacesApart reads (resolveBaseItem container) base left right) :
    NoClash reads (resolveBaseItem container) base left right := by
  have hreadLeft : ∀ {j : Nat} {l : Item}, left.items[j]? = some l → reads l.originalText = some l.key :=
    fun hlit => hleft.reads _ (List.mem_of_getElem? hlit)
  have hreadRight : ∀ {j : Nat} {r : Item}, right.items[j]? = some r → reads r.originalText = some r.key :=
    fun hrit => hright.reads _ (List.mem_of_getElem? hrit)
  -- an item that both sides add has one text, so it reads as one definition
  have htwin : ∀ {lj rj : Nat} {r : Item}, SameText left right lj rj → right.items[rj]? = some r →
      ∃ l, left.items[lj]? = some l ∧ l.originalText = r.originalText ∧ l.key = r.key := by
    rintro lj rj r ⟨l, r', hlit, hrit', htext⟩ hrit
    obtain rfl := Option.some.inj (hrit.symm.trans hrit')
    refine ⟨l, hlit, htext.symm, Option.some.inj ?_⟩
    rw [← hreadLeft hlit, ← hreadRight hrit, htext]
  constructor
  · intro s s' j j' l r hl hr hlit hrit hkey
    obtain ⟨hs, hbody⟩ := hl.emitted_left hclean hlit
    rcases hr.emitted_right hclean hrit with ⟨hs', hbody'⟩ | ⟨rfl, lj, hlj, hsame⟩
    · by_contra hclash
      have hapart := h s hs s' hs' fun heq => hclash (.inl heq)
      rw [hbody, hbody'] at hapart
      exact hapart l.key (hreadLeft hlit) (hkey ▸ hreadRight hrit)
    · -- the left side adds one with its text, and that is the one
      obtain ⟨l', hlit', -, hkey'⟩ := htwin hsame hrit
      obtain rfl := eq_of_key hleft.nodup hlit hlit' (hkey.trans hkey'.symm)
      exact .inr ⟨hl.place_eq (.added hlj), rfl⟩
  · intro i t hm
    obtain ⟨hi, hbody⟩ := hm.emitted
    -- what is read off a merged piece is read off no other slot
    have hfrom : ∀ s ∈ slots base left right, ∀ k, s ≠ .base i →
        reads (s.body base left right (resolveBaseItem container)) = some k → reads t ≠ some k := by
      intro s hs k hne hk
      have hapart := h s hs (.base i) hi hne
      rw [hbody] at hapart
      exact hapart k hk
    refine ⟨fun s j l hl hlit => ?_, fun s j r hr hrit => ?_⟩
    · obtain ⟨hs, htext⟩ := hl.emitted_left hclean hlit
      exact hfrom s hs l.key (hm.place_ne.1 hl) (htext ▸ hreadLeft hlit)
    · rcases hr.emitted_right hclean hrit with ⟨hs, htext⟩ | ⟨rfl, lj, hlj, hsame⟩
      · exact hfrom s hs r.key (hm.place_ne.2 hr) (htext ▸ hreadRight hrit)
      · obtain ⟨l, hlit, -, hkey⟩ := htwin hsame hrit
        obtain ⟨hs, htext⟩ := (ComesOut.added hlj).emitted_left hclean hlit
        exact hfrom _ hs r.key Slot.noConfusion (hkey ▸ htext ▸ hreadLeft hlit)
  · intro i i' t t' hm hm' hne
    obtain ⟨hi, hbody⟩ := hm.emitted
    obtain ⟨hi', hbody'⟩ := hm'.emitted
    have hapart := h (.base i) hi (.base i') hi' fun heq => hne (Slot.base.inj heq)
    rwa [hbody, hbody'] at hapart

/-- A structural merge without conflicts emits no two items of one kind and path if and only if
    nothing that one side renames clashes with what the other side has. -/
theorem structuralMerge_apart_iff (hleft : left.Keyed reads) (hright : right.Keyed reads)
    (hclean : (structuralMerge G depth base left right).conflicts = []) :
    (emitted G depth base left right).Pairwise reads.Apart ↔
      NoClash reads (resolveBaseItem (containerAt G depth)) base left right := by
  have hcleanly := (emitted_eq hclean).1
  rw [emitted_pairwise_iff hclean]
  exact ⟨fun h => h.noClash hleft hright hcleanly,
    fun h => h.placesApart (containerAt_isSome G depth) hleft hright hcleanly⟩

end

/-! ## Two runs -/

/-- Functions with a name of one letter are read off their texts. -/
def fnReading : Reading
  | 'f' :: 'n' :: ' ' :: name :: _ => some (.function, [name])
  | _ => none

/-- A function on a line of its own. -/
def fnItem (name text body : String) : Item :=
  .conflictFree (fnDefinition name.toList ⟨0, text.length⟩ body.toList) text.toList ⟨0, text.length⟩

/-- The two sides add functions of different names. -/
theorem structuralMerge_apart_added :
    let base : Segmentation := ⟨[fnItem "a" "fn a() {1}" "1"], [[], ['\n']]⟩
    let left : Segmentation := ⟨[fnItem "a" "fn a() {1}" "1", fnItem "b" "fn b() {2}" "2"], [[], ['\n'], ['\n']]⟩
    let right : Segmentation := ⟨[fnItem "c" "fn c() {1}" "1", fnItem "d" "fn d() {3}" "3"], [[], ['\n'], ['\n']]⟩
    emitted (tableGrammar [] (by simp)) 0 base left right =
        ["fn c() {1}".toList, "fn b() {2}".toList, "fn d() {3}".toList] ∧
      NoClash fnReading (resolveBaseItem (containerAt (tableGrammar [] (by simp)) 0)) base left right := by
  intro base left right
  have hemitted : emitted (tableGrammar [] (by simp)) 0 base left right =
      ["fn c() {1}".toList, "fn b() {2}".toList, "fn d() {3}".toList] := by decide +kernel
  have hclash := (@structuralMerge_apart_iff (tableGrammar [] (by simp)) 0 fnReading base left right
    (by decide) (by decide) (by decide +kernel)).mp
  rw [hemitted] at hclash
  exact ⟨hemitted, hclash (by decide)⟩

/-- One side renames `a` to `c`, and the other adds another `c`: both are emitted, without a
    conflict. -/
theorem structuralMerge_emits_twice :
    let base : Segmentation := ⟨[fnItem "a" "fn a() {1}" "1"], [[], ['\n']]⟩
    let left : Segmentation := ⟨[fnItem "c" "fn c() {1}" "1"], [[], ['\n']]⟩
    let right : Segmentation := ⟨[fnItem "a" "fn a() {1}" "1", fnItem "c" "fn c() {2}" "2"], [[], ['\n'], ['\n']]⟩
    let G := tableGrammar [] (by simp)
    (base.Keyed fnReading ∧ left.Keyed fnReading ∧ right.Keyed fnReading) ∧
      (structuralMerge G maxContainerDepth base left right).conflicts = [] ∧
      (structuralMerge G maxContainerDepth base left right).merged = "fn c() {1}\nfn c() {2}\n".toList ∧
      ¬(emitted G maxContainerDepth base left right).Pairwise fnReading.Apart := by
  decide +kernel

end Omoplata
