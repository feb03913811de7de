-- SUMMARY: What a definition-granular support says about the definitions of the two texts.
import Omoplata.Work.Queue

/-!
# Support

The support of an edit holds the keys whose comparison text differs between base and
new. A definition's own text is compared in full, that of a container by its shell.
-/

namespace Omoplata

/-! ## Comparison texts -/

/-- The comparison text of the last definition with a key. -/
def comparisonText (src : Str) (defs : List Definition) (key : Str) : Option Str :=
  (defs.filter fun d => d.key = key).getLast?.map (effectiveText src)

theorem getElem?_effectiveTexts (src : Str) (defs : List Definition) (key : Str) :
    (effectiveTexts src defs)[key]? = comparisonText src defs key := by
  unfold effectiveTexts comparisonText
  induction defs using List.reverseRecOn with
  | nil => simp
  | append_singleton defs d ih =>
      rw [List.foldl_concat, BTreeMap.getElem?_insert, ih, List.filter_append]
      by_cases hkey : d.key = key
      · simp [hkey]
      · simp [hkey]

/-- The keys in a support are those whose comparison texts differ. -/
theorem mem_rustSupport_iff {G : Grammar} {base new : Str} {support : BTreeSet Str}
    (h : rustSupport G base new = some support) :
    ∃ defs defs', G.extractDefinitions base = .ok defs ∧ G.extractDefinitions new = .ok defs' ∧
      ∀ key, key ∈ support ↔ comparisonText base defs key ≠ comparisonText new defs' key := by
  unfold rustSupport at h
  split at h
  · simp at h
  · cases hbase : G.extractDefinitions base with
    | error e => simp [hbase, Except.toOption] at h
    | ok defs =>
        cases hnew : G.extractDefinitions new with
        | error e => simp [hbase, hnew, Except.toOption] at h
        | ok defs' =>
            simp only [hbase, hnew, Except.toOption, Option.bind_eq_bind, Option.bind_some,
              Option.some.injEq] at h
            refine ⟨defs, defs', rfl, rfl, fun key => ?_⟩
            rw [← h, ← getElem?_effectiveTexts, ← getElem?_effectiveTexts]
            simp only [Std.ExtTreeSet.mem_ofList, List.contains_iff_mem, List.mem_append, List.mem_map,
              List.mem_filter, Prod.exists, exists_and_right, exists_eq_right,
              Std.ExtTreeMap.mem_toList_iff_getElem?_eq_some, bne_iff_ne, ne_eq, Std.ExtTreeMap.mem_keys,
              Bool.not_eq_true', Std.ExtTreeMap.mem_iff_isSome_getElem?]
            have hcontains : (effectiveTexts new defs').contains key = false ↔
                (effectiveTexts new defs')[key]? = none := by
              rw [Std.ExtTreeMap.contains_eq_isSome_getElem?, Option.isSome_eq_false_iff, Option.isNone_iff_eq_none]
            rw [hcontains]
            cases (effectiveTexts base defs)[key]? with
            | none => cases (effectiveTexts new defs')[key]? <;> simp
            | some text =>
                cases (effectiveTexts new defs')[key]? with
                | none => simp
                | some text' => simp [eq_comm]

/-! ## What a support leaves out -/

/-- Whether a definition is a container. -/
def Definition.isContainer (d : Definition) : Bool :=
  match d.kind with
  | .impl | .module | .trait => true
  | _ => false

/-- The text of a range without what lies in one of some other ranges. -/
def uncoveredText (src : Str) (range : Range) (holes : List Range) : Str :=
  (((getRange src range).getD []).zipIdx range.start).filterMap fun (c, i) =>
    if holes.any fun hole => hole.start ≤ i && i < hole.stop then none else some c

/-- A definition's own text: its text, for a container without the definitions nested in it,
    which come behind it. -/
def ownText (src : Str) (d : Definition) (later : List Definition) : Str :=
  if d.isContainer then
    uncoveredText src d.byteRange ((later.map Definition.byteRange).filter d.byteRange.contains)
  else (getRange src d.byteRange).getD []

/-- The own texts of the definitions with a key, in source order. -/
def ownTexts (src : Str) (key : Str) : List Definition → List Str
  | [] => []
  | d :: defs =>
      if d.key = key then ownText src d defs :: ownTexts src key defs else ownTexts src key defs

/-- A support that has the key of every definition whose own text differs. -/
def SupportsOwnTexts (G : Grammar) (base new : Str) : Prop :=
  ∀ support defs defs', rustSupport G base new = some support → G.extractDefinitions base = .ok defs →
    G.extractDefinitions new = .ok defs' →
    ∀ key, ownTexts base key defs ≠ ownTexts new key defs' → key ∈ support

/-! ## What a support promises -/

/-- At most one definition has a key. -/
def KeyedOnce (defs : List Definition) (key : Str) : Prop := (defs.filter fun d => d.key = key).length ≤ 1

/-- The comparison text of the definition with a key. -/
def textOf (src : Str) (defs : List Definition) (key : Str) : Option Str :=
  (defs.find? fun d => d.key = key).map (effectiveText src)

theorem comparisonText_of_once {src : Str} {defs : List Definition} {key : Str} (h : KeyedOnce defs key) :
    comparisonText src defs key = textOf src defs key := by
  unfold comparisonText textOf
  unfold KeyedOnce at h
  congr 1
  rw [← List.head?_filter]
  cases hfilter : defs.filter fun d => d.key = key with
  | nil => rfl
  | cons d rest =>
      rw [hfilter] at h
      obtain rfl : rest = [] := by simpa using h
      rfl

/-- A support has the key of every definition, no other one sharing it, whose comparison text
    was added, removed or changed, and of no such definition else; so two edits of one base
    whose supports are disjoint do not both touch the comparison text of one. -/
theorem support_comparison_texts {G : Grammar} {base new new' : Str} {support support' : BTreeSet Str}
    (h : rustSupport G base new = some support) (h' : rustSupport G base new' = some support') :
    ∃ defs ndefs ndefs', G.extractDefinitions base = .ok defs ∧ G.extractDefinitions new = .ok ndefs ∧
      G.extractDefinitions new' = .ok ndefs' ∧
      (∀ key, KeyedOnce defs key → KeyedOnce ndefs key →
        (key ∈ support ↔ textOf base defs key ≠ textOf new ndefs key)) ∧
      ((∀ key ∈ support, key ∉ support') →
        ∀ key, KeyedOnce defs key → KeyedOnce ndefs key → KeyedOnce ndefs' key →
          textOf new ndefs key = textOf base defs key ∨ textOf new' ndefs' key = textOf base defs key) := by
  obtain ⟨defs, ndefs, hbase, hnew, hmem⟩ := mem_rustSupport_iff h
  obtain ⟨defs₂, ndefs', hbase', hnew', hmem'⟩ := mem_rustSupport_iff h'
  obtain rfl : defs = defs₂ := Except.ok.inj (hbase.symm.trans hbase')
  refine ⟨defs, ndefs, ndefs', hbase, hnew, hnew', fun key hkey hkey' => ?_, ?_⟩
  · rw [hmem, comparisonText_of_once hkey, comparisonText_of_once hkey']
  · intro hdisjoint key hkey hnkey hnkey'
    by_cases hin : key ∈ support
    · have hout := hdisjoint key hin
      rw [hmem', comparisonText_of_once hkey, comparisonText_of_once hnkey', not_not] at hout
      exact .inr hout.symm
    · rw [hmem, comparisonText_of_once hkey, comparisonText_of_once hnkey, not_not] at hin
      exact .inl hin.symm

/-! ## Examples -/

/-- An implementation on a span. -/
def implDefinition (type : Str) (range : Range) : Definition := ⟨.impl, type, type, range, []⟩

/-- A module on a span. -/
def modDefinition (name : Str) (range : Range) : Definition := ⟨.module, name, name, range, []⟩

/-- Two implementations for one type of which the first changes its trait, and a module that
    changes an import; and an implementation that gains a method. -/
def supportGrammar : Grammar :=
  tableGrammar
    [("impl A for Q {}impl B for Q {}".toList, [implDefinition "Q".toList ⟨0, 15⟩, implDefinition "Q".toList ⟨15, 30⟩]),
      ("impl C for Q {}impl B for Q {}".toList, [implDefinition "Q".toList ⟨0, 15⟩, implDefinition "Q".toList ⟨15, 30⟩]),
      ("mod m { use a; }".toList, [modDefinition "m".toList ⟨0, 16⟩]),
      ("mod m { use b; }".toList, [modDefinition "m".toList ⟨0, 16⟩]),
      ("impl Q {}".toList, [implDefinition "Q".toList ⟨0, 9⟩]),
      ("impl Q { fn f() {} }".toList,
        [implDefinition "Q".toList ⟨0, 20⟩, fnDefinition "Q::f".toList ⟨9, 18⟩ []])]
    (by decide +kernel)

theorem support_comparison_texts_method :
    ∃ support, rustSupport supportGrammar "impl Q {}".toList "impl Q { fn f() {} }".toList = some support ∧
      support.toList = ["fn Q::f".toList] ∧
      ∃ defs ndefs, ∀ key, KeyedOnce defs key → KeyedOnce ndefs key →
        (key ∈ support ↔ textOf "impl Q {}".toList defs key ≠ textOf "impl Q { fn f() {} }".toList ndefs key) := by
  have hkeys : (rustSupport supportGrammar "impl Q {}".toList "impl Q { fn f() {} }".toList).map
      Std.ExtTreeSet.toList = some ["fn Q::f".toList] := by
    decide +kernel
  obtain ⟨support, hsupport, hlist⟩ := Option.map_eq_some_iff.mp hkeys
  obtain ⟨defs, ndefs, -, -, -, -, hiff, -⟩ := support_comparison_texts hsupport hsupport
  exact ⟨support, hsupport, hlist, defs, ndefs, hiff⟩

/-- A support misses the text between the members of a container, and all but the last of the
    definitions that share a key. -/
theorem support_misses :
    ¬ SupportsOwnTexts supportGrammar "mod m { use a; }".toList "mod m { use b; }".toList ∧
      ¬ SupportsOwnTexts supportGrammar "impl A for Q {}impl B for Q {}".toList
        "impl C for Q {}impl B for Q {}".toList := by
  have hmissed : ∀ (base new key : Str) (defs defs' : List Definition),
      (rustSupport supportGrammar base new).map Std.ExtTreeSet.toList = some [] →
      supportGrammar.extractDefinitions base = .ok defs → supportGrammar.extractDefinitions new = .ok defs' →
      ownTexts base key defs ≠ ownTexts new key defs' → ¬ SupportsOwnTexts supportGrammar base new := by
    intro base new key defs defs' hnone hbase hnew hdiffer hclaim
    obtain ⟨support, hsupport, hlist⟩ := Option.map_eq_some_iff.mp hnone
    have hmem := hclaim support defs defs' hsupport hbase hnew key hdiffer
    rw [← Std.ExtTreeSet.mem_toList, hlist] at hmem
    simp at hmem
  refine ⟨hmissed _ _ "mod m".toList [modDefinition "m".toList ⟨0, 16⟩] [modDefinition "m".toList ⟨0, 16⟩] ?_ ?_ ?_ ?_,
    hmissed _ _ "impl Q".toList [implDefinition "Q".toList ⟨0, 15⟩, implDefinition "Q".toList ⟨15, 30⟩]
      [implDefinition "Q".toList ⟨0, 15⟩, implDefinition "Q".toList ⟨15, 30⟩] ?_ ?_ ?_ ?_⟩
  · decide +kernel
  · rfl
  · rfl
  · decide +kernel
  · decide +kernel
  · rfl
  · rfl
  · decide +kernel

end Omoplata
