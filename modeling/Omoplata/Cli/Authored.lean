-- SUMMARY: What a carried approval keeps of the definitions a change was reviewed for.
import Omoplata.Cli.Author
import Omoplata.Cli.Backport

/-!
# Authored definitions

What a change was reviewed for are the definitions that its reviewed texts have of their
own: where they differ from what its queue has landed without it. The witness looks for
definitions that differ from both the reviewed and the landed text. So it does not see
one that is back at its landed text, and it compares nothing where one side of a file is
read by definitions and another as a whole.
-/

namespace Omoplata

/-- The text a file has under a key of a support: its definition's, or all of it under the
    key of the whole file. -/
def Grammar.textUnder (G : Grammar) (text key : Str) : Option Str :=
  if key = wholeFileToken then some text else (effectiveTexts text (G.definitions text))[key]?

namespace BackportTexts

variable (host : Host) (texts : BackportTexts)

/-- What the change was reviewed for in a file. -/
def authored (file : Str) : BTreeSet Str :=
  supportOf host (texts.landed.textAt file) (texts.reviewed.textAt file) (isRustPath file)

/-- What the change was reviewed for in a file has its reviewed text. -/
def Kept (file : Str) : Prop :=
  ∀ key ∈ texts.authored host file, host.tools.grammar.textUnder (texts.current.textAt file) key =
    host.tools.grammar.textUnder (texts.reviewed.textAt file) key

/-- Nothing that the change was reviewed for in a file is back at its landed text, and a file
    that is read by definitions now, and was not in its reviewed or in its landed text, has
    not moved. -/
structure Held (file : Str) : Prop where
  own : ∀ key ∈ texts.authored host file, host.tools.grammar.textUnder (texts.current.textAt file) key ≠
    host.tools.grammar.textUnder (texts.landed.textAt file) key
  compared : isRustPath file = true → host.tools.grammar.readable (texts.current.textAt file) = true →
    (host.tools.grammar.readable (texts.reviewed.textAt file) &&
      host.tools.grammar.readable (texts.landed.textAt file)) = false →
    texts.landed.textAt file ≠ texts.reviewed.textAt file →
    texts.current.textAt file = texts.reviewed.textAt file

end BackportTexts

/-! ## Keys of a support -/

variable {host : Host}

theorem key_ne_wholeFileToken (d : Definition) : d.key ≠ wholeFileToken := by
  have hlabel : ∀ kind : DefinitionKind, ∃ c rest, kind.label = c :: rest ∧ c ≠ Char.ofNat 0 := by
    intro kind
    cases kind <;> exact ⟨_, _, rfl, by decide⟩
  intro h
  obtain ⟨c, rest, hkind, hc⟩ := hlabel d.kind
  unfold Definition.key wholeFileToken at h
  rw [hkind] at h
  exact hc (List.cons.inj h).1

theorem textUnder_wholeFileToken (G : Grammar) (text : Str) : G.textUnder text wholeFileToken = some text := by
  unfold Grammar.textUnder
  rw [if_pos rfl]

theorem textUnder_key {G : Grammar} {text key : Str} (h : key ≠ wholeFileToken) :
    G.textUnder text key = (effectiveTexts text (G.definitions text))[key]? := by
  unfold Grammar.textUnder
  rw [if_neg h]

theorem effectiveTexts_wholeFileToken (text : Str) (defs : List Definition) :
    (effectiveTexts text defs)[wholeFileToken]? = none := by
  by_contra hsome
  obtain ⟨found, hfound⟩ := Option.ne_none_iff_exists'.mp hsome
  obtain ⟨d, -, hkey, -⟩ := exists_of_effectiveTexts hfound
  exact key_ne_wholeFileToken d hkey

/-- An edit read by definitions: the keys under which the texts differ. -/
theorem mem_supportOf_readable {base new : Str} (hne : base ≠ new)
    (hbase : host.tools.grammar.readable base = true) (hnew : host.tools.grammar.readable new = true) {key : Str} :
    key ∈ supportOf host base new true ↔ key ≠ wholeFileToken ∧
      host.tools.grammar.textUnder base key ≠ host.tools.grammar.textUnder new key := by
  rw [supportOf_readable hne hbase hnew]
  by_cases hkey : key = wholeFileToken
  · rw [hkey, effectiveTexts_wholeFileToken, effectiveTexts_wholeFileToken]
    simp
  · rw [textUnder_key hkey, textUnder_key hkey]
    simp [hkey]

/-- An edit to a file of which a side is not read by definitions is one of the whole file. -/
theorem mem_supportOf_whole {base new : Str} (hne : base ≠ new) {isRs : Bool}
    (h : isRs = true → (host.tools.grammar.readable base && host.tools.grammar.readable new) = false) {key : Str} :
    key ∈ supportOf host base new isRs ↔ key = wholeFileToken := by
  have hwhole : key ∈ wholeFileSupport ↔ key = wholeFileToken := by
    rw [wholeFileSupport, Std.ExtTreeSet.mem_ofList, List.contains_iff_mem, List.mem_singleton]
  unfold supportOf fileSupport
  rw [if_neg hne, ← hwhole]
  cases isRs with
  | false => rfl
  | true => rw [if_pos rfl, rustSupport_unreadable (h rfl), Option.getD_none]

/-- Under a key of an edit's support its two texts differ. -/
theorem textUnder_ne {base new : Str} {isRs : Bool} {key : Str} (h : key ∈ supportOf host base new isRs) :
    host.tools.grammar.textUnder base key ≠ host.tools.grammar.textUnder new key := by
  by_cases hne : base = new
  · simp [supportOf, hne] at h
  · by_cases hread : isRs = true ∧ (host.tools.grammar.readable base && host.tools.grammar.readable new) = true
    · obtain ⟨rfl, hread⟩ := hread
      obtain ⟨hbase, hnew⟩ := Bool.and_eq_true_iff.mp hread
      exact ((mem_supportOf_readable hne hbase hnew).mp h).2
    · simp only [not_and, Bool.not_eq_true] at hread
      obtain rfl := (mem_supportOf_whole hne hread).mp h
      simpa only [textUnder_wholeFileToken, ne_eq, Option.some.injEq] using hne

/-! ## What a verdict keeps -/

/-- Where no definition of a file is both moved and novel, what the change was reviewed for in
    it is kept exactly where the file is held. -/
theorem kept_iff_held {texts : BackportTexts} {file : Str}
    (h : ∀ key ∈ texts.moved host file, key ∉ texts.novel host file) :
    texts.Kept host file ↔ texts.Held host file := by
  unfold BackportTexts.moved BackportTexts.novel at h
  -- a file that has not moved since the review is as reviewed, under every key
  by_cases hmoved : texts.reviewed.textAt file = texts.current.textAt file
  · refine ⟨fun _ => ⟨fun key hkey => ?_, fun _ _ _ _ => hmoved.symm⟩, fun _ key _ => by rw [hmoved]⟩
    rw [← hmoved]
    exact (textUnder_ne hkey).symm
  -- a file that the review left alone has no authored key
  by_cases hauthored : texts.landed.textAt file = texts.reviewed.textAt file
  · have hnone : ∀ key, key ∉ texts.authored host file := by
      intro key hkey
      exact textUnder_ne hkey (congrArg (host.tools.grammar.textUnder · key) hauthored)
    exact ⟨fun _ => ⟨fun key hkey => absurd hkey (hnone key), fun _ _ _ hne => absurd hauthored hne⟩,
      fun _ key hkey => absurd hkey (hnone key)⟩
  by_cases hread : isRustPath file = true ∧ (host.tools.grammar.readable (texts.reviewed.textAt file) &&
      host.tools.grammar.readable (texts.landed.textAt file)) = true
  · obtain ⟨hrust, hread⟩ := hread
    obtain ⟨hreviewed, hlanded⟩ := Bool.and_eq_true_iff.mp hread
    rw [hrust] at h
    -- the current text is readable: else both supports have the token of the whole file
    have hcurrent : host.tools.grammar.readable (texts.current.textAt file) = true := by
      by_contra hunread
      rw [Bool.not_eq_true] at hunread
      have hback : texts.landed.textAt file ≠ texts.current.textAt file := by
        intro heq
        rw [heq, hunread] at hlanded
        cases hlanded
      exact h _ (wholeFileToken_mem_supportOf hmoved hunread) (wholeFileToken_mem_supportOf hback hunread)
    -- no key is both moved and novel, so a text that differs from one side is that of the other
    have hkey : ∀ key ∈ texts.authored host file,
        (host.tools.grammar.textUnder (texts.current.textAt file) key =
            host.tools.grammar.textUnder (texts.reviewed.textAt file) key ↔
          host.tools.grammar.textUnder (texts.current.textAt file) key ≠
            host.tools.grammar.textUnder (texts.landed.textAt file) key) := by
      intro key hkey
      have hdiffer := textUnder_ne hkey
      constructor
      · intro hsame
        rw [hsame]
        exact hdiffer.symm
      · intro hown
        by_contra hother
        have hback : texts.landed.textAt file ≠ texts.current.textAt file := by
          intro heq
          exact hown (congrArg (host.tools.grammar.textUnder · key) heq.symm)
        unfold BackportTexts.authored at hkey
        rw [hrust] at hkey
        have htoken := ((mem_supportOf_readable hauthored hlanded hreviewed).mp hkey).1
        exact h key ((mem_supportOf_readable hmoved hreviewed hcurrent).mpr ⟨htoken, Ne.symm hother⟩)
          ((mem_supportOf_readable hback hlanded hcurrent).mpr ⟨htoken, Ne.symm hown⟩)
    constructor
    · refine fun hkept => ⟨fun key hmem => (hkey key hmem).mp (hkept key hmem), fun _ _ hunread => ?_⟩
      rw [hread] at hunread
      cases hunread
    · exact fun hheld key hmem => (hkey key hmem).mpr (hheld.own key hmem)
  · -- The file was reviewed as a whole, and it has moved.
    simp only [not_and, Bool.not_eq_true] at hread
    have hwhole : wholeFileToken ∈ texts.authored host file := by
      refine (mem_supportOf_whole hauthored fun hrust => ?_).mpr rfl
      rw [Bool.and_comm]
      exact hread hrust
    constructor
    · intro hkept
      have hsame := hkept _ hwhole
      rw [textUnder_wholeFileToken, textUnder_wholeFileToken, Option.some.injEq] at hsame
      exact absurd hsame.symm hmoved
    · intro hheld
      by_cases hcurrent : (isRustPath file && host.tools.grammar.readable (texts.current.textAt file)) = true
      · obtain ⟨hrust, hcurrent⟩ := Bool.and_eq_true_iff.mp hcurrent
        exact absurd (hheld.compared hrust hcurrent (hread hrust) hauthored).symm hmoved
      · rw [Bool.not_eq_true] at hcurrent
        have hback : texts.landed.textAt file ≠ texts.current.textAt file := by
          intro heq
          exact hheld.own _ hwhole (congrArg (host.tools.grammar.textUnder · wholeFileToken) heq.symm)
        exact absurd (wholeFileToken_mem_supportOf hback hcurrent) (h _ (wholeFileToken_mem_supportOf hmoved hcurrent))

/-- A host whose grammar knows one function `a` with one of two bodies. -/
def bodyHost : Host :=
  { textHost with
    tools := ⟨tableGrammar
      [("fn a() {1}".toList, [fnDefinition "a".toList ⟨0, 10⟩ "1".toList]),
        ("fn a() {2}".toList, [fnDefinition "a".toList ⟨0, 10⟩ "2".toList])] (by decide), none⟩ }

/-- A Rust file with this text. -/
def rustFile (text : String) : Files := (∅ : Files).insert "m.rs".toList (.text text.toList)

def bodyStore : Store :=
  [rustFile "fn a() {1}", rustFile "fn a() {2}", (rustFile "fn a() {2}").insert "n".toList (.text [])].foldl
    (fun store files => (store.write bodyHost.treeId files).2) ⟨∅⟩

/-- The change `d` has landed the function with one body, and `c` with the other. -/
def bodyRefs : Refs :=
  ((∅ : Refs).insert "public/c".toList (bodyHost.treeId (rustFile "fn a() {2}")).toText).insert "public/d".toList
    (bodyHost.treeId (rustFile "fn a() {1}")).toText

end Omoplata
