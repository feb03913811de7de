-- SUMMARY: The byte forms an object is read from, and which of them pass the check against its id.
import Omoplata.Store.IdText
import Omoplata.Store.Repository

/-!
# Spellings

An object is written in one way, and read from many: the length may have a sign or zeros in
front, the ids signs and capitals, the entries any order with one in the place of another, and
the last line may lack its end. The check of what is read goes over the bytes that would be
written, so every spelling of an object passes it.
-/

namespace Omoplata

/-! ## Spellings of an object -/

/-- A text that is parsed as an id. -/
def IdSpelling (id : ObjectId) (s : Str) : Prop := ∃ hex, s = scheme ++ hex ∧ RadixPairs hex ∧ id.digest = spell hex

/-- A line that is parsed as an entry. -/
def EntrySpelling (e : TreeEntry) (line : Str) : Prop :=
  ValidName e.name ∧ ∃ idStr, line = e.kind.asStr ++ ' ' :: (idStr ++ ' ' :: e.name) ∧ IdSpelling e.id idStr

/-- A line whose id breaks the parser. -/
def CutsEntry (line : Str) : Prop :=
  ∃ (kind : EntryKind) (idStr name : Str),
    line = kind.asStr ++ ' ' :: (idStr ++ ' ' :: name) ∧ ' ' ∉ idStr ∧ CutsCharacter idStr

/-- Lines of entries, where a later entry takes the place of an earlier one with its name. -/
def TreeSpelling (t : Tree) (payload : List UInt8) : Prop :=
  ∃ text entries, payload = utf8 text ∧ List.Forall₂ EntrySpelling entries (splitTerminator '\n' text) ∧
    t = Tree.build entries

/-- Bytes that are parsed as an object. -/
def Spelling (o : Object) (bytes : List UInt8) : Prop :=
  ∃ num payload, bytes = utf8 (o.kind.asStr ++ ' ' :: num) ++ 0 :: payload ∧ DecimalText payload.length num ∧
    match o with
    | .blob content => payload = content
    | .tree t => TreeSpelling t payload

/-- Bytes that break the parser: lines of entries, up to one whose id does. -/
def Breaks (bytes : List UInt8) : Prop :=
  ∃ num text front line rest,
    bytes = utf8 (ObjectKind.tree.asStr ++ ' ' :: num) ++ 0 :: utf8 text ∧ DecimalText (utf8 text).length num ∧
      splitTerminator '\n' text = front ++ line :: rest ∧ (∀ l ∈ front, ∃ e, EntrySpelling e l) ∧ CutsEntry line

theorem IdSpelling.length {id : ObjectId} {hex : Str} (hpairs : RadixPairs hex) (h : id.digest = spell hex) :
    hex.length = 64 := by
  have hlength := (length_spell hpairs).1
  rw [← h, id.length_digest] at hlength
  exact hlength

theorem idSpelling_iff {id : ObjectId} {s : Str} : ObjectId.parse s = .ok (.ok id) ↔ IdSpelling id s := by
  constructor
  · intro h
    obtain ⟨hex, rfl⟩ := exists_scheme_of_parse h
    obtain ⟨-, hpairs, hdigest⟩ := parse_eq_ok_iff.mp h
    exact ⟨hex, rfl, hpairs, hdigest⟩
  · rintro ⟨hex, rfl, hpairs, hdigest⟩
    exact parse_eq_ok_iff.mpr ⟨IdSpelling.length hpairs hdigest, hpairs, hdigest⟩

theorem IdSpelling.noSpace {id : ObjectId} {s : Str} (h : IdSpelling id s) : ' ' ∉ s := by
  obtain ⟨hex, rfl, hpairs, -⟩ := h
  intro hmem
  cases List.mem_append.mp hmem with
  | inl hmem => exact absurd hmem (by decide)
  | inr hmem => exact (radixPairs_char hpairs ' ' hmem).elim (fun hdigit => absurd hdigit (by decide)) (by decide)

theorem parseIdPanic_iff {s : Str} {p : Panic} : ObjectId.parse s = .error p ↔ CutsCharacter s := by
  constructor
  · intro h
    by_contra hnot
    obtain ⟨r, hr⟩ := parse_total hnot
    rw [hr] at h
    cases h
  · rintro ⟨hex, rfl, heven, hcuts⟩
    cases p
    exact parse_of_cutsInside heven hcuts

theorem EntryKind.parse_eq_some_iff {s : Str} {kind : EntryKind} : EntryKind.parse s = some kind ↔ s = kind.asStr := by
  constructor
  · intro h
    unfold EntryKind.parse at h
    split at h
    · rename_i hs
      cases h
      exact hs
    · split at h
      · rename_i hs
        cases h
        exact hs
      · cases h
  · rintro rfl
    exact EntryKind.parse_asStr kind

theorem ObjectKind.parse_eq_some_iff {s : Str} {kind : ObjectKind} : ObjectKind.parse s = some kind ↔ s = kind.asStr := by
  constructor
  · intro h
    unfold ObjectKind.parse at h
    split at h
    · rename_i hs
      cases h
      exact hs
    · split at h
      · rename_i hs
        cases h
        exact hs
      · cases h
  · rintro rfl
    exact ObjectKind.parse_asStr kind

namespace Tree

theorem insert_of_valid (t : Tree) {e : TreeEntry} (h : ValidName e.name) :
    ∃ t', t.insert e.name e.kind e.id = .ok t' ∧ (t.insert e.name e.kind e.id).toOption.getD t = t' := by
  unfold insert
  rw [dif_pos h]
  exact ⟨_, rfl, rfl⟩

end Tree

namespace Object

section

variable (t : Tree) (kind : EntryKind) {idStr : Str} (name : Str)

theorem parseEntry_id {id : ObjectId} (h : ' ' ∉ idStr) (hid : ObjectId.parse idStr = .ok (.ok id)) :
    parseEntry t (kind.asStr ++ ' ' :: (idStr ++ ' ' :: name)) =
      .ok ((t.insert name kind id).mapError fun _ => .corrupt "tree entry: bad name".toList) := by
  unfold parseEntry
  simp only [splitOnce_append (fun hmem => (EntryKind.asStr_char hmem).1 rfl), splitOnce_append h, EntryKind.parse_asStr,
    hid]
  rfl

theorem parseEntry_panic {p : Panic} (h : ' ' ∉ idStr) (hid : ObjectId.parse idStr = .error p) :
    parseEntry t (kind.asStr ++ ' ' :: (idStr ++ ' ' :: name)) = .error p := by
  unfold parseEntry
  simp only [splitOnce_append (fun hmem => (EntryKind.asStr_char hmem).1 rfl), splitOnce_append h, EntryKind.parse_asStr,
    hid]
  rfl

end

theorem parseEntry_of_spelling (t : Tree) {e : TreeEntry} {line : Str} (h : EntrySpelling e line) :
    parseEntry t line = .ok (.ok ((t.insert e.name e.kind e.id).toOption.getD t)) := by
  obtain ⟨hvalid, idStr, rfl, hid⟩ := h
  obtain ⟨t', hinsert, hget⟩ := t.insert_of_valid hvalid
  rw [parseEntry_id t e.kind e.name hid.noSpace (idSpelling_iff.mpr hid), hget, hinsert]
  rfl

/-- A line breaks the parser, is the spelling of an entry, or is refused. -/
theorem parseEntry_cases (t : Tree) (line : Str) :
    CutsEntry line ∨ (∃ e, EntrySpelling e line) ∨ ∃ err, parseEntry t line = .ok (.error err) := by
  -- The parts are checked from left to right, and the first one that is wrong gives the error.
  cases hkind : splitOnce ' ' line with
  | none =>
      refine .inr (.inr ⟨.corrupt "tree entry: no id".toList, ?_⟩)
      unfold parseEntry
      rw [hkind]
  | some parts =>
      obtain ⟨kindStr, rest⟩ := parts
      obtain ⟨rfl, -⟩ := splitOnce_eq_some hkind
      cases hid : splitOnce ' ' rest with
      | none =>
          refine .inr (.inr ⟨.corrupt "tree entry: no name".toList, ?_⟩)
          unfold parseEntry
          simp only [hkind, hid]
      | some parts =>
          obtain ⟨idStr, name⟩ := parts
          obtain ⟨rfl, hspace⟩ := splitOnce_eq_some hid
          cases hparse : EntryKind.parse kindStr with
          | none =>
              refine .inr (.inr ⟨.corrupt "tree entry: bad kind".toList, ?_⟩)
              unfold parseEntry
              simp only [hkind, hid, hparse]
          | some kind =>
              obtain rfl := EntryKind.parse_eq_some_iff.mp hparse
              cases hobject : ObjectId.parse idStr with
              | error p =>
                  exact .inl ⟨kind, idStr, name, rfl, hspace, parseIdPanic_iff.mp hobject⟩
              | ok r =>
                  cases r with
                  | error err =>
                      refine .inr (.inr ⟨.corrupt "tree entry: bad id".toList, ?_⟩)
                      unfold parseEntry
                      simp only [hkind, hid, hparse, hobject]
                      rfl
                  | ok id =>
                      by_cases hvalid : ValidName name
                      · exact .inr (.inl ⟨⟨name, kind, id⟩, hvalid, idStr, rfl, idSpelling_iff.mp hobject⟩)
                      · refine .inr (.inr ⟨.corrupt "tree entry: bad name".toList, ?_⟩)
                        rw [parseEntry_id t kind name hspace hobject, Tree.insert, dif_neg hvalid]
                        rfl

/-- The tree of lines read behind another. -/
theorem parseEntries_of_spelling {entries : List TreeEntry} {lines : List Str}
    (h : List.Forall₂ EntrySpelling entries lines) (t : Tree) :
    parseEntries t lines =
      .ok (.ok (entries.foldl (fun t e => (t.insert e.name e.kind e.id).toOption.getD t) t)) := by
  induction h generalizing t with
  | nil => rfl
  | cons he _ ih =>
      rw [parseEntries, parseEntry_of_spelling t he]
      exact ih _

theorem parseEntries_of_cuts {front : List Str} {line : Str} (rest : List Str)
    (hfront : ∀ l ∈ front, ∃ e, EntrySpelling e l) (hline : CutsEntry line) (t : Tree) :
    ∃ p, parseEntries t (front ++ line :: rest) = .error p := by
  induction front generalizing t with
  | nil =>
      obtain ⟨kind, idStr, name, rfl, hspace, hcuts⟩ := hline
      refine ⟨.charBoundary, ?_⟩
      rw [List.nil_append, parseEntries, parseEntry_panic t kind name hspace (parseIdPanic_iff.mpr hcuts)]
      rfl
  | cons l front ih =>
      obtain ⟨⟨e, he⟩, hfront⟩ := List.forall_mem_cons.mp hfront
      obtain ⟨p, hp⟩ := ih hfront ((t.insert e.name e.kind e.id).toOption.getD t)
      refine ⟨p, ?_⟩
      rw [List.cons_append, parseEntries, parseEntry_of_spelling t he]
      exact hp

/-- Lines break the parser, are the spellings of entries, or are refused. -/
theorem parseEntries_cases (t : Tree) (lines : List Str) :
    (∃ front line rest, lines = front ++ line :: rest ∧ (∀ l ∈ front, ∃ e, EntrySpelling e l) ∧ CutsEntry line) ∨
      (∃ entries, List.Forall₂ EntrySpelling entries lines) ∨ ∃ err, parseEntries t lines = .ok (.error err) := by
  induction lines generalizing t with
  | nil => exact .inr (.inl ⟨[], .nil⟩)
  | cons line lines ih =>
      rcases parseEntry_cases t line with hcuts | ⟨e, he⟩ | ⟨err, herr⟩
      · exact .inl ⟨[], line, lines, rfl, List.forall_mem_nil _, hcuts⟩
      · rcases ih ((t.insert e.name e.kind e.id).toOption.getD t) with
          ⟨front, l, rest, rfl, hfront, hcuts⟩ | ⟨entries, hentries⟩ | ⟨err, herr⟩
        · exact .inl ⟨line :: front, l, rest, rfl, List.forall_mem_cons.mpr ⟨⟨e, he⟩, hfront⟩, hcuts⟩
        · exact .inr (.inl ⟨e :: entries, .cons he hentries⟩)
        · refine .inr (.inr ⟨err, ?_⟩)
          rw [parseEntries, parseEntry_of_spelling t he]
          exact herr
      · refine .inr (.inr ⟨err, ?_⟩)
        rw [parseEntries, herr]
        rfl

/-- The lines of a payload, read as a tree. -/
theorem parseTree_utf8 (text : Str) : parseTree (utf8 text) = parseEntries .new (splitTerminator '\n' text) := by
  unfold parseTree
  split
  · rename_i hnil
    cases text with
    | nil => rfl
    | cons c text =>
        rw [utf8, List.flatMap_cons, List.append_eq_nil_iff] at hnil
        exact absurd hnil.1 String.utf8EncodeChar_ne_nil
  · rw [fromUtf8_utf8]

theorem deserialize_of_spelling {o : Object} {bytes : List UInt8} (h : Spelling o bytes) :
    deserialize bytes = .ok (.ok o) := by
  obtain ⟨num, payload, rfl, hnum, hbody⟩ := h
  cases o with
  | blob content =>
      cases hbody
      exact deserialize_blob hnum
  | tree t =>
      obtain ⟨text, entries, rfl, hlines, rfl⟩ := hbody
      refine (deserialize_tree hnum).trans ?_
      rw [parseTree_utf8, parseEntries_of_spelling hlines]
      rfl

theorem deserialize_of_breaks {bytes : List UInt8} (h : Breaks bytes) : ∃ p, deserialize bytes = .error p := by
  obtain ⟨num, text, front, line, rest, rfl, hnum, hlines, hfront, hcuts⟩ := h
  obtain ⟨p, hp⟩ := parseEntries_of_cuts rest hfront hcuts .new
  refine ⟨p, ?_⟩
  rw [deserialize_tree hnum, parseTree_utf8, hlines, hp]
  rfl

/-- What the payload behind a header comes to. -/
theorem payload_cases (kind : ObjectKind) {num : Str} {payload : List UInt8} (h : DecimalText payload.length num) :
    let bytes := utf8 (kind.asStr ++ ' ' :: num) ++ 0 :: payload
    Breaks bytes ∨ (∃ o, Spelling o bytes) ∨ ∃ err, deserialize bytes = .ok (.error err) := by
  intro bytes
  cases kind with
  | blob => exact .inr (.inl ⟨.blob payload, num, payload, rfl, h, rfl⟩)
  | tree =>
      have hrun : deserialize bytes = parseTree payload >>= fun t => pure (t.map .tree) := deserialize_tree h
      cases htext : fromUtf8 payload with
      | none =>
          refine .inr (.inr ⟨.corrupt "non-utf8 tree payload".toList, ?_⟩)
          have hne : payload ≠ [] := by
            rintro rfl
            exact absurd (htext.symm.trans (fromUtf8_utf8 [])) (by simp)
          rw [hrun, parseTree, if_neg hne, htext]
          rfl
      | some text =>
          obtain rfl := utf8_of_fromUtf8 htext
          rcases parseEntries_cases .new (splitTerminator '\n' text) with
            ⟨front, line, rest, hlines, hfront, hcuts⟩ | ⟨entries, hentries⟩ | ⟨err, herr⟩
          · exact .inl ⟨num, text, front, line, rest, rfl, h, hlines, hfront, hcuts⟩
          · exact .inr (.inl ⟨.tree (.build entries), num, utf8 text, rfl, h, text, entries, rfl, hentries, rfl⟩)
          · refine .inr (.inr ⟨err, ?_⟩)
            rw [hrun, parseTree_utf8, herr]
            rfl

/-- Bytes break the parser, are a spelling of an object, or are refused. -/
theorem deserialize_cases (bytes : List UInt8) :
    Breaks bytes ∨ (∃ o, Spelling o bytes) ∨ ∃ err, deserialize bytes = .ok (.error err) := by
  -- Whatever is wrong with the header is an error; only a whole one leaves the payload to decide.
  cases hnul : bytes.findIdx? (· == 0) with
  | none =>
      refine .inr (.inr ⟨.corrupt "missing header terminator".toList, ?_⟩)
      unfold deserialize
      rw [hnul]
  | some nul =>
      obtain ⟨hlt, hzero, -⟩ := List.findIdx?_eq_some_iff_getElem.mp hnul
      have hbytes : bytes = bytes.take nul ++ 0 :: bytes.drop (nul + 1) := by
        rw [← beq_iff_eq.mp hzero, List.getElem_cons_drop hlt, List.take_append_drop]
      cases hheader : fromUtf8 (bytes.take nul) with
      | none =>
          refine .inr (.inr ⟨.corrupt "non-utf8 header".toList, ?_⟩)
          unfold deserialize
          simp only [hnul, hheader]
      | some header =>
          cases hsplit : splitOnce ' ' header with
          | none =>
              refine .inr (.inr ⟨.corrupt "malformed header".toList, ?_⟩)
              unfold deserialize
              simp only [hnul, hheader, hsplit]
          | some parts =>
              obtain ⟨kindStr, lenStr⟩ := parts
              cases hkind : ObjectKind.parse kindStr with
              | none =>
                  refine .inr (.inr ⟨.corrupt "unknown kind".toList, ?_⟩)
                  unfold deserialize
                  simp only [hnul, hheader, hsplit, hkind]
              | some kind =>
                  cases hlen : parseUsize lenStr with
                  | none =>
                      refine .inr (.inr ⟨.corrupt "bad length".toList, ?_⟩)
                      unfold deserialize
                      simp only [hnul, hheader, hsplit, hkind, hlen]
                  | some len =>
                      by_cases hlength : (bytes.drop (nul + 1)).length = len
                      · obtain rfl := ObjectKind.parse_eq_some_iff.mp hkind
                        obtain ⟨hparts, -⟩ := splitOnce_eq_some hsplit
                        rw [← utf8_of_fromUtf8 hheader, hparts] at hbytes
                        have hnum : DecimalText (bytes.drop (nul + 1)).length lenStr := by
                          rw [hlength]
                          exact parseUsize_eq_some_iff.mp hlen
                        rw [hbytes]
                        exact payload_cases kind hnum
                      · refine .inr (.inr ⟨.corrupt "length mismatch".toList, ?_⟩)
                        unfold deserialize
                        simp only [hnul, hheader, hsplit, hkind, hlen, ne_eq, hlength, not_false_eq_true, if_true]

end Object

/-! ## The spelling that is written -/

/-- A line whose id has neither signs nor capitals. -/
def PlainEntry (e : TreeEntry) (line : Str) : Prop :=
  ValidName e.name ∧ ∃ idStr, line = e.kind.asStr ++ ' ' :: (idStr ++ ' ' :: e.name) ∧ IdSpelling e.id idStr ∧
    ∀ c ∈ idStr, c ≠ '+' ∧ c.toLower = c

/-- Such lines, each with its end, and each name behind the one before. -/
def PlainLines (payload : List UInt8) : Prop :=
  ∃ text entries, payload = utf8 text ∧ (text = [] ∨ text.getLast? = some '\n') ∧
    List.Forall₂ PlainEntry entries (splitTerminator '\n' text) ∧ Sorted entries

/-- A length without a sign and without zeros in front, and plain lines in a tree. -/
def CanonicalBytes (bytes : List UInt8) : Prop :=
  ∃ (kind : ObjectKind) (num : Str) (payload : List UInt8),
    bytes = utf8 (kind.asStr ++ ' ' :: num) ++ 0 :: payload ∧ DecimalText payload.length num ∧
      num.head? ≠ some '+' ∧ (num.head? = some '0' → num = ['0']) ∧ (kind = .tree → PlainLines payload)

theorem digitChar_of_isDigit {d : Char} (h : d.isDigit) :
    d.toNat - '0'.toNat < 10 ∧ Nat.digitChar (d.toNat - '0'.toNat) = d := by
  simp only [Char.isDigit, Bool.and_eq_true, decide_eq_true_eq, UInt32.le_iff_toNat_le] at h
  have hlow : 48 ≤ d.toNat := h.1
  have hhigh : d.toNat ≤ 57 := h.2
  have hall : ∀ v < 10, Nat.digitChar v = Char.ofNat (48 + v) := by decide
  have hzero : '0'.toNat = 48 := rfl
  refine ⟨by omega, ?_⟩
  rw [hall _ (by omega), show 48 + (d.toNat - '0'.toNat) = d.toNat by omega, Char.ofNat_toNat]

/-- Digits without zeros in front are the ones that their number is written with. -/
theorem toDigits_ofDigitChars {digits : Str} (hne : digits ≠ []) (hdigits : ∀ c ∈ digits, c.isDigit)
    (hzero : digits.head? = some '0' → digits = ['0']) : Nat.toDigits 10 (Nat.ofDigitChars 10 digits 0) = digits := by
  induction digits using List.reverseRecOn with
  | nil => exact absurd rfl hne
  | append_singleton front d ih =>
      obtain ⟨hlt, hchar⟩ := digitChar_of_isDigit (hdigits d (by simp))
      have hlast : Nat.toDigits 10 (d.toNat - '0'.toNat) = [d] := by
        rw [Nat.toDigits_of_lt_base hlt, hchar]
      rw [Nat.ofDigitChars_append, Nat.ofDigitChars_cons, Nat.ofDigitChars_nil]
      by_cases hfront : front = []
      · subst hfront
        rw [Nat.ofDigitChars_nil, Nat.mul_zero, Nat.zero_add]
        exact hlast
      -- The digits in front are those of a number that is not zero.
      · have hnozero : front.head? ≠ some '0' := fun hhead => by
          have hwhole := hzero (by rw [List.head?_append, hhead]; rfl)
          have hlength := congrArg List.length hwhole
          rw [List.length_append] at hlength
          exact hfront (List.length_eq_zero_iff.mp (Nat.succ.inj hlength))
        have hvalue := ih hfront (fun c hc => hdigits c (List.mem_append_left _ hc)) fun hhead => absurd hhead hnozero
        have hpos : 0 < Nat.ofDigitChars 10 front 0 := by
          refine Nat.pos_of_ne_zero fun hnil => hnozero ?_
          rw [hnil, Nat.toDigits_zero] at hvalue
          rw [← hvalue]
          rfl
        rw [← Nat.toDigits_append_toDigits (by decide) hpos hlt, hvalue, hlast]

/-- Only the number zero starts with the digit. -/
theorem toDigits_of_head_zero {n : Nat} (h : (Nat.toDigits 10 n).head? = some '0') : Nat.toDigits 10 n = ['0'] := by
  induction n using Nat.strongRecOn with
  | ind n ih =>
      rw [Nat.toDigits_eq_if (by decide)] at h ⊢
      split at h
      · rename_i hlt
        rw [if_pos hlt, Option.some.inj h]
      · rename_i hge
        rw [List.head?_append_of_ne_nil _ Nat.toDigits_ne_nil] at h
        have hvalue := congrArg (fun digits => Nat.ofDigitChars 10 digits 0) (ih (n / 10) (by omega) h)
        rw [Nat.ofDigitChars_ten_toDigits] at hvalue
        have hvalue : n / 10 = 0 := hvalue
        omega

theorem decimalText_plain {n : Nat} {num : Str} (h : DecimalText n num) (hplus : num.head? ≠ some '+')
    (hzero : num.head? = some '0' → num = ['0']) : num = Nat.toDigits 10 n := by
  obtain ⟨digits, rfl | rfl, hne, hdigits, rfl⟩ := h
  · exact (toDigits_ofDigitChars hne hdigits hzero).symm
  · exact absurd List.head?_cons hplus

theorem toText_lower (id : ObjectId) : ∀ c ∈ id.toText, c ≠ '+' ∧ c.toLower = c := by
  have hdigit : ∀ n < 16, hexDigit n ≠ '+' ∧ (hexDigit n).toLower = hexDigit n := by decide
  have hscheme : (scheme.all fun c => c ≠ '+' ∧ c.toLower = c) = true := by decide
  intro c hc
  rw [toText_eq] at hc
  cases List.mem_append.mp hc with
  | inl hmem => exact of_decide_eq_true (List.all_eq_true.mp hscheme c hmem)
  | inr hmem =>
      obtain ⟨b, -, hb⟩ := List.mem_flatMap.mp hmem
      have hlt : b.toNat < 256 := b.toNat_lt
      simp only [List.mem_cons, List.not_mem_nil, or_false] at hb
      rcases hb with rfl | rfl
      · exact hdigit _ (by omega)
      · exact hdigit _ (by omega)

theorem idSpelling_lower {id : ObjectId} {s : Str} (h : IdSpelling id s) (hlower : ∀ c ∈ s, c ≠ '+' ∧ c.toLower = c) :
    s = id.toText := by
  obtain ⟨hex, rfl, hpairs, hdigest⟩ := h
  have hhex : ∀ c ∈ hex, c ≠ '+' ∧ c.toLower = c := fun c hc => hlower c (List.mem_append_right _ hc)
  have hlength := IdSpelling.length hpairs hdigest
  have hdigits := digits_of_radixPairs hpairs fun hmem => (hhex _ hmem).1 rfl
  rw [toText_eq, hdigest, (radixPairs_of_digits (by omega) hdigits).2, List.map_congr_left fun c hc => (hhex c hc).2,
    List.map_id']

theorem entryLine_eq (e : TreeEntry) :
    Object.entryLine e = e.kind.asStr ++ ' ' :: (e.id.toText ++ ' ' :: e.name) := by
  simp only [Object.entryLine, List.append_assoc, List.cons_append, List.nil_append]

/-- A plain line is the one that is written. -/
theorem plainEntry_iff {e : TreeEntry} {line : Str} :
    PlainEntry e line ↔ ValidName e.name ∧ line = Object.entryLine e := by
  rw [entryLine_eq]
  constructor
  · rintro ⟨hvalid, idStr, rfl, hid, hlower⟩
    rw [idSpelling_lower hid hlower]
    exact ⟨hvalid, rfl⟩
  · rintro ⟨hvalid, rfl⟩
    exact ⟨hvalid, _, rfl, idSpelling_iff.mp (ObjectId.parse_toText e.id), toText_lower e.id⟩

/-- Lines, each with its end. -/
theorem flatMap_terminated {c : Char} {lines : List Str} (h : lines ≠ []) :
    (lines.flatMap fun line => line ++ [c]) = [c].intercalate lines ++ [c] := by
  induction lines with
  | nil => exact absurd rfl h
  | cons line lines ih =>
      rw [List.flatMap_cons]
      by_cases hlines : lines = []
      · subst hlines
        rw [List.flatMap_nil, List.append_nil, List.intercalate_singleton]
      · rw [ih hlines, List.intercalate_cons_of_ne_nil hlines, List.append_assoc, List.append_assoc, List.append_assoc]

theorem lines_of_splitTerminator {c : Char} {text : Str} (h : text = [] ∨ text.getLast? = some c) :
    ((splitTerminator c text).flatMap fun line => line ++ [c]) = text := by
  rcases h with rfl | hlast
  · rfl
  · obtain ⟨front, rfl⟩ := List.getLast?_eq_some_iff.mp hlast
    have hsplit : (front ++ [c]).splitOn c = front.splitOn c ++ [[]] := by
      rw [List.splitOn_append_cons_self, List.splitOn_nil]
    unfold splitTerminator
    simp only [hsplit, List.getLast?_concat, if_true, List.dropLast_concat]
    rw [flatMap_terminated (List.splitOn_ne_nil _ _), List.intercalate_splitOn]

theorem payload_tree (t : Tree) :
    (Object.tree t).payload = utf8 ((t.entries.map Object.entryLine).flatMap fun line => line ++ ['\n']) := by
  simp only [Object.payload, utf8, List.flatMap_map, List.flatMap_assoc]

theorem plainEntries_lines {entries : List TreeEntry} {lines : List Str} (h : List.Forall₂ PlainEntry entries lines) :
    lines = entries.map Object.entryLine ∧ ∀ e ∈ entries, ValidName e.name := by
  induction h with
  | nil => exact ⟨rfl, List.forall_mem_nil _⟩
  | cons he _ ih =>
      obtain ⟨hvalid, rfl⟩ := plainEntry_iff.mp he
      exact ⟨congrArg _ ih.1, List.forall_mem_cons.mpr ⟨hvalid, ih.2⟩⟩

theorem plainLines_iff {payload : List UInt8} : PlainLines payload ↔ ∃ t : Tree, payload = (Object.tree t).payload := by
  constructor
  · rintro ⟨text, entries, rfl, hend, hplain, hsorted⟩
    obtain ⟨hlines, hvalid⟩ := plainEntries_lines hplain
    refine ⟨⟨entries, hsorted, hvalid⟩, ?_⟩
    rw [payload_tree, ← hlines, lines_of_splitTerminator hend]
  · rintro ⟨t, rfl⟩
    have hlines : ∀ line ∈ t.entries.map Object.entryLine, '\n' ∉ line :=
      List.forall_mem_map.mpr fun e he => Object.entryLine_noNewline (t.valid e he)
    refine ⟨_, t.entries, payload_tree t, ?_, ?_, t.sorted⟩
    · by_cases hnil : t.entries.map Object.entryLine = []
      · exact .inl (by rw [hnil, List.flatMap_nil])
      · exact .inr (by rw [flatMap_terminated hnil, List.getLast?_concat])
    · rw [splitTerminator_lines hlines, List.forall₂_map_right_iff, List.forall₂_same]
      exact fun e he => plainEntry_iff.mpr ⟨t.valid e he, rfl⟩

/-- The canonical bytes are the ones that are written. -/
theorem canonicalBytes_iff {bytes : List UInt8} : CanonicalBytes bytes ↔ ∃ o : Object, bytes = o.serialize := by
  constructor
  · rintro ⟨kind, num, payload, rfl, hnum, hplus, hzero, hlines⟩
    obtain rfl := decimalText_plain hnum hplus hzero
    obtain ⟨o, rfl, rfl⟩ : ∃ o : Object, kind = o.kind ∧ payload = o.payload := by
      cases kind with
      | blob => exact ⟨.blob payload, rfl, rfl⟩
      | tree =>
          obtain ⟨t, ht⟩ := plainLines_iff.mp (hlines rfl)
          exact ⟨.tree t, rfl, ht⟩
    refine ⟨o, ?_⟩
    rw [Object.serialize, List.append_assoc, List.singleton_append]
  · rintro ⟨o, rfl⟩
    refine ⟨o.kind, Nat.toDigits 10 o.payload.length, o.payload, ?_, decimalText_toDigits _, ?_, ?_, ?_⟩
    · rw [Object.serialize, List.append_assoc, List.singleton_append]
    · intro hhead
      exact absurd (Nat.isDigit_of_mem_toDigits (by decide) (by decide) (List.mem_of_head? hhead)) (by decide)
    · exact toDigits_of_head_zero
    · intro hkind
      cases o with
      | blob content => cases hkind
      | tree t => exact plainLines_iff.mpr ⟨t, rfl⟩

/-- Among its spellings, an object is written in the canonical one. -/
theorem Spelling.canonical_iff {o : Object} {bytes : List UInt8} (h : Spelling o bytes) :
    CanonicalBytes bytes ↔ bytes = o.serialize := by
  rw [canonicalBytes_iff]
  constructor
  · rintro ⟨o', rfl⟩
    have hread := Object.deserialize_of_spelling h
    rw [Object.deserialize_serialize] at hread
    cases hread
    rfl
  · exact fun heq => ⟨o, heq⟩

/-! ## Reading -/

namespace Repository

section

variable (sha256 : List UInt8 → ObjectId) (repo : Repository) (id : ObjectId) (bytes : List UInt8)

/-- What is read has the hash it was asked for, and other bytes in the file of an object are reported. -/
structure ReadsVerified : Prop where
  hashes : ∀ o, repo.readObject sha256 id = .ok (.ok o) → sha256 bytes = id
  reports : ∀ o : Object, o.id sha256 = id → bytes ≠ o.serialize → ∃ e, repo.readObject sha256 id = .ok (.error e)

variable {sha256 repo id bytes}

theorem readObject_of_spelling {o : Object} (hstored : repo.objects[id.toText]? = some bytes) (h : Spelling o bytes)
    (hid : o.id sha256 = id) : repo.readObject sha256 id = .ok (.ok o) := by
  unfold readObject
  rw [hstored]
  simp only [Object.deserialize_of_spelling h, bind, Except.bind, pure, Except.pure, if_pos hid]

variable (sha256) in
theorem readObject_of_breaks (hstored : repo.objects[id.toText]? = some bytes) (h : Breaks bytes) :
    ∃ p, repo.readObject sha256 id = .error p := by
  obtain ⟨p, hp⟩ := Object.deserialize_of_breaks h
  refine ⟨p, ?_⟩
  unfold readObject
  rw [hstored]
  simp only [hp, bind, Except.bind]

variable (sha256) in
/-- Reading breaks, gives an object that the bytes spell and that has the id, or is refused. -/
theorem readObject_cases (hstored : repo.objects[id.toText]? = some bytes) :
    Breaks bytes ∨ (∃ o, Spelling o bytes ∧ o.id sha256 = id) ∨ ∃ e, repo.readObject sha256 id = .ok (.error e) := by
  rcases Object.deserialize_cases bytes with hbreaks | ⟨o, hspelling⟩ | ⟨err, herr⟩
  · exact .inl hbreaks
  · by_cases hid : o.id sha256 = id
    · exact .inr (.inl ⟨o, hspelling, hid⟩)
    · refine .inr (.inr ⟨.integrity id, ?_⟩)
      unfold readObject
      rw [hstored]
      simp only [Object.deserialize_of_spelling hspelling, bind, Except.bind, pure, Except.pure, if_neg hid]
  · refine .inr (.inr ⟨.object err, ?_⟩)
    unfold readObject
    rw [hstored]
    simp only [herr, bind, Except.bind, pure, Except.pure]

/-- Where no object has the hash of the stored bytes but the one written so, reading verifies
    them, unless they spell the object asked for in another way, or break the parser. -/
theorem readObject_verifies_iff (hstored : repo.objects[id.toText]? = some bytes)
    (hfree : ∀ o : Object, o.id sha256 = sha256 bytes → o.serialize = bytes) :
    ReadsVerified sha256 repo id bytes ↔
      (¬ ∃ o, Spelling o bytes ∧ o.id sha256 = id ∧ ¬ CanonicalBytes bytes) ∧
        ¬ (Breaks bytes ∧ ∃ o : Object, o.id sha256 = id) := by
  constructor
  · intro h
    refine ⟨?_, ?_⟩
    · rintro ⟨o, hspelling, hid, hother⟩
      have hhash := h.hashes o (readObject_of_spelling hstored hspelling hid)
      exact hother (hspelling.canonical_iff.mpr (hfree o (hid.trans hhash.symm)).symm)
    · rintro ⟨hbreaks, o, hid⟩
      obtain ⟨p, hp⟩ := readObject_of_breaks sha256 hstored hbreaks
      have hne : bytes ≠ o.serialize := by
        rintro rfl
        obtain ⟨q, hq⟩ := Object.deserialize_of_breaks hbreaks
        rw [Object.deserialize_serialize] at hq
        cases hq
      obtain ⟨e, he⟩ := h.reports o hid hne
      rw [hp] at he
      cases he
  · rintro ⟨hother, hbreaks⟩
    -- What is read has been written so, and then its hash is the one of the bytes.
    have hread : ∀ o, Spelling o bytes → o.id sha256 = id → bytes = o.serialize := fun o hspelling hid =>
      hspelling.canonical_iff.mp (Classical.not_not.mp fun hnot => hother ⟨o, hspelling, hid, hnot⟩)
    refine ⟨fun o ho => ?_, fun o hid hne => ?_⟩
    · rcases readObject_cases sha256 hstored with hb | ⟨o', hspelling, hid⟩ | ⟨e, he⟩
      · obtain ⟨p, hp⟩ := readObject_of_breaks sha256 hstored hb
        rw [hp] at ho
        cases ho
      · rw [hread o' hspelling hid]
        exact hid
      · rw [he] at ho
        cases ho
    · rcases readObject_cases sha256 hstored with hb | ⟨o', hspelling, hid'⟩ | he
      · exact absurd ⟨hb, o, hid⟩ hbreaks
      · have hbytes := hread o' hspelling hid'
        refine absurd (hfree o ?_).symm hne
        rw [hid, hbytes]
        exact hid'.symm
      · exact he

end

/-- A blob, and its bytes with a zero in front of the length. -/
def helloBlob : Object := .blob (utf8 "hello".toList)

def helloRespelled : List UInt8 := utf8 (ObjectKind.blob.asStr ++ ' ' :: "05".toList) ++ 0 :: utf8 "hello".toList

def repeatedId (b : UInt8) : ObjectId := ⟨List.replicate 32 b, List.length_replicate⟩

/-- A hash that tells the two apart, and both from all else. -/
def helloHash (bytes : List UInt8) : ObjectId :=
  if bytes = helloBlob.serialize then repeatedId 1 else if bytes = helloRespelled then repeatedId 2 else repeatedId 3

/-- A repository with bytes in the place of the blob. -/
def helloRepo (bytes : List UInt8) : Repository := ⟨(∅ : BTreeMap Str (List UInt8)).insert (repeatedId 1).toText bytes⟩

theorem helloRepo_stored (bytes : List UInt8) : (helloRepo bytes).objects[(repeatedId 1).toText]? = some bytes := by
  unfold helloRepo
  rw [BTreeMap.getElem?_insert, if_pos rfl]

theorem repeatedId_injective {b c : UInt8} (h : repeatedId b = repeatedId c) : b = c := by
  have hdigest : List.replicate 32 b = List.replicate 32 c := congrArg ObjectId.digest h
  exact (List.replicate_inj.mp hdigest).2.resolve_left (by decide)

theorem helloBlob_free (o : Object) (h : o.id helloHash = helloHash helloBlob.serialize) :
    o.serialize = helloBlob.serialize := by
  unfold Object.id helloHash at h
  rw [if_pos rfl] at h
  split at h
  · assumption
  · split at h
    · exact absurd (repeatedId_injective h) (by decide)
    · exact absurd (repeatedId_injective h) (by decide)

theorem helloBlob_ne_respelled : helloRespelled ≠ helloBlob.serialize := by decide

theorem helloRespelled_free (o : Object) (h : o.id helloHash = helloHash helloRespelled) :
    o.serialize = helloRespelled := by
  unfold Object.id helloHash at h
  rw [if_neg helloBlob_ne_respelled, if_pos rfl] at h
  split at h
  · exact absurd (repeatedId_injective h) (by decide)
  · split at h
    · assumption
    · exact absurd (repeatedId_injective h) (by decide)

/-- The blob as it was written is read verified. -/
theorem readObject_verifies_hello :
    ReadsVerified helloHash (helloRepo helloBlob.serialize) (repeatedId 1) helloBlob.serialize := by
  refine (readObject_verifies_iff (helloRepo_stored _) helloBlob_free).mpr ⟨?_, ?_⟩
  · rintro ⟨o, -, -, hother⟩
    exact hother (canonicalBytes_iff.mpr ⟨helloBlob, rfl⟩)
  · rintro ⟨hbreaks, -⟩
    obtain ⟨p, hp⟩ := Object.deserialize_of_breaks hbreaks
    rw [Object.deserialize_serialize] at hp
    cases hp

/-- With a zero in front of its length the blob is read as before, and nothing is reported. -/
theorem readObject_respelled_unverified :
    (∀ o : Object, o.id helloHash = helloHash helloRespelled → o.serialize = helloRespelled) ∧
      ¬ ReadsVerified helloHash (helloRepo helloRespelled) (repeatedId 1) helloRespelled := by
  refine ⟨helloRespelled_free, fun h => ?_⟩
  have hspelling : Spelling helloBlob helloRespelled :=
    ⟨"05".toList, utf8 "hello".toList, rfl, ⟨"05".toList, .inl rfl, by decide, List.all_eq_true.mp (by decide),
      by decide⟩, rfl⟩
  have hid : helloBlob.id helloHash = repeatedId 1 := by
    unfold Object.id helloHash
    rw [if_pos rfl]
  have hhash := h.hashes helloBlob (readObject_of_spelling (helloRepo_stored helloRespelled) hspelling hid)
  unfold helloHash at hhash
  rw [if_neg helloBlob_ne_respelled, if_pos rfl] at hhash
  exact absurd (repeatedId_injective hhash) (by decide)

end Repository

end Omoplata
