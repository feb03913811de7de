-- SUMMARY: Ref advertisements, and when the refs and capabilities that are advertised are read back.
import Mathlib.Data.Finset.Insert
import Mathlib.Data.Set.Finite.Lemmas
import Omoplata.Git.Hex
import Omoplata.Git.Repo

/-!
# Ref advertisements

A server advertises its refs in frames, one line for each ref with its id and its name, and its
capabilities behind a zero byte on the first of them. A line with the version of the protocol may
stand in front, and the lines of peeled tags and of the placeholder of an empty repository are
dropped. The capabilities are only looked for on the very first line, so where the version
stands in front they stay with the name of the first ref.
-/

open Codec

namespace Omoplata

/-! ## Lines -/

/-- A line without a newline at its end. -/
def trimTrailingNewline (line : List UInt8) : List UInt8 :=
  if line.getLast? = some 0x0a then line.dropLast else line

/-- The id and the name of a line. -/
def parseRefLine (line : List UInt8) : Except WireError (GitOid × Str) :=
  match cut 0x20 (trimTrailingNewline line) with
  | none => .error (.wireProto "ref advertisement line has no space".toList)
  | some (oidBytes, nameBytes) =>
      match fromUtf8 oidBytes with
      | none => .error (.wireProto "ref advertisement oid is not ascii".toList)
      | some oidHex =>
          match GitOid.fromHex oidHex with
          | .error _ => .error (.wireProto "ref advertisement oid is not 40-hex".toList)
          | .ok oid =>
              match fromUtf8 nameBytes with
              | none => .error (.wireProto "ref name is not utf-8".toList)
              | some name => .ok (oid, name)

/-- Forty digits and a space come first. -/
def looksLikeRefLine (text : List UInt8) : Bool :=
  40 < text.length && text[40]? = some 0x20 && (text.take 40).all isHexByte

/-- The ref of the first line and its capabilities, which are behind a zero byte. -/
def splitCapabilities (line : List UInt8) (first : Bool) : List UInt8 × Option (List UInt8) :=
  if !first then (line, none)
  else
    match cut 0 line with
    | some (refPart, capPart) => (refPart, some capPart)
    | none => (line, none)

/-- The words between white space. -/
def splitWhitespace (s : Str) : List Str := (s.splitOnP isWhiteSpace).filter (· ≠ [])

/-- The end of the names of peeled tags. -/
def peeledSuffix : Str := "^\x7b\x7d".toList

def isPeeled (name : Str) : Bool := peeledSuffix.isSuffixOf name

/-! ## Reading -/

/-- The refs and capabilities as far as the lines have been read. -/
structure AdState where
  refs : List (Str × GitOid)
  caps : Finset Str
  first : Bool

/-- Read a line of the section. -/
def AdState.addLine (s : AdState) (line : List UInt8) : Except WireError AdState :=
  let line := trimTrailingNewline line
  if !looksLikeRefLine line then pure { s with first := false }
  else do
    let (refPart, capPart) := splitCapabilities line s.first
    let caps :=
      match capPart with
      | none => s.caps
      | some capBytes => (splitWhitespace (fromUtf8Lossy capBytes)).foldl (fun caps cap => insert cap caps) s.caps
    let (oid, name) ← parseRefLine refPart
    if isPeeled name ∨ name = "capabilities^\x7b\x7d".toList then pure ⟨s.refs, caps, false⟩
    else pure ⟨s.refs ++ [(name, oid)], caps, false⟩

theorem readPktLine_shorter {r rest : List UInt8} {line : Option (List UInt8)}
    (h : readPktLine r = .ok (line, rest)) : rest.length < r.length := by
  unfold readPktLine at h
  obtain ⟨⟨pkt, rest'⟩, hpkt, h⟩ := bind_eq_ok.mp h
  have hshorter := readPkt_shorter r pkt rest' hpkt
  cases pkt with
  | data payload =>
      cases h
      exact hshorter
  | flush =>
      cases h
      exact hshorter
  | delim =>
      cases h
      exact hshorter
  | responseEnd =>
      cases h
      exact hshorter

/-- Read lines up to the end of the section. -/
def AdState.readLines (s : AdState) (r : List UInt8) : Except WireError (AdState × List UInt8) :=
  match _h : readPktLine r with
  | .error e => .error e
  | .ok (none, r) => .ok (s, r)
  | .ok (some line, r) =>
      match s.addLine line with
      | .error e => .error e
      | .ok s => s.readLines r
termination_by r.length
decreasing_by exact readPktLine_shorter _h

/-- The refs of an advertisement, by name, and the capabilities of the server. -/
def readAdvertisement (r : List UInt8) : Except WireError ((List (Str × GitOid) × Finset Str) × List UInt8) := do
  let (s, r) ← AdState.readLines ⟨[], ∅, true⟩ r
  pure ((sortByKey Prod.fst s.refs, s.caps), r)

/-! ## What is advertised -/

def lineEnd (lf : Bool) : Str := if lf then ['\n'] else []

/-- A ref, or the peeled target of one, and whether its line has a newline at its end. -/
structure AdEntry where
  oid : GitOid
  name : Str
  lf : Bool

/-- What stands in front of the capabilities. -/
def AdEntry.text (e : AdEntry) : Str := e.oid.hex ++ ' ' :: e.name

/-- An advertisement: perhaps a version, then the refs, with the capabilities on the first of them.
    The advertisement of an empty repository has the placeholder for its only entry. -/
structure Advertised where
  banner : Option (Nat × Bool)
  entry : AdEntry
  entries : List AdEntry
  caps : List Str
  caps_word : ∀ cap ∈ caps, cap ≠ [] ∧ ' ' ∉ cap
  nul_free : ∀ e ∈ entry :: entries, Char.ofNat 0 ∉ e.name
  distinct : ((entry :: entries).map AdEntry.name).Nodup

namespace Advertised

variable (ad : Advertised)

def bannerLine (banner : Nat × Bool) : Str := "version ".toList ++ Nat.toDigits 10 banner.1 ++ lineEnd banner.2

def capsText : Str := [' '].intercalate ad.caps

def firstLine : Str := ad.entry.text ++ Char.ofNat 0 :: (ad.capsText ++ lineEnd ad.entry.lf)

def lines : List Str :=
  ad.banner.toList.map bannerLine ++ ad.firstLine :: ad.entries.map fun e => e.text ++ lineEnd e.lf

/-- The frames of the lines, and the end of the section. -/
def write : Except WireError (List UInt8) :=
  (ad.lines.foldlM (fun w line => writePktLine w (utf8 line)) []).map writeFlush

/-- The refs that are not peeled targets. -/
def refs : List (Str × GitOid) :=
  ((ad.entry :: ad.entries).filter fun e => !isPeeled e.name).map fun e => (e.name, e.oid)

/-- The refs come back by name, with exactly the capabilities, and what follows is left. -/
def ReadsBack (stream rest : List UInt8) : Prop :=
  ∃ refs, readAdvertisement (stream ++ rest) = .ok ((refs, ad.caps.toFinset), rest) ∧ refs.Perm ad.refs ∧
    refs.Pairwise fun a b => (compare a.1 b.1).isLE

end Advertised

/-! ## Lines of text -/

/-- A text without a newline at its end. -/
def chop (s : Str) : Str := if s.getLast? = some '\n' then s.dropLast else s

theorem chop_newline (s : Str) : chop (s ++ ['\n']) = s := by simp [chop]

theorem chop_of_ne {s : Str} (h : s.getLast? ≠ some '\n') : chop s = s := if_neg h

theorem length_chop_lt {s : Str} (h : s.getLast? = some '\n') : (chop s).length < s.length := by
  unfold chop
  rw [if_pos h, List.length_dropLast]
  have hpos : s ≠ [] := by
    rintro rfl
    cases h
  exact Nat.sub_lt (List.length_pos_iff.mpr hpos) Nat.one_pos

theorem length_chop_le (s : Str) : (chop s).length ≤ s.length := by
  unfold chop
  split
  · rw [List.length_dropLast]
    exact Nat.sub_le _ _
  · exact le_rfl

theorem chop_append (front : Str) {c : Char} (h : c ≠ '\n') (t : Str) :
    chop (front ++ c :: t) = front ++ c :: chop t := by
  cases t with
  | nil => simp [chop, h]
  | cons d t =>
      have hlast : (front ++ c :: d :: t).getLast? = (d :: t).getLast? := by
        rw [List.getLast?_append_of_ne_nil _ (List.cons_ne_nil _ _), List.getLast?_cons_cons]
      unfold chop
      rw [hlast]
      split
      · rw [List.dropLast_append_of_ne_nil (List.cons_ne_nil _ _), List.dropLast_cons_of_ne_nil (List.cons_ne_nil _ _)]
      · rfl

theorem trimTrailingNewline_utf8 (s : Str) : trimTrailingNewline (utf8 s) = utf8 (chop s) := by
  cases s using List.reverseRec with
  | nil => rfl
  | append_singleton s c _ =>
      have hchar : utf8 (s ++ [c]) = utf8 s ++ String.utf8EncodeChar c := by
        rw [utf8_append]
        exact congrArg _ (List.flatMap_singleton _ _)
      by_cases hc : c = '\n'
      · subst hc
        have hbyte : String.utf8EncodeChar '\n' = [0x0a] := by decide
        rw [chop_newline, hchar, hbyte]
        simp [trimTrailingNewline]
      · have hlast : (utf8 (s ++ [c])).getLast? ≠ some 0x0a := by
          intro heq
          rw [hchar, List.getLast?_append_of_ne_nil _ String.utf8EncodeChar_ne_nil] at heq
          have hnat := eq_of_mem_utf8EncodeChar (List.mem_of_getLast? heq) (by decide)
          exact hc (Char.ext (UInt32.toNat_inj.mp hnat))
        rw [chop_of_ne (by simpa using hc)]
        exact if_neg hlast

/-! ## Reading a line -/

theorem utf8_hex_digits {oid : GitOid} : (utf8 oid.hex).length = 40 ∧ (∀ b ∈ utf8 oid.hex, isHexByte b) ∧
    (0x20 : UInt8) ∉ utf8 oid.hex := by
  have hlength : oid.hex.length = 40 := by
    have hspell := ObjectId.byteLength_hexEncode oid.bytes
    have hvalue := (exists_fromHex_iff.mp ⟨oid, GitOid.fromHex_hex oid⟩).1
    exact hvalue
  have hdigit : ∀ c ∈ oid.hex, (hexValue c).isSome ∧ c ≠ ' ' := fun c hc => by
    have hall : "0123456789abcdef".toList.all (fun c => (hexValue c).isSome ∧ c ≠ ' ') := by decide
    exact of_decide_eq_true (List.all_eq_true.mp hall c (GitOid.mem_hex hc))
  have hascii := utf8_ascii fun c hc => utf8Size_of_radix (.inl (hdigit c hc).1)
  refine ⟨?_, ?_, not_mem_utf8 (by decide) (by decide) fun hmem => (hdigit ' ' hmem).2 rfl⟩
  · rw [hascii, List.length_map, hlength]
  · rw [hascii]
    exact List.forall_mem_map.mpr fun c hc => isHexByte_of_hexValue (hdigit c hc).1

theorem utf8_space (s t : Str) : utf8 (s ++ ' ' :: t) = utf8 s ++ 0x20 :: utf8 t := utf8_append s (' ' :: t)

theorem looksLikeRefLine_utf8 (oid : GitOid) (t : Str) : looksLikeRefLine (utf8 (oid.hex ++ ' ' :: t)) = true := by
  obtain ⟨hlength, hdigits, -⟩ := @utf8_hex_digits oid
  rw [utf8_space]
  unfold looksLikeRefLine
  rw [Bool.and_eq_true, Bool.and_eq_true, decide_eq_true_eq, decide_eq_true_eq]
  refine ⟨⟨?_, ?_⟩, ?_⟩
  · rw [List.length_append, hlength, List.length_cons]
    omega
  · rw [List.getElem?_append_right hlength.le, hlength]
    rfl
  · rw [List.take_left' hlength]
    exact List.all_eq_true.mpr hdigits

theorem parseRefLine_utf8 (oid : GitOid) (t : Str) :
    parseRefLine (utf8 (oid.hex ++ ' ' :: t)) = .ok (oid, chop t) := by
  obtain ⟨-, -, hspace⟩ := @utf8_hex_digits oid
  unfold parseRefLine
  rw [trimTrailingNewline_utf8, chop_append _ (by decide), utf8_space, cut_append hspace]
  simp only [fromUtf8_utf8, GitOid.fromHex_hex]

/-- Add a ref, unless it is the peeled target of one. -/
def AdState.push (s : AdState) (oid : GitOid) (name : Str) : AdState :=
  if isPeeled name then { s with first := false } else { s with refs := s.refs ++ [(name, oid)], first := false }

/-- The placeholder has the name of a peeled target. -/
theorem isPeeled_or_placeholder {name : Str} :
    (isPeeled name ∨ name = "capabilities^\x7b\x7d".toList) ↔ isPeeled name := by
  refine or_iff_left_of_imp fun heq => ?_
  rw [heq]
  decide

/-- Behind the first line, a line is read as an id and a name. -/
theorem AdState.addLine_later {s : AdState} (h : s.first = false) (oid : GitOid) (t : Str) :
    s.addLine (utf8 (oid.hex ++ ' ' :: t)) = .ok (s.push oid (chop (chop t))) := by
  unfold addLine push
  simp only [trimTrailingNewline_utf8, chop_append oid.hex (show ' ' ≠ '\n' by decide), looksLikeRefLine_utf8, h,
    splitCapabilities, Bool.not_true, Bool.not_false, if_true, parseRefLine_utf8]
  change (if isPeeled (chop (chop t)) ∨ chop (chop t) = _ then _ else _) = _
  simp only [isPeeled_or_placeholder]
  split
  · rfl
  · rfl

/-- On the first line, the capabilities are split off at the zero byte. -/
theorem AdState.addLine_first {s : AdState} (h : s.first = true) (oid : GitOid) {name : Str}
    (hname : Char.ofNat 0 ∉ name) (t : Str) :
    s.addLine (utf8 (oid.hex ++ ' ' :: (name ++ Char.ofNat 0 :: t))) =
      .ok ({ s with caps := (splitWhitespace (chop t)).foldl (fun caps cap => insert cap caps) s.caps }.push oid
        (chop name)) := by
  have hchop : chop (oid.hex ++ ' ' :: (name ++ Char.ofNat 0 :: t)) =
      (oid.hex ++ ' ' :: name) ++ Char.ofNat 0 :: chop t := by
    rw [← List.cons_append, ← List.append_assoc, chop_append _ (by decide)]
  have hnul : (0 : UInt8) ∉ utf8 (oid.hex ++ ' ' :: name) := by
    refine not_mem_utf8 (c := Char.ofNat 0) (by decide) (by decide) fun hmem => ?_
    rw [List.mem_append, List.mem_cons] at hmem
    rcases hmem with hhex | hspace | hmem
    · exact absurd (GitOid.mem_hex hhex) (by decide)
    · exact absurd hspace (by decide)
    · exact hname hmem
  have hcut : cut 0 (utf8 ((oid.hex ++ ' ' :: name) ++ Char.ofNat 0 :: chop t)) =
      some (utf8 (oid.hex ++ ' ' :: name), utf8 (chop t)) := by
    rw [utf8_append]
    exact cut_append hnul _
  have hlooks := looksLikeRefLine_utf8 oid (name ++ Char.ofNat 0 :: chop t)
  rw [← List.cons_append, ← List.append_assoc] at hlooks
  unfold addLine push
  simp only [trimTrailingNewline_utf8, hchop, hlooks, h, splitCapabilities, hcut, Bool.not_true, Bool.false_eq_true,
    if_false, parseRefLine_utf8, fromUtf8Lossy_utf8]
  change (if isPeeled (chop name) ∨ chop name = _ then _ else _) = _
  simp only [isPeeled_or_placeholder]
  split
  · rfl
  · rfl

/-- A line with the version is no ref line, and takes the place of the first line. -/
theorem AdState.addLine_banner (s : AdState) (banner : Nat × Bool) :
    s.addLine (utf8 (Advertised.bannerLine banner)) = .ok { s with first := false } := by
  have hlooks : looksLikeRefLine (utf8 (chop (Advertised.bannerLine banner))) = false := by
    have htext : Advertised.bannerLine banner =
        [] ++ 'v' :: ("ersion ".toList ++ Nat.toDigits 10 banner.1 ++ lineEnd banner.2) := by
      unfold Advertised.bannerLine
      rfl
    have hbyte : ∀ t : Str, utf8 ([] ++ 'v' :: t) = 0x76 :: utf8 t := fun t => rfl
    rw [htext, chop_append _ (by decide), hbyte]
    unfold looksLikeRefLine
    rw [List.take_succ_cons, List.all_cons, show isHexByte 0x76 = false by decide, Bool.false_and, Bool.and_false]
  unfold addLine
  simp only [trimTrailingNewline_utf8, hlooks, Bool.not_false, if_true]
  rfl

/-! ## Reading the section -/

theorem foldlM_writePktLine {lines : List Str} {w out : List UInt8}
    (h : lines.foldlM (fun w line => writePktLine w (utf8 line)) w = .ok out) :
    ∃ packets : List Packet, out = w ++ packets.flatMap Packet.bytes ∧
      packets.map Packet.line = lines.map fun line => .data (utf8 line) := by
  induction lines generalizing w with
  | nil =>
      cases h
      exact ⟨[], (List.append_nil _).symm, rfl⟩
  | cons line lines ih =>
      rw [List.foldlM_cons] at h
      obtain ⟨w', hw, h⟩ := bind_eq_ok.mp h
      obtain ⟨packets, rfl, hlines⟩ := ih h
      unfold writePktLine at hw
      split at hw
      · cases hw
      · rename_i hfits
        cases hw
        refine ⟨.data (utf8 line) (Nat.not_lt.mp hfits) :: packets, ?_, ?_⟩
        · rw [List.flatMap_cons, ← List.append_assoc, Packet.bytes, ← List.append_assoc]
        · rw [List.map_cons, List.map_cons, hlines]
          rfl

/-- Lines are read one by one, up to the end of the section. -/
theorem AdState.readLines_packets {lines : List Str} {packets : List Packet}
    (h : packets.map Packet.line = lines.map fun line => .data (utf8 line)) (s : AdState) (rest : List UInt8) :
    s.readLines (packets.flatMap Packet.bytes ++ (flushPkt ++ rest)) =
      (lines.foldlM (fun s line => AdState.addLine s (utf8 line)) s).map fun s => (s, rest) := by
  induction packets generalizing lines s with
  | nil =>
      rw [List.map_nil] at h
      rw [List.map_eq_nil_iff.mp h.symm]
      have hflush : readPktLine (flushPkt ++ rest) = .ok (none, rest) := by
        unfold readPktLine
        rw [show flushPkt ++ rest = Packet.flush.bytes ++ rest from rfl, readPkt_bytes]
        rfl
      rw [List.flatMap_nil, List.nil_append, readLines]
      split
      · simp_all
      · simp_all [Except.map, pure, Except.pure]
      · simp_all
  | cons p packets ih =>
      cases lines with
      | nil => cases h
      | cons line lines =>
          rw [List.map_cons, List.map_cons, List.cons.injEq] at h
          have hread : readPktLine (p.bytes ++ (packets.flatMap Packet.bytes ++ (flushPkt ++ rest))) =
              .ok (some (utf8 line), packets.flatMap Packet.bytes ++ (flushPkt ++ rest)) := by
            unfold readPktLine
            rw [readPkt_bytes, h.1]
            rfl
          rw [List.flatMap_cons, List.append_assoc, readLines, List.foldlM_cons]
          split
          · simp_all
          · simp_all
          · rename_i line' r heq
            rw [hread, Except.ok.injEq, Prod.mk.injEq, Option.some.injEq] at heq
            obtain ⟨rfl, rfl⟩ := heq
            cases hadd : s.addLine (utf8 line) with
            | error e => rfl
            | ok s' => exact ih h.2 s'

/-- The name that a line behind the first is read with. -/
def AdEntry.heard (e : AdEntry) : Str := chop (chop (e.name ++ lineEnd e.lf))

/-- The refs among ids and names that have been read. -/
def heardRefs (heard : List (GitOid × Str)) : List (Str × GitOid) :=
  (heard.filter fun p => !isPeeled p.2).map Prod.swap

theorem mem_heardRefs {heard : List (GitOid × Str)} {name : Str} {oid : GitOid} :
    (name, oid) ∈ heardRefs heard ↔ (oid, name) ∈ heard ∧ isPeeled name = false := by
  simp [heardRefs, List.mem_filter]

theorem AdState.push_eq (s : AdState) (oid : GitOid) (name : Str) :
    s.push oid name = ⟨s.refs ++ heardRefs [(oid, name)], s.caps, false⟩ := by
  unfold push heardRefs
  cases h : isPeeled name with
  | true => simp [h]
  | false => simp [h]

theorem AdState.foldlM_entries {s : AdState} (h : s.first = false) (entries : List AdEntry) :
    (entries.map fun e => e.text ++ lineEnd e.lf).foldlM (fun s line => AdState.addLine s (utf8 line)) s =
      .ok ⟨s.refs ++ heardRefs (entries.map fun e => (e.oid, e.heard)), s.caps, false⟩ := by
  induction entries generalizing s with
  | nil =>
      obtain ⟨refs, caps, first⟩ := s
      cases h
      exact congrArg (fun r => Except.ok (AdState.mk r caps false)) (List.append_nil refs).symm
  | cons e entries ih =>
      have hline : e.text ++ lineEnd e.lf = e.oid.hex ++ ' ' :: (e.name ++ lineEnd e.lf) := by
        unfold AdEntry.text
        rw [List.append_assoc, List.cons_append]
      rw [List.map_cons, List.foldlM_cons, hline, addLine_later h, push_eq]
      refine (ih rfl).trans ?_
      have hrefs : heardRefs ((e :: entries).map fun e => (e.oid, e.heard)) =
          heardRefs [(e.oid, e.heard)] ++ heardRefs (entries.map fun e => (e.oid, e.heard)) := by
        unfold heardRefs
        rw [← List.map_append, ← List.filter_append, List.map_cons, List.singleton_append]
      rw [hrefs, ← List.append_assoc]
      rfl

namespace Advertised

variable (ad : Advertised)

/-- What stands behind the zero byte of the first line. -/
def capsLine : Str := ad.capsText ++ lineEnd ad.entry.lf

/-- The name that the first line is read with. Where the version stands in front, it has all of the line. -/
def heardFirst : Str :=
  if ad.banner.isNone then chop ad.entry.name else chop (chop (ad.entry.name ++ Char.ofNat 0 :: ad.capsLine))

def heard : List (GitOid × Str) := (ad.entry.oid, ad.heardFirst) :: ad.entries.map fun e => (e.oid, e.heard)

def heardCaps : Finset Str := if ad.banner.isNone then (splitWhitespace (chop ad.capsLine)).toFinset else ∅

theorem foldl_insert (words : List Str) (caps : Finset Str) :
    words.foldl (fun caps cap => insert cap caps) caps = caps ∪ words.toFinset := by
  induction words generalizing caps with
  | nil => simp
  | cons word words ih =>
      rw [List.foldl_cons, ih, List.toFinset_cons, Finset.insert_union, Finset.union_insert]

/-- The state in front of the first line. -/
theorem foldlM_banner :
    (ad.banner.toList.map bannerLine).foldlM (fun s line => AdState.addLine s (utf8 line)) ⟨[], ∅, true⟩ =
      .ok ⟨[], ∅, ad.banner.isNone⟩ := by
  cases ad.banner with
  | none => rfl
  | some banner =>
      rw [Option.toList_some, List.map_singleton, List.foldlM_cons, AdState.addLine_banner]
      rfl

theorem addLine_firstLine :
    AdState.addLine ⟨[], ∅, ad.banner.isNone⟩ (utf8 ad.firstLine) =
      .ok ⟨heardRefs [(ad.entry.oid, ad.heardFirst)], ad.heardCaps, false⟩ := by
  have hline : ad.firstLine = ad.entry.oid.hex ++ ' ' :: (ad.entry.name ++ Char.ofNat 0 :: ad.capsLine) := by
    unfold firstLine AdEntry.text capsLine
    rw [List.append_assoc, List.cons_append]
  unfold heardFirst heardCaps
  rw [hline]
  cases ad.banner with
  | none =>
      rw [AdState.addLine_first rfl _ (ad.nul_free _ List.mem_cons_self), AdState.push_eq, foldl_insert,
        Finset.empty_union]
      rfl
  | some banner =>
      rw [AdState.addLine_later rfl, AdState.push_eq]
      rfl

/-- What an advertisement is read as. -/
theorem readAdvertisement_write {stream : List UInt8} (h : ad.write = .ok stream) (rest : List UInt8) :
    readAdvertisement (stream ++ rest) = .ok ((sortByKey Prod.fst (heardRefs ad.heard), ad.heardCaps), rest) := by
  unfold write at h
  obtain ⟨out, hout, rfl⟩ := map_eq_ok.mp h
  obtain ⟨packets, rfl, hpackets⟩ := foldlM_writePktLine hout
  have hfold : ad.lines.foldlM (fun s line => AdState.addLine s (utf8 line)) ⟨[], ∅, true⟩ =
      .ok ⟨heardRefs ad.heard, ad.heardCaps, false⟩ := by
    unfold lines
    rw [List.foldlM_append, ad.foldlM_banner]
    refine bind_eq_ok.mpr ⟨_, rfl, ?_⟩
    rw [List.foldlM_cons, ad.addLine_firstLine]
    refine (AdState.foldlM_entries rfl ad.entries).trans ?_
    unfold heard heardRefs
    rw [← List.map_append, ← List.filter_append, List.singleton_append]
  unfold readAdvertisement writeFlush
  rw [List.nil_append, List.append_assoc, AdState.readLines_packets hpackets, hfold]
  rfl

end Advertised

/-! ## When everything comes back -/

theorem pairwise_sortByKey {α β : Type} [Ord β] [Std.TransOrd β] (key : α → β) (l : List α) :
    (sortByKey key l).Pairwise fun a b => (compare (key a) (key b)).isLE := by
  have htotal : Std.Total fun a b : α => (compare (key a) (key b)).isLE = true := ⟨fun a b => by
    cases hcmp : compare (key a) (key b) with
    | lt => exact .inl rfl
    | eq => exact .inl rfl
    | gt =>
        have hswap : compare (key b) (key a) = (compare (key a) (key b)).swap := Std.OrientedCmp.eq_swap
        rw [hswap, hcmp]
        exact .inr rfl⟩
  have htrans : IsTrans α fun a b => (compare (key a) (key b)).isLE = true :=
    ⟨fun _ _ _ hab hbc => Std.TransCmp.isLE_trans hab hbc⟩
  exact List.pairwise_insertionSort _ l

theorem isPeeled_last {name : Str} (h : isPeeled name = true) :
    name.getLast? ≠ some '\n' ∧ name.getLast? ≠ some (Char.ofNat 0) := by
  obtain ⟨front, rfl⟩ := List.isSuffixOf_iff_suffix.mp h
  rw [List.getLast?_append_of_ne_nil _ (by decide)]
  exact ⟨by decide, by decide⟩

theorem chop_lineEnd {s : Str} (h : s.getLast? ≠ some '\n') (lf : Bool) : chop (s ++ lineEnd lf) = s := by
  cases lf with
  | false => exact (congrArg chop (List.append_nil s)).trans (chop_of_ne h)
  | true => exact chop_newline s

theorem AdEntry.heard_eq {e : AdEntry} (h : e.name.getLast? ≠ some '\n') : e.heard = e.name := by
  unfold heard
  rw [chop_lineEnd h, chop_of_ne h]

/-- A name with a newline at its end loses it. -/
theorem AdEntry.length_heard_lt {e : AdEntry} (h : e.name.getLast? = some '\n') : e.heard.length < e.name.length := by
  unfold heard
  cases e.lf with
  | false =>
      have hnil : e.name ++ lineEnd false = e.name := List.append_nil _
      rw [hnil]
      exact (length_chop_le _).trans_lt (length_chop_lt h)
  | true =>
      have hline : e.name ++ lineEnd true = e.name ++ ['\n'] := rfl
      rw [hline, chop_newline]
      exact length_chop_lt h

theorem splitWhitespace_visible {s word : Str} (h : word ∈ splitWhitespace s) : ∀ c ∈ word, isWhiteSpace c = false := by
  have hpieces : ∀ t : Str, ∀ piece ∈ t.splitOnP isWhiteSpace, ∀ c ∈ piece, isWhiteSpace c = false := by
    intro t
    induction t with
    | nil => simp
    | cons d t ih =>
        rw [List.splitOnP_cons_eq_if_modifyHead]
        split
        · exact List.forall_mem_cons.mpr ⟨List.forall_mem_nil _, ih⟩
        · rename_i hd
          cases hsplit : t.splitOnP isWhiteSpace with
          | nil => exact List.forall_mem_nil _
          | cons first pieces =>
              rw [hsplit] at ih
              obtain ⟨hfirst, hrest⟩ := List.forall_mem_cons.mp ih
              exact List.forall_mem_cons.mpr ⟨List.forall_mem_cons.mpr ⟨by simpa using hd, hfirst⟩, hrest⟩
  exact hpieces s word (List.mem_of_mem_filter h)

/-- Words without white space are found again between spaces. -/
theorem splitWhitespace_intercalate {words : List Str}
    (h : ∀ word ∈ words, word ≠ [] ∧ ∀ c ∈ word, isWhiteSpace c = false) :
    splitWhitespace ([' '].intercalate words) = words := by
  unfold splitWhitespace
  induction words with
  | nil => rfl
  | cons word words ih =>
      obtain ⟨⟨hne, hvisible⟩, hwords⟩ := List.forall_mem_cons.mp h
      cases words with
      | nil =>
          rw [List.intercalate_singleton, List.splitOnP_eq_singleton hvisible]
          simp [hne]
      | cons next words =>
          rw [List.intercalate_cons_cons, List.append_assoc, List.singleton_append,
            List.splitOnP_append_cons_of_forall_mem hvisible ' ' (by decide),
            List.filter_cons_of_pos (by simpa using hne), ih hwords]

namespace Advertised

variable {ad : Advertised}

/-- No version stands in front, no name ends with a newline, and no capability has white space in it. -/
def Plain (ad : Advertised) : Prop :=
  ad.banner = none ∧ (∀ e ∈ ad.entry :: ad.entries, e.name.getLast? ≠ some '\n') ∧
    ∀ cap ∈ ad.caps, ∀ c ∈ cap, isWhiteSpace c = false

theorem mem_refs {name : Str} {oid : GitOid} :
    (name, oid) ∈ ad.refs ↔ ∃ e ∈ ad.entry :: ad.entries, isPeeled e.name = false ∧ e.name = name ∧ e.oid = oid := by
  unfold refs
  simp only [List.mem_map, List.mem_filter, Bool.not_eq_true', Prod.mk.injEq, and_assoc]

theorem mem_intercalate {c : Char} {words : List Str} (h : c ∈ [' '].intercalate words) :
    c = ' ' ∨ ∃ word ∈ words, c ∈ word := by
  induction words with
  | nil => exact absurd h List.not_mem_nil
  | cons word words ih =>
      cases words with
      | nil =>
          rw [List.intercalate_singleton] at h
          exact .inr ⟨word, List.mem_cons_self, h⟩
      | cons next words =>
          rw [List.intercalate_cons_cons, List.mem_append, List.mem_append, List.mem_singleton] at h
          rcases h with (hword | hspace) | hrest
          · exact .inr ⟨word, List.mem_cons_self, hword⟩
          · exact .inl hspace
          · exact (ih hrest).imp_right fun ⟨w, hw, hc⟩ => ⟨w, List.mem_cons_of_mem _ hw, hc⟩

theorem capsText_last (hcaps : ∀ cap ∈ ad.caps, ∀ c ∈ cap, isWhiteSpace c = false) :
    ad.capsText.getLast? ≠ some '\n' := by
  intro hlast
  rcases mem_intercalate (List.mem_of_getLast? hlast) with hspace | ⟨cap, hcap, hmem⟩
  · exact absurd hspace (by decide)
  · exact absurd (hcaps cap hcap _ hmem) (by decide)

/-- Where nothing is in the way, everything is heard as it is. -/
theorem heard_of_plain (h : ad.Plain) : heardRefs ad.heard = ad.refs ∧ ad.heardCaps = ad.caps.toFinset := by
  obtain ⟨hbanner, hnames, hcaps⟩ := h
  obtain ⟨hfirst, hlater⟩ := List.forall_mem_cons.mp hnames
  constructor
  · have hheard : ad.heard = (ad.entry :: ad.entries).map fun e => (e.oid, e.name) := by
      unfold heard heardFirst
      rw [hbanner, Option.isNone_none, if_pos rfl, chop_of_ne hfirst, List.map_cons]
      refine congrArg _ (List.map_congr_left fun e he => ?_)
      rw [AdEntry.heard_eq (hlater e he)]
    unfold heardRefs refs
    rw [hheard, List.filter_map, List.map_map]
    rfl
  · unfold heardCaps capsLine
    rw [hbanner, Option.isNone_none, if_pos rfl, chop_lineEnd (capsText_last hcaps)]
    unfold capsText
    rw [splitWhitespace_intercalate fun cap hcap => ⟨(ad.caps_word cap hcap).1, hcaps cap hcap⟩]

/-- Behind a version, the name of the first ref keeps the zero byte, or the capabilities are lost. -/
theorem banner_of_heard (hrefs : (heardRefs ad.heard).Perm ad.refs) (hcaps : ad.heardCaps = ad.caps.toFinset) :
    ad.banner = none := by
  by_contra hbanner
  have hsome : ad.banner.isNone = false := Option.isNone_eq_false_iff.mpr (Option.isSome_iff_ne_none.mpr hbanner)
  have hnone : ad.caps = [] := by
    unfold heardCaps at hcaps
    rw [hsome, if_neg Bool.false_ne_true] at hcaps
    exact List.toFinset_eq_empty_iff _ |>.mp hcaps.symm
  have hname : ad.heardFirst = ad.entry.name ++ [Char.ofNat 0] := by
    have hempty : ad.capsLine = lineEnd ad.entry.lf := by
      unfold capsLine capsText
      rw [hnone]
      rfl
    have hend : chop (chop (lineEnd ad.entry.lf)) = [] := by cases ad.entry.lf <;> decide
    unfold heardFirst
    rw [hsome, if_neg Bool.false_ne_true, hempty, chop_append _ (by decide), chop_append _ (by decide), hend]
  have hplain : isPeeled (ad.entry.name ++ [Char.ofNat 0]) = false := by
    cases hpeeled : isPeeled (ad.entry.name ++ [Char.ofNat 0]) with
    | false => rfl
    | true => exact absurd List.getLast?_concat (isPeeled_last hpeeled).2
  have hmem : (ad.entry.name ++ [Char.ofNat 0], ad.entry.oid) ∈ heardRefs ad.heard :=
    mem_heardRefs.mpr ⟨hname ▸ List.mem_cons_self, hplain⟩
  obtain ⟨e, he, -, hkeeps, -⟩ := mem_refs.mp (hrefs.mem_iff.mp hmem)
  apply ad.nul_free e he
  rw [hkeeps]
  exact List.mem_append_right _ (List.mem_singleton.mpr rfl)

/-- The longest name with a newline at its end is not heard. -/
theorem names_of_heard (hbanner : ad.banner = none) (hrefs : (heardRefs ad.heard).Perm ad.refs) :
    ∀ e ∈ ad.entry :: ad.entries, e.name.getLast? ≠ some '\n' := by
  intro e₀ he₀ hlast₀
  have hfinite : { e | e ∈ ad.entry :: ad.entries ∧ e.name.getLast? = some '\n' }.Finite :=
    (List.finite_toSet (ad.entry :: ad.entries)).subset fun e he => he.1
  obtain ⟨e, ⟨he, hlast⟩, hlongest⟩ := Set.exists_max_image _ (fun e => e.name.length) hfinite ⟨e₀, he₀, hlast₀⟩
  have hplain : isPeeled e.name = false := by
    cases hpeeled : isPeeled e.name with
    | false => rfl
    | true => exact absurd hlast (isPeeled_last hpeeled).1
  have hmem : (e.name, e.oid) ∈ ad.refs := mem_refs.mpr ⟨e, he, hplain, rfl, rfl⟩
  obtain ⟨e', he', hheard⟩ : ∃ e' ∈ ad.entry :: ad.entries, e'.heard = e.name ∨ chop e'.name = e.name := by
    have hin := (mem_heardRefs.mp (hrefs.mem_iff.mpr hmem)).1
    unfold heard heardFirst at hin
    rw [hbanner, Option.isNone_none, if_pos rfl, List.mem_cons, List.mem_map] at hin
    rcases hin with hfirst | ⟨e', he', hlater⟩
    · exact ⟨ad.entry, List.mem_cons_self, .inr (Prod.mk.inj hfirst).2.symm⟩
    · exact ⟨e', List.mem_cons_of_mem _ he', .inl (Prod.mk.inj hlater).2⟩
  by_cases hlast' : e'.name.getLast? = some '\n'
  · have hshorter : e.name.length < e'.name.length := by
      rcases hheard with heq | heq
      · exact heq ▸ AdEntry.length_heard_lt hlast'
      · exact heq ▸ length_chop_lt hlast'
    exact absurd (hlongest e' ⟨he', hlast'⟩) (Nat.not_le.mpr hshorter)
  · rw [AdEntry.heard_eq hlast', chop_of_ne hlast', or_self] at hheard
    exact hlast' (hheard ▸ hlast)

theorem readsBack_iff {stream : List UInt8} (h : ad.write = .ok stream) (rest : List UInt8) :
    ad.ReadsBack stream rest ↔ ad.Plain := by
  unfold ReadsBack
  rw [ad.readAdvertisement_write h rest]
  constructor
  · rintro ⟨refs, heq, hperm, -⟩
    rw [Except.ok.injEq, Prod.mk.injEq, Prod.mk.injEq] at heq
    obtain ⟨⟨rfl, hcaps⟩, -⟩ := heq
    have hrefs := (perm_sortByKey _ _).symm.trans hperm
    have hbanner := banner_of_heard hrefs hcaps
    refine ⟨hbanner, names_of_heard hbanner hrefs, fun cap hcap => ?_⟩
    have hheard : cap ∈ ad.heardCaps := hcaps ▸ List.mem_toFinset.mpr hcap
    unfold heardCaps at hheard
    rw [hbanner, Option.isNone_none, if_pos rfl] at hheard
    exact splitWhitespace_visible (List.mem_toFinset.mp hheard)
  · intro hplain
    obtain ⟨hrefs, hcaps⟩ := heard_of_plain hplain
    rw [hrefs, hcaps]
    exact ⟨_, rfl, perm_sortByKey _ _, pairwise_sortByKey _ _⟩

end Advertised

/-- What is advertised is read back just where no version stands in front, no name ends with a
    newline, and no capability has white space in it. -/
theorem advertisement_readsBack_iff (ad : Advertised) {stream : List UInt8} (h : ad.write = .ok stream)
    (rest : List UInt8) : ad.ReadsBack stream rest ↔ ad.Plain := Advertised.readsBack_iff h rest

/-! ### Three advertisements -/

/-- A ref with its peeled target, out of order with another ref, and two capabilities. -/
def taggedAd : Advertised where
  banner := none
  entry := ⟨⟨List.replicate 20 1, rfl⟩, "refs/tags/v1".toList, true⟩
  entries := [⟨⟨List.replicate 20 2, rfl⟩, "refs/tags/v1^\x7b\x7d".toList, true⟩,
    ⟨⟨List.replicate 20 2, rfl⟩, "refs/heads/main".toList, true⟩]
  caps := ["ofs-delta".toList, "agent=git/2.40".toList]
  caps_word := by simp
  nul_free := by simp
  distinct := by simp

/-- The placeholder of an empty repository. -/
def emptyAd : Advertised where
  banner := none
  entry := ⟨⟨List.replicate 20 0, rfl⟩, "capabilities^\x7b\x7d".toList, true⟩
  entries := []
  caps := ["ofs-delta".toList]
  caps_word := by simp
  nul_free := by simp
  distinct := by simp

/-- A ref behind the version of the protocol. -/
def versionAd : Advertised where
  banner := some (1, true)
  entry := ⟨⟨List.replicate 20 1, rfl⟩, "refs/heads/main".toList, true⟩
  entries := []
  caps := ["ofs-delta".toList]
  caps_word := by simp
  nul_free := by simp
  distinct := by simp

theorem Advertised.Plain.of_all {ad : Advertised} (hbanner : ad.banner = none)
    (hnames : (ad.entry :: ad.entries).all fun e => e.name.getLast? ≠ some '\n')
    (hcaps : ad.caps.all fun cap => cap.all fun c => isWhiteSpace c = false) : ad.Plain :=
  ⟨hbanner, fun e he => of_decide_eq_true (List.all_eq_true.mp hnames e he),
    fun cap hcap c hc => of_decide_eq_true (List.all_eq_true.mp (List.all_eq_true.mp hcaps cap hcap) c hc)⟩

/-- A tag and a branch come back by name, and an empty repository without refs. -/
theorem advertisement_readsBack_two :
    (∃ stream, taggedAd.write = .ok stream ∧ taggedAd.ReadsBack stream []) ∧
      ∃ stream, emptyAd.write = .ok stream ∧ emptyAd.ReadsBack stream [] := by
  have htagged : (taggedAd.write).isOk = true := by decide +kernel
  have hempty : (emptyAd.write).isOk = true := by decide +kernel
  obtain ⟨tagged, htagged⟩ := exists_of_isOk htagged
  obtain ⟨empty, hempty⟩ := exists_of_isOk hempty
  exact ⟨⟨tagged, htagged, (advertisement_readsBack_iff taggedAd htagged []).mpr (.of_all rfl (by decide) (by decide))⟩,
    empty, hempty, (advertisement_readsBack_iff emptyAd hempty []).mpr (.of_all rfl (by decide) (by decide))⟩

/-- Behind the version of the protocol, the first ref is not read back. -/
theorem advertisement_readsBack_fails :
    ¬ ∀ (ad : Advertised) (stream rest : List UInt8), ad.write = .ok stream → ad.ReadsBack stream rest := by
  intro hall
  have hwrite : (versionAd.write).isOk = true := by decide +kernel
  obtain ⟨stream, hwrite⟩ := exists_of_isOk hwrite
  have hplain := (Advertised.readsBack_iff hwrite []).mp (hall versionAd stream [] hwrite)
  exact absurd hplain.1 (Option.some_ne_none _)

end Omoplata
