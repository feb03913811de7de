-- SUMMARY: The headers and the message that a commit is written with are those it is read with.
import Omoplata.Git.Lossy

/-!
# Headers of a commit

A commit is written line by line: its tree, its parents, who wrote it and who committed it, and
any further headers, whose values may go on over lines that start with a space. An empty line
ends the headers, and the message follows. No line of a header is empty, so the first empty line
is the one in front of the message, and no continuation is taken for a header of its own.
-/

open Codec

namespace Omoplata

/-- A text without an end of line. -/
abbrev OneLine := { s : Str // '\n' ∉ s }

/-- The keys that are read into fields. -/
def commitKeys : List Str := ["tree".toList, "parent".toList, "author".toList, "committer".toList]

/-- A header that is not read into a field, such as a signature or an embedded tag. -/
structure ExtraHeader where
  key : Str
  key_ne : key ≠ []
  key_word : ' ' ∉ key ∧ '\n' ∉ key
  key_other : key ∉ commitKeys
  value : Option OneLine
  continuation : List OneLine

/-- What a commit is written from. -/
structure CommitText where
  tree : GitOid
  parents : List GitOid
  author : OneLine
  committer : OneLine
  extra : List ExtraHeader
  message : List UInt8

namespace ExtraHeader

/-- The line with the key. A header may have no value at all. -/
def firstLine (h : ExtraHeader) : Str := h.key ++ h.value.elim [] (' ' :: ·.val)

def lines (h : ExtraHeader) : List Str := h.firstLine :: h.continuation.map (' ' :: ·.val)

/-- The value with its continuation folded in. -/
def folded (h : ExtraHeader) : Str := h.value.elim [] (·.val) ++ h.continuation.flatMap ('\n' :: ·.val)

end ExtraHeader

namespace CommitText

/-- The lines of the headers that every commit has. -/
def fieldLines (c : CommitText) : List Str :=
  ("tree ".toList ++ c.tree.hex) :: (c.parents.map ("parent ".toList ++ ·.hex) ++
    ["author ".toList ++ c.author.val, "committer ".toList ++ c.committer.val])

def lines (c : CommitText) : List Str := c.fieldLines ++ c.extra.flatMap ExtraHeader.lines

/-- The body: every line with its end, an empty line, and the message. -/
def body (c : CommitText) : List UInt8 := utf8 (c.lines.flatMap (· ++ ['\n']) ++ ['\n']) ++ c.message

end CommitText

/-! ## Finding the message -/

theorem splitHeaders_append {front : List UInt8} (h : 0x0a ∉ front) (rest : List UInt8) :
    splitHeaders (front ++ 0x0a :: rest) =
      (front ++ (splitHeaders (0x0a :: rest)).1, (splitHeaders (0x0a :: rest)).2) := by
  induction front with
  | nil => rfl
  | cons b front ih =>
      rw [List.mem_cons, not_or] at h
      cases front with
      | nil =>
          rw [List.singleton_append, splitHeaders, if_neg fun heq => h.1 heq.1.symm]
          rfl
      | cons c front =>
          rw [List.cons_append, List.cons_append, splitHeaders, if_neg fun heq => h.1 heq.1.symm, ← List.cons_append,
            ih h.2]
          rfl

theorem splitHeaders_line {rest : List UInt8} {b : UInt8} (h : b ≠ 0x0a) :
    splitHeaders (0x0a :: b :: rest) = (0x0a :: (splitHeaders (b :: rest)).1, (splitHeaders (b :: rest)).2) := by
  rw [splitHeaders, if_neg fun heq => h heq.2]

theorem splitHeaders_end (message : List UInt8) : splitHeaders (0x0a :: 0x0a :: message) = ([], message) := by
  rw [splitHeaders, if_pos ⟨rfl, rfl⟩]

/-- A line of the header block. -/
def HeaderLine (line : Str) : Prop := line ≠ [] ∧ '\n' ∉ line

instance (line : Str) : Decidable (HeaderLine line) := by unfold HeaderLine; infer_instance

theorem newline_not_mem {line : Str} (h : '\n' ∉ line) : (0x0a : UInt8) ∉ utf8 line :=
  not_mem_utf8 (by decide) (by decide) h

theorem utf8_append (s t : Str) : utf8 (s ++ t) = utf8 s ++ utf8 t := List.flatMap_append

/-- The bytes of a line do not begin with an end of line. -/
theorem HeaderLine.utf8_eq {line : Str} (h : HeaderLine line) : ∃ b bytes, utf8 line = b :: bytes ∧ b ≠ 0x0a := by
  cases line with
  | nil => exact absurd rfl h.1
  | cons c line =>
      have hcons : utf8 (c :: line) = String.utf8EncodeChar c ++ utf8 line := rfl
      cases hchar : String.utf8EncodeChar c with
      | nil => exact absurd hchar String.utf8EncodeChar_ne_nil
      | cons b bytes =>
          refine ⟨b, bytes ++ utf8 line, by rw [hcons, hchar, List.cons_append], ?_⟩
          rintro rfl
          apply newline_not_mem h.2
          rw [hcons, hchar]
          exact List.mem_cons_self

theorem utf8_newline (s : Str) : utf8 ('\n' :: s) = 0x0a :: utf8 s := rfl

/-- The headers are split from the message at the empty line behind the last of them. -/
theorem splitHeaders_lines {lines : List Str} (hne : lines ≠ []) (h : ∀ line ∈ lines, HeaderLine line)
    (message : List UInt8) :
    splitHeaders (utf8 (lines.flatMap (· ++ ['\n']) ++ ['\n']) ++ message) =
      (utf8 (['\n'].intercalate lines), message) := by
  induction lines with
  | nil => exact absurd rfl hne
  | cons line lines ih =>
      obtain ⟨hline, hlines⟩ := List.forall_mem_cons.mp h
      have hsplit := splitHeaders_append (newline_not_mem hline.2)
      simp only [List.flatMap_cons, List.append_assoc, utf8_append line, List.nil_append, utf8_newline,
        List.cons_append, hsplit]
      cases lines with
      | nil =>
          have hend := splitHeaders_end message
          simp only [List.flatMap_nil, List.nil_append, utf8_newline]
          rw [List.intercalate_singleton, show utf8 [] = [] from rfl, List.cons_append, List.nil_append, hend,
            List.append_nil]
      | cons next lines =>
          obtain ⟨b, bytes, hnext, hb⟩ := (hlines next List.mem_cons_self).utf8_eq
          have hrest := ih (List.cons_ne_nil _ _) hlines
          obtain ⟨tail, htail⟩ : ∃ tail,
              utf8 ((next :: lines).flatMap (· ++ ['\n']) ++ ['\n']) ++ message = b :: tail := by
            simp only [List.flatMap_cons, utf8_append, hnext, List.cons_append]
            exact ⟨_, rfl⟩
          rw [htail, splitHeaders_line hb, ← htail, hrest, List.intercalate_cons_cons, List.append_assoc, utf8_append,
            List.singleton_append, utf8_newline]

/-! ## Reading the headers -/

theorem addHeaderLine_continuation (headers : List (Str × Str)) (key value cont : Str) :
    addHeaderLine (headers ++ [(key, value)]) (' ' :: cont) = headers ++ [(key, value ++ '\n' :: cont)] := by
  unfold addHeaderLine
  simp

theorem addHeaderLine_eq {line : Str} (h : line.head? ≠ some ' ') (headers : List (Str × Str)) :
    addHeaderLine headers line = headers ++ [(splitOnce ' ' line).getD (line, [])] := by
  unfold addHeaderLine
  split
  · exact absurd rfl h
  · rfl

/-- Continuation lines are folded into the value before them. -/
theorem foldl_continuation (headers : List (Str × Str)) (key value : Str) (continuation : List OneLine) :
    (continuation.map (' ' :: ·.val)).foldl addHeaderLine (headers ++ [(key, value)]) =
      headers ++ [(key, value ++ continuation.flatMap ('\n' :: ·.val))] := by
  induction continuation generalizing value with
  | nil => rw [List.map_nil, List.foldl_nil, List.flatMap_nil, List.append_nil]
  | cons cont continuation ih =>
      rw [List.map_cons, List.foldl_cons, addHeaderLine_continuation, ih, List.flatMap_cons, List.append_assoc]

theorem head?_ne_space {key rest : Str} (hne : key ≠ []) (h : ' ' ∉ key) : (key ++ rest).head? ≠ some ' ' := by
  cases key with
  | nil => exact absurd rfl hne
  | cons c key =>
      intro heq
      cases heq
      exact h List.mem_cons_self

/-- A line with a key and a value adds a header. -/
theorem addHeaderLine_field (key : Str) (hne : key ≠ []) (h : ' ' ∉ key) (headers : List (Str × Str)) (value : Str) :
    addHeaderLine headers (key ++ ' ' :: value) = headers ++ [(key, value)] := by
  rw [addHeaderLine_eq (head?_ne_space hne h), splitOnce_append h]
  rfl

namespace ExtraHeader

variable (e : ExtraHeader)

theorem addHeaderLine_firstLine (headers : List (Str × Str)) :
    addHeaderLine headers e.firstLine = headers ++ [(e.key, e.value.elim [] (·.val))] := by
  unfold firstLine
  cases e.value with
  | none =>
      have hhead : (e.key ++ []).head? ≠ some ' ' := head?_ne_space e.key_ne e.key_word.1
      rw [Option.elim_none, addHeaderLine_eq hhead, List.append_nil, splitOnce_eq_none_iff.mpr e.key_word.1]
      rfl
  | some value => exact addHeaderLine_field e.key e.key_ne e.key_word.1 headers value.val

/-- A further header is read with its continuation folded in. -/
theorem foldl_lines (headers : List (Str × Str)) :
    e.lines.foldl addHeaderLine headers = headers ++ [(e.key, e.folded)] := by
  unfold lines folded
  rw [List.foldl_cons, addHeaderLine_firstLine, foldl_continuation]

theorem headerLine {line : Str} (h : line ∈ e.lines) : HeaderLine line := by
  unfold lines firstLine at h
  rw [List.mem_cons, List.mem_map] at h
  rcases h with rfl | ⟨cont, -, rfl⟩
  · refine ⟨fun hnil => e.key_ne (List.append_eq_nil_iff.mp hnil).1, ?_⟩
    rw [List.mem_append, not_or]
    refine ⟨e.key_word.2, ?_⟩
    cases e.value with
    | none => exact List.not_mem_nil
    | some value => simpa using value.property
  · exact ⟨List.cons_ne_nil _ _, by simpa using cont.property⟩

end ExtraHeader

theorem GitOid.mem_hex {oid : GitOid} {c : Char} (h : c ∈ oid.hex) : c ∈ "0123456789abcdef".toList := by
  have hdigit : ∀ n < 16, hexDigit n ∈ "0123456789abcdef".toList := by decide
  unfold GitOid.hex hexEncode at h
  obtain ⟨b, -, hc⟩ := List.mem_flatMap.mp h
  have hlt : b.toNat < 256 := b.toNat_lt
  rw [List.mem_cons, List.mem_singleton] at hc
  obtain rfl | rfl := hc
  · exact hdigit _ (by omega)
  · exact hdigit _ (by omega)

/-- The digits of an id are no white space. -/
theorem GitOid.hex_visible {oid : GitOid} {c : Char} (h : c ∈ oid.hex) : isWhiteSpace c = false ∧ c ≠ '\n' := by
  have hall : "0123456789abcdef".toList.all (fun c => isWhiteSpace c = false ∧ c ≠ '\n') := by decide
  exact of_decide_eq_true (List.all_eq_true.mp hall c (mem_hex h))

theorem trim_eq_self {s : Str} (h : ∀ c ∈ s, isWhiteSpace c = false) : trim s = s := by
  have hstart : ∀ t : Str, (∀ c ∈ t, isWhiteSpace c = false) → trimStart t = t := fun t ht => by
    unfold trimStart
    cases t with
    | nil => rfl
    | cons c t => rw [List.dropWhile_cons_of_neg (by simp [ht c List.mem_cons_self])]
  unfold trim
  rw [hstart s h, hstart s.reverse fun c hc => h c (List.mem_reverse.mp hc), List.reverse_reverse]

theorem headerOid_hex (oid : GitOid) (what : Str) : headerOid oid.hex what = .ok oid := by
  unfold headerOid
  rw [trim_eq_self fun c hc => (GitOid.hex_visible hc).1, GitOid.fromHex_hex]
  rfl

namespace GitCommit

theorem addHeader_tree (f : Fields) (oid : GitOid) :
    addHeader f ("tree".toList, oid.hex) = .ok { f with tree := some oid } := by
  unfold addHeader
  simp only [headerOid_hex]
  rfl

theorem addHeader_parent (f : Fields) (oid : GitOid) :
    addHeader f ("parent".toList, oid.hex) = .ok { f with parents := f.parents ++ [oid] } := by
  unfold addHeader
  simp only [headerOid_hex]
  rfl

theorem addHeader_other {key : Str} (h : key ∉ commitKeys) (f : Fields) (value : Str) :
    addHeader f (key, value) = .ok f := by
  simp only [commitKeys, List.mem_cons, not_or] at h
  unfold addHeader
  simp only [if_neg h.1, if_neg h.2.1, if_neg h.2.2.1, if_neg h.2.2.2.1]
  rfl

theorem foldlM_parents (parents : List GitOid) (f : Fields) :
    (parents.map fun oid => ("parent".toList, oid.hex)).foldlM addHeader f =
      .ok { f with parents := f.parents ++ parents } := by
  induction parents generalizing f with
  | nil =>
      rw [List.append_nil]
      rfl
  | cons oid parents ih =>
      rw [List.map_cons, List.foldlM_cons, addHeader_parent]
      refine (ih _).trans ?_
      simp only [List.append_assoc, List.singleton_append]

theorem foldlM_extra (extra : List ExtraHeader) (f : Fields) :
    (extra.map fun e => (e.key, e.folded)).foldlM addHeader f = .ok f := by
  induction extra with
  | nil => rfl
  | cons e extra ih =>
      rw [List.map_cons, List.foldlM_cons, addHeader_other e.key_other]
      exact ih

end GitCommit

namespace CommitText

variable (c : CommitText)

/-- The headers as they are read. -/
def headers : List (Str × Str) :=
  ("tree".toList, c.tree.hex) :: (c.parents.map (fun oid => ("parent".toList, oid.hex)) ++
    [("author".toList, c.author.val), ("committer".toList, c.committer.val)] ++
    c.extra.map fun e => (e.key, e.folded))

theorem headerLine {line : Str} (h : line ∈ c.lines) : HeaderLine line := by
  have hfield : ∀ (key value : Str), HeaderLine key → '\n' ∉ value → HeaderLine (key ++ value) :=
    fun key value hkey hvalue => ⟨fun hnil => hkey.1 (List.append_eq_nil_iff.mp hnil).1,
      fun hmem => (List.mem_append.mp hmem).elim hkey.2 hvalue⟩
  have hhex : ∀ oid : GitOid, '\n' ∉ oid.hex := fun oid hmem => (GitOid.hex_visible hmem).2 rfl
  unfold lines fieldLines at h
  simp only [List.cons_append, List.mem_cons, List.mem_append, List.mem_map, List.mem_flatMap, List.not_mem_nil,
    or_false] at h
  rcases h with rfl | (⟨oid, -, rfl⟩ | rfl | rfl) | ⟨e, -, he⟩
  · exact hfield _ _ (by decide) (hhex c.tree)
  · exact hfield _ _ (by decide) (hhex oid)
  · exact hfield _ _ (by decide) c.author.property
  · exact hfield _ _ (by decide) c.committer.property
  · exact e.headerLine he

theorem foldl_parents (parents : List GitOid) (headers : List (Str × Str)) :
    (parents.map ("parent ".toList ++ ·.hex)).foldl addHeaderLine headers =
      headers ++ parents.map fun oid => ("parent".toList, oid.hex) := by
  induction parents generalizing headers with
  | nil => exact (List.append_nil _).symm
  | cons oid parents ih =>
      have hline : addHeaderLine headers ("parent ".toList ++ oid.hex) = headers ++ [("parent".toList, oid.hex)] :=
        addHeaderLine_field "parent".toList (by decide) (by decide) headers oid.hex
      rw [List.map_cons, List.foldl_cons, hline, ih, List.map_cons, List.append_assoc, List.singleton_append]

theorem foldl_extra (extra : List ExtraHeader) (headers : List (Str × Str)) :
    (extra.flatMap ExtraHeader.lines).foldl addHeaderLine headers =
      headers ++ extra.map fun e => (e.key, e.folded) := by
  induction extra generalizing headers with
  | nil => exact (List.append_nil _).symm
  | cons e extra ih =>
      rw [List.flatMap_cons, List.foldl_append, e.foldl_lines, ih, List.map_cons, List.append_assoc,
        List.singleton_append]

/-- The header block is read line by line. -/
theorem parseHeaders_block : parseHeaders (utf8 (['\n'].intercalate c.lines)) = .ok c.headers := by
  have htree : addHeaderLine [] ("tree ".toList ++ c.tree.hex) = [] ++ [("tree".toList, c.tree.hex)] :=
    addHeaderLine_field "tree".toList (by decide) (by decide) [] c.tree.hex
  have hauthor : ∀ headers, addHeaderLine headers ("author ".toList ++ c.author.val) =
      headers ++ [("author".toList, c.author.val)] :=
    fun headers => addHeaderLine_field "author".toList (by decide) (by decide) headers c.author.val
  have hcommitter : ∀ headers, addHeaderLine headers ("committer ".toList ++ c.committer.val) =
      headers ++ [("committer".toList, c.committer.val)] :=
    fun headers => addHeaderLine_field "committer".toList (by decide) (by decide) headers c.committer.val
  have hlines : (['\n'].intercalate c.lines).splitOn '\n' = c.lines :=
    List.splitOn_intercalate '\n' (fun line hline => (c.headerLine hline).2) (List.cons_ne_nil _ _)
  unfold parseHeaders
  simp only [fromUtf8_utf8, hlines]
  unfold lines fieldLines headers
  simp only [List.foldl_append, List.foldl_cons, List.foldl_nil, htree, foldl_parents, hauthor, hcommitter, foldl_extra]
  simp

theorem foldlM_headers :
    c.headers.foldlM GitCommit.addHeader ⟨none, [], [], []⟩ =
      .ok ⟨some c.tree, c.parents, c.author.val, c.committer.val⟩ := by
  unfold headers
  rw [List.foldlM_cons, GitCommit.addHeader_tree]
  refine bind_eq_ok.mpr ⟨_, rfl, ?_⟩
  rw [List.foldlM_append]
  refine bind_eq_ok.mpr ⟨_, ?_, GitCommit.foldlM_extra c.extra _⟩
  rw [List.foldlM_append]
  exact bind_eq_ok.mpr ⟨_, GitCommit.foldlM_parents c.parents _, rfl⟩

theorem parse_body :
    GitCommit.parse c.body =
      .ok ⟨c.tree, c.parents, c.author.val, c.committer.val, fromUtf8Lossy c.message, c.body⟩ := by
  have hsplit : splitHeaders c.body = (utf8 (['\n'].intercalate c.lines), c.message) :=
    splitHeaders_lines (List.cons_ne_nil _ _) (fun _ => c.headerLine) c.message
  unfold GitCommit.parse
  rw [hsplit]
  refine bind_eq_ok.mpr ⟨_, c.parseHeaders_block, bind_eq_ok.mpr ⟨_, c.foldlM_headers, rfl⟩⟩

end CommitText

/-- A commit is read with the tree, the parents, the identities and the message it is written with,
    and is written as the same body again. -/
theorem commit_headers_recovered (c : CommitText) :
    ∃ commit, GitCommit.parse c.body = .ok commit ∧
      commit.tree = c.tree ∧ commit.parents = c.parents ∧
      commit.author = c.author.val ∧ commit.committer = c.committer.val ∧
      commit.message = fromUtf8Lossy c.message ∧ (∀ text, c.message = utf8 text → commit.message = text) ∧
      (GitObject.commit commit).encode =
        utf8 "commit".toList ++ 0x20 :: (utf8 (Nat.toDigits 10 c.body.length) ++ 0 :: c.body) := by
  refine ⟨_, c.parse_body, rfl, rfl, rfl, rfl, rfl, fun text htext => ?_, rfl⟩
  rw [htext]
  exact fromUtf8Lossy_utf8 text

end Omoplata
