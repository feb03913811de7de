-- SUMMARY: The HTTP messages of the sync protocol: what each side writes, and what the other side reads of it.
import Omoplata.Cli.Repo
import Omoplata.Cli.Switch
import Omoplata.Drivers.Markers
import Omoplata.Git.Advertisement
import Omoplata.Git.Headers
import Omoplata.Lib.Chunks
import Omoplata.Work.LogFile

/-!
# HTTP messages

A message is a head of lines, an empty line and a body. The server reads from its connection
until the empty line is there, takes the method and the path from the first line and the
length and the bearer token from the others, and then reads on for the body. The client
reads until the server closes, and takes all that follows the empty line for the body.
-/

open Chunks

namespace Omoplata

/-- Why a message cannot be read. -/
inductive HttpError where
  | io (reason : Str)
  | headersCut
  | requestHead
  | noHeaderEnd
  | responseHead
  | statusLine (line : Str)
  deriving DecidableEq

def HttpError.text : HttpError → Str
  | io reason => reason
  | headersCut => "connection closed before headers completed".toList
  | requestHead => "non-utf8 request head".toList
  | noHeaderEnd => "malformed HTTP response (no header end)".toList
  | responseHead => "non-utf8 response head".toList
  | statusLine line => "malformed status line: ".toList ++ line

structure HttpResponse where
  status : Nat
  body : List UInt8
  deriving DecidableEq

structure HttpRequest where
  method : Str
  path : Str
  bearer : Option Str
  body : List UInt8
  deriving DecidableEq

/-- What a socket still has for its reader. -/
abbrev Connection := Conn UInt8 Str

/-! ## Writing -/

/-- The head of a request. -/
def requestHead (authority method path : Str) (length : Nat) (token : Option Str) : Str :=
  let auth := match token with
    | some t => joinTexts ["Authorization: Bearer ".toList, t, "\r\n".toList]
    | none => []
  joinTexts [method, " ".toList, path, " HTTP/1.1\r\nHost: ".toList, authority, "\r\n".toList, auth,
    "Content-Length: ".toList, Nat.toDigits 10 length, "\r\nConnection: close\r\n\r\n".toList]

/-- What the client sends. -/
def requestBytes (authority method path : Str) (body : List UInt8) (token : Option Str) : List UInt8 :=
  utf8 (requestHead authority method path body.length token) ++ body

/-- What the server answers. -/
def writeResponse (status : Nat) (body : List UInt8) (reason : Str) : List UInt8 :=
  utf8 (joinTexts ["HTTP/1.1 ".toList, Nat.toDigits 10 status, " ".toList, reason, "\r\nContent-Length: ".toList,
    Nat.toDigits 10 body.length, "\r\nConnection: close\r\n\r\n".toList]) ++ body

/-! ## Reading -/

/-- An end of line, and another one behind it. -/
def headerEnd : List UInt8 := [13, 10, 13, 10]

/-- The position of the first empty line. -/
def findHeaderEnd (bytes : List UInt8) : Option Nat := findSlice headerEnd bytes

/-- A decimal number, where the type that takes it has room for it. -/
def parseBelow (size : Nat) (s : Str) : Option Nat := (parseUsize s).filter (· < size)

/-- Whether two texts are the same but for the case of ASCII letters. -/
def eqIgnoreAsciiCase (a b : Str) : Bool := a.map Char.toLower == b.map Char.toLower

/-- What the content length and the bearer token are once a line has been read. -/
def readHeader (s : Nat × Option Str) (line : Str) : Nat × Option Str :=
  match splitOnce ':' line with
  | none => s
  | some (k, v) =>
      let k := trim k
      if eqIgnoreAsciiCase k "content-length".toList then ((parseBelow UInt64.size (trim v)).getD 0, s.2)
      else if eqIgnoreAsciiCase k "authorization".toList then (s.1, (stripPrefix "Bearer ".toList (trim v)).map trim)
      else s

/-- The method, the path, the content length and the bearer token in the lines of a head. -/
def readHeadLines (head : List Line) : Str × Str × Nat × Option Str :=
  let parts := splitWhitespace (head.head?.getD [])
  let (contentLength, bearer) := head.tail.foldl readHeader (0, none)
  (parts.head?.getD [], parts.tail.head?.getD [], contentLength, bearer)

/-- Read a request from a connection. -/
def readRequest (conn : Connection) : Except HttpError HttpRequest := do
  let (buf, conn) ← (fill (fun buf => (findHeaderEnd buf).isSome) conn []).mapError .io
  match findHeaderEnd buf with
  | none => .error .headersCut
  | some pos =>
      match fromUtf8 (buf.take pos) with
      | none => .error .requestHead
      | some head => do
          let (method, path, contentLength, bearer) := readHeadLines (textLines head)
          let (body, _) ← (fill (fun body => decide (contentLength ≤ body.length)) conn
            (buf.drop (pos + 4))).mapError .io
          pure ⟨method, path, bearer, body.take contentLength⟩

/-- Read what a server has answered. -/
def parseResponse (raw : List UInt8) : Except HttpError HttpResponse :=
  match findHeaderEnd raw with
  | none => .error .noHeaderEnd
  | some split =>
      match fromUtf8 (raw.take split) with
      | none => .error .responseHead
      | some head =>
          let statusLine := (textLines head).head?.getD []
          match (splitWhitespace statusLine)[1]?.bind (parseBelow UInt16.size) with
          | none => .error (.statusLine statusLine)
          | some status => .ok ⟨status, raw.drop (split + 4)⟩

/-! ## White space around a text -/

/-- A text that neither starts nor ends with white space. -/
structure Trimmed (s : Str) : Prop where
  first : ∀ c ∈ s.head?, isWhiteSpace c = false
  last : ∀ c ∈ s.getLast?, isWhiteSpace c = false

theorem Trimmed.of_all {s : Str} (h : (s.head?.all fun c => !isWhiteSpace c) = true)
    (h' : (s.getLast?.all fun c => !isWhiteSpace c) = true) : Trimmed s := by
  constructor
  · intro c hc
    rw [Option.mem_def.mp hc] at h
    exact (Bool.not_eq_true' _).mp h
  · intro c hc
    rw [Option.mem_def.mp hc] at h'
    exact (Bool.not_eq_true' _).mp h'

/-- White space at both ends is trimmed off, and no more. -/
theorem trim_blank_append {x y s : Str} (hx : Blank x) (hy : Blank y) (h : Trimmed s) : trim (x ++ s ++ y) = s := by
  have hstart : ∀ {z t : Str}, Blank z → (∀ c ∈ t.head?, isWhiteSpace c = false) → trimStart (z ++ t) = t := by
    intro z t hz ht
    have hdrop : trimStart (z ++ t) = trimStart t := List.dropWhile_append_of_pos hz
    rw [hdrop]
    cases t with
    | nil => rfl
    | cons c t => exact trimStart_cons (ht c rfl) t
  have hreverse : Blank y.reverse := fun c hc => hy c (List.mem_reverse.mp hc)
  unfold trim
  cases s with
  | nil =>
      have hblank : Blank (x ++ [] ++ y) := by
        rw [List.append_nil]
        exact List.forall_mem_append.mpr ⟨hx, hy⟩
      have hnil := hstart hblank (t := []) (by simp)
      rw [List.append_nil] at hnil
      rw [hnil]
      rfl
  | cons c s =>
      have hfirst : ∀ d ∈ (c :: s ++ y).head?, isWhiteSpace d = false := h.first
      rw [List.append_assoc, hstart hx hfirst, List.reverse_append, hstart hreverse, List.reverse_reverse]
      rw [List.head?_reverse]
      exact h.last

/-- A text is white space, what is left when it is trimmed, and white space. -/
theorem exists_trimmed (s : Str) : ∃ x m y, s = x ++ m ++ y ∧ Blank x ∧ Blank y ∧ Trimmed m := by
  have hcut : ∀ t : Str, ∃ z u, t = z ++ u ∧ Blank z ∧ ∀ c ∈ u.head?, isWhiteSpace c = false := by
    intro t
    refine ⟨t.takeWhile isWhiteSpace, t.dropWhile isWhiteSpace, List.takeWhile_append_dropWhile.symm,
      fun c hc => List.mem_takeWhile_imp hc, fun c hc => ?_⟩
    have hhead := List.head?_dropWhile_not isWhiteSpace t
    rw [Option.mem_def.mp hc] at hhead
    simpa using hhead
  obtain ⟨x, u, rfl, hx, hu⟩ := hcut s
  obtain ⟨y, m, hm, hy, hlast⟩ := hcut u.reverse
  obtain rfl : u = m.reverse ++ y.reverse := by rw [← List.reverse_append, ← hm, List.reverse_reverse]
  refine ⟨x, m.reverse, y.reverse, (List.append_assoc _ _ _).symm, hx, fun c hc => hy c (List.mem_reverse.mp hc), ?_, ?_⟩
  · intro c hc
    refine hu c ?_
    rw [List.head?_append, Option.mem_def.mp hc]
    rfl
  · intro c hc
    rw [List.getLast?_reverse] at hc
    exact hlast c hc

theorem exists_trim (s : Str) : ∃ x y, s = x ++ trim s ++ y ∧ Blank x ∧ Blank y ∧ Trimmed (trim s) := by
  obtain ⟨x, m, y, rfl, hx, hy, hm⟩ := exists_trimmed s
  rw [trim_blank_append hx hy hm]
  exact ⟨x, y, rfl, hx, hy, hm⟩

theorem trim_space (s : Str) : trim (' ' :: s) = trim s := by
  have hdrop : trimStart (' ' :: s) = trimStart s := List.dropWhile_cons_of_pos (by decide)
  unfold trim
  rw [hdrop]

/-! ## The lines of a head -/

/-- The token that a server hears when a client says one: without the white space around it,
    and nothing where there is nothing else. -/
def heardToken (t : Str) : Option Str := if trim t = [] then none else some (trim t)

theorem trim_bearer (t : Str) :
    (stripPrefix "Bearer ".toList (trim ("Bearer ".toList ++ t))).map trim = heardToken t := by
  obtain ⟨x, y, ht, hx, hy, hm⟩ := exists_trim t
  unfold heardToken
  cases hcore : trim t with
  | nil =>
      -- Nothing is left of the token, and the space before it is trimmed off with it.
      have hblank : Blank (' ' :: t) := by
        rw [hcore, List.append_nil] at ht
        rw [ht]
        exact List.forall_mem_cons.mpr ⟨by decide, List.forall_mem_append.mpr ⟨hx, hy⟩⟩
      have hword : Trimmed "Bearer".toList := .of_all (by decide) (by decide)
      have htrim : trim ("Bearer ".toList ++ t) = "Bearer".toList :=
        trim_blank_append (x := []) (List.forall_mem_nil _) hblank hword
      rw [htrim]
      rfl
  | cons c m =>
      rw [hcore] at ht hm
      have hword : Trimmed ("Bearer ".toList ++ (x ++ c :: m)) := by
        refine ⟨fun d hd => ?_, fun d hd => ?_⟩
        · obtain rfl : 'B' = d := Option.some.inj hd
          decide
        · rw [List.getLast?_append, List.getLast?_append, List.getLast?_cons] at hd
          refine hm.last d ?_
          rw [List.getLast?_cons]
          exact hd
      have htrim : trim ("Bearer ".toList ++ t) = "Bearer ".toList ++ (x ++ c :: m) := by
        have hall := trim_blank_append (x := []) (List.forall_mem_nil _) hy hword
        rwa [List.nil_append, List.append_assoc, ← ht] at hall
      have hstrip : stripPrefix "Bearer ".toList ("Bearer ".toList ++ (x ++ c :: m)) = some (x ++ c :: m) := by
        unfold stripPrefix
        rw [if_pos (List.isPrefixOf_iff_prefix.mpr (List.prefix_append _ _)), List.drop_left]
      have hinner : trim (x ++ c :: m) = c :: m := by
        have hall := trim_blank_append hx (List.forall_mem_nil _) hm (y := [])
        rwa [List.append_nil] at hall
      rw [htrim, hstrip, Option.map_some, hinner, if_neg (List.cons_ne_nil c m)]

theorem readHeader_authorization (s : Nat × Option Str) (t : Str) :
    readHeader s ("Authorization: Bearer ".toList ++ t) = (s.1, heardToken t) := by
  have hsplit : splitOnce ':' ("Authorization: Bearer ".toList ++ t) =
      some ("Authorization".toList, ' ' :: ("Bearer ".toList ++ t)) :=
    splitOnce_append (s := "Authorization".toList) (by decide) _
  have hkey : trim "Authorization".toList = "Authorization".toList := by decide
  have hlength : eqIgnoreAsciiCase "Authorization".toList "content-length".toList = false := by decide
  have hauth : eqIgnoreAsciiCase "Authorization".toList "authorization".toList = true := by decide
  unfold readHeader
  simp only [hsplit, hkey, hlength, hauth, Bool.false_eq_true, if_false, if_true, trim_space, trim_bearer]

theorem parseBelow_toDigits {size n : Nat} (h : n < size) : parseBelow size (Nat.toDigits 10 n) = some n := by
  unfold parseBelow
  rw [parseUsize_toDigits, Option.filter_some_pos (by simpa using h)]

theorem toDigits_visible {n : Nat} {c : Char} (h : c ∈ Nat.toDigits 10 n) : isWhiteSpace c = false := by
  have hdigit := Nat.isDigit_of_mem_toDigits (by decide) (by decide) h
  have hzero : '0'.toNat = 48 := rfl
  have hnine : '9'.toNat = 57 := rfl
  rw [Char.isDigit_iff_toNat, hzero, hnine] at hdigit
  unfold isWhiteSpace
  simp
  omega

theorem readHeader_contentLength (s : Nat × Option Str) {n : Nat} (h : n < UInt64.size) :
    readHeader s ("Content-Length: ".toList ++ Nat.toDigits 10 n) = (n, s.2) := by
  have hsplit : splitOnce ':' ("Content-Length: ".toList ++ Nat.toDigits 10 n) =
      some ("Content-Length".toList, ' ' :: Nat.toDigits 10 n) :=
    splitOnce_append (s := "Content-Length".toList) (by decide) _
  have hkey : trim "Content-Length".toList = "Content-Length".toList := by decide
  have hlength : eqIgnoreAsciiCase "Content-Length".toList "content-length".toList = true := by decide
  unfold readHeader
  simp only [hsplit, hkey, hlength, if_true, trim_space, trim_eq_self fun c hc => toDigits_visible hc,
    parseBelow_toDigits h, Option.getD_some]

/-- A header that is neither the content length nor the authorization is passed over. -/
theorem readHeader_other (s : Nat × Option Str) (key : Str) (hcolon : ':' ∉ key)
    (hlength : eqIgnoreAsciiCase (trim key) "content-length".toList = false)
    (hauth : eqIgnoreAsciiCase (trim key) "authorization".toList = false) (value : Str) :
    readHeader s (key ++ ':' :: value) = s := by
  unfold readHeader
  simp only [splitOnce_append hcolon, hlength, hauth, Bool.false_eq_true, if_false]

/-- The lines of a request's head. -/
def requestLines (authority method path : Str) (length : Nat) (token : Option Str) : List Line :=
  [method ++ ' ' :: (path ++ " HTTP/1.1".toList), "Host: ".toList ++ authority] ++
    (token.toList.map fun t => "Authorization: Bearer ".toList ++ t) ++
    ["Content-Length: ".toList ++ Nat.toDigits 10 length, "Connection: close".toList]

def crlf : Str := "\r\n".toList

theorem requestHead_eq (authority method path : Str) (length : Nat) (token : Option Str) :
    requestHead authority method path length token =
      crlf.intercalate (requestLines authority method path length token) ++ (crlf ++ crlf) := by
  cases token with
  | none => simp [requestHead, requestLines, joinTexts, crlf, List.intercalate_cons_cons]
  | some t => simp [requestHead, requestLines, joinTexts, crlf, List.intercalate_cons_cons]

/-- A word in a request line: it has characters, and no white space. -/
def Word (s : Str) : Prop := s ≠ [] ∧ ∀ c ∈ s, isWhiteSpace c = false

theorem Word.of_all {s : Str} (h : (!s.isEmpty && s.all fun c => !isWhiteSpace c) = true) : Word s := by
  rw [Bool.and_eq_true] at h
  exact ⟨by simpa using h.1, fun c hc => by simpa using List.all_eq_true.mp h.2 c hc⟩

theorem readHeadLines_requestLines (authority : Str) {method path : Str} {length : Nat} (token : Option Str)
    (hmethod : Word method) (hpath : Word path) (hlength : length < UInt64.size) :
    readHeadLines (requestLines authority method path length token) =
      (method, path, length, token.bind heardToken) := by
  have hparts : splitWhitespace (method ++ ' ' :: (path ++ " HTTP/1.1".toList)) =
      [method, path, "HTTP/1.1".toList] := by
    have hwords : ∀ word ∈ [method, path, "HTTP/1.1".toList], Word word :=
      List.forall_mem_cons.mpr ⟨hmethod, List.forall_mem_cons.mpr ⟨hpath,
        List.forall_mem_singleton.mpr (.of_all (by decide))⟩⟩
    have hsplit := splitWhitespace_intercalate hwords
    simpa [List.intercalate_cons_cons] using hsplit
  have hhost : ∀ s, readHeader s ("Host: ".toList ++ authority) = s := fun s =>
    readHeader_other s "Host".toList (by decide) (by decide) (by decide) (' ' :: authority)
  have hclose : ∀ s, readHeader s "Connection: close".toList = s := fun s =>
    readHeader_other s "Connection".toList (by decide) (by decide) (by decide) " close".toList
  have hsize : ∀ s, readHeader s ("Content-Length: ".toList ++ Nat.toDigits 10 length) = (length, s.2) := fun s =>
    readHeader_contentLength s hlength
  cases token with
  | none =>
      unfold readHeadLines requestLines
      simp only [Option.toList_none, List.map_nil, List.append_nil, List.cons_append, List.nil_append, List.head?_cons,
        Option.getD_some, List.tail_cons, List.foldl_cons, List.foldl_nil, hparts, hhost, hclose, hsize]
      rfl
  | some t =>
      unfold readHeadLines requestLines
      simp only [Option.toList_some, List.map_cons, List.map_nil, List.cons_append, List.nil_append, List.head?_cons,
        Option.getD_some, List.tail_cons, List.foldl_cons, List.foldl_nil, hparts, hhost, hclose, hsize,
        readHeader_authorization]
      rfl

theorem utf8_crlf : utf8 crlf = [13, 10] := rfl

/-- The lines of a head are found again. -/
theorem textLines_intercalate {lines : List Line} (h : ∀ line ∈ lines, HeaderLine line) :
    textLines (crlf.intercalate lines) = lines := by
  unfold textLines
  induction lines with
  | nil => rfl
  | cons line lines ih =>
      obtain ⟨⟨hne, hnewline⟩, hlines⟩ := List.forall_mem_cons.mp h
      cases lines with
      | nil =>
          have hlast : ∀ {s : Str}, s ≠ [] → '\n' ∉ s → splitInclusive s = [s] := by
            intro s hs hmem
            induction s with
            | nil => exact absurd rfl hs
            | cons c s ih =>
                obtain ⟨hc, hrest⟩ := not_or.mp (List.mem_cons.not.mp hmem)
                rw [splitInclusive, if_neg (Ne.symm hc)]
                cases s with
                | nil => rfl
                | cons d s => rw [ih (List.cons_ne_nil d s) hrest]
          have hend : line.getLast? ≠ some '\n' := fun heq => hnewline (List.mem_of_getLast? heq)
          rw [List.intercalate_singleton, hlast hne hnewline, List.map_singleton, if_neg hend]
      | cons next lines =>
          have hreturn : '\n' ∉ line ++ ['\r'] := by
            rw [List.mem_append, List.mem_singleton]
            exact not_or.mpr ⟨hnewline, by decide⟩
          have hsplit : crlf.intercalate (line :: next :: lines) =
              (line ++ ['\r']) ++ '\n' :: crlf.intercalate (next :: lines) := by
            rw [List.intercalate_cons_cons]
            simp [crlf]
          rw [hsplit, splitInclusive_line hreturn, List.map_cons, ih hlines]
          simp [stripReturn]

/-- The lines in front of an empty line are passed over when it is looked for. -/
theorem findHeaderEnd_line {line tail : List UInt8} (h : (10 : UInt8) ∉ line) :
    findHeaderEnd (line ++ 13 :: 10 :: tail) =
      if [13, 10] <+: tail then some line.length else (findHeaderEnd tail).map (· + (line.length + 2)) := by
  induction line with
  | nil =>
      have hfront : headerEnd <+: 13 :: 10 :: tail ↔ [13, 10] <+: tail := by
        unfold headerEnd
        rw [List.prefix_cons_inj, List.prefix_cons_inj]
      have hnext : ¬ headerEnd <+: 10 :: tail := fun hpre => by
        cases (List.cons_prefix_cons.mp hpre).1
      unfold findHeaderEnd
      rw [List.nil_append, findSlice]
      simp only [hfront]
      split
      · rfl
      · rw [findSlice, if_neg hnext, Option.map_map]
        rfl
  | cons b line ih =>
      obtain ⟨hb, hline⟩ := not_or.mp (List.mem_cons.not.mp h)
      -- An end of line cannot start here, as the byte that would end it is not in the line.
      have hhere : ¬ headerEnd <+: b :: (line ++ 13 :: 10 :: tail) := fun hpre => by
        have hrest := (List.cons_prefix_cons.mp hpre).2
        cases line with
        | nil => cases (List.cons_prefix_cons.mp hrest).1
        | cons c line => exact hline (List.mem_cons.mpr (.inl (List.cons_prefix_cons.mp hrest).1))
      have hrest := ih hline
      unfold findHeaderEnd at hrest ⊢
      rw [List.cons_append, findSlice, if_neg hhere, hrest]
      split
      · rfl
      · rw [Option.map_map]
        rfl

/-- The bytes of a line do not begin with an end of line. -/
theorem HeaderLine.not_crlf {line : Str} (h : HeaderLine line) (tail : List UInt8) :
    ¬ [13, 10] <+: utf8 line ++ 13 :: tail := by
  obtain ⟨b, bytes, hbytes, -⟩ := h.utf8_eq
  intro hpre
  have hten := newline_not_mem h.2
  rw [hbytes] at hpre hten
  have hrest := (List.cons_prefix_cons.mp hpre).2
  cases bytes with
  | nil => cases (List.cons_prefix_cons.mp hrest).1
  | cons c bytes =>
      have hc : (10 : UInt8) = c := (List.cons_prefix_cons.mp hrest).1
      exact hten (hc ▸ List.mem_cons_of_mem _ List.mem_cons_self)

/-- The first empty line is the one behind the head. -/
theorem findHeaderEnd_head {lines : List Line} (hne : lines ≠ []) (h : ∀ line ∈ lines, HeaderLine line)
    (body : List UInt8) :
    findHeaderEnd (utf8 (crlf.intercalate lines) ++ (headerEnd ++ body)) =
      some (utf8 (crlf.intercalate lines)).length := by
  induction lines with
  | nil => exact absurd rfl hne
  | cons line lines ih =>
      obtain ⟨hline, hlines⟩ := List.forall_mem_cons.mp h
      cases lines with
      | nil =>
          rw [List.intercalate_singleton]
          have hend : [13, 10] <+: 13 :: 10 :: body := ⟨body, rfl⟩
          exact (findHeaderEnd_line (newline_not_mem hline.2)).trans (if_pos hend)
      | cons next lines =>
          have hih := ih (List.cons_ne_nil _ _) hlines
          obtain ⟨tail, htail⟩ : ∃ tail, utf8 (crlf.intercalate (next :: lines)) ++ (headerEnd ++ body) =
              utf8 next ++ 13 :: tail := by
            cases lines with
            | nil =>
                rw [List.intercalate_singleton]
                exact ⟨_, rfl⟩
            | cons last lines =>
                rw [List.intercalate_cons_cons, List.append_assoc, utf8_append, List.append_assoc, utf8_append]
                exact ⟨_, rfl⟩
          have hnext := (hlines next List.mem_cons_self).not_crlf tail
          rw [← htail] at hnext
          have hfound : findHeaderEnd (utf8 line ++
              13 :: 10 :: (utf8 (crlf.intercalate (next :: lines)) ++ (headerEnd ++ body))) = _ :=
            findHeaderEnd_line (newline_not_mem hline.2)
          rw [if_neg hnext, hih] at hfound
          rw [List.intercalate_cons_cons, utf8_append, utf8_append, utf8_crlf, List.append_assoc, List.append_assoc]
          refine hfound.trans ?_
          simp only [Option.map_some, List.length_append, List.length_cons, List.length_nil]
          congr 1
          omega

/-! ## Requests over a connection -/

/-- As much of a body as is said is read, or the whole of it where the client has closed behind it. -/
theorem fill_body {length : Nat} {got left body : List UInt8} {conn rest : Connection}
    (hbody : length ≤ body.length ∨ rest = .closed) (hgot : got ++ left = body) (hleft : Delivers left conn rest) :
    ∃ read conn', fill (fun body => decide (length ≤ body.length)) conn got = .ok (read, conn') ∧
      read.take length = body.take length := by
  by_cases hle : length ≤ body.length
  · obtain ⟨read, left', conn', hfill, hread, hstop, -⟩ :=
      fill_delivers (fun body => decide (length ≤ body.length)) got hleft (by simpa [hgot] using hle)
    refine ⟨read, conn', hfill, ?_⟩
    rw [← hgot, ← hread, List.take_append_of_le_length (by simpa using hstop)]
  · have hclosed := hbody.resolve_left hle
    have hlasting : Lasting fun body : List UInt8 => decide (length ≤ body.length) := fun got more hgot => by
      simp only [decide_eq_true_eq, List.length_append] at hgot ⊢
      omega
    have hfill := fill_short got (hclosed ▸ hleft) hlasting (by simpa [hgot] using hle)
    exact ⟨body, _, hgot ▸ hfill, rfl⟩

section

variable {lines : List Line} (hne : lines ≠ []) (h : ∀ line ∈ lines, HeaderLine line)
variable {method path : Str} {length : Nat} {bearer : Option Str}
variable (hhead : readHeadLines lines = (method, path, length, bearer))

include hne h hhead

/-- A request is read once its head and as much of its body as is said have come, however they are
    cut on the way, or once the client has closed after the head. -/
theorem readRequest_delivers {body : List UInt8} {conn rest : Connection}
    (hbody : length ≤ body.length ∨ rest = .closed)
    (hsent : Delivers (utf8 (crlf.intercalate lines) ++ (headerEnd ++ body)) conn rest) :
    readRequest conn = .ok ⟨method, path, bearer, body.take length⟩ := by
  have hend := findHeaderEnd_head hne h body
  obtain ⟨buf, left, conn', hfill, hbuf, hstop, hleft⟩ :=
    fill_delivers (fun buf => (findHeaderEnd buf).isSome) [] hsent (by simp [hend])
  rw [List.nil_append] at hbuf
  -- What has been read holds the empty line where the whole of it does.
  have hpos : findHeaderEnd buf = some (utf8 (crlf.intercalate lines)).length := by
    obtain ⟨pos, hpos⟩ := Option.isSome_iff_exists.mp hstop
    have hall : findHeaderEnd (buf ++ left) = some pos := findSlice_append hpos left
    rw [hbuf, hend] at hall
    rw [hpos, hall]
  have hroom : (utf8 (crlf.intercalate lines)).length + headerEnd.length ≤ buf.length := findSlice_le hpos
  obtain ⟨got, hgot⟩ : ∃ got, buf = utf8 (crlf.intercalate lines) ++ headerEnd ++ got := by
    have hall : utf8 (crlf.intercalate lines) ++ headerEnd <+: buf ++ left := by
      rw [hbuf, ← List.append_assoc]
      exact List.prefix_append _ _
    have hfront : utf8 (crlf.intercalate lines) ++ headerEnd <+: buf :=
      List.prefix_of_prefix_length_le hall (List.prefix_append _ _) (by rwa [List.length_append])
    exact hfront.imp fun _ heq => heq.symm
  have hrest : got ++ left = body := by
    rw [hgot, List.append_assoc, List.append_assoc, List.append_cancel_left_eq, List.append_cancel_left_eq] at hbuf
    exact hbuf
  have htake : buf.take (utf8 (crlf.intercalate lines)).length = utf8 (crlf.intercalate lines) := by
    rw [hgot, List.append_assoc, List.take_left]
  have hdrop : buf.drop ((utf8 (crlf.intercalate lines)).length + 4) = got := by
    rw [hgot]
    exact List.drop_left' (by simp [headerEnd])
  obtain ⟨read, conn'', hfill', htaken⟩ := fill_body hbody hrest hleft
  unfold readRequest
  simp only [hfill, hpos, htake, fromUtf8_utf8, textLines_intercalate h, hhead, hdrop, hfill', Except.mapError, bind,
    Except.bind, htaken]
  rfl

/-- A request that is cut off in its head is refused, and one that is cut off in its body is taken
    with what has come of it. -/
theorem readRequest_cut {body front back : List UInt8} {conn : Connection}
    (hcut : front ++ back = utf8 (crlf.intercalate lines) ++ (headerEnd ++ body))
    (hsent : Delivers front conn .closed) :
    readRequest conn =
      if front.length < (utf8 (crlf.intercalate lines) ++ headerEnd).length then .error .headersCut
      else .ok ⟨method, path, bearer,
        (front.drop (utf8 (crlf.intercalate lines) ++ headerEnd).length).take length⟩ := by
  split
  · rename_i hshort
    have hend := findHeaderEnd_head hne h body
    have hnone : findHeaderEnd front = none := by
      cases hfound : findHeaderEnd front with
      | none => rfl
      | some pos =>
          have hall : findHeaderEnd (front ++ back) = some pos := findSlice_append hfound back
          rw [hcut, hend, Option.some.injEq] at hall
          have hroom : pos + headerEnd.length ≤ front.length := findSlice_le hfound
          rw [List.length_append] at hshort
          omega
    have hfill := fill_short [] hsent (lasting_findSlice headerEnd) (by simpa [findHeaderEnd] using hnone)
    unfold readRequest
    rw [List.nil_append] at hfill
    unfold findHeaderEnd at hnone ⊢
    simp only [hfill, Except.mapError, bind, Except.bind, hnone]
  · rename_i hlong
    have hall : utf8 (crlf.intercalate lines) ++ headerEnd <+: front ++ back := by
      rw [hcut, ← List.append_assoc]
      exact List.prefix_append _ _
    obtain ⟨got, rfl⟩ := List.prefix_of_prefix_length_le hall (List.prefix_append _ _) (Nat.le_of_not_lt hlong)
    rw [List.drop_left]
    rw [List.append_assoc] at hsent
    exact readRequest_delivers hne h hhead (.inr rfl) hsent

end

theorem Word.not_newline {s : Str} (h : Word s) : '\n' ∉ s := fun hmem =>
  absurd (h.2 _ hmem) (by decide)

theorem requestLines_headerLine {authority method path : Str} {token : Option Str} (length : Nat)
    (hauthority : '\n' ∉ authority) (hmethod : Word method) (hpath : Word path) (htoken : ∀ t ∈ token, '\n' ∉ t) :
    ∀ line ∈ requestLines authority method path length token, HeaderLine line := by
  have hfront : ∀ {s t : Str}, s ≠ [] → '\n' ∉ s → '\n' ∉ t → HeaderLine (s ++ t) := fun hs hs' ht =>
    ⟨fun hnil => hs (List.append_eq_nil_iff.mp hnil).1, fun hmem => (List.mem_append.mp hmem).elim hs' ht⟩
  intro line hline
  unfold requestLines at hline
  rw [List.mem_append, List.mem_append, List.mem_map] at hline
  rcases hline with (hline | ⟨t, ht, rfl⟩) | hline
  · rcases List.mem_cons.mp hline with rfl | hline
    · have hrest : '\n' ∉ ' ' :: (path ++ " HTTP/1.1".toList) := by
        rw [List.mem_cons, List.mem_append]
        exact not_or.mpr ⟨by decide, not_or.mpr ⟨hpath.not_newline, by decide⟩⟩
      exact hfront hmethod.1 hmethod.not_newline hrest
    · rw [List.mem_singleton] at hline
      exact hline ▸ hfront (by decide) (by decide) hauthority
  · exact hfront (by decide) (by decide) (htoken t (Option.mem_toList.mp ht))
  · rcases List.mem_cons.mp hline with rfl | hline
    · refine hfront (by decide) (by decide) fun hmem => ?_
      exact absurd (toDigits_visible hmem) (by decide)
    · rw [List.mem_singleton] at hline
      exact hline ▸ ⟨by decide, by decide⟩

theorem requestLines_ne_nil (authority method path : Str) (length : Nat) (token : Option Str) :
    requestLines authority method path length token ≠ [] := List.cons_ne_nil _ _

theorem utf8_requestHead (authority method path : Str) (length : Nat) (token : Option Str) :
    utf8 (requestHead authority method path length token) =
      utf8 (crlf.intercalate (requestLines authority method path length token)) ++ headerEnd := by
  rw [requestHead_eq, utf8_append]
  rfl

section

variable {authority method path : Str} {token : Option Str} {body : List UInt8}
variable (hauthority : '\n' ∉ authority) (hmethod : Word method) (hpath : Word path)
variable (htoken : ∀ t ∈ token, '\n' ∉ t) (hbody : body.length < UInt64.size)

include hauthority hmethod hpath htoken hbody

/-- A request that is sent whole is read whole, whatever comes behind it. -/
theorem readRequest_sent {conn rest : Connection}
    (hsent : Delivers (requestBytes authority method path body token) conn rest) :
    readRequest conn = .ok ⟨method, path, token.bind heardToken, body⟩ := by
  have hlines := requestLines_headerLine body.length hauthority hmethod hpath htoken
  have hhead := readHeadLines_requestLines authority token hmethod hpath hbody
  unfold requestBytes at hsent
  rw [utf8_requestHead, List.append_assoc] at hsent
  rw [readRequest_delivers (requestLines_ne_nil _ _ _ _ _) hlines hhead (.inl le_rfl) hsent, List.take_length]

/-- What a client sends is what the server reads, however it is cut on the way. Where the client is cut
    off, the server refuses the request if it has not got the head, and takes what it has got of the body
    if it has. -/
theorem request_delivery :
    (∀ conn rest, Delivers (requestBytes authority method path body token) conn rest →
      readRequest conn = .ok ⟨method, path, token.bind heardToken, body⟩) ∧
    ∀ front back conn, front ++ back = requestBytes authority method path body token → Delivers front conn .closed →
      readRequest conn =
        if front.length < (utf8 (requestHead authority method path body.length token)).length then .error .headersCut
        else .ok ⟨method, path, token.bind heardToken,
          front.drop (utf8 (requestHead authority method path body.length token)).length⟩ := by
  refine ⟨fun conn rest hsent => readRequest_sent hauthority hmethod hpath htoken hbody hsent,
    fun front back conn hcut hsent => ?_⟩
  have hlines := requestLines_headerLine body.length hauthority hmethod hpath htoken
  have hhead := readHeadLines_requestLines authority token hmethod hpath hbody
  have hlength := congrArg List.length hcut
  unfold requestBytes at hcut hlength
  rw [utf8_requestHead] at hcut hlength ⊢
  rw [List.append_assoc] at hcut
  rw [readRequest_cut (requestLines_ne_nil _ _ _ _ _) hlines hhead hcut hsent, List.take_of_length_le]
  simp only [List.length_append, List.length_drop] at hlength ⊢
  omega

end

theorem request_delivery_post :
    let sent := requestBytes "host:80".toList "POST".toList "/push".toList [1, 2] (some " key ".toList)
    readRequest (.piece (sent.take 7) (.piece (sent.drop 7) .closed)) =
        .ok ⟨"POST".toList, "/push".toList, some "key".toList, [1, 2]⟩ ∧
      readRequest (.piece (sent.take 7) .closed) = .error .headersCut := by
  intro sent
  have hhost : '\n' ∉ "host:80".toList := by decide
  have hmethod : Word "POST".toList := .of_all (by decide)
  have hpath : Word "/push".toList := .of_all (by decide)
  have htoken : ∀ t ∈ some " key ".toList, '\n' ∉ t := by decide
  have hbody : ([1, 2] : List UInt8).length < UInt64.size := by decide
  obtain ⟨hfull, hcut⟩ := request_delivery hhost hmethod hpath htoken hbody
  have hfirst : sent.take 7 ≠ [] := by decide +kernel
  have hsecond : sent.drop 7 ≠ [] := by decide +kernel
  let whole : Connection := .piece (sent.take 7) (.piece (sent.drop 7) .closed)
  let broken : Connection := .piece (sent.take 7) .closed
  have hsent : Delivers (sent.take 7 ++ (sent.drop 7 ++ [])) whole .closed := .piece hfirst (.piece hsecond .done)
  have hsent' : Delivers (sent.take 7 ++ []) broken .closed := .piece hfirst .done
  rw [List.append_nil, List.take_append_drop] at hsent
  rw [List.append_nil] at hsent'
  refine ⟨?_, ?_⟩
  · have hheard : (some " key ".toList).bind heardToken = some "key".toList := by decide
    rw [hfull _ _ hsent, hheard]
  · have hshort : (sent.take 7).length <
        (utf8 (requestHead "host:80".toList "POST".toList "/push".toList 2 (some " key ".toList))).length := by
      decide +kernel
    exact (hcut _ _ _ (List.take_append_drop 7 sent) hsent').trans (if_pos hshort)

/-! ## Responses -/

theorem splitWhitespace_word {w : Str} (h : Word w) (rest : Str) :
    splitWhitespace (w ++ ' ' :: rest) = w :: splitWhitespace rest := by
  unfold splitWhitespace
  rw [List.splitOnP_append_cons_of_forall_mem h.2 ' ' (by decide), List.filter_cons_of_pos (by simpa using h.1)]

/-- The lines of a response's head. -/
def responseLines (status length : Nat) (reason : Str) : List Line :=
  ["HTTP/1.1 ".toList ++ (Nat.toDigits 10 status ++ ' ' :: reason),
    "Content-Length: ".toList ++ Nat.toDigits 10 length, "Connection: close".toList]

theorem writeResponse_eq (status : Nat) (body : List UInt8) (reason : Str) :
    writeResponse status body reason =
      utf8 (crlf.intercalate (responseLines status body.length reason)) ++ (headerEnd ++ body) := by
  have hhead : ∀ s : Str, utf8 s ++ headerEnd = utf8 (s ++ (crlf ++ crlf)) := fun s => by
    rw [utf8_append]
    rfl
  rw [← List.append_assoc, hhead]
  simp [writeResponse, responseLines, joinTexts, crlf, List.intercalate_cons_cons]

/-- What a server answers is what the client reads. -/
theorem parseResponse_writeResponse {status : Nat} (hstatus : status < UInt16.size) {reason : Str}
    (hreason : '\n' ∉ reason) (body : List UInt8) :
    parseResponse (writeResponse status body reason) = .ok ⟨status, body⟩ := by
  have hdigits : ∀ n, '\n' ∉ Nat.toDigits 10 n := fun n hmem => absurd (toDigits_visible hmem) (by decide)
  have hword : Word (Nat.toDigits 10 status) := ⟨Nat.toDigits_ne_nil, fun c hc => toDigits_visible hc⟩
  have hlines : ∀ line ∈ responseLines status body.length reason, HeaderLine line := by
    refine List.forall_mem_cons.mpr ⟨⟨by simp, ?_⟩, List.forall_mem_cons.mpr ⟨⟨by simp, ?_⟩,
      List.forall_mem_singleton.mpr ⟨by decide, by decide⟩⟩⟩
    · rw [List.mem_append, List.mem_append, List.mem_cons]
      exact not_or.mpr ⟨by decide, not_or.mpr ⟨hdigits status, not_or.mpr ⟨by decide, hreason⟩⟩⟩
    · rw [List.mem_append]
      exact not_or.mpr ⟨by decide, hdigits body.length⟩
  have hstatusLine : (splitWhitespace ((responseLines status body.length reason).head?.getD []))[1]? =
      some (Nat.toDigits 10 status) := by
    have hfirst := splitWhitespace_word (w := "HTTP/1.1".toList) (.of_all (by decide))
      (Nat.toDigits 10 status ++ ' ' :: reason)
    rw [splitWhitespace_word hword] at hfirst
    exact congrArg (fun words => words[1]?) hfirst
  have hdrop : ∀ front : List UInt8, (front ++ (headerEnd ++ body)).drop (front.length + 4) = body := by
    intro front
    rw [← List.append_assoc]
    exact List.drop_left' (by rw [List.length_append]; rfl)
  have hne : responseLines status body.length reason ≠ [] := List.cons_ne_nil _ _
  unfold parseResponse
  rw [writeResponse_eq, findHeaderEnd_head hne hlines body]
  simp only [List.take_left, fromUtf8_utf8, textLines_intercalate hlines, hstatusLine, Option.bind_some,
    parseBelow_toDigits hstatus, hdrop]

end Omoplata
