-- SUMMARY: Frames of the git wire protocol, read back from the bytes they are written as.
import Mathlib.Data.List.Basic
import Omoplata.Git.Headers
import Omoplata.Store.IdText

/-!
# Frames

A message of the wire protocol is a line of frames. A frame is four hexadecimal digits with the
length of the frame, themselves counted, and as many bytes as are left of it. Lengths too small
for a frame mark the end of a section, and one of them is reserved. A stream is the list of the
bytes that have not been read yet.
-/

open Codec

namespace Omoplata

/-- Why something fails on the wire. -/
inductive WireError where
  | wireProto (what : Str)
  | wire (what : Str)
  deriving DecidableEq

/-- A decoded frame: data, or one of the three markers. -/
inductive PktLine where
  | data (payload : List UInt8)
  | flush
  | delim
  | responseEnd
  deriving DecidableEq

def flushPkt : List UInt8 := utf8 "0000".toList

/-- The largest payload of a frame. -/
def maxPayload : Nat := 0xffff - 4

/-! ## Writing -/

/-- A number in hexadecimal, filled up with zeros to four digits. -/
def hex4 (n : Nat) : Str :=
  let digits := Nat.toDigits 16 n
  List.replicate (4 - digits.length) '0' ++ digits

/-- What a writer has received after a frame of data. -/
def writePktLine (w payload : List UInt8) : Except WireError (List UInt8) :=
  if maxPayload < payload.length then .error (.wireProto "pkt-line payload exceeds 65531 bytes".toList)
  else
    let len := payload.length + 4
    .ok (w ++ utf8 (hex4 len) ++ payload)

def writeFlush (w : List UInt8) : List UInt8 := w ++ flushPkt

/-! ## Reading -/

/-- A number from its hexadecimal digits, behind what has been read of it. -/
def fromDigits16 (n : Nat) (digits : Str) : Option Nat :=
  digits.foldlM (fun n c => (hexValue c).map (16 * n + ·)) n

/-- A hexadecimal number, which may start with a plus sign. Numbers have no bound here. -/
def usizeFromRadix16 (s : Str) : Option Nat :=
  let digits := if s.head? = some '+' then s.tail else s
  if digits = [] then none else fromDigits16 0 digits

/-- The length in front of a frame. -/
def parseHex4 (bytes : List UInt8) : Except WireError Nat :=
  match fromUtf8 bytes with
  | none => .error (.wireProto "pkt-line length prefix is not ascii".toList)
  | some s =>
      match usizeFromRadix16 s with
      | none => .error (.wireProto "pkt-line length prefix is not hex".toList)
      | some len => .ok len

/-- The error at the end of a stream. -/
def unexpectedEof : WireError := .wire "unexpected end of stream reading a pkt-line".toList

def readExact (n : Nat) (r : List UInt8) : Except WireError (List UInt8 × List UInt8) :=
  if r.length < n then .error unexpectedEof else .ok (r.take n, r.drop n)

/-- Read what stands behind a length. -/
def readFrame (len : Nat) (r : List UInt8) : Except WireError (PktLine × List UInt8) :=
  match len with
  | 0 => .ok (.flush, r)
  | 1 => .ok (.delim, r)
  | 2 => .ok (.responseEnd, r)
  | 3 => .error (.wireProto "pkt-line: reserved length 3".toList)
  | n + 4 => (readExact n r).map fun (payload, r) => (.data payload, r)

/-- Read a frame. -/
def readPkt (r : List UInt8) : Except WireError (PktLine × List UInt8) := do
  let (header, r) ← readExact 4 r
  let len ← parseHex4 header
  readFrame len r

/-- Read a frame of data, or find the end of the section. -/
def readPktLine (r : List UInt8) : Except WireError (Option (List UInt8) × List UInt8) := do
  let (pkt, r) ← readPkt r
  match pkt with
  | .data payload => pure (some payload, r)
  | .flush | .delim | .responseEnd => pure (none, r)

/-! ## The length of a frame -/

theorem fromDigits16_append (n : Nat) (s t : Str) :
    fromDigits16 n (s ++ t) = (fromDigits16 n s).bind fun m => fromDigits16 m t := List.foldlM_append

theorem fromDigits16_cons (n : Nat) (c : Char) (s : Str) :
    fromDigits16 n (c :: s) = (hexValue c).bind fun v => fromDigits16 (16 * n + v) s := by
  unfold fromDigits16
  rw [List.foldlM_cons]
  cases hexValue c with
  | none => rfl
  | some v => rfl

theorem fromDigits16_eq_some {n m : Nat} {s : Str} (h : fromDigits16 n s = some m) : ∀ c ∈ s, (hexValue c).isSome := by
  induction s generalizing n with
  | nil => exact fun c hc => absurd hc List.not_mem_nil
  | cons c s ih =>
      rw [fromDigits16_cons] at h
      cases hc : hexValue c with
      | none =>
          rw [hc] at h
          cases h
      | some v =>
          rw [hc] at h
          refine List.forall_mem_cons.mpr ⟨by rw [hc]; rfl, ih h⟩

theorem exists_fromDigits16 {s : Str} (h : ∀ c ∈ s, (hexValue c).isSome) (n : Nat) :
    ∃ m, fromDigits16 n s = some m := by
  induction s generalizing n with
  | nil => exact ⟨n, rfl⟩
  | cons c s ih =>
      obtain ⟨hc, hs⟩ := List.forall_mem_cons.mp h
      obtain ⟨v, hv⟩ := Option.isSome_iff_exists.mp hc
      obtain ⟨m, hm⟩ := ih hs (16 * n + v)
      exact ⟨m, by rw [fromDigits16_cons, hv, Option.bind_some, hm]⟩

/-- The digits of a number are read as the number. -/
theorem fromDigits16_toDigits (n : Nat) : fromDigits16 0 (Nat.toDigits 16 n) = some n := by
  have hdigit : ∀ d < 16, hexValue d.digitChar = some d := by decide
  have hlast : ∀ d < 16, ∀ m, fromDigits16 m [d.digitChar] = some (16 * m + d) := fun d hd m => by
    rw [fromDigits16_cons, hdigit d hd]
    rfl
  induction n using Nat.strongRecOn with
  | ind n ih =>
      cases Nat.lt_or_ge n 16 with
      | inl hlt =>
          rw [Nat.toDigits_of_lt_base hlt, hlast n hlt, Nat.mul_zero, Nat.zero_add]
      | inr hle =>
          rw [Nat.toDigits_of_base_le (by decide) hle, fromDigits16_append, ih (n / 16) (by omega), Option.bind_some,
            hlast _ (Nat.mod_lt n (by decide)), Nat.div_add_mod]

theorem fromDigits16_hex4 (n : Nat) : fromDigits16 0 (hex4 n) = some n := by
  have hzeros : ∀ k, fromDigits16 0 (List.replicate k '0') = some 0 := fun k => by
    induction k with
    | zero => rfl
    | succ k ih =>
        rw [List.replicate_succ, fromDigits16_cons]
        exact ih
  unfold hex4
  rw [fromDigits16_append, hzeros, Option.bind_some, fromDigits16_toDigits]

theorem hexValue_of_mem_hex4 {n : Nat} {c : Char} (h : c ∈ hex4 n) : (hexValue c).isSome :=
  fromDigits16_eq_some (fromDigits16_hex4 n) c h

theorem length_hex4 {n : Nat} (h : n < 0x10000) : (hex4 n).length = 4 := by
  have hle : (Nat.toDigits 16 n).length ≤ 4 := (Nat.length_toDigits_le_iff (by decide) (by decide)).mpr h
  unfold hex4
  rw [List.length_append, List.length_replicate, Nat.sub_add_cancel hle]

theorem usizeFromRadix16_hex4 {n : Nat} (h : n < 0x10000) : usizeFromRadix16 (hex4 n) = some n := by
  have hsign : (hex4 n).head? ≠ some '+' := fun hhead =>
    absurd (hexValue_of_mem_hex4 (List.mem_of_head? hhead)) (by decide)
  have hne : hex4 n ≠ [] := List.ne_nil_of_length_eq_add_one (length_hex4 h)
  unfold usizeFromRadix16
  simp only [if_neg hsign, if_neg hne]
  exact fromDigits16_hex4 n

theorem parseHex4_hex4 {n : Nat} (h : n < 0x10000) : parseHex4 (utf8 (hex4 n)) = .ok n := by
  unfold parseHex4
  simp only [fromUtf8_utf8, usizeFromRadix16_hex4 h]

/-! ## Frames -/

theorem readExact_eq_ok {n : Nat} {r front rest : List UInt8} :
    readExact n r = .ok (front, rest) ↔ r = front ++ rest ∧ front.length = n := by
  unfold readExact
  constructor
  · intro h
    split at h
    · cases h
    · rename_i hlong
      cases h
      exact ⟨(List.take_append_drop n r).symm, List.length_take_of_le (Nat.not_lt.mp hlong)⟩
  · rintro ⟨rfl, rfl⟩
    rw [if_neg (by simp), List.take_left, List.drop_left]

theorem readExact_append (front rest : List UInt8) : readExact front.length (front ++ rest) = .ok (front, rest) :=
  readExact_eq_ok.mpr ⟨rfl, rfl⟩

theorem readExact_short {n : Nat} {r : List UInt8} (h : r.length < n) : readExact n r = .error unexpectedEof := if_pos h

/-- A frame is read behind its four digits. -/
theorem readPkt_append {header : List UInt8} (h : header.length = 4) (rest : List UInt8) :
    readPkt (header ++ rest) = parseHex4 header >>= fun len => readFrame len rest := by
  have hheader : readExact 4 (header ++ rest) = .ok (header, rest) := readExact_eq_ok.mpr ⟨rfl, h⟩
  unfold readPkt
  rw [hheader]
  rfl

theorem length_of_readFrame {len : Nat} {r rest : List UInt8} {pkt : PktLine} (h : readFrame len r = .ok (pkt, rest)) :
    rest.length ≤ r.length := by
  unfold readFrame at h
  split at h
  · cases h
    exact le_rfl
  · cases h
    exact le_rfl
  · cases h
    exact le_rfl
  · cases h
  · obtain ⟨⟨payload, afterPayload⟩, hpayload, heq⟩ := map_eq_ok.mp h
    cases heq
    rw [(readExact_eq_ok.mp hpayload).1, List.length_append]
    exact Nat.le_add_left _ _

theorem readPkt_shorter (r : List UInt8) (pkt : PktLine) (rest : List UInt8) (h : readPkt r = .ok (pkt, rest)) :
    rest.length < r.length := by
  unfold readPkt at h
  obtain ⟨⟨header, afterHeader⟩, hheader, hrest⟩ := bind_eq_ok.mp h
  obtain ⟨len, -, hframe⟩ := bind_eq_ok.mp hrest
  obtain ⟨rfl, hlength⟩ := readExact_eq_ok.mp hheader
  have hle := length_of_readFrame hframe
  rw [List.length_append, hlength]
  omega

/-- Reads the frames of a stream. -/
def PktLine.reader : Reader UInt8 PktLine WireError := ⟨readPkt, readPkt_shorter⟩

/-- What is written: a payload that fits into a frame, or the end of a section. -/
inductive Packet where
  | data (payload : List UInt8) (fits : payload.length ≤ maxPayload)
  | flush

namespace Packet

/-- The frame that is read back. -/
def line : Packet → PktLine
  | data payload _ => .data payload
  | flush => .flush

def write (w : List UInt8) : Packet → Except WireError (List UInt8)
  | data payload _ => writePktLine w payload
  | flush => .ok (writeFlush w)

/-- What a writer receives for packets, one after the other. -/
def writeAll (packets : List Packet) : Except WireError (List UInt8) := packets.foldlM write []

/-- The bytes of a packet. -/
def bytes : Packet → List UInt8
  | data payload _ => utf8 (hex4 (payload.length + 4)) ++ payload
  | flush => flushPkt

theorem write_eq (w : List UInt8) (p : Packet) : p.write w = .ok (w ++ p.bytes) := by
  cases p with
  | data payload fits =>
      have hwrite : writePktLine w payload = .ok (w ++ utf8 (hex4 (payload.length + 4)) ++ payload) :=
        if_neg (Nat.not_lt.mpr fits)
      exact hwrite.trans (congrArg Except.ok (List.append_assoc _ _ _))
  | flush => rfl

theorem writeAll_eq (packets : List Packet) : writeAll packets = .ok (packets.flatMap bytes) := by
  have hfold : ∀ w, packets.foldlM write w = .ok (w ++ packets.flatMap bytes) := by
    induction packets with
    | nil => exact fun w => congrArg Except.ok (List.append_nil w).symm
    | cons p packets ih =>
        intro w
        rw [List.foldlM_cons, write_eq, List.flatMap_cons, ← List.append_assoc]
        exact ih _
  exact hfold []

end Packet

theorem utf8_ascii {s : Str} (h : ∀ c ∈ s, c.utf8Size = 1) : utf8 s = s.map fun c => c.val.toUInt8 := by
  induction s with
  | nil => rfl
  | cons c s ih =>
      obtain ⟨hc, hs⟩ := List.forall_mem_cons.mp h
      have hcons : utf8 (c :: s) = String.utf8EncodeChar c ++ utf8 s := rfl
      rw [hcons, String.utf8EncodeChar_eq_singleton hc, ih hs]
      rfl

/-- The length in front of a frame takes four bytes. -/
theorem length_utf8_hex4 {n : Nat} (h : n < 0x10000) : (utf8 (hex4 n)).length = 4 := by
  have hsize : ∀ c ∈ hex4 n, c.utf8Size = 1 := fun c hc => utf8Size_of_radix (.inl (hexValue_of_mem_hex4 hc))
  rw [utf8_ascii hsize, List.length_map, length_hex4 h]

/-- Behind a length, a frame is as many bytes as are left of it. -/
theorem readPkt_header {n : Nat} (h : n + 4 < 0x10000) (rest : List UInt8) :
    readPkt (utf8 (hex4 (n + 4)) ++ rest) = (readExact n rest).map fun (payload, r) => (.data payload, r) := by
  rw [readPkt_append (length_utf8_hex4 h), parseHex4_hex4 h]
  rfl

theorem fits_frame {payload : List UInt8} (fits : payload.length ≤ maxPayload) : payload.length + 4 < 0x10000 :=
  Nat.lt_succ_of_le (Nat.add_le_add_right fits 4)

/-- A packet is read back in front of anything else. -/
theorem readPkt_bytes (p : Packet) (rest : List UInt8) : readPkt (p.bytes ++ rest) = .ok (p.line, rest) := by
  cases p with
  | data payload fits =>
      unfold Packet.bytes
      rw [List.append_assoc, readPkt_header (fits_frame fits), readExact_append]
      rfl
  | flush =>
      have hparse : parseHex4 flushPkt = .ok 0 := by decide +kernel
      have hread := readPkt_append (show flushPkt.length = 4 by decide) rest
      rw [hparse] at hread
      exact hread

/-- A stream that ends inside a frame is refused there. -/
theorem readPkt_take {p : Packet} {k : Nat} (h : k < p.bytes.length) :
    readPkt (p.bytes.take k) = .error unexpectedEof := by
  cases Nat.lt_or_ge k 4 with
  | inl hheader =>
      have hshort : (p.bytes.take k).length < 4 := (List.length_take_le k _).trans_lt hheader
      unfold readPkt
      rw [readExact_short hshort]
      rfl
  | inr hpayload =>
      cases p with
      | data payload fits =>
          have hlength := length_utf8_hex4 (fits_frame fits)
          unfold Packet.bytes at h ⊢
          rw [List.length_append, hlength] at h
          have hshort : (payload.take (k - 4)).length < payload.length := by
            rw [List.length_take]
            omega
          rw [List.take_append, hlength, List.take_of_length_le (hlength.trans_le hpayload),
            readPkt_header (fits_frame fits), readExact_short hshort]
          rfl
      | flush => exact absurd h (Nat.not_lt.mpr hpayload)

/-- Packets are read back from what is written for them, and nothing else is. A stream that is cut
    inside a frame gives the packets before it, and then an error. -/
theorem pkt_framing (packets : List Packet) :
    ∃ stream, Packet.writeAll packets = .ok stream ∧
      PktLine.reader.run stream = (packets.map Packet.line, none) ∧
      ∀ earlier p later before upTo m, packets = earlier ++ p :: later → Packet.writeAll earlier = .ok before →
        Packet.writeAll (earlier ++ [p]) = .ok upTo → before.length < m → m < upTo.length →
        PktLine.reader.run (stream.take m) = (earlier.map Packet.line, some unexpectedEof) := by
  have hrun := Reader.run_write (r := PktLine.reader) readPkt_bytes
  refine ⟨_, Packet.writeAll_eq packets, ?_, ?_⟩
  · have hall := hrun packets []
    rwa [List.append_nil, Reader.run_nil, List.append_nil] at hall
  · intro earlier p later before upTo m hpackets hbefore hupTo hinside hend
    rw [Packet.writeAll_eq] at hbefore hupTo
    cases hbefore
    cases hupTo
    rw [List.flatMap_append, List.length_append, List.flatMap_singleton] at hend
    obtain ⟨k, rfl⟩ := Nat.exists_eq_add_of_lt hinside
    have hk : k + 1 < p.bytes.length := by omega
    -- what is left of the frame that is cut
    have hcut : (packets.flatMap Packet.bytes).take ((earlier.flatMap Packet.bytes).length + k + 1) =
        earlier.flatMap Packet.bytes ++ p.bytes.take (k + 1) := by
      rw [hpackets, List.flatMap_append, Nat.add_assoc, List.take_length_add_append, List.flatMap_cons,
        List.take_append_of_le_length hk.le]
    have hne : p.bytes.take (k + 1) ≠ [] := by
      rw [← List.length_pos_iff, List.length_take_of_le hk.le]
      exact Nat.succ_pos k
    rw [hcut, hrun, PktLine.reader.run_of_error hne (readPkt_take hk), List.append_nil]

/-- A frame of nothing, one that looks like the end of a section, and the end of it. -/
theorem pkt_framing_three :
    let packets := [.data [] (by decide), .data flushPkt (by decide), Packet.flush]
    PktLine.reader.run (utf8 "000400080000".toList ++ flushPkt) = (packets.map Packet.line, none) ∧
      PktLine.reader.run (utf8 "0004000800".toList) = ([.data []], some unexpectedEof) := by
  intro packets
  obtain ⟨stream, hwrite, hrun, hcut⟩ := pkt_framing packets
  have hstream : Packet.writeAll packets = .ok (utf8 "000400080000".toList ++ flushPkt) := by decide +kernel
  rw [hstream] at hwrite
  cases hwrite
  refine ⟨hrun, ?_⟩
  exact hcut [.data [] (by decide)] (.data flushPkt (by decide)) [.flush] (utf8 "0004".toList)
    (utf8 "000400080000".toList) 10 rfl (by decide +kernel) (by decide +kernel) (by decide) (by decide)

end Omoplata
