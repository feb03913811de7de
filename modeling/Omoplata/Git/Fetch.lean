-- SUMMARY: Cloning a repository over a local connection, from any server and from one that answers.
import Omoplata.Git.Advertisement
import Omoplata.Git.Passes
import Omoplata.Git.Reproduce

/-!
# Fetching

The client hears the refs of a server, asks for all of their ids at once, and takes what follows
the acknowledgement for a packfile. The server is a child that is talked to through pipes: it says
something first, and goes on when it has heard the request. Nothing else is known of it, so what a
clone has is what the client has checked.
-/

open Codec Relation Walk

namespace Omoplata

/-! ## The server -/

/-- The program that is run for a server, under either of its names. -/
inductive UploadPack where
  | subcommand
  | dashed

/-- Why a program is not run. -/
inductive SpawnError where
  | notFound (text : Str)
  | other (text : Str)

def SpawnError.text : SpawnError → Str
  | .notFound text => text
  | .other text => text

structure ExitStatus where
  success : Bool
  text : Str

/-- A child as its pipes show it: what it says first, what it says to a request unless it hangs up, and how it ends. -/
structure Child where
  greeting : List UInt8
  hear : List UInt8 → Except Str (List UInt8)
  wait : List UInt8 → Except Str ExitStatus

/-- Why a fetch ends early. -/
inductive FetchStop where
  | wire (e : WireError)
  | git (e : ImportStop)

/-- Run the server's side for a directory, under its other name where there is no `git`. -/
def spawnUploadPack (run : UploadPack → Str → Except SpawnError Child) (dir : Str) : Except WireError Child :=
  match run .subcommand dir with
  | .ok child => .ok child
  | .error (.notFound _) =>
      match run .dashed dir with
      | .ok child => .ok child
      | .error e => .error (.wire ("could not spawn `git upload-pack` or `git-upload-pack`: ".toList ++ e.text))
  | .error (.other text) => .error (.wire ("could not spawn `git upload-pack`: ".toList ++ text))

/-- Wait for the end of a child that has heard a request. -/
def Child.reap (child : Child) (heard : List UInt8) : Except WireError Unit :=
  match child.wait heard with
  | .error e => .error (.wire ("waiting for upload-pack: ".toList ++ e))
  | .ok status =>
      if status.success then .ok () else .error (.wire ("upload-pack exited with ".toList ++ status.text))

/-- The path of a repository, from a `file://` URL or as it is. -/
def resolveLocalPath (urlOrPath : Str) : Str :=
  match urlOrPath.dropPrefix? "file://".toList with
  | some rest => (rest.dropPrefix? "localhost".toList).getD rest
  | none => urlOrPath

/-! ## The request -/

/-- The distinct ids of refs, in the order of the refs. -/
def wantOids (refs : List (Str × GitOid)) : List GitOid :=
  refs.foldl (fun wants r => if r.2 ∈ wants then wants else wants ++ [r.2]) []

/-- The capabilities to ask for. -/
def negotiatedCapabilities (serverCaps : Finset Str) : List Str :=
  if "ofs-delta".toList ∈ serverCaps then ["ofs-delta".toList] else []

/-- The line that asks for an id. -/
def wantLine (caps : List Str) (oid : GitOid) : Str :=
  if caps = [] then "want ".toList ++ oid.hex ++ ['\n']
  else "want ".toList ++ oid.hex ++ ' ' :: [' '].intercalate caps ++ ['\n']

/-- The lines that ask for ids, with the capabilities on the first of them. -/
def wantLines (caps : List Str) : List GitOid → List Str
  | [] => []
  | oid :: wants => wantLine caps oid :: wants.map (wantLine [])

def sendWants (w : List UInt8) (wants : List GitOid) (caps : List Str) : Except WireError (List UInt8) :=
  ((wantLines caps wants).foldlM (fun w line => writePktLine w (utf8 line)) w).map writeFlush

/-- What a server is sent: what is wanted, and that this is all. -/
def fetchRequest (wants : List GitOid) (caps : List Str) : Except WireError (List UInt8) := do
  let w ← sendWants [] wants caps
  writePktLine w (utf8 "done\n".toList)

/-! ## The answer -/

/-- Read up to the end of the acknowledgement. -/
def readUntilNak (r : List UInt8) : Except WireError (List UInt8) :=
  match _h : readPktLine r with
  | .error e => .error e
  | .ok (none, _) => .error (.wireProto "stream ended before NAK acknowledgement".toList)
  | .ok (some line, rest) =>
      let text := trimTrailingNewline line
      if text = utf8 "NAK".toList then .ok rest
      else if (utf8 "ACK".toList).isPrefixOf text then readUntilNak rest
      else .error (.wireProto "unexpected pkt-line before packfile (expected NAK)".toList)
termination_by r.length
decreasing_by exact readPktLine_shorter _h

/-- The objects of a pack by their ids. The first under an id stays. -/
def packObjects (found : List (GitOid × GitObject)) : GitObjects :=
  found.foldl (fun m e => if e.1 ∈ m then m else m.insert e.1 e.2) ∅

/-! ## Fetching -/

/-- What a fetch has. -/
structure WireFetch where
  refs : List (Str × GitOid)
  imported : GitImport
  packBytes : Nat

section

variable (sha1 : List UInt8 → GitOid) (inflate : Inflate) (sha256 : List UInt8 → ObjectId)

/-- Clone the refs of the repository at a path or URL, with all they lead to. -/
def fetchLocal (run : UploadPack → Str → Except SpawnError Child) (depth turns : Nat) (urlOrPath : Str)
    (repo : Repository) : Except FetchStop (WireFetch × Repository) := do
  let child ← (spawnUploadPack run (resolveLocalPath urlOrPath)).mapError .wire
  let ((advertised, serverCaps), buffered) ← (readAdvertisement child.greeting).mapError .wire
  let wants := wantOids advertised
  if wants = [] then do
    -- the section of wants is ended, so that the server can end as well
    let _ ← (child.hear (writeFlush [])).mapError fun e => .wire (.wire e)
    (child.reap (writeFlush [])).mapError .wire
    let (imported, repo) ← (importObjects sha1 sha256 ∅ depth turns advertised repo).mapError .git
    .ok (⟨advertised, imported, 0⟩, repo)
  else do
    let request ← (fetchRequest wants (negotiatedCapabilities serverCaps)).mapError .wire
    let said ← (child.hear request).mapError fun e => .wire (.wire e)
    let pack ← (readUntilNak (buffered ++ said)).mapError .wire
    (child.reap request).mapError .wire
    if pack = [] then .error (.wire (.wireProto "server sent an empty packfile".toList))
    else do
      let found ← (Pack.parsePackBytes sha1 inflate pack).mapError fun e => .git (.failed e)
      let (imported, repo) ← (importObjects sha1 sha256 (packObjects found) depth turns advertised repo).mapError .git
      .ok (⟨advertised, imported, pack.length⟩, repo)

end

/-! ## What a pack holds -/

namespace GitObject

/-- An object is named by the hash of its byte form, and is read from it. -/
def IsNamed (sha1 : List UInt8 → GitOid) (oid : GitOid) (o : GitObject) : Prop :=
  o.oid sha1 = oid ∧ decode o.encode = .ok o

end GitObject

namespace Pack

/-- The byte form of a resolved body has its size in decimal. -/
theorem decimalSize_canonicalBytes {resolved : Nat × List UInt8} {bytes : List UInt8}
    (h : canonicalBytes resolved = .ok bytes) : GitObject.DecimalSize bytes := by
  obtain ⟨typeId, body⟩ := resolved
  obtain ⟨ty, hty, h⟩ := bind_eq_ok.mp h
  cases h
  refine ⟨utf8 ty, _, body, cut_append ?_ _, (GitObject.cut_encode (.blob body)).2⟩
  exact not_mem_utf8 (c := ' ') (by decide) (by decide) (typeText_plain hty)

variable {sha1 : List UInt8 → GitOid} {inflate : Inflate} {pack : List UInt8} {s s' : PackState}

/-- The objects that have been decoded are named by their hashes. -/
def PackState.Named (sha1 : List UInt8 → GitOid) (s : PackState) : Prop :=
  ∀ (off : Nat) (e : GitOid × GitObject), s.results[off]? = some e → e.2.IsNamed sha1 e.1

theorem PackState.Named.packEntry (h : s.Named sha1) {off : Nat}
    (hentry : packEntry sha1 inflate pack s off = .ok (some s')) : s'.Named sha1 := by
  obtain ⟨base, -, hentry⟩ := bind_eq_ok.mp hentry
  split at hentry
  · cases hentry
  · obtain ⟨⟨resolved, memo⟩, -, hentry⟩ := bind_eq_ok.mp hentry
    obtain ⟨canonical, hcanonical, hentry⟩ := bind_eq_ok.mp hentry
    obtain ⟨o, ho, hentry⟩ := bind_eq_ok.mp hentry
    cases hentry
    intro o' e he
    rw [BTreeMap.getElem?_insert] at he
    split at he
    · cases he
      have hbytes := GitObject.encode_of_decode ho (decimalSize_canonicalBytes hcanonical)
      exact ⟨congrArg sha1 hbytes, hbytes ▸ ho⟩
    · exact h o' e he

theorem PackState.Named.packPass (h : s.Named sha1) {remaining : List Nat} {r : PackState × List Nat}
    (hpass : packPass sha1 inflate pack s remaining = .ok r) : r.1.Named sha1 := by
  induction remaining generalizing s r with
  | nil =>
      cases hpass
      exact h
  | cons off remaining ih =>
      obtain ⟨next, hnext, hpass⟩ := bind_eq_ok.mp hpass
      cases next with
      | none =>
          obtain ⟨⟨s₁, deferred⟩, hrest, hpass⟩ := bind_eq_ok.mp hpass
          cases hpass
          exact ih (r := (s₁, deferred)) h hrest
      | some s₁ => exact ih (h.packEntry hnext) hpass

theorem PackState.Named.packPasses (h : s.Named sha1) {remaining : List Nat}
    (hpasses : packPasses sha1 inflate pack s remaining = .ok s') : s'.Named sha1 := by
  induction s, remaining using packPasses.induct sha1 inflate pack with
  | case1 s =>
      rw [Pack.packPasses] at hpasses
      cases hpasses
      exact h
  | case2 s off remaining e he =>
      rw [Pack.packPasses] at hpasses
      split at hpasses
      · cases hpasses
      · simp_all
  | case3 s off remaining s₁ deferred hpass hstuck =>
      rw [Pack.packPasses] at hpasses
      split at hpasses
      · cases hpasses
      · simp_all
  | case4 s off remaining s₁ deferred hpass hmoves ih =>
      rw [Pack.packPasses] at hpasses
      split at hpasses
      · cases hpasses
      · rename_i hpass'
        cases hpass.symm.trans hpass'
        rw [if_neg hmoves] at hpasses
        exact ih (h.packPass hpass) hpasses

theorem mem_of_mem_emit {offsets : List Nat} {results : BTreeMap Nat (GitOid × GitObject)} {e : GitOid × GitObject}
    (h : e ∈ emit offsets results) : ∃ off : Nat, results[off]? = some e := by
  induction offsets generalizing results with
  | nil => cases h
  | cons off offsets ih =>
      unfold emit at h
      split at h
      · exact ih h
      · rename_i entry hentry
        obtain rfl | h := List.mem_cons.mp h
        · exact ⟨off, hentry⟩
        · obtain ⟨off', hoff'⟩ := ih h
          rw [BTreeMap.getElem?_erase] at hoff'
          split at hoff'
          · cases hoff'
          · exact ⟨off', hoff'⟩

/-- Whatever a pack is, the objects that are decoded from it are named by their hashes. -/
theorem isNamed_of_parsePackBytes {found : List (GitOid × GitObject)} (h : parsePackBytes sha1 inflate pack = .ok found)
    {e : GitOid × GitObject} (he : e ∈ found) : e.2.IsNamed sha1 e.1 := by
  obtain ⟨count, -, h⟩ := bind_eq_ok.mp h
  obtain ⟨offsets, -, h⟩ := bind_eq_ok.mp h
  obtain ⟨s, hs, h⟩ := bind_eq_ok.mp h
  cases h
  obtain ⟨off, hoff⟩ := mem_of_mem_emit he
  have hstart : PackState.Named sha1 ⟨∅, ∅, ∅⟩ := fun off e he => by simp at he
  exact hstart.packPasses hs off e hoff

end Pack

/-! ## What an advertisement holds -/

theorem AdState.addLine_plain {s s' : AdState} {line : List UInt8} (h : ∀ r ∈ s.refs, isPeeled r.1 = false)
    (hadd : s.addLine line = .ok s') : ∀ r ∈ s'.refs, isPeeled r.1 = false := by
  unfold AdState.addLine at hadd
  simp only at hadd
  split at hadd
  · cases hadd
    exact h
  · obtain ⟨⟨oid, name⟩, -, hadd⟩ := bind_eq_ok.mp hadd
    simp only at hadd
    split at hadd
    · cases hadd
      exact h
    · rename_i hname
      cases hadd
      intro r hr
      obtain hr | hr := List.mem_append.mp hr
      · exact h r hr
      · rw [List.mem_singleton.mp hr]
        exact Bool.eq_false_iff.mpr (not_or.mp hname).1

theorem AdState.readLines_plain {s : AdState} {r : List UInt8} {out : AdState × List UInt8}
    (h : ∀ r ∈ s.refs, isPeeled r.1 = false) (hread : s.readLines r = .ok out) :
    ∀ r ∈ out.1.refs, isPeeled r.1 = false := by
  induction s, r using AdState.readLines.induct with
  | case1 s r e he =>
      rw [AdState.readLines] at hread
      split at hread <;> simp_all
  | case2 s r rest hend =>
      rw [AdState.readLines] at hread
      split at hread
      · simp_all
      · cases hread
        exact h
      · simp_all
  | case3 s r line rest hline e he =>
      rw [AdState.readLines] at hread
      split at hread <;> simp_all
  | case4 s r line rest hline s₁ hadd ih =>
      rw [AdState.readLines] at hread
      split at hread
      · simp_all
      · simp_all
      · rename_i line' rest' hline'
        cases hline.symm.trans hline'
        rw [hadd] at hread
        exact ih (AdState.addLine_plain h hadd) hread

/-- The refs of an advertisement are in the order of their names, and no name is one of a peeled target. -/
theorem readAdvertisement_eq_ok {r rest : List UInt8} {refs : List (Str × GitOid)} {caps : Finset Str}
    (h : readAdvertisement r = .ok ((refs, caps), rest)) :
    (refs.Pairwise fun a b => (compare a.1 b.1).isLE) ∧ ∀ r ∈ refs, isPeeled r.1 = false := by
  obtain ⟨⟨s, rest'⟩, hread, h⟩ := bind_eq_ok.mp h
  cases h
  refine ⟨pairwise_sortByKey _ _, fun r hr => ?_⟩
  exact AdState.readLines_plain (fun _ h => absurd h List.not_mem_nil) hread r ((perm_sortByKey _ _).mem_iff.mp hr)

/-! ## A server that answers -/

theorem packObjects_eq (found : List (GitOid × GitObject)) : packObjects found = mergeObjects [] found := rfl

theorem mem_of_packObjects {found : List (GitOid × GitObject)} {a : GitOid} {o : GitObject}
    (h : (packObjects found)[a]? = some o) : (a, o) ∈ found :=
  mem_of_mergeObjects (packObjects_eq found ▸ h)

theorem foldl_wants {wants : List GitOid} (h : wants.Nodup) (refs : List (Str × GitOid)) :
    (refs.foldl (fun wants r => if r.2 ∈ wants then wants else wants ++ [r.2]) wants).Nodup ∧
      ∀ a, a ∈ refs.foldl (fun wants r => if r.2 ∈ wants then wants else wants ++ [r.2]) wants ↔
        a ∈ wants ∨ a ∈ refs.map Prod.snd := by
  induction refs generalizing wants with
  | nil => exact ⟨h, by simp⟩
  | cons r refs ih =>
      rw [List.foldl_cons]
      split
      · rename_i hseen
        obtain ⟨hnodup, hmem⟩ := ih h
        refine ⟨hnodup, fun a => ?_⟩
        rw [hmem, List.map_cons, List.mem_cons]
        exact ⟨fun ha => ha.imp_right .inr, fun ha => ha.elim .inl fun ha => ha.elim (fun he => .inl (he ▸ hseen)) .inr⟩
      · rename_i hnew
        have hnodup : (wants ++ [r.2]).Nodup := by
          refine List.nodup_append.mpr ⟨h, List.nodup_singleton _, fun a ha b hb he => ?_⟩
          exact hnew (List.mem_singleton.mp hb ▸ he ▸ ha)
        obtain ⟨hnodup', hmem⟩ := ih hnodup
        refine ⟨hnodup', fun a => ?_⟩
        rw [hmem, List.mem_append, List.mem_singleton, or_assoc, List.map_cons, List.mem_cons]

theorem nodup_wantOids (refs : List (Str × GitOid)) : (wantOids refs).Nodup := (foldl_wants List.nodup_nil refs).1

theorem mem_wantOids {refs : List (Str × GitOid)} {a : GitOid} : a ∈ wantOids refs ↔ a ∈ refs.map Prod.snd := by
  rw [wantOids, (foldl_wants List.nodup_nil refs).2]
  simp

/-- Lines that fit into frames are sent. -/
theorem foldlM_fits {lines : List Str} (h : ∀ line ∈ lines, (utf8 line).length ≤ maxPayload) (w : List UInt8) :
    ∃ packets : List Packet,
      lines.foldlM (fun w line => writePktLine w (utf8 line)) w = .ok (w ++ packets.flatMap Packet.bytes) ∧
      packets.map Packet.line = lines.map fun line => .data (utf8 line) := by
  have hsent : ∃ out, lines.foldlM (fun w line => writePktLine w (utf8 line)) w = .ok out := by
    induction lines generalizing w with
    | nil => exact ⟨w, rfl⟩
    | cons line lines ih =>
        obtain ⟨hline, hlines⟩ := List.forall_mem_cons.mp h
        obtain ⟨out, hout⟩ := ih hlines (w ++ (Packet.data (utf8 line) hline).bytes)
        have hwrite : writePktLine w (utf8 line) = .ok _ := (Packet.data (utf8 line) hline).write_eq w
        refine ⟨out, ?_⟩
        rw [List.foldlM_cons, hwrite]
        exact hout
  obtain ⟨out, hout⟩ := hsent
  obtain ⟨packets, rfl, hpackets⟩ := foldlM_writePktLine hout
  exact ⟨packets, hout, hpackets⟩

/-- A request asks for ids and capabilities: these are the frames that a server reads. -/
def Asks (request : List UInt8) (wants : List GitOid) (caps : List Str) : Prop :=
  PktLine.reader.run request =
    ((wantLines caps wants).map (fun line => .data (utf8 line)) ++ [.flush, .data (utf8 "done\n".toList)], none)

theorem length_wantLine {caps : List Str} (hcaps : caps = [] ∨ caps = ["ofs-delta".toList]) (oid : GitOid) :
    (utf8 (wantLine caps oid)).length ≤ maxPayload := by
  have hhex := (@utf8_hex_digits oid).1
  cases hcaps with
  | inl hnone =>
      have hline : wantLine caps oid = "want ".toList ++ oid.hex ++ ['\n'] := if_pos hnone
      have hends : (utf8 "want ".toList).length + 40 + (utf8 ['\n']).length ≤ maxPayload := by decide
      rw [hline, utf8_append, utf8_append, List.length_append, List.length_append, hhex]
      exact hends
  | inr hsome =>
      subst hsome
      have hline : wantLine ["ofs-delta".toList] oid = "want ".toList ++ oid.hex ++ " ofs-delta\n".toList := by
        unfold wantLine
        rw [if_neg (List.cons_ne_nil _ _), List.append_assoc, List.append_assoc]
        rfl
      have hends : (utf8 "want ".toList).length + 40 + (utf8 " ofs-delta\n".toList).length ≤ maxPayload := by decide
      rw [hline, utf8_append, utf8_append, List.length_append, List.length_append, hhex]
      exact hends

theorem negotiatedCapabilities_cases (serverCaps : Finset Str) :
    negotiatedCapabilities serverCaps = [] ∨ negotiatedCapabilities serverCaps = ["ofs-delta".toList] := by
  unfold negotiatedCapabilities
  split
  · exact .inr rfl
  · exact .inl rfl

/-- The request is sent, and asks for what it says. -/
theorem exists_fetchRequest (wants : List GitOid) (serverCaps : Finset Str) :
    ∃ request, fetchRequest wants (negotiatedCapabilities serverCaps) = .ok request ∧
      Asks request wants (negotiatedCapabilities serverCaps) := by
  have hcaps := negotiatedCapabilities_cases serverCaps
  generalize negotiatedCapabilities serverCaps = caps at hcaps
  have hfits : ∀ line ∈ wantLines caps wants, (utf8 line).length ≤ maxPayload := by
    intro line hline
    cases wants with
    | nil => cases hline
    | cons oid wants =>
        obtain rfl | hline := List.mem_cons.mp hline
        · exact length_wantLine hcaps oid
        · obtain ⟨oid', -, rfl⟩ := List.mem_map.mp hline
          exact length_wantLine (.inl rfl) oid'
  obtain ⟨packets, hsent, hpackets⟩ := foldlM_fits hfits []
  let done : Packet := .data (utf8 "done\n".toList) (by decide)
  refine ⟨writeFlush (packets.flatMap Packet.bytes) ++ done.bytes, ?_, ?_⟩
  · refine bind_eq_ok.mpr ⟨writeFlush (packets.flatMap Packet.bytes), ?_, done.write_eq _⟩
    unfold sendWants
    rw [hsent]
    rfl
  · have hbytes : writeFlush (packets.flatMap Packet.bytes) ++ done.bytes =
        (packets ++ [.flush, done]).flatMap Packet.bytes := by
      rw [List.flatMap_append, List.flatMap_cons, List.flatMap_singleton, ← List.append_assoc]
      rfl
    have hrun := Reader.run_write (r := PktLine.reader) readPkt_bytes (packets ++ [.flush, done]) []
    rw [List.append_nil, Reader.run_nil, List.append_nil, ← hbytes, List.map_append, hpackets] at hrun
    exact hrun

/-- The end of the acknowledgement. -/
def nakPacket : Packet := .data (utf8 "NAK\n".toList) (by decide)

theorem readPktLine_data {p : Packet} {payload : List UInt8} (h : p.line = .data payload) (rest : List UInt8) :
    readPktLine (p.bytes ++ rest) = .ok (some payload, rest) := by
  unfold readPktLine
  rw [readPkt_bytes, h]
  rfl

theorem readUntilNak_of_line {r rest payload : List UInt8} (h : readPktLine r = .ok (some payload, rest)) :
    readUntilNak r =
      if trimTrailingNewline payload = utf8 "NAK".toList then .ok rest
      else if (utf8 "ACK".toList).isPrefixOf (trimTrailingNewline payload) then readUntilNak rest
      else .error (.wireProto "unexpected pkt-line before packfile (expected NAK)".toList) := by
  rw [readUntilNak]
  split
  · simp_all
  · simp_all
  · rename_i line rest' heq
    cases h.symm.trans heq
    rfl

/-- A line that acknowledges an object. -/
def Packet.IsAck (p : Packet) : Prop := ∃ text : Str, p.line = .data (utf8 ("ACK".toList ++ text))

/-- What follows the acknowledgement is left. -/
theorem readUntilNak_acks {acks : List Packet} (h : ∀ p ∈ acks, p.IsAck) (rest : List UInt8) :
    readUntilNak (acks.flatMap Packet.bytes ++ (nakPacket.bytes ++ rest)) = .ok rest := by
  induction acks with
  | nil =>
      rw [List.flatMap_nil, List.nil_append, readUntilNak_of_line (readPktLine_data rfl rest), trimTrailingNewline_utf8]
      exact if_pos (by decide)
  | cons p acks ih =>
      obtain ⟨⟨text, hp⟩, hacks⟩ := List.forall_mem_cons.mp h
      have hchop : chop ("ACK".toList ++ text) = "ACK".toList ++ chop text := chop_append "AC".toList (by decide) text
      have hbytes : utf8 "ACK".toList = [0x41, 0x43, 0x4b] := by decide
      have hnak : utf8 "NAK".toList = [0x4e, 0x41, 0x4b] := by decide
      rw [List.flatMap_cons, List.append_assoc, readUntilNak_of_line (readPktLine_data hp _),
        trimTrailingNewline_utf8, hchop, utf8_append, hbytes, hnak, if_neg (by simp), if_pos (List.isPrefixOf_iff_prefix.mpr (List.prefix_append _ _))]
      exact ih hacks

namespace Advertised

/-- The refs that are not peeled targets, by name. -/
def sorted (ad : Advertised) : List (Str × GitOid) := sortByKey Prod.fst ad.refs

end Advertised

/-- A child that advertises refs, and answers whoever asks for all of their ids with a pack. -/
structure Child.Serves (child : Child) (ad : Advertised) (pack : List UInt8) : Prop where
  greets : ad.write = .ok child.greeting
  answers : ∀ request wants caps, wants.Nodup → (∀ a, a ∈ wants ↔ a ∈ ad.refs.map Prod.snd) → caps ⊆ ad.caps →
    Asks request wants caps → ∃ acks : List Packet, (∀ p ∈ acks, p.IsAck) ∧
      child.hear request = .ok (acks.flatMap Packet.bytes ++ (nakPacket.bytes ++ pack)) ∧
      ∃ text, child.wait request = .ok ⟨true, text⟩

section

variable {sha1 : List UInt8 → GitOid} {sha256 : List UInt8 → ObjectId} {inflate : Inflate}

/-- Where all that the refs lead to is there and can be stored, the import ends. -/
theorem exists_importObjects (sha256 : List UInt8 → ObjectId) {objects : GitObjects} {refs : List (Str × GitOid)}
    (repo : Repository) (hwalk : Walkable sha1 objects (refs.map Prod.snd)) (hstore : Storable objects (refs.map Prod.snd)) :
    ∃ depth turns r, ∀ depth' turns', depth ≤ depth' → turns ≤ turns' →
      importObjects sha1 sha256 objects depth' turns' refs repo = .ok r := by
  obtain ⟨depth, hdepth⟩ := importTreeObject_total sha256 hwalk hstore
  have hinit : ImportWalk.Invariant objects (refs.map Prod.snd)
      ⟨(refs.map Prod.snd).reverse, ⟨∅, ∅, ∅, refs, 0, 0, 0, 0⟩, repo⟩ :=
    ⟨(ImportWalk.Sound.init sha1 objects refs repo).explores, GitImport.Holds.init refs⟩
  obtain ⟨made, repo', hrun, -, -⟩ := hinit.run hwalk hdepth rfl
  exact ⟨depth, _, (made, repo'), fun depth' turns' hd ht => ImportWalk.run_mono hd ht hrun⟩

/-- From a server that answers, what is fetched is what is imported of its pack. -/
theorem fetchLocal_of_serves {run : UploadPack → Str → Except SpawnError Child} {urlOrPath : Str} {child : Child}
    {ad : Advertised} {pack : List UInt8} {found : List (GitOid × GitObject)} (hplain : ad.Plain) (hsome : ad.refs ≠ [])
    (hspawn : spawnUploadPack run (resolveLocalPath urlOrPath) = .ok child) (hserves : child.Serves ad pack)
    (hpack : Pack.parsePackBytes sha1 inflate pack = .ok found) {depth turns : Nat} {repo : Repository}
    {r : GitImport × Repository}
    (himport : importObjects sha1 sha256 (packObjects found) depth turns ad.sorted repo = .ok r) :
    fetchLocal sha1 inflate sha256 run depth turns urlOrPath repo = .ok (⟨ad.sorted, r.1, pack.length⟩, r.2) := by
  obtain ⟨hheard, hcaps⟩ := ad.heard_of_plain hplain
  have hread := ad.readAdvertisement_write hserves.greets []
  rw [List.append_nil, hheard, hcaps] at hread
  have hperm : ad.sorted.Perm ad.refs := perm_sortByKey _ _
  have hwants : ∀ a, a ∈ wantOids ad.sorted ↔ a ∈ ad.refs.map Prod.snd := fun a => by
    rw [mem_wantOids, (hperm.map Prod.snd).mem_iff]
  -- there is a ref, so something is asked for, and the pack that comes is not empty
  have hne : wantOids ad.sorted ≠ [] := by
    obtain ⟨root, hroot⟩ := List.exists_mem_of_ne_nil _ hsome
    exact List.ne_nil_of_mem ((hwants root.2).mpr (List.mem_map_of_mem hroot))
  obtain ⟨request, hrequest, hasks⟩ := exists_fetchRequest (wantOids ad.sorted) ad.caps.toFinset
  -- no capability is asked for that was not offered
  have hoffered : negotiatedCapabilities ad.caps.toFinset ⊆ ad.caps := by
    unfold negotiatedCapabilities
    split
    · rename_i hmem
      exact List.cons_subset.mpr ⟨List.mem_toFinset.mp hmem, List.nil_subset _⟩
    · exact List.nil_subset _
  obtain ⟨acks, hacks, hhear, text, hwait⟩ := hserves.answers request _ _ (nodup_wantOids _) hwants hoffered hasks
  have hreap : child.reap request = .ok () := by
    unfold Child.reap
    rw [hwait]
    rfl
  have hnonempty : pack ≠ [] := by
    rintro rfl
    obtain ⟨count, hcount, -⟩ := bind_eq_ok.mp hpack
    cases hcount
  refine bind_eq_ok.mpr ⟨child, mapError_eq_ok.mpr hspawn, ?_⟩
  refine bind_eq_ok.mpr ⟨((ad.sorted, ad.caps.toFinset), []), mapError_eq_ok.mpr hread, ?_⟩
  refine (if_neg hne).trans ?_
  refine bind_eq_ok.mpr ⟨request, mapError_eq_ok.mpr hrequest, ?_⟩
  refine bind_eq_ok.mpr ⟨_, mapError_eq_ok.mpr hhear, ?_⟩
  refine bind_eq_ok.mpr ⟨pack, mapError_eq_ok.mpr (readUntilNak_acks hacks pack), ?_⟩
  refine bind_eq_ok.mpr ⟨(), mapError_eq_ok.mpr hreap, ?_⟩
  refine (if_neg hnonempty).trans ?_
  refine bind_eq_ok.mpr ⟨found, mapError_eq_ok.mpr hpack, ?_⟩
  exact bind_eq_ok.mpr ⟨r, mapError_eq_ok.mpr himport, rfl⟩

/-- What a pack leads to can be walked where it is there and its modes are supported. -/
theorem walkable_packObjects {pack : List UInt8} {found : List (GitOid × GitObject)} {roots : List GitOid}
    (hpack : Pack.parsePackBytes sha1 inflate pack = .ok found)
    (hpresent : ∀ a, Leads (Refers (packObjects found)) roots a → a ∈ packObjects found)
    (hmodes : ∀ a entries, Leads (Refers (packObjects found)) roots a → (packObjects found)[a]? = some (.tree entries) →
      ∀ e ∈ entries, ∃ kind, modeToKind e.mode = .ok kind) : Walkable sha1 (packObjects found) roots := by
  refine ⟨fun a ha => ?_, fun a o _ ho => ?_, hmodes⟩
  · exact Option.isSome_iff_exists.mp (Std.ExtTreeMap.mem_iff_isSome_getElem?.mp (hpresent a ha))
  · have hdecode := (Pack.isNamed_of_parsePackBytes hpack (mem_of_packObjects ho)).2
    exact (roundtripOk_iff sha1 o.encode).mpr ⟨⟨o, hdecode⟩, GitObject.decimalSize_encode o⟩

end

/-! ## A server with a commit -/

/-- A tree with one file. -/
def hiTree : GitObject := .tree [⟨"100644".toList, "f".toList, Pack.blobOid "hi"⟩]

/-- A commit of it. -/
def hiCommit : GitObject :=
  let tree := hiTree.oid .ofSha1
  let line := "a <a> 0 +0000".toList
  .commit ⟨tree, [], line, line, "m\n".toList, utf8 ("tree ".toList ++ tree.hex ++
    "\nauthor ".toList ++ line ++ "\ncommitter ".toList ++ line ++ "\n\nm\n".toList)⟩

def hiOid : GitOid := hiCommit.oid .ofSha1

/-- An entry of a pack, of fewer than 2048 bytes. -/
def packEntry (kind : Nat) (data : List UInt8) : List UInt8 :=
  (if data.length < 16 then [UInt8.ofNat (kind * 16 + data.length)]
    else [UInt8.ofNat (128 + kind * 16 + data.length % 16), UInt8.ofNat (data.length / 16)]) ++ deflateStored data

def commitPack : List UInt8 :=
  Pack.packOf [packEntry Pack.objCommit hiCommit.body, packEntry Pack.objTree hiTree.body, Pack.blobEntry]

/-- What is in the pack. -/
def commitFound : List (GitOid × GitObject) :=
  [hiCommit, hiTree, .blob (utf8 "hi".toList)].map fun o => (o.oid .ofSha1, o)

/-- A branch at the commit. -/
def commitAd : Advertised where
  banner := none
  entry := ⟨hiOid, "refs/heads/main".toList, true⟩
  entries := []
  caps := ["ofs-delta".toList]
  caps_word := List.forall_mem_singleton.mpr ⟨by decide, by decide⟩
  nul_free := List.forall_mem_singleton.mpr (by decide)
  distinct := List.nodup_singleton _

def commitServer : Child where
  greeting := commitAd.write.toOption.getD []
  hear _ := .ok (nakPacket.bytes ++ commitPack)
  wait _ := .ok ⟨true, "exit status: 0".toList⟩

theorem commitServer_serves : commitServer.Serves commitAd commitPack where
  greets := by
    have hsent : commitAd.write.isOk = true := by decide +kernel
    obtain ⟨stream, hstream⟩ := exists_of_isOk hsent
    unfold commitServer
    rw [hstream]
    rfl
  answers _ _ _ _ _ _ _ := ⟨[], fun _ h => absurd h List.not_mem_nil, rfl, _, rfl⟩

theorem parsePackBytes_commitPack : Pack.parsePackBytes .ofSha1 Pack.inflateStored commitPack = .ok commitFound := by
  decide +kernel

theorem plain_commitAd : commitAd.Plain := .of_all rfl (by decide) (by decide)

theorem spawnUploadPack_commit :
    spawnUploadPack (fun _ _ => .ok commitServer) (resolveLocalPath "file:///srv/hi".toList) = .ok commitServer := rfl

theorem commitAd_roots : commitAd.sorted.map Prod.snd = [hiOid] := by decide +kernel

theorem getElem?_commitFound {a : GitOid} {o : GitObject} (h : (packObjects commitFound)[a]? = some o) :
    (a = hiOid ∧ o = hiCommit) ∨ (a = hiTree.oid .ofSha1 ∧ o = hiTree) ∨
      (a = Pack.blobOid "hi" ∧ o = .blob (utf8 "hi".toList)) := by
  have hmem := mem_of_packObjects h
  simp only [commitFound, List.map_cons, List.map_nil, List.mem_cons, List.not_mem_nil, or_false, Prod.mk.injEq] at hmem
  exact hmem

/-- The tree of the pack is the one there is. -/
theorem eq_entries_of_commitFound {a : GitOid} {entries : List GitTreeEntry}
    (h : (packObjects commitFound)[a]? = some (.tree entries)) :
    a = hiTree.oid .ofSha1 ∧ entries = [⟨"100644".toList, "f".toList, Pack.blobOid "hi"⟩] := by
  rcases getElem?_commitFound h with ⟨-, ho⟩ | ⟨ha, ho⟩ | ⟨-, ho⟩
  · cases ho
  · exact ⟨ha, GitObject.tree.inj ho⟩
  · cases ho

/-- All that is led to is in the pack. -/
theorem leads_commit {a : GitOid} (h : Leads (Refers (packObjects commitFound)) (commitAd.sorted.map Prod.snd) a) :
    a ∈ packObjects commitFound := by
  refine h.induct (fun r hr => ?_) ?_
  · rw [commitAd_roots, List.mem_singleton] at hr
    subst hr
    decide +kernel
  · rintro b c - ⟨o, ho, hc⟩
    have hchildren : ∀ o ∈ [hiCommit, hiTree, .blob (utf8 "hi".toList)], ∀ c ∈ o.children,
        c ∈ packObjects commitFound := by decide +kernel
    refine hchildren o ?_ c hc
    rcases getElem?_commitFound ho with ⟨-, rfl⟩ | ⟨-, rfl⟩ | ⟨-, rfl⟩ <;> simp

theorem modes_commit (a : GitOid) (entries : List GitTreeEntry)
    (_ : Leads (Refers (packObjects commitFound)) (commitAd.sorted.map Prod.snd) a)
    (ho : (packObjects commitFound)[a]? = some (.tree entries)) : ∀ e ∈ entries, ∃ kind, modeToKind e.mode = .ok kind := by
  obtain ⟨-, rfl⟩ := eq_entries_of_commitFound ho
  exact List.forall_mem_singleton.mpr ⟨.blob, rfl⟩

theorem storable_commit : Storable (packObjects commitFound) (commitAd.sorted.map Prod.snd) where
  names a entries _ ho := by
    obtain ⟨-, rfl⟩ := eq_entries_of_commitFound ho
    exact List.forall_mem_singleton.mpr (by decide)
  content a entries _ ho := by
    obtain ⟨-, rfl⟩ := eq_entries_of_commitFound ho
    refine List.forall_mem_singleton.mpr fun o hblob => ?_
    have hthere : (packObjects commitFound)[Pack.blobOid "hi"]? = some (.blob (utf8 "hi".toList)) := by decide +kernel
    obtain rfl := Option.some.inj (hthere.symm.trans hblob)
    rfl
  nested a _ hself := by
    -- what is inside a tree is the blob, and nothing is inside that
    obtain ⟨b, ⟨entries, ho, -⟩, -⟩ := TransGen.head'_iff.mp hself
    obtain ⟨c, -, ⟨entries', ho', hc⟩⟩ := TransGen.tail'_iff.mp hself
    obtain ⟨rfl, -⟩ := eq_entries_of_commitFound ho
    obtain ⟨-, rfl⟩ := eq_entries_of_commitFound ho'
    exact absurd (List.mem_singleton.mp hc) (by decide +kernel)

/-! ## What a clone has -/

section

variable {sha1 : List UInt8 → GitOid} {sha256 : List UInt8 → ObjectId} {inflate : Inflate}

/-- What a clone has whatever a server says: refs in order and none of them peeled, just what these refs lead to
    among the objects of the clone, and each object under the hash of its byte form, which is read as the object. -/
structure WireFetch.Sound (sha1 : List UInt8 → GitOid) (fetched : WireFetch) : Prop where
  sorted : fetched.refs.Pairwise fun a b => (compare a.1 b.1).isLE
  plain : ∀ r ∈ fetched.refs, isPeeled r.1 = false
  refs : fetched.imported.refs = fetched.refs
  reached : ∀ a, a ∈ fetched.imported.gitObjects ↔
    Leads (Refers fetched.imported.gitObjects) (fetched.refs.map Prod.snd) a
  named : ∀ (a : GitOid) (o : GitObject), fetched.imported.gitObjects[a]? = some o → o.IsNamed sha1 a

/-- An import has just what its refs lead to in itself. -/
theorem importObjects_reached {objects : GitObjects} {refs : List (Str × GitOid)} {depth turns : Nat}
    {repo : Repository} {r : GitImport × Repository} (h : importObjects sha1 sha256 objects depth turns refs repo = .ok r) (a : GitOid) :
    a ∈ r.1.gitObjects ↔ Leads (Refers r.1.gitObjects) (refs.map Prod.snd) a := by
  obtain ⟨-, hmade, hall, -⟩ := importObjects_eq_ok h
  have hmem : ∀ a, a ∈ r.1.gitObjects → Leads (Refers objects) (refs.map Prod.snd) a := by
    intro a ha
    obtain ⟨o, ho⟩ := Option.isSome_iff_exists.mp (Std.ExtTreeMap.mem_iff_isSome_getElem?.mp ha)
    exact ((hmade a o).mp ho).1
  constructor
  · intro ha
    refine (Leads.induct (P := fun a => Leads (Refers objects) (refs.map Prod.snd) a ∧
      Leads (Refers r.1.gitObjects) (refs.map Prod.snd) a) (fun b hb => ⟨.root hb, .root hb⟩) ?_ (hmem a ha)).2
    rintro b c ⟨hobjects, hleads⟩ ⟨o, ho, hc⟩
    exact ⟨hobjects.tail ⟨o, ho, hc⟩, hleads.tail ⟨o, (hmade b o).mpr ⟨hobjects, ho⟩, hc⟩⟩
  · intro ha
    refine hall a (ha.induct (fun b hb => .root hb) fun b c hb hnext => ?_)
    obtain ⟨o, ho, hc⟩ := hnext
    exact hb.tail ⟨o, ((hmade b o).mp ho).2, hc⟩

/-- A clone that ends well is an import of objects that are named by their hashes. -/
theorem fetchLocal_eq_ok {run : UploadPack → Str → Except SpawnError Child} {depth turns : Nat} {urlOrPath : Str}
    {repo repo' : Repository} {fetched : WireFetch}
    (h : fetchLocal sha1 inflate sha256 run depth turns urlOrPath repo = .ok (fetched, repo')) :
    ∃ objects, importObjects sha1 sha256 objects depth turns fetched.refs repo = .ok (fetched.imported, repo') ∧
      (∀ (a : GitOid) (o : GitObject), objects[a]? = some o → o.IsNamed sha1 a) ∧
      (fetched.refs.Pairwise fun a b => (compare a.1 b.1).isLE) ∧ ∀ r ∈ fetched.refs, isPeeled r.1 = false := by
  obtain ⟨child, -, h⟩ := bind_eq_ok.mp h
  obtain ⟨⟨⟨advertised, serverCaps⟩, buffered⟩, hread, h⟩ := bind_eq_ok.mp h
  have hrefs := readAdvertisement_eq_ok (mapError_eq_ok.mp hread)
  simp only at h
  split at h
  · obtain ⟨said, -, h⟩ := bind_eq_ok.mp h
    obtain ⟨⟨⟩, -, h⟩ := bind_eq_ok.mp h
    obtain ⟨⟨imported, after⟩, himport, h⟩ := bind_eq_ok.mp h
    cases h
    exact ⟨∅, mapError_eq_ok.mp himport, fun a o ho => by simp at ho, hrefs⟩
  · obtain ⟨request, -, h⟩ := bind_eq_ok.mp h
    obtain ⟨said, -, h⟩ := bind_eq_ok.mp h
    obtain ⟨pack, -, h⟩ := bind_eq_ok.mp h
    obtain ⟨⟨⟩, -, h⟩ := bind_eq_ok.mp h
    split at h
    · cases h
    · obtain ⟨found, hfound, h⟩ := bind_eq_ok.mp h
      obtain ⟨⟨imported, after⟩, himport, h⟩ := bind_eq_ok.mp h
      cases h
      refine ⟨packObjects found, mapError_eq_ok.mp himport, fun a o ho => ?_, hrefs⟩
      exact Pack.isNamed_of_parsePackBytes (mapError_eq_ok.mp hfound) (mem_of_packObjects ho)

/-- Whatever the server says, a clone that ends well is sound. -/
theorem fetchLocal_sound {run : UploadPack → Str → Except SpawnError Child} {depth turns : Nat} {urlOrPath : Str}
    {repo repo' : Repository} {fetched : WireFetch}
    (h : fetchLocal sha1 inflate sha256 run depth turns urlOrPath repo = .ok (fetched, repo')) :
    fetched.Sound sha1 := by
  obtain ⟨objects, himport, hnamed, hsorted, hplain⟩ := fetchLocal_eq_ok h
  obtain ⟨hrefs, hmade, -, -⟩ := importObjects_eq_ok himport
  exact ⟨hsorted, hplain, hrefs, importObjects_reached himport, fun a o ho => hnamed a o ((hmade a o).mp ho).2⟩

theorem fetchLocal_sound_commit :
    ∃ depth turns fetched repo,
      fetchLocal .ofSha1 Pack.inflateStored .ofSha256 (fun _ _ => .ok commitServer) depth turns
        "file:///srv/hi".toList .init = .ok (fetched, repo) ∧
      fetched.Sound .ofSha1 ∧ fetched.refs = [("refs/heads/main".toList, hiOid)] := by
  have hwalk := walkable_packObjects parsePackBytes_commitPack (fun _ ha => leads_commit ha) modes_commit
  obtain ⟨depth, turns, r, himport⟩ := exists_importObjects .ofSha256 .init hwalk storable_commit
  have hfetch := fetchLocal_of_serves plain_commitAd (by decide +kernel) spawnUploadPack_commit commitServer_serves
    parsePackBytes_commitPack (himport depth turns le_rfl le_rfl)
  exact ⟨depth, turns, _, _, hfetch, fetchLocal_sound hfetch, show commitAd.sorted = _ by decide +kernel⟩

/-- The repository of a server that answers is cloned: the refs by name, and all of the objects of the pack that
    these lead to. -/
theorem fetchLocal_clone (sha256 : List UInt8 → ObjectId) {run : UploadPack → Str → Except SpawnError Child}
    {urlOrPath : Str} {child : Child} {ad : Advertised} {pack : List UInt8} {found : List (GitOid × GitObject)}
    (hplain : ad.Plain) (hsome : ad.refs ≠ [])
    (hspawn : spawnUploadPack run (resolveLocalPath urlOrPath) = .ok child) (hserves : child.Serves ad pack)
    (hpack : Pack.parsePackBytes sha1 inflate pack = .ok found)
    (hpresent : ∀ a, Leads (Refers (packObjects found)) (ad.sorted.map Prod.snd) a → a ∈ packObjects found)
    (hmodes : ∀ a entries, Leads (Refers (packObjects found)) (ad.sorted.map Prod.snd) a →
      (packObjects found)[a]? = some (.tree entries) → ∀ e ∈ entries, ∃ kind, modeToKind e.mode = .ok kind)
    (hstore : Storable (packObjects found) (ad.sorted.map Prod.snd)) (repo : Repository) :
    ∃ depth turns fetched repo',
      (∀ depth' turns', depth ≤ depth' → turns ≤ turns' →
        fetchLocal sha1 inflate sha256 run depth' turns' urlOrPath repo = .ok (fetched, repo')) ∧
      fetched.refs = ad.sorted ∧ fetched.packBytes = pack.length ∧
      ∀ (a : GitOid) (o : GitObject), fetched.imported.gitObjects[a]? = some o ↔
        Leads (Refers (packObjects found)) (ad.sorted.map Prod.snd) a ∧ (packObjects found)[a]? = some o := by
  have hwalk := walkable_packObjects hpack hpresent hmodes
  obtain ⟨depth, turns, r, himport⟩ := exists_importObjects sha256 repo hwalk hstore
  have hmade := (importObjects_eq_ok (himport depth turns le_rfl le_rfl)).2.1
  refine ⟨depth, turns, ⟨ad.sorted, r.1, pack.length⟩, r.2, fun depth' turns' hd ht => ?_, rfl, rfl, hmade⟩
  exact fetchLocal_of_serves hplain hsome hspawn hserves hpack (himport depth' turns' hd ht)

theorem fetchLocal_clone_commit :
    ∃ depth turns fetched repo,
      fetchLocal .ofSha1 Pack.inflateStored .ofSha256 (fun _ _ => .ok commitServer) depth turns
        "file:///srv/hi".toList .init = .ok (fetched, repo) ∧
      fetched.refs = [("refs/heads/main".toList, hiOid)] ∧
      fetched.imported.gitObjects[hiTree.oid .ofSha1]? = some hiTree := by
  obtain ⟨depth, turns, fetched, repo, hrun, hrefs, -, hmade⟩ := fetchLocal_clone .ofSha256 plain_commitAd
    (by decide +kernel) spawnUploadPack_commit commitServer_serves parsePackBytes_commitPack
    (fun _ ha => leads_commit ha) modes_commit storable_commit .init
  refine ⟨depth, turns, fetched, repo, hrun depth turns le_rfl le_rfl, hrefs.trans (by decide +kernel),
    (hmade _ _).mpr ⟨?_, by decide +kernel⟩⟩
  rw [commitAd_roots]
  exact ⟨hiOid, List.mem_cons_self, .single ⟨hiCommit, by decide +kernel, by decide +kernel⟩⟩

end

end Omoplata
