-- SUMMARY: Serving a repository over HTTP, and fetching from and pushing to one over HTTP and over a path.
import Omoplata.Cli.Fetch
import Omoplata.Cli.Http
import Omoplata.Lib.Gather
import Omoplata.Store.Fill
import Omoplata.Work.Remote

/-!
# Remotes over HTTP

A server answers three requests: the refs that have landed, one object, and a push. A client
fetches or pushes through it as it would with the repository at a path. The two transports
walk the objects in different ways: a copy over a path reads the source at every turn, a fetch asks
for an object only where it is missing, and a push sends all of them in one body.

How a submission lands, how errors are printed and the JSON library are parameters.
-/

open Chunks Relation Walk

namespace Omoplata

/-- A repository as the commands on remotes see it: its objects and its log. -/
structure Site where
  repo : Repository
  log : OpLog

/-! ## The protocol -/

/-- The body of a push: what to land, the tips of its changes, and their objects in hexadecimal. -/
structure WirePayload where
  queue : Str
  submission : Submission
  tips : List (Str × Str)
  objects : List (Str × Str)
  deriving DecidableEq

/-- An error with its causes, the nearest one first. -/
structure ErrorChain where
  text : Str
  causes : List Str
  deriving DecidableEq

/-- The line that a command prints, with all causes. -/
def ErrorChain.line (e : ErrorChain) : Str := ": ".toList.intercalate (e.text :: e.causes)

/-- What a server has made of a push. -/
structure PushResult where
  ok : Bool
  message : Str
  deriving DecidableEq

/-- Printing and reading the bodies. -/
structure WireJson where
  refsToVec : Refs → List UInt8
  refsFromSlice : List UInt8 → Option Refs
  payloadToVec : WirePayload → List UInt8
  payloadFromSlice : List UInt8 → Option WirePayload
  resultToVec : PushResult → List UInt8
  resultFromSlice : List UInt8 → Option PushResult

inductive HexError where
  | oddLength
  | invalidDigit
  deriving DecidableEq

def toHex (bytes : List UInt8) : Str := hexEncode bytes

/-- The bytes that pairs of digits stand for. -/
def fromHexPairs : List UInt8 → Except HexError (List UInt8)
  | hi :: lo :: rest =>
      match hexValue (Char.ofNat hi.toNat), hexValue (Char.ofNat lo.toNat) with
      | some high, some low => (fromHexPairs rest).map (UInt8.ofNat (high * 16 + low) :: ·)
      | _, _ => .error .invalidDigit
  | _ => .ok []

def fromHex (s : Str) : Except HexError (List UInt8) :=
  if byteLength s % 2 ≠ 0 then .error .oddLength else fromHexPairs (utf8 s)

/-- How errors are printed. -/
structure Display where
  store : StoreError → Str
  object : ObjectError → Str

def HexError.text : HexError → Str
  | oddLength => "odd-length hex string".toList
  | invalidDigit => "invalid hex digit".toList

/-! ## The server -/

/-- How a submission lands once its objects are there, and what is said of it. -/
abbrev LandPushed := Site → Str → Submission → List (ChangeId × CommitId) → Except ErrorChain Str × Site

section

variable (sha256 : List UInt8 → ObjectId) (display : Display) (json : WireJson) (land : LandPushed)

/-- The object in a hexadecimal text. -/
def objectFromHex (hex : Str) : Except Panic (Except Str Object) :=
  match fromHex hex with
  | .error e => .ok (.error e.text)
  | .ok bytes => (Object.deserialize bytes).map fun r =>
      r.mapError fun e => "decoding object: ".toList ++ display.object e

/-- Write the objects of a push, up to the first that does not decode. -/
def writePushed : List (Str × Str) → Repository → Except Panic (Except Str Unit) × Repository
  | [], repo => (.ok (.ok ()), repo)
  | (_, hex) :: rest, repo =>
      match objectFromHex display hex with
      | .error p => (.error p, repo)
      | .ok (.error e) => (.ok (.error e), repo)
      | .ok (.ok o) => writePushed rest (repo.writeObject sha256 o).2

/-- Write the objects of a push and land it. -/
def acceptWire (site : Site) (payload : WirePayload) : Except Panic (Except ErrorChain Str) × Site :=
  match writePushed sha256 display payload.objects site.repo with
  | (.error p, repo) => (.error p, { site with repo := repo })
  | (.ok (.error e), repo) => (.ok (.error ⟨e, []⟩), { site with repo := repo })
  | (.ok (.ok ()), repo) =>
      let r := land { site with repo := repo } payload.queue payload.submission payload.tips
      (.ok r.1, r.2)

/-- The refs a client may fetch. -/
def serveRefs (site : Site) : Refs :=
  site.log.refsNow.filter fun name _ =>
    "public/".toList.isPrefixOf name || "reconciled/".toList.isPrefixOf name

/-- The bytes of an object, or nothing if it is not there. -/
def serveObject (site : Site) (id : Str) : Except Panic (Except StoreError (Option (List UInt8))) := do
  match ← ObjectId.parse id with
  | .error _ => pure (.ok none)
  | .ok oid =>
      if site.repo.hasObject oid then do
        let r ← site.repo.readObject sha256 oid
        pure (r.map fun o => some o.serialize)
      else pure (.ok none)

/-- What is said of a push that has been dealt with: of an error only its own text, not its causes. -/
def PushResult.of : Except ErrorChain Str → PushResult
  | .ok message => ⟨true, message⟩
  | .error e => ⟨false, e.text⟩

/-- The answer to a request that has passed the gate. A panic ends the thread without one. -/
def route (site : Site) (request : HttpRequest) : List UInt8 × Site :=
  if request.method = "GET".toList ∧ request.path = "/refs".toList then
    (writeResponse 200 (json.refsToVec (serveRefs site)) "OK".toList, site)
  else if request.method = "GET".toList ∧ "/object/".toList.isPrefixOf request.path = true then
    match serveObject sha256 site (request.path.drop "/object/".toList.length) with
    | .error _ => ([], site)
    | .ok (.ok (some bytes)) => (writeResponse 200 bytes "OK".toList, site)
    | .ok (.ok none) => (writeResponse 404 [] "Not Found".toList, site)
    | .ok (.error e) => (writeResponse 500 (utf8 (display.store e)) "Error".toList, site)
  else if request.method = "POST".toList ∧ request.path = "/push".toList then
    let answer (r : PushResult) := writeResponse 200 (json.resultToVec r) "OK".toList
    match json.payloadFromSlice request.body with
    | none => (answer ⟨false, "decoding push payload".toList⟩, site)
    | some payload =>
        match acceptWire sha256 display land site payload with
        | (.error _, site) => ([], site)
        | (.ok r, site) => (answer (.of r), site)
  else (writeResponse 404 [] "Not Found".toList, site)

/-- Serve one connection. With a token, only a request that bears it is looked at. -/
def handle (token : Option Str) (site : Site) (conn : Connection) : List UInt8 × Site :=
  match readRequest conn with
  | .error e => (writeResponse 500 [] e.text, site)
  | .ok request =>
      if token.isSome ∧ request.bearer ≠ token then (writeResponse 401 [] "Unauthorized".toList, site)
      else route sha256 display json land site request

/-- Serve connections one after the other. The daemon has a thread for each of them; what they write
    is written under the lock of the repository. -/
def serve (token : Option Str) : Site → List Connection → List (List UInt8) × Site
  | site, [] => ([], site)
  | site, conn :: conns =>
      let r := handle sha256 display json land token site conn
      let rest := serve token r.2 conns
      (r.1 :: rest.1, rest.2)

end

/-! ## Fetching -/

/-- What becomes of the bytes that a client sends. -/
abbrev Wire := List UInt8 → Except Str (List UInt8)

def httpRequest (wire : Wire) (authority method path : Str) (body : List UInt8) (token : Option Str) :
    Except HttpError HttpResponse := do
  let raw ← (wire (requestBytes authority method path body token)).mapError .io
  parseResponse raw

/-- Why a fetch fails. -/
inductive FetchError where
  | http (reason : Str)
  | status (authority : Str) (code : Nat)
  | decode
  | tip (refname tip : Str)
  | pull (e : PullError)
  | copy (e : WorkError)
  | panicked (p : Panic)
  | unfinished
  deriving DecidableEq

/-- A remote to fetch from: its refs, and how its `n`-th tip is pulled. -/
structure Upstream where
  refs : Except FetchError Refs
  pull : Nat → Repository → ObjectId → Except FetchError Nat × Repository

def isPublic (name : Str) : Bool := "public/".toList.isPrefixOf name

/-- Pull the tips one after the other, and note where they are tracked. -/
def fetchTips (upstream : Upstream) (name : Str) :
    List (Str × CommitId) → Nat → Repository → Except FetchError (Nat × List (Str × CommitId)) × Repository
  | [], _, repo => (.ok (0, []), repo)
  | (refname, tip) :: rest, k, repo =>
      match ObjectId.parse tip with
      | .error p => (.error (.panicked p), repo)
      | .ok (.error _) => (.error (.tip refname tip), repo)
      | .ok (.ok oid) =>
          match upstream.pull k repo oid with
          | (.error e, repo) => (.error e, repo)
          | (.ok n, repo) =>
              let r := fetchTips upstream name rest (k + 1) repo
              (r.1.map fun (objects, tracking) =>
                (n + objects, (joinTexts ["remotes/".toList, name, "/".toList, refname], tip) :: tracking), r.2)

/-- Replicate what has landed on a remote: how many objects and refs there were, if there were any. -/
def cmdFetch (upstream : Upstream) (name : Str) (site : Site) : Except FetchError (Option (Nat × Nat)) × Site :=
  match upstream.refs with
  | .error e => (.error e, site)
  | .ok refs =>
      let landed := refs.toList.filter fun entry => isPublic entry.1
      if landed = [] then (.ok none, site)
      else
        match fetchTips upstream name landed 0 site.repo with
        | (.error e, repo) => (.error e, { site with repo := repo })
        | (.ok (objects, tracking), repo) =>
            (.ok (some (objects, tracking.length)),
              ⟨repo, tracking.foldl (fun log entry => log.setRef entry.1 (some entry.2) none) site.log⟩)

section

variable (sha256 : List UInt8 → ObjectId)

/-- A remote at a path. -/
def Upstream.path (turns : Nat) (remote : Site) : Upstream where
  refs := .ok remote.log.refsNow
  pull _ repo oid :=
    match copyClosure sha256 remote.repo turns repo oid with
    | (.done n, repo) => (.ok n, repo)
    | (.failed e, repo) => (.error (.copy e), repo)
    | (.panicked p, repo) => (.error (.panicked p), repo)
    | (.unfinished, repo) => (.error .unfinished, repo)

/-- The refs that a server has. -/
def fetchRefs (json : WireJson) (wire : Wire) (authority : Str) (token : Option Str) : Except FetchError Refs :=
  match httpRequest wire authority "GET".toList "/refs".toList [] token with
  | .error e => .error (.http e.text)
  | .ok response =>
      if response.status ≠ 200 then .error (.status authority response.status)
      else (json.refsFromSlice response.body).elim (.error .decode) .ok

/-- A server as a pull meets it. -/
def httpServer (wire : Nat → Wire) (authority : Str) (token : Option Str) : Server := fun n id =>
  match httpRequest (wire n) authority "GET".toList ("/object/".toList ++ id.toText) [] token with
  | .error e => .error e.text
  | .ok response => .ok (response.status, response.body)

/-- A remote behind a server. The wire is told which pull and which request of it is on it; the refs
    are asked for before the first pull. -/
def Upstream.http (json : WireJson) (wire : Nat → Nat → Wire) (authority : Str) (token : Option Str) (turns : Nat) :
    Upstream where
  refs := fetchRefs json (wire 0 0) authority token
  pull k repo oid :=
    match pullClosureHttp sha256 (httpServer (wire (k + 1)) authority token) turns repo oid with
    | (.done n, repo) => (.ok n, repo)
    | (.failed e, repo) => (.error (.pull e), repo)
    | (.panicked p, repo) => (.error (.panicked p), repo)
    | (.unfinished, repo) => (.error .unfinished, repo)

end

/-! ## Pushing -/

/-- Why a push fails. -/
inductive PushError where
  | noSnapshot (change : ChangeId)
  | tip (tip : Str)
  | store (e : StoreError)
  | copy (e : WorkError)
  | refused (e : ErrorChain)
  | http (reason : Str)
  | status (authority : Str) (code : Nat) (body : List UInt8)
  | decode
  | panicked (p : Panic)
  | unfinished
  deriving DecidableEq

/-- A refusal without its causes. -/
def PushError.outermost : PushError → PushError
  | refused e => refused ⟨e.text, []⟩
  | e => e

/-- The tips of a submission's changes, as the refs have them. -/
def resolveTips (refs : Refs) (changes : List ChangeId) : Except PushError (List (ChangeId × CommitId)) :=
  changes.mapM fun change => (refs[change]?).elim (.error (.noSnapshot change)) fun tip => .ok (change, tip)

def tipId (tip : CommitId) : Except PushError ObjectId :=
  match ObjectId.parse tip with
  | .error p => .error (.panicked p)
  | .ok (.error _) => .error (.tip tip)
  | .ok (.ok oid) => .ok oid

section

variable (sha256 : List UInt8 → ObjectId) (land : LandPushed)

/-- The loop that gathers objects, for so many turns: those it has, and the ids it has seen. -/
def gatherLoop (repo : Repository) :
    Nat → List ObjectId → List (Str × Str) → List ObjectId → Except PushError (List (Str × Str) × List ObjectId)
  | 0, _, _, _ => .error .unfinished
  | _ + 1, [], out, seen => .ok (out, seen)
  | turns + 1, id :: stack, out, seen =>
      if id ∈ seen then gatherLoop repo turns stack out seen
      else
        match repo.readObject sha256 id with
        | .error p => .error (.panicked p)
        | .ok (.error e) => .error (.store e)
        | .ok (.ok o) =>
            gatherLoop repo turns (children o ++ stack) (out ++ [(id.toText, toHex o.serialize)]) (id :: seen)

/-- Gather the objects below a root that have not been seen. -/
def gatherClosure (repo : Repository) (turns : Nat) (root : ObjectId) (out : List (Str × Str)) (seen : List ObjectId) :
    Except PushError (List (Str × Str) × List ObjectId) :=
  gatherLoop sha256 repo turns [root] out seen

def gatherTips (repo : Repository) (turns : Nat) :
    List (ChangeId × CommitId) → List (Str × Str) → List ObjectId → Except PushError (List (Str × Str))
  | [], out, _ => .ok out
  | (_, tip) :: rest, out, seen => do
      let oid ← tipId tip
      let (out, seen) ← gatherClosure sha256 repo turns oid out seen
      gatherTips repo turns rest out seen

/-- What a push sends. -/
def pushPayload (turns : Nat) (site : Site) (queue : Str) (sub : Submission) : Except PushError WirePayload := do
  let tips ← resolveTips site.log.refsNow sub.changes
  let objects ← gatherTips sha256 site.repo turns tips [] []
  pure ⟨queue, sub, tips, objects⟩

/-- Copy what is below the tips, one after the other. -/
def copyTips (source : Repository) (turns : Nat) :
    List (ChangeId × CommitId) → Repository → Except PushError Unit × Repository
  | [], repo => (.ok (), repo)
  | (_, tip) :: rest, repo =>
      match tipId tip with
      | .error e => (.error e, repo)
      | .ok oid =>
          match copyClosure sha256 source turns repo oid with
          | (.done _, repo) => copyTips source turns rest repo
          | (.failed e, repo) => (.error (.copy e), repo)
          | (.panicked p, repo) => (.error (.panicked p), repo)
          | (.unfinished, repo) => (.error .unfinished, repo)

/-- Push to a repository at a path: what is said of it, and the repository. -/
def cmdPushPath (turns : Nat) (site : Site) (queue : Str) (sub : Submission) (remote : Site) :
    Except PushError Str × Site :=
  match resolveTips site.log.refsNow sub.changes with
  | .error e => (.error e, remote)
  | .ok tips =>
      match copyTips sha256 site.repo turns tips remote.repo with
      | (.error e, repo) => (.error e, { remote with repo := repo })
      | (.ok (), repo) =>
          let r := land { remote with repo := repo } queue sub tips
          (r.1.mapError .refused, r.2)

/-- What a client makes of the answer to a push. -/
def pushReply (json : WireJson) (authority : Str) : Except HttpError HttpResponse → Except PushError Str
  | .error e => .error (.http e.text)
  | .ok response =>
      if response.status ≠ 200 then .error (.status authority response.status response.body)
      else
        match json.resultFromSlice response.body with
        | none => .error .decode
        | some result => if result.ok then .ok result.message else .error (.refused ⟨result.message, []⟩)

/-- Push to a server. What is posted to it gives an answer and the repository it leaves there. -/
def cmdPushHttp (json : WireJson) (post : List UInt8 → Except Str (List UInt8) × Site) (authority : Str)
    (token : Option Str) (turns : Nat) (site : Site) (queue : Str) (sub : Submission) (remote : Site) :
    Except PushError Str × Site :=
  match pushPayload sha256 turns site queue sub with
  | .error e => (.error e, remote)
  | .ok payload =>
      let body := json.payloadToVec payload
      (pushReply json authority
          (httpRequest (fun sent => (post sent).1) authority "POST".toList "/push".toList body token),
        (post (requestBytes authority "POST".toList "/push".toList body token)).2)

end

/-! ## What a client and a server come to -/

theorem hexEncode_visible {bytes : List UInt8} {c : Char} (h : c ∈ hexEncode bytes) : isWhiteSpace c = false := by
  have hdigit : ∀ n < 16, isWhiteSpace (hexDigit n) = false := by decide
  unfold hexEncode at h
  obtain ⟨b, -, hc⟩ := List.mem_flatMap.mp h
  have hlt : b.toNat < 256 := b.toNat_lt
  rcases List.mem_cons.mp hc with rfl | hc
  · exact hdigit _ (by omega)
  · rw [List.mem_singleton.mp hc]
    exact hdigit _ (by omega)

theorem ObjectId.toText_visible {id : ObjectId} {c : Char} (h : c ∈ id.toText) : isWhiteSpace c = false := by
  have hscheme : "sha256:".toList.all fun c => !isWhiteSpace c := by decide
  rcases List.mem_append.mp h with h | h
  · simpa using List.all_eq_true.mp hscheme c h
  · exact hexEncode_visible h

section

variable {sha256 : List UInt8 → ObjectId} {display : Display} {json : WireJson} {land : LandPushed}

/-- The bytes that a client sends reach a server in some pieces, and its answer comes back. -/
def Answers (sha256 : List UInt8 → ObjectId) (display : Display) (json : WireJson) (land : LandPushed)
    (token : Option Str) (site : Site) (wire : Wire) : Prop :=
  ∀ sent, ∃ conn rest, Delivers sent conn rest ∧ wire sent = .ok (handle sha256 display json land token site conn).1

/-- A client has the token of a server that has one. -/
def Admits (server client : Option Str) : Prop := server = none ∨ client.bind heardToken = server

/-- A client can say its token and the host, each on its line. -/
def Sayable (authority : Str) (token : Option Str) : Prop := '\n' ∉ authority ∧ ∀ t ∈ token, '\n' ∉ t

theorem handle_of_admits {server client : Option Str} (hadmits : Admits server client) {authority method path : Str}
    (hsayable : Sayable authority client) (hmethod : Word method) (hpath : Word path) {body : List UInt8}
    (hbody : body.length < UInt64.size) {conn rest : Connection}
    (hsent : Delivers (requestBytes authority method path body client) conn rest) (site : Site) :
    handle sha256 display json land server site conn =
      route sha256 display json land site ⟨method, path, client.bind heardToken, body⟩ := by
  have hread := readRequest_sent hsayable.1 hmethod hpath hsayable.2 hbody hsent
  have hgate : ¬ (server.isSome ∧ client.bind heardToken ≠ server) := by
    rintro ⟨hsome, hne⟩
    cases hadmits with
    | inl hnone =>
        rw [hnone] at hsome
        cases hsome
    | inr heq => exact hne heq
  unfold handle
  simp only [hread, if_neg hgate]

/-- What a server answers a client with is what the client has asked for. -/
theorem httpRequest_of_route {server client : Option Str} (hadmits : Admits server client)
    {authority method path : Str} (hsayable : Sayable authority client) (hmethod : Word method) (hpath : Word path)
    {site : Site} {wire : Wire} (hwire : Answers sha256 display json land server site wire) {status : Nat}
    {reply : List UInt8} {reason : Str} (hstatus : status < UInt16.size) (hreason : '\n' ∉ reason)
    (hroute : (route sha256 display json land site ⟨method, path, client.bind heardToken, []⟩).1 =
      writeResponse status reply reason) :
    httpRequest wire authority method path [] client = .ok ⟨status, reply⟩ := by
  obtain ⟨conn, rest, hsent, hanswer⟩ := hwire (requestBytes authority method path [] client)
  rw [handle_of_admits hadmits hsayable hmethod hpath (by decide) hsent, hroute] at hanswer
  unfold httpRequest
  rw [hanswer]
  exact parseResponse_writeResponse hstatus hreason reply

theorem fetchRefs_of_answers {server client : Option Str} (hadmits : Admits server client) {authority : Str}
    (hsayable : Sayable authority client) {site : Site} {wire : Wire}
    (hwire : Answers sha256 display json land server site wire)
    (hjson : json.refsFromSlice (json.refsToVec (serveRefs site)) = some (serveRefs site)) :
    fetchRefs json wire authority client = .ok (serveRefs site) := by
  have hroute : (route sha256 display json land site ⟨"GET".toList, "/refs".toList, client.bind heardToken, []⟩).1 =
      writeResponse 200 (json.refsToVec (serveRefs site)) "OK".toList := by
    unfold route
    rw [if_pos ⟨rfl, rfl⟩]
  have hget := httpRequest_of_route hadmits hsayable (.of_all (by decide)) (.of_all (by decide)) hwire (by decide)
    (by decide) hroute
  unfold fetchRefs
  simp only [hget, ne_eq, not_true_eq_false, if_false, hjson, Option.elim_some]

theorem hasObject_of_readObject {repo : Repository} {id : ObjectId} {o : Object}
    (h : repo.readObject sha256 id = .ok (.ok o)) : repo.hasObject id = true := by
  rw [Repository.hasObject_eq_true_iff]
  unfold Repository.readObject at h
  cases hbytes : repo.objects[id.toText]? with
  | none =>
      rw [hbytes] at h
      cases h
  | some bytes => exact ⟨bytes, rfl⟩

theorem httpServer_of_answers {server client : Option Str} (hadmits : Admits server client) {authority : Str}
    (hsayable : Sayable authority client) {site : Site} {wire : Nat → Wire} {n : Nat}
    (hwire : Answers sha256 display json land server site (wire n)) {id : ObjectId} {o : Object}
    (hread : site.repo.readObject sha256 id = .ok (.ok o)) :
    httpServer wire authority client n id = .ok (200, o.serialize) := by
  have hpath : Word ("/object/".toList ++ id.toText) := by
    refine ⟨fun hnil => absurd (List.append_eq_nil_iff.mp hnil).1 (by decide), fun c hc => ?_⟩
    rcases List.mem_append.mp hc with hc | hc
    · have hall : "/object/".toList.all fun c => !isWhiteSpace c := by decide
      simpa using List.all_eq_true.mp hall c hc
    · exact ObjectId.toText_visible hc
  have hserve : serveObject sha256 site id.toText = .ok (.ok (some o.serialize)) := by
    unfold serveObject
    simp only [ObjectId.parse_toText, hasObject_of_readObject hread, hread, bind, Except.bind, if_true]
    rfl
  have hroute : (route sha256 display json land site
      ⟨"GET".toList, "/object/".toList ++ id.toText, client.bind heardToken, []⟩).1 =
        writeResponse 200 o.serialize "OK".toList := by
    have hrefs : ¬ ("GET".toList = "GET".toList ∧ "/object/".toList ++ id.toText = "/refs".toList) := fun h => by
      cases h.2
    have hobject : "GET".toList = "GET".toList ∧
        "/object/".toList.isPrefixOf ("/object/".toList ++ id.toText) = true :=
      ⟨rfl, List.isPrefixOf_iff_prefix.mpr (List.prefix_append _ _)⟩
    unfold route
    rw [if_neg hrefs, if_pos hobject]
    simp only [List.drop_left, hserve]
  have hget := httpRequest_of_route hadmits hsayable (.of_all (by decide)) hpath hwire (by decide) (by decide) hroute
  unfold httpServer
  rw [hget]

end

end Omoplata
