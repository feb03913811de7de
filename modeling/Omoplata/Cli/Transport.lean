-- SUMMARY: Fetching and pushing over HTTP leave what fetching and pushing over a path leave.
import Omoplata.Cli.Serve

/-!
# The two transports

Each of the walks fills in the same ids: what the root leads to in the source. So the repositories
they leave are one, and what the commands do with them besides is the same code.
-/

open Chunks Relation Walk

namespace Omoplata

section

variable {sha256 : List UInt8 → ObjectId} {source target target' : Repository} {stack seen found : List ObjectId}

theorem childrenOf_eq {id : ObjectId} {o : Object} (h : source.readObject sha256 id = .ok (.ok o)) :
    childrenOf sha256 source id = children o := by
  unfold childrenOf
  rw [h]

theorem leads_childrenOf (a : ObjectId) :
    Leads (fun a b => b ∈ childrenOf sha256 source a) stack a ↔ Leads (RefersTo sha256 source) stack a := by
  have heq : (fun a b => b ∈ childrenOf sha256 source a) = RefersTo sha256 source :=
    funext fun a => funext fun b => propext (mem_childrenOf_iff a b)
  rw [heq]

/-- What a copy has written is filled in. -/
theorem Copies.fills {missing : List ObjectId} (h : Copies sha256 source stack target target' missing) :
    Fills sha256 source {id | Leads (RefersTo sha256 source) stack id} target target' := by
  refine ⟨fun id hid => h.readable id hid, fun key bytes => ?_⟩
  constructor
  · intro hkey
    rcases h.only key bytes hkey with hhad | ⟨id, hid, rfl⟩
    · exact .inl hhad
    · obtain ⟨hleads, hnone⟩ := (h.mem id).mp hid
      obtain ⟨o, ho⟩ := h.readable id hleads
      rw [h.stored id o hid ho, Option.some.injEq] at hkey
      exact .inr ⟨Std.ExtTreeMap.getElem?_eq_none_of_contains_eq_false hnone, id, hleads, o, rfl, ho, hkey⟩
  · rintro (hhad | ⟨hnone, id, hid, o, rfl, ho, rfl⟩)
    · exact h.kept key bytes hhad
    · refine h.stored id o ((h.mem id).mpr ⟨hid, ?_⟩) ho
      rw [← Bool.not_eq_true, Repository.hasObject_eq_true_iff]
      rintro ⟨bytes, hbytes⟩
      rw [hnone] at hbytes
      cases hbytes

/-- Where all that is to come can be read, a walk that remembers comes to an end. -/
theorem exists_gather_of_readable (seen : List ObjectId)
    (hreadable : ∀ id, Leads (RefersTo sha256 source) stack id → ∃ o, source.readObject sha256 id = .ok (.ok o)) :
    ∃ turns found, ∀ more, turns ≤ more → gather (childrenOf sha256 source) more stack seen = some found := by
  have hmem : ∀ a, Leads (RefersTo sha256 source) stack a → a ∈ source.ids.dedup := by
    intro a ha
    obtain ⟨o, ho⟩ := hreadable a ha
    obtain ⟨bytes, hbytes⟩ := Repository.hasObject_eq_true_iff.mp (hasObject_of_readObject ho)
    exact List.mem_dedup.mpr (Repository.mem_ids hbytes)
  have hsuccs : ∀ a, Leads (RefersTo sha256 source) stack a →
      ∀ b ∈ childrenOf sha256 source a, Leads (RefersTo sha256 source) stack b :=
    fun a ha b hb => ha.tail ((mem_childrenOf_iff a b).mp hb)
  obtain ⟨found, hfound⟩ := exists_gather (List.nodup_dedup source.ids) hmem hsuccs (fun a ha => .root ha)
    (Nat.lt_succ_self (turns source.ids.dedup (fun a => (childrenOf sha256 source a).length) seen stack))
  exact ⟨_, found, fun more hle => gather_mono hfound hle⟩

/-- The objects under some ids, one for each. -/
def ReadsAll (sha256 : List UInt8 → ObjectId) (source : Repository) (found : List ObjectId) (objects : List Object) :
    Prop :=
  List.Forall₂ (fun id o => source.readObject sha256 id = .ok (.ok o)) found objects

/-- A fetch from a server that has the objects of the source writes those that it comes to, and
    counts those that were missing. -/
theorem Pull.run_of_gather {serve : Server}
    (hserve : ∀ n id o, source.readObject sha256 id = .ok (.ok o) → serve n id = .ok (200, o.serialize))
    {turns : Nat} (hgather : gather (childrenOf sha256 source) turns stack seen = some found)
    (hread : ∀ a ∈ found, ∃ o, source.readObject sha256 a = .ok (.ok o)) (halike : ReadsAlike sha256 source target)
    (written requests : Nat) :
    ∃ objects, ReadsAll sha256 source found objects ∧
      Pull.run sha256 serve turns ⟨stack, seen, target, written, requests⟩ =
        (.done (written + (found.filter fun a => !target.hasObject a).length), target.writeAll sha256 objects) := by
  induction turns generalizing stack seen found target written requests with
  | zero => cases hgather
  | succ turns ih =>
      rcases gather_eq_some hgather with ⟨rfl, rfl⟩ | ⟨a, rest, rfl, ⟨hseen, hrest⟩ | ⟨hseen, later, rfl, hrest⟩⟩
      · exact ⟨[], .nil, rfl⟩
      · obtain ⟨objects, hobjects, hrun⟩ := ih hrest hread halike written requests
        refine ⟨objects, hobjects, ?_⟩
        rw [← hrun, Pull.run, Pull.step]
        simp only [if_pos hseen]
      · obtain ⟨⟨o, ho⟩, hlater⟩ := List.forall_mem_cons.mp hread
        rw [childrenOf_eq ho] at hrest
        cases hhas : target.hasObject a with
        | true =>
            obtain ⟨objects, hobjects, hrun⟩ := ih hrest hlater halike written requests
            refine ⟨o :: objects, .cons ho hobjects, ?_⟩
            have hsame : (target.writeObject sha256 o).2 = target := by
              have hcontains : target.objects.contains (o.id sha256).toText = true :=
                (Repository.id_of_readObject sha256 ho).symm ▸ hhas
              unfold Repository.writeObject
              simp only [hcontains, if_true]
            have hwrite : target.writeAll sha256 (o :: objects) = target.writeAll sha256 objects := by
              unfold Repository.writeAll
              rw [List.foldl_cons, hsame]
            rw [hwrite, List.filter_cons_of_neg (by simp [hhas]), ← hrun, Pull.run, Pull.step]
            simp only [if_neg hseen, hhas, if_true, halike a o ho hhas]
        | false =>
            have hfetch : fetchObject serve requests a = .ok o.serialize := by
              unfold fetchObject
              simp only [hserve requests a o ho, ne_eq, not_true_eq_false, if_false]
            have hfills : Fills sha256 source {a} target (target.writeObject sha256 o).2 := .write ho
            obtain ⟨objects, hobjects, hrun⟩ :=
              ih hrest hlater (hfills.readsAlike halike) (written + 1) (requests + 1)
            refine ⟨o :: objects, .cons ho hobjects, ?_⟩
            -- What is kept later is another id, so it was missing before if it is missing now.
            have hcount : (later.filter fun b => !(target.writeObject sha256 o).2.hasObject b) =
                later.filter fun b => !target.hasObject b := by
              refine List.filter_congr fun b hb => congrArg (!·) (Bool.eq_iff_iff.mpr ?_)
              rw [hfills.hasObject, Set.mem_singleton_iff]
              refine or_iff_left fun heq => ?_
              exact (nodup_gather hrest).2 b hb (heq ▸ List.mem_cons_self)
            rw [hcount] at hrun
            rw [List.filter_cons_of_pos (by simp [hhas]), List.length_cons, ← Nat.add_assoc, Nat.add_right_comm]
            refine Eq.trans ?_ hrun
            rw [Pull.run, Pull.step]
            simp only [if_neg hseen, hhas, Bool.false_eq_true, if_false, hfetch, Object.deserialize_serialize]

/-- A copy over a path that ends well has the fetch from a server end with the same count and the same
    repository. -/
theorem pullClosureHttp_of_copyClosure {serve : Server}
    (hserve : ∀ n id o, source.readObject sha256 id = .ok (.ok o) → serve n id = .ok (200, o.serialize))
    (halike : ReadsAlike sha256 source target) {turns copied : Nat} {root : ObjectId}
    (hcopy : copyClosure sha256 source turns target root = (.done copied, target')) :
    ∃ fuel, ∀ more, fuel ≤ more → pullClosureHttp sha256 serve more target root = (.done copied, target') := by
  obtain ⟨missing, hcopies, hn⟩ := Copies.run hcopy
  obtain ⟨fuel, found, hgather⟩ := exists_gather_of_readable [] hcopies.readable
  have hmem : ∀ a, a ∈ found ↔ Leads (RefersTo sha256 source) [root] a := by
    intro a
    have hexplores : Explores (fun a b => b ∈ childrenOf sha256 source a) [root] {a | a ∈ ([] : List ObjectId)} [root] := by
      have hinit : Explores (fun a b => b ∈ childrenOf sha256 source a) [root] ∅ [root] := .init fun a => Iff.rfl
      simpa using hinit
    rw [← leads_childrenOf, ← mem_gather hexplores (hgather fuel le_rfl) a, or_iff_right List.not_mem_nil]
  refine ⟨fuel, fun more hle => ?_⟩
  obtain ⟨objects, hobjects, hrun⟩ := Pull.run_of_gather hserve (hgather more hle)
    (fun a ha => hcopies.readable a ((hmem a).mp ha)) halike 0 0
  have hcount : (found.filter fun a => !target.hasObject a).length = missing.length := by
    refine List.Perm.length_eq ((List.perm_ext_iff_of_nodup ?_ hcopies.nodup).mpr fun a => ?_)
    · exact (nodup_gather (hgather fuel le_rfl)).1.filter _
    · rw [List.mem_filter, hmem, hcopies.mem, Bool.not_eq_true']
  have hfills : Fills sha256 source {a | a ∈ found} target (target.writeAll sha256 objects) := .writeAll hobjects target
  have hsame : target.writeAll sha256 objects = target' := by
    have hids : {a | a ∈ found} = {a | Leads (RefersTo sha256 source) [root] a} := Set.ext hmem
    exact (hids ▸ hfills).unique hcopies.fills
  unfold pullClosureHttp
  rw [hrun, hsame, hcount, hn]

end

/-! ## Fetching -/

section

variable {sha256 : List UInt8 → ObjectId} {display : Display} {json : WireJson} {land : LandPushed}

/-- A server of a remote is reached: it has the refs of the remote when they are asked for, and at every
    request after that, whatever else it has been sent by then, the objects of the remote. -/
structure Online (sha256 : List UInt8 → ObjectId) (display : Display) (json : WireJson) (land : LandPushed)
    (token : Option Str) (remote : Site) (wire : Nat → Nat → Wire) : Prop where
  refs : ∃ site : Site, site.log = remote.log ∧ Answers sha256 display json land token site (wire 0 0)
  objects : ∀ k n, ∃ site : Site,
    (∀ id o, remote.repo.readObject sha256 id = .ok (.ok o) → site.repo.readObject sha256 id = .ok (.ok o)) ∧
      Answers sha256 display json land token site (wire (k + 1) n)

variable {server client : Option Str} {authority name : Str} {remote : Site} {wire : Nat → Nat → Wire}

theorem fetchTips_of_path (hadmits : Admits server client) (hsayable : Sayable authority client)
    (honline : Online sha256 display json land server remote wire) {turns : Nat} {tips : List (Str × CommitId)} {k : Nat}
    {target target' : Repository} {r : Nat × List (Str × CommitId)} (halike : ReadsAlike sha256 remote.repo target)
    (hpath : fetchTips (.path sha256 turns remote) name tips k target = (.ok r, target')) :
    ∃ fuel, ∀ more, fuel ≤ more →
      fetchTips (.http sha256 json wire authority client more) name tips k target = (.ok r, target') := by
  induction tips generalizing k target r with
  | nil => exact ⟨0, fun more _ => hpath⟩
  | cons entry tips ih =>
      obtain ⟨refname, tip⟩ := entry
      -- what the remote reads over a path it serves
      have hserve : ∀ n id o, remote.repo.readObject sha256 id = .ok (.ok o) →
          httpServer (wire (k + 1)) authority client n id = .ok (200, o.serialize) := by
        intro n id o ho
        obtain ⟨site, hkeeps, hanswers⟩ := honline.objects k n
        exact httpServer_of_answers hadmits hsayable hanswers (hkeeps id o ho)
      unfold fetchTips at hpath
      split at hpath
      · cases hpath
      · cases hpath
      · rename_i oid htip
        unfold Upstream.path at hpath
        simp only at hpath
        cases hcopy : copyClosure sha256 remote.repo turns target oid with
        | mk ended copied =>
            rw [hcopy] at hpath
            cases ended with
            | done n =>
                simp only [Prod.mk.injEq] at hpath
                obtain ⟨hr, hrepo⟩ := hpath
                obtain ⟨rest, hrest, rfl⟩ := Codec.map_eq_ok.mp hr
                obtain ⟨missing, hcopies, -⟩ := Copies.run hcopy
                -- the closure that was copied is pulled with fuel enough, and the rest starts from there
                obtain ⟨fuel, hpull⟩ := pullClosureHttp_of_copyClosure hserve halike hcopy
                obtain ⟨fuel', hlater⟩ := ih (hcopies.fills.readsAlike halike) (Prod.ext hrest hrepo)
                refine ⟨max fuel fuel', fun more hle => ?_⟩
                have hpull := hpull more ((Nat.le_max_left fuel fuel').trans hle)
                have hlater := hlater more ((Nat.le_max_right fuel fuel').trans hle)
                unfold Upstream.http at hlater
                unfold fetchTips Upstream.http
                simp only [htip, hpull, hlater]
                rfl
            | failed e => cases hpath
            | panicked p => cases hpath
            | unfinished => cases hpath

theorem landed_serveRefs (site : Site) :
    ((serveRefs site).toList.filter fun entry => isPublic entry.1) =
      site.log.refsNow.toList.filter fun entry => isPublic entry.1 := by
  unfold serveRefs
  rw [Std.ExtTreeMap.toList_filter, List.filter_filter]
  refine List.filter_congr fun entry _ => ?_
  unfold isPublic
  cases "public/".toList.isPrefixOf entry.1 with
  | true => rfl
  | false => rfl

/-- A fetch that goes well over a path goes the same way over HTTP, whatever pieces the messages come
    in, from a server that others push to meanwhile: it counts the same, and leaves the same objects and
    the same log. -/
theorem cmdFetch_http (hadmits : Admits server client) (hsayable : Sayable authority client)
    (honline : Online sha256 display json land server remote wire)
    (hjson : json.refsFromSlice (json.refsToVec (serveRefs remote)) = some (serveRefs remote)) {site site' : Site}
    (halike : ReadsAlike sha256 remote.repo site.repo) {turns : Nat} {r : Option (Nat × Nat)}
    (hpath : cmdFetch (.path sha256 turns remote) name site = (.ok r, site')) :
    ∃ fuel, ∀ more, fuel ≤ more →
      cmdFetch (.http sha256 json wire authority client more) name site = (.ok r, site') := by
  have hrefs : fetchRefs json (wire 0 0) authority client = .ok (serveRefs remote) := by
    obtain ⟨served, hlog, hanswers⟩ := honline.refs
    have hsame : serveRefs served = serveRefs remote := by
      unfold serveRefs
      rw [hlog]
    rw [← hsame] at hjson ⊢
    exact fetchRefs_of_answers hadmits hsayable hanswers hjson
  have hhttp : ∀ more, (Upstream.http sha256 json wire authority client more).refs = .ok (serveRefs remote) := fun _ => hrefs
  have hlog : (Upstream.path sha256 turns remote).refs = .ok remote.log.refsNow := rfl
  unfold cmdFetch at hpath ⊢
  simp only [hhttp, hlog, landed_serveRefs] at hpath ⊢
  split at hpath
  · rename_i hnone
    simp only [if_pos hnone]
    exact ⟨0, fun _ _ => hpath⟩
  · rename_i hsome
    simp only [if_neg hsome]
    split at hpath
    · cases hpath
    · rename_i objects tracking repo htips
      obtain ⟨fuel, hfuel⟩ := fetchTips_of_path hadmits hsayable honline halike htips
      refine ⟨fuel, fun more hle => ?_⟩
      rw [hfuel more hle]
      exact hpath

end

section

/-- A connection that brings its bytes one at a time. -/
def byteByByte : List UInt8 → Connection
  | [] => .closed
  | b :: bytes => .piece [b] (byteByByte bytes)

theorem delivers_byteByByte (sent : List UInt8) : Delivers sent (byteByByte sent) .closed := by
  induction sent with
  | nil => exact .done
  | cons b sent ih => exact .piece (List.cons_ne_nil b []) ih

/-- A text in JSON that has nothing to escape. -/
def quoted (s : Str) : Str := '"' :: (s ++ ['"'])

def refsText (refs : Refs) : Str :=
  joinTexts [['\x7b'], [','].intercalate (refs.toList.map fun entry => quoted entry.1 ++ ':' :: quoted entry.2), ['\x7d']]

def pairText (pair : Str × Str) : Str := joinTexts ["[".toList, quoted pair.1, ",".toList, quoted pair.2, "]".toList]

/-- A push of a pending submission. -/
def payloadText (payload : WirePayload) : Str :=
  joinTexts ["\x7b\"queue\":".toList, quoted payload.queue, ",\"submission\":\x7b\"id\":".toList,
    quoted payload.submission.id, ",\"title\":".toList, quoted payload.submission.title, ",\"changes\":[".toList,
    [','].intercalate (payload.submission.changes.map quoted), "],\"author\":".toList,
    quoted payload.submission.author, ",\"approval\":\"Pending\"\x7d,\"tips\":[".toList,
    [','].intercalate (payload.tips.map pairText), "],\"objects\":[".toList,
    [','].intercalate (payload.objects.map pairText), "]\x7d".toList]

def resultText (result : PushResult) : Str :=
  joinTexts ["\x7b\"ok\":".toList, if result.ok then "true".toList else "false".toList, ",\"message\":".toList,
    quoted result.message, "\x7d".toList]

/-- The library on the bodies of one run. -/
def jsonOf (refs : Refs) (payload : WirePayload) (result : PushResult) : WireJson where
  refsToVec r := utf8 (refsText r)
  refsFromSlice bytes := if bytes = utf8 (refsText refs) then some refs else none
  payloadToVec p := utf8 (payloadText p)
  payloadFromSlice bytes := if bytes = utf8 (payloadText payload) then some payload else none
  resultToVec r := utf8 (resultText r)
  resultFromSlice bytes := if bytes = utf8 (resultText result) then some result else none

theorem jsonOf_reads (refs : Refs) (payload : WirePayload) (result : PushResult) :
    let json := jsonOf refs payload result
    json.refsFromSlice (json.refsToVec refs) = some refs ∧
      json.payloadFromSlice (json.payloadToVec payload) = some payload ∧
      json.resultFromSlice (json.resultToVec result) = some result :=
  ⟨if_pos rfl, if_pos rfl, if_pos rfl⟩

theorem length_utf8_le (s : Str) : (utf8 s).length ≤ 4 * s.length := by
  induction s with
  | nil => exact le_rfl
  | cons c s ih =>
      have hcons : utf8 (c :: s) = String.utf8EncodeChar c ++ utf8 s := rfl
      have hsize : (String.utf8EncodeChar c).length ≤ 4 := String.length_utf8EncodeChar c ▸ c.utf8Size_le_four
      rw [hcons, List.length_append, List.length_cons]
      omega

def quietDisplay : Display := ⟨fun _ => [], fun _ => []⟩

/-- A landing that publishes the tips. -/
def publish : LandPushed := fun site _ _ tips =>
  (.ok "landed".toList,
    { site with log := tips.foldl (fun log entry => log.setRef ("public/".toList ++ entry.1) (some entry.2) none) site.log })

def sampleId : ObjectId := sharedBlob.id ObjectId.ofSha256

/-- A file under a change that has landed. -/
def landedSite : Site :=
  ⟨.ofObjects ObjectId.ofSha256 [sharedBlob], OpLog.new.setRef "public/c".toList (some sampleId.toText) none⟩

def emptySite : Site := ⟨.init, .new⟩

theorem readsAlike_init (sha256 : List UInt8 → ObjectId) (source : Repository) : ReadsAlike sha256 source .init := by
  intro id o _ hhas
  unfold Repository.hasObject Repository.init at hhas
  rw [Std.ExtTreeMap.contains_empty] at hhas
  cases hhas

def sampleSubmission : Submission := .new "s".toList "t".toList ["c".toList] "a".toList

def samplePayload : WirePayload where
  queue := "trunk".toList
  submission := sampleSubmission
  tips := [("c".toList, sampleId.toText)]
  objects := [(sampleId.toText, toHex sharedBlob.serialize)]

/-- The file is fetched by a client whose token has spaces around it. -/
theorem cmdFetch_http_blob :
    let json := jsonOf (serveRefs landedSite) samplePayload ⟨true, []⟩
    let wire : Nat → Nat → Wire := fun _ _ sent => .ok (handle ObjectId.ofSha256 quietDisplay json publish
      (some "key".toList) landedSite (byteByByte sent)).1
    ∃ fuel, ∀ more, fuel ≤ more →
      cmdFetch (.http ObjectId.ofSha256 json wire "host:80".toList (some " key ".toList) more) "hub".toList emptySite =
        (.ok (some (1, 1)), (cmdFetch (.path ObjectId.ofSha256 2 landedSite) "hub".toList emptySite).2) := by
  intro json wire
  have hanswers : Answers ObjectId.ofSha256 quietDisplay json publish (some "key".toList) landedSite (wire 0 0) :=
    fun sent => ⟨byteByByte sent, .closed, delivers_byteByByte sent, rfl⟩
  have honline : Online ObjectId.ofSha256 quietDisplay json publish (some "key".toList) landedSite wire :=
    ⟨⟨landedSite, rfl, hanswers⟩, fun k n => ⟨landedSite, fun _ _ => id, hanswers⟩⟩
  have hdone : (cmdFetch (.path ObjectId.ofSha256 2 landedSite) "hub".toList emptySite).1 = .ok (some (1, 1)) := by
    decide +kernel
  have hadmits : Admits (some "key".toList) (some " key ".toList) := .inr (by decide)
  have hsayable : Sayable "host:80".toList (some " key ".toList) := ⟨by decide, by decide⟩
  generalize hpath : cmdFetch (.path ObjectId.ofSha256 2 landedSite) "hub".toList emptySite = r at hdone ⊢
  obtain ⟨outcome, site'⟩ := r
  cases hdone
  exact cmdFetch_http hadmits hsayable honline (jsonOf_reads _ _ _).1 (readsAlike_init _ _) hpath

end

/-! ## Objects on the wire -/

theorem fromHexPairs_append (b : UInt8) (rest : List UInt8) :
    fromHexPairs (utf8 [hexDigit (b.toNat / 16), hexDigit (b.toNat % 16)] ++ rest) = (fromHexPairs rest).map (b :: ·) := by
  have hlt : b.toNat < 256 := b.toNat_lt
  have hbyte : ∀ n < 16, utf8 [hexDigit n] = [UInt8.ofNat (hexDigit n).toNat] ∧
      hexValue (Char.ofNat (UInt8.ofNat (hexDigit n).toNat).toNat) = some n := by decide
  obtain ⟨hhigh, hhigh'⟩ := hbyte (b.toNat / 16) (by omega)
  obtain ⟨hlow, hlow'⟩ := hbyte (b.toNat % 16) (by omega)
  have hpair : utf8 [hexDigit (b.toNat / 16), hexDigit (b.toNat % 16)] =
      utf8 [hexDigit (b.toNat / 16)] ++ utf8 [hexDigit (b.toNat % 16)] := utf8_append [_] [_]
  rw [hpair, hhigh, hlow, List.singleton_append, List.cons_append, List.singleton_append, fromHexPairs]
  simp only [hhigh', hlow']
  rw [Nat.div_add_mod', UInt8.ofNat_toNat]

/-- What is written in hexadecimal is read back. -/
theorem fromHex_toHex (bytes : List UInt8) : fromHex (toHex bytes) = .ok bytes := by
  have hpairs : fromHexPairs (utf8 (hexEncode bytes)) = .ok bytes := by
    induction bytes with
    | nil => rfl
    | cons b bytes ih =>
        have hcons : hexEncode (b :: bytes) =
            [hexDigit (b.toNat / 16), hexDigit (b.toNat % 16)] ++ hexEncode bytes := rfl
        rw [hcons, utf8_append, fromHexPairs_append, ih]
        rfl
  unfold fromHex toHex
  rw [ObjectId.byteLength_hexEncode, if_neg (by omega), hpairs]

/-- The objects as they are sent. -/
def onWire (sha256 : List UInt8 → ObjectId) (objects : List Object) : List (Str × Str) :=
  objects.map fun o => ((o.id sha256).toText, toHex o.serialize)

section

variable {sha256 : List UInt8 → ObjectId} {source target target' : Repository}

theorem writePushed_onWire (display : Display) (objects : List Object) (target : Repository) :
    writePushed sha256 display (onWire sha256 objects) target = (.ok (.ok ()), target.writeAll sha256 objects) := by
  induction objects generalizing target with
  | nil => rfl
  | cons o objects ih =>
      have hobject : objectFromHex display (toHex o.serialize) = .ok (.ok o) := by
        unfold objectFromHex
        rw [fromHex_toHex]
        simp only [Object.deserialize_serialize]
        rfl
      unfold onWire at ih ⊢
      rw [List.map_cons, writePushed]
      simp only [hobject]
      exact ih _

/-! ## Pushing -/

/-- The objects that the walk comes to are gathered. -/
theorem gatherLoop_of_gather {turns : Nat} {stack seen found : List ObjectId}
    (hgather : gather (childrenOf sha256 source) turns stack seen = some found)
    (hread : ∀ a ∈ found, ∃ o, source.readObject sha256 a = .ok (.ok o)) (out : List (Str × Str)) :
    ∃ objects, ReadsAll sha256 source found objects ∧
      gatherLoop sha256 source turns stack out seen = .ok (out ++ onWire sha256 objects, found.reverse ++ seen) := by
  induction turns generalizing stack seen found out with
  | zero => cases hgather
  | succ turns ih =>
      rcases gather_eq_some hgather with ⟨rfl, rfl⟩ | ⟨a, rest, rfl, ⟨hseen, hrest⟩ | ⟨hseen, later, rfl, hrest⟩⟩
      · refine ⟨[], .nil, ?_⟩
        rw [gatherLoop, onWire, List.map_nil, List.append_nil, List.reverse_nil, List.nil_append]
      · obtain ⟨objects, hobjects, hloop⟩ := ih hrest hread out
        refine ⟨objects, hobjects, ?_⟩
        rw [gatherLoop, if_pos hseen, hloop]
      · obtain ⟨⟨o, ho⟩, hlater⟩ := List.forall_mem_cons.mp hread
        rw [childrenOf_eq ho] at hrest
        obtain ⟨objects, hobjects, hloop⟩ := ih hrest hlater (out ++ [(a.toText, toHex o.serialize)])
        refine ⟨o :: objects, .cons ho hobjects, ?_⟩
        have hwire : onWire sha256 (o :: objects) = (a.toText, toHex o.serialize) :: onWire sha256 objects := by
          rw [← Repository.id_of_readObject sha256 ho]
          rfl
        rw [gatherLoop, if_neg hseen]
        simp only [ho, hloop, hwire, List.reverse_cons, List.append_assoc, List.singleton_append]

theorem gatherLoop_mono {turns more : Nat} (hle : turns ≤ more) {stack seen : List ObjectId} {out : List (Str × Str)}
    {r : List (Str × Str) × List ObjectId} (h : gatherLoop sha256 source turns stack out seen = .ok r) :
    gatherLoop sha256 source more stack out seen = .ok r := by
  induction turns generalizing more stack out seen with
  | zero => cases h
  | succ turns ih =>
      obtain ⟨more, rfl⟩ := Nat.exists_eq_succ_of_ne_zero (Nat.ne_of_gt (Nat.lt_of_lt_of_le (Nat.succ_pos _) hle))
      have hle := Nat.le_of_succ_le_succ hle
      cases stack with
      | nil => exact h
      | cons a rest =>
          unfold gatherLoop at h ⊢
          split at h
          · rename_i hseen
            rw [if_pos hseen]
            exact ih hle h
          · rename_i hseen
            rw [if_neg hseen]
            split at h
            · cases h
            · cases h
            · exact ih hle h

theorem gatherTips_mono {turns more : Nat} (hle : turns ≤ more) {tips : List (ChangeId × CommitId)}
    {seen : List ObjectId} {out objects : List (Str × Str)}
    (h : gatherTips sha256 source turns tips out seen = .ok objects) :
    gatherTips sha256 source more tips out seen = .ok objects := by
  induction tips generalizing out seen with
  | nil => exact h
  | cons entry tips ih =>
      obtain ⟨oid, hoid, h⟩ := Codec.bind_eq_ok.mp h
      obtain ⟨r, hgather, h⟩ := Codec.bind_eq_ok.mp h
      exact Codec.bind_eq_ok.mpr ⟨oid, hoid, Codec.bind_eq_ok.mpr ⟨r, gatherLoop_mono hle hgather, ih h⟩⟩

/-- Where a copy from an id ends well, what is gathered from there is what the copy has filled in, but
    for what has been gathered before. -/
theorem gatherLoop_of_copyClosure {turns copied : Nat} {oid : ObjectId} {roots seen : List ObjectId}
    (hseen : ∀ a, a ∈ seen ↔ Leads (RefersTo sha256 source) roots a)
    (hclosure : copyClosure sha256 source turns target oid = (.done copied, target')) (out : List (Str × Str)) :
    ∃ fuel found objects, ReadsAll sha256 source found objects ∧
      Fills sha256 source {a | Leads (RefersTo sha256 source) [oid] a} target target' ∧
      (∀ a ∈ found, Leads (RefersTo sha256 source) [oid] a) ∧
      (∀ a, a ∈ seen ∨ a ∈ found ↔ Leads (RefersTo sha256 source) (roots ++ [oid]) a) ∧
      ∀ more, fuel ≤ more →
        gatherLoop sha256 source more [oid] out seen = .ok (out ++ onWire sha256 objects, found.reverse ++ seen) := by
  obtain ⟨missing, hcopies, -⟩ := Copies.run hclosure
  obtain ⟨fuel, found, hgather⟩ := exists_gather_of_readable seen hcopies.readable
  -- The walk starts where the walks before it have ended.
  have hexplores : Explores (fun a b => b ∈ childrenOf sha256 source a) (roots ++ [oid]) {a | a ∈ seen} [oid] := by
    refine ⟨fun a ha => ?_, fun a ha b hb => ?_, fun a ha => ?_⟩
    · exact (List.mem_append.mp ha).imp_left fun ha => (hseen a).mpr (.root ha)
    · exact .inl ((hseen b).mpr (((hseen a).mp ha).tail ((mem_childrenOf_iff a b).mp hb)))
    · cases ha with
      | inl ha =>
          obtain ⟨r, hr, hreach⟩ := (leads_childrenOf a).mpr ((hseen a).mp ha)
          exact ⟨r, List.mem_append_left _ hr, hreach⟩
      | inr ha => exact ⟨a, List.mem_append_right _ ha, .refl⟩
  have hmem : ∀ a, a ∈ seen ∨ a ∈ found ↔ Leads (RefersTo sha256 source) (roots ++ [oid]) a := fun a => by
    rw [← leads_childrenOf, mem_gather hexplores (hgather fuel le_rfl) a]
  have hfound : ∀ a ∈ found, Leads (RefersTo sha256 source) [oid] a := by
    intro a ha
    obtain ⟨r, hr, hreach⟩ := (hmem a).mp (.inr ha)
    cases List.mem_append.mp hr with
    | inl hr => exact absurd ((hseen a).mpr ⟨r, hr, hreach⟩) ((nodup_gather (hgather fuel le_rfl)).2 a ha)
    | inr hr => exact ⟨r, hr, hreach⟩
  obtain ⟨objects, hobjects, hloop⟩ := gatherLoop_of_gather (hgather fuel le_rfl)
    (fun a ha => hcopies.readable a (hfound a ha)) out
  exact ⟨fuel, found, objects, hobjects, hcopies.fills, hfound, hmem, fun more hle => gatherLoop_mono hle hloop⟩

/-- Where copies of some tips end well, what is gathered for the tips is what they have filled in,
    but for what has been gathered before. -/
theorem gatherTips_of_copyTips {turns : Nat} {tips : List (ChangeId × CommitId)} {roots seen : List ObjectId}
    (hseen : ∀ a, a ∈ seen ↔ Leads (RefersTo sha256 source) roots a)
    (hcopy : copyTips sha256 source turns tips target = (.ok (), target')) (out : List (Str × Str)) :
    ∃ fuel found objects ids, ReadsAll sha256 source found objects ∧ Fills sha256 source ids target target' ∧
      (∀ a ∈ found, a ∈ ids) ∧ (∀ a ∈ ids, a ∈ seen ∨ a ∈ found) ∧
      ∀ more, fuel ≤ more → gatherTips sha256 source more tips out seen = .ok (out ++ onWire sha256 objects) := by
  induction tips generalizing roots seen target out with
  | nil =>
      cases hcopy
      refine ⟨0, [], [], ∅, .nil, .refl _, List.forall_mem_nil _, fun a ha => ha.elim, fun _ _ => ?_⟩
      rw [gatherTips, onWire, List.map_nil, List.append_nil]
  | cons entry tips ih =>
      obtain ⟨change, tip⟩ := entry
      unfold copyTips at hcopy
      split at hcopy
      · cases hcopy
      · rename_i oid htip
        split at hcopy
        · rename_i copied repo hclosure
          obtain ⟨fuel, found, objects, hobjects, hfills, hfound, hmem, hloop⟩ :=
            gatherLoop_of_copyClosure hseen hclosure out
          -- what the first tip leads to is seen when the second one is gathered
          have hseen' : ∀ a, a ∈ found.reverse ++ seen ↔ Leads (RefersTo sha256 source) (roots ++ [oid]) a := fun a => by
            rw [← hmem, List.mem_append, List.mem_reverse, or_comm]
          obtain ⟨fuel', found', objects', ids, hobjects', hfills', hin, hout, htips⟩ :=
            ih hseen' hcopy (out ++ onWire sha256 objects)
          refine ⟨max fuel fuel', found ++ found', objects ++ objects', _, List.rel_append hobjects hobjects',
            hfills.trans hfills', fun a ha => ?_, fun a ha => ?_, fun more hle => ?_⟩
          · exact (List.mem_append.mp ha).imp (hfound a) (hin a)
          · rw [List.mem_append]
            cases ha with
            | inl ha =>
                have hleads : Leads (RefersTo sha256 source) (roots ++ [oid]) a :=
                  ha.imp fun r hr => ⟨List.mem_append_right _ hr.1, hr.2⟩
                exact ((hmem a).mpr hleads).imp_right .inl
            | inr ha =>
                -- an object found for a later tip was perhaps seen for an earlier one
                rcases hout a ha with ha | ha
                · rw [List.mem_append, List.mem_reverse] at ha
                  exact ha.elim (fun ha => .inr (.inl ha)) .inl
                · exact .inr (.inr ha)
          · have hfirst := hloop more ((Nat.le_max_left fuel fuel').trans hle)
            have hlater := htips more ((Nat.le_max_right fuel fuel').trans hle)
            refine Codec.bind_eq_ok.mpr ⟨oid, htip, Codec.bind_eq_ok.mpr ⟨_, hfirst, hlater.trans ?_⟩⟩
            unfold onWire
            rw [List.append_assoc, List.map_append]
        · cases hcopy
        · cases hcopy
        · cases hcopy

/-- What a push sends does not depend on the fuel. -/
theorem pushPayload_unique {turns turns' : Nat} {site : Site} {queue : Str} {sub : Submission}
    {payload payload' : WirePayload} (h : pushPayload sha256 turns site queue sub = .ok payload)
    (h' : pushPayload sha256 turns' site queue sub = .ok payload') : payload = payload' := by
  obtain ⟨tips, htips, h⟩ := Codec.bind_eq_ok.mp h
  obtain ⟨objects, hobjects, h⟩ := Codec.bind_eq_ok.mp h
  obtain ⟨tips', htips', h'⟩ := Codec.bind_eq_ok.mp h'
  obtain ⟨objects', hobjects', h'⟩ := Codec.bind_eq_ok.mp h'
  obtain rfl := Except.ok.inj (htips.symm.trans htips')
  have hmore := gatherTips_mono (Nat.le_max_left turns turns') hobjects
  have hmore' := gatherTips_mono (Nat.le_max_right turns turns') hobjects'
  obtain rfl := Except.ok.inj (hmore.symm.trans hmore')
  exact Except.ok.inj (h.symm.trans h')

end

section

variable {sha256 : List UInt8 → ObjectId} {display : Display} {json : WireJson} {land : LandPushed}

theorem resolveTips_ne_refused {refs : Refs} {changes : List ChangeId} {chain : ErrorChain} :
    resolveTips refs changes ≠ .error (.refused chain) := by
  induction changes with
  | nil => exact fun h => by cases h
  | cons change changes ih =>
      intro h
      have hcons : resolveTips refs (change :: changes) =
          ((refs[change]?).elim (.error (.noSnapshot change)) fun tip => .ok (change, tip)) >>= fun tip =>
            resolveTips refs changes >>= fun tips => pure (tip :: tips) := List.mapM_cons
      rw [hcons] at h
      cases hlookup : refs[change]? with
      | none =>
          rw [hlookup] at h
          cases h
      | some tip =>
          rw [hlookup] at h
          cases hrest : resolveTips refs changes with
          | ok tips =>
              rw [hrest] at h
              cases h
          | error e =>
              rw [hrest] at h
              cases h
              exact ih hrest

theorem copyTips_ne_refused {source target target' : Repository} {turns : Nat} {tips : List (ChangeId × CommitId)}
    {chain : ErrorChain} : copyTips sha256 source turns tips target ≠ (.error (.refused chain), target') := by
  induction tips generalizing target with
  | nil => exact fun h => by cases h
  | cons entry tips ih =>
      intro h
      unfold copyTips at h
      split at h
      · rename_i e htip
        unfold tipId at htip
        split at htip
        · cases htip
          cases h
        · cases htip
          cases h
        · cases htip
      · split at h
        · exact ih h
        · cases h
        · cases h
        · cases h

theorem pushReply_of {said : Except ErrorChain Str}
    (h : json.resultFromSlice (json.resultToVec (.of said)) = some (.of said)) (authority : Str) :
    pushReply json authority (.ok ⟨200, json.resultToVec (.of said)⟩) = (said.mapError .refused).mapError PushError.outermost := by
  unfold pushReply
  simp only [ne_eq, not_true_eq_false, if_false, h]
  cases said with
  | ok message => rfl
  | error e => rfl

/-- What is posted to a server reaches it in some pieces, and its answer comes back. -/
def Posts (sha256 : List UInt8 → ObjectId) (display : Display) (json : WireJson) (land : LandPushed)
    (token : Option Str) (remote : Site) (sent : List UInt8) (post : List UInt8 → Except Str (List UInt8) × Site) : Prop :=
  ∃ conn rest, Delivers sent conn rest ∧
    post sent = (.ok (handle sha256 display json land token remote conn).1,
      (handle sha256 display json land token remote conn).2)

/-- A push that a server hears is landed where its objects have been written. -/
theorem handle_push {server client : Option Str} (hadmits : Admits server client) {authority : Str}
    (hsayable : Sayable authority client) (remote : Site) {queue : Str} {sub : Submission}
    {tips : List (ChangeId × CommitId)} {objects : List Object} {body : List UInt8} (hsize : body.length < UInt64.size)
    (hread : json.payloadFromSlice body = some ⟨queue, sub, tips, onWire sha256 objects⟩) {conn rest : Connection}
    (hdelivers : Delivers (requestBytes authority "POST".toList "/push".toList body client) conn rest) :
    handle sha256 display json land server remote conn =
      let landed := land { remote with repo := remote.repo.writeAll sha256 objects } queue sub tips
      (writeResponse 200 (json.resultToVec (.of landed.1)) "OK".toList, landed.2) := by
  have hother : ¬ ("POST".toList = "GET".toList ∧ "/push".toList = "/refs".toList) := by decide
  have hother' : ¬ ("POST".toList = "GET".toList ∧ "/object/".toList.isPrefixOf "/push".toList = true) := by decide
  have hpush : "POST".toList = "POST".toList ∧ "/push".toList = "/push".toList := ⟨rfl, rfl⟩
  rw [handle_of_admits hadmits hsayable (.of_all (by decide)) (.of_all (by decide)) hsize hdelivers]
  unfold route acceptWire
  rw [if_neg hother, if_neg hother', if_pos hpush]
  simp only [hread, writePushed_onWire]

/-- A push that reaches the landing over a path, and is landed or refused there, is landed in the same words
    or refused over HTTP, and leaves the same repository. Of a refusal the server tells the client the text
    of the error and none of its causes. -/
theorem cmdPush_http {server client : Option Str} (hadmits : Admits server client) {authority : Str}
    (hsayable : Sayable authority client) {site remote remote' : Site} {queue : Str} {sub : Submission} {turns : Nat}
    {r : Except PushError Str} (hpath : cmdPushPath sha256 land turns site queue sub remote = (r, remote'))
    (hlanded : ∀ e, r = .error e → ∃ chain, e = .refused chain)
    (hresult : ∀ said, r = Except.mapError .refused said →
      json.resultFromSlice (json.resultToVec (.of said)) = some (.of said)) :
    (∃ fuel payload, ∀ more, fuel ≤ more → pushPayload sha256 more site queue sub = .ok payload) ∧
      ∀ fuel payload, pushPayload sha256 fuel site queue sub = .ok payload →
        json.payloadFromSlice (json.payloadToVec payload) = some payload →
        (json.payloadToVec payload).length < UInt64.size →
        ∀ post, Posts sha256 display json land server remote
            (requestBytes authority "POST".toList "/push".toList (json.payloadToVec payload) client) post →
          cmdPushHttp sha256 json post authority client fuel site queue sub remote =
            (r.mapError PushError.outermost, remote') := by
  unfold cmdPushPath at hpath
  split at hpath
  · rename_i e hresolve
    cases hpath
    -- an error of the path transport in front of the landing is no refusal
    obtain ⟨chain, rfl⟩ := hlanded e rfl
    exact absurd hresolve resolveTips_ne_refused
  · rename_i tips hresolve
    split at hpath
    · rename_i e repo hcopy
      cases hpath
      obtain ⟨chain, rfl⟩ := hlanded e rfl
      exact absurd hcopy copyTips_ne_refused
    · rename_i repo hcopy
      simp only [Prod.mk.injEq] at hpath
      obtain ⟨hsaid, hremote⟩ := hpath
      have hnone : ∀ a, a ∈ ([] : List ObjectId) ↔ Leads (RefersTo sha256 site.repo) [] a := fun a =>
        iff_of_false List.not_mem_nil fun h => h.elim fun r hr => List.not_mem_nil hr.1
      obtain ⟨fuel, found, objects, ids, hobjects, hfills, hin, hout, hgather⟩ :=
        gatherTips_of_copyTips hnone hcopy []
      -- the objects that are sent fill what the copies over a path would fill
      have hrepo : remote.repo.writeAll sha256 objects = repo := by
        have hids : ids = {a | a ∈ found} := Set.ext fun a => ⟨fun ha => (hout a ha).resolve_left List.not_mem_nil, hin a⟩
        exact (Fills.writeAll hobjects remote.repo).unique (hids ▸ hfills)
      have hpayload : ∀ more, fuel ≤ more →
          pushPayload sha256 more site queue sub = .ok ⟨queue, sub, tips, onWire sha256 objects⟩ := fun more hle =>
        Codec.bind_eq_ok.mpr ⟨tips, hresolve, Codec.bind_eq_ok.mpr ⟨_, hgather more hle, rfl⟩⟩
      refine ⟨⟨fuel, _, hpayload⟩, fun fuel' payload hsent hread hsize post hpost => ?_⟩
      obtain rfl := pushPayload_unique hsent (hpayload fuel le_rfl)
      obtain ⟨conn, rest, hdelivers, hanswer⟩ := hpost
      -- from here on the server's turn is a request that it reads back whole
      have hhandle : handle sha256 display json land server remote conn = _ :=
        handle_push hadmits hsayable remote hsize hread hdelivers
      rw [hrepo] at hhandle
      have hreply : httpRequest (fun sent => (post sent).1) authority "POST".toList "/push".toList
          (json.payloadToVec ⟨queue, sub, tips, onWire sha256 objects⟩) client =
            .ok ⟨200, json.resultToVec (.of (land { remote with repo := repo } queue sub tips).1)⟩ := by
        unfold httpRequest
        simp only [hanswer, hhandle]
        exact parseResponse_writeResponse (by decide) (by decide) _
      unfold cmdPushHttp
      simp only [hsent, hreply, hanswer, hhandle, hremote, pushReply_of (hresult _ hsaid.symm), hsaid]

end

theorem posts_byteByByte (sha256 : List UInt8 → ObjectId) (display : Display) (json : WireJson) (land : LandPushed)
    (token : Option Str) (remote : Site) (sent : List UInt8) :
    Posts sha256 display json land token remote sent fun sent =>
      (.ok (handle sha256 display json land token remote (byteByByte sent)).1,
        (handle sha256 display json land token remote (byteByByte sent)).2) :=
  ⟨byteByByte sent, .closed, delivers_byteByByte sent, rfl⟩

/-- The same file under a change that has not landed. -/
def draftSite : Site := ⟨landedSite.repo, OpLog.new.setRef "c".toList (some sampleId.toText) none⟩

theorem cmdPush_http_blob :
    let json := jsonOf ∅ samplePayload ⟨true, "landed".toList⟩
    let answer (sent : List UInt8) := handle ObjectId.ofSha256 quietDisplay json publish none emptySite (byteByByte sent)
    cmdPushHttp ObjectId.ofSha256 json (fun sent => (.ok (answer sent).1, (answer sent).2)) "host:80".toList none 2
        draftSite "trunk".toList sampleSubmission emptySite =
      (.ok "landed".toList,
        (cmdPushPath ObjectId.ofSha256 publish 2 draftSite "trunk".toList sampleSubmission emptySite).2) := by
  intro json answer
  have hadmits : Admits none none := .inl rfl
  have hsayable : Sayable "host:80".toList none := ⟨by decide, fun t ht => by cases ht⟩
  have hdone : (cmdPushPath ObjectId.ofSha256 publish 2 draftSite "trunk".toList sampleSubmission emptySite).1 =
      .ok "landed".toList := by
    decide +kernel
  have hsent : pushPayload ObjectId.ofSha256 2 draftSite "trunk".toList sampleSubmission = .ok samplePayload := by
    decide +kernel
  have hsize : (json.payloadToVec samplePayload).length < UInt64.size := by
    have htext : (payloadText samplePayload).length < 1000 := by decide +kernel
    exact (length_utf8_le _).trans_lt (by unfold UInt64.size; omega)
  generalize hpath : cmdPushPath ObjectId.ofSha256 publish 2 draftSite "trunk".toList sampleSubmission emptySite = r
    at hdone ⊢
  obtain ⟨outcome, remote'⟩ := r
  cases hdone
  obtain ⟨-, hread, hlanded⟩ := jsonOf_reads ∅ samplePayload ⟨true, "landed".toList⟩
  have hresult : ∀ said, Except.ok "landed".toList = Except.mapError PushError.refused said →
      json.resultFromSlice (json.resultToVec (.of said)) = some (.of said) := by
    intro said hsaid
    cases said with
    | ok message =>
        cases hsaid
        exact hlanded
    | error message => cases hsaid
  exact (cmdPush_http hadmits hsayable hpath (fun e he => by cases he) hresult).2 2 samplePayload hsent hread hsize _
    (posts_byteByByte _ _ _ _ _ _ _)

end Omoplata
