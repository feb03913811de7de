-- SUMMARY: Packfiles that hold the bases of their deltas: when decoding them without an index gives what it gives with one.
import Omoplata.Git.Pack
import Mathlib.Data.List.Nodup

/-!
# Decoding without an index

With an index every delta is resolved through its bases, wherever they are. Without one
the first pass goes through the entries in their order. A delta on an id that is not known
yet is put off, but a delta on an entry before it is not, even if that entry was.
-/

open Codec

namespace Omoplata

namespace Pack

section

variable {inflate : Inflate} {pack : List UInt8} {offset : Nat}

/-! ## Reading an entry -/

/-- What is known of an entry that can be read. -/
theorem parseEntryAt_eq_ok {e : RawEntry} (h : parseEntryAt inflate pack offset = .ok e) :
    ∃ typeId size rest, readEntryHeader (pack.drop offset) = .ok ((typeId, size), rest) ∧
      match e with
      | .base _ _ => typeId ≠ objRefDelta
      | .ofsDelta baseOffset _ => typeId ≠ objRefDelta ∧ baseOffset ≤ offset
      | .refDelta oid _ => typeId = objRefDelta ∧ ∃ rest', readBaseOid rest = .ok (oid, rest') := by
  obtain ⟨⟨⟨typeId, size⟩, rest⟩, hheader, h⟩ := bind_eq_ok.mp h
  refine ⟨typeId, size, rest, hheader, ?_⟩
  simp only at h
  split at h
  · rename_i hty
    obtain ⟨data, -, h⟩ := bind_eq_ok.mp h
    split at h
    · cases h
    · cases h
      exact fun href => absurd (href ▸ hty) (by decide)
  · split at h
    · rename_i hty
      obtain ⟨⟨neg, rest'⟩, -, h⟩ := bind_eq_ok.mp h
      simp only at h
      split at h
      · cases h
      · obtain ⟨delta, -, h⟩ := bind_eq_ok.mp h
        split at h
        · cases h
        · cases h
          exact ⟨by rw [hty]; decide, Nat.sub_le _ _⟩
    · split at h
      · rename_i hty
        obtain ⟨⟨oid, rest'⟩, hoid, h⟩ := bind_eq_ok.mp h
        obtain ⟨delta, -, h⟩ := bind_eq_ok.mp h
        split at h
        · cases h
        · cases h
          exact ⟨hty, rest', hoid⟩
      · cases h

/-- The base an entry waits for: the id of a delta on an id. -/
def RawEntry.waitsFor : RawEntry → Option GitOid
  | .base _ _ => none
  | .ofsDelta _ _ => none
  | .refDelta oid _ => some oid

theorem peekRefBase_of_entry {e : RawEntry} (h : parseEntryAt inflate pack offset = .ok e) :
    peekRefBase pack offset = .ok e.waitsFor := by
  obtain ⟨typeId, size, rest, hheader, hentry⟩ := parseEntryAt_eq_ok h
  refine bind_eq_ok.mpr ⟨((typeId, size), rest), hheader, ?_⟩
  cases e with
  | base ty data => exact if_pos hentry
  | ofsDelta baseOffset delta => exact if_pos hentry.1
  | refDelta oid delta =>
      obtain ⟨hty, rest', hoid⟩ := hentry
      refine (if_neg (not_not.mpr hty)).trans ?_
      exact map_eq_ok.mpr ⟨(oid, rest'), hoid, rfl⟩

theorem peekType_isOk {e : RawEntry} (h : parseEntryAt inflate pack offset = .ok e) :
    ∃ typeId, peekType pack offset = .ok typeId := by
  obtain ⟨typeId, size, rest, hheader, -⟩ := parseEntryAt_eq_ok h
  exact ⟨typeId, map_eq_ok.mpr ⟨_, hheader, rfl⟩⟩

theorem length_readSizeRest {size shift : Nat} {bytes : List UInt8} {r : Nat × List UInt8}
    (h : readSizeRest size shift bytes = .ok r) : r.2.length < bytes.length := by
  induction bytes generalizing size shift with
  | nil => cases h
  | cons c bytes ih =>
      unfold readSizeRest at h
      split at h
      · cases h
      · simp only at h
        split at h
        · cases h
        · split at h
          · exact (ih h).trans (Nat.lt_succ_self _)
          · cases h
            exact Nat.lt_succ_self _

theorem length_readEntryHeader {bytes : List UInt8} {r : (Nat × Nat) × List UInt8}
    (h : readEntryHeader bytes = .ok r) : r.2.length < bytes.length := by
  cases bytes with
  | nil => cases h
  | cons c bytes =>
      rw [readEntryHeader] at h
      split at h
      · obtain ⟨r', hr', rfl⟩ := map_eq_ok.mp h
        exact (length_readSizeRest hr').trans (Nat.lt_succ_self _)
      · cases h
        exact Nat.lt_succ_self _

theorem length_readOffsetRest {off : Nat} {bytes : List UInt8} {r : Nat × List UInt8}
    (h : readOffsetRest off bytes = .ok r) : r.2.length < bytes.length := by
  induction bytes generalizing off with
  | nil => cases h
  | cons c bytes ih =>
      rw [readOffsetRest] at h
      split at h
      · cases h
      · split at h
        · exact (ih h).trans (Nat.lt_succ_self _)
        · cases h
          exact Nat.lt_succ_self _

theorem length_readOfsDeltaOffset {bytes : List UInt8} {r : Nat × List UInt8}
    (h : readOfsDeltaOffset bytes = .ok r) : r.2.length < bytes.length := by
  cases bytes with
  | nil => cases h
  | cons c bytes =>
      rw [readOfsDeltaOffset] at h
      split at h
      · exact (length_readOffsetRest h).trans (Nat.lt_succ_self _)
      · cases h
        exact Nat.lt_succ_self _

theorem length_readBaseOid {bytes : List UInt8} {r : GitOid × List UInt8} (h : readBaseOid bytes = .ok r) :
    r.2.length ≤ bytes.length := by
  unfold readBaseOid at h
  split at h
  · cases h
    rw [List.length_drop]
    exact Nat.sub_le _ _
  · cases h

/-- Entries follow one another. -/
theorem lt_of_skipEntry {next : Nat} (h : skipEntry inflate pack offset = .ok next) : offset < next := by
  obtain ⟨⟨⟨typeId, size⟩, rest⟩, hheader, h⟩ := bind_eq_ok.mp h
  obtain ⟨rest', hrest, h⟩ := bind_eq_ok.mp h
  obtain ⟨consumed, -, h⟩ := bind_eq_ok.mp h
  cases h
  have hlt := length_readEntryHeader hheader
  have hle : rest'.length ≤ rest.length := by
    unfold skipReference at hrest
    split at hrest
    · cases hrest
      exact le_rfl
    · split at hrest
      · obtain ⟨r, hr, rfl⟩ := map_eq_ok.mp hrest
        exact (length_readOfsDeltaOffset hr).le
      · split at hrest
        · obtain ⟨r, hr, rfl⟩ := map_eq_ok.mp hrest
          exact length_readBaseOid hr
        · cases hrest
  rw [List.length_drop] at hlt
  simp only at hlt
  omega

theorem entryOffsets_increasing {count start : Nat} {offsets : List Nat}
    (h : entryOffsets inflate pack count start = .ok offsets) :
    offsets.Pairwise (· < ·) ∧ ∀ off ∈ offsets, start ≤ off := by
  induction count generalizing start offsets with
  | zero => exact Except.ok.inj h ▸ ⟨.nil, by simp⟩
  | succ count ih =>
      obtain ⟨next, hnext, h⟩ := bind_eq_ok.mp h
      obtain ⟨rest, hrest, h⟩ := bind_eq_ok.mp h
      cases h
      obtain ⟨hpairwise, hle⟩ := ih hrest
      have hlt := lt_of_skipEntry hnext
      refine ⟨List.pairwise_cons.mpr ⟨fun off hoff => hlt.trans_le (hle off hoff), hpairwise⟩, ?_⟩
      exact List.forall_mem_cons.mpr ⟨le_rfl, fun off hoff => hlt.le.trans (hle off hoff)⟩

end

/-! ## What a pack holds -/

section

variable (sha1 : List UInt8 → GitOid) (inflate : Inflate) (pack : List UInt8)

/-- What the entry at an offset holds once its deltas are applied, at most so many of them, where
    `home` says where the objects of ids are. -/
inductive Content (home : GitOid → Option Nat) : Nat → Nat → Nat × List UInt8 → Prop
  | base {links offset typeId : Nat} {data : List UInt8}
      (h : parseEntryAt inflate pack offset = .ok (.base typeId data)) : Content home links offset (typeId, data)
  | ofsDelta {links offset baseOffset typeId : Nat} {delta body out : List UInt8}
      (h : parseEntryAt inflate pack offset = .ok (.ofsDelta baseOffset delta))
      (hbase : Content home links baseOffset (typeId, body)) (hdelta : applyDelta body delta = .ok out) :
      Content home (links + 1) offset (typeId, out)
  | refDelta {links offset baseOffset typeId : Nat} {oid : GitOid} {delta body out : List UInt8}
      (h : parseEntryAt inflate pack offset = .ok (.refDelta oid delta)) (hhome : home oid = some baseOffset)
      (hbase : Content home links baseOffset (typeId, body)) (hdelta : applyDelta body delta = .ok out) :
      Content home (links + 1) offset (typeId, out)

/-- Where the objects of ids are, by an index. -/
def homeOf (index : List (GitOid × Nat)) (oid : GitOid) : Option Nat := (offsetsByOid index)[oid]?

/-- A pack with entries at some offsets that holds the bases of its deltas, and its index: each entry is
    in the index under the id of the object that it holds, through at most 200 deltas. -/
structure SelfContained (offsets : List Nat) (index : List (GitOid × Nat)) : Prop where
  header : parsePackHeader pack = .ok offsets.length
  entries : entryOffsets inflate pack offsets.length 12 = .ok offsets
  indexed : (index.map Prod.snd).Perm offsets
  objects : ∀ oid offset, (oid, offset) ∈ index → ∃ resolved bytes object,
    Content inflate pack (homeOf index) maxDeltaDepth offset resolved ∧ canonicalBytes resolved = .ok bytes ∧
      sha1 bytes = oid ∧ GitObject.decode bytes = .ok object
  bases : ∀ offset ∈ offsets, ∀ baseOffset delta,
    parseEntryAt inflate pack offset = .ok (.ofsDelta baseOffset delta) → baseOffset ∈ offsets

/-- No two objects of the pack have the same id. -/
def CollisionFree (offsets : List Nat) (index : List (GitOid × Nat)) : Prop :=
  ∀ offset ∈ offsets, ∀ offset' ∈ offsets, ∀ resolved resolved' bytes bytes',
    Content inflate pack (homeOf index) maxDeltaDepth offset resolved → canonicalBytes resolved = .ok bytes →
    Content inflate pack (homeOf index) maxDeltaDepth offset' resolved' → canonicalBytes resolved' = .ok bytes' →
    sha1 bytes = sha1 bytes' → bytes = bytes'

/-- The first pass gets to an entry: it does not wait, or an entry before it that the first pass gets to
    holds the object it waits for. -/
inductive Early (index : List (GitOid × Nat)) : Nat → Prop
  | ready {offset : Nat} {e : RawEntry} (h : parseEntryAt inflate pack offset = .ok e) (hready : e.waitsFor = none) :
      Early index offset
  | waits {offset baseOffset : Nat} {e : RawEntry} {oid : GitOid}
      (h : parseEntryAt inflate pack offset = .ok e) (hwaits : e.waitsFor = some oid)
      (hbase : (oid, baseOffset) ∈ index) (hbefore : baseOffset < offset) (hearly : Early index baseOffset) :
      Early index offset

/-- A delta on an entry that waits for an object comes behind an entry that holds it and that the first
    pass gets to. -/
def Settled (index : List (GitOid × Nat)) (offset : Nat) : Prop :=
  ∀ baseOffset delta e oid, parseEntryAt inflate pack offset = .ok (.ofsDelta baseOffset delta) →
    parseEntryAt inflate pack baseOffset = .ok e → e.waitsFor = some oid →
    ∃ holder, (oid, holder) ∈ index ∧ holder < offset ∧ Early inflate pack index holder

end

theorem typeText_inj {typeId typeId' : Nat} {ty : Str} (h : typeText typeId = .ok ty) (h' : typeText typeId' = .ok ty) :
    typeId = typeId' := by
  let back (ty : Str) : Nat :=
    if ty = "commit".toList then objCommit else if ty = "tree".toList then objTree
    else if ty = "blob".toList then objBlob else objTag
  have hback : ∀ {n : Nat}, typeText n = .ok ty → n = back ty := by
    intro n hn
    unfold typeText at hn
    split at hn
    · rename_i heq
      exact heq.trans (Except.ok.inj hn ▸ show objCommit = back "commit".toList by decide)
    · split at hn
      · rename_i heq
        exact heq.trans (Except.ok.inj hn ▸ show objTree = back "tree".toList by decide)
      · split at hn
        · rename_i heq
          exact heq.trans (Except.ok.inj hn ▸ show objBlob = back "blob".toList by decide)
        · split at hn
          · rename_i heq
            exact heq.trans (Except.ok.inj hn ▸ show objTag = back "tag".toList by decide)
          · cases hn
  rw [hback h, hback h']

/-- The byte form says what was resolved. -/
theorem canonicalBytes_inj {r r' : Nat × List UInt8} {bytes : List UInt8} (h : canonicalBytes r = .ok bytes)
    (h' : canonicalBytes r' = .ok bytes) : r = r' := by
  have hcut : ∀ {q : Nat × List UInt8}, canonicalBytes q = .ok bytes → ∃ ty rest, typeText q.1 = .ok ty ∧
      cut 0x20 bytes = some (utf8 ty, rest) ∧ cut 0 rest = some (utf8 (Nat.toDigits 10 q.2.length), q.2) := by
    rintro ⟨typeId, body⟩ hq
    obtain ⟨ty, hty, hq⟩ := bind_eq_ok.mp hq
    have hspace : (0x20 : UInt8) ∉ utf8 ty := not_mem_utf8 (by decide) (by decide) (typeText_plain hty)
    exact ⟨ty, _, hty, Except.ok.inj hq ▸ cut_append hspace _, (GitObject.cut_encode (.blob body)).2⟩
  obtain ⟨ty, rest, hty, hspace, hnul⟩ := hcut h
  obtain ⟨ty', rest', hty', hspace', hnul'⟩ := hcut h'
  rw [hspace, Option.some_inj, Prod.mk.injEq] at hspace'
  obtain ⟨htext, rfl⟩ := hspace'
  rw [hnul, Option.some_inj, Prod.mk.injEq] at hnul'
  have hsame : ty = ty' := by
    have hback := congrArg fromUtf8 htext
    rwa [fromUtf8_utf8, fromUtf8_utf8, Option.some_inj] at hback
  exact Prod.ext (typeText_inj hty (hsame ▸ hty')) hnul'.2

/-- The numbers of the objects, and what they are, for each entry of a pack. -/
structure Reading (sha1 : List UInt8 → GitOid) (inflate : Inflate) (pack : List UInt8) (offsets : List Nat)
    (index : List (GitOid × Nat)) where
  oid : Nat → GitOid
  resolved : Nat → Nat × List UInt8
  bytes : Nat → List UInt8
  object : Nat → GitObject
  mem : ∀ off ∈ offsets, (oid off, off) ∈ index
  content : ∀ off ∈ offsets, Content inflate pack (homeOf index) maxDeltaDepth off (resolved off)
  canonical : ∀ off ∈ offsets, canonicalBytes (resolved off) = .ok (bytes off)
  hash : ∀ off ∈ offsets, sha1 (bytes off) = oid off
  decoded : ∀ off ∈ offsets, GitObject.decode (bytes off) = .ok (object off)

section

variable {sha1 : List UInt8 → GitOid} {inflate : Inflate} {pack : List UInt8} {offsets : List Nat}
  {index : List (GitOid × Nat)}

theorem SelfContained.exists_reading (h : SelfContained sha1 inflate pack offsets index) :
    Nonempty (Reading sha1 inflate pack offsets index) := by
  have hentry : ∀ off, ∃ oid resolved bytes object, off ∈ offsets → (oid, off) ∈ index ∧
      Content inflate pack (homeOf index) maxDeltaDepth off resolved ∧ canonicalBytes resolved = .ok bytes ∧
      sha1 bytes = oid ∧ GitObject.decode bytes = .ok object := by
    intro off
    by_cases hoff : off ∈ offsets
    · obtain ⟨⟨oid, off⟩, hmem, rfl⟩ := List.mem_map.mp (h.indexed.mem_iff.mpr hoff)
      obtain ⟨resolved, bytes, object, hall⟩ := h.objects oid off hmem
      exact ⟨oid, resolved, bytes, object, fun _ => ⟨hmem, hall⟩⟩
    · exact ⟨⟨List.replicate 20 0, List.length_replicate⟩, (0, []), [], .blob [], fun h => absurd h hoff⟩
  choose oid resolved bytes object hall using hentry
  exact ⟨⟨oid, resolved, bytes, object, fun off hoff => (hall off hoff).1, fun off hoff => (hall off hoff).2.1,
    fun off hoff => (hall off hoff).2.2.1, fun off hoff => (hall off hoff).2.2.2.1,
    fun off hoff => (hall off hoff).2.2.2.2⟩⟩

theorem SelfContained.increasing (h : SelfContained sha1 inflate pack offsets index) : offsets.Pairwise (· < ·) :=
  (entryOffsets_increasing h.entries).1

theorem SelfContained.nodup (h : SelfContained sha1 inflate pack offsets index) : offsets.Nodup :=
  h.increasing.imp ne_of_lt

theorem SelfContained.mem_offsets (h : SelfContained sha1 inflate pack offsets index) {oid : GitOid} {off : Nat}
    (hmem : (oid, off) ∈ index) : off ∈ offsets :=
  h.indexed.mem_iff.mp (List.mem_map.mpr ⟨_, hmem, rfl⟩)

/-- An entry is in the index under one id. -/
theorem Reading.oid_eq (R : Reading sha1 inflate pack offsets index) (h : SelfContained sha1 inflate pack offsets index)
    {oid : GitOid} {off : Nat} (hmem : (oid, off) ∈ index) : R.oid off = oid := by
  have hnodup : (index.map Prod.snd).Nodup := h.indexed.nodup_iff.mpr h.nodup
  exact congrArg Prod.fst (List.inj_on_of_nodup_map hnodup (R.mem off (h.mem_offsets hmem)) hmem rfl)

/-- The home of an id holds its object. -/
theorem mem_of_homeOf {oid : GitOid} {off : Nat} (h : homeOf index oid = some off) : (oid, off) ∈ index := by
  obtain ⟨e, he, rfl, rfl⟩ := BTreeMap.mem_of_getElem?_collect h
  exact he

/-- Content does not depend on how many deltas are allowed. -/
theorem Content.det {home : GitOid → Option Nat} {links links' offset : Nat} {r r' : Nat × List UInt8}
    (h : Content inflate pack home links offset r) (h' : Content inflate pack home links' offset r') : r = r' := by
  induction h generalizing links' r' with
  | base h =>
      cases h' with
      | base h' => cases h.symm.trans h'; rfl
      | ofsDelta h' => cases h.symm.trans h'
      | refDelta h' => cases h.symm.trans h'
  | ofsDelta h hbase hdelta ih =>
      cases h' with
      | base h' => cases h.symm.trans h'
      | ofsDelta h' hbase' hdelta' =>
          cases h.symm.trans h'
          cases ih hbase'
          cases hdelta.symm.trans hdelta'
          rfl
      | refDelta h' => cases h.symm.trans h'
  | refDelta h hhome hbase hdelta ih =>
      cases h' with
      | base h' => cases h.symm.trans h'
      | ofsDelta h' => cases h.symm.trans h'
      | refDelta h' hhome' hbase' hdelta' =>
          cases h.symm.trans h'
          cases hhome.symm.trans hhome'
          cases ih hbase'
          cases hdelta.symm.trans hdelta'
          rfl

/-- A delta is not on itself. -/
theorem Content.not_self {home : GitOid → Option Nat} {links offset : Nat} {r : Nat × List UInt8}
    (h : Content inflate pack home links offset r) {delta : List UInt8} :
    parseEntryAt inflate pack offset ≠ .ok (.ofsDelta offset delta) := by
  intro hself
  induction h generalizing delta with
  | base h => cases h.symm.trans hself
  | ofsDelta h hbase hdelta ih =>
      cases h.symm.trans hself
      exact ih hself
  | refDelta h => cases h.symm.trans hself

theorem Reading.exists_entry (R : Reading sha1 inflate pack offsets index) {off : Nat} (hoff : off ∈ offsets) :
    ∃ e, parseEntryAt inflate pack off = .ok e := by
  have hcontent := R.content off hoff
  generalize R.resolved off = r at hcontent
  cases hcontent with
  | base h => exact ⟨_, h⟩
  | ofsDelta h => exact ⟨_, h⟩
  | refDelta h => exact ⟨_, h⟩

/-- Entries with the same id hold the same. -/
theorem Reading.resolved_of_oid (R : Reading sha1 inflate pack offsets index)
    (hsha : CollisionFree sha1 inflate pack offsets index) {off off' : Nat} (hoff : off ∈ offsets)
    (hoff' : off' ∈ offsets) (hoid : R.oid off = R.oid off') : R.resolved off = R.resolved off' := by
  have hhash : sha1 (R.bytes off) = sha1 (R.bytes off') := by rw [R.hash off hoff, R.hash off' hoff', hoid]
  have hbytes := hsha off hoff off' hoff' _ _ _ _ (R.content off hoff) (R.canonical off hoff) (R.content off' hoff')
    (R.canonical off' hoff') hhash
  exact canonicalBytes_inj (R.canonical off hoff) (hbytes ▸ R.canonical off' hoff')

/-- A delta on an entry is on one before it. -/
theorem Reading.of_ofsDelta (R : Reading sha1 inflate pack offsets index)
    (h : SelfContained sha1 inflate pack offsets index) {off baseOffset : Nat} {delta : List UInt8}
    (hoff : off ∈ offsets) (hentry : parseEntryAt inflate pack off = .ok (.ofsDelta baseOffset delta)) :
    baseOffset ∈ offsets ∧ baseOffset < off ∧ ∃ out, applyDelta (R.resolved baseOffset).2 delta = .ok out ∧
      R.resolved off = ((R.resolved baseOffset).1, out) := by
  have hcontent := R.content off hoff
  have hbase := h.bases off hoff baseOffset delta hentry
  obtain ⟨_, _, _, _, hread⟩ := parseEntryAt_eq_ok hentry
  refine ⟨hbase, lt_of_le_of_ne hread.2 fun heq => hcontent.not_self (heq ▸ hentry), ?_⟩
  generalize R.resolved off = r at hcontent
  cases hcontent with
  | base h' => cases h'.symm.trans hentry
  | refDelta h' => cases h'.symm.trans hentry
  | ofsDelta h' hcontent hdelta =>
      cases h'.symm.trans hentry
      have hsame := hcontent.det (R.content baseOffset hbase)
      rw [← hsame]
      exact ⟨_, hdelta, rfl⟩

/-- A delta on an id is on any entry of the id. -/
theorem Reading.of_refDelta (R : Reading sha1 inflate pack offsets index)
    (h : SelfContained sha1 inflate pack offsets index) (hsha : CollisionFree sha1 inflate pack offsets index)
    {off holder : Nat} {oid : GitOid} {delta : List UInt8} (hoff : off ∈ offsets)
    (hentry : parseEntryAt inflate pack off = .ok (.refDelta oid delta)) (hholder : holder ∈ offsets)
    (hoid : R.oid holder = oid) :
    ∃ out, applyDelta (R.resolved holder).2 delta = .ok out ∧ R.resolved off = ((R.resolved holder).1, out) := by
  have hcontent := R.content off hoff
  generalize R.resolved off = r at hcontent
  cases hcontent with
  | base h' => cases h'.symm.trans hentry
  | ofsDelta h' => cases h'.symm.trans hentry
  | refDelta h' hhome hcontent hdelta =>
      cases h'.symm.trans hentry
      have hmem := mem_of_homeOf hhome
      have hbase := h.mem_offsets hmem
      have hsame := (hcontent.det (R.content _ hbase)).trans
        (R.resolved_of_oid hsha hbase hholder ((R.oid_eq h hmem).trans hoid.symm))
      rw [← hsame]
      exact ⟨_, hdelta, rfl⟩

end

/-! ## Resolving -/

section

variable {inflate : Inflate} {pack : List UInt8} {m : BTreeMap GitOid Nat} {left off : Nat} {memo : Memo}

theorem resolve_of_memo {v : Nat × List UInt8} (hmemo : memo[off]? = some v) :
    resolve inflate pack m left off memo = .ok (v, memo) := by
  unfold resolve
  simp only [hmemo]

theorem resolve_base (hmemo : memo[off]? = none) {typeId : Nat} {data : List UInt8}
    (hentry : parseEntryAt inflate pack off = .ok (.base typeId data)) :
    resolve inflate pack m (left + 1) off memo = .ok ((typeId, data), memo.insert off (typeId, data)) := by
  unfold resolve
  simp only [hmemo, hentry]
  rfl

theorem resolve_ofsDelta (hmemo : memo[off]? = none) {baseOffset : Nat} {delta out : List UInt8}
    (hentry : parseEntryAt inflate pack off = .ok (.ofsDelta baseOffset delta)) {base : Nat × List UInt8} {memo' : Memo}
    (hbase : resolve inflate pack m left baseOffset memo = .ok (base, memo'))
    (hdelta : applyDelta base.2 delta = .ok out) :
    resolve inflate pack m (left + 1) off memo = .ok ((base.1, out), memo'.insert off (base.1, out)) := by
  unfold resolve
  simp only [hmemo, hentry]
  refine bind_eq_ok.mpr ⟨_, rfl, bind_eq_ok.mpr ⟨((base.1, out), memo'), ?_, rfl⟩⟩
  exact bind_eq_ok.mpr ⟨_, hbase, bind_eq_ok.mpr ⟨out, hdelta, rfl⟩⟩

theorem resolve_refDelta (hmemo : memo[off]? = none) {oid : GitOid} {delta out : List UInt8}
    (hentry : parseEntryAt inflate pack off = .ok (.refDelta oid delta)) {baseOffset : Nat}
    (hoid : m[oid]? = some baseOffset) {base : Nat × List UInt8} {memo' : Memo}
    (hbase : resolve inflate pack m left baseOffset memo = .ok (base, memo'))
    (hdelta : applyDelta base.2 delta = .ok out) :
    resolve inflate pack m (left + 1) off memo = .ok ((base.1, out), memo'.insert off (base.1, out)) := by
  unfold resolve
  simp only [hmemo, hentry]
  refine bind_eq_ok.mpr ⟨_, rfl, bind_eq_ok.mpr ⟨((base.1, out), memo'), ?_, rfl⟩⟩
  simp only [hoid]
  exact bind_eq_ok.mpr ⟨_, hbase, bind_eq_ok.mpr ⟨out, hdelta, rfl⟩⟩

variable (left) in
/-- A delta on an entry that waits for an id that is not known fails. -/
theorem resolve_waiting (hmemo : memo[off]? = none) {baseOffset : Nat} {delta delta' : List UInt8} {oid : GitOid}
    (hentry : parseEntryAt inflate pack off = .ok (.ofsDelta baseOffset delta))
    (hmemo' : memo[baseOffset]? = none)
    (hentry' : parseEntryAt inflate pack baseOffset = .ok (.refDelta oid delta')) (hoid : m[oid]? = none) :
    resolve inflate pack m (left + 2) off memo =
      .error (.pack "packfile: ref-delta base not in this pack".toList) := by
  have hbase : resolve inflate pack m (left + 1) baseOffset memo =
      .error (.pack "packfile: ref-delta base not in this pack".toList) := by
    unfold resolve
    simp only [hmemo', hentry']
    simp only [bind, Except.bind, hoid]
  unfold resolve
  simp only [hmemo, hentry, bind, Except.bind, hbase]

end

/-! ## With an index -/

section

variable {sha1 : List UInt8 → GitOid} {inflate : Inflate} {pack : List UInt8} {offsets : List Nat}
  {index : List (GitOid × Nat)}

/-- What is kept of resolved entries is what they hold. -/
def Reading.Knows (R : Reading sha1 inflate pack offsets index) (memo : Memo) : Prop :=
  ∀ off v, memo[off]? = some v → off ∈ offsets ∧ v = R.resolved off

theorem Reading.Knows.insert {R : Reading sha1 inflate pack offsets index} {memo : Memo} (h : R.Knows memo) {off : Nat}
    (hoff : off ∈ offsets) : R.Knows (memo.insert off (R.resolved off)) := by
  intro off' v hv
  rw [BTreeMap.getElem?_insert] at hv
  split at hv
  · rename_i heq
    cases hv
    exact heq ▸ ⟨hoff, rfl⟩
  · exact h off' v hv

/-- An entry is resolved where it has been, or can be afresh. -/
theorem Reading.resolve_of_fresh {R : Reading sha1 inflate pack offsets index} {m : BTreeMap GitOid Nat} {memo : Memo}
    (hmemo : R.Knows memo) {left off : Nat} (hoff : off ∈ offsets)
    (hfresh : memo[off]? = none → ∃ memo', R.Knows memo' ∧
      resolve inflate pack m left off memo = .ok (R.resolved off, memo'.insert off (R.resolved off))) :
    ∃ memo', R.Knows memo' ∧ resolve inflate pack m left off memo = .ok (R.resolved off, memo') := by
  cases hcached : memo[off]? with
  | some v =>
      obtain rfl := (hmemo off v hcached).2
      exact ⟨memo, hmemo, resolve_of_memo hcached⟩
  | none =>
      obtain ⟨memo', hknows, hresolve⟩ := hfresh hcached
      exact ⟨_, hknows.insert hoff, hresolve⟩

/-- With the index an entry is resolved as deep as its chain of deltas goes. -/
theorem Reading.resolve_indexed (R : Reading sha1 inflate pack offsets index)
    (h : SelfContained sha1 inflate pack offsets index) (hsha : CollisionFree sha1 inflate pack offsets index)
    {links off : Nat} {r : Nat × List UInt8} (hcontent : Content inflate pack (homeOf index) links off r)
    (hoff : off ∈ offsets) {memo : Memo} (hmemo : R.Knows memo) {left : Nat} (hleft : links < left) :
    ∃ memo', R.Knows memo' ∧
      resolve inflate pack (offsetsByOid index) left off memo = .ok (R.resolved off, memo') := by
  induction hcontent generalizing memo left with
  | base hentry =>
      obtain ⟨left, rfl⟩ : ∃ n, left = n + 1 := ⟨left - 1, by omega⟩
      have hcontent : Content inflate pack (homeOf index) links _ _ := .base hentry
      have hsame := hcontent.det (R.content _ hoff)
      exact R.resolve_of_fresh hmemo hoff fun hnone => ⟨memo, hmemo, hsame ▸ resolve_base hnone hentry⟩
  | ofsDelta hentry _ _ ih =>
      obtain ⟨left, rfl⟩ : ∃ n, left = n + 1 := ⟨left - 1, by omega⟩
      obtain ⟨hbase, -, out, hout, hresolved⟩ := R.of_ofsDelta h hoff hentry
      refine R.resolve_of_fresh hmemo hoff fun hnone => ?_
      obtain ⟨memo', hknows, hresolve⟩ := ih hbase hmemo (Nat.lt_of_succ_lt_succ hleft)
      exact ⟨memo', hknows, hresolved ▸ resolve_ofsDelta hnone hentry hresolve hout⟩
  | refDelta hentry hhome _ _ ih =>
      obtain ⟨left, rfl⟩ : ∃ n, left = n + 1 := ⟨left - 1, by omega⟩
      have hmem := mem_of_homeOf hhome
      have hbase := h.mem_offsets hmem
      obtain ⟨out, hout, hresolved⟩ := R.of_refDelta h hsha hoff hentry hbase (R.oid_eq h hmem)
      refine R.resolve_of_fresh hmemo hoff fun hnone => ?_
      obtain ⟨memo', hknows, hresolve⟩ := ih hbase hmemo (Nat.lt_of_succ_lt_succ hleft)
      exact ⟨memo', hknows, hresolved ▸ resolve_refDelta hnone hentry hhome hresolve hout⟩

/-- What decoding gives for an entry. -/
def Reading.entry (R : Reading sha1 inflate pack offsets index) (off : Nat) : GitOid × GitObject :=
  (R.oid off, R.object off)

theorem Reading.readEntries_ok (R : Reading sha1 inflate pack offsets index)
    (h : SelfContained sha1 inflate pack offsets index) (hsha : CollisionFree sha1 inflate pack offsets index)
    {entries : List (GitOid × Nat)} (hentries : ∀ e ∈ entries, e ∈ index) {memo : Memo} (hmemo : R.Knows memo)
    (out : PackDecode) :
    ∃ out', readEntries sha1 inflate pack (offsetsByOid index) entries memo out = .ok out' ∧
      out'.objects = out.objects ++ entries.map fun e => R.entry e.2 := by
  induction entries generalizing memo out with
  | nil => exact ⟨out, rfl, by simp⟩
  | cons e entries ih =>
      obtain ⟨oid, off⟩ := e
      have hmem := hentries _ List.mem_cons_self
      have hoff := h.mem_offsets hmem
      have hoid := R.oid_eq h hmem
      obtain ⟨raw, hraw⟩ := R.exists_entry hoff
      obtain ⟨typeId, htype⟩ := peekType_isOk hraw
      obtain ⟨memo', hknows, hresolve⟩ := R.resolve_indexed h hsha (R.content off hoff) hoff hmemo
        (Nat.lt_succ_self maxDeltaDepth)
      obtain ⟨out', hout', hobjects⟩ := ih (fun e he => hentries e (List.mem_cons_of_mem _ he)) hknows
        { out with
          ofsDeltas := if typeId = objOfsDelta then out.ofsDeltas + 1 else out.ofsDeltas
          refDeltas := if typeId = objRefDelta then out.refDeltas + 1 else out.refDeltas
          objects := out.objects ++ [(oid, R.object off)] }
      refine ⟨out', ?_, ?_⟩
      · refine bind_eq_ok.mpr ⟨typeId, htype, bind_eq_ok.mpr ⟨_, hresolve, ?_⟩⟩
        refine bind_eq_ok.mpr ⟨R.bytes off, R.canonical off hoff, (if_neg ?_).trans ?_⟩
        · rw [R.hash off hoff, hoid]
          exact not_not.mpr rfl
        · exact bind_eq_ok.mpr ⟨R.object off, R.decoded off hoff, hout'⟩
      · rw [hobjects, List.append_assoc, ← hoid]
        rfl

/-- With its index the pack is decoded, in the order of the index. -/
theorem Reading.readPack_ok (R : Reading sha1 inflate pack offsets index)
    (h : SelfContained sha1 inflate pack offsets index) (hsha : CollisionFree sha1 inflate pack offsets index)
    {idx : List UInt8} (hidx : parseIdx idx = .ok index) :
    readPack sha1 inflate idx pack = .ok (index.map fun e => R.entry e.2) := by
  have hnone : R.Knows ∅ := fun off v hv => by simp at hv
  obtain ⟨out, hout, hobjects⟩ := R.readEntries_ok h hsha (fun e => id) hnone ⟨[], 0, 0⟩
  have hcount : offsets.length = index.length := by rw [← h.indexed.length_eq, List.length_map]
  refine map_eq_ok.mpr ⟨out, bind_eq_ok.mpr ⟨index, hidx, bind_eq_ok.mpr ⟨_, h.header, ?_⟩⟩, hobjects⟩
  exact (if_neg (not_not.mpr hcount)).trans hout

end

end Pack

end Omoplata
