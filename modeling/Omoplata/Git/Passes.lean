-- SUMMARY: Decoding a packfile without an index: what each pass gets to, and when the passes give what an index gives.
import Omoplata.Git.Deferral

/-!
# Passes over a packfile

The first pass meets the entries in their order, and gets to those that do not wait, or
whose base it has got to. What is left are deltas on ids, and as long as there are any, one
of them has its base among the entries that are done.
-/

open Codec

namespace Omoplata

namespace Pack

section

variable {sha1 : List UInt8 → GitOid} {inflate : Inflate} {pack : List UInt8} {offsets : List Nat}
  {index : List (GitOid × Nat)}

/-- What is known once some entries are done. What has been resolved besides them are deltas on an id that
    a done entry holds. -/
structure Reading.Done (R : Reading sha1 inflate pack offsets index) (done : Nat → Prop) (s : PackState) :
    Prop where
  mem : ∀ off, done off → off ∈ offsets
  known : ∀ oid off, s.oidToOffset[oid]? = some off → done off ∧ R.oid off = oid
  named : ∀ off, done off → ∃ off', s.oidToOffset[R.oid off]? = some off'
  knows : R.Knows s.memo
  cached : ∀ off, done off → s.memo[off]? = some (R.resolved off)
  resolved : ∀ off v, s.memo[off]? = some v → done off ∨
    ∃ oid delta holder, parseEntryAt inflate pack off = .ok (.refDelta oid delta) ∧ done holder ∧ R.oid holder = oid
  results : ∀ off e, s.results[off]? = some e ↔ done off ∧ e = R.entry off

variable {R : Reading sha1 inflate pack offsets index} {done : Nat → Prop} {s : PackState}

theorem Reading.Done.congr {done' : Nat → Prop} (h : R.Done done s) (hiff : ∀ off, done off ↔ done' off) :
    R.Done done' s :=
  funext (fun off => propext (hiff off)) ▸ h

theorem Reading.done_nothing (R : Reading sha1 inflate pack offsets index) : R.Done (fun _ => False) ⟨∅, ∅, ∅⟩ where
  mem _ h := h.elim
  known _ _ h := by simp at h
  named _ h := h.elim
  knows _ _ h := by simp at h
  cached _ h := h.elim
  resolved _ _ h := by simp at h
  results _ _ := by simp

/-- An id is known if a done entry holds its object. -/
theorem Reading.Done.contains_iff (h : R.Done done s) {oid : GitOid} :
    s.oidToOffset.contains oid = true ↔ ∃ holder, done holder ∧ R.oid holder = oid := by
  constructor
  · intro hcontains
    obtain ⟨holder, hholder⟩ := Option.isSome_iff_exists.mp (Std.ExtTreeMap.isSome_getElem?_eq_contains.trans hcontains)
    exact ⟨holder, h.known oid holder hholder⟩
  · rintro ⟨holder, hdone, rfl⟩
    obtain ⟨off, hoff⟩ := h.named holder hdone
    rw [← Std.ExtTreeMap.isSome_getElem?_eq_contains, hoff]
    rfl

theorem Reading.Done.getElem?_eq_none (h : R.Done done s) {oid : GitOid}
    (hnone : ¬∃ holder, done holder ∧ R.oid holder = oid) : s.oidToOffset[oid]? = none := by
  cases hoid : s.oidToOffset[oid]? with
  | none => rfl
  | some holder => exact absurd ⟨holder, h.known oid holder hoid⟩ hnone

/-! ## One entry -/

/-- An entry that waits for an id that is not known is put off. -/
theorem Reading.Done.packEntry_waiting (h : R.Done done s) {off : Nat} {e : RawEntry} {oid : GitOid}
    (hentry : parseEntryAt inflate pack off = .ok e) (hwaits : e.waitsFor = some oid)
    (hnone : ¬∃ holder, done holder ∧ R.oid holder = oid) : packEntry sha1 inflate pack s off = .ok none := by
  refine bind_eq_ok.mpr ⟨some oid, hwaits ▸ peekRefBase_of_entry hentry, if_pos ?_⟩
  have hcontains : s.oidToOffset.contains oid = false := Bool.eq_false_iff.mpr (mt h.contains_iff.mp hnone)
  simp only [Option.any_some, hcontains, Bool.not_false]

/-- An entry that does not wait is resolved. -/
theorem packEntry_eq {off : Nat} {e : RawEntry} (hentry : parseEntryAt inflate pack off = .ok e)
    (hready : ∀ oid, e.waitsFor = some oid → s.oidToOffset.contains oid = true) :
    packEntry sha1 inflate pack s off =
      resolve inflate pack s.oidToOffset (maxDeltaDepth + 1) off s.memo >>= fun r =>
        canonicalBytes r.1 >>= fun canonical =>
          GitObject.decode canonical >>= fun object =>
            .ok (some ⟨s.oidToOffset.insert (sha1 canonical) off, r.2, s.results.insert off (sha1 canonical, object)⟩) := by
  unfold packEntry
  rw [peekRefBase_of_entry hentry]
  refine (if_neg ?_).trans rfl
  cases hwaits : e.waitsFor with
  | none => exact Bool.false_ne_true
  | some oid => simp only [Option.any_some, hready oid hwaits, Bool.not_true, Bool.false_eq_true, not_false_eq_true]

/-- What an entry holds can be kept once it is known what it is on. -/
theorem Reading.Done.insert_memo (h : R.Done done s) {off holder : Nat} (hoff : off ∈ offsets) {oid : GitOid}
    {delta : List UInt8} (hentry : parseEntryAt inflate pack off = .ok (.refDelta oid delta)) (hdone : done holder)
    (hoid : R.oid holder = oid) : R.Done done { s with memo := s.memo.insert off (R.resolved off) } where
  mem := h.mem
  known := h.known
  named := h.named
  results := h.results
  knows := h.knows.insert hoff
  cached o ho := by
    rw [BTreeMap.getElem?_insert]
    split
    · rename_i heq
      rw [heq]
    · exact h.cached o ho
  resolved o v hv := by
    rw [BTreeMap.getElem?_insert] at hv
    split at hv
    · rename_i heq
      exact .inr ⟨oid, delta, holder, heq ▸ hentry, hdone, hoid⟩
    · exact h.resolved o v hv

/-- An entry that has been resolved is done next. -/
theorem Reading.Done.insert (h : R.Done done s) {off : Nat} (hoff : off ∈ offsets) :
    R.Done (fun o => done o ∨ o = off) ⟨s.oidToOffset.insert (R.oid off) off, s.memo.insert off (R.resolved off),
      s.results.insert off (R.entry off)⟩ where
  mem o ho := ho.elim (h.mem o) (· ▸ hoff)
  knows := h.knows.insert hoff
  known oid o ho := by
    rw [BTreeMap.getElem?_insert] at ho
    split at ho
    · rename_i heq
      cases ho
      exact ⟨.inr rfl, heq⟩
    · exact ⟨.inl (h.known oid o ho).1, (h.known oid o ho).2⟩
  named o ho := by
    rw [BTreeMap.getElem?_insert]
    split
    · exact ⟨off, rfl⟩
    · rename_i hne
      exact h.named o (ho.resolve_right fun heq => hne (heq ▸ rfl))
  cached o ho := by
    rw [BTreeMap.getElem?_insert]
    split
    · rename_i heq
      rw [heq]
    · rename_i hne
      exact h.cached o (ho.resolve_right (Ne.symm hne))
  resolved o v hv := by
    rw [BTreeMap.getElem?_insert] at hv
    split at hv
    · rename_i heq
      exact .inl (.inr heq.symm)
    -- another offset is resolved for the reason it was before
    · obtain hdone | ⟨oid, delta, holder, hentry, hdone, hoid⟩ := h.resolved o v hv
      · exact .inl (.inl hdone)
      · exact .inr ⟨oid, delta, holder, hentry, .inl hdone, hoid⟩
  results o e := by
    rw [BTreeMap.getElem?_insert]
    split
    · rename_i heq
      rw [Option.some_inj, heq]
      exact ⟨fun he => ⟨.inr rfl, he.symm⟩, fun he => he.2.symm⟩
    · rename_i hne
      rw [h.results o e, or_iff_left (Ne.symm hne)]

/-- An entry that can be resolved is done next. -/
theorem Reading.Done.packEntry_ready {memo : Memo} (hmemo : R.Done done { s with memo := memo }) {off : Nat}
    (hoff : off ∈ offsets) {e : RawEntry} (hentry : parseEntryAt inflate pack off = .ok e)
    (hready : ∀ oid, e.waitsFor = some oid → ∃ holder, done holder ∧ R.oid holder = oid)
    (hresolve : resolve inflate pack s.oidToOffset (maxDeltaDepth + 1) off s.memo =
      .ok (R.resolved off, memo.insert off (R.resolved off))) :
    ∃ s', packEntry sha1 inflate pack s off = .ok (some s') ∧ R.Done (fun o => done o ∨ o = off) s' := by
  refine ⟨_, ?_, hmemo.insert hoff⟩
  rw [packEntry_eq (s := s) hentry fun oid hwaits => hmemo.contains_iff.mpr (hready oid hwaits), hresolve]
  refine bind_eq_ok.mpr ⟨_, rfl, bind_eq_ok.mpr ⟨_, R.canonical off hoff, ?_⟩⟩
  refine bind_eq_ok.mpr ⟨_, R.decoded off hoff, ?_⟩
  rw [R.hash off hoff]
  rfl

/-- An entry that has been resolved is not resolved again. -/
theorem Reading.Done.resolve_cached (h : R.Done done s) {off left : Nat} {v : Nat × List UInt8}
    (hcached : s.memo[off]? = some v) : resolve inflate pack s.oidToOffset left off s.memo =
      .ok (R.resolved off, s.memo.insert off (R.resolved off)) := by
  obtain ⟨-, rfl⟩ := h.knows off v hcached
  rw [BTreeMap.insert_eq_self_iff.mpr hcached]
  exact resolve_of_memo hcached

/-- A delta on an id that is known is resolved. -/
theorem Reading.Done.resolve_ref (h : R.Done done s) (hself : SelfContained sha1 inflate pack offsets index)
    (hsha : CollisionFree sha1 inflate pack offsets index) {off holder left : Nat} (hoff : off ∈ offsets) {oid : GitOid}
    {delta : List UInt8} (hentry : parseEntryAt inflate pack off = .ok (.refDelta oid delta)) (hdone : done holder)
    (hoid : R.oid holder = oid) : resolve inflate pack s.oidToOffset (left + 1) off s.memo =
      .ok (R.resolved off, s.memo.insert off (R.resolved off)) := by
  cases hcached : s.memo[off]? with
  | some v => exact h.resolve_cached hcached
  | none =>
      obtain ⟨base, hbase⟩ := h.named holder hdone
      obtain ⟨hbaseDone, hbaseOid⟩ := h.known _ base hbase
      obtain ⟨out, hout, hresolved⟩ := R.of_refDelta hself hsha hoff hentry (h.mem base hbaseDone)
        (hbaseOid.trans hoid)
      rw [hresolved]
      exact resolve_refDelta hcached hentry (hoid ▸ hbase) (resolve_of_memo (h.cached base hbaseDone)) hout

/-- An entry is resolved where it is done, or an entry that is done holds the object it waits for. -/
theorem Reading.Done.resolve_known (h : R.Done done s) (hself : SelfContained sha1 inflate pack offsets index)
    (hsha : CollisionFree sha1 inflate pack offsets index) (left : Nat) {off : Nat} (hoff : off ∈ offsets) {e : RawEntry}
    (hentry : parseEntryAt inflate pack off = .ok e) (hready : e.waitsFor = none → done off)
    (hholder : ∀ oid, e.waitsFor = some oid → ∃ holder, done holder ∧ R.oid holder = oid) :
    ∃ memo, R.Done done { s with memo := memo } ∧
      resolve inflate pack s.oidToOffset (left + 1) off s.memo = .ok (R.resolved off, memo) := by
  cases hwaits : e.waitsFor with
  | none => exact ⟨s.memo, h, resolve_of_memo (h.cached off (hready hwaits))⟩
  | some oid =>
      obtain ⟨holder, hdone, hoid⟩ := hholder oid hwaits
      cases e with
      | base typeId data => cases hwaits
      | ofsDelta b delta => cases hwaits
      | refDelta oid' delta =>
          cases hwaits
          exact ⟨_, h.insert_memo hoff hentry hdone hoid, h.resolve_ref hself hsha hoff hentry hdone hoid⟩

/-- An entry that is not done is not resolved where it is not on an id that is known. -/
theorem Reading.Done.memo_eq_none (h : R.Done done s) {off : Nat} (hnot : ¬done off)
    (hnone : ∀ oid delta, parseEntryAt inflate pack off = .ok (.refDelta oid delta) →
      ¬∃ holder, done holder ∧ R.oid holder = oid) : s.memo[off]? = none := by
  cases hmemo : s.memo[off]? with
  | none => rfl
  | some v =>
      obtain hdone | ⟨oid, delta, holder, hentry, hdone, hoid⟩ := h.resolved off v hmemo
      · exact absurd hdone hnot
      · exact absurd ⟨holder, hdone, hoid⟩ (hnone oid delta hentry)

/-! ## The first pass -/

/-- The index has an entry under an id where the pack holds its object. -/
theorem Reading.mem_index_iff (R : Reading sha1 inflate pack offsets index)
    (hself : SelfContained sha1 inflate pack offsets index) {oid : GitOid} {off : Nat} :
    (oid, off) ∈ index ↔ off ∈ offsets ∧ R.oid off = oid := by
  constructor
  · exact fun hmem => ⟨hself.mem_offsets hmem, R.oid_eq hself hmem⟩
  · rintro ⟨hoff, rfl⟩
    exact R.mem off hoff

theorem Reading.early_iff (R : Reading sha1 inflate pack offsets index)
    (hself : SelfContained sha1 inflate pack offsets index) {off : Nat} {e : RawEntry}
    (hentry : parseEntryAt inflate pack off = .ok e) :
    Early inflate pack index off ↔ ∀ oid, e.waitsFor = some oid →
      ∃ holder, (holder ∈ offsets ∧ holder < off) ∧ Early inflate pack index holder ∧ R.oid holder = oid := by
  constructor
  · intro hearly oid hwaits
    cases hearly with
    | ready h hready =>
        cases h.symm.trans hentry
        cases hready.symm.trans hwaits
    | waits h hwaits' hbase hbefore hearly =>
        cases h.symm.trans hentry
        cases hwaits'.symm.trans hwaits
        obtain ⟨hmem, hoid⟩ := (R.mem_index_iff hself).mp hbase
        exact ⟨_, ⟨hmem, hbefore⟩, hearly, hoid⟩
  · intro hholder
    cases hwaits : e.waitsFor with
    | none => exact .ready hentry hwaits
    | some oid =>
        obtain ⟨holder, ⟨hmem, hbefore⟩, hearly, hoid⟩ := hholder oid hwaits
        exact .waits hentry hwaits ((R.mem_index_iff hself).mpr ⟨hmem, hoid⟩) hbefore hearly

theorem mem_before_iff {before rest : List Nat} {off o : Nat} (hsplit : before ++ off :: rest = offsets)
    (h : offsets.Pairwise (· < ·)) : o ∈ offsets ∧ o < off ↔ o ∈ before := by
  subst hsplit
  rw [List.pairwise_append, List.pairwise_cons] at h
  obtain ⟨-, ⟨hrest, -⟩, hbefore⟩ := h
  rw [List.mem_append, List.mem_cons]
  constructor
  · rintro ⟨ho | rfl | ho, hlt⟩
    · exact ho
    · exact absurd hlt (lt_irrefl _)
    · exact absurd (hrest o ho) hlt.asymm
  · exact fun ho => ⟨.inl ho, hbefore o ho off List.mem_cons_self⟩

theorem Reading.settled_iff (R : Reading sha1 inflate pack offsets index)
    (hself : SelfContained sha1 inflate pack offsets index) {off b : Nat} {delta : List UInt8} {e : RawEntry}
    (hentry : parseEntryAt inflate pack off = .ok (.ofsDelta b delta)) (hbase : parseEntryAt inflate pack b = .ok e) :
    Settled inflate pack index off ↔ ∀ oid, e.waitsFor = some oid →
      ∃ holder, (holder ∈ offsets ∧ holder < off) ∧ Early inflate pack index holder ∧ R.oid holder = oid := by
  constructor
  · intro hsettled oid hwaits
    obtain ⟨holder, hmem, hlt, hearly⟩ := hsettled b delta e oid hentry hbase hwaits
    obtain ⟨hholder, hoid⟩ := (R.mem_index_iff hself).mp hmem
    exact ⟨holder, ⟨hholder, hlt⟩, hearly, hoid⟩
  · intro hholder b' delta' e' oid hentry' hbase' hwaits
    cases hentry.symm.trans hentry'
    cases hbase.symm.trans hbase'
    obtain ⟨holder, ⟨hmem, hlt⟩, hearly, hoid⟩ := hholder oid hwaits
    exact ⟨holder, (R.mem_index_iff hself).mpr ⟨hmem, hoid⟩, hlt, hearly⟩

/-- The first pass at an entry: it gets to the entry, or puts it off, or fails at a delta on one it put off. -/
def Reading.FirstStep (R : Reading sha1 inflate pack offsets index) (before : List Nat) (s : PackState) (off : Nat) :
    Prop :=
  (Settled inflate pack index off ∧ Early inflate pack index off ∧ ∃ s', packEntry sha1 inflate pack s off = .ok (some s') ∧
    R.Done (fun o => (o ∈ before ∧ Early inflate pack index o) ∨ o = off) s') ∨
  (Settled inflate pack index off ∧ ¬Early inflate pack index off ∧ packEntry sha1 inflate pack s off = .ok none) ∨
  (¬Settled inflate pack index off ∧ ∃ err, packEntry sha1 inflate pack s off = .error err)

section

variable {before : List Nat} {off : Nat} (h : R.Done (fun o => o ∈ before ∧ Early inflate pack index o) s)
  (hself : SelfContained sha1 inflate pack offsets index) (hsha : CollisionFree sha1 inflate pack offsets index)
  (hbefore : ∀ o, o ∈ offsets ∧ o < off ↔ o ∈ before) (hoff : off ∈ offsets)

include h hoff

theorem Reading.Done.first_base {typeId : Nat} {data : List UInt8}
    (hentry : parseEntryAt inflate pack off = .ok (.base typeId data)) : R.FirstStep before s off := by
  refine .inl ⟨fun b delta e oid hofs => ?_, .ready hentry rfl, ?_⟩
  · cases hentry.symm.trans hofs
  · refine h.packEntry_ready hoff hentry (fun oid hwaits => nomatch hwaits) ?_
    cases hcached : s.memo[off]? with
    | some v => exact h.resolve_cached hcached
    | none =>
        have hcontent : Content inflate pack (homeOf index) 0 off _ := .base hentry
        have hsame := hcontent.det (R.content off hoff)
        exact hsame ▸ resolve_base hcached hentry

include hself hsha hbefore

theorem Reading.Done.first_refDelta {oid : GitOid} {delta : List UInt8}
    (hentry : parseEntryAt inflate pack off = .ok (.refDelta oid delta)) : R.FirstStep before s off := by
  have hsettled : Settled inflate pack index off := fun b delta e oid hofs => nomatch hentry.symm.trans hofs
  have hearly := R.early_iff hself hentry
  simp only [hbefore, ← and_assoc] at hearly
  by_cases hholder : ∃ holder, (holder ∈ before ∧ Early inflate pack index holder) ∧ R.oid holder = oid
  · have hready : ∀ oid', (RawEntry.refDelta oid delta).waitsFor = some oid' →
        ∃ holder, (holder ∈ before ∧ Early inflate pack index holder) ∧ R.oid holder = oid' := by
      rintro oid' ⟨⟩
      exact hholder
    refine .inl ⟨hsettled, hearly.mpr hready, h.packEntry_ready hoff hentry hready ?_⟩
    obtain ⟨holder, hdone, hoid⟩ := hholder
    exact h.resolve_ref hself hsha hoff hentry hdone hoid
  · exact .inr (.inl ⟨hsettled, fun he => hholder (hearly.mp he oid rfl), h.packEntry_waiting hentry rfl hholder⟩)

theorem Reading.Done.first_ofsDelta {b : Nat} {delta : List UInt8}
    (hentry : parseEntryAt inflate pack off = .ok (.ofsDelta b delta)) : R.FirstStep before s off := by
  obtain ⟨hb, hlt, out, hout, hresolved⟩ := R.of_ofsDelta hself hoff hentry
  obtain ⟨e, hbase⟩ := R.exists_entry hb
  have hsettled := R.settled_iff hself hentry hbase
  simp only [hbefore, ← and_assoc] at hsettled
  have hbBefore := (hbefore b).mp ⟨hb, hlt⟩
  by_cases hholder : ∀ oid, e.waitsFor = some oid →
      ∃ holder, (holder ∈ before ∧ Early inflate pack index holder) ∧ R.oid holder = oid
  · refine .inl ⟨hsettled.mpr hholder, .ready hentry rfl, ?_⟩
    cases hcached : s.memo[off]? with
    | some v => exact h.packEntry_ready hoff hentry (fun oid hwaits => nomatch hwaits) (h.resolve_cached hcached)
    | none =>
        obtain ⟨memo, hmemo, hresolve⟩ := h.resolve_known hself hsha (maxDeltaDepth - 1) hb hbase
          (fun hready => ⟨hbBefore, .ready hbase hready⟩) hholder
        refine hmemo.packEntry_ready hoff hentry (fun oid hwaits => nomatch hwaits) ?_
        exact hresolved ▸ resolve_ofsDelta hcached hentry hresolve hout
  · refine .inr (.inr ⟨fun hs => hholder (hsettled.mp hs), ?_⟩)
    obtain ⟨oid, hwaits, hnone⟩ : ∃ oid, e.waitsFor = some oid ∧
        ¬∃ holder, (holder ∈ before ∧ Early inflate pack index holder) ∧ R.oid holder = oid := by
      simpa only [not_forall, exists_prop] using hholder
    cases e with
    | base typeId data => cases hwaits
    | ofsDelta b' delta' => cases hwaits
    | refDelta oid' delta' =>
        cases hwaits
        have hmemo : s.memo[off]? = none := by
          refine h.memo_eq_none (fun hdone => ?_) (fun oid delta href => nomatch hentry.symm.trans href)
          exact lt_irrefl off ((hbefore off).mpr hdone.1).2
        have hmemo' : s.memo[b]? = none := by
          refine h.memo_eq_none (fun hdone => ?_) (fun oid delta href => ?_)
          · obtain ⟨holder, ⟨hmem, hltb⟩, hearly, hoid⟩ := (R.early_iff hself hbase).mp hdone.2 _ rfl
            exact hnone ⟨holder, ⟨(hbefore holder).mp ⟨hmem, hltb.trans hlt⟩, hearly⟩, hoid⟩
          · cases hbase.symm.trans href
            exact hnone
        have hfail := resolve_waiting (maxDeltaDepth - 1) hmemo hentry hmemo' hbase
          (h.getElem?_eq_none hnone)
        rw [packEntry_eq hentry fun oid hwaits => nomatch hwaits]
        exact ⟨_, congrArg (· >>= _) hfail⟩

theorem Reading.Done.first_step : R.FirstStep before s off := by
  obtain ⟨e, hentry⟩ := R.exists_entry hoff
  cases e with
  | base typeId data => exact h.first_base hoff hentry
  | ofsDelta b delta => exact h.first_ofsDelta hself hsha hbefore hoff hentry
  | refDelta oid delta => exact h.first_refDelta hself hsha hbefore hoff hentry

end

/-- The first pass gets to the early entries and puts off the others, unless it fails. -/
theorem Reading.Done.packPass_first (hself : SelfContained sha1 inflate pack offsets index)
    (hsha : CollisionFree sha1 inflate pack offsets index) {before remaining : List Nat}
    (hsplit : before ++ remaining = offsets) {s : PackState}
    (h : R.Done (fun o => o ∈ before ∧ Early inflate pack index o) s) :
    ((∀ off ∈ remaining, Settled inflate pack index off) ∧ ∃ s' deferred,
      packPass sha1 inflate pack s remaining = .ok (s', deferred) ∧
      (∀ off, off ∈ deferred ↔ off ∈ remaining ∧ ¬Early inflate pack index off) ∧ deferred.Sublist remaining ∧
      R.Done (fun o => o ∈ offsets ∧ Early inflate pack index o) s') ∨
    ((¬∀ off ∈ remaining, Settled inflate pack index off) ∧
      ∃ err, packPass sha1 inflate pack s remaining = .error err) := by
  induction remaining generalizing before s with
  | nil =>
      rw [List.append_nil] at hsplit
      subst hsplit
      exact .inl ⟨by simp, s, [], rfl, by simp, .slnil, h⟩
  | cons off remaining ih =>
      have hoff : off ∈ offsets := hsplit ▸ List.mem_append_right _ List.mem_cons_self
      have hbefore : ∀ o, o ∈ offsets ∧ o < off ↔ o ∈ before := fun o => mem_before_iff hsplit hself.increasing
      have hsplit' : before ++ [off] ++ remaining = offsets := by rw [List.append_assoc]; exact hsplit
      obtain ⟨hsettled, hearly, s', hentry, hs'⟩ | ⟨hsettled, hearly, hentry⟩ | ⟨hsettled, err, hentry⟩ :=
        h.first_step hself hsha hbefore hoff
      -- an early entry is resolved on the first pass
      · have hnext : R.Done (fun o => o ∈ before ++ [off] ∧ Early inflate pack index o) s' := by
          refine hs'.congr fun o => ?_
          rw [List.mem_append, List.mem_singleton, or_and_right]
          exact or_congr_right ⟨fun ho => ⟨ho, ho ▸ hearly⟩, And.left⟩
        obtain ⟨hall, s'', deferred, hpass, hmem, hsub, hdone⟩ | ⟨hall, err, hpass⟩ := ih hsplit' hnext
        · refine .inl ⟨List.forall_mem_cons.mpr ⟨hsettled, hall⟩, s'', deferred, ?_, fun o => ?_, hsub.cons _, hdone⟩
          · exact bind_eq_ok.mpr ⟨_, hentry, hpass⟩
          · rw [hmem, List.mem_cons, or_and_right, or_iff_right]
            exact fun ho => ho.2 (ho.1 ▸ hearly)
        · refine .inr ⟨fun hs => hall (List.forall_mem_cons.mp hs).2, err, ?_⟩
          exact (congrArg (· >>= _) hentry).trans hpass
      -- any other one is put off, and nothing changes
      · have hnext : R.Done (fun o => o ∈ before ++ [off] ∧ Early inflate pack index o) s := by
          refine h.congr fun o => ?_
          rw [List.mem_append, List.mem_singleton, or_and_right, or_iff_left]
          exact fun ho => hearly (ho.1 ▸ ho.2)
        obtain ⟨hall, s'', deferred, hpass, hmem, hsub, hdone⟩ | ⟨hall, err, hpass⟩ := ih hsplit' hnext
        · refine .inl ⟨List.forall_mem_cons.mpr ⟨hsettled, hall⟩, s'', off :: deferred, ?_, fun o => ?_,
            hsub.cons_cons _, hdone⟩
          · exact bind_eq_ok.mpr ⟨_, hentry, bind_eq_ok.mpr ⟨_, hpass, rfl⟩⟩
          · rw [List.mem_cons, List.mem_cons, hmem, or_and_right]
            exact or_congr_left ⟨fun ho => ⟨ho, ho ▸ hearly⟩, And.left⟩
        · refine .inr ⟨fun hs => hall (List.forall_mem_cons.mp hs).2, err, ?_⟩
          simp only [packPass, hentry, hpass, bind, Except.bind]
      -- an entry that cannot settle ends the pass
      · exact .inr ⟨fun hs => hsettled (List.forall_mem_cons.mp hs).1, err, congrArg (· >>= _) hentry⟩

/-! ## The passes behind it -/

/-- A pass over deltas on ids does not fail, and puts off those on ids that were not known before it. -/
theorem Reading.Done.packPass_later (hself : SelfContained sha1 inflate pack offsets index)
    (hsha : CollisionFree sha1 inflate pack offsets index) {remaining : List Nat} (hnodup : remaining.Nodup)
    (hrefs : ∀ off ∈ remaining, off ∈ offsets ∧ ∃ oid delta, parseEntryAt inflate pack off = .ok (.refDelta oid delta))
    {done : Nat → Prop} {s : PackState} (h : R.Done done s) :
    ∃ s' deferred, packPass sha1 inflate pack s remaining = .ok (s', deferred) ∧ deferred.Sublist remaining ∧
      R.Done (fun o => done o ∨ o ∈ remaining ∧ o ∉ deferred) s' ∧
      ∀ off ∈ deferred, ∀ oid delta, parseEntryAt inflate pack off = .ok (.refDelta oid delta) →
        ¬∃ holder, done holder ∧ R.oid holder = oid := by
  induction remaining generalizing done s with
  | nil => exact ⟨s, [], rfl, .slnil, h.congr fun o => by simp, by simp⟩
  | cons off remaining ih =>
      obtain ⟨hoff, oid, delta, hentry⟩ := hrefs off List.mem_cons_self
      obtain ⟨hnot, hnodup⟩ := List.nodup_cons.mp hnodup
      have hrefs' := fun o ho => hrefs o (List.mem_cons_of_mem _ ho)
      by_cases hholder : ∃ holder, done holder ∧ R.oid holder = oid
      · have hready : ∀ oid', (RawEntry.refDelta oid delta).waitsFor = some oid' →
            ∃ holder, done holder ∧ R.oid holder = oid' := by
          rintro oid' ⟨⟩
          exact hholder
        obtain ⟨holder, hdone, hoid⟩ := hholder
        obtain ⟨s', hstep, hs'⟩ := h.packEntry_ready hoff hentry hready
          (h.resolve_ref hself hsha hoff hentry hdone hoid)
        obtain ⟨s'', deferred, hpass, hsub, hdone', hwait⟩ := ih hnodup hrefs' hs'
        refine ⟨s'', deferred, bind_eq_ok.mpr ⟨_, hstep, hpass⟩, hsub.cons _, hdone'.congr fun o => ?_, ?_⟩
        · rw [List.mem_cons, or_assoc, or_and_right]
          exact or_congr_right (or_congr_left ⟨fun ho => ⟨ho, ho ▸ fun hd => hnot (hsub.subset hd)⟩, And.left⟩)
        · rintro o ho oid' delta' hentry' ⟨holder, hd, heq⟩
          exact hwait o ho oid' delta' hentry' ⟨holder, .inl hd, heq⟩
      · have hstep := h.packEntry_waiting hentry rfl hholder
        obtain ⟨s', deferred, hpass, hsub, hdone', hwait⟩ := ih hnodup hrefs' h
        refine ⟨s', off :: deferred, bind_eq_ok.mpr ⟨_, hstep, bind_eq_ok.mpr ⟨_, hpass, rfl⟩⟩, hsub.cons_cons _,
          hdone'.congr fun o => or_congr_right ?_, List.forall_mem_cons.mpr ⟨fun oid' delta' hentry' => ?_, hwait⟩⟩
        · rw [List.mem_cons, List.mem_cons, not_or]
          exact ⟨fun ho => ⟨.inr ho.1, fun heq => hnot (heq ▸ ho.1), ho.2⟩,
            fun ho => ⟨ho.1.resolve_left ho.2.1, ho.2.2⟩⟩
        · cases hentry.symm.trans hentry'
          exact hholder

/-- Some entry is not a delta on an id. -/
theorem Content.exists_ready {home : GitOid → Option Nat} {links off : Nat} {r : Nat × List UInt8}
    (h : Content inflate pack home links off r) :
    ∃ off' e, parseEntryAt inflate pack off' = .ok e ∧ e.waitsFor = none ∧ (off' = off ∨ ∃ oid, home oid = some off') := by
  induction h with
  | base h => exact ⟨_, _, h, rfl, .inl rfl⟩
  | ofsDelta h => exact ⟨_, _, h, rfl, .inl rfl⟩
  | refDelta h hhome _ _ ih =>
      obtain ⟨off', e, hentry, hready, rfl | hhome'⟩ := ih
      · exact ⟨_, e, hentry, hready, .inr ⟨_, hhome⟩⟩
      · exact ⟨off', e, hentry, hready, .inr hhome'⟩

/-- Where a delta on an id is not done, one of the deltas that are not done is on an entry that is. -/
theorem Content.exists_next {R : Reading sha1 inflate pack offsets index}
    (hself : SelfContained sha1 inflate pack offsets index) {done : Nat → Prop}
    (hrefs : ∀ off ∈ offsets, ¬done off → ∃ oid delta, parseEntryAt inflate pack off = .ok (.refDelta oid delta))
    {links off : Nat} {r : Nat × List UInt8} (h : Content inflate pack (homeOf index) links off r) (hoff : off ∈ offsets)
    (hnot : ¬done off) :
    ∃ off' ∈ offsets, ¬done off' ∧ ∃ oid delta, parseEntryAt inflate pack off' = .ok (.refDelta oid delta) ∧
      ∃ holder, done holder ∧ R.oid holder = oid := by
  induction h with
  | base h =>
      obtain ⟨oid, delta, href⟩ := hrefs _ hoff hnot
      cases h.symm.trans href
  | ofsDelta h =>
      obtain ⟨oid, delta, href⟩ := hrefs _ hoff hnot
      cases h.symm.trans href
  | @refDelta links off baseOffset typeId oid delta body out h hhome _ _ ih =>
      have hmem := mem_of_homeOf hhome
      by_cases hdone : done baseOffset
      · exact ⟨off, hoff, hnot, oid, delta, h, baseOffset, hdone, R.oid_eq hself hmem⟩
      · exact ih (hself.mem_offsets hmem) hdone

theorem packPasses_of_pass {s s' : PackState} {remaining deferred : List Nat}
    (h : packPass sha1 inflate pack s remaining = .ok (s', deferred)) (hne : deferred.length ≠ remaining.length) :
    packPasses sha1 inflate pack s remaining = packPasses sha1 inflate pack s' deferred := by
  cases remaining with
  | nil =>
      cases h
      exact absurd rfl hne
  | cons off remaining =>
      rw [packPasses]
      split
      · rename_i herr
        cases herr.symm.trans h
      · rename_i hok
        cases hok.symm.trans h
        exact if_neg hne

theorem packPasses_of_error {s : PackState} {remaining : List Nat} {err : GitError}
    (h : packPass sha1 inflate pack s remaining = .error err) :
    packPasses sha1 inflate pack s remaining = .error err := by
  cases remaining with
  | nil => cases h
  | cons off remaining =>
      rw [packPasses]
      split
      · rename_i herr
        cases herr.symm.trans h
        rfl
      · rename_i hok
        cases hok.symm.trans h

/-- Once the early entries are done, the passes get to all the others. -/
theorem Reading.Done.packPasses_later (hself : SelfContained sha1 inflate pack offsets index)
    (hsha : CollisionFree sha1 inflate pack offsets index) {done : Nat → Prop} {s : PackState} (h : R.Done done s)
    {remaining : List Nat} (hnodup : remaining.Nodup) (hmem : ∀ off, off ∈ remaining ↔ off ∈ offsets ∧ ¬done off)
    (hrefs : ∀ off ∈ offsets, ¬done off → ∃ oid delta, parseEntryAt inflate pack off = .ok (.refDelta oid delta)) :
    ∃ s', packPasses sha1 inflate pack s remaining = .ok s' ∧ R.Done (· ∈ offsets) s' := by
  induction hlength : remaining.length using Nat.strong_induction_on generalizing remaining done s with
  | h n ih =>
      cases remaining with
      | nil =>
          refine ⟨s, by rw [packPasses], h.congr fun off => ⟨h.mem off, fun hoff => ?_⟩⟩
          by_contra hnot
          exact List.not_mem_nil ((hmem off).mpr ⟨hoff, hnot⟩)
      | cons off remaining =>
          have hrefs' : ∀ o ∈ off :: remaining, o ∈ offsets ∧
              ∃ oid delta, parseEntryAt inflate pack o = .ok (.refDelta oid delta) := by
            intro o ho
            obtain ⟨hoff, hnot⟩ := (hmem o).mp ho
            exact ⟨hoff, hrefs o hoff hnot⟩
          obtain ⟨s', deferred, hpass, hsub, hdone, hwait⟩ := h.packPass_later hself hsha hnodup hrefs'
          have hprogress : deferred.length ≠ (off :: remaining).length := by
            intro hlen
            cases hsub.eq_of_length hlen
            obtain ⟨hoff, hnot⟩ := (hmem off).mp List.mem_cons_self
            obtain ⟨off', hoff', hnot', oid, delta, hentry, hholder⟩ :=
              (R.content off hoff).exists_next hself hrefs hoff hnot
            exact hwait off' ((hmem off').mpr ⟨hoff', hnot'⟩) oid delta hentry hholder
          have hmem' : ∀ o, o ∈ deferred ↔ o ∈ offsets ∧ ¬(done o ∨ o ∈ off :: remaining ∧ o ∉ deferred) := by
            intro o
            rw [not_or, ← and_assoc, ← hmem, not_and_not_right]
            exact ⟨fun ho => ⟨hsub.subset ho, fun _ => ho⟩, fun ho => ho.2 ho.1⟩
          have hrefs'' := fun o ho (hnot : ¬(done o ∨ o ∈ off :: remaining ∧ o ∉ deferred)) =>
            hrefs o ho fun hd => hnot (.inl hd)
          have hlt : deferred.length < n := hlength ▸ lt_of_le_of_ne hsub.length_le hprogress
          obtain ⟨s'', hpasses, hall⟩ := ih _ hlt hdone (hsub.nodup hnodup) hmem' hrefs'' rfl
          exact ⟨s'', (packPasses_of_pass hpass hprogress).trans hpasses, hall⟩

/-- The first pass puts off some entries only. -/
theorem Reading.exists_early (R : Reading sha1 inflate pack offsets index)
    (hself : SelfContained sha1 inflate pack offsets index) {off : Nat} (hoff : off ∈ offsets) :
    ∃ off' ∈ offsets, Early inflate pack index off' := by
  obtain ⟨off', e, hentry, hready, rfl | ⟨oid, hhome⟩⟩ := (R.content off hoff).exists_ready
  · exact ⟨off', hoff, .ready hentry hready⟩
  · exact ⟨off', hself.mem_offsets (mem_of_homeOf hhome), .ready hentry hready⟩

/-- The passes get to every entry, unless the first one fails. -/
theorem Reading.packPasses_cases (R : Reading sha1 inflate pack offsets index)
    (hself : SelfContained sha1 inflate pack offsets index) (hsha : CollisionFree sha1 inflate pack offsets index) :
    ((∀ off ∈ offsets, Settled inflate pack index off) ∧
      ∃ s, packPasses sha1 inflate pack ⟨∅, ∅, ∅⟩ offsets = .ok s ∧ R.Done (· ∈ offsets) s) ∨
    ((¬∀ off ∈ offsets, Settled inflate pack index off) ∧
      ∃ err, packPasses sha1 inflate pack ⟨∅, ∅, ∅⟩ offsets = .error err) := by
  have hstart : R.Done (fun o => o ∈ [] ∧ Early inflate pack index o) ⟨∅, ∅, ∅⟩ :=
    R.done_nothing.congr fun o => by simp
  obtain ⟨hall, s, deferred, hpass, hmem, hsub, hdone⟩ | ⟨hall, err, hpass⟩ :=
    hstart.packPass_first hself hsha (List.nil_append offsets)
  · refine .inl ⟨hall, ?_⟩
    by_cases hlen : deferred.length = offsets.length
    · -- Nothing was done, so that there is nothing to do.
      cases hsub.eq_of_length hlen
      have hempty : ∀ off, off ∉ offsets := by
        intro off hoff
        obtain ⟨off', hoff', hearly⟩ := R.exists_early hself hoff
        exact ((hmem off').mp hoff').2 hearly
      obtain rfl := List.eq_nil_iff_forall_not_mem.mpr hempty
      exact ⟨_, by rw [packPasses], R.done_nothing.congr fun o => by simp⟩
    · rw [packPasses_of_pass hpass hlen]
      refine hdone.packPasses_later hself hsha (hsub.nodup hself.nodup) (fun off => ?_) fun off hoff hnot => ?_
      · rw [hmem, not_and]
        exact ⟨fun ho => ⟨ho.1, fun _ => ho.2⟩, fun ho => ⟨ho.1, ho.2 ho.1⟩⟩
      · obtain ⟨e, hentry⟩ := R.exists_entry hoff
        cases e with
        | base typeId data => exact absurd ⟨hoff, .ready hentry rfl⟩ hnot
        | ofsDelta b delta => exact absurd ⟨hoff, .ready hentry rfl⟩ hnot
        | refDelta oid delta => exact ⟨oid, delta, hentry⟩
  · exact .inr ⟨hall, err, packPasses_of_error hpass⟩

theorem emit_eq {entry : Nat → GitOid × GitObject} {offsets : List Nat} (hnodup : offsets.Nodup)
    {results : BTreeMap Nat (GitOid × GitObject)} (h : ∀ off ∈ offsets, results[off]? = some (entry off)) :
    emit offsets results = offsets.map entry := by
  induction offsets generalizing results with
  | nil => rfl
  | cons off offsets ih =>
      obtain ⟨hnot, hnodup⟩ := List.nodup_cons.mp hnodup
      obtain ⟨hoff, hrest⟩ := List.forall_mem_cons.mp h
      unfold emit
      simp only [hoff, List.map_cons, List.cons.injEq, true_and]
      refine ih hnodup fun o ho => ?_
      rw [BTreeMap.getElem?_erase, if_neg]
      · exact hrest o ho
      · exact fun heq => hnot (heq ▸ ho)

variable (sha1 inflate pack offsets index)

/-- Decoding without an index gives, in the order of the pack, what it gives with the index, in the order of
    the index. -/
def Agree (idx : List UInt8) : Prop :=
  ∃ entry : Nat → GitOid × GitObject, readPack sha1 inflate idx pack = .ok (index.map fun e => entry e.2) ∧
    parsePackBytes sha1 inflate pack = .ok (offsets.map entry)

variable {sha1 inflate pack offsets index}

/-- A pack that holds the bases of its deltas decodes without an index to what it does with one exactly if
    each delta on an entry that waits for an object comes behind an entry that holds it and that the first
    pass gets to. -/
theorem parsePackBytes_agrees_iff {idx : List UInt8} (hidx : parseIdx idx = .ok index)
    (hself : SelfContained sha1 inflate pack offsets index) (hsha : CollisionFree sha1 inflate pack offsets index) :
    Agree sha1 inflate pack offsets index idx ↔ ∀ off ∈ offsets, Settled inflate pack index off := by
  obtain ⟨R⟩ := hself.exists_reading
  have hread := R.readPack_ok hself hsha hidx
  obtain ⟨hall, s, hpasses, hdone⟩ | ⟨hall, err, hpasses⟩ := R.packPasses_cases hself hsha
  · refine iff_of_true ⟨R.entry, hread, ?_⟩ hall
    refine bind_eq_ok.mpr ⟨_, hself.header, bind_eq_ok.mpr ⟨_, hself.entries, ?_⟩⟩
    refine bind_eq_ok.mpr ⟨s, hpasses, congrArg Except.ok ?_⟩
    exact emit_eq hself.nodup fun off hoff => (hdone.results off _).mpr ⟨hoff, rfl⟩
  · refine iff_of_false ?_ hall
    rintro ⟨entry, -, hparse⟩
    obtain ⟨count, hcount, hparse⟩ := bind_eq_ok.mp hparse
    cases hself.header.symm.trans hcount
    obtain ⟨offsets', hoffsets, hparse⟩ := bind_eq_ok.mp hparse
    cases hself.entries.symm.trans hoffsets
    obtain ⟨s, hs, -⟩ := bind_eq_ok.mp hparse
    cases hpasses.symm.trans hs

end

/-! ## A pack of three blobs -/

def adler32 (data : List UInt8) : Nat :=
  let (a, b) := data.foldl (fun (a, b) x => ((a + x.toNat) % 65521, (b + a + x.toNat) % 65521)) (1, 0)
  b * 65536 + a

/-- Inflate a zlib stream of a single stored block. -/
def inflateStored : Inflate
  | 0x78 :: 0x01 :: 0x01 :: len :: len' :: nlen :: nlen' :: rest =>
      let n := len.toNat + 256 * len'.toNat
      if nlen.toNat + 256 * nlen'.toNat = 0xffff - n ∧ readBeU32 rest n = .ok (adler32 (rest.take n)) then
        .ok (rest.take n, 11 + n)
      else .error "corrupt deflate stream".toList
  | _ => .error "corrupt deflate stream".toList

def blobOid (text : String) : GitOid := GitObject.oid .ofSha1 (.blob (utf8 text.toList))

/-- The delta that puts a mark behind the two bytes of its base. -/
def markDelta : List UInt8 := [2, 3, 0x90, 2, 1, 0x21]

/-- The delta that puts another mark behind the three bytes of its base. -/
def secondDelta : List UInt8 := [3, 4, 0x90, 3, 1, 0x3f]

def blobEntry : List UInt8 := [0x32, 0x78, 1, 1, 2, 0, 0xfd, 0xff, 0x68, 0x69, 0x01, 0x3b, 0x00, 0xd2]

def refEntry : List UInt8 :=
  0x76 :: ((blobOid "hi").bytes ++ ([0x78, 1, 1, 6, 0, 0xf9, 0xff] ++ markDelta ++ [0x02, 0x8a, 0x00, 0xba]))

def ofsEntry (neg : UInt8) : List UInt8 :=
  0x66 :: neg :: ([0x78, 1, 1, 6, 0, 0xf9, 0xff] ++ secondDelta ++ [0x02, 0xb6, 0x00, 0xdb])

def packOf (entries : List (List UInt8)) : List UInt8 :=
  let body := utf8 "PACK".toList ++ Sha.bytesOf 4 2 ++ Sha.bytesOf 4 entries.length ++ entries.flatten
  body ++ Sha.sha1 body

/-- The index of a pack, from the id, the checksum and the offset of each entry. -/
def idxOf (entries : List (GitOid × Nat × Nat)) (pack : List UInt8) : List UInt8 :=
  let fanout := (List.range 256).flatMap fun b =>
    Sha.bytesOf 4 (entries.countP fun e => decide ((e.1.bytes.headD 0).toNat ≤ b))
  let body := idxMagic ++ Sha.bytesOf 4 2 ++ fanout ++ entries.flatMap (·.1.bytes) ++
    entries.flatMap (fun e => Sha.bytesOf 4 e.2.1) ++ entries.flatMap (fun e => Sha.bytesOf 4 e.2.2) ++
    pack.drop (pack.length - 20)
  body ++ Sha.sha1 body

/-- A delta on a delta on a blob that comes last. -/
def latePack : List UInt8 := packOf [refEntry, ofsEntry 38, blobEntry]

def lateIdx : List UInt8 :=
  idxOf [(blobOid "hi!?", 0xebcd621c, 50), (blobOid "hi", 0x5ba818e9, 69), (blobOid "hi!", 0x20887064, 12)] latePack

/-- The same with the blob before the delta on the delta. -/
def earlyPack : List UInt8 := packOf [refEntry, blobEntry, ofsEntry 52]

def earlyIdx : List UInt8 :=
  idxOf [(blobOid "hi!?", 0xc0ba5587, 64), (blobOid "hi", 0x5ba818e9, 50), (blobOid "hi!", 0x20887064, 12)] earlyPack

/-- What is in either index. -/
def marksIndex (x b r : Nat) : List (GitOid × Nat) := [(blobOid "hi!?", x), (blobOid "hi", b), (blobOid "hi!", r)]

section

variable {pack : List UInt8} {offsets : List Nat} {x b r : Nat}
  (hr : parseEntryAt inflateStored pack r = .ok (.refDelta (blobOid "hi") markDelta))
  (hb : parseEntryAt inflateStored pack b = .ok (.base objBlob (utf8 "hi".toList)))
  (hx : parseEntryAt inflateStored pack x = .ok (.ofsDelta r secondDelta))

include hr hb hx

theorem marks_content {oid : GitOid} {off : Nat} (hmem : (oid, off) ∈ marksIndex x b r) :
    ∃ text ∈ ["hi!?", "hi", "hi!"], oid = blobOid text ∧
      Content inflateStored pack (homeOf (marksIndex x b r)) maxDeltaDepth off (objBlob, utf8 text.toList) := by
  have hhome : homeOf (marksIndex x b r) (blobOid "hi") = some b := by
    simp only [homeOf, offsetsByOid, marksIndex, List.foldl_cons, List.foldl_nil, BTreeMap.getElem?_insert]
    rw [if_neg (by decide +kernel), if_pos trivial]
  have hblob : Content inflateStored pack (homeOf (marksIndex x b r)) 198 b (objBlob, utf8 "hi".toList) := .base hb
  have hmark : Content inflateStored pack (homeOf (marksIndex x b r)) 199 r (objBlob, utf8 "hi!".toList) :=
    .refDelta hr hhome hblob (by decide +kernel)
  simp only [marksIndex, List.mem_cons, Prod.mk.injEq, List.not_mem_nil, or_false] at hmem
  obtain ⟨rfl, rfl⟩ | ⟨rfl, rfl⟩ | ⟨rfl, rfl⟩ := hmem
  · exact ⟨"hi!?", by simp, rfl, .ofsDelta hx hmark (by decide +kernel)⟩
  · exact ⟨"hi", by simp, rfl, .base hb⟩
  · exact ⟨"hi!", by simp, rfl, .refDelta hr hhome (.base hb) (by decide +kernel)⟩

theorem marks_selfContained (hheader : parsePackHeader pack = .ok offsets.length)
    (hentries : entryOffsets inflateStored pack offsets.length 12 = .ok offsets) (hperm : [x, b, r].Perm offsets) :
    SelfContained .ofSha1 inflateStored pack offsets (marksIndex x b r) where
  header := hheader
  entries := hentries
  indexed := hperm
  objects oid off hmem := by
    have hblobs : ∀ text ∈ ["hi!?", "hi", "hi!"],
        canonicalBytes (objBlob, utf8 text.toList) = .ok (GitObject.blob (utf8 text.toList)).encode ∧
          GitObject.decode (GitObject.blob (utf8 text.toList)).encode = .ok (.blob (utf8 text.toList)) := by
      decide +kernel
    obtain ⟨text, htext, rfl, hcontent⟩ := marks_content hr hb hx hmem
    obtain ⟨hbytes, hdecode⟩ := hblobs text htext
    exact ⟨_, _, _, hcontent, hbytes, rfl, hdecode⟩
  bases off hoff baseOffset delta hentry := by
    have hmem : off ∈ [x, b, r] := hperm.mem_iff.mpr hoff
    rw [List.mem_cons, List.mem_cons, List.mem_singleton] at hmem
    obtain rfl | rfl | rfl := hmem
    · cases hx.symm.trans hentry
      exact hperm.subset (by simp)
    · cases hb.symm.trans hentry
    · cases hr.symm.trans hentry

theorem marks_collisionFree (hperm : [x, b, r].Perm offsets) :
    CollisionFree .ofSha1 inflateStored pack offsets (marksIndex x b r) := by
  have hdistinct : ∀ text ∈ ["hi!?", "hi", "hi!"], ∀ text' ∈ ["hi!?", "hi", "hi!"],
      blobOid text = blobOid text' → text = text' := by
    decide +kernel
  have hread : ∀ off ∈ offsets, ∃ text ∈ ["hi!?", "hi", "hi!"],
      Content inflateStored pack (homeOf (marksIndex x b r)) maxDeltaDepth off (objBlob, utf8 text.toList) := by
    intro off hoff
    have hoff' : off ∈ (marksIndex x b r).map Prod.snd := hperm.mem_iff.mpr hoff
    obtain ⟨⟨oid, off⟩, hmem, rfl⟩ := List.mem_map.mp hoff'
    obtain ⟨text, htext, -, hcontent⟩ := marks_content hr hb hx hmem
    exact ⟨text, htext, hcontent⟩
  intro off hoff off' hoff' resolved resolved' bytes bytes' hcontent hbytes hcontent' hbytes' hsha
  obtain ⟨text, htext, hread₁⟩ := hread off hoff
  obtain ⟨text', htext', hread₂⟩ := hread off' hoff'
  cases hcontent.det hread₁
  cases hcontent'.det hread₂
  cases hbytes
  cases hbytes'
  cases hdistinct text htext text' htext' hsha
  rfl

end

/-- The pack whose blob comes last is fine, but is not decoded without its index. -/
theorem parsePackBytes_fails :
    parseIdx lateIdx = .ok (marksIndex 50 69 12) ∧
      SelfContained .ofSha1 inflateStored latePack [12, 50, 69] (marksIndex 50 69 12) ∧
      CollisionFree .ofSha1 inflateStored latePack [12, 50, 69] (marksIndex 50 69 12) ∧
      parsePackBytes .ofSha1 inflateStored latePack =
        .error (.pack "packfile: ref-delta base not in this pack".toList) ∧
      ¬Agree .ofSha1 inflateStored latePack [12, 50, 69] (marksIndex 50 69 12) lateIdx := by
  have hr : parseEntryAt inflateStored latePack 12 = .ok (.refDelta (blobOid "hi") markDelta) := by decide +kernel
  have hb : parseEntryAt inflateStored latePack 69 = .ok (.base objBlob (utf8 "hi".toList)) := by decide +kernel
  have hx : parseEntryAt inflateStored latePack 50 = .ok (.ofsDelta 12 secondDelta) := by decide +kernel
  have hperm : [50, 69, 12].Perm [12, 50, 69] := by decide
  have hfail : parsePackBytes .ofSha1 inflateStored latePack =
      .error (.pack "packfile: ref-delta base not in this pack".toList) := by decide +kernel
  refine ⟨by decide +kernel, marks_selfContained hr hb hx (by decide +kernel) (by decide +kernel) hperm,
    marks_collisionFree hr hb hx hperm, hfail, ?_⟩
  rintro ⟨entry, -, hparse⟩
  cases hfail.symm.trans hparse

/-- With the blob before the delta on the delta it is. -/
theorem parsePackBytes_agrees_early :
    Agree .ofSha1 inflateStored earlyPack [12, 50, 64] (marksIndex 64 50 12) earlyIdx := by
  have hr : parseEntryAt inflateStored earlyPack 12 = .ok (.refDelta (blobOid "hi") markDelta) := by decide +kernel
  have hb : parseEntryAt inflateStored earlyPack 50 = .ok (.base objBlob (utf8 "hi".toList)) := by decide +kernel
  have hx : parseEntryAt inflateStored earlyPack 64 = .ok (.ofsDelta 12 secondDelta) := by decide +kernel
  have hperm : [64, 50, 12].Perm [12, 50, 64] := by decide
  have hself := marks_selfContained hr hb hx (by decide +kernel) (by decide +kernel) hperm
  refine (parsePackBytes_agrees_iff (by decide +kernel) hself (marks_collisionFree hr hb hx hperm)).mpr ?_
  intro off hoff baseOffset delta e oid hentry hbase hwaits
  rw [List.mem_cons, List.mem_cons, List.mem_singleton] at hoff
  obtain rfl | rfl | rfl := hoff
  · cases hr.symm.trans hentry
  · cases hb.symm.trans hentry
  · cases hx.symm.trans hentry
    cases hr.symm.trans hbase
    cases hwaits
    exact ⟨50, by simp [marksIndex], by decide, .ready hb rfl⟩

end Pack

end Omoplata
