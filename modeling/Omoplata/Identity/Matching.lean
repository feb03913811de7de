-- SUMMARY: The tiers of the matcher: what one step can do, and what the report of all three says.
import Mathlib.Data.List.Nodup
import Omoplata.Identity.Definition

/-!
# The matcher's report

Each tier of the matcher pairs definitions that are not paired yet, so that no
definition is paired twice and each is paired, deleted or added. Flags are only set, so
that whatever a tier leaves unpaired on both sides it has compared.
-/

namespace Omoplata

/-! ## The tiers -/

/-- A pair that a tier has found, of positions in the two versions. -/
structure DefMatch.IsPair (e : DefMatch) (olds news i j : Nat) : Prop where
  old : e.old = some i
  new : e.new = some j
  old_lt : i < olds
  new_lt : j < news
  kept : e.status = .unchanged ∨ e.status = .modified ∨ e.status = .renamed

/-- The flags of a matching are those of the pairs it has found, and no definition is in two. -/
structure Matching.Ok (old new : Nat) (m : Matching) : Prop where
  lengthOld : m.matchedOld.length = old
  lengthNew : m.matchedNew.length = new
  pairs : ∀ e ∈ m.found, ∃ i j, e.IsPair old new i j
  flaggedOld : ∀ i, flagged m.matchedOld i = true ↔ ∃ e ∈ m.found, e.old = some i
  flaggedNew : ∀ j, flagged m.matchedNew j = true ↔ ∃ e ∈ m.found, e.new = some j
  apart : m.found.Pairwise fun e e' => e.old ≠ e'.old ∧ e.new ≠ e'.new

theorem flagged_set {flags : List Bool} {i : Nat} (hi : i < flags.length) (k : Nat) :
    flagged (flags.set i true) k = true ↔ k = i ∨ flagged flags k = true := by
  unfold flagged
  rw [List.getD_eq_getElem?_getD, List.getD_eq_getElem?_getD, List.getElem?_set]
  by_cases hk : i = k
  · subst hk
    simp [hi]
  · simp [hk, Ne.symm hk]

theorem flagged_map_false {α : Type} (xs : List α) (k : Nat) : flagged (xs.map fun _ => false) k = false := by
  unfold flagged
  rw [List.getD_eq_getElem?_getD, List.getElem?_map]
  cases xs[k]? <;> rfl

theorem Matching.Ok.start (old new : List Definition) :
    Matching.Ok old.length new.length ⟨old.map fun _ => false, new.map fun _ => false, []⟩ where
  lengthOld := List.length_map _
  lengthNew := List.length_map _
  pairs := by simp
  flaggedOld i := by
    rw [flagged_map_false]
    simp
  flaggedNew j := by
    rw [flagged_map_false]
    simp
  apart := .nil

/-- A matching with one more pair of definitions that were not paired. -/
theorem Matching.Ok.push {old new i j : Nat} {m : Matching} {e : DefMatch} (h : m.Ok old new)
    (he : e.IsPair old new i j) (hi : flagged m.matchedOld i = false) (hj : flagged m.matchedNew j = false) :
    Matching.Ok old new ⟨m.matchedOld.set i true, m.matchedNew.set j true, m.found ++ [e]⟩ where
  lengthOld := List.length_set.trans h.lengthOld
  lengthNew := List.length_set.trans h.lengthNew
  pairs e' he' := by
    rcases List.mem_append.mp he' with hin | hin
    · exact h.pairs e' hin
    · obtain rfl := List.mem_singleton.mp hin
      exact ⟨i, j, he⟩
  flaggedOld k := by
    rw [flagged_set (h.lengthOld ▸ he.old_lt), h.flaggedOld]
    simp only [List.mem_append, List.mem_singleton, or_and_right, exists_or, exists_eq_left, he.old,
      Option.some.injEq]
    rw [or_comm, eq_comm]
  flaggedNew k := by
    rw [flagged_set (h.lengthNew ▸ he.new_lt), h.flaggedNew]
    simp only [List.mem_append, List.mem_singleton, or_and_right, exists_or, exists_eq_left, he.new,
      Option.some.injEq]
    rw [or_comm, eq_comm]
  apart := by
    refine List.pairwise_append.mpr ⟨h.apart, List.pairwise_singleton _ _, fun e' he' e'' he'' => ?_⟩
    obtain rfl := List.mem_singleton.mp he''
    refine ⟨fun heq => ?_, fun heq => ?_⟩
    · have hflag := (h.flaggedOld i).mpr ⟨e', he', heq.trans he.old⟩
      simp [hflag] at hi
    · have hflag := (h.flaggedNew j).mpr ⟨e', he', heq.trans he.new⟩
      simp [hflag] at hj

/-! ## One step -/

/-- One step of a tier. -/
def tierStep (akin : Definition → Definition → Bool) (classify : Definition → Definition → MatchStatus × Str)
    (old : List Definition) (m : Matching) (entry : Definition × Nat) : Matching :=
  if flagged m.matchedNew entry.2 then m
  else
    match old.zipIdx.find? fun (od, i) => !flagged m.matchedOld i && akin od entry.1 with
    | some (od, i) =>
        ⟨m.matchedOld.set i true, m.matchedNew.set entry.2 true,
          m.found ++ [⟨some i, some entry.2, (classify od entry.1).1, (classify od entry.1).2⟩]⟩
    | none => m

section

variable {akin : Definition → Definition → Bool} {classify : Definition → Definition → MatchStatus × Str}

theorem matchTier_eq (old new : List Definition) (m : Matching) :
    matchTier akin classify old new m = new.zipIdx.foldl (tierStep akin classify old) m := rfl

/-- A step pairs an unpaired definition of the new version with an akin one of the old, or leaves
    the matching as it is if there is none. -/
theorem tierStep_cases {old : List Definition} {m : Matching} {nd : Definition} {j : Nat} :
    (tierStep akin classify old m (nd, j) = m ∧ (flagged m.matchedNew j = true ∨
      ∀ (i : Nat) (od : Definition), old[i]? = some od → flagged m.matchedOld i = false → akin od nd = false)) ∨
    ∃ i od, old[i]? = some od ∧ akin od nd = true ∧ flagged m.matchedOld i = false ∧ flagged m.matchedNew j = false ∧
      tierStep akin classify old m (nd, j) = ⟨m.matchedOld.set i true, m.matchedNew.set j true,
        m.found ++ [⟨some i, some j, (classify od nd).1, (classify od nd).2⟩]⟩ := by
  unfold tierStep
  cases hj : flagged m.matchedNew j with
  | true => exact .inl ⟨rfl, .inl rfl⟩
  | false =>
      rw [if_neg Bool.false_ne_true]
      cases hfind : old.zipIdx.find? fun (od, i) => !flagged m.matchedOld i && akin od nd with
      | none =>
          refine .inl ⟨rfl, .inr fun i od hod hi => ?_⟩
          have hnone := List.find?_eq_none.mp hfind (od, i) (List.mk_mem_zipIdx_iff_getElem?.mpr hod)
          simpa [hi] using hnone
      | some entry =>
          obtain ⟨od, i⟩ := entry
          have hakin := List.find?_some hfind
          rw [Bool.and_eq_true, Bool.not_eq_true'] at hakin
          have hod := List.mk_mem_zipIdx_iff_getElem?.mp (List.mem_of_find?_eq_some hfind)
          exact .inr ⟨i, od, hod, hakin.2, hakin.1, rfl, rfl⟩

end

theorem mem_zipIdx_lt {α : Type} {xs : List α} {x : α} {i : Nat} (h : (x, i) ∈ xs.zipIdx) : i < xs.length := by
  simpa using List.snd_lt_of_mem_zipIdx h

/-! ## One tier -/

section

variable {akin : Definition → Definition → Bool} {classify : Definition → Definition → MatchStatus × Str}

/-- A tier pairs definitions that were not paired. -/
theorem matchTier_ok {old new : List Definition} {m : Matching}
    (hclassify : ∀ od nd, (classify od nd).1 = .unchanged ∨ (classify od nd).1 = .modified ∨
      (classify od nd).1 = .renamed)
    (h : m.Ok old.length new.length) : (matchTier akin classify old new m).Ok old.length new.length := by
  rw [matchTier_eq]
  refine List.foldlRecOn _ _ h fun m hm nd hnd => ?_
  obtain ⟨nd, j⟩ := nd
  rcases @tierStep_cases akin classify old m nd j with ⟨hstep, -⟩ | ⟨i, od, hod, -, hi, hj, hstep⟩
  · rw [hstep]
    exact hm
  · rw [hstep]
    exact hm.push ⟨rfl, rfl, (List.getElem?_eq_some_iff.mp hod).1, mem_zipIdx_lt hnd, hclassify od nd⟩ hi hj

/-- The pairs of a tier are those found before and pairs of akin definitions. -/
theorem matchTier_found {old new : List Definition} {m : Matching} {P : DefMatch → Prop} (hm : ∀ e ∈ m.found, P e)
    (hakin : ∀ (i j : Nat) (od nd : Definition), old[i]? = some od → new[j]? = some nd → akin od nd = true →
      P ⟨some i, some j, (classify od nd).1, (classify od nd).2⟩) :
    ∀ e ∈ (matchTier akin classify old new m).found, P e := by
  rw [matchTier_eq]
  refine List.foldlRecOn (motive := fun m : Matching => ∀ e ∈ m.found, P e) _ _ hm fun m hm nd hnd => ?_
  obtain ⟨nd, j⟩ := nd
  rcases @tierStep_cases akin classify old m nd j with ⟨hstep, -⟩ | ⟨i, od, hod, hak, -, -, hstep⟩
  · rw [hstep]
    exact hm
  · rw [hstep]
    refine List.forall_mem_append.mpr ⟨hm, List.forall_mem_singleton.mpr ?_⟩
    exact hakin i j od nd hod (List.mk_mem_zipIdx_iff_getElem?.mp hnd) hak

/-- What is paired stays paired. -/
structure Matching.Grows (m m' : Matching) : Prop where
  length : m'.matchedNew.length = m.matchedNew.length
  old : ∀ i, flagged m'.matchedOld i = false → flagged m.matchedOld i = false
  new : ∀ j, flagged m'.matchedNew j = false → flagged m.matchedNew j = false

theorem Matching.Grows.refl (m : Matching) : m.Grows m := ⟨rfl, fun _ hi => hi, fun _ hj => hj⟩

theorem Matching.Grows.trans {m m' m'' : Matching} (h : m.Grows m') (h' : m'.Grows m'') : m.Grows m'' :=
  ⟨h'.length.trans h.length, fun i hi => h.old i (h'.old i hi), fun j hj => h.new j (h'.new j hj)⟩

theorem flagged_set_false {flags : List Bool} {i k : Nat} (h : flagged (flags.set i true) k = false) :
    flagged flags k = false := by
  cases Nat.lt_or_ge i flags.length with
  | inl hlt =>
      refine Bool.eq_false_iff.mpr fun hflag => ?_
      rw [(flagged_set hlt k).mpr (.inr hflag)] at h
      cases h
  | inr hge => rwa [List.set_eq_of_length_le hge] at h

theorem tierStep_grows (old : List Definition) (m : Matching) (nd : Definition) (j : Nat) :
    m.Grows (tierStep akin classify old m (nd, j)) := by
  rcases @tierStep_cases akin classify old m nd j with ⟨hstep, -⟩ | ⟨i, od, -, -, -, -, hstep⟩
  · rw [hstep]
    exact .refl m
  · rw [hstep]
    exact ⟨List.length_set, fun _ => flagged_set_false, fun _ => flagged_set_false⟩

theorem foldl_tierStep_grows (old : List Definition) (entries : List (Definition × Nat)) (m : Matching) :
    m.Grows (entries.foldl (tierStep akin classify old) m) :=
  List.foldlRecOn (motive := fun m' => m.Grows m') _ _ (.refl m)
    fun m' hm' entry _ => hm'.trans (tierStep_grows old m' entry.1 entry.2)

theorem matchTier_grows (old new : List Definition) (m : Matching) : m.Grows (matchTier akin classify old new m) := by
  rw [matchTier_eq]
  exact foldl_tierStep_grows old new.zipIdx m

/-- A step leaves no definition of the old version unpaired that is akin to its own. -/
theorem tierStep_complete {old : List Definition} {m : Matching} {nd od : Definition} {i j : Nat}
    (hod : old[i]? = some od) (hold : flagged (tierStep akin classify old m (nd, j)).matchedOld i = false)
    (hnew : flagged (tierStep akin classify old m (nd, j)).matchedNew j = false) (hj : j < m.matchedNew.length) :
    akin od nd = false := by
  rcases @tierStep_cases akin classify old m nd j with ⟨hstep, hcases⟩ | ⟨_, _, -, -, -, -, hstep⟩
  · rw [hstep] at hold hnew
    rcases hcases with hflag | hnone
    · rw [hflag] at hnew
      cases hnew
    · exact hnone i od hod hold
  · rw [hstep] at hnew
    rw [(flagged_set hj j).mpr (.inl rfl)] at hnew
    cases hnew

/-- Definitions that a tier leaves unpaired in both versions are not akin. -/
theorem matchTier_complete {old new : List Definition} {m : Matching} (hm : m.Ok old.length new.length) {i j : Nat}
    {od nd : Definition} (hod : old[i]? = some od) (hnd : new[j]? = some nd)
    (hold : flagged (matchTier akin classify old new m).matchedOld i = false)
    (hnew : flagged (matchTier akin classify old new m).matchedNew j = false) : akin od nd = false := by
  rw [matchTier_eq] at hold hnew
  obtain ⟨pre, suf, hsplit⟩ := List.append_of_mem (List.mk_mem_zipIdx_iff_getElem?.mpr hnd)
  rw [hsplit, List.foldl_append, List.foldl_cons] at hold hnew
  -- the flags that are missing at the end were missing at the step of the definition
  have hbefore := @foldl_tierStep_grows akin classify old pre m
  have hafter := @foldl_tierStep_grows akin classify old suf
    (tierStep akin classify old (pre.foldl (tierStep akin classify old) m) (nd, j))
  refine tierStep_complete hod (hafter.old i hold) (hafter.new j hnew) ?_
  rw [hbefore.length, hm.lengthNew]
  exact (List.getElem?_eq_some_iff.mp hnd).1

end

/-! ## The three tiers -/

/-- The three tiers together. -/
def matchTiers (old new : List Definition) : Matching :=
  matchMove old new (matchRename old new (matchExact old new
    ⟨old.map fun _ => false, new.map fun _ => false, []⟩))

theorem matchExact_ok (old new : List Definition) :
    (matchExact old new ⟨old.map fun _ => false, new.map fun _ => false, []⟩).Ok old.length new.length := by
  refine matchTier_ok (fun od nd => ?_) (.start old new)
  split
  · exact .inl rfl
  · exact .inr (.inl rfl)

theorem matchRename_ok {old new : List Definition} {m : Matching} (h : m.Ok old.length new.length) :
    (matchRename old new m).Ok old.length new.length :=
  matchTier_ok (fun _ _ => .inr (.inr rfl)) h

theorem matchTiers_ok (old new : List Definition) : (matchTiers old new).Ok old.length new.length := by
  unfold matchTiers matchMove
  exact matchTier_ok (fun _ _ => .inr (.inr rfl)) (matchRename_ok (matchExact_ok old new))

/-- What an entry of a report says of the two versions. -/
inductive DefMatch.Holds (old new : List Definition) : DefMatch → Prop
  | unchanged {i j : Nat} {od nd : Definition} {reason : Str} (hod : old[i]? = some od) (hnd : new[j]? = some nd)
      (hkind : od.kind = nd.kind) (hpath : od.path = nd.path) (hhash : od.bodyHash = nd.bodyHash) :
      Holds old new ⟨some i, some j, .unchanged, reason⟩
  | modified {i j : Nat} {od nd : Definition} {reason : Str} (hod : old[i]? = some od) (hnd : new[j]? = some nd)
      (hkind : od.kind = nd.kind) (hpath : od.path = nd.path) (hhash : od.bodyHash ≠ nd.bodyHash) :
      Holds old new ⟨some i, some j, .modified, reason⟩
  | renamed {i j : Nat} {od nd : Definition} {reason : Str} (hod : old[i]? = some od) (hnd : new[j]? = some nd)
      (hkind : od.kind = nd.kind) (hpath : od.path ≠ nd.path) (hhash : od.bodyHash = nd.bodyHash) :
      Holds old new ⟨some i, some j, .renamed, reason⟩
  | deleted {i : Nat} {reason : Str} (hi : i < old.length) : Holds old new ⟨some i, none, .deleted, reason⟩
  | added {j : Nat} {reason : Str} (hj : j < new.length) : Holds old new ⟨none, some j, .added, reason⟩

/-- Each pair of the three tiers is what its entry says. -/
theorem matchTiers_found (old new : List Definition) :
    ∀ e ∈ (matchTiers old new).found, e.Holds old new := by
  refine matchTier_found (matchTier_found (matchTier_found ?_ ?_) ?_) ?_
  · exact fun e he => absurd he List.not_mem_nil
  · intro i j od nd hod hnd hakin
    rw [Bool.and_eq_true, beq_iff_eq, beq_iff_eq] at hakin
    by_cases hhash : od.bodyHash = nd.bodyHash
    · rw [if_pos hhash]
      exact .unchanged hod hnd hakin.1 hakin.2 hhash
    · rw [if_neg hhash]
      exact .modified hod hnd hakin.1 hakin.2 hhash
  · intro i j od nd hod hnd hakin
    simp only [Bool.and_eq_true, beq_iff_eq, Bool.not_eq_true', beq_eq_false_iff_ne] at hakin
    exact .renamed hod hnd hakin.1.1 hakin.2 hakin.1.2
  · intro i j od nd hod hnd hakin
    simp only [Bool.and_eq_true, beq_iff_eq, Bool.not_eq_true', beq_eq_false_iff_ne] at hakin
    exact .renamed hod hnd hakin.1.1.1 hakin.2 hakin.1.2

/-- What the three tiers leave unpaired has neither the path nor the body of a definition of the
    same kind. -/
theorem matchTiers_complete {old new : List Definition} {i j : Nat} {od nd : Definition} (hod : old[i]? = some od)
    (hnd : new[j]? = some nd) (hold : flagged (matchTiers old new).matchedOld i = false)
    (hnew : flagged (matchTiers old new).matchedNew j = false) (hkind : od.kind = nd.kind) :
    od.path ≠ nd.path ∧ od.bodyHash ≠ nd.bodyHash := by
  have hmove := matchTier_grows _ _ _ |>.old i hold
  have hmove' := matchTier_grows _ _ _ |>.new j hnew
  have hrename := matchTier_grows _ _ _ |>.old i hmove
  have hrename' := matchTier_grows _ _ _ |>.new j hmove'
  have hpath : od.path ≠ nd.path := by
    have hakin := matchTier_complete (.start old new) hod hnd hrename hrename'
    simpa [hkind] using hakin
  have hakin := matchTier_complete (matchExact_ok old new) hod hnd hmove hmove'
  refine ⟨hpath, ?_⟩
  simpa [hkind, hpath] using hakin

/-! ## The report -/

/-- A report that accounts for each definition of both versions once. -/
structure Accounts (old new : List Definition) (report : List DefMatch) : Prop where
  old_once : (report.filterMap DefMatch.old).Perm (List.range old.length)
  new_once : (report.filterMap DefMatch.new).Perm (List.range new.length)
  holds : ∀ e ∈ report, e.Holds old new
  /-- What is deleted and what is added have neither path nor body in common. -/
  apart : ∀ d ∈ report, ∀ a ∈ report, d.status = .deleted → a.status = .added → ∀ i j od nd, d.old = some i →
    a.new = some j → old[i]? = some od → new[j]? = some nd → od.kind = nd.kind →
    od.path ≠ nd.path ∧ od.bodyHash ≠ nd.bodyHash

/-- Positions that are paired, and those that are not, are all positions. -/
theorem perm_flagged {found : List DefMatch} {pos : DefMatch → Option Nat} {flags : List Bool} {n : Nat}
    (hapart : found.Pairwise fun e e' => pos e ≠ pos e') (hlt : ∀ e ∈ found, ∀ k, pos e = some k → k < n)
    (hflags : ∀ k, flagged flags k = true ↔ ∃ e ∈ found, pos e = some k) :
    (found.filterMap pos ++ (List.range n).filter fun k => !flagged flags k).Perm (List.range n) := by
  have hnodup : (found.filterMap pos).Nodup := by
    refine List.pairwise_filterMap.mpr (hapart.imp fun hne k hk k' hk' => ?_)
    rintro rfl
    exact hne (hk.trans hk'.symm)
  refine (List.perm_ext_iff_of_nodup ?_ List.nodup_range).mpr fun k => ?_
  · refine List.nodup_append.mpr ⟨hnodup, List.nodup_range.filter _, ?_⟩
    rintro k hk _ hk' rfl
    have hfree := (List.mem_filter.mp hk').2
    rw [(hflags k).mpr (List.mem_filterMap.mp hk)] at hfree
    cases hfree
  · rw [List.mem_append, List.mem_filter, List.mem_range, Bool.not_eq_true', ← Bool.not_eq_true, hflags, List.mem_filterMap]
    constructor
    · rintro (⟨e, he, hk⟩ | ⟨hk, -⟩)
      · exact hlt e he k hk
      · exact hk
    · intro hk
      by_cases hin : ∃ e ∈ found, pos e = some k
      · exact .inl hin
      · exact .inr ⟨hk, hin⟩

/-- The entries of a report: a pair that a tier has found, or a definition left unpaired. -/
theorem mem_matchDefinitions {old new : List Definition} {e : DefMatch} :
    e ∈ matchDefinitions old new ↔ e ∈ (matchTiers old new).found ∨
      (∃ i < old.length, flagged (matchTiers old new).matchedOld i = false ∧
        e = ⟨some i, none, .deleted, "no surviving match in new version".toList⟩) ∨
      ∃ j < new.length, flagged (matchTiers old new).matchedNew j = false ∧
        e = ⟨none, some j, .added, "first appearance: mint new identity".toList⟩ := by
  unfold matchDefinitions
  simp only [List.mem_append, List.mem_map, List.mem_filter, List.mem_range, Bool.not_eq_true', or_assoc, and_assoc,
    eq_comm (b := e)]
  rfl

/-- The positions that a report names in each version. -/
theorem filterMap_matchDefinitions (old new : List Definition) :
    (matchDefinitions old new).filterMap DefMatch.old = (matchTiers old new).found.filterMap DefMatch.old ++
        (List.range old.length).filter (fun i => !flagged (matchTiers old new).matchedOld i) ∧
      (matchDefinitions old new).filterMap DefMatch.new = (matchTiers old new).found.filterMap DefMatch.new ++
        (List.range new.length).filter fun j => !flagged (matchTiers old new).matchedNew j := by
  unfold matchDefinitions
  simp only [List.filterMap_append, List.filterMap_map]
  constructor
  · rw [show (DefMatch.old ∘ fun i : Nat => ⟨some i, none, .deleted, "no surviving match in new version".toList⟩) = some
        from rfl, List.filterMap_some, show (DefMatch.old ∘ fun j : Nat =>
        ⟨none, some j, .added, "first appearance: mint new identity".toList⟩) = fun _ => none from rfl]
    simp [matchTiers]
  · rw [show (DefMatch.new ∘ fun j : Nat => ⟨none, some j, .added, "first appearance: mint new identity".toList⟩) = some
        from rfl, List.filterMap_some, show (DefMatch.new ∘ fun i : Nat =>
        ⟨some i, none, .deleted, "no surviving match in new version".toList⟩) = fun _ => none from rfl]
    simp [matchTiers]

/-- The report of the matcher accounts for each definition of both versions once. -/
theorem matchDefinitions_accounts (old new : List Definition) : Accounts old new (matchDefinitions old new) := by
  have hm := matchTiers_ok old new
  obtain ⟨hold, hnew⟩ := filterMap_matchDefinitions old new
  constructor
  · rw [hold]
    refine perm_flagged (hm.apart.imp And.left) (fun e he i hi => ?_) hm.flaggedOld
    obtain ⟨i', j', hpair⟩ := hm.pairs e he
    exact Option.some.inj (hi.symm.trans hpair.old) ▸ hpair.old_lt
  · rw [hnew]
    refine perm_flagged (hm.apart.imp And.right) (fun e he j hj => ?_) hm.flaggedNew
    obtain ⟨i', j', hpair⟩ := hm.pairs e he
    exact Option.some.inj (hj.symm.trans hpair.new) ▸ hpair.new_lt
  · intro e he
    rcases mem_matchDefinitions.mp he with hfound | ⟨i, hi, -, rfl⟩ | ⟨j, hj, -, rfl⟩
    · exact matchTiers_found old new e hfound
    · exact .deleted hi
    · exact .added hj
  · intro d hd a ha hdeleted hadded i j od nd hi hj hod hnd hkind
    have hnotPaired : ∀ e ∈ (matchTiers old new).found, e.status ≠ .deleted ∧ e.status ≠ .added := by
      intro e he
      obtain ⟨_, _, hpair⟩ := hm.pairs e he
      rcases hpair.kept with hstatus | hstatus | hstatus <;> simp [hstatus]
    rcases mem_matchDefinitions.mp hd with hfound | ⟨i', -, hold, rfl⟩ | ⟨j', -, -, rfl⟩
    · exact absurd hdeleted (hnotPaired d hfound).1
    · rcases mem_matchDefinitions.mp ha with hfound' | ⟨i'', -, -, rfl⟩ | ⟨j', -, hnew, rfl⟩
      · exact absurd hadded (hnotPaired a hfound').2
      · cases hadded
      · obtain rfl := Option.some.inj hi
        obtain rfl := Option.some.inj hj
        exact matchTiers_complete hod hnd hold hnew hkind
    · cases hdeleted

end Omoplata
