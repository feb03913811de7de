-- SUMMARY: The matcher pairs items one to one, accounts for every item, and pairs a list with itself item by item.
import Mathlib.Algebra.BigOperators.Group.List.Basic
import Mathlib.Algebra.GroupWithZero.Nat
import Mathlib.Data.List.Pairwise
import Omoplata.Drivers.Rust
import Omoplata.Identity.Matching

/-!
# Pairing items

The report of the matcher names no definition twice. A pairing of base items with the
items of a side is read off it.
-/

namespace Omoplata

/-! ## Reading the report -/

theorem Pairing.record_pair {e : DefMatch} {olds news i j : Nat} (h : e.IsPair olds news i j) (p : Pairing) :
    p.record e = { p with baseToSide := p.baseToSide.set i (some j) } := by
  obtain ⟨old, new, status, reason⟩ := e
  obtain ⟨rfl, rfl, -, -, hkept⟩ := h
  rcases hkept with hstatus | hstatus | hstatus
  all_goals
    obtain rfl := hstatus
    rfl

/-- Reading pairs of positions that are apart. -/
theorem foldl_record_pairs {es : List DefMatch} {olds news : Nat} {p : Pairing}
    (hpairs : ∀ e ∈ es, ∃ i j, e.IsPair olds news i j) (hlength : p.baseToSide.length = olds)
    (hapart : es.Pairwise fun e e' => e.old ≠ e'.old ∧ e.new ≠ e'.new) :
    (es.foldl Pairing.record p).added = p.added ∧
      (es.foldl Pairing.record p).baseToSide.length = olds ∧
      (∀ e ∈ es, ∀ i j, e.IsPair olds news i j →
        (es.foldl Pairing.record p).baseToSide[i]? = some (some j)) ∧
      ∀ i, (∀ e ∈ es, e.old ≠ some i) →
        (es.foldl Pairing.record p).baseToSide[i]? = p.baseToSide[i]? := by
  induction es generalizing p with
  | nil => exact ⟨rfl, hlength, by simp, fun _ _ => rfl⟩
  | cons e es ih =>
      obtain ⟨⟨i₀, j₀, he⟩, hpairs⟩ := List.forall_mem_cons.mp hpairs
      obtain ⟨hnew, hapart⟩ := List.pairwise_cons.mp hapart
      rw [List.foldl_cons, Pairing.record_pair he]
      obtain ⟨hadded, hlength', hread, hkept⟩ :=
        ih (p := { p with baseToSide := p.baseToSide.set i₀ (some j₀) }) hpairs
          (List.length_set.trans hlength) hapart
      refine ⟨hadded, hlength', fun e' he' i j hpair => ?_, fun i hi => ?_⟩
      · rcases List.mem_cons.mp he' with rfl | hin
        · obtain rfl : i₀ = i := Option.some.inj (he.old.symm.trans hpair.old)
          obtain rfl : j₀ = j := Option.some.inj (he.new.symm.trans hpair.new)
          rw [hkept i₀ fun e' he' => he.old ▸ (hnew e' he').1.symm,
            List.getElem?_set_self (hlength ▸ he.old_lt)]
        · exact hread e' hin i j hpair
      · have hne : i₀ ≠ i := fun heq => hi e List.mem_cons_self (heq ▸ he.old)
        rw [hkept i fun e' he' => hi e' (List.mem_cons_of_mem _ he'), List.getElem?_set_ne hne]

/-- A pairing pairs items one to one, and the items it adds are those it does not pair. -/
structure Pairing.Ok (p : Pairing) (olds news : Nat) : Prop where
  length : p.baseToSide.length = olds
  lt : ∀ i j : Nat, p.baseToSide[i]? = some (some j) → j < news
  inj : ∀ i i' j : Nat, p.baseToSide[i]? = some (some j) → p.baseToSide[i']? = some (some j) → i = i'
  nodup : p.added.Nodup
  mem_added : ∀ j, j ∈ p.added ↔ j < news ∧ ∀ i : Nat, p.baseToSide[i]? ≠ some (some j)

/-- What the report of the matcher is read as. -/
theorem pair_eq (base side : Segmentation) :
    pair base side =
      let m := matchTiers base.defs side.defs
      ⟨(m.found.foldl Pairing.record ⟨base.items.map fun _ => none, []⟩).baseToSide,
        (List.range side.items.length).filter fun j => !flagged m.matchedNew j⟩ := by
  have hdeleted : ∀ (is : List Nat) (p : Pairing), (is.map fun i =>
      (⟨some i, none, .deleted, "no surviving match in new version".toList⟩ : DefMatch)).foldl
        Pairing.record p = p := by
    intro is p
    induction is with
    | nil => rfl
    | cons i is ih => exact ih
  have hadded : ∀ (js : List Nat) (p : Pairing), (js.map fun j =>
      (⟨none, some j, .added, "first appearance: mint new identity".toList⟩ : DefMatch)).foldl
        Pairing.record p = { p with added := p.added ++ js } := by
    intro js p
    induction js generalizing p with
    | nil => rw [List.append_nil]; rfl
    | cons j js ih =>
        rw [List.map_cons, List.foldl_cons, ih]
        simp [Pairing.record]
  obtain ⟨hadd, -⟩ := foldl_record_pairs (p := ⟨base.items.map fun _ => none, []⟩)
    (matchTiers_ok base.defs side.defs).pairs (by simp [Segmentation.defs])
    (matchTiers_ok base.defs side.defs).apart
  unfold pair matchDefinitions
  simp only [List.foldl_append]
  rw [hdeleted, hadded]
  have hlength : side.defs.length = side.items.length := List.length_map _
  rw [hlength]
  unfold matchTiers at hadd ⊢
  simp only [hadd, List.nil_append]

theorem matchTiers_items_ok (base side : Segmentation) :
    (matchTiers base.defs side.defs).Ok base.items.length side.items.length := by
  have h := matchTiers_ok base.defs side.defs
  rwa [show base.defs.length = _ from List.length_map _, show side.defs.length = _ from List.length_map _] at h

/-- Items are paired as the tiers have found them. -/
theorem pair_baseToSide_iff (base side : Segmentation) (i j : Nat) :
    (pair base side).baseToSide[i]? = some (some j) ↔
      ∃ e ∈ (matchTiers base.defs side.defs).found, e.IsPair base.items.length side.items.length i j := by
  have hm := matchTiers_items_ok base side
  obtain ⟨-, -, hread, hkept⟩ := foldl_record_pairs (p := ⟨base.items.map fun _ => none, []⟩) hm.pairs
    (List.length_map _) hm.apart
  rw [pair_eq]
  constructor
  · intro h
    by_cases hin : ∃ e ∈ (matchTiers base.defs side.defs).found, e.old = some i
    · obtain ⟨e, he, hold⟩ := hin
      obtain ⟨i', j', hpair⟩ := hm.pairs e he
      obtain rfl : i = i' := Option.some.inj (hold.symm.trans hpair.old)
      obtain rfl : j = j' := Option.some.inj (Option.some.inj (h.symm.trans (hread e he i j' hpair)))
      exact ⟨e, he, hpair⟩
    · have hnone := hkept i fun e he hold => hin ⟨e, he, hold⟩
      have h' := hnone.symm.trans h
      rw [List.getElem?_map] at h'
      cases base.items[i]? <;> simp at h'
  · rintro ⟨e, he, hpair⟩
    exact hread e he i j hpair

theorem pair_ok (base side : Segmentation) : (pair base side).Ok base.items.length side.items.length := by
  have hm := matchTiers_items_ok base side
  refine ⟨?_, fun i j h => ?_, fun i i' j h h' => ?_, ?_, fun j => ?_⟩
  · rw [pair_eq]
    exact (foldl_record_pairs (p := ⟨base.items.map fun _ => none, []⟩) hm.pairs (List.length_map _)
      hm.apart).2.1
  · obtain ⟨e, -, hpair⟩ := (pair_baseToSide_iff base side i j).mp h
    exact hpair.new_lt
  · obtain ⟨e, he, hpair⟩ := (pair_baseToSide_iff base side i j).mp h
    obtain ⟨e', he', hpair'⟩ := (pair_baseToSide_iff base side i' j).mp h'
    have hsame : e = e' := by
      by_contra hne
      have hsymm : Std.Symm fun e e' : DefMatch => e.old ≠ e'.old ∧ e.new ≠ e'.new :=
        ⟨fun _ _ hne' => ⟨Ne.symm hne'.1, Ne.symm hne'.2⟩⟩
      exact (hm.apart.forall he he' hne).2 (hpair.new.trans hpair'.new.symm)
    subst hsame
    exact Option.some.inj (hpair.old.symm.trans hpair'.old)
  · rw [pair_eq]
    exact List.nodup_range.filter _
  · have hadded : j ∈ (pair base side).added ↔
        j < side.items.length ∧ flagged (matchTiers base.defs side.defs).matchedNew j = false := by
      rw [pair_eq]
      simp
    rw [hadded, ← Bool.not_eq_true, hm.flaggedNew]
    refine and_congr_right fun _ => ⟨fun hnone i hi => ?_, fun hnone ⟨e, he, hnew⟩ => ?_⟩
    · obtain ⟨e, he, hpair⟩ := (pair_baseToSide_iff base side i j).mp hi
      exact hnone ⟨e, he, hpair.new⟩
    · obtain ⟨i, j', hpair⟩ := hm.pairs e he
      obtain rfl : j = j' := Option.some.inj (hnew.symm.trans hpair.new)
      exact hnone i ((pair_baseToSide_iff base side i j).mpr ⟨e, he, hpair⟩)

/-! ## Sums over paired items -/

/-- The items of a side are those that are paired and those that are added. -/
theorem Pairing.Ok.perm {p : Pairing} {olds news : Nat} (h : p.Ok olds news) :
    (List.range news).Perm (p.baseToSide.filterMap id ++ p.added) := by
  have hmem : ∀ j, j ∈ p.baseToSide.filterMap id ↔ ∃ i : Nat, p.baseToSide[i]? = some (some j) := by
    intro j
    rw [List.mem_filterMap]
    constructor
    · rintro ⟨o, ho, rfl⟩
      exact List.mem_iff_getElem?.mp ho
    · rintro ⟨i, hi⟩
      exact ⟨some j, List.mem_of_getElem? hi, rfl⟩
  have hpaired : (p.baseToSide.filterMap id).Nodup := by
    refine List.pairwise_filterMap.mpr (List.pairwise_iff_getElem.mpr fun i i' hi hi' hlt j hj j' hj' => ?_)
    rintro rfl
    have heq := h.inj i i' j ((List.getElem?_eq_getElem hi).trans (congrArg some hj))
      ((List.getElem?_eq_getElem hi').trans (congrArg some hj'))
    exact absurd heq (Nat.ne_of_lt hlt)
  have hapart : ∀ j ∈ p.baseToSide.filterMap id, ∀ j' ∈ p.added, j ≠ j' := by
    rintro j hj j' hj' rfl
    obtain ⟨i, hi⟩ := (hmem j).mp hj
    exact ((h.mem_added j).mp hj').2 i hi
  refine (List.perm_ext_iff_of_nodup List.nodup_range (List.nodup_append.mpr ⟨hpaired, h.nodup, hapart⟩)).mpr
    fun j => ?_
  rw [List.mem_range, List.mem_append, hmem, h.mem_added]
  constructor
  · intro hj
    by_cases hin : ∃ i : Nat, p.baseToSide[i]? = some (some j)
    · exact .inl hin
    · exact .inr ⟨hj, fun i hi => hin ⟨i, hi⟩⟩
  · rintro (⟨i, hi⟩ | ⟨hj, -⟩)
    · exact h.lt i j hi
    · exact hj

/-- What the items of a side have more than those of the base, a paired item has more than its
    counterpart, or an added one has. -/
theorem Pairing.Ok.exists_excess {p : Pairing} {olds news : Nat} (h : p.Ok olds news) {a b : Nat → Nat}
    (hsum : ((List.range olds).map a).sum < ((List.range news).map b).sum) :
    (∃ i j : Nat, p.baseToSide[i]? = some (some j) ∧ a i < b j) ∨ ∃ j ∈ p.added, 0 < b j := by
  by_contra hnone
  obtain ⟨hpaired, hadded⟩ := not_or.mp hnone
  have hloop : ∀ (os : List (Option Nat)) (k : Nat),
      (∀ i j : Nat, os[i]? = some (some j) → b j ≤ a (k + i)) →
      ((os.filterMap id).map b).sum ≤ ((List.range' k os.length).map a).sum := by
    intro os
    induction os with
    | nil => exact fun _ _ => Nat.le_refl _
    | cons o os ih =>
        intro k hle
        have hrest := ih (k + 1) fun i j hi => by
          have hnext := hle (i + 1) j (by simpa using hi)
          rwa [Nat.add_right_comm, Nat.add_assoc]
        rw [List.length_cons, List.range'_succ, List.map_cons, List.sum_cons]
        cases o with
        | none =>
            rw [List.filterMap_cons_none rfl]
            exact hrest.trans (Nat.le_add_left _ _)
        | some j =>
            rw [show (some j :: os).filterMap id = j :: os.filterMap id from rfl, List.map_cons, List.sum_cons]
            exact Nat.add_le_add (hle 0 j rfl) hrest
  have hzero : (p.added.map b).sum = 0 := by
    refine List.sum_eq_zero fun n hn => ?_
    obtain ⟨j, hj, rfl⟩ := List.mem_map.mp hn
    exact Nat.eq_zero_of_not_pos fun hpos => hadded ⟨j, hj, hpos⟩
  have hle := hloop p.baseToSide 0 fun i j hi => by
    rw [Nat.zero_add]
    exact Nat.le_of_not_lt fun hlt => hpaired ⟨i, j, hi, hlt⟩
  have hperm := (h.perm.map b).sum_eq
  rw [List.map_append, List.sum_append, hzero, Nat.add_zero] at hperm
  rw [h.length, ← List.range_eq_range', ← hperm] at hle
  exact absurd hsum (Nat.not_lt.mpr hle)

/-! ## A list against itself -/

variable {akin : Definition → Definition → Bool} {classify : Definition → Definition → MatchStatus × Str}

/-- A tier that finds nothing left to pair. -/
theorem matchTier_flagged {old new : List Definition} {m : Matching}
    (h : ∀ j < new.length, flagged m.matchedNew j = true) : matchTier akin classify old new m = m := by
  rw [matchTier_eq]
  refine List.foldlRecOn (motive := fun m' => m' = m) _ _ rfl fun m' hm' nd hnd => ?_
  obtain rfl := hm'
  unfold tierStep
  rw [h nd.2 (mem_zipIdx_lt hnd), if_pos rfl]

/-- Definitions up to a position paired with themselves, and no others. -/
structure Matching.Diagonal (m : Matching) (length k : Nat) : Prop where
  lengthOld : m.matchedOld.length = length
  lengthNew : m.matchedNew.length = length
  flaggedOld : ∀ i, flagged m.matchedOld i = true ↔ i < k
  flaggedNew : ∀ j, flagged m.matchedNew j = true ↔ j < k
  pairs : ∀ e ∈ m.found, e.old = e.new

theorem tierStep_diagonal (hakin : ∀ d, akin d d = true) {pre suf : List Definition} {nd : Definition}
    {m : Matching} (h : m.Diagonal (pre ++ nd :: suf).length pre.length) :
    (tierStep akin classify (pre ++ nd :: suf) m (nd, pre.length)).Diagonal (pre ++ nd :: suf).length
      (pre.length + 1) := by
  have hlt : pre.length < (pre ++ nd :: suf).length := by
    rw [List.length_append, List.length_cons]
    omega
  have hfree : ∀ flags : List Bool, (flagged flags pre.length = true ↔ pre.length < pre.length) →
      flagged flags pre.length = false := fun flags hflags =>
    Bool.eq_false_iff.mpr fun hflag => absurd (hflags.mp hflag) (lt_irrefl _)
  have hfind : ((pre ++ nd :: suf).zipIdx.find? fun p => !flagged m.matchedOld p.2 && akin p.1 nd) =
      some (nd, pre.length) := by
    rw [List.zipIdx_append, List.find?_append, List.zipIdx_cons, Nat.zero_add]
    have hfront : (pre.zipIdx.find? fun p => !flagged m.matchedOld p.2 && akin p.1 nd) = none := by
      refine List.find?_eq_none.mpr fun entry hentry => ?_
      simp [(h.flaggedOld entry.2).mpr (mem_zipIdx_lt hentry)]
    rw [hfront, Option.none_or, List.find?_cons_of_pos]
    simp [hfree _ (h.flaggedOld pre.length), hakin]
  unfold tierStep
  rw [hfree _ (h.flaggedNew pre.length), if_neg Bool.false_ne_true, hfind]
  refine ⟨List.length_set.trans h.lengthOld, List.length_set.trans h.lengthNew, fun i => ?_, fun j => ?_,
    fun e he => ?_⟩
  · rw [flagged_set (h.lengthOld ▸ hlt), h.flaggedOld]
    omega
  · rw [flagged_set (h.lengthNew ▸ hlt), h.flaggedNew]
    omega
  · rcases List.mem_append.mp he with hin | hin
    · exact h.pairs e hin
    · rw [List.mem_singleton.mp hin]

/-- A tier whose relation is reflexive pairs a list with itself item by item. -/
theorem matchTier_self (hakin : ∀ d, akin d d = true) (defs : List Definition) :
    (matchTier akin classify defs defs ⟨defs.map fun _ => false, defs.map fun _ => false, []⟩).Diagonal
      defs.length defs.length := by
  have hloop : ∀ (suf pre : List Definition) (m : Matching), pre ++ suf = defs →
      m.Diagonal defs.length pre.length →
      ((suf.zipIdx pre.length).foldl (tierStep akin classify defs) m).Diagonal defs.length defs.length := by
    intro suf
    induction suf with
    | nil =>
        rintro pre m rfl hm
        simpa using hm
    | cons nd suf ih =>
        rintro pre m rfl hm
        rw [List.zipIdx_cons, List.foldl_cons]
        have hstep := @tierStep_diagonal akin classify hakin pre suf nd m hm
        have hrest := ih (pre ++ [nd]) _ (by simp) (by simpa using hstep)
        simpa using hrest
  rw [matchTier_eq]
  refine hloop defs [] _ rfl ⟨List.length_map _, List.length_map _, fun i => ?_, fun j => ?_, by simp⟩
  · rw [flagged_map_false]
    simp
  · rw [flagged_map_false]
    simp

/-- The items of a segmentation are paired with themselves. -/
theorem pair_self (base : Segmentation) :
    (∀ i < base.items.length, (pair base base).baseToSide[i]? = some (some i)) ∧ (pair base base).added = [] := by
  have hdiagonal : (matchTiers base.defs base.defs).Diagonal base.defs.length base.defs.length := by
    unfold matchTiers matchMove matchRename
    have hexact : (matchExact base.defs base.defs ⟨base.defs.map fun _ => false,
        base.defs.map fun _ => false, []⟩).Diagonal base.defs.length base.defs.length :=
      matchTier_self (fun d => by simp) base.defs
    have hall := fun j hj => (hexact.flaggedNew j).mpr hj
    rw [matchTier_flagged hall, matchTier_flagged hall]
    exact hexact
  have hm := matchTiers_items_ok base base
  have hlength : base.defs.length = base.items.length := List.length_map _
  have hpaired : ∀ i < base.items.length, (pair base base).baseToSide[i]? = some (some i) := by
    intro i hi
    obtain ⟨e, he, hnew⟩ := (hm.flaggedNew i).mp ((hdiagonal.flaggedNew i).mpr (hlength ▸ hi))
    obtain ⟨i', j', hpair⟩ := hm.pairs e he
    obtain rfl : i = j' := Option.some.inj (hnew.symm.trans hpair.new)
    obtain rfl : i' = i := Option.some.inj (hpair.old.symm.trans ((hdiagonal.pairs e he).trans hpair.new))
    exact (pair_baseToSide_iff base base i' i').mpr ⟨e, he, hpair⟩
  refine ⟨hpaired, List.eq_nil_iff_forall_not_mem.mpr fun j hj => ?_⟩
  obtain ⟨hlt, hnone⟩ := ((pair_ok base base).mem_added j).mp hj
  exact hnone j (hpaired j hlt)

end Omoplata
