-- SUMMARY: The machine-checked twin of the algebra: what it says of the code, and the case it leaves open.
import Omoplata.Algebra.Machine

/-!
# The verified twin

The algebra has a twin that another verifier checks. There a document is a sequence of tokens,
a patch is one hunk, and hunks that keep the number of lines commute as they stand.

Any tokens that tell lines apart will do, and then the twin does with one hunk what the code
does, as long as the end of the hunk is a word. Its check of two such hunks also lets insertions
at one point pass, which the code refuses. For hunks that change the number of lines its two
orders meet where the later one is moved as `commute` moves it.
-/

namespace Omoplata

namespace Twin

/-! ## The twin -/

section

variable {α : Type} [DecidableEq α]

/-- The length of the common prefix. -/
def cpl : List α → List α → Nat
  | x :: xs, y :: ys => if x = y then cpl xs ys + 1 else 0
  | _, _ => 0

def diffStart (base target : List α) : Nat := cpl base target

def diffRemove (base target : List α) : List α := slice base (diffStart base target) base.length

def diffInsert (base target : List α) : List α := slice target (diffStart base target) target.length

/-- Apply one hunk, if it fits. -/
def apply1 (base : List α) (start : Nat) (remove insert : List α) : Option (List α) :=
  if start + remove.length ≤ base.length ∧ slice base start (start + remove.length) = remove then
    some (slice base 0 start ++ insert ++ slice base (start + remove.length) base.length)
  else none

/-- Apply one hunk, whatever it removes. -/
def splice (base : List α) (start : Nat) (remove insert : List α) : List α :=
  slice base 0 start ++ insert ++ slice base (start + remove.length) base.length

def disjoint (ps premLen qs qremLen : Nat) : Prop := ps + premLen ≤ qs ∨ qs + qremLen ≤ ps

end

/-! ## One hunk -/

section

variable {α β : Type}

theorem slice_map (tok : α → β) (xs : List α) (i j : Nat) : slice (xs.map tok) i j = (slice xs i j).map tok := by
  unfold slice
  rw [List.map_drop, List.map_take]

variable [DecidableEq α] [DecidableEq β]

theorem apply1_map {tok : α → β} (htok : Function.Injective tok) (base : List α) (start : Nat)
    (remove insert : List α) :
    apply1 (base.map tok) start (remove.map tok) (insert.map tok) =
      (apply1 base start remove insert).map (List.map tok) := by
  unfold apply1
  simp only [List.length_map, slice_map, (List.map_injective_iff.mpr htok).eq_iff, ← List.map_append]
  split
  · rfl
  · rfl

theorem apply1_eq_some {base result : List α} {start : Nat} {remove insert : List α}
    (h : apply1 base start remove insert = some result) : result = splice base start remove insert := by
  unfold apply1 at h
  split at h
  · exact (Option.some.inj h).symm
  · cases h

theorem apply_single (base : Doc) (h : Hunk) :
    (apply ⟨[h]⟩ base).toOption.map Doc.lines = apply1 base.lines h.baseStart h.remove h.insert := by
  unfold apply applyHunks apply1
  by_cases hstop : h.baseStart + h.remove.length ≤ base.lines.length
  · by_cases hcontext : slice base.lines h.baseStart (h.baseStart + h.remove.length) = h.remove
    · simp [hcontext, hstop, Nat.not_lt.mpr hstop, applyHunks, slice_length, Except.map, Except.toOption]
    · simp [hcontext, Nat.not_lt.mpr hstop, Except.map, Except.toOption]
  · simp [hstop, Nat.lt_of_not_le hstop, Except.map, Except.toOption]

/-- The common prefix is one of both. -/
theorem take_cpl (base target : List α) :
    base.take (cpl base target) = target.take (cpl base target) ∧ cpl base target ≤ base.length := by
  induction base generalizing target with
  | nil => exact ⟨by simp [cpl], by simp [cpl]⟩
  | cons x xs ih =>
      cases target with
      | nil => exact ⟨by simp [cpl], by simp [cpl]⟩
      | cons y ys =>
          by_cases hxy : x = y
          · obtain ⟨htake, hle⟩ := ih ys
            simp [cpl, hxy, htake, hle]
          · simp [cpl, hxy]

/-- The twin's one hunk leads from the one document to the other. -/
theorem apply1_diff (base target : List α) :
    apply1 base (diffStart base target) (diffRemove base target) (diffInsert base target) = some target := by
  obtain ⟨htake, hle⟩ := take_cpl base target
  have hstop : diffStart base target + (diffRemove base target).length = base.length := by
    unfold diffRemove diffStart
    rw [slice_length, List.length_drop]
    omega
  unfold apply1
  rw [hstop, if_pos ⟨le_rfl, rfl⟩]
  unfold diffInsert diffStart
  rw [slice_zero, slice_length, slice_length, List.drop_length, List.append_nil, htake, List.take_append_drop]

end

/-- The twin does with one hunk what the code does, if the end of the hunk is a word: it refuses the
    same, and the tokens of the result are those of the code's. Its diff is a patch of the code. -/
theorem apply_refines_twin {α : Type} [DecidableEq α] {tok : Line → α} (htok : Function.Injective tok)
    (checks : Bool) :
    (∀ (base : Doc) (h : Hunk), h.stop < usizeCount → ∃ result, Usize.apply checks ⟨[h]⟩ base = some result ∧
      result.toOption.map (fun d => d.lines.map tok) =
        apply1 (base.lines.map tok) h.baseStart (h.remove.map tok) (h.insert.map tok)) ∧
    ∀ base target : Doc, base.lines.length < usizeCount →
      Usize.apply checks ⟨[⟨diffStart base.lines target.lines, diffRemove base.lines target.lines,
        diffInsert base.lines target.lines⟩]⟩ base = some (.ok target) := by
  constructor
  · intro base h hstop
    refine ⟨_, Usize.apply_of_stop_lt (by simpa using hstop) base, ?_⟩
    rw [apply1_map htok, ← apply_single, Option.map_map]
    rfl
  · intro base target hmem
    refine Usize.apply_of_ok ?_ hmem
    have hsingle := apply_single base
      ⟨diffStart base.lines target.lines, diffRemove base.lines target.lines, diffInsert base.lines target.lines⟩
    rw [apply1_diff] at hsingle
    obtain ⟨d, hd, hlines⟩ := Option.map_eq_some_iff.mp hsingle
    obtain rfl : d = target := congrArg Doc.mk hlines
    cases hrun : apply ⟨[⟨diffStart base.lines d.lines, diffRemove base.lines d.lines,
        diffInsert base.lines d.lines⟩]⟩ base with
    | error e => simp [hrun, Except.toOption] at hd
    | ok d' => simpa [hrun, Except.toOption] using hd

/-- Lines stand for themselves. -/
theorem apply_refines_twin_lines :
    let h : Hunk := ⟨1, ["b".toList], ["x".toList, "y".toList]⟩
    let base : Doc := ⟨["a".toList, "b".toList]⟩
    ∃ result, Usize.apply true ⟨[h]⟩ base = some result ∧ result.toOption.map (fun d => d.lines.map id) =
      apply1 (base.lines.map id) h.baseStart (h.remove.map id) (h.insert.map id) :=
  (apply_refines_twin Function.injective_id true).1 _ _ (by decide)

/-! ## Two hunks -/

/-- What a hunk makes of a document in the twin. -/
def after (base : List Line) (h : Hunk) : List Line := splice base h.baseStart h.remove h.insert

section

variable {α : Type} {base a m b : List α} {ps qs : Nat} {prem pins qrem qins : List α}

/-- A hunk on a document that has been cut where it begins and ends. -/
theorem splice_append (ha : a.length = ps) (hm : m.length = prem.length) :
    splice (a ++ (m ++ b)) ps prem pins = a ++ (pins ++ b) := by
  unfold splice
  have hfront : slice (a ++ (m ++ b)) 0 ps = a := by
    rw [slice_zero, ← ha, List.take_left]
  have hback : slice (a ++ (m ++ b)) (ps + prem.length) (a ++ (m ++ b)).length = b := by
    rw [slice_length, ← List.append_assoc]
    exact List.drop_left' (by rw [List.length_append, ha, hm])
  rw [hfront, hback, List.append_assoc]

/-- Two hunks of which one lies before the other. The later one moves with what the earlier one changes. -/
theorem splice_splice (hpq : ps + prem.length ≤ qs) (hq : qs + qrem.length ≤ base.length) :
    splice (splice base ps prem pins) (qs + pins.length - prem.length) qrem qins =
      splice (splice base qs qrem qins) ps prem pins := by
  -- the document is cut where the hunks begin and end
  obtain ⟨a, p, m, q, b, rfl, ha, hp, hm, hq'⟩ : ∃ a p m q b : List α, base = a ++ (p ++ (m ++ (q ++ b))) ∧
      a.length = ps ∧ p.length = prem.length ∧ a.length + p.length + m.length = qs ∧ q.length = qrem.length := by
    refine ⟨base.take ps, (base.drop ps).take prem.length,
      ((base.drop ps).drop prem.length).take (qs - (ps + prem.length)),
      (((base.drop ps).drop prem.length).drop (qs - (ps + prem.length))).take qrem.length,
      (((base.drop ps).drop prem.length).drop (qs - (ps + prem.length))).drop qrem.length, ?_, ?_, ?_, ?_, ?_⟩
    · simp only [List.take_append_drop]
    · simp; omega
    · simp; omega
    · simp; omega
    · simp; omega
  have hmiddle : a ++ (p ++ (m ++ (q ++ b))) = (a ++ (p ++ m)) ++ (q ++ b) := by simp
  have hmoved : a ++ (pins ++ (m ++ (q ++ b))) = (a ++ (pins ++ m)) ++ (q ++ b) := by simp
  rw [splice_append ha hp, hmoved, splice_append (by simp; omega) hq', hmiddle,
    splice_append (by simp; omega) hq']
  have hfront : (a ++ (p ++ m)) ++ (qins ++ b) = a ++ (p ++ (m ++ (qins ++ b))) := by simp
  rw [hfront, splice_append ha hp]
  simp

end

/-- Two insertions at one point. -/
def SamePoint (h k : Hunk) : Prop := h.remove = [] ∧ k.remove = [] ∧ h.baseStart = k.baseStart

/-- Of hunks whose ends are words the twin's check lets pass what the code's does, and two insertions
    at one point. There its two orders meet exactly if what is inserted is the same in either order. -/
theorem disjoint_exact (checks : Bool) (h k : Hunk) (hh : h.stop < usizeCount) (hk : k.stop < usizeCount) :
    (disjoint h.baseStart h.remove.length k.baseStart k.remove.length ↔
      Usize.hunksConflict checks h k = some false ∨ SamePoint h k) ∧
    ∀ base : List Line, h.baseStart ≤ base.length → SamePoint h k →
      (after (after base h) k = after (after base k) h ↔ h.insert ++ k.insert = k.insert ++ h.insert) := by
  constructor
  · rw [Usize.hunksConflict_of_stop_lt hh hk, Option.some_inj, Commute.hunksConflict_eq_false_iff]
    unfold disjoint SamePoint ListEdit.Edit.Separable ListEdit.Edit.stop
    rw [← List.length_eq_zero_iff, ← List.length_eq_zero_iff]
    omega
  · rintro base hle ⟨hh, hk, hpoint⟩
    have hcut : base = base.take h.baseStart ++ ([] ++ base.drop h.baseStart) := by
      rw [List.nil_append, List.take_append_drop]
    have hfront : (base.take h.baseStart).length = h.baseStart := List.length_take_of_le hle
    have hfirst : ∀ ins : List Line, splice base h.baseStart [] ins =
        base.take h.baseStart ++ (ins ++ base.drop h.baseStart) := by
      intro ins
      conv_lhs => rw [hcut]
      exact splice_append hfront rfl
    have hsecond : ∀ ins ins' : List Line, splice (splice base h.baseStart [] ins) h.baseStart [] ins' =
        base.take h.baseStart ++ (ins' ++ (ins ++ base.drop h.baseStart)) := by
      intro ins ins'
      rw [hfirst]
      exact splice_append (m := []) hfront rfl
    unfold after
    rw [hh, hk, ← hpoint, hsecond, hsecond, List.append_cancel_left_eq, ← List.append_assoc, ← List.append_assoc,
      List.append_cancel_right_eq, eq_comm]

/-- Two insertions in front of the first line. -/
theorem disjoint_exact_insertions :
    let h : Hunk := ⟨0, [], ["x".toList]⟩
    let k : Hunk := ⟨0, [], ["y".toList]⟩
    (disjoint h.baseStart h.remove.length k.baseStart k.remove.length ↔
      Usize.hunksConflict true h k = some false ∨ SamePoint h k) ∧
    ∀ base : List Line, h.baseStart ≤ base.length → SamePoint h k →
      (after (after base h) k = after (after base k) h ↔ h.insert ++ k.insert = k.insert ++ h.insert) :=
  disjoint_exact true _ _ (by decide) (by decide)

theorem shiftPast_of_stop_le {e f : Hunk} (h : f.stop ≤ e.baseStart) :
    e.shiftPast [f] = ⟨e.baseStart + f.insert.length - f.remove.length, e.remove, e.insert⟩ := by
  unfold ListEdit.Edit.shiftPast
  have hdelta : ListEdit.deltaBefore [f] e.baseStart = ListEdit.Edit.delta f := by
    simp [ListEdit.deltaBefore, h]
  have hstart : f.remove.length ≤ e.baseStart := Nat.le_trans (Nat.le_add_left ..) h
  rw [hdelta]
  unfold ListEdit.Edit.delta
  congr 1
  omega

theorem shiftPast_of_not_stop_le {e f : Hunk} (h : ¬ f.stop ≤ e.baseStart) : e.shiftPast [f] = e := by
  unfold ListEdit.Edit.shiftPast
  have hdelta : ListEdit.deltaBefore [f] e.baseStart = 0 := by
    simp [ListEdit.deltaBefore, h]
  rw [hdelta]
  simp

/-- A hunk that keeps the number of lines moves nothing. -/
theorem shiftPast_of_length_eq {e f : Hunk} (h : f.insert.length = f.remove.length) : e.shiftPast [f] = e := by
  by_cases hstop : f.stop ≤ e.baseStart
  · rw [shiftPast_of_stop_le hstop, h, Nat.add_sub_cancel]
  · exact shiftPast_of_not_stop_le hstop

theorem after_shiftPast {base : List Line} {h k : Hunk} (hbefore : h.stop ≤ k.baseStart)
    (hafter : ¬ k.stop ≤ h.baseStart) (hk : k.stop ≤ base.length) :
    after (after base h) (k.shiftPast [h]) = after (after base k) (h.shiftPast [k]) := by
  rw [shiftPast_of_stop_le hbefore, shiftPast_of_not_stop_le hafter]
  exact splice_splice hbefore hk

/-- What the code makes of two hunks one after the other, the twin makes of them. -/
theorem lines_of_combine {base d : Doc} {h k : Hunk} (hcombine : combine base ⟨[h]⟩ ⟨[k]⟩ = .ok d) :
    d.lines = after (after base.lines h) k := by
  have hstep : ∀ {base d : Doc} {h : Hunk}, apply ⟨[h]⟩ base = .ok d → d.lines = after base.lines h := by
    intro base d h happly
    have hsingle := apply_single base h
    rw [happly] at hsingle
    exact apply1_eq_some hsingle.symm
  unfold combine at hcombine
  cases hfirst : apply ⟨[h]⟩ base with
  | error e =>
      rw [hfirst] at hcombine
      cases hcombine
  | ok afterH =>
      rw [hfirst] at hcombine
      rw [← hstep hfirst]
      exact hstep hcombine

/-- Where the code keeps two hunks apart, the twin's two orders meet once each hunk is moved as
    `commute` moves it, whatever they change of the number of lines. Whatever the code makes of either
    order is what the twin makes of it. Past a hunk that keeps the number of lines nothing moves, and
    this is the twin's own case. -/
theorem twin_commutes (base : Doc) (h k : Hunk) (hsep : Commute.hunksConflict h k = false)
    (hh : h.stop ≤ base.lines.length) (hk : k.stop ≤ base.lines.length) :
    ∃ h' k', commute ⟨[h]⟩ ⟨[k]⟩ = .independent ⟨[h']⟩ ⟨[k']⟩ ∧
      after (after base.lines h) k' = after (after base.lines k) h' ∧
      (∀ d, combine base ⟨[h]⟩ ⟨[k']⟩ = .ok d → d.lines = after (after base.lines h) k') ∧
      (∀ d, combine base ⟨[k]⟩ ⟨[h']⟩ = .ok d → d.lines = after (after base.lines k) h') ∧
      (h.insert.length = h.remove.length → k' = k) ∧ (k.insert.length = k.remove.length → h' = h) := by
  have hseparable := Commute.hunksConflict_eq_false_iff.mp hsep
  have hpatches : Patch.Separable ⟨[h]⟩ ⟨[k]⟩ := by
    intro e he f hf
    rwa [List.mem_singleton.mp he, List.mem_singleton.mp hf]
  refine ⟨h.shiftPast [k], k.shiftPast [h], commute_of_separable hpatches, ?_, fun d => lines_of_combine,
    fun d => lines_of_combine, shiftPast_of_length_eq, shiftPast_of_length_eq⟩
  cases hseparable.before_or_after with
  | inl hbefore => exact after_shiftPast hbefore (hseparable.not_after hbefore) hk
  | inr hafter => exact (after_shiftPast hafter (hseparable.symm.not_after hafter) hh).symm

def letters : Doc := ⟨["a".toList, "b".toList, "c".toList]⟩

def widen : Hunk := ⟨0, ["a".toList], ["x".toList, "y".toList]⟩

def shorten : Hunk := ⟨2, ["c".toList], []⟩

/-- One line becomes two, and a later one goes. -/
theorem twin_commutes_letters :
    after (after letters.lines widen) { shorten with baseStart := 3 } = after (after letters.lines shorten) widen := by
  obtain ⟨h', k', hcommute, hmeet, -⟩ := twin_commutes letters widen shorten (by decide) (by decide) (by decide)
  have hmoved : commute ⟨[widen]⟩ ⟨[shorten]⟩ = .independent ⟨[widen]⟩ ⟨[{ shorten with baseStart := 3 }]⟩ := by decide
  cases hmoved.symm.trans hcommute
  exact hmeet

end Twin

end Omoplata
