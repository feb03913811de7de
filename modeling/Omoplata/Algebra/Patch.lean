-- SUMMARY: Hunks, patches, the canonical diff over an LCS table, and patch application.
import Mathlib.Data.List.Infix
import Omoplata.Algebra.Doc
import Omoplata.Lib.EditScript
import Omoplata.Lib.Lcs

/-!
# Diff, patches and application

`diff` reads a patch off a longest-common-subsequence alignment with a fixed
tie-break; `apply` carries a patch out, checking every hunk against the base.

The loops follow the source. `lcsMatches_eq_walk` and `apply_eq_ok_iff` connect
them to `Lcs.walk` and `ListEdit.splice`, which the other modules reason with.
-/

namespace Omoplata

open ListEdit

/-! ## Hunks and patches -/

/-- A half-open interval of lines. -/
structure Range where
  start : Nat
  stop : Nat
  deriving DecidableEq, Repr

/-- A single replacement: the lines `remove` at `baseStart` give way to `insert`. -/
abbrev Hunk := Edit Line

namespace Hunk

/-- The interval of base lines the hunk reads. -/
def support (h : Hunk) : Range := ⟨h.baseStart, h.baseStart + h.remove.length⟩

/-- The net change in line count. -/
def delta (h : Hunk) : Int := (h.insert.length : Int) - (h.remove.length : Int)

end Hunk

/-- An ordered list of hunks against a base document. -/
structure Patch where
  hunks : List Hunk
  deriving DecidableEq, Repr

namespace Patch

def isEmpty (p : Patch) : Bool := p.hunks.isEmpty

def support (p : Patch) : List Range := p.hunks.map Hunk.support

/-- The net line-count change of the hunks that end at or before `pos`. -/
def deltaBefore (p : Patch) (pos : Nat) : Int :=
  ((p.hunks.filter fun h => decide (h.baseStart + h.remove.length ≤ pos)).map Hunk.delta).sum

end Patch

/-! ## Applying a patch -/

/-- Why a patch does not apply. -/
inductive ApplyError where
  | outOfRange (baseStart removeLen baseLen : Nat)
  | contextMismatch (baseStart : Nat)
  | overlappingHunks (baseStart prevEnd : Nat)
  deriving DecidableEq, Repr

/-- The loop of `apply`: `pos` is the first base line not yet copied, `out` what
    is written so far. The end of a hunk is a natural number here; `Usize.applyHunks` is
    the loop on words, which is the same where the ends are words. -/
def applyHunks (b : List Line) : List Hunk → Nat → List Line → Except ApplyError (List Line)
  | [], pos, out => .ok (out ++ b.drop pos)
  | h :: hs, pos, out =>
      if h.baseStart < pos then .error (.overlappingHunks h.baseStart pos)
      else
        let stop := h.baseStart + h.remove.length
        if stop > b.length then .error (.outOfRange h.baseStart h.remove.length b.length)
        else if slice b h.baseStart stop ≠ h.remove then .error (.contextMismatch h.baseStart)
        else applyHunks b hs stop (out ++ slice b pos h.baseStart ++ h.insert)

/-- Apply a patch to a document. -/
def apply (p : Patch) (base : Doc) : Except ApplyError Doc :=
  (applyHunks base.lines p.hunks 0 []).map Doc.mk

private theorem applyHunks_eq_ok_iff {b : List Line} {hs : List Hunk} {pos : Nat}
    {out r : List Line} :
    applyHunks b hs pos out = .ok r ↔ Fits b pos hs ∧ r = out ++ splice b pos hs := by
  induction hs generalizing pos out with
  | nil => simp [applyHunks, Fits, splice, eq_comm]
  | cons h hs ih =>
      simp only [applyHunks, Fits, splice]
      have hctx : slice b h.baseStart (h.baseStart + h.remove.length) =
          (b.drop h.baseStart).take h.remove.length := by
        rw [slice_eq_take_drop, Nat.add_sub_cancel_left]
      split
      · simp only [reduceCtorEq, false_iff]
        omega
      · split
        · simp only [reduceCtorEq, false_iff, Edit.stop]
          omega
        · rw [hctx]
          split
          · rename_i hne
            simp only [reduceCtorEq, false_iff]
            exact fun hfit => hne hfit.1.2.2.1
          · rename_i hpos hstop heq
            have hrest := @ih h.stop (out ++ slice b pos h.baseStart ++ h.insert)
            rw [Edit.stop] at hrest
            rw [hrest, slice_eq_take_drop]
            simp only [ne_eq, Decidable.not_not] at heq
            simp only [heq, Edit.stop, List.append_assoc]
            constructor
            · rintro ⟨hfit, rfl⟩
              exact ⟨⟨by omega, by omega, trivial, hfit⟩, rfl⟩
            · rintro ⟨⟨-, -, -, hfit⟩, rfl⟩
              exact ⟨hfit, rfl⟩

/-- A patch applies exactly when its hunks fit, and then it splices them in. -/
theorem apply_eq_ok_iff {p : Patch} {base d : Doc} :
    apply p base = .ok d ↔ Fits base.lines 0 p.hunks ∧ d = ⟨splice base.lines 0 p.hunks⟩ := by
  have hloop := @applyHunks_eq_ok_iff base.lines p.hunks 0 []
  simp only [List.nil_append] at hloop
  constructor
  · intro h
    rw [apply] at h
    cases hrun : applyHunks base.lines p.hunks 0 [] with
    | error e => simp [hrun, Except.map] at h
    | ok r =>
        obtain ⟨hfit, rfl⟩ := hloop.mp hrun
        simp only [hrun, Except.map, Except.ok.injEq] at h
        exact ⟨hfit, h.symm⟩
  · rintro ⟨hfit, rfl⟩
    rw [apply, hloop.mpr ⟨hfit, rfl⟩]
    rfl

theorem apply_of_fits {p : Patch} {base : Doc} (h : Fits base.lines 0 p.hunks) :
    apply p base = .ok ⟨splice base.lines 0 p.hunks⟩ :=
  apply_eq_ok_iff.mpr ⟨h, rfl⟩

/-! ## The alignment -/

/-- Row `i` of the LCS table, from the row `below` it: entry `j` is the length of
    the LCS of `a[i..]` and `b[j..]`. -/
def lcsRow (x : Line) : List Line → List Nat → List Nat
  | [], _ => [0]
  | y :: ys, below =>
      let rest := lcsRow x ys below.tail
      (if x = y then below.tail.headD 0 + 1 else max (below.headD 0) (rest.headD 0)) :: rest

/-- The LCS table, its rows filled from the last one up. -/
def lcsTable : List Line → List Line → List (List Nat)
  | [], b => [List.replicate (b.length + 1) 0]
  | x :: xs, b =>
      let dp := lcsTable xs b
      lcsRow x b (dp.headD []) :: dp

/-- The entry `dp[i][j]`. -/
def dpAt (dp : List (List Nat)) (i j : Nat) : Nat := (dp.getD i []).getD j 0

/-- The walk through the table from `(i, j)`. Every step moves one of the cursors,
    so `fuel` of both lengths together is enough. -/
def lcsPath (a b : List Line) (dp : List (List Nat)) : Nat → Nat → Nat → List (Nat × Nat)
  | 0, _, _ => []
  | fuel + 1, i, j =>
      match a[i]?, b[j]? with
      | some x, some y =>
          if x = y then (i, j) :: lcsPath a b dp fuel (i + 1) (j + 1)
          else if dpAt dp (i + 1) j ≥ dpAt dp i (j + 1) then lcsPath a b dp fuel (i + 1) j
          else lcsPath a b dp fuel i (j + 1)
      | _, _ => []

/-- The matched index pairs of a longest common subsequence. -/
def lcsMatches (a b : List Line) : List (Nat × Nat) :=
  lcsPath a b (lcsTable a b) (a.length + b.length) 0 0

private theorem lcsRow_eq (x : Line) (xs b : List Line) :
    lcsRow x b (b.tails.map (Lcs.lcsLength xs)) = b.tails.map (Lcs.lcsLength (x :: xs)) := by
  induction b with
  | nil => simp [lcsRow]
  | cons y ys ih =>
      have hhead : ∀ f : List Line → Nat, (ys.tails.map f).headD 0 = f ys := by
        intro f
        cases ys <;> rfl
      simp only [lcsRow, List.tails, List.map_cons, List.tail_cons, List.headD_cons, ih,
        hhead, Lcs.lcsLength_cons_cons]

private theorem lcsTable_eq (a b : List Line) :
    lcsTable a b = a.tails.map fun a' => b.tails.map (Lcs.lcsLength a') := by
  induction a with
  | nil =>
      have hzero : b.tails.map (Lcs.lcsLength []) = List.replicate (b.length + 1) 0 :=
        List.eq_replicate_iff.mpr ⟨by simp, by simp⟩
      simp [lcsTable, hzero]
  | cons x xs ih =>
      have hhead : (xs.tails.map fun a' => b.tails.map (Lcs.lcsLength a')).headD [] =
          b.tails.map (Lcs.lcsLength xs) := by
        cases xs <;> rfl
      simp only [lcsTable, ih, hhead, lcsRow_eq, List.tails, List.map_cons]

/-- An entry of the table is the length of the LCS of the two suffixes. -/
theorem dpAt_lcsTable {a b : List Line} {i j : Nat} (hi : i ≤ a.length) (hj : j ≤ b.length) :
    dpAt (lcsTable a b) i j = Lcs.lcsLength (a.drop i) (b.drop j) := by
  have hget : ∀ (l : List Line) (k : Nat), k ≤ l.length → l.tails[k]? = some (l.drop k) := by
    intro l k hk
    rw [List.getElem?_eq_getElem (by simpa using Nat.lt_succ_of_le hk), List.getElem_tails]
  simp [dpAt, lcsTable_eq, List.getD_eq_getElem?_getD, hget a i hi, hget b j hj]

private theorem lcsPath_eq (a b : List Line) (fuel i j : Nat) (hi : i ≤ a.length)
    (hj : j ≤ b.length) (hfuel : (a.length - i) + (b.length - j) ≤ fuel) :
    lcsPath a b (lcsTable a b) fuel i j = Lcs.shift i j (Lcs.walk (a.drop i) (b.drop j)) := by
  induction fuel generalizing i j with
  | zero =>
      have : i = a.length := by omega
      simp [lcsPath, this]
  | succ fuel ih =>
      rcases Nat.lt_or_eq_of_le hi with hi' | rfl
      · rcases Nat.lt_or_eq_of_le hj with hj' | rfl
        · rw [lcsPath, List.getElem?_eq_getElem hi', List.getElem?_eq_getElem hj',
            List.drop_eq_getElem_cons hi', List.drop_eq_getElem_cons hj', Lcs.walk_cons_cons]
          simp only
          split
          · rw [ih _ _ (by omega) (by omega) (by omega), Lcs.shift_cons, Lcs.shift_shift]
            simp [Nat.add_comm]
          · rw [dpAt_lcsTable (by omega) (by omega), dpAt_lcsTable (by omega) (by omega),
              List.drop_eq_getElem_cons hi', List.drop_eq_getElem_cons hj']
            split
            · rw [ih _ _ (by omega) (by omega) (by omega), Lcs.shift_shift,
                List.drop_eq_getElem_cons hj']
              simp [Nat.add_comm]
            · rw [ih _ _ (by omega) (by omega) (by omega), Lcs.shift_shift,
                List.drop_eq_getElem_cons hi']
              simp [Nat.add_comm]
        · simp [lcsPath]
      · simp [lcsPath]

/-- The table walk is the alignment of the library. -/
theorem lcsMatches_eq_walk (a b : List Line) : lcsMatches a b = Lcs.walk a b := by
  simpa [lcsMatches] using
    lcsPath_eq a b (a.length + b.length) 0 0 (Nat.zero_le _) (Nat.zero_le _) (by omega)

/-! ## Diff -/

/-- The loop of `diff`: `bi` and `ti` stand behind the last match. -/
def diffHunks (b t : List Line) : List (Nat × Nat) → Nat → Nat → List Hunk
  | [], _, _ => []
  | (mb, mt) :: ms, bi, ti =>
      if bi < mb ∨ ti < mt then
        ⟨bi, slice b bi mb, slice t ti mt⟩ :: diffHunks b t ms (mb + 1) (mt + 1)
      else diffHunks b t ms (mb + 1) (mt + 1)

/-- The canonical diff. A sentinel match at the two ends flushes a trailing edit. -/
def diff (base target : Doc) : Patch :=
  let b := base.lines
  let t := target.lines
  ⟨diffHunks b t (lcsMatches b t ++ [(b.length, t.length)]) 0 0⟩

section DiffHunks

variable {b b' t t' : List Line} {ms ns : List (Nat × Nat)} {bi ti : Nat}

private theorem diffHunks_append_cons (p : Nat × Nat) :
    diffHunks b t (ms ++ p :: ns) bi ti =
      diffHunks b t (ms ++ [p]) bi ti ++ diffHunks b t ns (p.1 + 1) (p.2 + 1) := by
  induction ms generalizing bi ti with
  | nil =>
      simp only [List.nil_append, diffHunks]
      split <;> rfl
  | cons m ms ih =>
      simp only [List.cons_append, diffHunks, ih]
      split <;> rfl

private theorem diffHunks_append_left (h : ∀ p ∈ ms, p.1 ≤ b.length ∧ p.2 ≤ t.length) :
    diffHunks (b ++ b') (t ++ t') ms bi ti = diffHunks b t ms bi ti := by
  induction ms generalizing bi ti with
  | nil => rfl
  | cons m ms ih =>
      obtain ⟨hb, ht⟩ := h m (by simp)
      simp only [diffHunks, slice_append_left hb, slice_append_left ht,
        ih fun p hp => h p (List.mem_cons_of_mem _ hp)]

private theorem diffHunks_append_right :
    diffHunks (b ++ b') (t ++ t') (Lcs.shift b.length t.length ms) (bi + b.length)
        (ti + t.length) = (diffHunks b' t' ms bi ti).map (Edit.moveBy b.length) := by
  induction ms generalizing bi ti with
  | nil => rfl
  | cons m ms ih =>
      have hb : m.1 + b.length + 1 = m.1 + 1 + b.length := by omega
      have ht : m.2 + t.length + 1 = m.2 + 1 + t.length := by omega
      simp only [Lcs.shift_cons, diffHunks, slice_append_right, hb, ht, ih,
        Nat.add_lt_add_iff_right]
      split <;> rfl

/-- One turn of the loop: the edit up to a match, in front of edits that are right
    from the match on, is right from the cursors on. -/
private theorem diffHunks_step {hs : List Hunk} {mb mt : Nat} (hb : bi ≤ mb) (hbl : mb ≤ b.length)
    (ht : ti ≤ mt) (hfit : Fits b mb hs)
    (hsplice : splice b mb hs = t.drop mt) :
    let out := if bi < mb ∨ ti < mt then ⟨bi, slice b bi mb, slice t ti mt⟩ :: hs else hs
    Fits b bi out ∧ splice b bi out = t.drop ti := by
  intro out
  by_cases hedit : bi < mb ∨ ti < mt
  · have hstop : bi + (slice b bi mb).length = mb := by
      simp only [slice, List.length_drop, List.length_take]
      omega
    have hremove : (b.drop bi).take (slice b bi mb).length = slice b bi mb := by
      rw [slice_eq_take_drop, List.length_take, List.take_eq_take_iff]
      omega
    have hinsert : slice t ti mt ++ t.drop mt = t.drop ti := by
      have hdrop : t.drop mt = (t.drop ti).drop (mt - ti) := by
        rw [List.drop_drop, Nat.add_sub_cancel' ht]
      rw [slice_eq_take_drop, hdrop, List.take_append_drop]
    simp only [out, if_pos hedit, Fits, splice, Edit.stop, hstop, hremove, hsplice]
    refine ⟨⟨Nat.le_refl _, hbl, trivial, hfit⟩, ?_⟩
    simp [hinsert]
  · obtain ⟨rfl, rfl⟩ : mb = bi ∧ mt = ti := by omega
    simp only [out, if_neg hedit]
    exact ⟨hfit, hsplice⟩

/-- Reading the edits between matches of equal lines, in order, off two documents
    gives edits of the one that produce the other. -/
private theorem diffHunks_faithful (hms : ∀ p ∈ ms, ∃ x, b[p.1]? = some x ∧ t[p.2]? = some x)
    (hord : ms.Pairwise Lcs.Before) (hfrom : ∀ p ∈ ms, bi ≤ p.1 ∧ ti ≤ p.2)
    (hb : bi ≤ b.length) (ht : ti ≤ t.length) :
    let hs := diffHunks b t (ms ++ [(b.length, t.length)]) bi ti
    Fits b bi hs ∧ splice b bi hs = t.drop ti := by
  induction ms generalizing bi ti with
  | nil =>
      have hend : splice b b.length [] = t.drop t.length := by simp [splice]
      exact diffHunks_step hb (Nat.le_refl _) ht trivial hend
  | cons m ms ih =>
      obtain ⟨x, hmb, hmt⟩ := hms m (by simp)
      obtain ⟨hmb', hbx⟩ := List.getElem?_eq_some_iff.mp hmb
      obtain ⟨hmt', htx⟩ := List.getElem?_eq_some_iff.mp hmt
      obtain ⟨hbefore, hord'⟩ := List.pairwise_cons.mp hord
      obtain ⟨hfit, hsplice⟩ := ih (fun p hp => hms p (List.mem_cons_of_mem _ hp)) hord'
        (fun p hp => ⟨(hbefore p hp).1, (hbefore p hp).2⟩) hmb' hmt'
      have hmatch : splice b m.1 (diffHunks b t (ms ++ [(b.length, t.length)]) (m.1 + 1) (m.2 + 1)) =
          t.drop m.2 := by
        -- The matched line is copied from the base and is the target's own.
        rw [splice_eq_take_append (Nat.le_succ _) hfit, hsplice, List.drop_eq_getElem_cons hmb',
          List.drop_eq_getElem_cons hmt', hbx, htx]
        simp
      exact diffHunks_step (hfrom m (by simp)).1 (Nat.le_of_lt hmb') (hfrom m (by simp)).2
        (hfit.mono (Nat.le_succ _)) hmatch

end DiffHunks

private theorem diff_faithful (base target : Doc) :
    Fits base.lines 0 (diff base target).hunks ∧
      splice base.lines 0 (diff base target).hunks = target.lines := by
  simp only [diff, lcsMatches_eq_walk]
  exact diffHunks_faithful (fun p hp => Lcs.getElem?_of_mem_walk hp) (Lcs.pairwise_walk _ _)
    (fun p _ => ⟨Nat.zero_le _, Nat.zero_le _⟩) (Nat.zero_le _) (Nat.zero_le _)

theorem fits_diff (base target : Doc) : Fits base.lines 0 (diff base target).hunks :=
  (diff_faithful base target).1

theorem splice_diff (base target : Doc) :
    splice base.lines 0 (diff base target).hunks = target.lines :=
  (diff_faithful base target).2

/-- Diff faithfulness: the diff of two documents turns the first into the second. -/
theorem apply_diff (base target : Doc) : apply (diff base target) base = .ok target := by
  rw [apply_of_fits (fits_diff base target), splice_diff]

/-- At a line matched by the alignment a diff splits into the diffs of the parts
    before it and after it. -/
theorem diff_hunks_of_mem_walk {a a' c c' : List Line} {x : Line}
    (h : (a.length, c.length) ∈ Lcs.walk (a ++ x :: a') (c ++ x :: c')) :
    (diff ⟨a ++ x :: a'⟩ ⟨c ++ x :: c'⟩).hunks =
      (diff ⟨a⟩ ⟨c⟩).hunks ++ (diff ⟨a'⟩ ⟨c'⟩).hunks.map (Edit.moveBy (a.length + 1)) := by
  have hwalk := Lcs.walk_append a (x :: a') c (x :: c') h
  rw [Lcs.walk_cons_cons, if_pos rfl, Lcs.shift_cons, Lcs.shift_shift] at hwalk
  have hbound : ∀ p ∈ Lcs.walk a c ++ [(a.length, c.length)], p.1 ≤ a.length ∧ p.2 ≤ c.length := by
    intro p hp
    rcases List.mem_append.mp hp with hp | hp
    · obtain ⟨h₁, h₂⟩ := Lcs.lt_of_mem_walk hp
      exact ⟨Nat.le_of_lt h₁, Nat.le_of_lt h₂⟩
    · simp only [List.mem_singleton] at hp
      simp [hp]
  -- The tail's matches and sentinel are those of the parts after the line, moved behind it.
  have htail : Lcs.shift (1 + a.length) (1 + c.length) (Lcs.walk a' c') ++
      [((a ++ x :: a').length, (c ++ x :: c').length)] =
      Lcs.shift (a ++ [x]).length (c ++ [x]).length
        (Lcs.walk a' c' ++ [(a'.length, c'.length)]) := by
    simp [Lcs.shift, Nat.add_comm, Nat.add_left_comm]
  have hright := @diffHunks_append_right (a ++ [x]) a' (c ++ [x]) c'
    (Lcs.walk a' c' ++ [(a'.length, c'.length)]) 0 0
  simp only [List.append_assoc, List.singleton_append, List.length_append, List.length_singleton,
    Nat.zero_add] at hright htail
  simp only [diff, lcsMatches_eq_walk, hwalk, Nat.zero_add, List.append_assoc, List.cons_append]
  rw [diffHunks_append_cons, diffHunks_append_left hbound, ← hright, ← htail]
  simp

/-- A common first line is no part of the diff. -/
theorem diff_hunks_cons (x : Line) (a c : List Line) :
    (diff ⟨x :: a⟩ ⟨x :: c⟩).hunks = (diff ⟨a⟩ ⟨c⟩).hunks.map (Edit.moveBy 1) := by
  have hmem : (([] : List Line).length, ([] : List Line).length) ∈
      Lcs.walk ([] ++ x :: a) ([] ++ x :: c) := by
    simp [Lcs.walk_cons_cons]
  simpa [diff, diffHunks, lcsMatches_eq_walk] using diff_hunks_of_mem_walk hmem

/-- Only equal documents have an empty diff. -/
theorem diff_hunks_eq_nil_iff {a c : List Line} : (diff ⟨a⟩ ⟨c⟩).hunks = [] ↔ a = c := by
  constructor
  · intro h
    simpa [h, splice] using splice_diff ⟨a⟩ ⟨c⟩
  · rintro rfl
    induction a with
    | nil => rfl
    | cons x a ih => rw [diff_hunks_cons, ih, List.map_nil]

/-! ## Minimality -/

/-- No list of edits leaves more of a list than an alignment with the result has. -/
theorem length_kept_le {b t : List Line} {es : List Hunk} (h : Fits b 0 es) (hs : splice b 0 es = t) :
    (kept b 0 es).length ≤ (Lcs.walk b t).length := by
  rw [Lcs.length_walk]
  exact Lcs.length_le_lcsLength (kept_sublist_base h) (hs ▸ kept_sublist_splice b 0 es)

/-- What one turn of the loop adds to the edits behind it. -/
private theorem removed_step {b t : List Line} {hs : List Hunk} {bi ti mb mt : Nat} (hbi : bi ≤ mb) (hmb : mb ≤ b.length)
    (hti : ti ≤ mt) (hmt : mt ≤ t.length) :
    let out := if bi < mb ∨ ti < mt then ⟨bi, slice b bi mb, slice t ti mt⟩ :: hs else hs
    removed out = mb - bi + removed hs ∧ inserted out = mt - ti + inserted hs := by
  intro out
  simp only [out]
  split
  · simp only [removed_cons, inserted_cons, slice, List.length_drop, List.length_take]
    omega
  · omega

/-- Between matches in order a diff removes and inserts all that is not matched. -/
private theorem removed_diffHunks {b t : List Line} {ms : List (Nat × Nat)} {bi ti : Nat}
    (hms : ∀ p ∈ ms, p.1 < b.length ∧ p.2 < t.length) (hord : ms.Pairwise Lcs.Before)
    (hfrom : ∀ p ∈ ms, bi ≤ p.1 ∧ ti ≤ p.2) (hb : bi ≤ b.length) (ht : ti ≤ t.length) :
    let hs := diffHunks b t (ms ++ [(b.length, t.length)]) bi ti
    bi + ms.length + removed hs = b.length ∧ ti + ms.length + inserted hs = t.length := by
  induction ms generalizing bi ti with
  | nil =>
      obtain ⟨hremoved, hinserted⟩ := @removed_step b t [] _ _ _ _ hb (Nat.le_refl _) ht (Nat.le_refl _)
      simp only [removed_nil, inserted_nil] at hremoved hinserted
      simp only [List.nil_append, diffHunks, hremoved, hinserted, List.length_nil]
      omega
  | cons m ms ih =>
      obtain ⟨hmb, hmt⟩ := hms m List.mem_cons_self
      obtain ⟨hbi, hti⟩ := hfrom m List.mem_cons_self
      obtain ⟨hbefore, hord⟩ := List.pairwise_cons.mp hord
      obtain ⟨hremoved, hinserted⟩ := @removed_step b t (diffHunks b t (ms ++ [(b.length, t.length)]) (m.1 + 1) (m.2 + 1))
        _ _ _ _ hbi (Nat.le_of_lt hmb) hti (Nat.le_of_lt hmt)
      obtain ⟨hrest, hrest'⟩ := @ih (m.1 + 1) (m.2 + 1) (fun p hp => hms p (List.mem_cons_of_mem m hp)) hord
        (fun p hp => ⟨(hbefore p hp).1, (hbefore p hp).2⟩) hmb hmt
      simp only [List.cons_append, diffHunks, hremoved, hinserted, List.length_cons]
      omega

/-- The alignment is a longest matching of equal lines in order, and of all patches that turn a document into
    another the diff removes and inserts the fewest lines. -/
theorem diff_minimal (base target : Doc) :
    (lcsMatches base.lines target.lines).Pairwise Lcs.Before ∧
    (∀ p ∈ lcsMatches base.lines target.lines, ∃ x, base.lines[p.1]? = some x ∧ target.lines[p.2]? = some x) ∧
    (∀ ps : List (Nat × Nat), ps.Pairwise Lcs.Before →
      (∀ p ∈ ps, ∃ x, base.lines[p.1]? = some x ∧ target.lines[p.2]? = some x) →
        ps.length ≤ (lcsMatches base.lines target.lines).length) ∧
    apply (diff base target) base = .ok target ∧
    ∀ p : Patch, apply p base = .ok target →
      removed (diff base target).hunks ≤ removed p.hunks ∧ inserted (diff base target).hunks ≤ inserted p.hunks := by
  rw [lcsMatches_eq_walk]
  refine ⟨Lcs.pairwise_walk _ _, fun p => Lcs.getElem?_of_mem_walk, fun ps => Lcs.length_le_length_walk,
    apply_diff base target, fun p happly => ?_⟩
  obtain ⟨hfit, htarget⟩ := apply_eq_ok_iff.mp happly
  have hsplice : splice base.lines 0 p.hunks = target.lines := by rw [htarget]
  have hkept := length_kept_le hfit hsplice
  have hbase := length_kept_add_removed hfit (Nat.zero_le _)
  have hresult := length_splice base.lines 0 p.hunks
  rw [hsplice] at hresult
  obtain ⟨hremoved, hinserted⟩ := removed_diffHunks (fun p hp => Lcs.lt_of_mem_walk hp)
    (Lcs.pairwise_walk base.lines target.lines) (fun p _ => ⟨Nat.zero_le p.1, Nat.zero_le p.2⟩)
    (Nat.zero_le _) (Nat.zero_le _)
  unfold diff
  simp only [lcsMatches_eq_walk]
  omega

/-! ## Canonical patches -/

/-- A patch that a diff against `base` may give: every hunk changes something, an untouched
    line lies between each and the next, and each removes the lines of its support. -/
structure Patch.Canonical (base : Doc) (p : Patch) : Prop where
  changes : ∀ h ∈ p.hunks, h.remove ≠ h.insert
  apart : p.hunks.Pairwise fun h k => h.support.stop < k.support.start
  context : ∀ h ∈ p.hunks, slice base.lines h.support.start h.support.stop = h.remove

/-- A diff is that of a common first line, one hunk, or the diffs around a matched line. -/
theorem diff_hunks_cases (a c : List Line) :
    (diff ⟨a⟩ ⟨c⟩).hunks = [] ∨ (a ≠ c ∧ (diff ⟨a⟩ ⟨c⟩).hunks = [⟨0, a, c⟩]) ∨
      ∃ (o o' lf lf' : List Line) (x : Line), a = o ++ x :: o' ∧ c = lf ++ x :: lf' ∧
        (diff ⟨a⟩ ⟨c⟩).hunks =
          (diff ⟨o⟩ ⟨lf⟩).hunks ++ (diff ⟨o'⟩ ⟨lf'⟩).hunks.map (Edit.moveBy (o.length + 1)) := by
  cases hwalk : Lcs.walk a c with
  | nil =>
      by_cases hne : a = c
      · exact .inl (diff_hunks_eq_nil_iff.mpr hne)
      · refine .inr (.inl ⟨hne, ?_⟩)
        have hedit : 0 < a.length ∨ 0 < c.length := by
          simp only [List.length_pos_iff]
          by_contra hboth
          simp only [not_or, not_not] at hboth
          exact hne (hboth.1.trans hboth.2.symm)
        simp [diff, lcsMatches_eq_walk, hwalk, diffHunks, hedit, slice]
  | cons p ms =>
      obtain ⟨i, j⟩ := p
      have hmem : (i, j) ∈ Lcs.walk a c := by simp [hwalk]
      obtain ⟨x, hi, hj⟩ := Lcs.getElem?_of_mem_walk hmem
      obtain ⟨o, o', rfl, rfl⟩ := exists_split_of_getElem? hi
      obtain ⟨lf, lf', rfl, rfl⟩ := exists_split_of_getElem? hj
      exact .inr (.inr ⟨o, o', lf, lf', x, rfl, rfl, diff_hunks_of_mem_walk hmem⟩)

/-- Every hunk of a diff changes something, and an untouched line lies between two. -/
private theorem diff_hunks_apart (a c : List Line) :
    (∀ h ∈ (diff ⟨a⟩ ⟨c⟩).hunks, h.remove ≠ h.insert) ∧
      (diff ⟨a⟩ ⟨c⟩).hunks.Pairwise fun h k => h.stop < k.baseStart := by
  induction hn : a.length using Nat.strong_induction_on generalizing a c with
  | _ n ih =>
      rcases diff_hunks_cases a c with hnil | ⟨hne, hone⟩ | ⟨o, o', lf, lf', x, rfl, rfl, hsplit⟩
      · simp [hnil]
      · simpa [hone] using hne
      · simp only [List.length_append, List.length_cons] at hn
        obtain ⟨hfront, hapart⟩ := ih o.length (by omega) o lf rfl
        obtain ⟨hback, hapart'⟩ := ih o'.length (by omega) o' lf' rfl
        rw [hsplit, List.pairwise_append, List.forall_mem_append, List.forall_mem_map,
          List.pairwise_map]
        refine ⟨⟨hfront, hback⟩, hapart, hapart'.imp fun hlt => ?_, fun h hh k hk => ?_⟩
        · simp only [Edit.moveBy, Edit.stop] at hlt ⊢
          omega
        · -- The matched line lies between the hunks in front of it and those behind it.
          have hstop : h.stop ≤ o.length := (fits_diff ⟨o⟩ ⟨lf⟩).stop_le h hh
          obtain ⟨k, -, rfl⟩ := List.mem_map.mp hk
          simp only [Edit.moveBy]
          omega

/-- Diff faithfulness: the diff of two documents turns the first into the second, and is
    canonical. -/
theorem diff_apply_roundtrip (base target : Doc) :
    apply (diff base target) base = .ok target ∧ (diff base target).Canonical base := by
  obtain ⟨hchanges, hapart⟩ := diff_hunks_apart base.lines target.lines
  refine ⟨apply_diff base target, hchanges, hapart, fun h hh => ?_⟩
  rw [slice_eq_take_drop, Hunk.support, Nat.add_sub_cancel_left]
  exact (fits_diff base target).context h hh

end Omoplata
