-- SUMMARY: Three-way merge with conflicts as values, and the cut of the three documents it makes.
import Omoplata.Algebra.Patch

/-!
# Three-way merge

`merge3` walks the base with two alignments at once. Lines matched on both sides
at the cursors are copied; between two such mutual anchors lies a change region,
which `emitRegion` settles.

The loop is written over what it does with a line (`keep`) and with a region
(`emit`), so that the same loop can also record the regions it meets. Its slices
are checked and its turns counted: `mergeLoop_eq_some` shows that no slice fails
and that it ends, and gives the cut of the three documents it makes.
-/

namespace Omoplata

/-- Marker beginning a conflicted region in a rendered document. -/
def conflictStart : Line := "<<<<<<< left".toList

/-- Marker separating the two sides of a conflicted region. -/
def conflictSep : Line := "=======".toList

/-- Marker ending a conflicted region. -/
def conflictEnd : Line := ">>>>>>> right".toList

/-- A conflict stored as a value: the common span and its two replacements. -/
structure Conflict where
  base : List Line
  left : List Line
  right : List Line
  deriving DecidableEq, Repr

/-- The result of a three-way merge. -/
structure Merge where
  merged : Doc
  conflicts : List Conflict
  deriving DecidableEq, Repr

def Merge.isClean (m : Merge) : Bool := m.conflicts.isEmpty

/-! ## The loop -/

/-- For each of `n` base lines the line it is matched to. -/
def partners (n : Nat) (ms : List (Nat × Nat)) : List (Option Nat) :=
  ms.foldl (fun la p => la.set p.1 (some p.2)) (List.replicate n none)

/-- A base line with the left and the right line it is matched to. -/
structure Row where
  line : Line
  left : Option Nat
  right : Option Nat

/-- Whether the line is matched on both sides. -/
def Row.anchored (row : Row) : Bool := row.left.isSome && row.right.isSome

def rows (b : List Line) (la lb : List (Option Nat)) : List Row :=
  List.zipWith (fun line p => ⟨line, p.1, p.2⟩) b (la.zip lb)

section Loop

variable {σ : Type} (keep : σ → Line → σ) (emit : σ → List Line → List Line → List Line → σ)

/-- The stable run: base lines matched, at the current cursors, in both sides. The
    rows are those of the base lines not yet passed. -/
def stableRun : List Row → Nat → Nat → σ → List Row × Nat × Nat × σ
  | [], a, bx, s => ([], a, bx, s)
  | row :: rows, a, bx, s =>
      if row.left = some a ∧ row.right = some bx then
        stableRun rows (a + 1) (bx + 1) (keep s row.line)
      else (row :: rows, a, bx, s)

/-- The loop of `merge3`. It gives nothing when a slice is out of range or the turns
    run out. -/
def mergeLoop (l r : List Line) : Nat → List Row → Nat → Nat → σ → Option σ
  | 0, _, _, _, _ => none
  | fuel + 1, rows, a, bx, s =>
      let (rows, a, bx, s) := stableRun keep rows a bx s
      if rows.isEmpty then do
        some (emit s [] (← slice? l a l.length) (← slice? r bx r.length))
      else
        let changed := rows.takeWhile fun row => !row.anchored
        let rest := rows.dropWhile fun row => !row.anchored
        let (a2, b2) := match rest with
          | row :: _ => (row.left.getD a, row.right.getD bx)
          | [] => (l.length, r.length)
        do
          let lft ← slice? l a a2
          let rgt ← slice? r bx b2
          mergeLoop l r fuel rest a2 b2 (emit s (changed.map Row.line) lft rgt)

/-- The loop on three documents, from the start. -/
def mergeRun (base left right : Doc) (s : σ) : Option σ :=
  let b := base.lines
  let l := left.lines
  let r := right.lines
  let la := partners b.length (lcsMatches b l)
  let lb := partners b.length (lcsMatches b r)
  mergeLoop keep emit l r (b.length + 2) (rows b la lb) 0 0 s

end Loop

/-- Write one line of a stable run. -/
def pushLine (s : List Line × List Conflict) (line : Line) : List Line × List Conflict :=
  (s.1 ++ [line], s.2)

/-- Classify and emit one change region. -/
def emitRegion (s : List Line × List Conflict) (o lft rgt : List Line) :
    List Line × List Conflict :=
  if lft = o then (s.1 ++ rgt, s.2)
  else if rgt = o ∨ lft = rgt then (s.1 ++ lft, s.2)
  else
    (s.1 ++ [conflictStart] ++ lft ++ [conflictSep] ++ rgt ++ [conflictEnd],
      s.2 ++ [⟨o, lft, rgt⟩])

/-! ## The rows of suffixes -/

/-- The rows of three suffixes, for cursors at `a` and `bx`. -/
private def suffixRows (b l r : List Line) (a bx : Nat) : List Row :=
  rows b (partners b.length (Lcs.shift 0 a (Lcs.walk b l)))
    (partners b.length (Lcs.shift 0 bx (Lcs.walk b r)))

private theorem length_foldl_set (ms : List (Nat × Nat)) (la : List (Option Nat)) :
    (ms.foldl (fun la p => la.set p.1 (some p.2)) la).length = la.length := by
  induction ms generalizing la with
  | nil => rfl
  | cons m ms ih => rw [List.foldl_cons, ih, List.length_set]

@[simp] theorem length_partners (n : Nat) (ms : List (Nat × Nat)) :
    (partners n ms).length = n := by
  rw [partners, length_foldl_set, List.length_replicate]

/-- A recorded partner was matched. -/
theorem mem_of_getElem?_partners {n o c : Nat} {ms : List (Nat × Nat)}
    (h : (partners n ms)[o]? = some (some c)) : (o, c) ∈ ms := by
  have hfold : ∀ (ms : List (Nat × Nat)) (la : List (Option Nat)),
      (ms.foldl (fun la p => la.set p.1 (some p.2)) la)[o]? = some (some c) →
        la[o]? = some (some c) ∨ (o, c) ∈ ms := by
    intro ms
    induction ms with
    | nil => exact fun la h => .inl h
    | cons m ms ih =>
        intro la h
        rcases ih _ h with hset | hmem
        · rw [List.getElem?_set] at hset
          split at hset
          · rename_i heq
            split at hset
            · simp only [Option.some.injEq] at hset
              exact .inr (by simp [← heq, ← hset])
            · simp at hset
          · exact .inl hset
        · exact .inr (List.mem_cons_of_mem _ hmem)
  rcases hfold ms _ h with hrep | hmem
  · rw [List.getElem?_replicate] at hrep
    split at hrep <;> simp at hrep
  · exact hmem

private theorem drop_foldl_set_of_lt {k : Nat} {ms : List (Nat × Nat)} (hms : ∀ p ∈ ms, p.1 < k)
    (la : List (Option Nat)) :
    (ms.foldl (fun la p => la.set p.1 (some p.2)) la).drop k = la.drop k := by
  induction ms generalizing la with
  | nil => rfl
  | cons m ms ih =>
      rw [List.foldl_cons, ih fun p hp => hms p (List.mem_cons_of_mem _ hp), List.drop_set,
        if_pos (hms m (by simp))]

private theorem drop_foldl_set_shift (k c : Nat) (ms : List (Nat × Nat)) (la : List (Option Nat)) :
    ((Lcs.shift k c ms).foldl (fun la p => la.set p.1 (some p.2)) la).drop k =
      (Lcs.shift 0 c ms).foldl (fun la p => la.set p.1 (some p.2)) (la.drop k) := by
  induction ms generalizing la with
  | nil => rfl
  | cons m ms ih =>
      rw [Lcs.shift_cons, Lcs.shift_cons, List.foldl_cons, List.foldl_cons, ih, List.drop_set,
        if_neg (by omega), Nat.add_sub_cancel, Nat.add_zero]

/-- The partners past an anchor are those of the suffixes there. -/
private theorem drop_partners {o b lf l : List Line} (a : Nat)
    (h : (o.length, lf.length) ∈ Lcs.walk (o ++ b) (lf ++ l)) :
    (partners (o ++ b).length (Lcs.shift 0 a (Lcs.walk (o ++ b) (lf ++ l)))).drop o.length =
      partners b.length (Lcs.shift 0 (a + lf.length) (Lcs.walk b l)) := by
  have hsplit : Lcs.shift 0 a (Lcs.walk (o ++ b) (lf ++ l)) =
      Lcs.shift 0 a (Lcs.walk o lf) ++ Lcs.shift o.length (a + lf.length) (Lcs.walk b l) := by
    rw [Lcs.walk_append o b lf l h, Lcs.shift_append, Lcs.shift_shift]
    simp [Nat.add_comm]
  have hlt : ∀ p ∈ Lcs.shift 0 a (Lcs.walk o lf), p.1 < o.length := by
    intro p hp
    obtain ⟨q, hq, rfl⟩ := Lcs.mem_shift.mp hp
    exact (Lcs.lt_of_mem_walk hq).1
  have hrep : (List.replicate (o ++ b).length (none : Option Nat)).drop o.length =
      List.replicate b.length none := by simp
  rw [hsplit, partners, List.foldl_append, drop_foldl_set_shift, drop_foldl_set_of_lt hlt, hrep,
    partners]

private theorem drop_suffixRows {o b lf l rt r : List Line} (a bx : Nat)
    (hl : (o.length, lf.length) ∈ Lcs.walk (o ++ b) (lf ++ l))
    (hr : (o.length, rt.length) ∈ Lcs.walk (o ++ b) (rt ++ r)) :
    (suffixRows (o ++ b) (lf ++ l) (rt ++ r) a bx).drop o.length =
      suffixRows b l r (a + lf.length) (bx + rt.length) := by
  rw [suffixRows, rows, List.drop_zipWith, List.zip, List.drop_zipWith, drop_partners a hl,
    drop_partners bx hr, List.drop_left]
  rfl

private theorem suffixRows_cons (x : Line) (b l r : List Line) (a bx : Nat) :
    suffixRows (x :: b) (x :: l) (x :: r) a bx =
      ⟨x, some a, some bx⟩ :: suffixRows b l r (a + 1) (bx + 1) := by
  have hpartners : ∀ (l : List Line) (a : Nat),
      partners (x :: b).length (Lcs.shift 0 a (Lcs.walk (x :: b) (x :: l))) =
        some a :: partners b.length (Lcs.shift 0 (a + 1) (Lcs.walk b l)) := by
    intro l a
    have hset : ∀ (ms : List (Nat × Nat)) (p : Option Nat) (la : List (Option Nat)),
        (Lcs.shift 1 (a + 1) ms).foldl (fun la p => la.set p.1 (some p.2)) (p :: la) =
          p :: (Lcs.shift 0 (a + 1) ms).foldl (fun la p => la.set p.1 (some p.2)) la := by
      intro ms
      induction ms with
      | nil => exact fun p la => rfl
      | cons m ms ih => exact fun p la => ih p _
    have hwalk : Lcs.shift 0 a (Lcs.walk (x :: b) (x :: l)) =
        (0, a) :: Lcs.shift 1 (a + 1) (Lcs.walk b l) := by
      rw [Lcs.walk_cons_cons, if_pos rfl, Lcs.shift_cons, Lcs.shift_shift]
      simp [Nat.add_comm]
    rw [hwalk, partners, List.length_cons, List.replicate_succ, List.foldl_cons, List.set_cons_zero,
      hset, partners]
  rw [suffixRows, hpartners, hpartners]
  rfl

private theorem getElem?_suffixRows {b l r : List Line} {a bx k : Nat} {row : Row}
    (h : (suffixRows b l r a bx)[k]? = some row) :
    (∀ c, row.left = some c → ∃ m, c = a + m ∧ (k, m) ∈ Lcs.walk b l) ∧
      ∀ c, row.right = some c → ∃ m, c = bx + m ∧ (k, m) ∈ Lcs.walk b r := by
  obtain ⟨line, p, -, hp, rfl⟩ := List.getElem?_zipWith_eq_some.mp h
  obtain ⟨hl, hr⟩ := List.getElem?_zip_eq_some.mp hp
  have hside : ∀ {l : List Line} {a c : Nat} {q : Option Nat},
      (partners b.length (Lcs.shift 0 a (Lcs.walk b l)))[k]? = some q → q = some c →
        ∃ m, c = a + m ∧ (k, m) ∈ Lcs.walk b l := by
    rintro l a c q hq rfl
    obtain ⟨⟨k', m⟩, hmem, heq⟩ := Lcs.mem_shift.mp (mem_of_getElem?_partners hq)
    simp only [Nat.add_zero, Prod.mk.injEq] at heq
    obtain ⟨rfl, rfl⟩ := heq
    exact ⟨m, Nat.add_comm _ _, hmem⟩
  exact ⟨fun c hc => hside hl hc, fun c hc => hside hr hc⟩

private theorem map_line_suffixRows (b l r : List Line) (a bx : Nat) :
    (suffixRows b l r a bx).map Row.line = b := by
  rw [suffixRows, rows, List.map_zipWith, ← List.map_uncurry_zip_eq_zipWith]
  exact List.map_fst_zip (by simp)

/-! ## The cut the loop makes -/

/-- A stable run and the change region behind it. -/
structure CutStep where
  run : List Line
  base : List Line
  left : List Line
  right : List Line
  deriving DecidableEq, Repr

/-- The three documents start with one line. -/
def HeadsAgree (b l r : List Line) : Prop :=
  ∃ x b' l' r', b = x :: b' ∧ l = x :: l' ∧ r = x :: r'

/-- The steps cut three documents: a region reaches up to a line that both
    alignments match there, or to the ends. -/
inductive IsCut : List Line → List Line → List Line → List CutStep → Prop
  /-- The base is used up by the run: the rest of each side is a trailing region. -/
  | trailing (run l r : List Line) : IsCut run (run ++ l) (run ++ r) [⟨run, [], l, r⟩]
  /-- No mutual anchor is left: one region to the ends and an empty trailing one. -/
  | unanchored (run o l r : List Line) :
      IsCut (run ++ o) (run ++ l) (run ++ r) [⟨run, o, l, r⟩, ⟨[], [], [], []⟩]
  /-- The region ends before the mutual anchor `x`, which starts the next run. -/
  | anchored (run o lf rt : List Line) (x : Line) (b l r : List Line) (tail : List Line)
      (next : CutStep) (steps : List CutStep)
      (hl : (o.length, lf.length) ∈ Lcs.walk (o ++ x :: b) (lf ++ x :: l))
      (hr : (o.length, rt.length) ∈ Lcs.walk (o ++ x :: b) (rt ++ x :: r))
      (hnext : next.run = x :: tail)
      (hcut : IsCut (x :: b) (x :: l) (x :: r) (next :: steps)) :
      IsCut (run ++ (o ++ x :: b)) (run ++ (lf ++ x :: l)) (run ++ (rt ++ x :: r))
        (⟨run, o, lf, rt⟩ :: next :: steps)

/-- What the loop does over the steps of a cut. -/
def runSteps {σ : Type} (keep : σ → Line → σ) (emit : σ → List Line → List Line → List Line → σ)
    (s : σ) (steps : List CutStep) : σ :=
  steps.foldl (fun s step => emit (step.run.foldl keep s) step.base step.left step.right) s

private theorem stableRun_suffixRows (b l r : List Line) (a bx : Nat) :
    ∃ run b' l' r', b = run ++ b' ∧ l = run ++ l' ∧ r = run ++ r' ∧ ¬ HeadsAgree b' l' r' ∧
      ∀ {σ : Type} (keep : σ → Line → σ) (s : σ),
        stableRun keep (suffixRows b l r a bx) a bx s =
          (suffixRows b' l' r' (a + run.length) (bx + run.length), a + run.length,
            bx + run.length, run.foldl keep s) := by
  induction b generalizing l r a bx with
  | nil =>
      exact ⟨[], [], l, r, rfl, rfl, rfl, by rintro ⟨x, b', l', r', h, -⟩; simp at h, fun _ _ => rfl⟩
  | cons x b ih =>
      -- where the heads agree the run takes them; elsewhere it is over
      by_cases hagree : HeadsAgree (x :: b) l r
      · obtain ⟨x', b', l', r', heq, rfl, rfl⟩ := hagree
        obtain ⟨rfl, rfl⟩ := List.cons.inj heq
        obtain ⟨run, b', l', r', rfl, rfl, rfl, hstop, hrun⟩ := ih l' r' (a + 1) (bx + 1)
        refine ⟨x :: run, b', l', r', rfl, rfl, rfl, hstop, fun keep s => ?_⟩
        rw [suffixRows_cons, stableRun, if_pos ⟨rfl, rfl⟩, hrun]
        simp [Nat.add_assoc, Nat.add_comm 1]
      · refine ⟨[], x :: b, l, r, rfl, rfl, rfl, hagree, fun keep s => ?_⟩
        cases hrows : suffixRows (x :: b) l r a bx with
        | nil => simp [stableRun]
        | cons row rest =>
            rw [stableRun, if_neg]
            · simp
            · -- A row matched at both cursors would put equal lines at the heads.
              rintro ⟨hl, hr⟩
              obtain ⟨hleft, hright⟩ := getElem?_suffixRows (k := 0) (by rw [hrows]; rfl)
              obtain ⟨m, hm, hmem⟩ := hleft a hl
              obtain ⟨n, hn, hnmem⟩ := hright bx hr
              obtain rfl : m = 0 := by omega
              obtain rfl : n = 0 := by omega
              obtain ⟨y, hy, hly⟩ := Lcs.getElem?_of_mem_walk hmem
              obtain ⟨z, hz, hrz⟩ := Lcs.getElem?_of_mem_walk hnmem
              simp only [List.getElem?_cons_zero, Option.some.injEq] at hy hz
              subst hy hz
              cases l with
              | nil => simp at hly
              | cons l₀ l =>
                  cases r with
                  | nil => simp at hrz
                  | cons r₀ r =>
                      simp only [List.getElem?_cons_zero, Option.some.injEq] at hly hrz
                      subst hly hrz
                      exact hagree ⟨_, _, _, _, rfl, rfl, rfl⟩

private theorem slice?_length_of_drop_eq {l₀ l : List Line} {a : Nat} (ha : a ≤ l₀.length)
    (h : l₀.drop a = l) : slice? l₀ a l₀.length = some l := by
  rw [slice?_eq_some ha (Nat.le_refl _), slice_length, h]

private theorem add_length_le_of_drop_eq {l₀ lf l : List Line} {a : Nat} (ha : a ≤ l₀.length)
    (h : l₀.drop a = lf ++ l) : a + lf.length ≤ l₀.length := by
  have hlen := congrArg List.length h
  rw [List.length_drop, List.length_append] at hlen
  omega

private theorem slice?_of_drop_eq {l₀ lf l : List Line} {a : Nat} (ha : a ≤ l₀.length)
    (h : l₀.drop a = lf ++ l) : slice? l₀ a (a + lf.length) = some lf := by
  rw [slice?_eq_some (Nat.le_add_right _ _) (add_length_le_of_drop_eq ha h), slice_eq_take_drop, h,
    Nat.add_sub_cancel_left, List.take_left]

private theorem drop_add_of_drop_eq {l₀ lf l : List Line} {a : Nat} (h : l₀.drop a = lf ++ l) :
    l₀.drop (a + lf.length) = l := by
  rw [← List.drop_drop, h, List.drop_left]

section Turn

variable {σ : Type} {keep : σ → Line → σ} {emit : σ → List Line → List Line → List Line → σ}
  {l₀ r₀ : List Line} {fuel a bx a' bx' : Nat} {rs rs' : List Row} {s s' : σ} {lft rgt : List Line}

/-- A turn that uses the base up. -/
private theorem mergeLoop_trailing (hrun : stableRun keep rs a bx s = ([], a', bx', s'))
    (hl : slice? l₀ a' l₀.length = some lft) (hr : slice? r₀ bx' r₀.length = some rgt) :
    mergeLoop keep emit l₀ r₀ (fuel + 1) rs a bx s = some (emit s' [] lft rgt) := by
  simp [mergeLoop, hrun, hl, hr]

/-- A turn that emits a region up to the ends. -/
private theorem mergeLoop_unanchored (hrun : stableRun keep rs a bx s = (rs', a', bx', s'))
    (hne : rs' ≠ []) (hrest : rs'.dropWhile (fun row => !row.anchored) = [])
    (hl : slice? l₀ a' l₀.length = some lft) (hr : slice? r₀ bx' r₀.length = some rgt) :
    mergeLoop keep emit l₀ r₀ (fuel + 1) rs a bx s =
      mergeLoop keep emit l₀ r₀ fuel [] l₀.length r₀.length
        (emit s' (rs'.map Row.line) lft rgt) := by
  have hjoin := List.takeWhile_append_dropWhile (p := fun row : Row => !row.anchored) (l := rs')
  rw [hrest, List.append_nil] at hjoin
  rw [mergeLoop, hrun]
  simp [hne, hrest, hjoin, hl, hr]

/-- A turn that emits a region up to an anchor. -/
private theorem mergeLoop_anchored {row : Row} {rest : List Row} {a₂ bx₂ : Nat}
    (hrun : stableRun keep rs a bx s = (rs', a', bx', s'))
    (hrest : rs'.dropWhile (fun row => !row.anchored) = row :: rest)
    (hleft : row.left = some a₂) (hright : row.right = some bx₂)
    (hl : slice? l₀ a' a₂ = some lft) (hr : slice? r₀ bx' bx₂ = some rgt) :
    mergeLoop keep emit l₀ r₀ (fuel + 1) rs a bx s =
      mergeLoop keep emit l₀ r₀ fuel (row :: rest) a₂ bx₂
        (emit s' ((rs'.takeWhile fun row => !row.anchored).map Row.line) lft rgt) := by
  have hne : rs' ≠ [] := by
    rintro rfl
    simp at hrest
  rw [mergeLoop, hrun]
  simp [hne, hrest, hleft, hright, hl, hr]

end Turn

/-- The first anchored row of suffixes splits them at one line, and the rows from
    there on are those of what is left. -/
private theorem exists_anchor {b l r : List Line} {a bx : Nat} {row : Row} {rest : List Row}
    (hrest : (suffixRows b l r a bx).dropWhile (fun row => !row.anchored) = row :: rest) :
    ∃ o lf rt y b' l' r', b = o ++ y :: b' ∧ l = lf ++ y :: l' ∧ r = rt ++ y :: r' ∧
      (o.length, lf.length) ∈ Lcs.walk (o ++ y :: b') (lf ++ y :: l') ∧
      (o.length, rt.length) ∈ Lcs.walk (o ++ y :: b') (rt ++ y :: r') ∧
      row.left = some (a + lf.length) ∧ row.right = some (bx + rt.length) ∧
      ((suffixRows b l r a bx).takeWhile fun row => !row.anchored).map Row.line = o ∧
      row :: rest = suffixRows (y :: b') (y :: l') (y :: r') (a + lf.length) (bx + rt.length) := by
  have hlines := map_line_suffixRows b l r a bx
  have hjoin := List.takeWhile_append_dropWhile (p := fun row : Row => !row.anchored)
    (l := suffixRows b l r a bx)
  generalize hchanged : (suffixRows b l r a bx).takeWhile (fun row => !row.anchored) = changed
    at hjoin ⊢
  rw [hrest] at hjoin
  have hrow : (suffixRows b l r a bx)[changed.length]? = some row := by
    rw [← hjoin]
    simp
  have hanch : row.anchored = true := by
    have := List.head?_dropWhile_not (fun row : Row => !row.anchored) (suffixRows b l r a bx)
    rw [hrest] at this
    simpa using this
  rw [Row.anchored, Bool.and_eq_true, Option.isSome_iff_exists, Option.isSome_iff_exists] at hanch
  obtain ⟨⟨c, hc⟩, ⟨d, hd⟩⟩ := hanch
  obtain ⟨hleft, hright⟩ := getElem?_suffixRows hrow
  obtain ⟨m, rfl, hm⟩ := hleft c hc
  obtain ⟨n, rfl, hn⟩ := hright d hd
  obtain ⟨y, hy, hly⟩ := Lcs.getElem?_of_mem_walk hm
  obtain ⟨z, hz, hrz⟩ := Lcs.getElem?_of_mem_walk hn
  obtain rfl : y = z := Option.some.inj (hy.symm.trans hz)
  obtain ⟨o, b', rfl, ho⟩ := exists_split_of_getElem? hy
  obtain ⟨lf, l', rfl, rfl⟩ := exists_split_of_getElem? hly
  obtain ⟨rt, r', rfl, rfl⟩ := exists_split_of_getElem? hrz
  replace ho : o.length = changed.length := ho
  rw [← ho] at hm hn
  refine ⟨o, lf, rt, y, b', l', r', rfl, rfl, rfl, hm, hn, hc, hd, ?_, ?_⟩
  · rw [← hjoin, List.map_append] at hlines
    exact (List.append_inj hlines (by rw [List.length_map, ho])).1
  · rw [← drop_suffixRows a bx hm hn, ho, ← hjoin, List.drop_left]

/-- The loop on suffixes of its documents succeeds and makes a cut of them. A turn
    passes at least one base line, except a first one that ends on an anchor: that
    is the one turn more that is allowed where the heads do not agree. -/
private theorem mergeLoop_suffixRows (l₀ r₀ : List Line) (fuel : Nat) (b l r : List Line) (a bx : Nat)
    (ha : a ≤ l₀.length) (hl : l₀.drop a = l) (hbx : bx ≤ r₀.length) (hr : r₀.drop bx = r)
    (hfuel : b.length + 2 ≤ fuel ∨ b.length + 1 ≤ fuel ∧ HeadsAgree b l r) :
    ∃ step steps, IsCut b l r (step :: steps) ∧
      (HeadsAgree b l r → ∃ x b' tail, b = x :: b' ∧ step.run = x :: tail) ∧
      ∀ {σ : Type} (keep : σ → Line → σ) (emit : σ → List Line → List Line → List Line → σ) (s : σ),
        mergeLoop keep emit l₀ r₀ fuel (suffixRows b l r a bx) a bx s =
          some (runSteps keep emit s (step :: steps)) := by
  induction fuel generalizing b l r a bx with
  | zero => omega
  | succ fuel ih =>
      obtain ⟨run, b', l', r', rfl, rfl, rfl, hstop, hrun⟩ := stableRun_suffixRows b l r a bx
      have ha' := add_length_le_of_drop_eq ha hl
      have hbx' := add_length_le_of_drop_eq hbx hr
      have hl' := drop_add_of_drop_eq hl
      have hr' := drop_add_of_drop_eq hr
      have hlEnd := slice?_length_of_drop_eq ha' hl'
      have hrEnd := slice?_length_of_drop_eq hbx' hr'
      -- A run that starts on agreeing heads takes the first line.
      have hfirst : HeadsAgree (run ++ b') (run ++ l') (run ++ r') →
          ∃ x b'' tail, run ++ b' = x :: b'' ∧ run = x :: tail := by
        intro hagree
        cases run with
        | nil => exact absurd hagree hstop
        | cons x tail => exact ⟨x, tail ++ b', tail, rfl, rfl⟩
      have hpassed : b'.length + 2 ≤ fuel + 1 := by
        rcases hfuel with hfuel | ⟨hfuel, hagree⟩
        · rw [List.length_append] at hfuel
          omega
        · obtain ⟨x, -, tail, -, rfl⟩ := hfirst hagree
          rw [List.length_append, List.length_cons] at hfuel
          omega
      have hlines := map_line_suffixRows b' l' r' (a + run.length) (bx + run.length)
      cases hb' : b' with
      | nil =>
          subst hb'
          refine ⟨⟨run, [], l', r'⟩, [], ?_, hfirst, fun keep emit s => ?_⟩
          · simpa using IsCut.trailing run l' r'
          · exact mergeLoop_trailing (hrun keep s) hlEnd hrEnd
      | cons y₀ b₀ =>
          have hne : suffixRows b' l' r' (a + run.length) (bx + run.length) ≠ [] := by
            intro hnil
            rw [hnil, hb'] at hlines
            exact List.cons_ne_nil _ _ hlines.symm
          rw [← hb']
          cases hrest : (suffixRows b' l' r' (a + run.length) (bx + run.length)).dropWhile
              fun row => !row.anchored with
          | nil =>
              refine ⟨⟨run, b', l', r'⟩, [⟨[], [], [], []⟩], .unanchored run _ l' r', hfirst,
                fun keep emit s => ?_⟩
              obtain ⟨fuel, rfl⟩ : ∃ k, fuel = k + 1 := ⟨fuel - 1, by
                rw [hb', List.length_cons] at hpassed
                omega⟩
              rw [mergeLoop_unanchored (hrun keep s) hne hrest hlEnd hrEnd, hlines]
              have hend : ∀ xs : List Line, slice? xs xs.length xs.length = some [] := fun xs => by
                simp [slice?, slice]
              exact mergeLoop_trailing rfl (hend l₀) (hend r₀)
          | cons row rest =>
              obtain ⟨o, lf, rt, y, b₁, l₁, r₁, hb₁, rfl, rfl, hm, hn, hleft, hright, hchanged, hrows⟩ :=
                exists_anchor hrest
              subst hb₁
              obtain ⟨step, steps, hcut, hnext, hloop⟩ := ih (y :: b₁) (y :: l₁) (y :: r₁)
                (a + run.length + lf.length) (bx + run.length + rt.length)
                (add_length_le_of_drop_eq ha' hl') (drop_add_of_drop_eq hl')
                (add_length_le_of_drop_eq hbx' hr') (drop_add_of_drop_eq hr')
                (.inr ⟨by
                  rw [List.length_append] at hpassed
                  omega, _, _, _, _, rfl, rfl, rfl⟩)
              obtain ⟨x, b₂, tail, heq, hstep⟩ := hnext ⟨_, _, _, _, rfl, rfl, rfl⟩
              obtain ⟨rfl, rfl⟩ := List.cons.inj heq
              refine ⟨⟨run, o, lf, rt⟩, step :: steps,
                .anchored run o lf rt y b₁ l₁ r₁ tail step steps hm hn hstep hcut, hfirst,
                fun keep emit s => ?_⟩
              rw [mergeLoop_anchored (hrun keep s) hrest hleft hright (slice?_of_drop_eq ha' hl')
                (slice?_of_drop_eq hbx' hr'), hchanged, hrows, hloop]
              rfl

/-- The loop ends without a slice out of range, whatever it does with lines and
    regions, and makes a cut of the three documents. -/
theorem mergeRun_eq_some (base left right : Doc) :
    ∃ steps, IsCut base.lines left.lines right.lines steps ∧
      ∀ {σ : Type} (keep : σ → Line → σ) (emit : σ → List Line → List Line → List Line → σ) (s : σ),
        mergeRun keep emit base left right s = some (runSteps keep emit s steps) := by
  obtain ⟨step, steps, hcut, -, hloop⟩ := mergeLoop_suffixRows left.lines right.lines
    (base.lines.length + 2) base.lines left.lines right.lines 0 0 (Nat.zero_le _) rfl
    (Nat.zero_le _) rfl (.inl (Nat.le_refl _))
  refine ⟨step :: steps, hcut, fun keep emit s => ?_⟩
  rw [← hloop keep emit s, mergeRun]
  simp only [suffixRows, lcsMatches_eq_walk, Lcs.shift_zero]

theorem mergeRun_isSome {σ : Type} (keep : σ → Line → σ)
    (emit : σ → List Line → List Line → List Line → σ) (base left right : Doc) (s : σ) :
    (mergeRun keep emit base left right s).isSome := by
  obtain ⟨steps, -, hrun⟩ := mergeRun_eq_some base left right
  rw [hrun]
  rfl

/-- Three-way merge of `left` and `right` against their common `base`. -/
def merge3 (base left right : Doc) : Merge :=
  let s := (mergeRun pushLine emitRegion base left right ([], [])).get (mergeRun_isSome ..)
  ⟨⟨s.1⟩, s.2⟩

/-! ## The regions of a merge -/

/-- Record one line of a stable run. -/
def recordLine (s : List CutStep × List Line) (line : Line) : List CutStep × List Line :=
  (s.1, s.2 ++ [line])

/-- Record a change region behind the run collected so far. -/
def recordRegion (s : List CutStep × List Line) (o lft rgt : List Line) :
    List CutStep × List Line :=
  (s.1 ++ [⟨s.2, o, lft, rgt⟩], [])

/-- The steps of the loop of `merge3`, instead of what they write. -/
def mergeCut (base left right : Doc) : List CutStep :=
  ((mergeRun recordLine recordRegion base left right ([], [])).get (mergeRun_isSome ..)).1

namespace CutStep

/-- What a step writes: its run, then the side that changed, or both between
    markers when they changed differently. -/
def output (step : CutStep) : List Line :=
  step.run ++
    if step.left = step.base then step.right
    else if step.right = step.base ∨ step.left = step.right then step.left
    else [conflictStart] ++ step.left ++ [conflictSep] ++ step.right ++ [conflictEnd]

/-- The conflict of a step whose region both sides changed differently. -/
def conflicts (step : CutStep) : List Conflict :=
  if step.left = step.base ∨ step.right = step.base ∨ step.left = step.right then []
  else [⟨step.base, step.left, step.right⟩]

end CutStep

private theorem foldl_pushLine (s : List Line × List Conflict) (run : List Line) :
    run.foldl pushLine s = (s.1 ++ run, s.2) := by
  induction run generalizing s with
  | nil => simp
  | cons x run ih => simp [ih, pushLine]

private theorem foldl_recordLine (s : List CutStep × List Line) (run : List Line) :
    run.foldl recordLine s = (s.1, s.2 ++ run) := by
  induction run generalizing s with
  | nil => simp
  | cons x run ih => simp [ih, recordLine]

private theorem emitRegion_eq (s : List Line × List Conflict) (step : CutStep) :
    emitRegion (s.1 ++ step.run, s.2) step.base step.left step.right =
      (s.1 ++ step.output, s.2 ++ step.conflicts) := by
  simp only [emitRegion, CutStep.output, CutStep.conflicts]
  by_cases hl : step.left = step.base
  · simp [hl]
  · by_cases hr : step.right = step.base ∨ step.left = step.right <;> simp [hl, hr]

private theorem runSteps_emitRegion (s : List Line × List Conflict) (steps : List CutStep) :
    runSteps pushLine emitRegion s steps =
      (s.1 ++ steps.flatMap CutStep.output, s.2 ++ steps.flatMap CutStep.conflicts) := by
  induction steps generalizing s with
  | nil => simp [runSteps]
  | cons step steps ih =>
      have hstep : runSteps pushLine emitRegion s (step :: steps) =
          runSteps pushLine emitRegion (s.1 ++ step.output, s.2 ++ step.conflicts) steps := by
        rw [← emitRegion_eq, ← foldl_pushLine]
        rfl
      rw [hstep, ih]
      simp

private theorem runSteps_recordRegion (done steps : List CutStep) :
    runSteps recordLine recordRegion (done, []) steps = (done ++ steps, []) := by
  induction steps generalizing done with
  | nil => simp [runSteps]
  | cons step steps ih =>
      have hstep : runSteps recordLine recordRegion (done, []) (step :: steps) =
          runSteps recordLine recordRegion (done ++ [step], []) steps := by
        simp [runSteps, foldl_recordLine, recordRegion]
      rw [hstep, ih]
      simp

theorem isCut_mergeCut (base left right : Doc) :
    IsCut base.lines left.lines right.lines (mergeCut base left right) := by
  obtain ⟨steps, hcut, hrun⟩ := mergeRun_eq_some base left right
  simpa [mergeCut, hrun, runSteps_recordRegion] using hcut

theorem mergeRun_emitRegion (base left right : Doc) :
    mergeRun pushLine emitRegion base left right ([], []) =
      some ((mergeCut base left right).flatMap CutStep.output,
        (mergeCut base left right).flatMap CutStep.conflicts) := by
  obtain ⟨steps, -, hrun⟩ := mergeRun_eq_some base left right
  simp [mergeCut, hrun, runSteps_emitRegion, runSteps_recordRegion]

theorem merge3_eq (base left right : Doc) :
    merge3 base left right = ⟨⟨(mergeCut base left right).flatMap CutStep.output⟩,
      (mergeCut base left right).flatMap CutStep.conflicts⟩ := by
  simp [merge3, mergeRun_emitRegion]

/-- A cut loses no line of any of the three documents. -/
theorem IsCut.flatMap_eq {b l r : List Line} {steps : List CutStep} (h : IsCut b l r steps) :
    steps.flatMap (fun s => s.run ++ s.base) = b ∧
      steps.flatMap (fun s => s.run ++ s.left) = l ∧
        steps.flatMap (fun s => s.run ++ s.right) = r := by
  induction h with
  | trailing run l r => simp
  | unanchored run o l r => simp
  | anchored run o lf rt x b l r tail next steps hl hr hnext hcut ih =>
      obtain ⟨hb, hl, hr⟩ := ih
      refine ⟨?_, ?_, ?_⟩
      · rw [List.flatMap_cons, hb, List.append_assoc]
      · rw [List.flatMap_cons, hl, List.append_assoc]
      · rw [List.flatMap_cons, hr, List.append_assoc]

/-! ## Taking one side -/

/-- Documents that are alike are so in every region of a cut. -/
theorem IsCut.alike {b l r : List Line} {steps : List CutStep} (h : IsCut b l r steps) :
    (b = l → ∀ s ∈ steps, s.left = s.base) ∧ (b = r → ∀ s ∈ steps, s.right = s.base) ∧
      (l = r → ∀ s ∈ steps, s.left = s.right) := by
  have hcons : ∀ {P : CutStep → Prop} {step : CutStep} {steps : List CutStep}, P step →
      (∀ s ∈ steps, P s) → ∀ s ∈ step :: steps, P s := fun hstep hsteps =>
    List.forall_mem_cons.mpr ⟨hstep, hsteps⟩
  induction h with
  | trailing run l r => simp [eq_comm]
  | unanchored run o l r => simp [eq_comm]
  | anchored run o lf rt x b l r tail next steps hml hmr hnext hcut ih =>
      obtain ⟨hleft, hright, hsides⟩ := ih
      refine ⟨fun heq => ?_, fun heq => ?_, fun heq => ?_⟩
      · have hrest := List.append_cancel_left heq
        rw [hrest] at hml
        obtain ⟨rfl, hsuffix⟩ := List.append_inj hrest (Lcs.eq_of_mem_walk_self hml)
        exact hcons rfl (hleft hsuffix)
      · have hrest := List.append_cancel_left heq
        rw [hrest] at hmr
        obtain ⟨rfl, hsuffix⟩ := List.append_inj hrest (Lcs.eq_of_mem_walk_self hmr)
        exact hcons rfl (hright hsuffix)
      · have hrest := List.append_cancel_left heq
        rw [hrest] at hml
        obtain ⟨rfl, hsuffix⟩ := List.append_inj hrest (Lcs.snd_eq_of_mem_walk hml hmr)
        exact hcons rfl (hsides hsuffix)

/-- Where the right side has followed every change of the left, a merge takes it. -/
theorem merge3_takes_right {base left right : Doc}
    (h : ∀ s ∈ mergeCut base left right, s.left = s.base ∨ s.left = s.right) :
    merge3 base left right = ⟨right, []⟩ := by
  rw [merge3_eq]
  congr 1
  · refine congrArg Doc.mk (Eq.trans (List.flatMap_congr fun s hs => ?_)
      (isCut_mergeCut base left right).flatMap_eq.2.2)
    unfold CutStep.output
    split
    · rfl
    · rename_i hleft
      have hsame := (h s hs).resolve_left hleft
      rw [if_pos (.inr hsame), hsame]
  · refine List.flatMap_eq_nil_iff.mpr fun s hs => ?_
    unfold CutStep.conflicts
    exact if_pos ((h s hs).imp_right .inr)

/-- A merge against the base takes the other side. -/
theorem merge3_base_left (base right : Doc) : merge3 base base right = ⟨right, []⟩ :=
  merge3_takes_right fun s hs => .inl ((isCut_mergeCut base base right).alike.1 rfl s hs)

theorem merge3_base_right (base left : Doc) : merge3 base left base = ⟨left, []⟩ := by
  have hcut := isCut_mergeCut base left base
  have hregion := hcut.alike.2.1 rfl
  rw [merge3_eq]
  congr 1
  · refine congrArg Doc.mk (Eq.trans (List.flatMap_congr fun s hs => ?_) hcut.flatMap_eq.2.1)
    unfold CutStep.output
    split
    · rename_i hleft
      rw [hregion s hs, hleft]
    · rw [if_pos (.inl (hregion s hs))]
  · refine List.flatMap_eq_nil_iff.mpr fun s hs => ?_
    unfold CutStep.conflicts
    exact if_pos (.inr (.inl (hregion s hs)))

/-- A merge of two sides that are alike takes them. -/
theorem merge3_same (base side : Doc) : merge3 base side side = ⟨side, []⟩ :=
  merge3_takes_right fun s hs => .inr ((isCut_mergeCut base side side).alike.2.2 rfl s hs)

/-! ## Exchanging the sides -/

def Conflict.swap (c : Conflict) : Conflict := ⟨c.base, c.right, c.left⟩

def Row.swap (row : Row) : Row := ⟨row.line, row.right, row.left⟩

def CutStep.swap (step : CutStep) : CutStep := ⟨step.run, step.base, step.right, step.left⟩

theorem Row.anchored_swap (row : Row) : row.swap.anchored = row.anchored := Bool.and_comm _ _

theorem rows_swap (b : List Line) (la lb : List (Option Nat)) : rows b lb la = (rows b la lb).map Row.swap := by
  induction b generalizing la lb with
  | nil => rfl
  | cons x b ih =>
      cases la with
      | nil => cases lb <;> rfl
      | cons p la =>
          cases lb with
          | nil => rfl
          | cons q lb => exact congrArg (Row.swap ⟨x, p, q⟩ :: ·) (ih la lb)

section

variable {σ : Type} (keep : σ → Line → σ) (emit : σ → List Line → List Line → List Line → σ)

private theorem stableRun_swap (rows : List Row) (a bx : Nat) (s : σ) :
    stableRun keep (rows.map Row.swap) bx a s =
      let (rows, a, bx, s) := stableRun keep rows a bx s
      (rows.map Row.swap, bx, a, s) := by
  induction rows generalizing a bx s with
  | nil => rfl
  | cons row rows ih =>
      simp only [List.map_cons, stableRun]
      by_cases hmatch : row.left = some a ∧ row.right = some bx
      · have hmatch' : row.swap.left = some bx ∧ row.swap.right = some a := ⟨hmatch.2, hmatch.1⟩
        simp only [if_pos hmatch, if_pos hmatch']
        exact ih (a + 1) (bx + 1) (keep s row.line)
      · have hmatch' : ¬(row.swap.left = some bx ∧ row.swap.right = some a) := fun h => hmatch ⟨h.2, h.1⟩
        simp only [if_neg hmatch, if_neg hmatch']
        rfl

/-- The loop over exchanged sides does what it does with the sides as they were, given to it exchanged. -/
private theorem mergeLoop_swap (l r : List Line) (fuel : Nat) (rows : List Row) (a bx : Nat) (s : σ) :
    mergeLoop keep emit r l fuel (rows.map Row.swap) bx a s =
      mergeLoop keep (fun s o lft rgt => emit s o rgt lft) l r fuel rows a bx s := by
  induction fuel generalizing rows a bx s with
  | zero => rfl
  | succ fuel ih =>
      unfold mergeLoop
      rw [stableRun_swap]
      obtain ⟨rows, a, bx, s⟩ := stableRun keep rows a bx s
      have hpast : (rows.map Row.swap).dropWhile (fun row => !row.anchored) =
          (rows.dropWhile fun row => !row.anchored).map Row.swap := by
        rw [List.dropWhile_map]
        simp only [Function.comp_def, Row.anchored_swap]
      have hbefore : ((rows.map Row.swap).takeWhile fun row => !row.anchored).map Row.line =
          (rows.takeWhile fun row => !row.anchored).map Row.line := by
        rw [List.takeWhile_map, List.map_map]
        simp only [Function.comp_def, Row.anchored_swap]
        rfl
      have hboth : ∀ {x y : Option (List Line)} {f : List Line → List Line → Option σ},
          (do let v ← y; let u ← x; f u v) = (do let u ← x; let v ← y; f u v) := by
        intro x y f
        cases x <;> cases y <;> rfl
      simp only [List.isEmpty_map, hpast, hbefore]
      split
      · exact hboth
      · cases hrest : rows.dropWhile fun row => !row.anchored with
        | nil =>
            simp only [List.map_nil]
            rw [hboth]
            exact bind_congr fun lft => bind_congr fun rgt => ih [] l.length r.length _
        | cons row rest =>
            simp only [List.map_cons]
            rw [hboth]
            exact bind_congr fun lft => bind_congr fun rgt => ih (row :: rest) _ _ _
end

/-- The steps of a merge with exchanged sides are those of the merge with their sides exchanged. -/
theorem mergeCut_swap (base left right : Doc) :
    mergeCut base right left = (mergeCut base left right).map CutStep.swap := by
  obtain ⟨steps, -, hrun⟩ := mergeRun_eq_some base left right
  have hswap : mergeRun recordLine recordRegion base right left ([], []) =
      mergeRun recordLine (fun s o lft rgt => recordRegion s o rgt lft) base left right ([], []) := by
    simp only [mergeRun]
    rw [rows_swap]
    exact mergeLoop_swap ..
  have hsteps : ∀ (done steps : List CutStep),
      runSteps recordLine (fun s o lft rgt => recordRegion s o rgt lft) (done, []) steps =
        (done ++ steps.map CutStep.swap, []) := by
    intro done steps
    induction steps generalizing done with
    | nil => simp [runSteps]
    | cons step steps ih =>
        have hstep : runSteps recordLine (fun s o lft rgt => recordRegion s o rgt lft) (done, []) (step :: steps) =
            runSteps recordLine (fun s o lft rgt => recordRegion s o rgt lft) (done ++ [step.swap], []) steps := by
          simp [runSteps, foldl_recordLine, recordRegion, CutStep.swap]
        rw [hstep, ih]
        simp
  simp only [mergeCut, hswap, hrun, hsteps, runSteps_recordRegion, Option.get_some, List.nil_append]

namespace CutStep

theorem conflicts_swap (step : CutStep) : step.swap.conflicts = step.conflicts.map Conflict.swap := by
  have hsettled : (step.right = step.base ∨ step.left = step.base ∨ step.right = step.left) ↔
      (step.left = step.base ∨ step.right = step.base ∨ step.left = step.right) := by
    rw [or_left_comm, @eq_comm _ step.right step.left]
  unfold conflicts
  simp only [swap, hsettled]
  split
  · rfl
  · rfl

/-- A region that is no conflict is settled in the same way. -/
theorem output_swap {step : CutStep} (h : step.conflicts = []) : step.swap.output = step.output := by
  unfold conflicts at h
  split at h
  · rename_i hsettled
    unfold output swap
    simp only
    by_cases hl : step.left = step.base
    · rw [if_pos hl]
      split
      · rename_i hr
        rw [hl, hr]
      · rw [if_pos (.inl hl)]
    · have hr := hsettled.resolve_left hl
      rw [if_neg hl, if_pos hr]
      split
      · rfl
      · rename_i hne
        have hsame := hr.resolve_left hne
        rw [if_pos (.inr hsame.symm), hsame]
  · cases h

end CutStep

/-- Merge symmetry: exchanging the sides exchanges them in every conflict, in the same order, and a merge
    without conflicts stays the same. -/
theorem merge3_symmetric (base left right : Doc) :
    (merge3 base right left).conflicts.length = (merge3 base left right).conflicts.length ∧
    (merge3 base right left).conflicts = (merge3 base left right).conflicts.map Conflict.swap ∧
    ((merge3 base left right).conflicts = [] →
      (merge3 base right left).merged = (merge3 base left right).merged) := by
  have hconflicts : (merge3 base right left).conflicts = (merge3 base left right).conflicts.map Conflict.swap := by
    simp only [merge3_eq, mergeCut_swap base left right, List.flatMap_map, List.map_flatMap, CutStep.conflicts_swap]
  refine ⟨?_, hconflicts, fun hclean => ?_⟩
  · rw [hconflicts, List.length_map]
  · simp only [merge3_eq, List.flatMap_eq_nil_iff] at hclean
    simp only [merge3_eq, mergeCut_swap base left right, List.flatMap_map]
    exact congrArg Doc.mk (List.flatMap_congr fun step hstep => CutStep.output_swap (hclean step hstep))

/-- Take-one-side identities. -/
theorem merge3_one_side (base side : Doc) :
    merge3 base side base = ⟨side, []⟩ ∧ merge3 base base side = ⟨side, []⟩ ∧ merge3 base side side = ⟨side, []⟩ :=
  ⟨merge3_base_right base side, merge3_base_left base side, merge3_same base side⟩

/-! ## Soundness -/

/-- Merge soundness: the three documents are cut into stable runs and change regions,
    in step and without a line left over; the merge is what the pieces write, and
    its conflicts are the regions both sides changed differently. The loop behind it
    ends and takes no slice out of range. -/
theorem merge3_sound (base left right : Doc) :
    ∃ steps : List CutStep,
      steps.flatMap (fun s => s.run ++ s.base) = base.lines ∧
      steps.flatMap (fun s => s.run ++ s.left) = left.lines ∧
      steps.flatMap (fun s => s.run ++ s.right) = right.lines ∧
      (merge3 base left right).merged.lines = steps.flatMap CutStep.output ∧
      (merge3 base left right).conflicts = steps.flatMap CutStep.conflicts ∧
      mergeRun pushLine emitRegion base left right ([], []) =
        some ((merge3 base left right).merged.lines, (merge3 base left right).conflicts) := by
  obtain ⟨hb, hl, hr⟩ := (isCut_mergeCut base left right).flatMap_eq
  refine ⟨mergeCut base left right, hb, hl, hr, ?_, ?_, ?_⟩
  · rw [merge3_eq]
  · rw [merge3_eq]
  · rw [merge3_eq, mergeRun_emitRegion]

end Omoplata
