-- SUMMARY: Words of brackets: the levels they reach, and brackets put around parts of them.
import Mathlib.Data.List.Basic
import Mathlib.Algebra.Order.Group.Int

/-!
# Words of brackets

A word is a list of brackets, `true` for an opening one. Read from a level, it climbs
with each opening bracket and falls with each closing one. Putting brackets around parts
of a word adds a level to those parts and moves nothing else.
-/

namespace Omoplata

namespace Brackets

/-- The level behind a bracket. -/
def step (d : Int) (b : Bool) : Int := if b then d + 1 else d - 1

/-- The level behind a word. -/
def level (d : Int) : List Bool → Int
  | [] => d
  | b :: w => level (step d b) w

/-- The levels behind each bracket of a word. -/
def levels (d : Int) : List Bool → List Int
  | [] => []
  | b :: w => step d b :: levels (step d b) w

/-- A word that never falls below level zero. -/
def Nonneg (d : Int) (w : List Bool) : Prop := ∀ l ∈ levels d w, 0 ≤ l

/-- A word that never climbs above level one. -/
def Flat (d : Int) (w : List Bool) : Prop := ∀ l ∈ levels d w, l ≤ 1

theorem level_append (d : Int) (u v : List Bool) : level d (u ++ v) = level (level d u) v := by
  induction u generalizing d with
  | nil => rfl
  | cons b u ih => exact ih (step d b)

theorem levels_append (d : Int) (u v : List Bool) : levels d (u ++ v) = levels d u ++ levels (level d u) v := by
  induction u generalizing d with
  | nil => rfl
  | cons b u ih => exact congrArg (step d b :: ·) (ih (step d b))

theorem step_succ (d : Int) (b : Bool) : step (d + 1) b = step d b + 1 := by
  unfold step
  split <;> omega

/-- A word read from one level higher stays one level higher. -/
theorem level_succ (d : Int) (w : List Bool) : level (d + 1) w = level d w + 1 := by
  induction w generalizing d with
  | nil => rfl
  | cons b w ih => rw [level, step_succ, ih, level]

theorem levels_succ (d : Int) (w : List Bool) : levels (d + 1) w = (levels d w).map (· + 1) := by
  induction w generalizing d with
  | nil => rfl
  | cons b w ih => rw [levels, step_succ, ih, levels, List.map_cons]

theorem nonneg_append {d : Int} {u v : List Bool} :
    Nonneg d (u ++ v) ↔ Nonneg d u ∧ Nonneg (level d u) v := by
  unfold Nonneg
  rw [levels_append, List.forall_mem_append]

theorem flat_append {d : Int} {u v : List Bool} : Flat d (u ++ v) ↔ Flat d u ∧ Flat (level d u) v := by
  unfold Flat
  rw [levels_append, List.forall_mem_append]

theorem Nonneg.succ {d : Int} {w : List Bool} (h : Nonneg d w) : Nonneg (d + 1) w := by
  intro l hl
  rw [levels_succ] at hl
  obtain ⟨l', hl', rfl⟩ := List.mem_map.mp hl
  exact Int.le_add_one (h l' hl')

theorem Nonneg.level {d : Int} {w : List Bool} (h : Nonneg d w) (hd : 0 ≤ d) : 0 ≤ level d w := by
  induction w generalizing d with
  | nil => exact hd
  | cons b w ih => exact ih (fun l hl => h l (List.mem_cons_of_mem _ hl)) (h _ List.mem_cons_self)

/-! ## Brackets around parts of a word -/

/-- The parts of a word, each with whether brackets are put around it. -/
abbrev Parts := List (Bool × List Bool)

/-- The word the parts make. -/
def plain (ps : Parts) : List Bool := ps.flatMap Prod.snd

/-- A part with the brackets put around it. -/
def wrap (p : Bool × List Bool) : List Bool := if p.1 then true :: (p.2 ++ [false]) else p.2

/-- The word with the brackets put in. -/
def wrapped (ps : Parts) : List Bool := ps.flatMap wrap

/-- Brackets are only put in at level zero, with nothing between them. -/
def Apart (d : Int) : Parts → Prop
  | [] => True
  | p :: ps => (p.1 = true → d = 0 ∧ p.2 = []) ∧ Apart (level d p.2) ps

theorem level_wrap (d : Int) (p : Bool × List Bool) : level d (wrap p) = level d p.2 := by
  unfold wrap
  split
  · show level (d + 1) (p.2 ++ [false]) = level d p.2
    rw [level_append, level_succ]
    show level d p.2 + 1 - 1 = level d p.2
    omega
  · rfl

/-- Putting brackets in does not change the level behind a word. -/
theorem level_wrapped (d : Int) (ps : Parts) : level d (wrapped ps) = level d (plain ps) := by
  induction ps generalizing d with
  | nil => rfl
  | cons p ps ih =>
      show level d (wrap p ++ wrapped ps) = level d (p.2 ++ plain ps)
      rw [level_append, level_append, level_wrap, ih]

theorem nonneg_wrap {d : Int} {p : Bool × List Bool} (hd : 0 ≤ d) (h : Nonneg d p.2) : Nonneg d (wrap p) := by
  unfold wrap
  split
  · have hlevel := h.level hd
    intro l hl
    rw [levels, levels_append, show step d true = d + 1 from rfl, level_succ] at hl
    rcases List.mem_cons.mp hl with rfl | hl
    · omega
    · rcases List.mem_append.mp hl with hl | hl
      · exact h.succ l hl
      · obtain rfl := List.mem_singleton.mp hl
        show 0 ≤ level d p.2 + 1 - 1
        omega
  · exact h

/-- A word that does not fall below zero does not with brackets put in either. -/
theorem nonneg_wrapped {d : Int} {ps : Parts} (hd : 0 ≤ d) (h : Nonneg d (plain ps)) : Nonneg d (wrapped ps) := by
  induction ps generalizing d with
  | nil => exact h
  | cons p ps ih =>
      obtain ⟨hfirst, hrest⟩ := nonneg_append.mp (show Nonneg d (p.2 ++ plain ps) from h)
      refine nonneg_append.mpr ⟨nonneg_wrap hd hfirst, ?_⟩
      rw [level_wrap]
      exact ih (hfirst.level hd) hrest

/-- A word without a bracket that would close below zero, and none that opens above one, is
    empty at level one. -/
theorem flat_wrap_iff {d : Int} {p : Bool × List Bool} (hd : 0 ≤ d) (h : Nonneg d p.2) :
    Flat d (wrap p) ↔ Flat d p.2 ∧ (p.1 = true → d = 0 ∧ p.2 = []) := by
  obtain ⟨c, w⟩ := p
  cases c with
  | false => exact (and_iff_left nofun).symm
  | true =>
      constructor
      · intro hflat
        have hopen : d + 1 ≤ 1 := hflat _ List.mem_cons_self
        obtain rfl : d = 0 := by omega
        cases w with
        | nil => exact ⟨nofun, fun _ => ⟨rfl, rfl⟩⟩
        | cons b w =>
            -- the first bracket inside either opens a second level or closes below zero
            cases b with
            | true => exact absurd (hflat 2 (by simp [wrap, levels, step])) (by decide)
            | false => exact absurd (h (-1) (by simp [levels, step])) (by decide)
      · rintro ⟨-, hempty⟩
        obtain ⟨rfl, rfl⟩ := hempty rfl
        intro l hl
        have hlevels : levels 0 (wrap (true, [])) = [1, 0] := rfl
        simp only [hlevels, List.mem_cons, List.not_mem_nil, or_false] at hl
        omega

/-- With brackets put in a word stays flat exactly if it was, and each pair of them stands at
    level zero with nothing between. -/
theorem flat_wrapped_iff {d : Int} {ps : Parts} (hd : 0 ≤ d) (h : Nonneg d (plain ps)) :
    Flat d (wrapped ps) ↔ Flat d (plain ps) ∧ Apart d ps := by
  induction ps generalizing d with
  | nil => exact (and_iff_left trivial).symm
  | cons p ps ih =>
      obtain ⟨hfirst, hrest⟩ := nonneg_append.mp (show Nonneg d (p.2 ++ plain ps) from h)
      show Flat d (wrap p ++ wrapped ps) ↔ Flat d (p.2 ++ plain ps) ∧ _ ∧ _
      rw [flat_append, flat_append, level_wrap, flat_wrap_iff hd hfirst, ih (hfirst.level hd) hrest]
      exact and_and_and_comm

/-- Where brackets are put in, read off the parts before. -/
theorem apart_iff {d : Int} {ps : Parts} :
    Apart d ps ↔ ∀ before p after, ps = before ++ p :: after → p.1 = true → level d (plain before) = 0 ∧ p.2 = [] := by
  induction ps generalizing d with
  | nil => simp [Apart]
  | cons q ps ih =>
      rw [Apart, ih]
      constructor
      · rintro ⟨hfirst, hrest⟩ before p after heq hp
        cases before with
        | nil =>
            obtain ⟨rfl, rfl⟩ := List.cons.inj heq
            exact hfirst hp
        | cons r before =>
            obtain ⟨rfl, htail⟩ := List.cons.inj heq
            show level d (q.2 ++ plain before) = 0 ∧ _
            rw [level_append]
            exact hrest before p after htail hp
      · intro h
        refine ⟨fun hq => h [] q ps rfl hq, fun before p after heq hp => ?_⟩
        have := h (q :: before) p after (congrArg (q :: ·) heq) hp
        rwa [show plain (q :: before) = q.2 ++ plain before from rfl, level_append] at this

end Brackets

end Omoplata
