-- SUMMARY: Reading a connection piece by piece: a reader that waits until it has enough does not see the pieces.
import Mathlib.Data.List.Basic

/-!
# Reading piece by piece

A connection hands out what was sent in pieces of any size, until it is closed or fails. A
reader keeps what it has got, and reads on until that passes a test. Where more never fails
a test that less has passed, what the reader ends with does not depend on the pieces.
-/

universe u v

namespace Chunks

variable {α : Type u} {ε : Type v}

/-- What a connection still has for its reader. -/
inductive Conn (α : Type u) (ε : Type v) where
  | closed
  | failed (reason : ε)
  | piece (items : List α) (rest : Conn α ε)

/-- Read until there is enough, or until the connection ends. A read of nothing is the end. -/
def fill (enough : List α → Bool) : Conn α ε → List α → Except ε (List α × Conn α ε)
  | conn, got =>
      if enough got then .ok (got, conn)
      else
        match conn with
        | .closed => .ok (got, .closed)
        | .failed reason => .error reason
        | .piece items rest => if items.isEmpty then .ok (got, rest) else fill enough rest (got ++ items)

/-- A connection brings a list, in pieces, and then whatever else it brings. -/
inductive Delivers : List α → Conn α ε → Conn α ε → Prop
  | done {conn : Conn α ε} : Delivers [] conn conn
  | piece {items sent : List α} {conn rest : Conn α ε} (hne : items ≠ []) (h : Delivers sent conn rest) :
      Delivers (items ++ sent) (.piece items conn) rest

/-- More never fails a test that less has passed. -/
def Lasting (enough : List α → Bool) : Prop := ∀ got more, enough got = true → enough (got ++ more) = true

variable {enough : List α → Bool} {sent got : List α} {conn rest : Conn α ε}

theorem fill_of_enough (h : enough got = true) : fill enough conn got = .ok (got, conn) := by
  unfold fill
  exact if_pos h

theorem fill_piece {items : List α} (h : enough got = false) (hne : items ≠ []) :
    fill enough (.piece items conn) got = fill enough conn (got ++ items) := by
  have hempty : items.isEmpty = false := by simpa using hne
  rw [fill, if_neg (by simp [h])]
  simp only [hempty, Bool.false_eq_true, if_false]

/-- A reader that is brought enough stops there, with the rest of it still to come. -/
theorem fill_delivers (enough : List α → Bool) (got : List α) (h : Delivers sent conn rest) (henough : enough (got ++ sent) = true) :
    ∃ read left conn', fill enough conn got = .ok (read, conn') ∧ read ++ left = got ++ sent ∧
      enough read = true ∧ Delivers left conn' rest := by
  induction h generalizing got with
  | done =>
      rw [List.append_nil] at henough
      exact ⟨got, [], _, fill_of_enough henough, rfl, henough, .done⟩
  | @piece items sent conn rest hne h ih =>
      cases hnow : enough got with
      | true => exact ⟨got, items ++ sent, _, fill_of_enough hnow, rfl, hnow, .piece hne h⟩
      | false =>
          rw [← List.append_assoc] at henough
          obtain ⟨read, left, conn', hfill, hread, hstop, hleft⟩ := ih _ henough
          refine ⟨read, left, conn', ?_, ?_, hstop, hleft⟩
          · rw [fill_piece hnow hne, hfill]
          · rw [hread, List.append_assoc]

/-- A reader that is not brought enough ends with all there was. -/
theorem fill_short (got : List α) (h : Delivers sent conn .closed) (hlasting : Lasting enough) (hshort : enough (got ++ sent) = false) :
    fill enough conn got = .ok (got ++ sent, .closed) := by
  have hbefore : ∀ {got more : List α}, enough (got ++ more) = false → enough got = false := by
    intro got more hmore
    cases hnow : enough got with
    | false => rfl
    | true => rw [hlasting got more hnow] at hmore; cases hmore
  generalize hclosed : (Conn.closed : Conn α ε) = last at h
  induction h generalizing got with
  | done =>
      subst hclosed
      rw [List.append_nil] at hshort ⊢
      rw [fill, if_neg (by simp [hshort])]
  | @piece items sent conn rest hne h ih =>
      rw [fill_piece (hbefore hshort) hne, ih _ (by rwa [List.append_assoc]) hclosed, List.append_assoc]

/-! ## Looking for a slice -/

section

variable [DecidableEq α] {slice l : List α} {pos : Nat}

/-- The position at which a slice comes first. -/
def findSlice (slice : List α) : List α → Option Nat
  | [] => none
  | a :: l => if slice <+: a :: l then some 0 else (findSlice slice l).map (· + 1)

/-- A slice that is found is there in full. -/
theorem findSlice_le (h : findSlice slice l = some pos) : pos + slice.length ≤ l.length := by
  induction l generalizing pos with
  | nil => cases h
  | cons a l ih =>
      unfold findSlice at h
      split at h
      · rename_i hhere
        cases h
        rw [Nat.zero_add]
        exact hhere.length_le
      · obtain ⟨p, hp, rfl⟩ := Option.map_eq_some_iff.mp h
        have hle := ih hp
        rw [List.length_cons]
        omega

/-- What follows does not move a slice that has been found. -/
theorem findSlice_append (h : findSlice slice l = some pos) (more : List α) :
    findSlice slice (l ++ more) = some pos := by
  induction l generalizing pos with
  | nil => cases h
  | cons a l ih =>
      unfold findSlice at h
      rw [List.cons_append, findSlice]
      split at h
      · rename_i hhere
        have hfront : slice <+: a :: (l ++ more) := hhere.trans (List.prefix_append (a :: l) more)
        rw [if_pos hfront]
        exact h
      · rename_i hhere
        obtain ⟨p, hp, rfl⟩ := Option.map_eq_some_iff.mp h
        -- The slice lies further back, so there was room for it here, and it was not here.
        have hroom : slice.length ≤ (a :: l).length := by
          have hle := findSlice_le hp
          rw [List.length_cons]
          omega
        have hlater : ¬ slice <+: a :: (l ++ more) := fun hfront =>
          hhere (List.prefix_of_prefix_length_le hfront (List.prefix_append (a :: l) more) hroom)
        rw [if_neg hlater, ih hp]
        rfl

theorem lasting_findSlice (slice : List α) : Lasting fun l : List α => (findSlice slice l).isSome := by
  intro got more h
  obtain ⟨pos, hpos⟩ := Option.isSome_iff_exists.mp h
  simp only [findSlice_append hpos more, Option.isSome_some]

end

end Chunks
