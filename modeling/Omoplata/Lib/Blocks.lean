-- SUMMARY: Blocks of two parts between start, separator and stop items of a list, without nesting.
import Mathlib.Data.List.Basic

/-!
# Blocks in a list

The items of a list are told apart by a kind. A block is a start item, the items of its
first part, a separator, the items of its second part and a stop item. A scan reads the
blocks of a list; it fails on a delimiter out of place, so blocks do not nest.
-/

namespace Omoplata

namespace Blocks

/-- What an item is to the scan. -/
inductive Kind where
  | start
  | sep
  | stop
  | plain
  deriving DecidableEq, Repr

/-- Where the scan is: between blocks, or in a part of one, with the items of the block so far. -/
inductive State (α : Type) where
  | closed
  | first (xs : List α)
  | second (xs ys : List α)
  deriving DecidableEq

/-- A block as its two parts. -/
abbrev Block (α : Type) := List α × List α

section

variable {α : Type} (kind : α → Kind)

/-- The scan of one item. -/
def step : State α × List (Block α) → α → Option (State α × List (Block α))
  | (.closed, bs), x =>
      match kind x with
      | .start => some (.first [], bs)
      | .plain => some (.closed, bs)
      | _ => none
  | (.first xs, bs), x =>
      match kind x with
      | .sep => some (.second xs [], bs)
      | .plain => some (.first (xs ++ [x]), bs)
      | _ => none
  | (.second xs ys, bs), x =>
      match kind x with
      | .stop => some (.closed, bs ++ [(xs, ys)])
      | .plain => some (.second xs (ys ++ [x]), bs)
      | _ => none

/-- The scan of a list. -/
def scan (s : State α × List (Block α)) (xs : List α) : Option (State α × List (Block α)) := xs.foldlM (step kind) s

/-- A list with these blocks, and every delimiter in its place. -/
def Reads (xs : List α) (bs : List (Block α)) : Prop := scan kind (.closed, []) xs = some (.closed, bs)

/-- The items of the part a scan is in. -/
def State.items : State α → List α
  | .closed => []
  | .first xs => xs
  | .second xs ys => xs ++ ys

/-- No part that has been read holds a delimiter. -/
structure PlainParts (s : State α × List (Block α)) : Prop where
  part : ∀ x ∈ s.1.items, kind x = .plain
  blocks : ∀ b ∈ s.2, ∀ x ∈ b.1 ++ b.2, kind x = .plain

end

section

variable {α : Type} {kind : α → Kind} {xs ys : List α} {x y : α} {bs cs : List (Block α)}

theorem scan_nil (s : State α × List (Block α)) : scan kind s [] = some s := rfl

theorem scan_cons (s : State α × List (Block α)) (x : α) (xs : List α) :
    scan kind s (x :: xs) = (step kind s x).bind fun s => scan kind s xs := rfl

theorem scan_append (s : State α × List (Block α)) (xs ys : List α) :
    scan kind s (xs ++ ys) = (scan kind s xs).bind fun s => scan kind s ys := List.foldlM_append

/-- The blocks read so far do not matter to the scan. -/
theorem step_shift (st : State α) (bs cs : List (Block α)) (x : α) :
    step kind (st, bs ++ cs) x = (step kind (st, cs) x).map fun s => (s.1, bs ++ s.2) := by
  cases st <;> simp only [step] <;> cases kind x <;> simp

theorem scan_shift (st : State α) (bs cs : List (Block α)) (xs : List α) :
    scan kind (st, bs ++ cs) xs = (scan kind (st, cs) xs).map fun s => (s.1, bs ++ s.2) := by
  induction xs generalizing st cs with
  | nil => rfl
  | cons x xs ih =>
      rw [scan_cons, scan_cons, step_shift]
      cases hstep : step kind (st, cs) x with
      | none => rfl
      | some s => exact ih s.1 s.2

theorem Reads.behind (h : Reads kind xs cs) (bs : List (Block α)) :
    scan kind (.closed, bs) xs = some (.closed, bs ++ cs) := by
  have hshift : scan kind (.closed, bs) xs = (scan kind (.closed, []) xs).map fun s => (s.1, bs ++ s.2) := by
    conv_lhs => rw [← List.append_nil bs]
    exact scan_shift .closed bs [] xs
  rw [hshift, show scan kind (.closed, []) xs = some (.closed, cs) from h]
  rfl

theorem Reads.append (hx : Reads kind xs bs) (hy : Reads kind ys cs) : Reads kind (xs ++ ys) (bs ++ cs) := by
  unfold Reads
  rw [scan_append, show scan kind (.closed, []) xs = some (.closed, bs) from hx]
  exact hy.behind bs

/-- Plain items have no block. -/
theorem reads_plain (h : ∀ x ∈ xs, kind x = .plain) : Reads kind xs [] := by
  induction xs with
  | nil => rfl
  | cons x xs ih =>
      have hx := h x List.mem_cons_self
      unfold Reads
      rw [scan_cons, step, hx]
      exact ih fun y hy => h y (List.mem_cons_of_mem _ hy)

theorem scan_first (h : ∀ x ∈ ys, kind x = .plain) (xs : List α) (bs : List (Block α)) :
    scan kind (.first xs, bs) ys = some (.first (xs ++ ys), bs) := by
  induction ys generalizing xs with
  | nil => rw [List.append_nil, scan_nil]
  | cons y ys ih =>
      rw [scan_cons, step, h y List.mem_cons_self]
      show scan kind (.first (xs ++ [y]), bs) ys = _
      rw [ih fun z hz => h z (List.mem_cons_of_mem _ hz), List.append_assoc, List.singleton_append]

theorem scan_second {zs : List α} (h : ∀ x ∈ zs, kind x = .plain) (xs ys : List α) (bs : List (Block α)) :
    scan kind (.second xs ys, bs) zs = some (.second xs (ys ++ zs), bs) := by
  induction zs generalizing ys with
  | nil => rw [List.append_nil, scan_nil]
  | cons z zs ih =>
      rw [scan_cons, step, h z List.mem_cons_self]
      show scan kind (.second xs (ys ++ [z]), bs) zs = _
      rw [ih fun z' hz => h z' (List.mem_cons_of_mem _ hz), List.append_assoc, List.singleton_append]

/-- A block with its delimiters is read as its parts. -/
theorem reads_block {start sep stop : α} (hstart : kind start = .start) (hx : ∀ x ∈ xs, kind x = .plain)
    (hsep : kind sep = .sep) (hy : ∀ y ∈ ys, kind y = .plain) (hstop : kind stop = .stop) :
    Reads kind (start :: (xs ++ sep :: (ys ++ [stop]))) [(xs, ys)] := by
  unfold Reads
  rw [scan_cons, step, hstart]
  show scan kind (.first [], []) (xs ++ sep :: (ys ++ [stop])) = _
  rw [scan_append, scan_first hx]
  show scan kind (.first ([] ++ xs), []) (sep :: (ys ++ [stop])) = _
  rw [scan_cons, step, hsep]
  show scan kind (.second ([] ++ xs) [], []) (ys ++ [stop]) = _
  rw [scan_append, scan_second hy]
  show scan kind (.second ([] ++ xs) ([] ++ ys), []) [stop] = _
  rw [scan_cons, step, hstop]
  rfl

/-- The first item only counts by its kind. -/
theorem Reads.replace_first (h : Reads kind (x :: xs) bs) (hkind : kind y = kind x) : Reads kind (y :: xs) bs := by
  unfold Reads at h ⊢
  rw [scan_cons, step, hkind]
  rwa [scan_cons, step] at h

/-- The last item is plain or stops a block. -/
theorem Reads.replace_last (h : Reads kind (xs ++ [x]) bs) (hplain : kind x = .plain → kind y = .plain)
    (hstop : kind x = .stop → kind y = .stop) : Reads kind (xs ++ [y]) bs := by
  unfold Reads at h ⊢
  rw [scan_append] at h ⊢
  cases hscan : scan kind (.closed, []) xs with
  | none => simp [hscan] at h
  | some s =>
      obtain ⟨st, cs⟩ := s
      rw [hscan] at h
      change scan kind (st, cs) [x] = _ at h
      show scan kind (st, cs) [y] = _
      rw [scan_cons] at h ⊢
      cases st with
      | closed => cases hx : kind x <;> simp [step, hx, scan_nil, hplain] at h ⊢; exact h
      | first zs => cases hx : kind x <;> simp [step, hx, scan_nil] at h
      | second zs ws => cases hx : kind x <;> simp [step, hx, scan_nil, hstop] at h ⊢; exact h

/-- What is read in front of a plain item. -/
theorem Reads.of_concat_plain (h : Reads kind (xs ++ [x]) bs) (hx : kind x = .plain) : Reads kind xs bs := by
  unfold Reads at h ⊢
  rw [scan_append] at h
  cases hscan : scan kind (.closed, []) xs with
  | none => simp [hscan] at h
  | some s =>
      obtain ⟨st, cs⟩ := s
      rw [hscan] at h
      change scan kind (st, cs) [x] = _ at h
      rw [scan_cons] at h
      cases st with
      | closed => simpa [step, hx, scan_nil] using h
      | first zs => simp [step, hx, scan_nil] at h
      | second zs ws => simp [step, hx, scan_nil] at h

theorem PlainParts.step {s s' : State α × List (Block α)} (hs : PlainParts kind s) (h : step kind s x = some s') :
    PlainParts kind s' := by
  obtain ⟨st, cs⟩ := s
  obtain ⟨hpart, hblocks⟩ := hs
  have hgrow : ∀ zs : List α, (∀ z ∈ zs, kind z = .plain) → kind x = .plain → ∀ z ∈ zs ++ [x], kind z = .plain := by
    intro zs hzs hx z hz
    rcases List.mem_append.mp hz with hz | hz
    · exact hzs z hz
    · exact List.mem_singleton.mp hz ▸ hx
  cases st with
  | closed => cases hx : kind x <;> simp only [Blocks.step, hx, Option.some.injEq, reduceCtorEq] at h <;>
      exact h ▸ ⟨nofun, hblocks⟩
  | first xs =>
      cases hx : kind x <;> simp only [Blocks.step, hx, Option.some.injEq, reduceCtorEq] at h
      · exact h ▸ ⟨by simpa [State.items] using hpart, hblocks⟩
      · exact h ▸ ⟨hgrow xs hpart hx, hblocks⟩
  | second xs ys =>
      cases hx : kind x <;> simp only [Blocks.step, hx, Option.some.injEq, reduceCtorEq] at h
      · refine h ▸ ⟨nofun, fun b hb => ?_⟩
        rcases List.mem_append.mp hb with hb | hb
        · exact hblocks b hb
        · exact List.mem_singleton.mp hb ▸ hpart
      · refine h ▸ ⟨?_, hblocks⟩
        simp only [State.items, ← List.append_assoc]
        exact hgrow (xs ++ ys) hpart hx

/-- The parts of a block hold no delimiter. -/
theorem scan_parts_plain {s s' : State α × List (Block α)} (h : scan kind s xs = some s') (hs : PlainParts kind s) :
    PlainParts kind s' := by
  induction xs generalizing s with
  | nil => exact Option.some.inj h ▸ hs
  | cons x xs ih =>
      rw [scan_cons] at h
      obtain ⟨t, hstep, hrest⟩ := Option.bind_eq_some_iff.mp h
      exact ih hrest (hs.step hstep)

theorem Reads.parts_plain (h : Reads kind xs bs) : ∀ b ∈ bs, ∀ x ∈ b.1 ++ b.2, kind x = .plain :=
  (scan_parts_plain h ⟨nofun, nofun⟩).blocks

end

end Blocks

end Omoplata
