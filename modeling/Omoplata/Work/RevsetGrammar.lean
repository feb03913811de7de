-- SUMMARY: The grammar of the revset language, and that the parser accepts exactly it.
import Mathlib.Data.List.TakeWhile
import Omoplata.Lib.Codec
import Omoplata.Work.RevsetParser

/-!
# The revset grammar

A text lexes as tokens by longest words, and tokens derive as an expression by productions
that are recursive to the left, so that `&` and `|` associate to the left. A derivation
drives the parser up to the tokens behind it: what the parser has read there goes on into
the loop of its level.
-/

namespace Omoplata

/-! ## The grammar -/

/-- A text whose tokens are these. A word goes as far as it can. -/
inductive Lexes : Str → List Token → Prop
  | nil : Lexes [] []
  | space {c : Char} {s : Str} {ts : List Token} (hc : isWhiteSpace c = true) (h : Lexes s ts) : Lexes (c :: s) ts
  | symbol {c : Char} {t : Token} {s : Str} {ts : List Token} (hc : symbol c = some t) (h : Lexes s ts) :
      Lexes (c :: s) (t :: ts)
  | word {w s : Str} {ts : List Token} (hne : w ≠ []) (hw : ∀ c ∈ w, isWordChar c = true)
      (hend : ∀ c ∈ s.head?, isWordChar c = false) (h : Lexes s ts) : Lexes (w ++ s) (.word w :: ts)

/-- A call of a known function. -/
inductive KnownCall : Str → Option Str → RevExpr → Prop
  | all : KnownCall "all".toList none .all
  | heads : KnownCall "heads".toList none .heads
  | draft : KnownCall "draft".toList none .draft
  | published : KnownCall "public".toList none .published
  | landed (arg : Option Str) : KnownCall "landed".toList arg (.landed (arg.getD "trunk".toList))

/-- A bare word: an id behind its prefix, or the name of a ref. -/
inductive Literal : Str → RevExpr → Prop
  | id {hex : Str} (hne : hex ≠ []) : Literal (idPrefix ++ hex) (.id hex)
  | ref {name : Str} (h : ¬ idPrefix <+: name) : Literal name (.ref name)

/-- A level of the grammar. -/
inductive Level where
  | or
  | and
  | unary
  | primary

/-- The tokens of a level that stand for an expression. -/
inductive Derives : Level → List Token → RevExpr → Prop
  | and {ts : List Token} {e : RevExpr} (h : Derives .and ts e) : Derives .or ts e
  | or {ts us : List Token} {l r : RevExpr} (hl : Derives .or ts l) (hr : Derives .and us r) :
      Derives .or (ts ++ .or :: us) (.or l r)
  | unary {ts : List Token} {e : RevExpr} (h : Derives .unary ts e) : Derives .and ts e
  | conj {ts us : List Token} {l r : RevExpr} (hl : Derives .and ts l) (hr : Derives .unary us r) :
      Derives .and (ts ++ .and :: us) (.and l r)
  | not {ts : List Token} {e : RevExpr} (h : Derives .unary ts e) : Derives .unary (.not :: ts) (.not e)
  | primary {ts : List Token} {e : RevExpr} (h : Derives .primary ts e) : Derives .unary ts e
  | paren {ts : List Token} {e : RevExpr} (h : Derives .or ts e) : Derives .primary (.lparen :: (ts ++ [.rparen])) e
  | call {word : Str} {arg : Option Str} {e : RevExpr} (h : KnownCall word arg e) :
      Derives .primary (.word word :: .lparen :: ((arg.map Token.word).toList ++ [.rparen])) e
  | word {w : Str} {e : RevExpr} (h : Literal w e) : Derives .primary [.word w] e

/-! ## The tokenizer -/

theorem symbol_apart {c : Char} {t : Token} (h : symbol c = some t) :
    isWhiteSpace c = false ∧ isWordChar c = false := by
  unfold symbol at h
  split at h
  case h_6 => cases h
  all_goals decide

theorem isWordChar_apart {c : Char} (h : isWordChar c = true) : isWhiteSpace c = false ∧ symbol c = none := by
  constructor
  · have hle : ∀ n : UInt32, (n ≤ c.val ↔ n.toNat ≤ c.toNat) ∧ (c.val ≤ n ↔ c.toNat ≤ n.toNat) := fun n =>
      ⟨UInt32.le_iff_toNat_le, UInt32.le_iff_toNat_le⟩
    unfold isWordChar at h
    rcases Bool.or_eq_true_iff.mp h with h | h
    · change ((decide ('A'.val ≤ c.val ∧ c.val ≤ 'Z'.val) || (decide ('a'.val ≤ c.val) && decide (c.val ≤ 'z'.val))) ||
        (decide ('0'.val ≤ c.val) && decide (c.val ≤ '9'.val))) = true at h
      simp only [Bool.or_eq_true, Bool.and_eq_true, decide_eq_true_eq, hle] at h
      simp only [isWhiteSpace, Bool.or_eq_false_iff, Bool.and_eq_false_iff, decide_eq_false_iff_not, beq_eq_false_iff_ne]
      -- the six bounds of the letters and digits, as numbers
      have hbounds : 'A'.val.toNat = 65 ∧ 'Z'.val.toNat = 90 ∧ 'a'.val.toNat = 97 ∧ 'z'.val.toNat = 122 ∧
          '0'.val.toNat = 48 ∧ '9'.val.toNat = 57 := by decide
      omega
    · have hmem := List.contains_iff_mem.mp h
      revert hmem
      simp only [show "_-./:".toList = ['_', '-', '.', '/', ':'] from rfl, List.mem_cons, List.not_mem_nil, or_false]
      rintro (rfl | rfl | rfl | rfl | rfl) <;> decide
  · cases hsymbol : symbol c with
    | none => rfl
    | some t => exact absurd (h.symm.trans (symbol_apart hsymbol).2) (by decide)

/-- A word in front of what is no part of it is as long as it can be. -/
theorem span_word {w s : Str} (hw : ∀ c ∈ w, isWordChar c = true) (hend : ∀ c ∈ s.head?, isWordChar c = false) :
    (w ++ s).takeWhile isWordChar = w ∧ (w ++ s).dropWhile isWordChar = s := by
  have hstop : s.takeWhile isWordChar = [] ∧ s.dropWhile isWordChar = s := by
    cases s with
    | nil => exact ⟨rfl, rfl⟩
    | cons d s =>
        have hd := hend d rfl
        exact ⟨List.takeWhile_cons_of_neg (by simp [hd]), List.dropWhile_cons_of_neg (by simp [hd])⟩
  constructor
  · rw [List.takeWhile_append_of_pos hw, hstop.1, List.append_nil]
  · rw [List.dropWhile_append_of_pos hw, hstop.2]

theorem lexes_of_tokenize {s : Str} {ts : List Token} (h : tokenize s = .ok ts) : Lexes s ts := by
  fun_induction tokenize s generalizing ts with
  | case1 =>
      obtain rfl := Except.ok.inj h
      exact .nil
  | case2 c cs hc ih => exact .space hc (ih h)
  | case3 c cs _ t hc ih =>
      obtain ⟨us, hus, h⟩ := Codec.bind_eq_ok.mp h
      obtain rfl := Except.ok.inj h
      exact .symbol hc (ih hus)
  | case4 c cs _ _ hc ih =>
      obtain ⟨us, hus, h⟩ := Codec.bind_eq_ok.mp h
      obtain rfl := Except.ok.inj h
      have hlexes : Lexes ((c :: cs.takeWhile isWordChar) ++ cs.dropWhile isWordChar)
          (.word (c :: cs.takeWhile isWordChar) :: us) := by
        refine .word (List.cons_ne_nil _ _) ?_ ?_ (ih hus)
        · exact List.forall_mem_cons.mpr ⟨hc, fun d hd => List.mem_takeWhile_imp hd⟩
        · intro d hd
          have hnot := List.head?_dropWhile_not isWordChar cs
          rw [Option.mem_def.mp hd] at hnot
          exact hnot
      rwa [List.cons_append, List.takeWhile_append_dropWhile] at hlexes
  | case5 => cases h

theorem tokenize_of_lexes {s : Str} {ts : List Token} (h : Lexes s ts) : tokenize s = .ok ts := by
  induction h with
  | nil => rw [tokenize.eq_def]
  | space hc _ ih =>
      rw [tokenize.eq_def]
      simp only [hc, if_true, ih]
  | symbol hc _ ih =>
      rw [tokenize.eq_def]
      simp only [(symbol_apart hc).1, Bool.false_eq_true, if_false, hc, ih]
      rfl
  | @word w s ts hne hw hend _ ih =>
      obtain ⟨c, w, rfl⟩ := List.exists_cons_of_ne_nil hne
      obtain ⟨hc, hw⟩ := List.forall_mem_cons.mp hw
      obtain ⟨hspace, hsymbol⟩ := isWordChar_apart hc
      obtain ⟨htake, hdrop⟩ := span_word hw hend
      rw [List.cons_append, tokenize.eq_def]
      simp only [hspace, Bool.false_eq_true, if_false, hsymbol, hc, if_true, htake, hdrop, ih]
      rfl

/-- The tokenizer finds the tokens that a text lexes as. -/
theorem tokenize_iff (s : Str) (ts : List Token) : tokenize s = .ok ts ↔ Lexes s ts :=
  ⟨lexes_of_tokenize, tokenize_of_lexes⟩

/-! ## The parser without its bounds -/

/-- What is read, and the tokens that are left. -/
def Shorter.plain {ts : List Token} (r : Except WorkError (Shorter ts)) : Except WorkError (RevExpr × List Token) :=
  r.map fun p => (p.expr, p.rest)

@[inherit_doc Shorter.plain]
def NoLonger.plain {ts : List Token} (r : Except WorkError (NoLonger ts)) : Except WorkError (RevExpr × List Token) :=
  r.map fun p => (p.expr, p.rest)

def readOr (ts : List Token) : Except WorkError (RevExpr × List Token) := Shorter.plain (parseOr ts)

def readAnd (ts : List Token) : Except WorkError (RevExpr × List Token) := Shorter.plain (parseAnd ts)

def readUnary (ts : List Token) : Except WorkError (RevExpr × List Token) := Shorter.plain (parseUnary ts)

def readPrimary (ts : List Token) : Except WorkError (RevExpr × List Token) := Shorter.plain (parsePrimary ts)

def goOr (left : RevExpr) (ts : List Token) : Except WorkError (RevExpr × List Token) := NoLonger.plain (orLoop left ts)

def goAnd (left : RevExpr) (ts : List Token) : Except WorkError (RevExpr × List Token) := NoLonger.plain (andLoop left ts)

section

variable {ts : List Token} {left : RevExpr}

/-- What a loop reads is what it hands on. -/
theorem loop_plain {α : Type} {rest : List Token} (r : Except WorkError (NoLonger rest)) (build : NoLonger rest → α)
    (pair : α → RevExpr × List Token) (h : ∀ q, pair (build q) = (q.expr, q.rest)) :
    (r >>= fun q => pure (build q)).map pair = NoLonger.plain r := by
  cases r with
  | error e => rfl
  | ok q => exact congrArg Except.ok (h q)

theorem readOr_eq (ts : List Token) : readOr ts = (readAnd ts).bind fun p => goOr p.1 p.2 := by
  unfold readOr readAnd goOr
  rw [parseOr]
  cases parseAnd ts with
  | error e => rfl
  | ok p =>
      obtain ⟨left, rest, h⟩ := p
      exact loop_plain (orLoop left rest) _ _ fun _ => rfl

theorem readAnd_eq (ts : List Token) : readAnd ts = (readUnary ts).bind fun p => goAnd p.1 p.2 := by
  unfold readAnd readUnary goAnd
  rw [parseAnd]
  cases parseUnary ts with
  | error e => rfl
  | ok p =>
      obtain ⟨left, rest, h⟩ := p
      exact loop_plain (andLoop left rest) _ _ fun _ => rfl

theorem goOr_or (left : RevExpr) (ts : List Token) :
    goOr left (.or :: ts) = (readAnd ts).bind fun p => goOr (.or left p.1) p.2 := by
  unfold readAnd goOr
  rw [orLoop]
  cases parseAnd ts with
  | error e => rfl
  | ok p =>
      obtain ⟨right, rest, h⟩ := p
      exact loop_plain (orLoop (.or left right) rest) _ _ fun _ => rfl

theorem goAnd_and (left : RevExpr) (ts : List Token) :
    goAnd left (.and :: ts) = (readUnary ts).bind fun p => goAnd (.and left p.1) p.2 := by
  unfold readUnary goAnd
  rw [andLoop]
  cases parseUnary ts with
  | error e => rfl
  | ok p =>
      obtain ⟨right, rest, h⟩ := p
      exact loop_plain (andLoop (.and left right) rest) _ _ fun _ => rfl

theorem goOr_stop (h : ts.head? ≠ some .or) : goOr left ts = .ok (left, ts) := by
  unfold goOr
  rw [orLoop]
  · rfl
  · rintro us rfl
    exact h rfl

theorem goAnd_stop (h : ts.head? ≠ some .and) : goAnd left ts = .ok (left, ts) := by
  unfold goAnd
  rw [andLoop]
  · rfl
  · rintro us rfl
    exact h rfl

theorem readUnary_not (ts : List Token) : readUnary (.not :: ts) = (readUnary ts).map fun p => (.not p.1, p.2) := by
  unfold readUnary
  rw [parseUnary]
  cases parseUnary ts <;> rfl

theorem readUnary_primary (h : ts.head? ≠ some .not) : readUnary ts = readPrimary ts := by
  unfold readUnary readPrimary
  rw [parseUnary]
  rintro us rfl
  exact h rfl

/-- The closing parenthesis behind an expression. -/
def closeParen (p : RevExpr × List Token) : Except WorkError (RevExpr × List Token) :=
  match p.2 with
  | .rparen :: rest => .ok (p.1, rest)
  | _ => .error (.parse "expected ')'".toList)

theorem readPrimary_lparen (ts : List Token) : readPrimary (.lparen :: ts) = (readOr ts).bind closeParen := by
  unfold readPrimary readOr
  rw [parsePrimary]
  cases parseOr ts with
  | error e => rfl
  | ok p =>
      obtain ⟨e, rest, h⟩ := p
      simp only [Shorter.plain, bind, Except.bind, Except.map, closeParen]
      cases rest with
      | nil => rfl
      | cons t rest => cases t <;> rfl

/-- The closing parenthesis behind the argument of a call. -/
def closeCall (word : Str) (p : Option Str × List Token) : Except WorkError (RevExpr × List Token) :=
  match p with
  | (arg, .rparen :: rest) => (applyFunction word arg).map fun e => (e, rest)
  | _ => .error (.parse ("expected ')' after ".toList ++ word ++ "(".toList))

theorem readPrimary_call (word : Str) (ts : List Token) :
    readPrimary (.word word :: .lparen :: ts) = closeCall word (callArg ts) := by
  unfold readPrimary
  rw [parsePrimary]
  generalize length_callArg ts = h
  revert h
  generalize callArg ts = p
  intro h
  obtain ⟨arg, rest⟩ := p
  cases rest with
  | nil => rfl
  | cons t rest =>
      cases t with
      | rparen =>
          unfold closeCall
          dsimp only
          cases applyFunction word arg <;> rfl
      | _ => rfl

theorem readPrimary_word (word : Str) (h : ts.head? ≠ some .lparen) :
    readPrimary (.word word :: ts) = (literal word).map fun e => (e, ts) := by
  unfold readPrimary
  rw [parsePrimary]
  · cases literal word <;> rfl
  · rintro us rfl
    exact h rfl

/-- A level reads fewer tokens than there were. -/
theorem Shorter.lt_of_plain {r : Except WorkError (Shorter ts)} {p : RevExpr × List Token} (h : Shorter.plain r = .ok p) :
    p.2.length < ts.length := by
  obtain ⟨q, -, rfl⟩ := Codec.map_eq_ok.mp h
  exact q.lt

end

/-! ## What the parser reads is derived -/

theorem applyFunction_ok {word : Str} {arg : Option Str} {e : RevExpr} :
    applyFunction word arg = .ok e ↔ KnownCall word arg e := by
  constructor
  · intro h
    unfold applyFunction at h
    split at h
    · rename_i hcall
      obtain ⟨rfl, rfl⟩ := hcall
      exact Except.ok.inj h ▸ .all
    split at h
    · rename_i hcall
      obtain ⟨rfl, rfl⟩ := hcall
      exact Except.ok.inj h ▸ .heads
    split at h
    · rename_i hcall
      obtain ⟨rfl, rfl⟩ := hcall
      exact Except.ok.inj h ▸ .draft
    split at h
    · rename_i hcall
      obtain ⟨rfl, rfl⟩ := hcall
      exact Except.ok.inj h ▸ .published
    split at h
    · rename_i hword
      subst hword
      exact Except.ok.inj h ▸ .landed arg
    split at h <;> cases h
  · rintro (_ | _ | _ | _ | _) <;> rfl

theorem literal_ok {word : Str} {e : RevExpr} : literal word = .ok e ↔ Literal word e := by
  unfold literal
  constructor
  · intro h
    split at h
    · rename_i hprefix
      obtain ⟨hex, rfl⟩ := List.isPrefixOf_iff_prefix.mp hprefix
      rw [List.drop_left] at h
      cases hex with
      | nil => cases h
      | cons c hex => exact Except.ok.inj h ▸ .id (List.cons_ne_nil c hex)
    · rename_i hprefix
      exact Except.ok.inj h ▸ .ref fun hin => hprefix (List.isPrefixOf_iff_prefix.mpr hin)
  · intro h
    cases h with
    | @id hex hne =>
        rw [if_pos (List.isPrefixOf_iff_prefix.mpr (List.prefix_append idPrefix hex)), List.drop_left]
        obtain ⟨c, hex, rfl⟩ := List.exists_cons_of_ne_nil hne
        rfl
    | ref h => rw [if_neg fun hin => h (List.isPrefixOf_iff_prefix.mp hin)]

/-- A level whose loop reads the operands behind an operator and builds them to the left. -/
structure OperatorLoop (level operand : Level) (op : Token) (build : RevExpr → RevExpr → RevExpr)
    (read : List Token → Except WorkError (RevExpr × List Token))
    (loop : RevExpr → List Token → Except WorkError (RevExpr × List Token)) : Prop where
  step : ∀ left ts, loop left (op :: ts) = (read ts).bind fun p => loop (build left p.1) p.2
  stop : ∀ left ts, ts.head? ≠ some op → loop left ts = .ok (left, ts)
  lt : ∀ ts p, read ts = .ok p → p.2.length < ts.length
  derives : ∀ ts us l r, Derives level ts l → Derives operand us r → Derives level (ts ++ op :: us) (build l r)

theorem or_loop : OperatorLoop .or .and .or .or readAnd goOr where
  step := goOr_or
  stop _ _ h := goOr_stop h
  lt _ _ h := Shorter.lt_of_plain h
  derives _ _ _ _ hl hr := hl.or hr

theorem and_loop : OperatorLoop .and .unary .and .and readUnary goAnd where
  step := goAnd_and
  stop _ _ h := goAnd_stop h
  lt _ _ h := Shorter.lt_of_plain h
  derives _ _ _ _ hl hr := hl.conj hr

/-- What is read off these tokens is derived at a level. -/
def Sound (level : Level) (read : List Token → Except WorkError (RevExpr × List Token)) (ts : List Token) : Prop :=
  ∀ e rest, read ts = .ok (e, rest) → ∃ us, ts = us ++ rest ∧ Derives level us e

/-- A loop behind tokens that are derived derives what it goes on to read. -/
theorem OperatorLoop.sound {level operand : Level} {op : Token} {build : RevExpr → RevExpr → RevExpr}
    {read : List Token → Except WorkError (RevExpr × List Token)}
    {loop : RevExpr → List Token → Except WorkError (RevExpr × List Token)} (C : OperatorLoop level operand op build read loop)
    {n : Nat} (hshort : ∀ us : List Token, us.length < n → Sound operand read us) {ts front rest : List Token}
    {left e : RevExpr} (hlength : ts.length ≤ n) (hfront : Derives level front left)
    (h : loop left ts = .ok (e, rest)) : ∃ us, ts = us ++ rest ∧ Derives level (front ++ us) e := by
  induction hk : ts.length using Nat.strong_induction_on generalizing ts front left with
  | _ k ih =>
      by_cases hop : ts.head? = some op
      · obtain ⟨more, rfl⟩ := List.head?_eq_some_iff.mp hop
        rw [List.length_cons] at hlength hk
        rw [C.step] at h
        obtain ⟨⟨right, behind⟩, hright, hgo⟩ := Codec.bind_eq_ok.mp h
        have hlt : behind.length < more.length := C.lt more _ hright
        obtain ⟨us, heq, hus⟩ := hshort more (Nat.lt_of_succ_le hlength) right behind hright
        have hbehind : behind.length ≤ n := hlt.le.trans (Nat.le_of_succ_le hlength)
        have hfront' := C.derives front us left right hfront hus
        obtain ⟨vs, rfl, hvs⟩ := ih behind.length (hk ▸ Nat.lt_succ_of_lt hlt) hbehind hfront' hgo rfl
        refine ⟨op :: us ++ vs, by simp [heq], ?_⟩
        simpa using hvs
      · rw [C.stop left ts hop] at h
        obtain ⟨rfl, rfl⟩ := Prod.mk.inj (Except.ok.inj h)
        exact ⟨[], rfl, by simpa using hfront⟩

theorem closeParen_ok {p : RevExpr × List Token} {e : RevExpr} {rest : List Token} (h : closeParen p = .ok (e, rest)) :
    p = (e, .rparen :: rest) := by
  obtain ⟨inner, behind⟩ := p
  unfold closeParen at h
  split at h
  · rename_i hbehind
    obtain ⟨rfl, rfl⟩ := Prod.mk.inj (Except.ok.inj h)
    exact congrArg (Prod.mk inner) hbehind
  · cases h

theorem closeCall_ok {word : Str} {p : Option Str × List Token} {e : RevExpr} {rest : List Token}
    (h : closeCall word p = .ok (e, rest)) : p.2 = .rparen :: rest ∧ KnownCall word p.1 e := by
  unfold closeCall at h
  split at h
  · obtain ⟨inner, hinner, heq⟩ := Codec.map_eq_ok.mp h
    obtain ⟨rfl, rfl⟩ := Prod.mk.inj heq
    exact ⟨rfl, applyFunction_ok.mp hinner⟩
  · cases h

theorem callArg_append (ts : List Token) : ts = ((callArg ts).1.map Token.word).toList ++ (callArg ts).2 := by
  unfold callArg
  split <;> rfl

theorem readPrimary_sound {ts : List Token} (hshort : ∀ us : List Token, us.length < ts.length → Sound .or readOr us) :
    Sound .primary readPrimary ts := by
  intro e rest h
  cases ts with
  | nil =>
      unfold readPrimary at h
      rw [parsePrimary] at h
      cases h
  | cons t ts =>
      cases t with
      | lparen =>
          rw [readPrimary_lparen] at h
          obtain ⟨p, hp, hclose⟩ := Codec.bind_eq_ok.mp h
          obtain rfl := closeParen_ok hclose
          obtain ⟨us, rfl, hus⟩ := hshort ts (Nat.lt_succ_self _) e _ hp
          exact ⟨.lparen :: (us ++ [.rparen]), by simp, hus.paren⟩
      | word w =>
          by_cases hcall : ts.head? = some .lparen
          · obtain ⟨more, rfl⟩ := List.head?_eq_some_iff.mp hcall
            rw [readPrimary_call] at h
            obtain ⟨hrest, hknown⟩ := closeCall_ok h
            refine ⟨_, ?_, .call hknown⟩
            have harg := callArg_append more
            rw [hrest] at harg
            simpa using harg
          · rw [readPrimary_word w hcall] at h
            obtain ⟨inner, hinner, heq⟩ := Codec.map_eq_ok.mp h
            obtain ⟨rfl, rfl⟩ := Prod.mk.inj heq
            exact ⟨[.word w], rfl, .word (literal_ok.mp hinner)⟩
      | and | or | not | rparen =>
          unfold readPrimary at h
          rw [parsePrimary] at h
          cases h
          all_goals simp

/-- Whatever the parser reads is derived. -/
theorem sound (ts : List Token) : Sound .or readOr ts ∧ Sound .and readAnd ts ∧ Sound .unary readUnary ts := by
  induction hn : ts.length using Nat.strong_induction_on generalizing ts with
  | _ n ih =>
      have hshort := fun (us : List Token) (hus : us.length < ts.length) => ih us.length (hn ▸ hus) us rfl
      have hunary : Sound .unary readUnary ts := by
        intro e rest h
        by_cases hnot : ts.head? = some .not
        · obtain ⟨more, rfl⟩ := List.head?_eq_some_iff.mp hnot
          rw [readUnary_not] at h
          obtain ⟨⟨inner, behind⟩, hinner, heq⟩ := Codec.map_eq_ok.mp h
          obtain ⟨rfl, rfl⟩ := Prod.mk.inj heq
          obtain ⟨us, rfl, hus⟩ := (hshort more (Nat.lt_succ_self _)).2.2 inner behind hinner
          exact ⟨.not :: us, rfl, hus.not⟩
        · rw [readUnary_primary hnot] at h
          obtain ⟨us, hts, hus⟩ := readPrimary_sound (fun us hus => (hshort us hus).1) e rest h
          exact ⟨us, hts, hus.primary⟩
      have hand : Sound .and readAnd ts := by
        intro e rest h
        rw [readAnd_eq] at h
        obtain ⟨⟨left, behind⟩, hleft, hgo⟩ := Codec.bind_eq_ok.mp h
        have hlt : behind.length < ts.length := Shorter.lt_of_plain hleft
        obtain ⟨us, heq, hus⟩ := hunary left behind hleft
        obtain ⟨vs, hbehind, hvs⟩ := and_loop.sound (fun us hus => (hshort us hus).2.2) hlt.le hus.unary hgo
        exact ⟨us ++ vs, by rw [heq, List.append_assoc, ← hbehind], hvs⟩
      refine ⟨fun e rest h => ?_, hand, hunary⟩
      rw [readOr_eq] at h
      obtain ⟨⟨left, behind⟩, hleft, hgo⟩ := Codec.bind_eq_ok.mp h
      have hlt : behind.length < ts.length := Shorter.lt_of_plain hleft
      obtain ⟨us, heq, hus⟩ := hand left behind hleft
      obtain ⟨vs, hbehind, hvs⟩ := or_loop.sound (fun us hus => (hshort us hus).2.1) hlt.le hus.and hgo
      exact ⟨us ++ vs, by rw [heq, List.append_assoc, ← hbehind], hvs⟩

/-! ## What is derived is read -/

/-- The expression of these tokens is read in front of whatever may follow them. -/
def Reads : Level → List Token → RevExpr → Prop
  | .or, ts, e => ∀ rest : List Token, rest.head? ≠ some .lparen → rest.head? ≠ some .and → readOr (ts ++ rest) = goOr e rest
  | .and, ts, e => ∀ rest : List Token, rest.head? ≠ some .lparen → readAnd (ts ++ rest) = goAnd e rest
  | .unary, ts, e => ∀ rest : List Token, rest.head? ≠ some .lparen → readUnary (ts ++ rest) = .ok (e, rest)
  | .primary, ts, e => (ts ≠ [] ∧ ts.head? ≠ some .not) ∧
      ∀ rest : List Token, rest.head? ≠ some .lparen → readPrimary (ts ++ rest) = .ok (e, rest)

theorem Derives.reads {level : Level} {ts : List Token} {e : RevExpr} (h : Derives level ts e) : Reads level ts e := by
  -- a sentence of a level is read up to where a token of that level cannot follow
  induction h with
  | and _ ih =>
      intro rest hcall hand
      rw [readOr_eq, ih rest hcall, goAnd_stop hand]
      rfl
  | or _ _ ihl ihr =>
      intro rest hcall hand
      rw [List.append_assoc, List.cons_append, ihl _ (by simp) (by simp), goOr_or, ihr rest hcall, goAnd_stop hand]
      rfl
  | unary _ ih =>
      intro rest hcall
      rw [readAnd_eq, ih rest hcall]
      rfl
  | conj _ _ ihl ihr =>
      intro rest hcall
      rw [List.append_assoc, List.cons_append, ihl _ (by simp), goAnd_and, ihr rest hcall]
      rfl
  | not _ ih =>
      intro rest hcall
      rw [List.cons_append, readUnary_not, ih rest hcall]
      rfl
  -- a primary begins with no negation, so it is not mistaken for one
  | @primary ts e _ ih =>
      intro rest hcall
      obtain ⟨⟨hne, hnot⟩, hread⟩ := ih
      have hhead : (ts ++ rest).head? = ts.head? := List.head?_append_of_ne_nil ts hne
      rw [readUnary_primary (hhead ▸ hnot), hread rest hcall]
  | paren _ ih =>
      refine ⟨⟨List.cons_ne_nil _ _, by simp⟩, fun rest _ => ?_⟩
      rw [List.cons_append, List.append_assoc, readPrimary_lparen, ih _ (by simp) (by simp), goOr_stop (by simp)]
      rfl
  | @call word arg e h =>
      refine ⟨⟨List.cons_ne_nil _ _, by simp⟩, fun rest _ => ?_⟩
      have harg : callArg ((arg.map Token.word).toList ++ .rparen :: rest) = (arg, .rparen :: rest) := by
        cases arg <;> rfl
      rw [List.cons_append, List.cons_append, List.append_assoc, readPrimary_call, List.singleton_append, harg]
      unfold closeCall
      dsimp only
      rw [applyFunction_ok.mpr h]
      rfl
  | word h =>
      refine ⟨⟨List.cons_ne_nil _ _, by simp⟩, fun rest hcall => ?_⟩
      rw [List.singleton_append, readPrimary_word _ hcall, literal_ok.mpr h]
      rfl

theorem Derives.ne_nil {level : Level} {ts : List Token} {e : RevExpr} (h : Derives level ts e) : ts ≠ [] := by
  induction h with
  | and _ ih | unary _ ih | primary _ ih => exact ih
  | or | conj => simp
  | not | paren | call | word => exact List.cons_ne_nil _ _

/-- The parser accepts the texts whose tokens derive, as what they derive. -/
theorem parse_ok_iff (s : Str) (e : RevExpr) : parse s = .ok e ↔ ∃ ts, Lexes s ts ∧ Derives .or ts e := by
  have hparse (ts : List Token) (htokens : tokenize s = .ok ts) (hne : ts ≠ []) :
      parse s = (readOr ts).bind fun p => if p.2 ≠ [] then .error (.parse "trailing tokens after expression".toList) else .ok p.1 := by
    unfold parse readOr
    rw [htokens]
    simp only [bind, Except.bind, List.isEmpty_eq_false_iff.mpr hne, Bool.false_eq_true, if_false]
    cases parseOr ts with
    | error e => rfl
    | ok p => rfl
  constructor
  · intro h
    cases htokens : tokenize s with
    | error e =>
        unfold parse at h
        rw [htokens] at h
        cases h
    | ok ts =>
        by_cases hne : ts = []
        · unfold parse at h
          rw [htokens, hne] at h
          cases h
        rw [hparse ts htokens hne] at h
        obtain ⟨⟨inner, rest⟩, hread, hend⟩ := Codec.bind_eq_ok.mp h
        by_cases hrest : rest = []
        · subst hrest
          obtain rfl : inner = e := Except.ok.inj hend
          obtain ⟨us, heq, hus⟩ := (sound ts).1 inner [] hread
          rw [List.append_nil] at heq
          exact ⟨ts, (tokenize_iff s ts).mp htokens, heq ▸ hus⟩
        · rw [if_pos hrest] at hend
          cases hend
  · rintro ⟨ts, hlexes, hderives⟩
    have hread := hderives.reads [] (by simp) (by simp)
    rw [List.append_nil, goOr_stop (by simp)] at hread
    rw [hparse ts ((tokenize_iff s ts).mpr hlexes) hderives.ne_nil, hread]
    rfl

/-! ## Renderings -/

/-- Whether a name is a word of its own. -/
def IsWord (w : Str) : Prop := w ≠ [] ∧ ∀ c ∈ w, isWordChar c = true

instance (w : Str) : Decidable (IsWord w) :=
  decidable_of_iff (w.isEmpty = false ∧ w.all isWordChar = true) (and_congr List.isEmpty_eq_false_iff List.all_eq_true)

namespace RevExpr

/-- The names in an expression are words, and no ref is named like an id. -/
def Valid : RevExpr → Prop
  | ref name => IsWord name ∧ ¬ idPrefix <+: name
  | id hex => IsWord hex
  | landed queue => IsWord queue
  | and a b | or a b => a.Valid ∧ b.Valid
  | not a => a.Valid
  | all | heads | draft | published => True

/-- An expression with parentheses around all its operators. -/
def render : RevExpr → Str
  | ref name => name
  | id hex => idPrefix ++ hex
  | all => "all()".toList
  | heads => "heads()".toList
  | and a b => '(' :: (a.render ++ (" & ".toList ++ (b.render ++ [')'])))
  | or a b => '(' :: (a.render ++ (" | ".toList ++ (b.render ++ [')'])))
  | not a => '(' :: '~' :: (a.render ++ [')'])
  | draft => "draft()".toList
  | published => "public()".toList
  | landed queue => "landed".toList ++ '(' :: (queue ++ [')'])

/-- The tokens of the rendering. -/
def tokens : RevExpr → List Token
  | ref name => [.word name]
  | id hex => [.word (idPrefix ++ hex)]
  | all => [.word "all".toList, .lparen, .rparen]
  | heads => [.word "heads".toList, .lparen, .rparen]
  | and a b => .lparen :: ((a.tokens ++ .and :: b.tokens) ++ [.rparen])
  | or a b => .lparen :: ((a.tokens ++ .or :: b.tokens) ++ [.rparen])
  | not a => .lparen :: (.not :: a.tokens ++ [.rparen])
  | draft => [.word "draft".toList, .lparen, .rparen]
  | published => [.word "public".toList, .lparen, .rparen]
  | landed queue => [.word "landed".toList, .lparen, .word queue, .rparen]

end RevExpr

theorem Lexes.append {s t : Str} {ts us : List Token} (h : Lexes s ts) (ht : ∀ c ∈ t.head?, isWordChar c = false)
    (h' : Lexes t us) : Lexes (s ++ t) (ts ++ us) := by
  induction h with
  | nil => exact h'
  | space hc _ ih => exact .space hc ih
  | symbol hc _ ih => exact .symbol hc ih
  | @word w s ts hne hw hend _ ih =>
      rw [List.append_assoc]
      refine .word hne hw ?_ ih
      cases s with
      | nil => exact ht
      | cons c s => exact hend

theorem Lexes.one {w : Str} (h : IsWord w) : Lexes w [.word w] := by
  have hlexes := Lexes.word h.1 h.2 (by simp) .nil
  rwa [List.append_nil] at hlexes

theorem Lexes.close {s : Str} {ts : List Token} (h : Lexes s ts) : Lexes (s ++ [')']) (ts ++ [.rparen]) :=
  h.append (fun c hc => by cases hc; rfl) (.symbol rfl .nil)

/-- Two texts around an operator, in parentheses. -/
theorem lexes_operator {c : Char} {t : Token} {s s' : Str} {ts us : List Token} (hc : symbol c = some t) (h : Lexes s ts)
    (h' : Lexes s' us) :
    Lexes ('(' :: (s ++ ([' ', c, ' '] ++ (s' ++ [')'])))) (.lparen :: ((ts ++ t :: us) ++ [.rparen])) := by
  have hright : Lexes ([' ', c, ' '] ++ s') (t :: us) := .space rfl (.symbol hc (.space rfl h'))
  have hboth := (h.append (fun d hd => by cases hd; rfl) hright).close
  rw [List.append_assoc, List.append_assoc] at hboth
  exact .symbol rfl hboth

/-- A call of a function without an argument. -/
theorem Lexes.call {w : Str} (h : IsWord w) : Lexes (w ++ "()".toList) [.word w, .lparen, .rparen] :=
  (Lexes.one h).append (fun c hc => by cases hc; rfl) (.symbol rfl (.symbol rfl .nil))

namespace RevExpr

theorem lexes_render (e : RevExpr) (h : e.Valid) : Lexes e.render e.tokens := by
  induction e with
  | ref name => exact .one h.1
  | id hex =>
      have hprefix : IsWord idPrefix := by decide
      refine .one ⟨List.append_ne_nil_of_right_ne_nil idPrefix h.1, fun c hc => ?_⟩
      rcases List.mem_append.mp hc with hc | hc
      · exact hprefix.2 c hc
      · exact h.2 c hc
  | all => exact .call (w := "all".toList) (by decide)
  | heads => exact .call (w := "heads".toList) (by decide)
  | draft => exact .call (w := "draft".toList) (by decide)
  | published => exact .call (w := "public".toList) (by decide)
  | and a b iha ihb => exact lexes_operator (c := '&') rfl (iha h.1) (ihb h.2)
  | or a b iha ihb => exact lexes_operator (c := '|') rfl (iha h.1) (ihb h.2)
  | not a ih => exact .symbol rfl (.symbol rfl (ih h).close)
  | landed queue =>
      have hname : IsWord "landed".toList := by decide
      exact (Lexes.one hname).append (fun c hc => by cases hc; rfl) (.symbol rfl (Lexes.one h).close)

theorem derives_tokens (e : RevExpr) (h : e.Valid) : Derives .primary e.tokens e := by
  induction e with
  | ref name => exact .word (.ref h.2)
  | id hex => exact .word (.id h.1)
  | all => exact .call .all
  | heads => exact .call .heads
  | draft => exact .call .draft
  | published => exact .call .published
  | landed queue => exact .call (.landed (some queue))
  | and a b iha ihb => exact .paren (.and (.conj (.unary (.primary (iha h.1))) (.primary (ihb h.2))))
  | or a b iha ihb => exact .paren (.or (.and (.unary (.primary (iha h.1)))) (.unary (.primary (ihb h.2))))
  | not a ih => exact .paren (.and (.unary (.not (.primary (ih h)))))

end RevExpr

/-- The parser accepts exactly its grammar, and reads the rendering of an expression as that expression. -/
theorem parse_exact :
    (∀ s ts, tokenize s = .ok ts ↔ Lexes s ts) ∧
      (∀ s e, parse s = .ok e ↔ ∃ ts, Lexes s ts ∧ Derives .or ts e) ∧
        ∀ e : RevExpr, e.Valid → parse e.render = .ok e := by
  refine ⟨tokenize_iff, parse_ok_iff, fun e h => (parse_ok_iff e.render e).mpr ⟨e.tokens, e.lexes_render h, ?_⟩⟩
  exact .and (.unary (.primary (e.derives_tokens h)))

/-- What is landed on a release and has to be ported back. -/
theorem parse_exact_backport :
    parse "(landed(release-1.2) & (~landed(trunk)))".toList =
      .ok (.and (.landed "release-1.2".toList) (.not (.landed "trunk".toList))) :=
  parse_exact.2.2 (.and (.landed "release-1.2".toList) (.not (.landed "trunk".toList)))
    ⟨show IsWord "release-1.2".toList by decide, show IsWord "trunk".toList by decide⟩

end Omoplata
