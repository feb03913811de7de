-- SUMMARY: The tokenizer and the recursive-descent parser of the revset language.
import Omoplata.Drivers.Rust
import Omoplata.Work.Error

/-!
# The revset parser

The parser reads a list of tokens from the front. Instead of its position it hands on the
tokens that are left, with a proof that they are fewer, so that the descent ends. The loops
over `|` and `&` build their operators to the left.
-/

namespace Omoplata

/-- A revset expression. -/
inductive RevExpr where
  | ref (name : Str)
  | id (hex : Str)
  | all
  | heads
  | and (a b : RevExpr)
  | or (a b : RevExpr)
  | not (a : RevExpr)
  | draft
  | published
  | landed (queue : Str)
  deriving DecidableEq, Repr

/-! ## The tokenizer -/

inductive Token where
  | and
  | or
  | not
  | lparen
  | rparen
  | word (w : Str)
  deriving DecidableEq, Repr

/-- Whether a character may stand in a bare word. -/
def isWordChar (c : Char) : Bool := c.isAlphanum || "_-./:".toList.contains c

/-- The token of a character that is one. -/
def symbol : Char → Option Token
  | '&' => some .and
  | '|' => some .or
  | '~' => some .not
  | '(' => some .lparen
  | ')' => some .rparen
  | _ => none

def tokenize : Str → Except WorkError (List Token)
  | [] => .ok []
  | c :: cs =>
      if isWhiteSpace c then tokenize cs
      else
        match symbol c with
        | some t => return t :: (← tokenize cs)
        | none =>
            if isWordChar c then
              return .word (c :: cs.takeWhile isWordChar) :: (← tokenize (cs.dropWhile isWordChar))
            else .error (.parse ("unexpected character '".toList ++ [c] ++ "'".toList))
termination_by s => s.length
decreasing_by
  all_goals
    have hle := (List.dropWhile_suffix isWordChar (l := cs)).length_le
    simp only [List.length_cons]
    omega

/-! ## The parser -/

/-- A token in an error. -/
def Token.debug : Token → Str
  | and => "And".toList
  | or => "Or".toList
  | not => "Not".toList
  | lparen => "LParen".toList
  | rparen => "RParen".toList
  | word w => "Word(\"".toList ++ w ++ "\")".toList

/-- What a function call stands for. -/
def applyFunction (word : Str) (arg : Option Str) : Except WorkError RevExpr :=
  if word = "all".toList ∧ arg = none then .ok .all
  else if word = "heads".toList ∧ arg = none then .ok .heads
  else if word = "draft".toList ∧ arg = none then .ok .draft
  else if word = "public".toList ∧ arg = none then .ok .published
  else if word = "landed".toList then .ok (.landed (arg.getD "trunk".toList))
  else
    match arg with
    | some arg => .error (.parse ("function '".toList ++ word ++ "' takes no argument (got '".toList ++ arg ++ "')".toList))
    | none => .error (.parse ("unknown function '".toList ++ word ++ "'".toList))

def idPrefix : Str := "id:".toList

/-- What a bare word stands for. -/
def literal (word : Str) : Except WorkError RevExpr :=
  if idPrefix.isPrefixOf word then
    let hex := word.drop idPrefix.length
    if hex.isEmpty then .error (.parse "empty id: literal".toList) else .ok (.id hex)
  else .ok (.ref word)

/-- The argument of a call, if there is one, and the tokens behind it. -/
def callArg : List Token → Option Str × List Token
  | .word a :: rest => (some a, rest)
  | rest => (none, rest)

theorem length_callArg (ts : List Token) : (callArg ts).2.length ≤ ts.length := by
  unfold callArg
  split
  · exact Nat.le_succ _
  · exact le_rfl

/-- An expression, and fewer tokens than there were. -/
structure Shorter (ts : List Token) where
  expr : RevExpr
  rest : List Token
  lt : rest.length < ts.length

/-- An expression, and no more tokens than there were. -/
structure NoLonger (ts : List Token) where
  expr : RevExpr
  rest : List Token
  le : rest.length ≤ ts.length

mutual

def parseOr (ts : List Token) : Except WorkError (Shorter ts) := do
  let ⟨left, rest, h⟩ ← parseAnd ts
  let ⟨e, rest, h'⟩ ← orLoop left rest
  return ⟨e, rest, Nat.lt_of_le_of_lt h' h⟩
termination_by (ts.length, 3)

/-- The loop over the operands behind `|`. -/
def orLoop (left : RevExpr) (ts : List Token) : Except WorkError (NoLonger ts) :=
  match ts with
  | .or :: ts => do
      let ⟨right, rest, h⟩ ← parseAnd ts
      let ⟨e, rest, h'⟩ ← orLoop (.or left right) rest
      return ⟨e, rest, h'.trans (h.le.trans (Nat.le_succ _))⟩
  | ts => return ⟨left, ts, le_rfl⟩
termination_by (ts.length, 0)

def parseAnd (ts : List Token) : Except WorkError (Shorter ts) := do
  let ⟨left, rest, h⟩ ← parseUnary ts
  let ⟨e, rest, h'⟩ ← andLoop left rest
  return ⟨e, rest, Nat.lt_of_le_of_lt h' h⟩
termination_by (ts.length, 2)

/-- The loop over the operands behind `&`. -/
def andLoop (left : RevExpr) (ts : List Token) : Except WorkError (NoLonger ts) :=
  match ts with
  | .and :: ts => do
      let ⟨right, rest, h⟩ ← parseUnary ts
      let ⟨e, rest, h'⟩ ← andLoop (.and left right) rest
      return ⟨e, rest, h'.trans (h.le.trans (Nat.le_succ _))⟩
  | ts => return ⟨left, ts, le_rfl⟩
termination_by (ts.length, 0)

def parseUnary (ts : List Token) : Except WorkError (Shorter ts) :=
  match ts with
  | .not :: ts => do
      let ⟨e, rest, h⟩ ← parseUnary ts
      return ⟨.not e, rest, h.trans (Nat.lt_succ_self _)⟩
  | ts => parsePrimary ts
termination_by (ts.length, 1)

def parsePrimary (ts : List Token) : Except WorkError (Shorter ts) :=
  match ts with
  | .lparen :: ts => do
      let ⟨inner, rest, h⟩ ← parseOr ts
      match rest, h with
      | .rparen :: rest, h => return ⟨inner, rest, (Nat.lt_succ_self _).trans (h.trans (Nat.lt_succ_self _))⟩
      | _, _ => .error (.parse "expected ')'".toList)
  | .word word :: .lparen :: ts =>
      match callArg ts, length_callArg ts with
      | (arg, .rparen :: rest), h => do
          let e ← applyFunction word arg
          return ⟨e, rest, Nat.lt_succ_of_lt (Nat.lt_succ_of_lt (Nat.lt_of_succ_le h))⟩
      | _, _ => .error (.parse ("expected ')' after ".toList ++ word ++ "(".toList))
  | .word word :: ts => do
      let e ← literal word
      return ⟨e, ts, Nat.lt_succ_self _⟩
  | t :: _ => .error (.parse ("unexpected token ".toList ++ t.debug))
  | [] => .error (.parse "unexpected end of input".toList)
termination_by (ts.length, 0)

end

/-- Parse a revset expression. -/
def parse (input : Str) : Except WorkError RevExpr := do
  let tokens ← tokenize input
  if tokens.isEmpty then .error (.parse "empty expression".toList)
  else
    let ⟨expr, rest, _⟩ ← parseOr tokens
    if rest ≠ [] then .error (.parse "trailing tokens after expression".toList) else return expr

end Omoplata
