/-
Semicolons that may be left out.

A statement may end without a semicolon at the end of the text, in front of a closing brace, and at a line end unless the
next line goes on with an operator. `insertsSemicolon` decides this from the characters behind the last token; it looks
through comments, but only a comment that holds a line end counts as one, and none does where an operand has just ended.
-/
import Turnstile.Grammar.Trivia

namespace Turnstile.Grammar

/-- where a look through white space and comments is at -/
inductive TriviaState where
  | between
  /-- behind a slash -/
  | slash
  | line
  /-- in a comment that a mark closes, behind a star or not -/
  | block (star : Bool)
  deriving DecidableEq, Repr

/-- what a look through white space and comments has come to -/
inductive TriviaEnd where
  /-- a slash that opens no comment -/
  | rejected
  /-- the end of a comment that stays within its line -/
  | sameLine
  | accepted
  deriving DecidableEq, Repr

/-- looks through white space and comments; unless `through` is set it stops behind the first closed comment that no slash
follows -/
def passTrivia (through : Bool) (state : TriviaState) (newline : Bool) : List Char → TriviaEnd × List Char
  | [] => (if state = .slash then .rejected else .accepted, [])
  | c :: r =>
    match state with
    | .between =>
      if isSpace c then passTrivia through .between newline r
      else if c = '/' then passTrivia through .slash newline r
      else (.accepted, c :: r)
    | .slash =>
      if c = '/' then passTrivia through .line newline r
      else if c = '*' then passTrivia through (.block false) newline r
      else (.rejected, c :: r)
    | .line => passTrivia through (if isNewline c then .between else .line) newline r
    | .block star =>
      if star && c = '/' then
        if !through && r.head? ≠ some '/' then (if newline then .accepted else .sameLine, r)
        else passTrivia through .between newline r
      else passTrivia through (.block (c = '*')) (newline || isNewline c) r

/-- the next line goes on with `in` or `instanceof` -/
def continuesWithWord : List Char → Bool
  | 'i' :: 'n' :: r =>
    match r with
    | 's' :: 't' :: 'a' :: 'n' :: 'c' :: 'e' :: 'o' :: 'f' :: r => !startsWithLetter r
    | _ => !startsWithLetter r
  | _ => false
where
  startsWithLetter : List Char → Bool
    | c :: _ => c.isAlpha || (128 ≤ c.toNat && isNamePart c)
    | [] => false

/-- the line after a line end begins a statement -/
def beginsStatement : List Char → Bool
  | '.' :: r => (r.head?.map Char.isDigit).getD false
  | '+' :: r => r.head? = some '+'
  | '-' :: r => r.head? = some '-'
  | '!' :: r => r.head? ≠ some '='
  | c :: r => !"`,:;*%><=[(?^|&/".contains c && !continuesWithWord (c :: r)
  | [] => true

theorem passTrivia_length_le (through : Bool) (state : TriviaState) (newline : Bool) (r : List Char) :
    (passTrivia through state newline r).2.length ≤ r.length := by
  induction r generalizing state newline with
  | nil => simp [passTrivia]
  | cons c r ih => cases state <;> grind [passTrivia]

/-- a statement ends here without a semicolon; `operand` tells that an operand has just ended -/
def insertsSemicolon (operand : Bool) : List Char → Bool
  | [] => true
  | c :: r =>
    if c = '/' then
      match _h : passTrivia false .slash false r with
      | (.rejected, _) => false
      | (found, []) => found = .accepted && !operand
      | (found, d :: s) =>
        (found = .accepted && !operand && d ≠ ',' && d ≠ '=') || endsAt d s
          || (isSpace d && !isNewline d && insertsSemicolon operand s)
    else endsAt c r || (isSpace c && !isNewline c && insertsSemicolon operand r)
termination_by r => r.length
decreasing_by
  · have h := passTrivia_length_le false .slash false r
    rw [_h] at h
    simp only [List.length_cons] at *
    omega
  · simp
where
  /-- a closing brace, or a line end that a statement begins behind -/
  endsAt (c : Char) (r : List Char) : Bool :=
    c = '\x7d' ||
      (isNewline c &&
        match passTrivia true .between false r with
        | (.rejected, _) => false
        | (_, r) => beginsStatement r)

/-- where the statement that has come to `c` ends without a semicolon: here, or behind comments of the same line -/
def semicolonPlace? (operand : Bool) (c : Cursor) : Option Cursor :=
  betweenTokens? (fun d => insertsSemicolon operand d.rest) c

end Turnstile.Grammar
