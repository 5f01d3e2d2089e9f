/-
Names and literals, read from the characters that spell them.

Each reader answers where a name, number, string, regular expression or piece of a template ends, if one stands in front.
Strings stay on their line; what follows a backslash in them is an escape of known form.
-/
import Turnstile.Grammar.Trivia

namespace Turnstile.Grammar

/-! ## names -/

/-- where the reading of a name is at -/
inductive NameState where
  | plain
  /-- behind a backslash -/
  | escape
  /-- behind the letter of an escape -/
  | opened
  /-- so many digits of an escape are missing -/
  | digits (missing : Nat)
  /-- in an escape between braces, behind a digit or not -/
  | braces (some : Bool)
  deriving DecidableEq, Repr

/-- the rest of a name, behind the characters in `done`, last first -/
def nameFrom? (state : NameState) (offset : Nat) (done : List Char) : List Char → Option (String × Cursor)
  | [] => if state = .plain then some (String.ofList done.reverse, ⟨offset, []⟩) else none
  | c :: r =>
    let goOn := fun state => nameFrom? state (offset + c.utf8Size) (c :: done) r
    match state with
    | .plain =>
      if isNamePart c then goOn .plain
      else if c = '\\' then goOn .escape
      else some (String.ofList done.reverse, ⟨offset, c :: r⟩)
    | .escape => if c = 'u' then goOn .opened else none
    | .opened => if c = '\x7b' then goOn (.braces false) else if isHexDigit c then goOn (.digits 2) else none
    | .digits 0 => if isHexDigit c then goOn .plain else none
    | .digits (n + 1) => if isHexDigit c then goOn (.digits n) else none
    | .braces b => if isHexDigit c then goOn (.braces true) else if c = '\x7d' && b then goOn .plain else none

/-- a name that stands here, and where it ends -/
def name? (c : Cursor) : Option (String × Cursor) :=
  match c.rest with
  | a :: _ => if isNameStart a || a = '\\' then nameFrom? .plain c.offset [] c.rest else none
  | [] => none

/-- past a name behind a hash mark -/
def privateName? (c : Cursor) : Option Cursor :=
  match c.pass? "#" with
  | some d => (name? d).map (·.2)
  | none => none

/-! ## numbers -/

/-- past digits with single underscores between them -/
def digitsFrom (p : Char → Bool) (offset : Nat) : List Char → Cursor
  | '_' :: d :: r => if p d then digitsFrom p (offset + 2) r else ⟨offset, '_' :: d :: r⟩
  | d :: r => if p d then digitsFrom p (offset + 1) r else ⟨offset, d :: r⟩
  | [] => ⟨offset, []⟩

def digits? (p : Char → Bool) (c : Cursor) : Option Cursor :=
  (c.passIf? p).map fun d => digitsFrom p d.offset d.rest

/-- past a character, if it stands here -/
def past (a : Char) (c : Cursor) : Cursor := (c.passIf? (· = a)).getD c

/-- past an exponent, if one stands here -/
def exponent? (c : Cursor) : Option Cursor :=
  match c.passIf? fun a => a = 'e' || a = 'E' with
  | some d => digits? Char.isDigit ((d.passIf? fun a => a = '+' || a = '-').getD d)
  | none => none

/-- past a number of some radix behind its mark -/
def radix? (mark : Char) (p : Char → Bool) (c : Cursor) : Option Cursor := do
  let d ← c.pass? "0"
  let d ← d.passIf? fun a => a = mark || a = mark.toUpper
  return past 'n' (← digits? p d)

/-- digits that may go on with a fraction or an exponent: none, or one, of the leading digits is a zero -/
def isDecimalInteger : List Char → Bool
  | '0' :: c :: _ => c ≠ '0' && c ≠ '_'
  | _ => true

/-- past a number that stands here -/
def number? (c : Cursor) : Option Cursor :=
  let ofRadix := (radix? 'x' isHexDigit c).or ((radix? 'o' isOctalDigit c).or (radix? 'b' (fun a => a = '0' || a = '1') c))
  match ofRadix with
  | some d => some d
  | none =>
    match digits? Char.isDigit c with
    | some d =>
      if isDecimalInteger c.rest then
        match d.pass? "." with
        | some e =>
          let e := (digits? Char.isDigit e).getD e
          some ((exponent? e).getD e)
        | none => some ((exponent? d).getD (past 'n' d))
      else some (past 'n' d)
    | none => do
      let d ← digits? Char.isDigit (← c.pass? ".")
      return (exponent? d).getD d

/-! ## strings and templates -/

/-- where the reading of a text with escapes is at -/
inductive TextState where
  | plain
  /-- behind a backslash -/
  | escape
  /-- behind the first octal digits of an escape, of which so many may follow -/
  | octal (left : Nat)
  /-- so many further digits of an escape are missing -/
  | digits (missing : Nat)
  /-- behind the letter of an escape by code point -/
  | opened
  | braces (some : Bool)
  /-- behind an escaped carriage return -/
  | carriage
  deriving DecidableEq, Repr

/-- characters that may stand unescaped go on as plain text behind an escape that is complete -/
def TextState.before (state : TextState) (c : Char) : TextState :=
  match state with
  | .octal (_ + 1) => if isOctalDigit c then state else .plain
  | .octal 0 => .plain
  | .carriage => if isNewline c then state else .plain
  | state => state

/-- where a text with escapes comes to a character that ends it; `lines` tells that it may go on over line ends -/
def textFrom? (lines : Bool) (ends : Char → List Char → Bool) (state : TextState) (offset : Nat) :
    List Char → Option Cursor
  | [] => none
  | c :: r =>
    let goOn := fun state => textFrom? lines ends state (offset + c.utf8Size) r
    match state.before c with
    | .plain =>
      if ends c r then some ⟨offset, c :: r⟩
      else if c = '\\' then goOn .escape
      else if !lines && (c = '\n' || c = '\r') then none
      else goOn .plain
    | .escape =>
      if c = 'x' then goOn (.digits 1)
      else if c = 'u' then goOn .opened
      else if isOctalDigit c then goOn (.octal 2)
      else if c = '\r' then goOn .carriage
      else goOn .plain
    | .octal n => goOn (.octal (n - 1))
    | .digits 0 => if isHexDigit c then goOn .plain else none
    | .digits (n + 1) => if isHexDigit c then goOn (.digits n) else none
    | .opened => if c = '\x7b' then goOn (.braces false) else if isHexDigit c then goOn (.digits 2) else none
    | .braces b => if isHexDigit c then goOn (.braces true) else if c = '\x7d' && b then goOn .plain else none
    | .carriage => goOn .plain

/-- past a string that stands here -/
def string? (c : Cursor) : Option Cursor :=
  match c.rest with
  | q :: r =>
    if q = '\'' || q = '"' then
      (textFrom? false (fun a _ => a = q) .plain (c.offset + 1) r).map (past q)
    else none
  | [] => none

/-- where the text of a template comes to its end or to a substitution -/
def templateText? (c : Cursor) : Option Cursor :=
  textFrom? true (fun a r => a = '`' || (a = '$' && r.head? = some '\x7b')) .plain c.offset c.rest

/-! ## regular expressions -/

/-- where the reading of a regular expression is at -/
structure PatternState where
  /-- between brackets -/
  bracketed : Bool
  /-- behind a backslash -/
  escaped : Bool
  deriving DecidableEq, Repr

/-- where the pattern of a regular expression comes to the slash that ends it -/
def patternFrom? (state : PatternState) (offset : Nat) : List Char → Option Cursor
  | [] => none
  | c :: r =>
    let goOn := fun state => patternFrom? state (offset + c.utf8Size) r
    if c = '\n' then none
    else if state.escaped then goOn ⟨state.bracketed, false⟩
    else if c = '\\' then goOn ⟨state.bracketed, true⟩
    else if state.bracketed then goOn ⟨c ≠ ']', false⟩
    else if c = '/' then some ⟨offset, c :: r⟩
    else goOn ⟨c = '[', false⟩

/-- past a regular expression that stands here, its flags included -/
def regex? (c : Cursor) : Option Cursor := do
  let d ← c.pass? "/"
  let e ← patternFrom? ⟨false, false⟩ d.offset d.rest
  if d.offset < e.offset then
    let e ← e.pass? "/"
    return e.skipWhile Char.isLower
  else none

end Turnstile.Grammar
