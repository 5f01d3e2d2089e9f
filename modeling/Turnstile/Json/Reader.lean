/-
Reading JSON text.

`value?` reads one value from the front of a text and returns what follows it; `parse?` reads a whole text. Values nest at
most as deep as the text is long.
-/
import Turnstile.Json.Value

namespace Turnstile.Json

def isSpace (c : Char) : Bool := c = ' ' || c = '\n' || c = '\r' || c = '\t'

def skipSpace (cs : List Char) : List Char := cs.dropWhile isSpace

def hexValue? (c : Char) : Option Nat :=
  if '0' ≤ c ∧ c ≤ '9' then some (c.toNat - 48)
  else if 'a' ≤ c ∧ c ≤ 'f' then some (c.toNat - 87)
  else if 'A' ≤ c ∧ c ≤ 'F' then some (c.toNat - 55)
  else none

/-- a number of four hexadecimal digits -/
def unit? (a b c d : Char) : Option Nat := do
  return (← hexValue? a) * 4096 + (← hexValue? b) * 256 + (← hexValue? c) * 16 + (← hexValue? d)

/-- the character that a short escape stands for -/
def shortEscape? : Char → Option Char
  | '"' => some '"'
  | '\\' => some '\\'
  | '/' => some '/'
  | 'b' => some '\x08'
  | 'f' => some '\x0c'
  | 'n' => some '\n'
  | 'r' => some '\r'
  | 't' => some '\t'
  | _ => none

/-- the rest of a string after its opening quote; `done` holds the code points read, last first -/
def stringRest? (done : List Nat) : List Char → Option (List Nat × List Char)
  | [] => none
  | '"' :: r => some (done.reverse, r)
  | '\\' :: 'u' :: a :: b :: c :: d :: '\\' :: 'u' :: a2 :: b2 :: c2 :: d2 :: r =>
    match unit? a b c d, unit? a2 b2 c2 d2 with
    | some n, some n2 =>
      if Text.isHigh n && Text.isLow n2 then stringRest? (Text.joinSurrogates n n2 :: done) r
      else stringRest? (n :: done) ('\\' :: 'u' :: a2 :: b2 :: c2 :: d2 :: r)
    | some n, none => stringRest? (n :: done) ('\\' :: 'u' :: a2 :: b2 :: c2 :: d2 :: r)
    | none, _ => none
  | '\\' :: 'u' :: a :: b :: c :: d :: r => (unit? a b c d).bind fun n => stringRest? (n :: done) r
  | '\\' :: e :: r => (shortEscape? e).bind fun c => stringRest? (c.toNat :: done) r
  | c :: r => stringRest? (c.toNat :: done) r
termination_by cs => cs.length

/-- the value of decimal digits -/
def digitsValue (ds : List Char) : Nat := ds.foldl (fun n d => n * 10 + (d.toNat - 48)) 0

section

variable {σ : Type}

/-- a number: a fraction or an exponent makes it a floating point one -/
def number? (cs : List Char) : Option (Json σ × List Char) :=
  let (negative, cs) := match cs with
    | '-' :: r => (true, r)
    | r => (false, r)
  let whole := cs.takeWhile Char.isDigit
  let cs := cs.dropWhile Char.isDigit
  if whole.isEmpty then none
  else
    let (fraction, cs) := match cs with
      | '.' :: r => (some (r.takeWhile Char.isDigit), r.dropWhile Char.isDigit)
      | r => (none, r)
    let (exponent, cs) : Option Int × List Char := match cs with
      | e :: r =>
        if e = 'e' ∨ e = 'E' then
          let (sign, r) : Int × List Char := match r with
            | '-' :: r => (-1, r)
            | '+' :: r => (1, r)
            | r => (1, r)
          (some (sign * digitsValue (r.takeWhile Char.isDigit)), r.dropWhile Char.isDigit)
        else (none, e :: r)
      | [] => (none, [])
    match fraction, exponent with
    | none, none =>
      let n : Int := digitsValue whole
      some (int (if negative then -n else n), cs)
    | _, _ =>
      let digits := fraction.getD []
      let scale := exponent.getD 0 - digits.length
      let x := Float.ofScientific (digitsValue (whole ++ digits)) (scale < 0) scale.natAbs
      some (float (if negative then -x else x), cs)

/-- items up to a closing bracket, read by `item`; `fuel` bounds their number -/
def items? {α : Type} (closing : Char) (item : List Char → Option (α × List Char)) :
    Nat → List α → List Char → Option (List α × List Char)
  | 0, _, _ => none
  | fuel + 1, done, cs =>
    match item (skipSpace cs) with
    | none => none
    | some (v, r) =>
      match skipSpace r with
      | ',' :: r => items? closing item fuel (v :: done) r
      | c :: r => if c = closing then some ((v :: done).reverse, r) else none
      | [] => none

/-- a bracketed sequence after its opening bracket -/
def enclosed? {α : Type} (closing : Char) (item : List Char → Option (α × List Char)) (cs : List Char) :
    Option (List α × List Char) :=
  match skipSpace cs with
  | c :: r => if c = closing then some ([], r) else items? closing item (cs.length + 1) [] (c :: r)
  | [] => none

/-- a key with its value -/
def pair? (value : List Char → Option (Json σ × List Char)) : List Char → Option ((String × Json σ) × List Char)
  | '"' :: r =>
    (stringRest? [] r).bind fun (k, r) =>
      match skipSpace r with
      | ':' :: r => (value (skipSpace r)).map fun (v, r) => ((Text.CodeText.ofPoints k, v), r)
      | _ => none
  | _ => none

/-- a later field of one key replaces the value of the earlier -/
def putField (fields : List (String × Json σ)) (f : String × Json σ) : List (String × Json σ) :=
  if fields.any fun g => g.1 == f.1 then fields.map fun g => if g.1 == f.1 then f else g else fields ++ [f]

variable [Text.CodeText σ]

/-- the value at the front of a text, nested at most `depth` levels -/
def value? : Nat → List Char → Option (Json σ × List Char)
  | 0, _ => none
  | depth + 1, cs =>
    match cs with
    | '"' :: r => (stringRest? [] r).map fun (s, r) => (string (Text.CodeText.ofPoints s), r)
    | '[' :: r => (enclosed? ']' (value? depth) r).map fun (vs, r) => (array vs, r)
    | '\x7b' :: r =>
      (enclosed? '\x7d' (pair? (value? depth)) r).map fun (fs, r) => (object (fs.foldl putField []), r)
    | 'n' :: 'u' :: 'l' :: 'l' :: r => some (null, r)
    | 't' :: 'r' :: 'u' :: 'e' :: r => some (bool true, r)
    | 'f' :: 'a' :: 'l' :: 's' :: 'e' :: r => some (bool false, r)
    | 'N' :: 'a' :: 'N' :: r => some (float (0.0 / 0.0), r)
    | 'I' :: 'n' :: 'f' :: 'i' :: 'n' :: 'i' :: 't' :: 'y' :: r => some (float (1.0 / 0.0), r)
    | '-' :: 'I' :: 'n' :: 'f' :: 'i' :: 'n' :: 'i' :: 't' :: 'y' :: r => some (float (-1.0 / 0.0), r)
    | cs => number? cs

/-- the value a whole text denotes -/
def parse? (s : String) : Option (Json σ) :=
  let cs := skipSpace s.toList
  match value? (cs.length + 1) cs with
  | some (v, r) => if (skipSpace r).isEmpty then some v else none
  | none => none

end

end Turnstile.Json
