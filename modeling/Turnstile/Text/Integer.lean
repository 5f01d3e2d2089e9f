/-
Integers written in decimal digits of any script.

A text may have padding around it, one sign, and single underscores between digits. An integer with more digits than
`digitLimit` is neither written nor read.
-/
import Turnstile.Text.Blank

namespace Turnstile.Text

/-- the most digits an integer has in a text -/
def digitLimit : Nat := 4300

/-- why a text is no integer -/
inductive IntegerFault where
  /-- not the text of any integer -/
  | malformed
  /-- more digits than are read -/
  | tooLong (digits : Nat)
  deriving DecidableEq, Repr

/-- white space around an integer: blanks, without the four separators among the control characters -/
def isPadding (c : Char) : Bool := isBlank c && !(28 ≤ c.toNat && c.toNat ≤ 31)

/-- the digits that follow a digit, each after at most one underscore, and what is behind them; none if an underscore has no
digit behind it -/
def digitsAfter? : List Char → Option (List Nat × List Char)
  | [] => some ([], [])
  | ['_'] => none
  | '_' :: c :: r => (digitValue? c).bind fun d => (digitsAfter? r).map fun (ds, rest) => (d :: ds, rest)
  | c :: r =>
    match digitValue? c with
    | some d => (digitsAfter? r).map fun (ds, rest) => (d :: ds, rest)
    | none => some ([], c :: r)

/-- a run of digits that is not empty; digits are counted before anything behind them is looked at -/
def natural? : List Char → Except IntegerFault Nat
  | [] => .error .malformed
  | c :: r =>
    match digitValue? c, digitsAfter? r with
    | some d, some (ds, rest) =>
      if digitLimit < ds.length + 1 then .error (.tooLong (ds.length + 1))
      else if rest.isEmpty then .ok (ds.foldl (fun n d => n * 10 + d) d)
      else .error .malformed
    | _, _ => .error .malformed

/-- the integer that some characters denote -/
def integer? (cs : List Char) : Except IntegerFault Int :=
  match trim isPadding cs with
  | '-' :: r => (natural? r).map fun (n : Nat) => -(n : Int)
  | '+' :: r => (natural? r).map Int.ofNat
  | r => (natural? r).map Int.ofNat

/-- an integer in ASCII digits, with `-` before a negative one -/
def integerText (n : Int) : String :=
  let ds := String.ofList (Nat.toDigits 10 n.natAbs)
  if n < 0 then "-" ++ ds else ds

/-- an integer with no more digits than are written -/
def IsWritable (n : Int) : Prop := (Nat.toDigits 10 n.natAbs).length ≤ digitLimit

instance (n : Int) : Decidable (IsWritable n) := inferInstanceAs (Decidable (_ ≤ _))

end Turnstile.Text
