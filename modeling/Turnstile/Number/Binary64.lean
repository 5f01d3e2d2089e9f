/-
Decimal text of 64 bit floating point numbers, computed exactly.

A finite number is `mantissa · 2^exponent`. `shortest` gives the fewest digits that read back as the number, the nearest
of these; `rounded` gives a fixed count of significant digits, a tie going to the even digit. Both work on naturals only.
-/

namespace Turnstile.Number

def twoPow (n : Nat) : Nat := Nat.pow 2 n

def tenPow (n : Nat) : Nat := Nat.pow 10 n

/-- a floating point number taken apart -/
inductive Binary64 where
  | nan
  | infinite (negative : Bool)
  | finite (negative : Bool) (mantissa : Nat) (exponent : Int)
  deriving DecidableEq, Repr

/-- the parts of a number given by its 64 bits -/
def Binary64.ofBits (bits : UInt64) : Binary64 :=
  let n := bits.toNat
  let negative : Bool := n / twoPow 63 = 1
  let biased : Nat := n / twoPow 52 % 2048
  let fraction : Nat := n % twoPow 52
  if biased = 2047 then if fraction = 0 then .infinite negative else .nan
  else if biased = 0 then .finite negative fraction (-1074)
  else .finite negative (twoPow 52 + fraction) ((biased : Int) - 1075)

/-- digits `d` and point `p` stand for `0.d · 10^p` -/
structure Decimal where
  digits : List Nat
  point : Int
  deriving DecidableEq, Repr

/-- the decimal digits of a number, most significant first -/
def digitsOf (n : Nat) : List Nat := (Nat.toDigits 10 n).map fun c => c.toNat - 48

/-- compares `a · 10^p` with `b · 2^q` -/
def compareScaled (a : Nat) (p : Int) (b : Nat) (q : Int) : Ordering :=
  compare (a * tenPow p.toNat * twoPow (-q).toNat) (b * twoPow q.toNat * tenPow (-p).toNat)

/-- `m · 2^e / 10^p` as quotient, remainder and divisor -/
def divScaled (m : Nat) (e p : Int) : Nat × Nat × Nat :=
  let num := m * twoPow e.toNat * tenPow (-p).toNat
  let den := twoPow (-e).toNat * tenPow p.toNat
  (num / den, num % den, den)

/-- the least `p` with `m · 2^e < 10^p`, sought upward from a start that is at most it -/
def pointFrom (m : Nat) (e : Int) : Nat → Int → Int
  | 0, p => p
  | fuel + 1, p => if compareScaled 1 p m e = .gt then p else pointFrom m e fuel (p + 1)

/-- the decimal point of a positive number: `10^(p-1) ≤ m · 2^e < 10^p` -/
def pointOf (m : Nat) (e : Int) : Int :=
  let bits : Int := Nat.log2 m
  pointFrom m e 8 (Int.fdiv ((bits + e) * 30103) 100000 - 1)

/-- without the zeros at the end -/
def trimZeros (ds : List Nat) : List Nat := (ds.reverse.dropWhile (· = 0)).reverse

/-- whether `d · 10^p` reads back as `m · 2^e`: it lies between the midpoints to both neighbours, which count if `m` is
even -/
def readsBack (m : Nat) (e : Int) (d : Nat) (p : Int) : Bool :=
  let below := if m = twoPow 52 ∧ e > -1074 then 4 * m - 1 else 4 * m - 2
  let lower := compareScaled d p below (e - 2)
  let upper := compareScaled d p (4 * m + 2) (e - 2)
  (lower = .gt || (m % 2 = 0 && lower = .eq)) && (upper = .lt || (m % 2 = 0 && upper = .eq))

/-- the nearest multiple of `10^p` that reads back as `m · 2^e`, as a count of `10^p` -/
def hit? (m : Nat) (e p : Int) : Option Nat :=
  let (d, r, den) := divScaled m e p
  let low := readsBack m e d p
  let high := readsBack m e (d + 1) p
  match low, high with
  | true, true => if 2 * r < den ∨ (2 * r = den ∧ d % 2 = 0) then some d else some (d + 1)
  | true, false => some d
  | false, true => some (d + 1)
  | false, false => none

/-- tries `n` digits, then more -/
def shortestFrom (m : Nat) (e point : Int) : Nat → Nat → Decimal
  | 0, _ => ⟨[0], 1⟩
  | fuel + 1, n =>
    match hit? m e (point - n) with
    | some d =>
      let ds := digitsOf d
      ⟨trimZeros ds, point - n + ds.length⟩
    | none => shortestFrom m e point fuel (n + 1)

/-- the fewest digits that read back as `m · 2^e` -/
def shortest (m : Nat) (e : Int) : Decimal :=
  if m = 0 then ⟨[0], 1⟩ else shortestFrom m e (pointOf m e) 17 1

/-- `n` significant digits of `m · 2^e`, a tie going to the even digit -/
def rounded (n : Nat) (m : Nat) (e : Int) : Decimal :=
  if m = 0 then ⟨List.replicate n 0, 1⟩
  else
    let point := pointOf m e
    let (d, r, den) := divScaled m e (point - n)
    let d := if 2 * r > den ∨ (2 * r = den ∧ d % 2 = 1) then d + 1 else d
    if d = tenPow n then ⟨digitsOf (tenPow (n - 1)), point + 1⟩ else ⟨digitsOf d, point⟩

/-! ## text -/

def digitText (ds : List Nat) : List Char := ds.map fun d => Char.ofNat (48 + d)

/-- at least two digits of an exponent, after its sign -/
def exponentText (e : Int) : List Char :=
  let ds := Nat.toDigits 10 e.natAbs
  (if e < 0 then '-' else '+') :: (if ds.length < 2 then '0' :: ds else ds)

/-- the digits before and after the decimal point, positionally -/
def positional (d : Decimal) : List Char × List Char :=
  if d.point ≤ 0 then (['0'], List.replicate (-d.point).toNat '0' ++ digitText d.digits)
  else
    let n := d.point.toNat
    (digitText (d.digits.take n) ++ List.replicate (n - d.digits.length) '0', digitText (d.digits.drop n))

/-- the digits with one before the point, and the exponent -/
def scientific (d : Decimal) : List Char :=
  let ds := digitText d.digits
  let fraction := ds.drop 1
  ds.take 1 ++ (if fraction.isEmpty then [] else '.' :: fraction) ++ ('e' :: exponentText (d.point - 1))

/-- the text a number reads back from: positional for exponents from -4 to 15, with at least one digit after the point -/
def floatText (x : Float) : String :=
  match Binary64.ofBits x.toBits with
  | .nan => "nan"
  | .infinite negative => if negative then "-inf" else "inf"
  | .finite negative m e =>
    let d := shortest m e
    let body :=
      if -4 < d.point ∧ d.point ≤ 16 then
        let (whole, fraction) := positional d
        whole ++ '.' :: (if fraction.isEmpty then ['0'] else fraction)
      else scientific d
    String.ofList (if negative then '-' :: body else body)

/-- `n` significant digits without zeros at the end, scientific below `10^-4` and from `10^n` on -/
def generalText (n : Nat) (x : Float) : String :=
  match Binary64.ofBits x.toBits with
  | .nan => "nan"
  | .infinite negative => if negative then "-inf" else "inf"
  | .finite negative m e =>
    let d := rounded n m e
    let trimmed : Decimal := ⟨if m = 0 then [0] else trimZeros d.digits, d.point⟩
    let body :=
      if -4 < d.point ∧ d.point ≤ n then
        let (whole, fraction) := positional trimmed
        if fraction.isEmpty then whole else whole ++ '.' :: fraction
      else scientific trimmed
    String.ofList (if negative then '-' :: body else body)

/-- the integer part of a finite number -/
def truncate? (x : Float) : Option Int :=
  match Binary64.ofBits x.toBits with
  | .finite negative m e =>
    let n : Int := m * twoPow e.toNat / twoPow (-e).toNat
    some (if negative then -n else n)
  | _ => none

/-- set to the right in a field of at least `width` characters -/
def padLeft (width : Nat) (s : String) : String := String.ofList (List.replicate (width - s.length) ' ') ++ s

/-- a duration in seconds as text: milliseconds below a second, then seconds, minutes and hours -/
def elapsedText (seconds : Float) : String :=
  if seconds < 1.0 then padLeft 5 (generalText 4 (seconds * 1000.0)) ++ " ms"
  else if seconds < 60.0 then padLeft 5 (generalText 4 seconds) ++ " s"
  else if seconds < 3600.0 then padLeft 5 (generalText 4 (seconds / 60.0)) ++ " m"
  else padLeft 5 (generalText 4 (seconds / 3600.0)) ++ " h"

end Turnstile.Number
