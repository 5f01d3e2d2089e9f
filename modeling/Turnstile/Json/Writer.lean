/-
JSON text.

Strings keep the characters from space to `~` except the quote and the backslash; all others are escaped, those outside
the basic plane as two surrogates. A surrogate that a text holds is escaped as it is. A layout says what stands between items
and keys and how nested items are indented. `render?` gives no text of a value in which an integer has too many digits.
-/
import Turnstile.Json.Value

namespace Turnstile.Json

/-- one UTF-16 unit as an escape -/
def unitEscape (n : Nat) : List Char := '\\' :: 'u' :: Text.hexDigits 4 n

/-- a character inside a string literal -/
def escapedChar (c : Char) : List Char :=
  if c = '"' then ['\\', '"']
  else if c = '\\' then ['\\', '\\']
  else if c = '\n' then ['\\', 'n']
  else if c = '\r' then ['\\', 'r']
  else if c = '\t' then ['\\', 't']
  else if c.toNat = 8 then ['\\', 'b']
  else if c.toNat = 12 then ['\\', 'f']
  else if 0x20 ≤ c.toNat ∧ c.toNat ≤ 0x7E then [c]
  else if c.toNat < 0x10000 then unitEscape c.toNat
  else unitEscape (0xD800 + (c.toNat - 0x10000) / 0x400) ++ unitEscape (0xDC00 + (c.toNat - 0x10000) % 0x400)

/-- a code point inside a string literal -/
def escaped (n : Nat) : List Char := if Text.isSurrogate n then unitEscape n else escapedChar (Char.ofNat n)

/-- a string literal -/
def literal {σ : Type} [Text.CodeText σ] (s : σ) : List Char := '"' :: (Text.CodeText.points s).flatMap escaped ++ ['"']

/-- how the parts of arrays and objects are set apart -/
structure Layout where
  /-- between two items -/
  itemSeparator : List Char
  /-- between a key and its value -/
  keySeparator : List Char
  /-- the indentation of one level, if every item has a line of its own -/
  indent : Option Nat

/-- no white space at all -/
def Layout.compact : Layout := ⟨[','], [':'], none⟩

/-- a blank after each separator -/
def Layout.spaced : Layout := ⟨[',', ' '], [':', ' '], none⟩

/-- one item a line, nested items indented by `n` more -/
def Layout.indented (n : Nat) : Layout := ⟨[','], [':', ' '], some n⟩

/-- the line break in front of an item at a depth -/
def Layout.lineBreak (l : Layout) (depth : Nat) : List Char :=
  match l.indent with
  | none => []
  | some n => '\n' :: List.replicate (n * depth) ' '

/-- items between brackets; those of a level below `depth` stand at `depth + 1` -/
def Layout.enclose (l : Layout) (depth : Nat) (opening closing : Char) (items : List (List Char)) : List Char :=
  match items with
  | [] => [opening, closing]
  | items =>
    opening :: l.lineBreak (depth + 1) ++ (l.itemSeparator ++ l.lineBreak (depth + 1)).intercalate items
      ++ l.lineBreak depth ++ [closing]

/-- the text of a floating point number -/
def numeral (x : Float) : String :=
  match Number.Binary64.ofBits x.toBits with
  | .nan => "NaN"
  | .infinite negative => if negative then "-Infinity" else "Infinity"
  | .finite .. => Number.floatText x

section

variable {σ : Type} [Text.CodeText σ]

mutual
/-- the text of a value that stands at a depth -/
def write (l : Layout) (depth : Nat) : Json σ → List Char
  | null => ['n', 'u', 'l', 'l']
  | bool b => if b then ['t', 'r', 'u', 'e'] else ['f', 'a', 'l', 's', 'e']
  | int n => (Text.integerText n).toList
  | float x => (numeral x).toList
  | string s => literal s
  | array items => l.enclose depth '[' ']' (writeItems l (depth + 1) items)
  | object fields => l.enclose depth '\x7b' '\x7d' (writeFields l (depth + 1) fields)

def writeItems (l : Layout) (depth : Nat) : List (Json σ) → List (List Char)
  | [] => []
  | v :: vs => write l depth v :: writeItems l depth vs

def writeFields (l : Layout) (depth : Nat) : List (String × Json σ) → List (List Char)
  | [] => []
  | (k, v) :: fs => (literal k ++ l.keySeparator ++ write l depth v) :: writeFields l depth fs
end

/-- the text of a value -/
def render (l : Layout) (v : Json σ) : String := String.ofList (write l 0 v)

mutual
/-- whether every integer in a value is one that is written -/
def isWritable : Json σ → Bool
  | int n => Text.IsWritable n
  | array items => areWritable items
  | object fields => fieldsWritable fields
  | _ => true

def areWritable : List (Json σ) → Bool
  | [] => true
  | v :: vs => isWritable v && areWritable vs

def fieldsWritable : List (String × Json σ) → Bool
  | [] => true
  | (_, v) :: fs => isWritable v && fieldsWritable fs
end

/-- the text of a value, if it can be written -/
def render? (l : Layout) (v : Json σ) : Option String := if v.isWritable then some (v.render l) else none

end

end Turnstile.Json
