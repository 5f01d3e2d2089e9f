/-
JSON values.

Integers and floating point numbers are kept apart, as their texts are; an object keeps its fields in the order written. The
strings are of any type of texts, of `String` if none is given; keys are of `String`.
-/
import Turnstile.Number.Binary64
import Turnstile.Text.Integer
import Turnstile.Text.Points
import Turnstile.Text.Quoted

namespace Turnstile

inductive Json (σ : Type := String) where
  | null
  | bool (b : Bool)
  | int (n : Int)
  | float (x : Float)
  | string (s : σ)
  | array (items : List (Json σ))
  | object (fields : List (String × Json σ))
  deriving Inhabited

namespace Json

/-- the name of a value's type in messages -/
def typeName : Json → String
  | null => "NoneType"
  | bool _ => "bool"
  | int _ => "int"
  | float _ => "float"
  | string _ => "str"
  | array _ => "list"
  | object _ => "dict"

/-- whether a value counts as set: not false, zero or empty -/
def isSet {σ : Type} [Text.CodeText σ] : Json σ → Bool
  | null => false
  | bool b => b
  | int n => n ≠ 0
  | float x => x != 0.0
  | string s => !(Text.CodeText.points s).isEmpty
  | array items => !items.isEmpty
  | object fields => !fields.isEmpty

mutual
/-- a value as it is shown in messages -/
def shown : Json → String
  | null => "None"
  | bool b => if b then "True" else "False"
  | int n => Text.integerText n
  | float x => Number.floatText x
  | string s => Text.quoted s
  | array items => "[" ++ ", ".intercalate (shownItems items) ++ "]"
  | object fields => "\x7b" ++ ", ".intercalate (shownFields fields) ++ "\x7d"

def shownItems : List Json → List String
  | [] => []
  | v :: vs => shown v :: shownItems vs

def shownFields : List (String × Json) → List String
  | [] => []
  | (k, v) :: fs => (Text.quoted k ++ ": " ++ shown v) :: shownFields fs
end

/-- a truth value or a finite number as a mantissa and an exponent of two -/
def scaled? : Json → Option (Int × Int)
  | bool b => some (if b then 1 else 0, 0)
  | int n => some (n, 0)
  | float x =>
    match Number.Binary64.ofBits x.toBits with
    | .finite negative m e => some (if negative then -(m : Int) else m, e)
    | _ => none
  | _ => none

/-- the same amount, whatever types it is given in -/
def sameNumber (a b : Json) : Bool :=
  match a, b with
  | float x, float y => x == y
  | a, b =>
    match a.scaled?, b.scaled? with
    | some (m, e), some (n, f) => m * Number.twoPow (e - min e f).toNat = n * Number.twoPow (f - min e f).toNat
    | _, _ => false

mutual
/-- the same value: numbers by their amount, the fields of objects in any order -/
def same : Json → Json → Bool
  | null, null => true
  | string s, string t => s = t
  | array xs, array ys => sameItems xs ys
  | object fs, object gs => fs.length = gs.length && sameFields fs gs
  | a, b => sameNumber a b

def sameItems : List Json → List Json → Bool
  | [], [] => true
  | x :: xs, y :: ys => same x y && sameItems xs ys
  | _, _ => false

/-- every field of the one is a field of the other -/
def sameFields : List (String × Json) → List (String × Json) → Bool
  | [], _ => true
  | (k, v) :: fs, gs =>
    (match gs.lookup k with
      | some w => same v w
      | none => false) && sameFields fs gs
end

/-- the field of an object under a key, the last one written if there are several -/
def field? {σ : Type} (key : String) : Json σ → Option (Json σ)
  | object fields => (fields.reverse.find? fun f => f.1 == key).map (·.2)
  | _ => none

end Json

end Turnstile
