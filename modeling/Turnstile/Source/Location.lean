/-
Places in a source text.

A location is a range of lines and columns: lines from one, columns from zero, counted in characters. A span adds the
byte range it was computed from.
-/
import Turnstile.Text.Integer

namespace Turnstile

/-- a line and column range, one past the last character at its end -/
structure Location where
  startLine : Int
  startColumn : Int
  endLine : Int
  endColumn : Int
  deriving DecidableEq, Repr, Inhabited

/-- a byte range with its location -/
structure Span where
  start : Nat
  stop : Nat
  location : Location
  deriving DecidableEq, Repr, Inhabited

namespace Location

/-- `line L:C` of the start, with a file in front and a name behind where they are given and not empty -/
def origin (l : Location) (file name : Option String) : String :=
  let place := "line " ++ Text.integerText l.startLine ++ ":" ++ Text.integerText l.startColumn
  let place := match file with
    | some f => if f = "" then place else "File \"" ++ f ++ "\", " ++ place
    | none => place
  match name with
  | some n => if n = "" then place else place ++ " in " ++ n
  | none => place

end Location

end Turnstile
