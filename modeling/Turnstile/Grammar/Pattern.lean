/-
Patterns from expressions.

What is read as an expression turns out to be a pattern when an assignment, an arrow or a loop follows. `pattern?` reads a
tree again as the place that a value goes to; in a list or an object the parts may have defaults.
-/
import Turnstile.Concrete.Tree

namespace Turnstile.Grammar

/-- where a pattern stands -/
inductive PatternPlace where
  | target
  /-- in a list, or as a parameter -/
  | element
  /-- in an object -/
  | member
  deriving DecidableEq, Repr

/-- a node of another kind over other children -/
def reread (t : Tree) (kind : String) (children : List Tree) : Tree :=
  { Tree.node kind t.start t.stop children with field := t.field }

/-- an assignment as a place with a default, unless its left side is between parentheses -/
def withDefault? (t : Tree) : Option Tree :=
  match t.children with
  | left :: _ => if left.kind = "parenthesized_expression" then none else some (reread t "assignment_pattern" t.children)
  | [] => none

mutual
/-- a tree as a pattern -/
def pattern? (place : PatternPlace) : Tree → Option Tree
  | ⟨kind, start, stop, named, isError, isMissing, hasError, field, children⟩ =>
    let t : Tree := ⟨kind, start, stop, named, isError, isMissing, hasError, field, children⟩
    match kind with
    | "identifier" | "undefined" | "member_expression" | "subscript_expression" | "array_pattern" | "object_pattern" =>
      if place = .member then none else some t
    | "array" => if place = .member then none else (patterns? .element children).map (reread t "array_pattern")
    | "object" => if place = .member then none else (patterns? .member children).map (reread t "object_pattern")
    | "assignment_expression" => if place = .element then withDefault? t else none
    | "spread_element" => if place = .target then none else (patterns? .target children).map (reread t "rest_pattern")
    | "shorthand_property_identifier" =>
      if place = .member then some (reread t "shorthand_property_identifier_pattern" []) else none
    | "object_assignment_pattern" =>
      if place = .member then some (reread t kind children) else none
    | "pair" => if place = .member then (pairValue? children).map (reread t "pair_pattern") else none
    | _ => none

/-- the patterns in a list of trees that must all be such -/
def patterns? (place : PatternPlace) : List Tree → Option (List Tree)
  | [] => some []
  | t :: ts =>
    match pattern? place t, patterns? place ts with
    | some t, some ts => some (t :: ts)
    | _, _ => none

/-- a key with the pattern behind it -/
def pairValue? : List Tree → Option (List Tree)
  | key :: values =>
    match patterns? .element values with
    | some values => some (key :: values)
    | none => none
  | [] => none
end

end Turnstile.Grammar
