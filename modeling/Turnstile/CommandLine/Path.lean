/-
Paths of files.

A path has a root, which is empty for a relative one, and parts. Empty parts and single dots are left out, double dots stay
as they are written.
-/

namespace Turnstile

structure Path where
  root : String
  parts : List String
  deriving DecidableEq, Repr

namespace Path

/-- two slashes in front are a root of their own, any other number is the usual one -/
def rootOf : List Char → String
  | '/' :: '/' :: '/' :: _ => "/"
  | '/' :: '/' :: _ => "//"
  | '/' :: _ => "/"
  | _ => ""

def ofString (s : String) : Path := ⟨rootOf s.toList, (s.splitOn "/").filter fun p => p ≠ "" && p ≠ "."⟩

/-- a path as it is written; one without parts is a dot -/
def text (p : Path) : String :=
  let s := p.root ++ "/".intercalate p.parts
  if s = "" then "." else s

/-- a path below another one -/
def append (p : Path) (parts : List String) : Path := ⟨p.root, p.parts ++ parts⟩

def parent (p : Path) : Path := ⟨p.root, p.parts.dropLast⟩

/-- a null character is in a part, which no operation on files takes -/
def hasNull (p : Path) : Bool := p.parts.any fun part => part.toList.contains '\x00'

/-- the place that parts lead to from another place, by their names alone -/
def follow (place : List String) (parts : List String) : List String :=
  parts.foldl (fun place p => if p = ".." then place.dropLast else place ++ [p]) place

/-- the place of a path, seen from a working directory, by its names alone -/
def resolve (workingDirectory : List String) (p : Path) : List String :=
  follow (if p.root = "" then workingDirectory else []) p.parts

/-- the parts that two places have in common in front -/
def commonPair : List String → List String → List String
  | a :: as, b :: bs => if a = b then a :: commonPair as bs else []
  | _, _ => []

/-- the deepest directory that holds all of some places -/
def commonDirectory : List (List String) → List String
  | [] => []
  | p :: ps => (ps.map List.dropLast).foldl commonPair p.dropLast

/-- the way from a directory to a place, if the place is in the directory -/
def relativeTo? (directory place : List String) : Option (List String) :=
  if directory.isPrefixOf place then some (place.drop directory.length) else none

theorem commonPair_prefix_left (a b : List String) : commonPair a b <+: a := by
  induction a generalizing b with
  | nil => cases b <;> simp [commonPair]
  | cons x a ih =>
    cases b with
    | nil => simp [commonPair]
    | cons y b =>
      by_cases h : x = y
      · simp only [commonPair, h, if_true]
        exact List.cons_prefix_cons.2 ⟨rfl, ih b⟩
      · simp [commonPair, h]

theorem commonPair_prefix_right (a b : List String) : commonPair a b <+: b := by
  induction a generalizing b with
  | nil => cases b <;> simp [commonPair]
  | cons x a ih =>
    cases b with
    | nil => simp [commonPair]
    | cons y b =>
      by_cases h : x = y
      · simp only [commonPair, h, if_true]
        exact List.cons_prefix_cons.2 ⟨rfl, ih b⟩
      · simp [commonPair, h]

end Path

end Turnstile
