/-
Concrete trees of JavaScript programs.

A node covers a byte range and carries a type name; its children may stand in fields. Comments and interpreter lines may
occur anywhere and are skipped. `firstFault?` finds the first node that marks a syntax error.
-/

namespace Turnstile

/-- a node of a concrete tree -/
structure Tree where
  /-- the type name; tokens have their text as type -/
  kind : String
  start : Nat
  stop : Nat
  /-- not a mere token -/
  named : Bool
  /-- text that fits nowhere -/
  isError : Bool
  /-- a token that was expected and is not there -/
  isMissing : Bool
  /-- an error or a missing token lies at or below this node -/
  hasError : Bool
  /-- the field of its parent this node stands in -/
  field : Option String
  children : List Tree
  deriving Inhabited

namespace Tree

/-- a node over some children -/
def node (kind : String) (start stop : Nat) (children : List Tree) : Tree :=
  ⟨kind, start, stop, true, false, false, children.any hasError, none, children⟩

def leaf (kind : String) (start stop : Nat) : Tree := node kind start stop []

/-- a mere token -/
def token (text : String) (start stop : Nat) : Tree := { leaf text start stop with named := false }

def inField (t : Tree) (field : String) : Tree := { t with field := some field }

/-- text that fits nowhere -/
def misplaced (t : Tree) : Tree := { t with isError := true, hasError := true }

/-- comments of all forms -/
def isComment (t : Tree) : Bool := t.kind = "comment" || t.kind = "html_comment" || t.kind = "hash_bang_line"

/-- the named children that are not comments -/
def parts (t : Tree) : List Tree := t.children.filter fun c => c.named && !c.isComment

/-- the first child that stands in a field -/
def child? (t : Tree) (field : String) : Option Tree := t.children.find? fun c => c.field == some field

theorem mem_children_of_mem_parts {t c : Tree} (h : c ∈ t.parts) : c ∈ t.children := (List.mem_filter.1 h).1

theorem mem_children_of_child? {t c : Tree} {field : String} (h : t.child? field = some c) : c ∈ t.children :=
  List.mem_of_find?_eq_some h

theorem sizeOf_lt_of_mem_children {t c : Tree} (h : c ∈ t.children) : sizeOf c < sizeOf t := by
  have hlt := List.sizeOf_lt_of_mem h
  cases t with
  | mk => exact Nat.lt_trans hlt (by simp only [mk.sizeOf_spec]; omega)

/-- a node that marks a syntax error -/
def isFault (t : Tree) : Bool := t.isError || t.isMissing

theorem sizeOf_append (ts us : List Tree) : sizeOf (ts ++ us) + 1 = sizeOf ts + sizeOf us := by
  induction ts with
  | nil => simp only [List.nil_append, List.nil.sizeOf_spec]; omega
  | cons t ts ih => simp only [List.cons_append, List.cons.sizeOf_spec]; omega

theorem sizeOf_children_lt (t : Tree) : sizeOf t.children < sizeOf t := by
  cases t with
  | mk => simp only [mk.sizeOf_spec]; omega

/-- the first fault at or below the nodes that are still to be visited, the next one in front; it is sought below a node only
if the node says that it holds one -/
def seekFault? : List Tree → Option Tree
  | [] => none
  | t :: rest =>
    if t.isFault then some t
    else if t.hasError then seekFault? (t.children ++ rest)
    else seekFault? rest
termination_by stack => sizeOf stack
decreasing_by
  · have happend := sizeOf_append t.children rest
    have hlt := t.sizeOf_children_lt
    simp only [List.cons.sizeOf_spec]
    omega
  · simp only [List.cons.sizeOf_spec]
    omega

/-- the first node that is an error or missing, in a search that goes down before it goes on -/
def firstFault? (t : Tree) : Option Tree := seekFault? [t]

end Tree

end Turnstile
