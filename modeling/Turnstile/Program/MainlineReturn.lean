/-
Returns outside every function.

`mainlineReturn` looks for the first in pre-order. The operands of a chain of short-circuit operators are all expected to
be there; one that is missing is a defect of the program.
-/
import Turnstile.Program.Node

namespace Turnstile

/-- a part of an operator that must be there is absent -/
inductive MissingOperand where
  | missingOperand
  deriving DecidableEq, Repr

/-- the first answer that is found or fails -/
def firstFound {α β ε : Type} (f : α → Except ε (Option β)) : List α → Except ε (Option β)
  | [] => .ok none
  | x :: xs =>
    match f x with
    | .ok none => firstFound f xs
    | found => found

namespace Node

/-- the first return of a part of a program that is not inside a function -/
def mainlineReturn (n : Node) : Except MissingOperand (Option Node) :=
  match n with
  | returnStatement span argument => .ok (some (returnStatement span argument))
  | function .. => .ok none
  | n =>
    if _h : n.isLogical then
      firstFound (fun
        | ⟨(_, some m), _⟩ => m.mainlineReturn
        | ⟨(_, none), _⟩ => .error .missingOperand) (n.operands .root).attach
    else firstFound (fun ⟨c, _⟩ => c.mainlineReturn) n.children.attach
termination_by sizeOf n
decreasing_by
  · exact operand_lt _h ‹_›
  · exact sizeOf_lt_of_mem_children ‹_›

end Node

end Turnstile
