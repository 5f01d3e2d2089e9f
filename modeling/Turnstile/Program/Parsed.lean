/-
Typed programs from source texts.

A reader gives the concrete tree of a text. A tree that holds errors is described by the first of them, a tree without is
lowered and checked for early errors.
-/
import Turnstile.Concrete.Reader
import Turnstile.Failure
import Turnstile.Program.Lowering
import Turnstile.Text.Blank

namespace Turnstile

/-- a line with at most forty characters; dots stand for the end of a longer one -/
def shortened (line : List Char) : List Char := if 40 < line.length then line.take 37 ++ ['.', '.', '.'] else line

/-- what is wrong where some text fits nowhere: its first line is shown, without the blanks around the text -/
def causeIn (s : String) : Except Failure ParseCause :=
  let stripped := Text.strip s.toList
  if stripped.isEmpty then .ok .endOfInput
  else
    match Text.splitLines stripped with
    | [] => .error .lineless
    | line :: _ => .ok (.unexpected (String.ofList (shortened line)))

/-- what is wrong at an error node -/
def causeOf (src : SourceText) (bad : Tree) : Except Failure ParseCause :=
  if bad.isMissing then .ok (.missing bad.kind)
  else
    match src.slice? bad.start bad.stop with
    | none => .error .cutCharacter
    | some s => causeIn s

/-- the error of a tree that holds one -/
def syntaxError (src : SourceText) (file : Option String) (root : Tree) : Failure :=
  let bad := root.firstFault?.getD root
  let p := src.position bad.start
  match causeOf src bad with
  | .ok cause => .source ⟨cause, .position p.line p.column, file⟩
  | .error e => e

def LoweringFault.failure (file : Option String) : LoweringFault → Failure
  | missingPart => .defect .missingPart
  | emptyElse => .defect .emptyElse
  | cutCharacter => .cutCharacter
  | tooDeep => .source ⟨.tooDeep, .unknown, file⟩

def ReadFault.failure (file : Option String) : ReadFault → Failure
  | unreadable => .source ⟨.unreadable, .somewhere, file⟩
  | tooDeep => .source ⟨.tooDeep, .unknown, file⟩

def EarlyError.failure (file : Option String) (e : EarlyError) : Failure :=
  .source ⟨.early e.cause, .position e.location.startLine e.location.startColumn, file⟩

/-- the typed program of a text -/
def parseUnit (read : TreeReader) (src : SourceText) (file : Option String) : Except Failure Node :=
  match read src with
  | .error e => .error (e.failure file)
  | .ok root =>
    if root.hasError then .error (syntaxError src file root)
    else
      match Lowering.program read.depth src root with
      | .error e => .error (e.failure file)
      | .ok program =>
        match program.earlyError with
        | .error e => .error (e.failure file)
        | .ok () => .ok program

end Turnstile
