/-
Collecting the errors and warnings of a run.

Diagnostics are kept until they are flushed and then written in order. The counts of errors and warnings are never reset.
Finalizing fails if there was an error; a managed block flushes at its end, writes the counts and stops that failure, and
no other.
-/
import Turnstile.Failure

namespace Turnstile

structure Diagnostic where
  classification : String
  message : String
  trace : List String
  deriving DecidableEq, Repr

namespace Diagnostic

/-- a diagnostic as it is written -/
def text (d : Diagnostic) : String :=
  d.classification ++ ": " ++ d.message ++ "\n" ++ String.join (d.trace.map fun t => "\t" ++ t ++ "\n")

/-- a file with the line an error is at, if that is known -/
def origin (line : Option String) (file : Option String) : List String :=
  match line, file.filter (· ≠ "") with
  | some l, f => ["File \"" ++ f.getD "<unknown>" ++ "\", line " ++ l]
  | none, some f => ["File \"" ++ f ++ "\""]
  | none, none => []

/-- an error met while a file was worked on; without a message its text is shown -/
def ofError (classification message text : String) (line : Option String) (file : Option String) : Diagnostic :=
  ⟨classification, if message = "" then text else message, origin line file⟩

end Diagnostic

structure Diagnostics where
  errors : Nat
  warnings : Nat
  /-- what is still to be written -/
  buffer : List Diagnostic
  written : String
  deriving DecidableEq, Repr

/-- what leaves a step that fails -/
inductive Escape where
  /-- errors were recorded -/
  | abort (status : String)
  | other (message : String)
  deriving DecidableEq, Repr

/-- one step of a report -/
inductive ReportStep where
  | error (d : Diagnostic)
  | warn (d : Diagnostic)
  /-- an error that was met is recorded, with its place if there is one -/
  | exception (classification message text : String) (line file : Option String)
  | flush
  | finalize
  | fail (message : String)
  | managed (steps : List ReportStep)
  deriving Inhabited

namespace Diagnostics

def empty : Diagnostics := ⟨0, 0, [], ""⟩

def error (s : Diagnostics) (d : Diagnostic) : Diagnostics :=
  { s with buffer := s.buffer ++ [d], errors := s.errors + 1 }

def warn (s : Diagnostics) (d : Diagnostic) : Diagnostics :=
  { s with buffer := s.buffer ++ [d], warnings := s.warnings + 1 }

def status (s : Diagnostics) : String :=
  Text.integerText s.errors ++ " errors, " ++ Text.integerText s.warnings ++ " warnings"

/-- writes what is buffered -/
def flush (s : Diagnostics) : Diagnostics :=
  { s with written := s.written ++ String.join (s.buffer.map Diagnostic.text), buffer := [] }

/-- fails if an error was ever recorded -/
def finalize (s : Diagnostics) : Option Escape := if 0 < s.errors then some (.abort s.status) else none

/-- the end of a managed block, from what left it to what goes on -/
def close (s : Diagnostics) (escape : Option Escape) : Diagnostics × Option Escape :=
  let s := s.flush
  let verdict := if escape.isSome then "Instrumentation Aborted - " else "Instrumentation Successful - "
  ({ s with written := s.written ++ verdict ++ s.status ++ "\n" },
    match escape with
    | some (.abort _) => none
    | escape => escape)

mutual
/-- one step -/
def step (s : Diagnostics) : ReportStep → Diagnostics × Option Escape
  | .error d => (s.error d, none)
  | .warn d => (s.warn d, none)
  | .exception classification message text line file => (s.error (.ofError classification message text line file), none)
  | .flush => (s.flush, none)
  | .finalize => (s, s.finalize)
  | .fail message => (s, some (.other message))
  | .managed steps =>
    let (s, escape) := run s steps
    s.close escape

/-- steps up to the first that fails -/
def run (s : Diagnostics) : List ReportStep → Diagnostics × Option Escape
  | [] => (s, none)
  | b :: bs =>
    match step s b with
    | (s, none) => run s bs
    | (s, some escape) => (s, some escape)
end

end Diagnostics

end Turnstile
