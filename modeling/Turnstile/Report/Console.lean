/-
Printing the phases of a run.

Scopes nest; beginning and ending one prints its path, ending it also the time since it began. A begin or an end has two
halves: it looks at the open scopes and the clock, and then moves on from the scopes that it saw and prints its line. When
several workers share a console, others may come in between. The stream may refuse a line; what was done before the line then
stays done. What is printed and what is logged go into one transcript, in order. A `ConsoleStep` is one line of what a phase
does here, so that the steps of several phases can be mixed.
-/
import Turnstile.Number.Binary64
import Turnstile.Text.Integer

namespace Turnstile

inductive LogLevel where
  | debug
  | info
  | warning
  deriving DecidableEq, Repr

def LogLevel.name : LogLevel → String
  | debug => "DEBUG"
  | info => "INFO"
  | warning => "WARNING"

def LogLevel.rank : LogLevel → Nat
  | debug => 0
  | info => 1
  | warning => 2

/-- the parts of the program that log -/
inductive LogSource where
  | parser
  | lowering
  | index
  | generator
  | instrumenter
  | commandLine
  deriving DecidableEq, Repr

structure LogRecord where
  level : LogLevel
  source : LogSource
  message : String
  deriving DecidableEq, Repr

/-- one step of what a phase prints and logs -/
inductive ConsoleStep where
  | begin (name : String)
  | stop
  | log (level : LogLevel) (source : LogSource) (message : String)
  | listing (title : String) (lines : List String)
  deriving DecidableEq, Repr

/-- one item of a transcript -/
inductive Entry where
  | text (s : String)
  | log (r : LogRecord)
  deriving DecidableEq, Repr

/-- an open scope with the time it began -/
structure Scope where
  name : String
  started : Float

/-- what a begin or an end sees in its first half -/
structure Glance where
  scopes : List Scope
  time : Float

/-- why a step on the console fails -/
inductive ConsoleFault where
  /-- the stream takes no such line -/
  | refused
  /-- no scope is open -/
  | noScope
  deriving DecidableEq, Repr

structure Console where
  /-- the readings of the clock, one after another -/
  clock : Nat → Float
  /-- how often the clock was read -/
  readings : Nat
  /-- the open scopes, innermost first -/
  scopes : List Scope
  /-- what was printed and logged, last first -/
  transcript : List Entry

namespace Console

def start (clock : Nat → Float) : Console := ⟨clock, 0, [], []⟩

/-- the time of the next reading -/
def now (c : Console) : Float := c.clock c.readings

def log (c : Console) (level : LogLevel) (source : LogSource) (message : String) : Console :=
  { c with transcript := .log ⟨level, source, message⟩ :: c.transcript }

/-- the names of some scopes, outermost first, between brackets -/
def pathText (scopes : List Scope) : String := "[ " ++ " | ".intercalate (scopes.reverse.map (·.name)) ++ " ]"

def path (c : Console) : String := pathText c.scopes

/-- looks at the scopes and the clock -/
def look (c : Console) : Glance × Console := (⟨c.scopes, c.now⟩, { c with readings := c.readings + 1 })

/-- what was seen before, or a look now -/
def glance (seen : Option Glance) (c : Console) : Glance × Console :=
  match seen with
  | some g => (g, c)
  | none => c.look

section Printing

variable (takes : String → Bool)

/-- a line behind some tab stops, if the stream takes it -/
def output (c : Console) (s : String) (tabs : Nat) : Console × Option ConsoleFault :=
  let line := String.ofList (List.replicate tabs '\t') ++ s ++ "\n"
  if takes line then ({ c with transcript := .text line :: c.transcript }, none) else (c, some .refused)

/-- lines one after another, up to the first that the stream refuses -/
def outputAll (c : Console) : List String → Console × Option ConsoleFault
  | [] => (c, none)
  | line :: lines =>
    match c.output takes line 0 with
    | (c, none) => outputAll c lines
    | (c, some e) => (c, some e)

/-- opens a scope inside those seen, and then prints its path -/
def begin (c : Console) (seen : Glance) (name : String) : Console × Option ConsoleFault :=
  let c := { c with scopes := ⟨name, seen.time⟩ :: seen.scopes }
  c.output takes ("begin " ++ c.path) 0

/-- prints the path and the time of the innermost scope seen, and then closes it -/
def stop (c : Console) (seen : Glance) : Console × Option ConsoleFault :=
  match seen.scopes with
  | [] => (c, some .noScope)
  | s :: rest =>
    let elapsed := Number.elapsedText (seen.time - s.started)
    match c.output takes ("end   " ++ pathText seen.scopes ++ " " ++ elapsed) 0 with
    | (c, none) => ({ c with scopes := rest }, none)
    | (c, some e) => (c, some e)

/-- a listing of lines with their numbers, under a title -/
def annotated (c : Console) (title : String) (lines : List String) : Console × Option ConsoleFault :=
  let width := (Text.integerText lines.length).length
  let numbered := lines.zipIdx.map fun (line, i) => Number.padLeft width (Text.integerText (i + 1 : Nat)) ++ " | " ++ line
  c.outputAll takes
    (("---- " ++ title ++ " ----") :: numbered ++ [String.ofList (List.replicate (title.length + 10) '-')])

/-- does one step, a begin or an end from what was seen before or else as a whole, and says why it failed if it did -/
def attempt (seen : Option Glance) (c : Console) : ConsoleStep → Console × Option ConsoleFault
  | .begin name =>
    let (seen, c) := c.glance seen
    c.begin takes seen name
  | .stop =>
    let (seen, c) := c.glance seen
    c.stop takes seen
  | .log level source message => (c.log level source message, none)
  | .listing title lines => c.annotated takes title lines

end Printing

/-- a stream that takes every line -/
def takesAll : String → Bool := fun _ => true

/-- does one step as a whole on a stream that takes every line -/
def perform (c : Console) (step : ConsoleStep) : Console := (c.attempt takesAll none step).1

/-- does some steps in order -/
def performAll (c : Console) (steps : List ConsoleStep) : Console := steps.foldl perform c

/-- everything printed, without what was logged -/
def printed (c : Console) : String :=
  String.join (c.transcript.reverse.filterMap fun
    | .text s => some s
    | .log _ => none)

/-- everything logged -/
def logged (c : Console) : List LogRecord :=
  c.transcript.reverse.filterMap fun
    | .text _ => none
    | .log r => some r

/-- everything printed, and what was logged at a level or above as lines between -/
def stream (c : Console) (level : LogLevel) : String :=
  String.join (c.transcript.reverse.map fun
    | .text s => s
    | .log r => if level.rank ≤ r.level.rank then r.level.name ++ ": " ++ r.message ++ "\n" else "")

end Console

end Turnstile
