/-
Instrumenting several units at once.

A batch has a number of slots. The next unit is started when a slot is free. Its worker then does its steps on the console,
keeps its map and trace if it succeeded, delivers what it ended in, and gives its slot back whether or not the receiver
took the delivery. All workers share one instrumenter; their steps come in any order. A worker may look at the console first
and begin or end a scope later, when others have come in between.

`step?` is the transition system; `run?` follows a schedule, and `inTurn` is the schedule that runs one unit after another.
-/
import Turnstile.Instrumenter

namespace Turnstile

/-- a unit with all that is to be done for it -/
structure Job where
  file : Option String
  phases : Phase Product

/-- how far a worker is -/
inductive Stage where
  /-- some steps on the console are left, the first of them with what was seen for it if it has been looked for -/
  | working (rest : List ConsoleStep) (seen : Option Glance)
  /-- what it ended in is kept -/
  | settled
  | delivered (accepted : Bool)
  | finished

structure Worker where
  job : Job
  /-- how its steps on the console go -/
  course : Course
  stage : Stage

/-- what a receiver is told about a unit -/
structure Delivery where
  file : Option String
  result : Except Failure Product

/-- what a step meets outside -/
structure Outside where
  /-- the deliveries that the receiver accepts -/
  accepts : Delivery → Bool
  /-- the lines that the stream of the console takes -/
  takes : String → Bool

structure Batch where
  free : Nat
  /-- what was not started yet, in order -/
  waiting : List Job
  /-- what was started, in order -/
  workers : List Worker
  instrumenter : Instrumenter
  /-- the last first -/
  deliveries : List Delivery

/-- why a batch is refused -/
inductive BatchFault where
  | misuse (m : Misuse)
  | negativeLimit
  deriving DecidableEq, Repr

def BatchFault.message : BatchFault → String
  | misuse m => m.message
  | negativeLimit => "semaphore initial value must be >= 0"

inductive BatchStep where
  /-- the next unit is started -/
  | start
  /-- a worker looks at the console for its next step -/
  | look (worker : Nat)
  /-- a worker does its next step -/
  | advance (worker : Nat)
  deriving DecidableEq, Repr

/-- the steps of a worker until its slot is free again: those on the console, then settling, delivery and release -/
def Job.stepCount (j : Job) : Nat := j.phases.steps.length + 3

namespace Worker

def start (j : Job) : Worker := ⟨j, .planned, .working j.phases.steps none⟩

/-- what the unit ends in -/
def outcome (w : Worker) : Except Failure Product := w.course.result w.job.phases.result

def delivery (w : Worker) : Delivery := ⟨w.job.file, w.outcome⟩

def holdsSlot (w : Worker) : Bool :=
  match w.stage with
  | .finished => false
  | _ => true

end Worker

namespace Batch

/-- the units of a batch, all of them checked before any of them is started -/
def ofUnits? (read : TreeReader) (s : Instrumenter) (units : List (Json × Json)) (limit : Int) :
    Except BatchFault Batch := do
  let units ← (units.mapM fun (code, file) => SourceUnit.ofJson? code file).mapError .misuse
  if limit < 0 then .error .negativeLimit
  else .ok ⟨limit.toNat, units.map fun u => ⟨u.file, u.phases read s.options⟩, [], s, []⟩

/-- starts the next unit, if there is one and a slot is free -/
def start? (b : Batch) : Option Batch :=
  match b.free, b.waiting with
  | free + 1, j :: rest => some { b with free := free, waiting := rest, workers := b.workers ++ [.start j] }
  | _, _ => none

/-- another worker at a place, and another console -/
def update (b : Batch) (i : Nat) (w : Worker) (console : Console) : Batch :=
  { b with workers := b.workers.set i w, instrumenter := { b.instrumenter with console } }

/-- the worker at a place looks at the console, if its next step is a begin or an end and it did not look for it before -/
def look? (b : Batch) (i : Nat) : Option Batch :=
  match b.workers[i]? with
  | some ⟨j, course, .working (step :: rest) none⟩ =>
    if course.looks step then
      let (seen, console) := b.instrumenter.console.look
      some (b.update i ⟨j, course, .working (step :: rest) (some seen)⟩ console)
    else none
  | _ => none

/-- the next step of the worker at a place, if it has one left -/
def advance? (out : Outside) (b : Batch) (i : Nat) : Option Batch :=
  match b.workers[i]? with
  | none => none
  | some w =>
    match w.stage with
    | .working (step :: rest) seen =>
      let (console, course) := Course.step out.takes seen (b.instrumenter.console, w.course) step
      some (b.update i { w with course, stage := .working rest none } console)
    | .working [] _ =>
      some { b with
        workers := b.workers.set i { w with stage := .settled }
        instrumenter := b.instrumenter.keep w.outcome }
    | .settled =>
      some { b with
        workers := b.workers.set i { w with stage := .delivered (out.accepts w.delivery) }
        deliveries := w.delivery :: b.deliveries }
    | .delivered _ => some { b with workers := b.workers.set i { w with stage := .finished }, free := b.free + 1 }
    | .finished => none

def step? (out : Outside) (b : Batch) : BatchStep → Option Batch
  | .start => b.start?
  | .look i => b.look? i
  | .advance i => b.advance? out i

/-- what a schedule leads to, if each of its steps can be done -/
def run? (out : Outside) (b : Batch) (schedule : List BatchStep) : Option Batch :=
  schedule.foldlM (step? out) b

/-- nothing is left to be done -/
def isDone (b : Batch) : Bool := b.waiting.isEmpty && b.workers.all fun w => !w.holdsSlot

/-- the schedule that runs what is waiting one after another, each step as a whole -/
def inTurn (b : Batch) : List BatchStep :=
  (b.waiting.zipIdx b.workers.length).flatMap fun (j, i) => .start :: List.replicate j.stepCount (.advance i)

end Batch

end Turnstile
