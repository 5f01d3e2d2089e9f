/-
Phases of the work on a unit.

A phase is what it does to the console and what it ends in. Phases follow one another until one fails; what was done before
stays done. A phase may have a scope of its own, which is closed also when it fails.

The steps of a phase are planned as if none of them failed. When one fails on the console, the others are passed over, but the
scopes that were entered are still closed (`Course`), and the phase ends in that failure.
-/
import Turnstile.Failure

namespace Turnstile

structure Phase (α : Type) where
  steps : List ConsoleStep
  result : Except Failure α

namespace Phase

variable {α β : Type}

def ofSteps (steps : List ConsoleStep) : Phase Unit := ⟨steps, .ok ()⟩

def ofResult (result : Except Failure α) : Phase α := ⟨[], result⟩

def failed (e : Failure) : Phase α := ofResult (.error e)

/-- one phase after another, if that did not fail -/
def andThen (p : Phase α) (next : α → Phase β) : Phase β :=
  match p.result with
  | .ok a => ⟨p.steps ++ (next a).steps, (next a).result⟩
  | .error e => ⟨p.steps, .error e⟩

instance : Monad Phase where
  pure a := ofResult (.ok a)
  bind := andThen

/-- a phase inside a scope, if it is to be shown at all -/
def inScope (shown : Bool) (name : String) (p : Phase α) : Phase α :=
  if shown then ⟨.begin name :: p.steps ++ [.stop], p.result⟩ else p

/-! ## Scopes -/

/-- by how many scopes a step goes inward -/
def depthChange : ConsoleStep → Int
  | .begin _ => 1
  | .stop => -1
  | _ => 0

/-- by how many scopes some steps go inward in all -/
def depthChanges (steps : List ConsoleStep) : Int := steps.foldr (fun s n => depthChange s + n) 0

theorem depthChanges_append (as bs : List ConsoleStep) :
    depthChanges (as ++ bs) = depthChanges as + depthChanges bs := by
  induction as with
  | nil => simp [depthChanges]
  | cons a as ih =>
    simp only [depthChanges, List.cons_append, List.foldr_cons] at *
    omega

end Phase

/-! ## Steps that fail -/

/-- how the steps of a phase go on -/
inductive Course where
  /-- none of them has failed -/
  | planned
  /-- a step has failed; `unentered` scopes around the next step were not entered -/
  | failing (fault : ConsoleFault) (unentered : Nat)
  deriving DecidableEq, Repr

namespace Course

/-- how the steps go on if this one is passed over, none if it is to be done: of the steps behind a failure only those that
close a scope that was entered -/
def pass? : Course → ConsoleStep → Option Course
  | planned, _ => none
  | failing e n, .begin _ => some (failing e (n + 1))
  | failing e (n + 1), .stop => some (failing e n)
  | failing _ 0, .stop => none
  | failing e n, _ => some (failing e n)

/-- a step looks at the console first if it is a begin or an end that is to be done -/
def looks (course : Course) (step : ConsoleStep) : Bool := (course.pass? step).isNone && Phase.depthChange step != 0

/-- how the steps go on behind one that was done; a scope is not entered if its begin fails -/
def after (course : Course) (step : ConsoleStep) : Option ConsoleFault → Course
  | none => course
  | some e =>
    match step with
    | .begin _ => failing e 1
    | _ => failing e 0

/-- one step on the console, done or passed over -/
def step (takes : String → Bool) (seen : Option Glance) (state : Console × Course) (step : ConsoleStep) : Console × Course :=
  match state.2.pass? step with
  | some course => (state.1, course)
  | none =>
    let (console, fault) := state.1.attempt takes seen step
    (console, state.2.after step fault)

/-- what a phase ends in -/
def result {α : Type} (course : Course) (planned : Except Failure α) : Except Failure α :=
  match course with
  | .planned => planned
  | failing e _ => .error (.console e)

end Course

end Turnstile
