/-
Calls that share an instrumenter.

A call is a batch on the instrumenter: one of a single unit, for a caller who waits or for a receiver, or one of many. A call
with anything that is no unit is refused and starts nothing. The workers of all calls take turns on the one instrumenter, so
calls may overlap or follow one another.
-/
import Turnstile.Batch

namespace Turnstile

/-- a call of an instrumenter, with values of any type -/
inductive Call where
  | sync (code file : Json)
  | async (code file : Json)
  | many (units : List (Json × Json)) (limit : Int)

/-- the batch of a call -/
def Call.batch? (read : TreeReader) (s : Instrumenter) : Call → Except BatchFault Batch
  | sync code file => Batch.ofUnits? read s [(code, file)] 1
  | async code file => Batch.ofUnits? read s [(code, file)] 1
  | many units limit => Batch.ofUnits? read s units limit

structure Session where
  instrumenter : Instrumenter
  /-- the calls that were not refused, in order -/
  calls : List Batch
  /-- the workers as they kept what they ended in, the last first -/
  settled : List Worker

inductive SessionStep where
  | call (c : Call)
  /-- a step of the batch of a call -/
  | work (call : Nat) (step : BatchStep)

/-- the worker that a step settles, if it does -/
def Batch.settling (b : Batch) : BatchStep → List Worker
  | .start => []
  | .look _ => []
  | .advance i =>
    match b.workers[i]? with
    | some ⟨j, course, .working [] seen⟩ => [⟨j, course, .working [] seen⟩]
    | _ => []

/-- a batch that goes on with another instrumenter -/
def Batch.on (b : Batch) (s : Instrumenter) : Batch := { b with instrumenter := s }

namespace Session

def new (s : Instrumenter) : Session := ⟨s, [], []⟩

def step? (read : TreeReader) (out : Outside) (s : Session) : SessionStep → Option Session
  | .call c =>
    match c.batch? read s.instrumenter with
    | .ok b => some { s with calls := s.calls ++ [b] }
    | .error _ => some s
  | .work i step =>
    match s.calls[i]? with
    | none => none
    | some b =>
      match (b.on s.instrumenter).step? out step with
      | none => none
      | some b' => some ⟨b'.instrumenter, s.calls.set i b', b.settling step ++ s.settled⟩

/-- no call has anything left to be done -/
def isIdle (s : Session) : Bool := s.calls.all Batch.isDone

end Session

end Turnstile
