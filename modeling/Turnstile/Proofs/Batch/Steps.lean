/-
What a step of a batch does.

- `Batch.Moves`: the six steps as a relation between two states, with `Batch.moves_of_step?` and `Batch.Moves.step?_eq`: they
  are the steps that a batch can do;
- `Batch.Reaches`: the states that a batch comes to by steps of some kind, with the uses of its slots on the way. With
  `AnyStep` the receiver accepts each delivery and the stream takes each line as it likes, and workers may act on what they
  saw before others came in between. `LinesTaken`, `Calm` and `Whole` steps are those where this is excluded in part.
-/
import Turnstile.Batch
import Turnstile.Proofs.Report.Scopes

namespace Turnstile

/-! ## A place in a list -/

theorem exists_append_of_getElem? {α : Type} {xs : List α} {i : ℕ} {x : α} (h : xs[i]? = some x) :
    ∃ before after, xs = before ++ x :: after ∧ before.length = i := by
  obtain ⟨hi, rfl⟩ := List.getElem?_eq_some_iff.1 h
  refine ⟨xs.take i, xs.drop (i + 1), ?_, by simp; omega⟩
  rw [List.getElem_cons_drop, List.take_append_drop]

/-- what holds of all items still does when one is replaced by another that has it -/
theorem forall_mem_replace {α : Type} {P : α → Prop} {before after : List α} {x y : α}
    (h : ∀ z ∈ before ++ x :: after, P z) (hy : P y) : ∀ z ∈ before ++ y :: after, P z := by
  intro z hz
  rcases List.mem_append.1 hz with hz | hz
  · exact h z (List.mem_append_left _ hz)
  · rcases List.mem_cons.1 hz with rfl | hz
    · exact hy
    · exact h z (List.mem_append_right _ (List.mem_cons_of_mem _ hz))

theorem sum_map_append_cons {α : Type} (f : α → ℤ) (before after : List α) (x : α) :
    ((before ++ x :: after).map f).sum = ((before ++ after).map f).sum + f x := by
  simp only [List.map_append, List.map_cons, List.sum_append, List.sum_cons]
  ring

/-- what was seen for the next step of a worker -/
def Worker.seen? (w : Worker) : Option Glance :=
  match w.stage with
  | .working _ seen => seen
  | _ => none

namespace Batch

variable {out : Outside} {b b' : Batch} {s : BatchStep}

/-! ## Steps -/

/-- the steps of a batch -/
inductive Moves (out : Outside) (b : Batch) : BatchStep → Batch → Prop
  /-- the next unit takes a slot -/
  | start {free : ℕ} {j : Job} {rest : List Job} : b.free = free + 1 → b.waiting = j :: rest →
      Moves out b .start { b with free := free, waiting := rest, workers := b.workers ++ [.start j] }
  /-- a worker looks at the console for its next step -/
  | look {before after : List Worker} {j : Job} {course : Course} {step : ConsoleStep} {rest : List ConsoleStep} :
      b.workers = before ++ ⟨j, course, .working (step :: rest) none⟩ :: after → course.looks step = true →
      Moves out b (.look before.length)
        { b with
          workers := before ++ ⟨j, course, .working (step :: rest) (some b.instrumenter.console.look.1)⟩ :: after
          instrumenter := { b.instrumenter with console := b.instrumenter.console.look.2 } }
  /-- a worker does its next step on the console, or passes it over -/
  | console {before after : List Worker} {j : Job} {course course' : Course} {step : ConsoleStep} {rest : List ConsoleStep}
      {seen : Option Glance} {console' : Console} :
      b.workers = before ++ ⟨j, course, .working (step :: rest) seen⟩ :: after →
      Course.step out.takes seen (b.instrumenter.console, course) step = (console', course') →
      Moves out b (.advance before.length)
        { b with
          workers := before ++ ⟨j, course', .working rest none⟩ :: after
          instrumenter := { b.instrumenter with console := console' } }
  /-- what a worker ended in is kept -/
  | settle {before after : List Worker} {j : Job} {course : Course} {seen : Option Glance} :
      b.workers = before ++ ⟨j, course, .working [] seen⟩ :: after →
      Moves out b (.advance before.length)
        { b with
          workers := before ++ ⟨j, course, .settled⟩ :: after
          instrumenter := b.instrumenter.keep (course.result j.phases.result) }
  /-- the receiver is told what a worker ended in -/
  | deliver {before after : List Worker} {j : Job} {course : Course} : b.workers = before ++ ⟨j, course, .settled⟩ :: after →
      Moves out b (.advance before.length)
        { b with
          workers := before ++ ⟨j, course, .delivered (out.accepts ⟨j.file, course.result j.phases.result⟩)⟩ :: after
          deliveries := ⟨j.file, course.result j.phases.result⟩ :: b.deliveries }
  /-- a worker gives its slot back -/
  | release {before after : List Worker} {j : Job} {course : Course} {accepted : Bool} :
      b.workers = before ++ ⟨j, course, .delivered accepted⟩ :: after →
      Moves out b (.advance before.length)
        { b with workers := before ++ ⟨j, course, .finished⟩ :: after, free := b.free + 1 }

theorem getElem?_workers {before after : List Worker} {w : Worker} (h : b.workers = before ++ w :: after) :
    b.workers[before.length]? = some w := by
  rw [h, List.getElem?_append_right (le_refl _), Nat.sub_self, List.getElem?_cons_zero]

theorem set_workers {before after : List Worker} {w : Worker} (h : b.workers = before ++ w :: after) (w' : Worker) :
    b.workers.set before.length w' = before ++ w' :: after := by
  rw [h, List.set_append_right _ _ (le_refl _), Nat.sub_self, List.set_cons_zero]

theorem Moves.step?_eq (h : Moves out b s b') : b.step? out s = some b' := by
  cases h with
  | start hfree hwaiting => simp only [step?, start?, hfree, hwaiting]
  | look hworkers hlooks =>
    simp only [step?, look?, getElem?_workers hworkers, hlooks, if_true, update, set_workers hworkers]
  | console hworkers hstep =>
    simp only [step?, advance?, getElem?_workers hworkers, hstep, update, set_workers hworkers]
  | settle hworkers => simp only [step?, advance?, getElem?_workers hworkers, set_workers hworkers, Worker.outcome]
  | deliver hworkers =>
    simp only [step?, advance?, getElem?_workers hworkers, set_workers hworkers, Worker.delivery, Worker.outcome]
  | release hworkers => simp only [step?, advance?, getElem?_workers hworkers, set_workers hworkers]

theorem moves_of_look? {i : ℕ} (h : b.look? i = some b') : Moves out b (.look i) b' := by
  rw [look?] at h
  split at h
  · next j course step rest hw =>
    obtain ⟨before, after, hworkers, rfl⟩ := exists_append_of_getElem? hw
    split at h
    · next hlooks =>
      simp only [update, set_workers hworkers] at h
      cases h
      exact .look hworkers hlooks
    · cases h
  · cases h

theorem moves_of_advance? {i : ℕ} (h : b.advance? out i = some b') : Moves out b (.advance i) b' := by
  rw [advance?] at h
  split at h
  · cases h
  next w hw =>
  obtain ⟨j, course, stage⟩ := w
  obtain ⟨before, after, hworkers, rfl⟩ := exists_append_of_getElem? hw
  cases stage with
  | working rest seen =>
    cases rest with
    | nil =>
      simp only [set_workers hworkers] at h
      cases h
      exact .settle hworkers
    | cons step rest =>
      simp only [update, set_workers hworkers] at h
      cases h
      exact .console hworkers rfl
  | settled =>
    simp only [set_workers hworkers] at h
    cases h
    exact .deliver hworkers
  | delivered accepted =>
    simp only [set_workers hworkers] at h
    cases h
    exact .release hworkers
  | finished => cases h

theorem moves_of_step? (h : b.step? out s = some b') : Moves out b s b' := by
  cases s with
  | start =>
    simp only [step?, start?] at h
    split at h
    · next hfree hwaiting =>
      cases h
      exact .start hfree hwaiting
    · cases h
  | look i => exact moves_of_look? h
  | advance i => exact moves_of_advance? h

/-! ## Kinds of steps -/

/-- what is asked of a step, given the batch in front of it and what it meets outside -/
abbrev StepKind : Type := Batch → Outside → BatchStep → Prop

/-- any step at all -/
def AnyStep : StepKind := fun _ _ _ => True

/-- a step while every line is taken -/
def LinesTaken : StepKind := fun _ out _ => out.takes = Console.takesAll

/-- a step while every line is taken, and what its worker saw for it is still open -/
structure Calm (b : Batch) (out : Outside) (s : BatchStep) : Prop where
  taken : out.takes = Console.takesAll
  fresh : ∀ i w, s = .advance i → b.workers[i]? = some w → b.instrumenter.console.Fresh w.seen?

/-- a step while every line is taken, and no worker looks at the console without going on at once -/
structure Whole (_ : Batch) (out : Outside) (s : BatchStep) : Prop where
  taken : out.takes = Console.takesAll
  undivided : ∀ i, s ≠ .look i

/-! ## Runs -/

/-- a use of the slots of a batch -/
inductive SlotUse where
  | acquire
  | release
  deriving DecidableEq, Repr

/-- what a step does with the slots -/
def slotUse (b : Batch) : BatchStep → List SlotUse
  | .start => [.acquire]
  | .look _ => []
  | .advance i =>
    match b.workers[i]? with
    | some ⟨_, _, .delivered _⟩ => [.release]
    | _ => []

/-- the states that a batch comes to by steps of some kind, with the uses of its slots so far -/
inductive Reaches (kind : StepKind) (b : Batch) : List SlotUse → Batch → Prop
  | refl : Reaches kind b [] b
  | step {uses : List SlotUse} {mid after : Batch} {out : Outside} {s : BatchStep} :
      Reaches kind b uses mid → kind mid out s → mid.step? out s = some after → Reaches kind b (uses ++ mid.slotUse s) after

variable {kind kind' : StepKind} {uses uses' : List SlotUse}

theorem Reaches.trans {mid : Batch} (h : b.Reaches kind uses mid) (h' : mid.Reaches kind uses' b') :
    b.Reaches kind (uses ++ uses') b' := by
  induction h' with
  | refl => rwa [List.append_nil]
  | step _ hkind hstep ih =>
    rw [← List.append_assoc]
    exact ih.step hkind hstep

theorem Reaches.any (h : b.Reaches kind uses b') : b.Reaches AnyStep uses b' := by
  induction h with
  | refl => exact .refl
  | step _ _ hstep ih => exact ih.step trivial hstep

/-- a schedule leads to a state that the batch comes to -/
theorem exists_reaches_of_run? {schedule : List BatchStep} (hkind : ∀ b s, s ∈ schedule → kind b out s)
    (h : b.run? out schedule = some b') : ∃ uses, b.Reaches kind uses b' := by
  induction schedule generalizing b with
  | nil =>
    cases h
    exact ⟨[], .refl⟩
  | cons s schedule ih =>
    obtain ⟨mid, hstep, hrest⟩ := Option.bind_eq_some_iff.1 h
    obtain ⟨uses, hreaches⟩ := ih (fun b t ht => hkind b t (List.mem_cons_of_mem _ ht)) hrest
    exact ⟨_, (Reaches.refl.step (hkind b s List.mem_cons_self) hstep).trans hreaches⟩

end Batch

end Turnstile
