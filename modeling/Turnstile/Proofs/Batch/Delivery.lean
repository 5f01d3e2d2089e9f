/-
What a batch delivers.

- `Batch.Accounts`: the books of a run. Workers and waiting units are the units of the batch, slots are held or free, they
  were given back as often as the books say, and the receiver was told of the workers that are past delivery;
- `Accounts.move`: each step keeps the books, so every state reached has them (`Reaches.accounts`);
- `Accounts.exists_move`, `Accounts.exists_isDone`: with a slot at all, a batch never gets stuck and can always be finished;
- `Batch.Planned`: no step on the console has failed. It stays so in calm runs (`Reaches.orderly`), in runs with one slot while
  every line is taken (`Reaches.calm`), and in all runs of units that only log (`Reaches.logging`);
- `batch_tells_each_unit_once`: a batch with anything but units in it is refused before it starts; any other tells the receiver
  about each unit once, with what the unit ends in when it is instrumented alone unless a step on the console has failed;
- `lostBegin_told`: two workers that both look at the console before either goes on, and one of them fails for that.
-/
import Turnstile.Grammar.Program
import Turnstile.Proofs.Batch.Scopes
import Turnstile.Proofs.Emit.Product
import Turnstile.Proofs.Program.Reading

namespace Turnstile

/-- the receiver was told what the worker ended in -/
def Worker.isTold (w : Worker) : Bool :=
  match w.stage with
  | .delivered _ | .finished => true
  | _ => false

namespace Batch

variable {out : Outside} {b b' : Batch} {s : BatchStep} {jobs : List Job} {limit : ℕ} {uses uses' : List SlotUse}
variable {kind : StepKind}

/-! ## The books of a run -/

/-- the units of a batch, its slots and its deliveries after some uses of the slots -/
structure Accounts (jobs : List Job) (limit : ℕ) (uses : List SlotUse) (b : Batch) : Prop where
  jobs : b.workers.map Worker.job ++ b.waiting = jobs
  slots : b.workers.countP Worker.holdsSlot + b.free = limit
  uses : b.free + uses.count .acquire = limit + uses.count .release
  told : b.deliveries.Perm ((b.workers.filter Worker.isTold).map Worker.delivery)

section Restage

variable {before after : List Worker} {j : Job} {course : Course} {stage : Stage}

/-- a step before delivery: the worker holds its slot and the receiver was not told -/
theorem Accounts.unseen {course' : Course} {stage' : Stage} {instrumenter : Instrumenter} (h : Accounts jobs limit uses b)
    (hworkers : b.workers = before ++ ⟨j, course, stage⟩ :: after) (hnone : b.slotUse s = [])
    (hheld : Worker.holdsSlot ⟨j, course, stage⟩ = Worker.holdsSlot ⟨j, course', stage'⟩)
    (hstage : Worker.isTold ⟨j, course, stage⟩ = false) (hstage' : Worker.isTold ⟨j, course', stage'⟩ = false) :
    Accounts jobs limit (uses ++ b.slotUse s)
      { b with workers := before ++ ⟨j, course', stage'⟩ :: after, instrumenter := instrumenter } := by
  obtain ⟨hjobs, hslots, huses, hdeliveries⟩ := h
  rw [hworkers] at hjobs hslots hdeliveries
  rw [hnone, List.append_nil]
  refine ⟨?_, ?_, huses, ?_⟩
  · simpa using hjobs
  · simpa [List.countP_cons, hheld] using hslots
  · simpa [List.filter_cons, hstage, hstage'] using hdeliveries

theorem Accounts.deliver {accepted : Bool} (h : Accounts jobs limit uses b)
    (hworkers : b.workers = before ++ ⟨j, course, .settled⟩ :: after) :
    Accounts jobs limit (uses ++ b.slotUse (.advance before.length))
      { b with
        workers := before ++ ⟨j, course, .delivered accepted⟩ :: after
        deliveries := ⟨j.file, course.result j.phases.result⟩ :: b.deliveries } := by
  have hnone : b.slotUse (.advance before.length) = [] := by rw [slotUse, getElem?_workers hworkers]
  obtain ⟨hjobs, hslots, huses, htold⟩ := h
  rw [hworkers] at hjobs hslots htold
  rw [hnone, List.append_nil]
  refine ⟨?_, ?_, huses, ?_⟩
  · simpa using hjobs
  · simpa [List.countP_cons, Worker.holdsSlot] using hslots
  · have htold : (⟨j.file, course.result j.phases.result⟩ :: b.deliveries).Perm (⟨j.file, course.result j.phases.result⟩ ::
        ((before.filter Worker.isTold).map Worker.delivery ++ (after.filter Worker.isTold).map Worker.delivery)) := by
      simpa [List.filter_cons, Worker.isTold] using htold
    simpa [List.filter_cons, Worker.isTold, Worker.delivery, Worker.outcome] using htold.trans List.perm_middle.symm

theorem Accounts.release {accepted : Bool} (h : Accounts jobs limit uses b)
    (hworkers : b.workers = before ++ ⟨j, course, .delivered accepted⟩ :: after) :
    Accounts jobs limit (uses ++ b.slotUse (.advance before.length))
      { b with workers := before ++ ⟨j, course, .finished⟩ :: after, free := b.free + 1 } := by
  have hrelease : b.slotUse (.advance before.length) = [.release] := by rw [slotUse, getElem?_workers hworkers]
  obtain ⟨hjobs, hslots, huses, htold⟩ := h
  rw [hworkers] at hjobs hslots htold
  rw [hrelease]
  refine ⟨?_, ?_, ?_, ?_⟩
  · simpa using hjobs
  · simp only [List.countP_append, List.countP_cons, Worker.holdsSlot, if_true] at hslots ⊢
    simp only [Bool.false_eq_true, if_false]
    omega
  · simp only [List.count_append, List.count_singleton]
    simp
    omega
  · simpa [List.filter_cons, Worker.isTold, Worker.delivery, Worker.outcome] using htold

end Restage

/-- **Each step keeps the books.** -/
theorem Accounts.move (h : Accounts jobs limit uses b) (hmove : Moves out b s b') :
    Accounts jobs limit (uses ++ b.slotUse s) b' := by
  cases hmove with
  | start hfree hwaiting =>
    obtain ⟨hjobs, hslots, huses, htold⟩ := h
    rw [hwaiting] at hjobs
    rw [hfree] at hslots huses
    refine ⟨?_, ?_, ?_, ?_⟩
    · simpa [Worker.start] using hjobs
    · simp [Worker.start, Worker.holdsSlot]
      omega
    · simp [slotUse]
      omega
    · simpa [Worker.start, Worker.isTold] using htold
  | look hworkers => exact h.unseen hworkers rfl rfl rfl rfl
  | console hworkers => exact h.unseen hworkers (by rw [slotUse, getElem?_workers hworkers]) rfl rfl rfl
  | settle hworkers => exact h.unseen hworkers (by rw [slotUse, getElem?_workers hworkers]) rfl rfl rfl
  | deliver hworkers => exact h.deliver hworkers
  | release hworkers => exact h.release hworkers

/-- every state reached has its books in order -/
theorem Reaches.accounts (h : b.Reaches kind uses' b') (hb : Accounts jobs limit uses b) :
    Accounts jobs limit (uses ++ uses') b' := by
  induction h with
  | refl => rwa [List.append_nil]
  | step _ _ hstep ih =>
    rw [← List.append_assoc]
    exact ih.move (moves_of_step? hstep)

/-! ## Finishing -/

/-- the steps left to a worker -/
def workerStepsLeft (w : Worker) : ℕ :=
  match w.stage with
  | .working rest _ => rest.length + 3
  | .settled => 2
  | .delivered _ => 1
  | .finished => 0

/-- the steps left to a batch -/
def stepsLeft (b : Batch) : ℕ :=
  (b.waiting.map fun j => j.stepCount + 1).sum + (b.workers.map workerStepsLeft).sum

theorem Moves.stepsLeft (h : Moves out b s b') (hs : ∀ i, s ≠ .look i) : b.stepsLeft = b'.stepsLeft + 1 := by
  cases h with
  | start hfree hwaiting =>
    simp [Batch.stepsLeft, hwaiting, Worker.start, workerStepsLeft, Job.stepCount]
    omega
  | look => exact absurd rfl (hs _)
  | console hworkers | settle hworkers | deliver hworkers | release hworkers =>
    simp [Batch.stepsLeft, hworkers, workerStepsLeft]
    omega

theorem isDone_iff : b.isDone ↔ b.waiting = [] ∧ ∀ w ∈ b.workers, w.holdsSlot = false := by
  simp [isDone]

/-- a worker that holds a slot can do its next step -/
theorem exists_move_of_holdsSlot (out : Outside) {w : Worker} (hw : w ∈ b.workers) (hslot : w.holdsSlot) :
    ∃ s b', (∀ i, s ≠ .look i) ∧ Moves out b s b' := by
  obtain ⟨before, after, hworkers⟩ := List.append_of_mem hw
  obtain ⟨j, course, stage⟩ := w
  cases stage with
  | working rest seen =>
    cases rest with
    | nil => exact ⟨.advance _, _, nofun, .settle hworkers⟩
    | cons step rest => exact ⟨.advance _, _, nofun, .console hworkers rfl⟩
  | settled => exact ⟨.advance _, _, nofun, .deliver hworkers⟩
  | delivered accepted => exact ⟨.advance _, _, nofun, .release hworkers⟩
  | finished => cases hslot

/-- **A batch with a slot at all never gets stuck.** -/
theorem Accounts.exists_move (h : Accounts jobs limit uses b) (hlimit : 0 < limit) (hdone : ¬ b.isDone)
    (out : Outside) : ∃ s b', (∀ i, s ≠ .look i) ∧ Moves out b s b' := by
  by_cases hheld : ∃ w ∈ b.workers, w.holdsSlot
  · obtain ⟨w, hw, hslot⟩ := hheld
    exact exists_move_of_holdsSlot out hw hslot
  · have hnone : ∀ w ∈ b.workers, w.holdsSlot = false := by simpa using hheld
    have hfree : b.free = limit := by
      have hslots := h.slots
      rwa [List.countP_eq_zero.2 (by simpa using hnone), Nat.zero_add] at hslots
    cases hwaiting : b.waiting with
    | nil => exact absurd (isDone_iff.2 ⟨hwaiting, hnone⟩) hdone
    | cons j rest =>
      obtain ⟨free, hsucc⟩ := Nat.exists_eq_succ_of_ne_zero (hfree ▸ hlimit.ne')
      exact ⟨.start, _, nofun, .start hsucc hwaiting⟩

/-- **Every run can be finished**, whatever it meets outside, and without a look that is not gone on from at once. -/
theorem Accounts.exists_isDone (h : Accounts jobs limit uses b) (hlimit : 0 < limit) (out : Outside) :
    ∃ schedule final, (∀ s ∈ schedule, ∀ i, s ≠ .look i) ∧ b.run? out schedule = some final ∧ final.isDone := by
  -- each step leaves one step less to be done
  induction hleft : b.stepsLeft generalizing b uses with
  | zero =>
    by_cases hdone : b.isDone
    · exact ⟨[], b, nofun, rfl, hdone⟩
    · obtain ⟨s, b', hs, hmove⟩ := h.exists_move hlimit hdone out
      have := hmove.stepsLeft hs
      omega
  | succ n ih =>
    by_cases hdone : b.isDone
    · exact ⟨[], b, nofun, rfl, hdone⟩
    · obtain ⟨s, b', hs, hmove⟩ := h.exists_move hlimit hdone out
      have hless := hmove.stepsLeft hs
      obtain ⟨schedule, final, hall, hrun, hfinal⟩ := ih (h.move hmove) (by omega)
      refine ⟨s :: schedule, final, List.forall_mem_cons.2 ⟨hs, hall⟩, ?_, hfinal⟩
      rw [run?, List.foldlM_cons, hmove.step?_eq]
      exact hrun

/-- **When all workers have finished, the receiver was told of each once.** -/
theorem Accounts.deliveries_perm (h : Accounts jobs limit uses b) (hdone : b.isDone) :
    b.workers.map Worker.job = jobs ∧ b.deliveries.Perm (b.workers.map Worker.delivery) := by
  obtain ⟨hwaiting, hfinished⟩ := isDone_iff.1 hdone
  have hall : b.workers.filter Worker.isTold = b.workers := by
    refine List.filter_eq_self.2 fun w hw => ?_
    obtain ⟨j, course, stage⟩ := w
    have hslot := hfinished _ hw
    cases stage <;> first | rfl | cases hslot
  have hjobs := h.jobs
  rw [hwaiting, List.append_nil] at hjobs
  have htold := h.told
  rw [hall] at htold
  exact ⟨hjobs, htold⟩

/-! ## Runs in which no step fails -/

/-- no step on the console has failed -/
def Planned (b : Batch) : Prop := ∀ w ∈ b.workers, w.course = .planned

theorem Orderly.planned (h : b.Orderly) : b.Planned := fun w hw => (h.workers w hw).planned

theorem exists_reaches_of_linesTaken {accepts : Delivery → Bool} {schedule : List BatchStep}
    (h : b.run? ⟨accepts, Console.takesAll⟩ schedule = some b') : ∃ uses, b.Reaches LinesTaken uses b' :=
  exists_reaches_of_run? (fun b s _ => (rfl : LinesTaken b ⟨accepts, Console.takesAll⟩ s)) h

/-- with one slot, a run while every line is taken is calm -/
theorem Reaches.calm (h : b.Reaches LinesTaken uses' b') (hb : Accounts jobs limit uses b) (hlimit : limit ≤ 1)
    (hsees : b.SeesFresh) : b.Reaches Calm uses' b' ∧ b'.SeesFresh := by
  induction h with
  | refl => exact ⟨.refl, hsees⟩
  | @step uses' mid after out s hmid htaken hstep ih =>
    obtain ⟨hcalm, hfresh⟩ := ih
    have hslots := (hmid.accounts hb).slots
    exact ⟨hcalm.step (hfresh.calm htaken s) hstep, (moves_of_step? hstep).seesFresh (by omega) hfresh⟩

/-- nothing but lines of the log is left to be done on the console, and no step there has failed -/
structure Logging (b : Batch) : Prop where
  waiting : ∀ j ∈ b.waiting, ∀ step ∈ j.phases.steps, step.IsLog
  planned : b.Planned
  left : ∀ w ∈ b.workers, ∀ rest seen, w.stage = .working rest seen → ∀ step ∈ rest, step.IsLog

theorem Logging.replace {before after : List Worker} {j : Job} {course : Course} {stage : Stage} (h : b.Logging)
    (hworkers : b.workers = before ++ ⟨j, course, stage⟩ :: after) (stage' : Stage)
    (hstage : ∀ rest seen, stage' = .working rest seen → ∀ step ∈ rest, step.IsLog) :
    Logging { b with workers := before ++ ⟨j, course, stage'⟩ :: after } := by
  obtain ⟨hwaiting, hplanned, hleft⟩ := h
  rw [Planned, hworkers] at hplanned
  rw [hworkers] at hleft
  exact ⟨hwaiting, forall_mem_replace hplanned (hplanned ⟨j, course, stage⟩ (by simp)), forall_mem_replace hleft hstage⟩

/-- **A line of the log never fails.** -/
theorem Moves.logging (h : Moves out b s b') (hb : b.Logging) : b'.Logging := by
  cases h with
  | @start free j rest hfree hwaiting =>
    have hwait := hb.waiting
    rw [hwaiting] at hwait
    refine ⟨fun j' hj => hwait j' (List.mem_cons_of_mem _ hj), fun w hw => ?_, fun w hw => ?_⟩
    · rcases List.mem_append.1 hw with hw | hw
      · exact hb.planned w hw
      · rw [List.mem_singleton.1 hw]
        rfl
    · rcases List.mem_append.1 hw with hw | hw
      · exact hb.left w hw
      · rw [List.mem_singleton.1 hw]
        rintro rest seen hstage
        cases hstage
        exact hwait j List.mem_cons_self
  | @look before after j course step rest hworkers hlooks =>
    have hlogs := hb.left ⟨j, course, .working (step :: rest) none⟩ (by simp [hworkers]) _ _ rfl
    obtain ⟨hwaiting, hplanned, hleft⟩ := hb.replace hworkers (.working (step :: rest) _) fun rest' seen' hstage => by
      cases hstage
      exact hlogs
    exact ⟨hwaiting, hplanned, hleft⟩
  | @console before after j course course' step rest seen console hworkers hstep =>
    have hmem : ⟨j, course, .working (step :: rest) seen⟩ ∈ b.workers := by simp [hworkers]
    have hlogs := hb.left _ hmem _ _ rfl
    obtain rfl : course = .planned := hb.planned _ hmem
    obtain ⟨level, source, message, rfl⟩ := hlogs step List.mem_cons_self
    cases hstep
    obtain ⟨hwaiting, hplanned, hleft⟩ := hb.replace hworkers (.working rest none) fun rest' seen' hstage => by
      cases hstage
      exact fun step hs => hlogs step (List.mem_cons_of_mem _ hs)
    exact ⟨hwaiting, hplanned, hleft⟩
  | settle hworkers =>
    obtain ⟨hwaiting, hplanned, hleft⟩ := hb.replace hworkers .settled nofun
    exact ⟨hwaiting, hplanned, hleft⟩
  | deliver hworkers =>
    obtain ⟨hwaiting, hplanned, hleft⟩ := hb.replace hworkers (.delivered _) nofun
    exact ⟨hwaiting, hplanned, hleft⟩
  | release hworkers =>
    obtain ⟨hwaiting, hplanned, hleft⟩ := hb.replace hworkers .finished nofun
    exact ⟨hwaiting, hplanned, hleft⟩

theorem Reaches.logging (h : b.Reaches kind uses b') (hb : b.Logging) : b'.Logging := by
  induction h with
  | refl => exact hb
  | step _ _ hstep ih => exact (moves_of_step? hstep).logging ih

end Batch

/-! ## Units of a batch -/

namespace SourceUnit

/-- the values that a unit is given by -/
def values (u : SourceUnit) : Json × Json := (.string u.code, (u.file.map Json.string).getD .null)

def job (u : SourceUnit) (read : TreeReader) (o : Options) : Job := ⟨u.file, u.phases read o⟩

theorem ofJson?_values (u : SourceUnit) : ofJson? u.values.1 u.values.2 = .ok u := by
  obtain ⟨code, file⟩ := u
  cases file <;> rfl

end SourceUnit

/-- a text, and a file name or nothing -/
def IsUnit (pair : Json × Json) : Prop :=
  (∃ code, pair.1 = .string code) ∧ (pair.2 = .null ∨ ∃ file, pair.2 = .string file)

theorem IsUnit.exists_values {pair : Json × Json} (h : IsUnit pair) : ∃ u : SourceUnit, u.values = pair := by
  obtain ⟨code, file⟩ := pair
  obtain ⟨⟨text, rfl⟩, rfl | ⟨name, rfl⟩⟩ := h
  · exact ⟨⟨text, none⟩, rfl⟩
  · exact ⟨⟨text, some name⟩, rfl⟩

theorem exists_misuse {pair : Json × Json} (h : ¬ IsUnit pair) : ∃ m, SourceUnit.ofJson? pair.1 pair.2 = .error m := by
  obtain ⟨code, file⟩ := pair
  cases code with
  | string text =>
    cases file with
    | null => exact absurd ⟨⟨text, rfl⟩, .inl rfl⟩ h
    | string name => exact absurd ⟨⟨text, rfl⟩, .inr ⟨name, rfl⟩⟩ h
    | _ => exact ⟨_, rfl⟩
  | _ => exact ⟨_, rfl⟩

namespace Batch

variable (read : TreeReader) (s : Instrumenter) {limit : ℤ}

theorem ofUnits?_values (us : List SourceUnit) (hlimit : 0 ≤ limit) : ofUnits? read s (us.map SourceUnit.values) limit =
    .ok ⟨limit.toNat, us.map fun u => u.job read s.options, [], s, []⟩ := by
  have hread : (us.map SourceUnit.values).mapM (fun pair => SourceUnit.ofJson? pair.1 pair.2) = .ok us :=
    mapM_map_eq_ok fun u _ => SourceUnit.ofJson?_values u
  rw [ofUnits?, hread]
  show (if limit < 0 then _ else _) = _
  rw [if_neg (not_lt.2 hlimit)]
  rfl

/-- all units are checked before any of them is started -/
theorem ofUnits?_eq_error {pairs : List (Json × Json)} (h : ∃ pair ∈ pairs, ¬ IsUnit pair) :
    ∃ m, ofUnits? read s pairs limit = .error (.misuse m) := by
  rw [ofUnits?]
  cases hread : pairs.mapM fun pair => SourceUnit.ofJson? pair.1 pair.2 with
  | error m => exact ⟨m, rfl⟩
  | ok us =>
    obtain ⟨pair, hpair, hnot⟩ := h
    obtain ⟨u, -, hunit⟩ := exists_right_of_forall₂ (forall₂_of_mapM hread) hpair
    obtain ⟨m, hm⟩ := exists_misuse hnot
    rw [hm] at hunit
    cases hunit

/-- a batch that is not refused has units to do, and none of them is started -/
theorem exists_units {pairs : List (Json × Json)} {b : Batch} (h : ofUnits? read s pairs limit = .ok b) :
    ∃ us : List SourceUnit, b = ⟨limit.toNat, us.map fun u => u.job read s.options, [], s, []⟩ := by
  rw [ofUnits?] at h
  cases hread : pairs.mapM fun pair => SourceUnit.ofJson? pair.1 pair.2 with
  | error m =>
    rw [hread] at h
    cases h
  | ok us =>
    rw [hread] at h
    change (if limit < 0 then _ else _) = _ at h
    split at h
    · cases h
    · cases h
      exact ⟨us, rfl⟩

/-- the books of a batch that was not started -/
theorem accounts_ofUnits (jobs : List Job) (limit : ℕ) : Accounts jobs limit [] ⟨limit, jobs, [], s, []⟩ :=
  ⟨rfl, Nat.zero_add _, rfl, .refl _⟩

theorem orderly_ofUnits (us : List SourceUnit) (limit : ℕ) :
    Orderly ⟨limit, us.map fun u => u.job read s.options, [], s, []⟩ := by
  refine ⟨fun j hj => ?_, fun w hw => absurd hw List.not_mem_nil⟩
  obtain ⟨u, -, rfl⟩ := List.mem_map.1 hj
  exact u.wellNested_phases read s.options

theorem logging_ofUnits (hdebug : s.options.debug = false) (us : List SourceUnit) (limit : ℕ) :
    Logging ⟨limit, us.map fun u => u.job read s.options, [], s, []⟩ := by
  refine ⟨fun j hj => ?_, fun w hw => absurd hw List.not_mem_nil, fun w hw => absurd hw List.not_mem_nil⟩
  obtain ⟨u, -, rfl⟩ := List.mem_map.1 hj
  exact u.isLog_phases read hdebug

end Batch

/-! ## What the receiver is told -/

/-- what a receiver is called with: the file name, then the failure or the text -/
def Delivery.arguments (d : Delivery) : Option String × Option Failure × Option String :=
  match d.result with
  | .ok p => (d.file, none, some p.text)
  | .error e => (d.file, some e, none)

/-- what a receiver is to be called with for a unit: what the unit ends in when it is instrumented alone -/
def SourceUnit.arguments (u : SourceUnit) (read : TreeReader) (s : Instrumenter) :
    Option String × Option Failure × Option String :=
  match (s.instrument read u).2 with
  | .ok p => (u.file, none, some p.text)
  | .error e => (u.file, some e, none)

/-- a receiver is called so for a unit, or with a step on the console that failed -/
def SourceUnit.Tells (u : SourceUnit) (read : TreeReader) (s : Instrumenter)
    (arguments : Option String × Option Failure × Option String) : Prop :=
  arguments = u.arguments read s ∨ ∃ fault, arguments = (u.file, some (.console fault), none)

theorem SourceUnit.arguments_eq (u : SourceUnit) (read : TreeReader) (s : Instrumenter) :
    u.arguments read s = (Worker.delivery ⟨u.job read s.options, .planned, .finished⟩).arguments := by
  rw [SourceUnit.arguments, Instrumenter.instrument_eq]
  rfl

theorem SourceUnit.tells_of_worker {u : SourceUnit} {read : TreeReader} {s : Instrumenter} {w : Worker}
    (hw : w.job = u.job read s.options) : u.Tells read s w.delivery.arguments := by
  obtain ⟨j, course, stage⟩ := w
  obtain rfl : j = u.job read s.options := hw
  cases course with
  | planned => exact .inl (u.arguments_eq read s).symm
  | failing fault unentered => exact .inr ⟨fault, rfl⟩

namespace Batch

variable {read : TreeReader} {s : Instrumenter} {us : List SourceUnit} {limit : ℕ} {uses : List SlotUse} {b : Batch}

/-- when all workers have finished, the receiver was told of each unit once -/
theorem Accounts.exists_told (h : Accounts (us.map fun u => u.job read s.options) limit uses b) (hdone : b.isDone) :
    ∃ told, (b.deliveries.map Delivery.arguments).Perm told ∧ List.Forall₂ (fun u args => u.Tells read s args) us told := by
  obtain ⟨hjobs, htold⟩ := h.deliveries_perm hdone
  refine ⟨_, htold.map Delivery.arguments, ?_⟩
  have hsame : List.Forall₂ Eq (us.map fun u => u.job read s.options) (b.workers.map Worker.job) := by
    rw [hjobs]
    exact List.forall₂_refl _
  rw [List.forall₂_map_left_iff, List.forall₂_map_right_iff] at hsame
  rw [List.map_map, List.forall₂_map_right_iff]
  exact hsame.imp fun u w hw => SourceUnit.tells_of_worker hw.symm

/-- **When no step on the console has failed**, it was told what each unit ends in alone. -/
theorem Accounts.told_alone (h : Accounts (us.map fun u => u.job read s.options) limit uses b) (hdone : b.isDone)
    (hplanned : b.Planned) : (b.deliveries.map Delivery.arguments).Perm (us.map fun u => u.arguments read s) := by
  obtain ⟨hjobs, htold⟩ := h.deliveries_perm hdone
  have hown : b.workers.map (Delivery.arguments ∘ Worker.delivery) =
      b.workers.map ((fun j => (Worker.delivery ⟨j, .planned, .finished⟩).arguments) ∘ Worker.job) := by
    refine List.map_congr_left fun w hw => ?_
    obtain ⟨j, course, stage⟩ := w
    obtain rfl : course = .planned := hplanned _ hw
    rfl
  have htold := htold.map Delivery.arguments
  rw [List.map_map, hown, ← List.map_map, hjobs, List.map_map] at htold
  simp only [SourceUnit.arguments_eq]
  exact htold

end Batch

/-- **A batch tells its receiver about each unit once.** A batch in which anything is no unit is refused before a worker is
started or the receiver is told anything. Any other batch with at least one slot starts with no worker and no delivery; in
every state that it comes to, however its workers take turns, whatever the receiver refuses and whatever the stream of the
console refuses, the slots held and the free ones are all its slots, slots were given back at most as often as they were taken,
and the batch can be finished; and when it is finished, the receiver was called once for each unit, with the unit's file name
and the text or the failure of that unit alone, or with a step on the console that failed. It was called with the text or the
failure of the unit alone if units are not shown on the console, or every line is taken and the batch has one slot or no worker
acts on what it saw before others came in between; a worker that closes a scope then finds one open. -/
theorem batch_tells_each_unit_once (read : TreeReader) (s : Instrumenter) (pairs : List (Json × Json)) {limit : ℤ}
    (hlimit : 1 ≤ limit) :
    ((∃ pair ∈ pairs, ¬ IsUnit pair) → ∃ m, Batch.ofUnits? read s pairs limit = .error (.misuse m)) ∧
    ((∀ pair ∈ pairs, IsUnit pair) → ∃ (us : List SourceUnit) (b : Batch), pairs = us.map SourceUnit.values ∧
      Batch.ofUnits? read s pairs limit = .ok b ∧ b.workers = [] ∧ b.deliveries = [] ∧
      (∀ uses b', b.Reaches Batch.AnyStep uses b' →
        ((b'.workers.countP Worker.holdsSlot + b'.free : ℕ) : ℤ) = limit ∧
        uses.count .release ≤ uses.count .acquire ∧
        (∀ out, ∃ schedule final, b'.run? out schedule = some final ∧ final.isDone) ∧
        (b'.isDone → ∃ told, (b'.deliveries.map Delivery.arguments).Perm told ∧
          List.Forall₂ (fun u args => u.Tells read s args) us told) ∧
        (b'.isDone → s.options.debug = false →
          (b'.deliveries.map Delivery.arguments).Perm (us.map fun u => u.arguments read s))) ∧
      (∀ uses b', b.Reaches Batch.Calm uses b' ∨ limit = 1 ∧ b.Reaches Batch.LinesTaken uses b' →
        (∀ w ∈ b'.workers, ∀ rest seen, w.stage = .working (.stop :: rest) seen → b'.instrumenter.console.scopes ≠ []) ∧
        (b'.isDone → (b'.deliveries.map Delivery.arguments).Perm (us.map fun u => u.arguments read s)))) := by
  refine ⟨Batch.ofUnits?_eq_error read s, fun hunits => ?_⟩
  obtain ⟨us, rfl⟩ : pairs ∈ Set.range (List.map SourceUnit.values) := by
    rw [Set.range_list_map]
    exact fun pair hpair => (hunits pair hpair).exists_values
  have hbooks := Batch.accounts_ofUnits s (us.map fun u => u.job read s.options) limit.toNat
  refine ⟨us, _, rfl, Batch.ofUnits?_values read s us (by omega), rfl, rfl, fun uses b' hreaches => ?_,
    fun uses b' hreaches => ?_⟩
  · have haccounts := hreaches.accounts hbooks
    have hslots := haccounts.slots
    have huses := haccounts.uses
    rw [List.nil_append] at huses
    refine ⟨by omega, by omega, fun out => ?_, haccounts.exists_told, fun hdone hdebug => ?_⟩
    · obtain ⟨schedule, final, -, hrun, hdone⟩ := haccounts.exists_isDone (by omega) out
      exact ⟨schedule, final, hrun, hdone⟩
    · exact haccounts.told_alone hdone (hreaches.logging (Batch.logging_ofUnits read s hdebug us limit.toNat)).planned
  · have hcalm := hreaches.elim id fun ⟨_, htaken⟩ =>
      (htaken.calm hbooks (by omega) fun w hw => absurd hw List.not_mem_nil).1
    obtain ⟨horderly, hopened⟩ := hcalm.orderly (Batch.orderly_ofUnits read s us limit.toNat)
      (Console.opened_zero_iff.2 rfl : s.console.Opened s.console.scopes 0)
    exact ⟨fun w hw rest seen hstop => Batch.scopes_ne_nil_of_stop horderly hopened hw hstop,
      fun hdone => (hcalm.accounts hbooks).told_alone hdone horderly.planned⟩

/-! ### Two units and a receiver that refuses everything -/

/-- debugging on, and a clock that goes on by one with each reading -/
def showingInstrumenter : Instrumenter := .new ⟨"__trace__", false, false, false, true, false⟩ (.start Float.ofNat)

/-- a unit with a name, and one without that is no program -/
def twoUnits : List SourceUnit := [⟨"a;", some "a.js"⟩, ⟨"\x7d", none⟩]

theorem twoUnits_told : ∃ (us : List SourceUnit) (b final : Batch) (schedule : List BatchStep),
    twoUnits.map SourceUnit.values = us.map SourceUnit.values ∧
    Batch.ofUnits? Grammar.readProgram showingInstrumenter (twoUnits.map SourceUnit.values) 1 = .ok b ∧
    b.run? ⟨fun _ => false, Console.takesAll⟩ schedule = some final ∧ final.isDone ∧
    (final.deliveries.map Delivery.arguments).Perm (us.map fun u => u.arguments Grammar.readProgram showingInstrumenter) := by
  have hunits : ∀ pair ∈ twoUnits.map SourceUnit.values, IsUnit pair := by
    simp [twoUnits, SourceUnit.values, IsUnit]
  obtain ⟨us, b, hus, hb, -, -, hany, hcalm⟩ :=
    (batch_tells_each_unit_once Grammar.readProgram showingInstrumenter (twoUnits.map SourceUnit.values) (le_refl 1)).2 hunits
  obtain ⟨-, -, hfinish, -, -⟩ := hany [] b .refl
  obtain ⟨schedule, final, hschedule, hdone⟩ := hfinish ⟨fun _ => false, Console.takesAll⟩
  obtain ⟨uses, hreaches⟩ := Batch.exists_reaches_of_linesTaken hschedule
  exact ⟨us, b, final, schedule, hus, hb, hschedule, hdone, (hcalm uses final (.inr ⟨rfl, hreaches⟩)).2 hdone⟩

/-! ### Two workers that look at the console before either goes on -/

/-- an empty unit, and one that is no program -/
def emptyFirst : List SourceUnit := [⟨"", some "a.js"⟩, ⟨"\x7d", some "b.js"⟩]

/-- both look at the console and begin their scopes then, so that of the first is lost; the second does all its steps, and
then the first does its own -/
def lostBegin : List BatchStep :=
  [.start, .start, .look 0, .look 1, .advance 0, .advance 1] ++ List.replicate 7 (.advance 1) ++ List.replicate 14 (.advance 0)

/-- the second worker has closed the only scope that is open, so the end of the first one fails, though its unit does not -/
theorem lostBegin_told : ∃ b final : Batch,
    Batch.ofUnits? emptyReader showingInstrumenter (emptyFirst.map SourceUnit.values) 2 = .ok b ∧
    b.run? ⟨fun _ => true, Console.takesAll⟩ lostBegin = some final ∧ final.isDone ∧
    (∃ args ∈ final.deliveries.map Delivery.arguments, args.1 = some "a.js" ∧ args.2.1 = some (.console .noScope)) ∧
    (SourceUnit.arguments ⟨"", some "a.js"⟩ emptyReader showingInstrumenter).2.1 = none ∧
    ¬ (final.deliveries.map Delivery.arguments).Perm
      (emptyFirst.map fun u => u.arguments emptyReader showingInstrumenter) := by
  have hb := Batch.ofUnits?_values emptyReader showingInstrumenter emptyFirst (show (0 : ℤ) ≤ 2 by decide)
  have hrun : ((Batch.run? ⟨fun _ => true, Console.takesAll⟩ ⟨2, emptyFirst.map fun u =>
      u.job emptyReader showingInstrumenter.options, [], showingInstrumenter, []⟩ lostBegin).map fun final =>
        (final.isDone, (final.deliveries.map Delivery.arguments).map fun args => (args.1, args.2.1))) =
      some (true, [(some "a.js", some (.console .noScope)),
        (some "b.js", some (.source ⟨.unreadable, .somewhere, some "b.js"⟩))]) := by decide +kernel
  have halone : ∀ u ∈ emptyFirst, (u.arguments emptyReader showingInstrumenter).2.1 ≠ some (.console .noScope) := by
    simp only [SourceUnit.arguments_eq]
    decide +kernel
  have hfirst : (SourceUnit.arguments ⟨"", some "a.js"⟩ emptyReader showingInstrumenter).2.1 = none := by
    rw [SourceUnit.arguments_eq]
    decide +kernel
  obtain ⟨final, hfinal, htold⟩ := Option.map_eq_some_iff.1 hrun
  obtain ⟨hdone, htold⟩ := Prod.mk.inj htold
  have hmem : (some "a.js", some (.console .noScope)) ∈
      (final.deliveries.map Delivery.arguments).map fun args => (args.1, args.2.1) := by
    rw [htold]
    exact List.mem_cons_self
  obtain ⟨args, hargs, heq⟩ := List.mem_map.1 hmem
  obtain ⟨hfile, hfault⟩ := Prod.mk.inj heq
  refine ⟨_, final, hb, hfinal, hdone, ⟨args, hargs, hfile, hfault⟩, hfirst, fun hperm => ?_⟩
  obtain ⟨u, hu, rfl⟩ := List.mem_map.1 (hperm.mem_iff.1 hargs)
  exact halone u hu hfault

end Turnstile
