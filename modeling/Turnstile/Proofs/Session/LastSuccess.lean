/-
What an instrumenter keeps over a session.

- `Session.Sound`: what holds between the instrumenter of a session, its calls and the workers settled so far, and
  `Sound.call`, `Sound.work`: each step preserves it, whatever the console does;
- `Session.Orderly`: what holds of the console besides, in calm runs;
- `Session.reaches_sync`: a call that is waited for does what `Instrumenter.instrument` does;
- `session_keeps_last_success`: in every state that a session comes to, the map and trace kept are those of the unit that
  succeeded and was settled last, and an idle session has the console in the scope it started in if it was calm;
- `refusedKey_leaves_scope`: a line that is refused leaves a scope behind.
-/
import Turnstile.Proofs.Batch.Delivery
import Turnstile.Proofs.Emit.Product
import Turnstile.Session

namespace Turnstile

theorem Course.result_eq_ok_iff {α : Type} {course : Course} {planned : Except Failure α} {a : α} :
    course.result planned = .ok a ↔ course = .planned ∧ planned = .ok a := by
  cases course <;> simp [Course.result]

namespace Worker

/-- what is kept for a unit, if it succeeds -/
def kept? (w : Worker) : Option (CoverageMap × Trace) :=
  match w.outcome with
  | .ok p => some (p.map, p.trace)
  | .error _ => none

def Fails (w : Worker) : Prop := ∃ e, w.outcome = .error e

theorem Fails.kept? {w : Worker} (h : w.Fails) : w.kept? = none := by
  obtain ⟨e, he⟩ := h
  rw [Worker.kept?, he]

theorem findSome?_kept?_of_fails {ws : List Worker} (h : ∀ w ∈ ws, w.Fails) : ws.findSome? Worker.kept? = none :=
  List.findSome?_eq_none_iff.2 fun w hw => (h w hw).kept?

end Worker

theorem Instrumenter.last_keep (s : Instrumenter) (w : Worker) : (s.keep w.outcome).last = w.kept?.or s.last := by
  rw [Worker.kept?]
  cases w.outcome <;> rfl

/-- the units of a batch -/
def Batch.jobs (b : Batch) : List Job := b.workers.map Worker.job ++ b.waiting

namespace Batch

variable {out : Outside} {b b' : Batch} {step : BatchStep}

theorem settling_eq (b : Batch) (step : BatchStep) : b.settling step = [] ∨ ∃ w, b.settling step = [w] := by
  rw [settling.eq_def]
  split
  · exact .inl rfl
  · exact .inl rfl
  · split
    · exact .inr ⟨_, rfl⟩
    · exact .inl rfl

/-- **A step of a batch keeps its options and units**, and what the instrumenter keeps changes only with the worker settled. -/
theorem Moves.keeps (h : Moves out b step b') : b'.instrumenter.options = b.instrumenter.options ∧ b'.jobs = b.jobs ∧
    (∀ w ∈ b.settling step, w.job ∈ b.jobs) ∧
    b'.instrumenter.last = ((b.settling step).findSome? Worker.kept?).or b.instrumenter.last := by
  cases h with
  | start hfree hwaiting => exact ⟨rfl, by simp [jobs, hwaiting, Worker.start], fun _ h => absurd h List.not_mem_nil, rfl⟩
  | @settle before after j course seen hworkers =>
    have hsettling : b.settling (.advance before.length) = [⟨j, course, .working [] seen⟩] := by
      rw [settling, getElem?_workers hworkers]
    rw [hsettling]
    refine ⟨Instrumenter.options_keep _ _, by simp [jobs, hworkers], by simp [jobs, hworkers], ?_⟩
    rw [List.findSome?_singleton]
    exact Instrumenter.last_keep b.instrumenter ⟨j, course, .working [] seen⟩
  | look hworkers => exact ⟨rfl, by simp [jobs, hworkers], fun _ h => absurd h List.not_mem_nil, rfl⟩
  | console hworkers | deliver hworkers | release hworkers =>
    rw [settling, getElem?_workers hworkers]
    exact ⟨rfl, by simp [jobs, hworkers], fun _ h => absurd h List.not_mem_nil, rfl⟩

end Batch

namespace Session

variable {read : TreeReader} {out : Outside} {o : Options} {base : List Scope} {s s' : Session} {kind : Batch.StepKind}

/-! ## What holds in a session -/

/-- the units of all calls -/
def jobs (s : Session) : List Job := s.calls.flatMap Batch.jobs

/-- what holds in a session on an instrumenter with options `o` -/
structure Sound (read : TreeReader) (o : Options) (s : Session) : Prop where
  options : s.instrumenter.options = o
  last : s.instrumenter.last = s.settled.findSome? Worker.kept?
  settled : ∀ w ∈ s.settled, w.job ∈ s.jobs
  units : ∀ j ∈ s.jobs, ∃ u : SourceUnit, j = u.job read o

theorem sound_new (read : TreeReader) (o : Options) (console : Console) : (new (.new o console)).Sound read o where
  options := rfl
  last := rfl
  settled := fun _ h => absurd h List.not_mem_nil
  units := fun _ h => absurd h List.not_mem_nil

/-- a call with units adds them to what is to be done -/
theorem Sound.call (h : s.Sound read o) {pairs : List (Json × Json)} {limit : ℤ} {b : Batch}
    (hb : Batch.ofUnits? read s.instrumenter pairs limit = .ok b) :
    ({ s with calls := s.calls ++ [b] } : Session).Sound read o := by
  obtain ⟨us, rfl⟩ := Batch.exists_units read s.instrumenter hb
  have hjobs : ∀ j, j ∈ ({ s with calls := s.calls ++ [⟨limit.toNat, us.map fun u => u.job read s.instrumenter.options,
      [], s.instrumenter, []⟩] } : Session).jobs ↔ j ∈ s.jobs ∨ ∃ u ∈ us, u.job read s.instrumenter.options = j := by
    intro j
    simp [jobs, Batch.jobs]
  refine ⟨h.options, h.last, ?_, ?_⟩
  · exact fun w hw => (hjobs w.job).2 (.inl (h.settled w hw))
  · intro j hj
    rcases (hjobs j).1 hj with hj | ⟨u, -, rfl⟩
    · exact h.units j hj
    · exact ⟨u, by rw [h.options]⟩

/-- **A step of a worker keeps a session sound**, whether or not it fails. -/
theorem Sound.work (h : s.Sound read o) {before after : List Batch} {b b' : Batch} {step : BatchStep}
    (hcalls : s.calls = before ++ b :: after) (hmove : Batch.Moves out (b.on s.instrumenter) step b') :
    (⟨b'.instrumenter, before ++ b' :: after, b.settling step ++ s.settled⟩ : Session).Sound read o := by
  obtain ⟨hoptions, hlast, hsettled, hunits⟩ := h
  obtain ⟨hkeep, hjobs, hsettling, hlast'⟩ := hmove.keeps
  have hmem : b ∈ s.calls := by simp [hcalls]
  have hsame : (⟨b'.instrumenter, before ++ b' :: after, b.settling step ++ s.settled⟩ : Session).jobs = s.jobs := by
    rw [jobs, jobs, hcalls, List.flatMap_append, List.flatMap_append, List.flatMap_cons, List.flatMap_cons, hjobs]
    rfl
  refine ⟨hkeep.trans hoptions, ?_, ?_, ?_⟩
  · rw [hlast', List.findSome?_append]
    exact congrArg _ hlast
  · intro w hw
    rw [hsame]
    rcases List.mem_append.1 hw with hw | hw
    · exact List.mem_flatMap.2 ⟨b, hmem, hsettling w hw⟩
    · exact hsettled w hw
  · rw [hsame]
    exact hunits

/-! ## What holds in calm runs -/

/-- how many scopes the workers of all calls have still to close -/
def openScopes (s : Session) : ℤ := (s.calls.map Batch.openScopes).sum

/-- what holds in a session started in the scope `base` as long as it is calm: nothing has failed, and the console has open what
the workers have to close -/
structure Orderly (base : List Scope) (s : Session) : Prop where
  calls : ∀ b ∈ s.calls, b.Orderly
  opened : s.instrumenter.console.Opened base s.openScopes

theorem orderly_new (o : Options) (console : Console) : (new (.new o console)).Orderly console.scopes :=
  ⟨fun _ h => absurd h List.not_mem_nil, Console.opened_zero_iff.2 rfl⟩

theorem Orderly.call (h : s.Orderly base) {pairs : List (Json × Json)} {limit : ℤ} {b : Batch}
    (hb : Batch.ofUnits? read s.instrumenter pairs limit = .ok b) :
    ({ s with calls := s.calls ++ [b] } : Session).Orderly base := by
  obtain ⟨us, rfl⟩ := Batch.exists_units read s.instrumenter hb
  refine ⟨fun b hb => ?_, by simpa [openScopes, Batch.openScopes] using h.opened⟩
  rcases List.mem_append.1 hb with hb | hb
  · exact h.calls b hb
  · rw [List.mem_singleton.1 hb]
    exact Batch.orderly_ofUnits read s.instrumenter us limit.toNat

theorem Orderly.work (h : s.Orderly base) {before after : List Batch} {b b' : Batch} {step : BatchStep}
    (hcalls : s.calls = before ++ b :: after) (hcalm : Batch.Calm (b.on s.instrumenter) out step)
    (hmove : Batch.Moves out (b.on s.instrumenter) step b') (settled : List Worker) :
    (⟨b'.instrumenter, before ++ b' :: after, settled⟩ : Session).Orderly base := by
  obtain ⟨horderly, hopened⟩ := h
  have hmem : b ∈ s.calls := by simp [hcalls]
  have hb : (b.on s.instrumenter).Orderly := ⟨(horderly b hmem).waiting, (horderly b hmem).workers⟩
  -- the other calls have at least no scope to close, so a step of this one never closes a scope outside
  have hothers : 0 ≤ ((before ++ after).map Batch.openScopes).sum := by
    refine List.sum_nonneg fun n hn => ?_
    obtain ⟨c, hc, rfl⟩ := List.mem_map.1 hn
    have hc : c ∈ s.calls := by
      rw [hcalls]
      rcases List.mem_append.1 hc with hc | hc <;> simp [hc]
    exact (horderly c hc).openScopes_nonneg
  rw [openScopes, hcalls, sum_map_append_cons] at hopened
  obtain ⟨horderly', hopened'⟩ := hmove.orderly hcalm hb hothers hopened
  refine ⟨forall_mem_replace (hcalls ▸ horderly) horderly', ?_⟩
  rw [openScopes, sum_map_append_cons]
  exact hopened'

/-! ## Runs -/

/-- the steps of the workers are of some kind -/
def IsOf (kind : Batch.StepKind) (s : Session) (out : Outside) : SessionStep → Prop
  | .call _ => True
  | .work i step => ∀ b, s.calls[i]? = some b → kind (b.on s.instrumenter) out step

/-- the states that a session comes to while the steps of its workers are of some kind -/
inductive Reaches (kind : Batch.StepKind) (read : TreeReader) (s : Session) : Session → Prop
  | refl : Reaches kind read s s
  | step {mid after : Session} {out : Outside} {step : SessionStep} :
      Reaches kind read s mid → mid.IsOf kind out step → mid.step? read out step = some after → Reaches kind read s after

theorem Reaches.trans {s'' : Session} (h : s.Reaches kind read s') (h' : s'.Reaches kind read s'') :
    s.Reaches kind read s'' := by
  induction h' with
  | refl => exact h
  | step _ hkind hstep ih => exact ih.step hkind hstep

theorem Reaches.any (h : s.Reaches kind read s') : s.Reaches Batch.AnyStep read s' := by
  induction h with
  | refl => exact .refl
  | @step mid after out step _ _ hstep ih =>
    refine ih.step ?_ hstep
    cases step with
    | call c => trivial
    | work i work => exact fun _ _ => trivial

/-- a call is refused or adds its batch, and any other step is one of the batch of some call -/
theorem cases_of_step? {step : SessionStep} (h : s.step? read out step = some s') :
    (∃ c, step = .call c ∧ s' = s) ∨
    (∃ c b, step = .call c ∧ c.batch? read s.instrumenter = .ok b ∧ s' = { s with calls := s.calls ++ [b] }) ∨
    ∃ before b after b' work, step = .work before.length work ∧ s.calls = before ++ b :: after ∧
      Batch.Moves out (b.on s.instrumenter) work b' ∧
      s' = ⟨b'.instrumenter, before ++ b' :: after, b.settling work ++ s.settled⟩ := by
  cases step with
  | call c =>
    rw [step?] at h
    split at h
    · next b hb =>
      cases h
      exact .inr (.inl ⟨c, b, rfl, hb, rfl⟩)
    · cases h
      exact .inl ⟨c, rfl, rfl⟩
  | work i work =>
    rw [step?] at h
    split at h
    · cases h
    · next b hcall =>
      obtain ⟨before, after, hcalls, rfl⟩ := exists_append_of_getElem? hcall
      split at h
      · cases h
      · next b' hmove =>
        cases h
        rw [hcalls, List.set_append_right _ _ (le_refl _), Nat.sub_self]
        exact .inr (.inr ⟨before, b, after, b', work, rfl, rfl, Batch.moves_of_step? hmove, rfl⟩)

/-- the batch of a call that is not refused -/
theorem exists_ofUnits? {c : Call} {i : Instrumenter} {b : Batch} (h : c.batch? read i = .ok b) :
    ∃ pairs limit, Batch.ofUnits? read i pairs limit = .ok b := by
  cases c with
  | sync code file => exact ⟨_, _, h⟩
  | async code file => exact ⟨_, _, h⟩
  | many units limit => exact ⟨_, _, h⟩

theorem Sound.step (h : s.Sound read o) {step : SessionStep} (hstep : s.step? read out step = some s') :
    s'.Sound read o := by
  obtain ⟨c, -, rfl⟩ | ⟨c, b, -, hb, rfl⟩ | ⟨before, b, after, b', work, -, hcalls, hmove, rfl⟩ := cases_of_step? hstep
  · exact h
  · obtain ⟨pairs, limit, hb⟩ := exists_ofUnits? hb
    exact h.call hb
  · exact h.work hcalls hmove

theorem Reaches.sound (h : s.Reaches kind read s') (hs : s.Sound read o) : s'.Sound read o := by
  induction h with
  | refl => exact hs
  | step _ _ hstep ih => exact ih.step hstep

theorem Orderly.step (h : s.Orderly base) {step : SessionStep} (hkind : s.IsOf Batch.Calm out step)
    (hstep : s.step? read out step = some s') : s'.Orderly base := by
  obtain ⟨c, -, rfl⟩ | ⟨c, b, -, hb, rfl⟩ | ⟨before, b, after, b', work, rfl, hcalls, hmove, rfl⟩ := cases_of_step? hstep
  · exact h
  · obtain ⟨pairs, limit, hb⟩ := exists_ofUnits? hb
    exact h.call hb
  · refine h.work hcalls (hkind b ?_) hmove _
    rw [hcalls, List.getElem?_append_right (le_refl _), Nat.sub_self, List.getElem?_cons_zero]

theorem Reaches.orderly (h : s.Reaches Batch.Calm read s') (hs : s.Orderly base) : s'.Orderly base := by
  induction h with
  | refl => exact hs
  | step _ hkind hstep ih => exact ih.step hkind hstep

theorem step?_work {before after : List Batch} {b b' : Batch} {step : BatchStep} (hcalls : s.calls = before ++ b :: after)
    (hmove : Batch.Moves out (b.on s.instrumenter) step b') : s.step? read out (.work before.length step) =
      some ⟨b'.instrumenter, before ++ b' :: after, b.settling step ++ s.settled⟩ := by
  have hget : s.calls[before.length]? = some b := by
    rw [hcalls, List.getElem?_append_right (le_refl _), Nat.sub_self, List.getElem?_cons_zero]
  rw [step?]
  simp only [hget, hmove.step?_eq]
  rw [hcalls, List.set_append_right _ _ (le_refl _), Nat.sub_self]
  rfl

/-! ## A call that is waited for -/

/-- a step of the last call, whose only worker has seen nothing, while every line is taken -/
theorem Reaches.work {before : List Batch} {b b' : Batch} {i : Instrumenter} {settled : List Worker} {step : BatchStep}
    (h : s.Reaches Batch.Calm read ⟨i, before ++ [b], settled⟩) (hunseen : ∀ w ∈ b.workers, w.seen? = none)
    (hmove : Batch.Moves ⟨fun _ => true, Console.takesAll⟩ (b.on i) step b') :
    s.Reaches Batch.Calm read ⟨b'.instrumenter, before ++ [b'], b.settling step ++ settled⟩ := by
  have hcalm : IsOf Batch.Calm ⟨i, before ++ [b], settled⟩ ⟨fun _ => true, Console.takesAll⟩ (.work before.length step) := by
    intro c hc
    obtain rfl : b = c := by simpa using hc
    refine Batch.SeesFresh.calm ?_ rfl step
    exact Batch.seesFresh_of_unseen hunseen
  exact h.step hcalm (step?_work rfl hmove)

/-- the only worker of the last call does the rest of its steps on the console -/
theorem Reaches.console {before : List Batch} {j : Job} {settled : List Worker} (rest : List ConsoleStep) {i : Instrumenter}
    {course : Course} (h : s.Reaches Batch.Calm read
      ⟨i, before ++ [⟨0, [], [⟨j, course, .working rest none⟩], i, []⟩], settled⟩) {console : Console} {course' : Course}
    (hrest : rest.foldl (Course.step Console.takesAll none) (i.console, course) = (console, course')) :
    s.Reaches Batch.Calm read ⟨{ i with console }, before ++
      [⟨0, [], [⟨j, course', .working [] none⟩], { i with console }, []⟩], settled⟩ := by
  induction rest generalizing i course with
  | nil =>
    cases hrest
    exact h
  | cons step rest ih =>
    obtain ⟨next, hnext⟩ : ∃ next, Course.step Console.takesAll none (i.console, course) step = next := ⟨_, rfl⟩
    have hmove : Batch.Moves ⟨fun _ => true, Console.takesAll⟩ ⟨0, [], [⟨j, course, .working (step :: rest) none⟩], i, []⟩
        (.advance 0) ⟨0, [], [⟨j, next.2, .working rest none⟩], { i with console := next.1 }, []⟩ :=
      @Batch.Moves.console _ _ [] [] j course next.2 step rest none next.1 rfl hnext
    rw [List.foldl_cons, hnext] at hrest
    exact @ih { i with console := next.1 } next.2 (h.work (by simp [Worker.seen?]) hmove) hrest

/-- the only worker of the last call has done its steps on the console; it settles, delivers and gives its slot back -/
theorem Reaches.finish {before : List Batch} {j : Job} {settled : List Worker} {i : Instrumenter} {course : Course}
    (h : s.Reaches Batch.Calm read ⟨i, before ++ [⟨0, [], [⟨j, course, .working [] none⟩], i, []⟩], settled⟩) :
    s.Reaches Batch.Calm read ⟨i.keep (course.result j.phases.result), before ++ [⟨1, [], [⟨j, course, .finished⟩],
      i.keep (course.result j.phases.result), [⟨j.file, course.result j.phases.result⟩]⟩],
      ⟨j, course, .working [] none⟩ :: settled⟩ := by
  have hsettle : Batch.Moves ⟨fun _ => true, Console.takesAll⟩ ⟨0, [], [⟨j, course, .working [] none⟩], i, []⟩ (.advance 0)
      ⟨0, [], [⟨j, course, .settled⟩], i.keep (course.result j.phases.result), []⟩ :=
    @Batch.Moves.settle _ _ [] [] j course none rfl
  have hdeliver : Batch.Moves ⟨fun _ => true, Console.takesAll⟩
      ⟨0, [], [⟨j, course, .settled⟩], i.keep (course.result j.phases.result), []⟩ (.advance 0)
      ⟨0, [], [⟨j, course, .delivered true⟩], i.keep (course.result j.phases.result),
        [⟨j.file, course.result j.phases.result⟩]⟩ :=
    @Batch.Moves.deliver _ _ [] [] j course rfl
  have hrelease : Batch.Moves ⟨fun _ => true, Console.takesAll⟩
      ⟨0, [], [⟨j, course, .delivered true⟩], i.keep (course.result j.phases.result),
        [⟨j.file, course.result j.phases.result⟩]⟩ (.advance 0)
      ⟨1, [], [⟨j, course, .finished⟩], i.keep (course.result j.phases.result),
        [⟨j.file, course.result j.phases.result⟩]⟩ :=
    @Batch.Moves.release _ _ [] [] j course true rfl
  have hsettled := h.work (by simp [Worker.seen?]) hsettle
  have hdelivered := hsettled.work (by simp [Worker.seen?]) hdeliver
  exact hdelivered.work (by simp [Worker.seen?]) hrelease

/-- **A call that is waited for, with nothing in between, does what `instrument` does.** -/
theorem reaches_sync (s : Session) (read : TreeReader) (u : SourceUnit) : ∃ b w,
    s.Reaches Batch.Calm read ⟨(s.instrumenter.instrument read u).1, s.calls ++ [b], w :: s.settled⟩ ∧ b.isDone ∧
      b.deliveries = [⟨u.file, (s.instrumenter.instrument read u).2⟩] ∧ w.job = u.job read s.instrumenter.options ∧
      w.outcome = (s.instrumenter.instrument read u).2 := by
  obtain ⟨i, before, settled⟩ := s
  obtain ⟨j, hj⟩ : ∃ j, j = u.job read i.options := ⟨_, rfl⟩
  obtain ⟨⟨console, course⟩, hrest⟩ : ∃ last, j.phases.steps.foldl (Course.step Console.takesAll none)
    (i.console, .planned) = last := ⟨_, rfl⟩
  have hresult : i.instrument read u = ({ i with console }.keep (course.result j.phases.result),
      course.result j.phases.result) := by
    rw [hj] at hrest ⊢
    rw [Instrumenter.instrument, Instrumenter.instrumentOn]
    change (u.phases read i.options).steps.foldl _ _ = _ at hrest
    simp only [hrest]
    rfl
  have hcall : step? read ⟨fun _ => true, Console.takesAll⟩ ⟨i, before, settled⟩ (.call (.sync u.values.1 u.values.2)) =
      some ⟨i, before ++ [⟨1, [j], [], i, []⟩], settled⟩ := by
    have hbatch : Batch.ofUnits? read i [u.values] 1 = .ok ⟨1, [j], [], i, []⟩ := by
      rw [hj]
      exact Batch.ofUnits?_values read i [u] (by decide)
    rw [step?, Call.batch?, hbatch]
  have hstart : Batch.Moves ⟨fun _ => true, Console.takesAll⟩ ⟨1, [j], [], i, []⟩ .start
      ⟨0, [], [⟨j, .planned, .working j.phases.steps none⟩], i, []⟩ := .start rfl rfl
  have hcalm : IsOf Batch.Calm ⟨i, before, settled⟩ ⟨fun _ => true, Console.takesAll⟩
    (.call (.sync u.values.1 u.values.2)) := trivial
  have hstarted := (Reaches.refl.step hcalm hcall).work (by simp) hstart
  have hfinished := (hstarted.console j.phases.steps hrest).finish
  dsimp only
  rw [hresult]
  refine ⟨_, _, hfinished, rfl, ?_, hj, rfl⟩
  rw [hj]
  rfl

/-! ## What an instrumenter keeps -/

/-- what is kept changes only when a unit that succeeded is settled -/
theorem exists_success_of_last_ne {step : SessionStep} (h : s.step? read out step = some s')
    (hlast : s'.instrumenter.last ≠ s.instrumenter.last) :
    ∃ w p, s'.settled = w :: s.settled ∧ w.outcome = .ok p := by
  obtain ⟨c, -, rfl⟩ | ⟨c, b, -, hb, rfl⟩ | ⟨before, b, after, b', work, -, hcalls, hmove, rfl⟩ := cases_of_step? h
  · exact absurd rfl hlast
  · exact absurd rfl hlast
  · obtain ⟨-, -, -, hkeeps⟩ := hmove.keeps
    change b'.instrumenter.last = ((b.settling work).findSome? Worker.kept?).or s.instrumenter.last at hkeeps
    rcases b.settling_eq work with hnone | ⟨w, hw⟩
    · rw [hnone] at hkeeps
      exact absurd hkeeps hlast
    · rw [hw] at hkeeps
      cases hresult : w.outcome with
      | ok p => exact ⟨w, p, by simp [hw], hresult⟩
      | error e =>
        have hfails : w.Fails := ⟨e, hresult⟩
        rw [List.findSome?_cons, hfails.kept?] at hkeeps
        exact absurd hkeeps hlast

theorem openScopes_of_isIdle (h : s.isIdle) : s.openScopes = 0 := by
  refine List.sum_eq_zero fun n hn => ?_
  obtain ⟨b, hb, rfl⟩ := List.mem_map.1 hn
  exact Batch.openScopes_of_isDone (List.all_eq_true.1 h b hb)

end Session

/-- **An instrumenter keeps the last success.** Take any state that a session comes to, with any calls on units of any kind, the
steps of their workers in any order, and a console whose steps may fail. While every worker settled so far has failed, nothing
is kept. Otherwise the map and the trace kept are both those of the success settled last, of a unit of one of the calls; the
trace is the initial trace of the map, with the source lines of the unit exactly if they are to be put into it, and it is the
entry of the preamble in the text of the unit. A step changes what is kept only by settling a success. While every line is taken
and no worker acts on what it saw before others came in between, the console is back in the scope the session started in when no
call has anything left to be done, whatever failed, and a unit that is waited for leaves it where it was. -/
theorem session_keeps_last_success {read : TreeReader} {o : Options} {console : Console} {s : Session}
    (h : (Session.new (.new o console)).Reaches Batch.AnyStep read s) :
    ((∀ w ∈ s.settled, w.Fails) → s.instrumenter.last = none) ∧
    (∀ later w earlier p, s.settled = later ++ w :: earlier → (∀ v ∈ later, v.Fails) → w.outcome = .ok p →
      s.instrumenter.last = some (p.map, p.trace) ∧ w.job ∈ s.jobs ∧ (∃ u : SourceUnit, w.job = u.job read o) ∧
      ∀ u : SourceUnit, w.job = u.job read o →
        p.trace = Trace.initial p.map (if o.embedSource then some (SourceText.ofString u.code).lines else none) ∧
        ∃ head rest, p.text = head ++ preamble o.traceVariable u.key p.trace.toJson (!o.noCompact) ++ rest) ∧
    (∀ out step s', s.step? read out step = some s' → s'.instrumenter.last ≠ s.instrumenter.last →
      ∃ w p, s'.settled = w :: s.settled ∧ w.outcome = .ok p) ∧
    ((Session.new (.new o console)).Reaches Batch.Calm read s → s.isIdle →
      s.instrumenter.console.scopes = console.scopes) ∧
    ∀ u, (s.instrumenter.instrument read u).1.console.scopes = s.instrumenter.console.scopes := by
  have hsound := h.sound (Session.sound_new read o console)
  refine ⟨fun hfail => ?_, fun later w earlier p hsettled hlater hp => ⟨?_, ?_⟩, ?_, fun hcalm hidle => ?_, fun u => ?_⟩
  · rw [hsound.last, Worker.findSome?_kept?_of_fails hfail]
  · have hkept : w.kept? = some (p.map, p.trace) := by rw [Worker.kept?, hp]
    rw [hsound.last, hsettled, List.findSome?_append, Worker.findSome?_kept?_of_fails hlater, List.findSome?_cons, hkept]
    rfl
  · have hw := hsound.settled w (by simp [hsettled])
    refine ⟨hw, hsound.units _ hw, fun u hu => ?_⟩
    obtain ⟨-, hresult⟩ := Course.result_eq_ok_iff.1 hp
    rw [hu] at hresult
    exact SourceUnit.product hresult
  · exact fun out step s' => Session.exists_success_of_last_ne
  · have hopened := (hcalm.orderly (Session.orderly_new o console)).opened
    rw [Session.openScopes_of_isIdle hidle] at hopened
    exact Console.opened_zero_iff.1 hopened
  · exact s.instrumenter.scopes_instrument read u

/-! ### A success and a failure -/

def embeddingOptions : Options := ⟨"__trace__", true, false, false, true, false⟩

def emptyUnit : SourceUnit := ⟨"", some "a.js"⟩

def unreadableUnit : SourceUnit := ⟨"\x7d", none⟩

theorem exists_emptyUnit_product : ∃ p, (emptyUnit.job emptyReader embeddingOptions).phases.result = .ok p := by
  have hsome : (emptyUnit.phases emptyReader embeddingOptions).result.toOption.isSome = true := by decide +kernel
  obtain ⟨p, hp⟩ := Option.isSome_iff_exists.1 hsome
  exact ⟨p, ok_of_toOption hp⟩

theorem success_kept_over_failure : ∃ (s : Session) (p : Product) (w v : Worker),
    (Session.new (.new embeddingOptions (.start Float.ofNat))).Reaches Batch.AnyStep emptyReader s ∧
    s.settled = [v, w] ∧ v.Fails ∧ w.outcome = .ok p ∧
    s.instrumenter.last = some (p.map, p.trace) ∧ p.trace = Trace.initial p.map (some (SourceText.ofString "").lines) ∧
    s.isIdle ∧ s.instrumenter.console.scopes = [] := by
  obtain ⟨i, hi⟩ : ∃ i : Instrumenter, i = .new embeddingOptions (.start Float.ofNat) := ⟨_, rfl⟩
  obtain ⟨b, w, hfirst, hdone, -, hjob, houtcome⟩ := Session.reaches_sync (.new i) emptyReader emptyUnit
  obtain ⟨b', v, hsecond, hdone', -, -, houtcome'⟩ :=
    Session.reaches_sync ⟨(i.instrument emptyReader emptyUnit).1, [b], [w]⟩ emptyReader unreadableUnit
  have hcalm := Session.Reaches.trans hfirst hsecond
  obtain ⟨p, hp⟩ : ∃ p, w.outcome = .ok p := by
    obtain ⟨p, hp⟩ := exists_emptyUnit_product
    refine ⟨p, houtcome.trans ((Instrumenter.result_instrument _ _ _).trans ?_)⟩
    rw [hi]
    exact hp
  have hfails : v.Fails := by
    obtain ⟨e, he⟩ : ∃ e, (unreadableUnit.phases emptyReader embeddingOptions).result = .error e := ⟨_, rfl⟩
    refine ⟨e, houtcome'.trans ((Instrumenter.result_instrument _ _ _).trans ?_)⟩
    rw [Instrumenter.options_instrument, hi]
    exact he
  rw [hi] at hcalm
  obtain ⟨-, hlast, -, hscopes, -⟩ := session_keeps_last_success hcalm.any
  obtain ⟨hkept, -, -, hproduct⟩ := hlast [v] w [] p rfl (by simp [hfails]) hp
  have hidle : [b, b'].all Batch.isDone := by simp [hdone, hdone']
  rw [hi] at hjob
  exact ⟨_, p, w, v, hcalm.any, rfl, hfails, hp, hkept, (hproduct emptyUnit hjob).1, hidle, hscopes hcalm hidle⟩

/-! ### A key that is refused -/

/-- takes lines of ASCII characters only -/
def takesAscii (line : String) : Bool := line.toList.all fun c => c.toNat < 128

def accentedUnit : SourceUnit := ⟨"", some "é.js"⟩

def plainUnit : SourceUnit := ⟨"\x7d", some "b.js"⟩

/-- what a unit fails with -/
def failure? (result : Except Failure Product) : Option Failure :=
  match result with
  | .ok _ => none
  | .error e => some e

/-- the line that begins the first unit is refused, and the scope behind it stays open; so the next unit is refused, too, which
does not happen to it when it is first -/
theorem refusedKey_leaves_scope : ∃ i : Instrumenter,
    i = (showingInstrumenter.instrumentOn takesAscii emptyReader accentedUnit).1 ∧
    failure? (showingInstrumenter.instrumentOn takesAscii emptyReader accentedUnit).2 = some (.console .refused) ∧
    showingInstrumenter.console.scopes = [] ∧ i.console.scopes.map Scope.name = ["é.js"] ∧
    failure? (i.instrumentOn takesAscii emptyReader plainUnit).2 = some (.console .refused) ∧
    failure? (showingInstrumenter.instrumentOn takesAscii emptyReader plainUnit).2 =
      some (.source ⟨.unreadable, .somewhere, some "b.js"⟩) := by
  refine ⟨_, rfl, ?_, rfl, ?_, ?_, ?_⟩
  all_goals decide +kernel

end Turnstile
