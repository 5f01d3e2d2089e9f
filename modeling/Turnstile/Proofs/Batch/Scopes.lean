/-
Scopes of workers that share a console.

The steps of the workers come in any order, so a scope may be closed by another worker than the one that opened it. Their
number is what matters: `Worker.openScopes` is how many a worker has still to close. It is right as long as every line is taken
and no worker acts on what it saw before others came in between (`Calm`).
- `Moves.orderly`, `Reaches.orderly`: then no step on the console fails, and the console always has as many scopes open as the
  workers have to close;
- `scopes_ne_nil_of_stop`: so a worker that closes a scope finds one open;
- `Reaches.calm_of_countP_le_one`: with one worker at a time nobody comes in between.
-/
import Turnstile.Proofs.Batch.Steps

namespace Turnstile

namespace Worker

/-- how many scopes a worker has still to close -/
def openScopes (w : Worker) : ℤ :=
  match w.stage with
  | .working rest _ => -Phase.depthChanges rest
  | _ => 0

/-- no step of a worker has failed; its steps are well nested, and those left are the end of them -/
structure Orderly (w : Worker) : Prop where
  planned : w.course = .planned
  whole : WellNested w.job.phases.steps
  left : ∀ rest seen, w.stage = .working rest seen → rest <:+ w.job.phases.steps

theorem Orderly.openScopes_nonneg {w : Worker} (h : w.Orderly) : 0 ≤ w.openScopes := by
  obtain ⟨j, course, stage⟩ := w
  cases stage with
  | working rest seen => exact Int.neg_nonneg_of_nonpos (h.whole.suffix (h.left rest seen rfl))
  | _ => exact le_refl 0

theorem orderly_start {j : Job} (h : WellNested j.phases.steps) : (start j).Orderly := by
  refine ⟨rfl, h, fun rest seen hrest => ?_⟩
  cases hrest
  exact List.suffix_refl _

variable {j : Job} {course : Course}

/-- a worker that is past its steps on the console -/
theorem Orderly.past {stage : Stage} (h : Orderly ⟨j, course, stage⟩) (stage' : Stage)
    (hstage : ∀ rest seen, stage' ≠ .working rest seen) : Orderly ⟨j, course, stage'⟩ :=
  ⟨h.planned, h.whole, fun rest seen hrest => absurd hrest (hstage rest seen)⟩

/-- a worker with an end of what was left -/
theorem Orderly.suffix {rest rest' : List ConsoleStep} {seen seen' : Option Glance}
    (h : Orderly ⟨j, course, .working rest seen⟩) (hrest : rest' <:+ rest) : Orderly ⟨j, course, .working rest' seen'⟩ := by
  refine ⟨h.planned, h.whole, fun left _ hleft => ?_⟩
  cases hleft
  exact hrest.trans (h.left rest seen rfl)

end Worker

namespace Batch

variable {out : Outside} {b b' : Batch} {s : BatchStep} {base : List Scope} {n : ℤ} {uses : List SlotUse}

/-- how many scopes the workers have still to close -/
def openScopes (b : Batch) : ℤ := (b.workers.map Worker.openScopes).sum

structure Orderly (b : Batch) : Prop where
  waiting : ∀ j ∈ b.waiting, WellNested j.phases.steps
  workers : ∀ w ∈ b.workers, w.Orderly

theorem Orderly.openScopes_nonneg (h : b.Orderly) : 0 ≤ b.openScopes := by
  refine List.sum_nonneg fun n hn => ?_
  obtain ⟨w, hw, rfl⟩ := List.mem_map.1 hn
  exact (h.workers w hw).openScopes_nonneg

theorem Orderly.le_openScopes (h : b.Orderly) {w : Worker} (hw : w ∈ b.workers) : w.openScopes ≤ b.openScopes := by
  refine List.single_le_sum (fun n hn => ?_) _ (List.mem_map_of_mem hw)
  obtain ⟨w', hw', rfl⟩ := List.mem_map.1 hn
  exact (h.workers w' hw').openScopes_nonneg

/-- one worker is another one -/
theorem Orderly.replace {before after : List Worker} {w w' : Worker} (h : b.Orderly)
    (hworkers : b.workers = before ++ w :: after) (hw' : w.Orderly → w'.Orderly) :
    Orderly { b with workers := before ++ w' :: after } :=
  ⟨h.waiting, forall_mem_replace (hworkers ▸ h.workers) (hw' (h.workers w (by simp [hworkers])))⟩

theorem openScopes_replace {before after : List Worker} {w w' : Worker} (hworkers : b.workers = before ++ w :: after)
    (hworkers' : b'.workers = before ++ w' :: after) : b'.openScopes = b.openScopes + (w'.openScopes - w.openScopes) := by
  rw [openScopes, openScopes, hworkers, hworkers', sum_map_append_cons, sum_map_append_cons]
  ring

/-- a worker has as many scopes to close as before -/
theorem opened_replace {before after : List Worker} {w : Worker} {c : Console} (hworkers : b.workers = before ++ w :: after)
    (hopened : c.Opened base (n + b.openScopes)) (w' : Worker) (hsame : w'.openScopes = w.openScopes) :
    c.Opened base (n + openScopes { b with workers := before ++ w' :: after }) := by
  rwa [openScopes_replace hworkers rfl, hsame, sub_self, add_zero]

/-- a calm step on the console: the worker has one step less to do, and the console follows -/
theorem Orderly.console {before after : List Worker} {j : Job} {course course' : Course} {step : ConsoleStep}
    {rest : List ConsoleStep} {seen : Option Glance} {console : Console} (hb : b.Orderly) (hn : 0 ≤ n)
    (hopened : b.instrumenter.console.Opened base (n + b.openScopes))
    (hworkers : b.workers = before ++ ⟨j, course, .working (step :: rest) seen⟩ :: after)
    (hfresh : b.instrumenter.console.Fresh seen)
    (hstep : Course.step Console.takesAll seen (b.instrumenter.console, course) step = (console, course')) :
    course' = .planned ∧ Orderly { b with workers := before ++ ⟨j, .planned, .working rest none⟩ :: after } ∧
      console.Opened base (n + openScopes { b with workers := before ++ ⟨j, .planned, .working rest none⟩ :: after }) := by
  obtain rfl : course = .planned := (hb.workers ⟨j, course, .working (step :: rest) seen⟩ (by simp [hworkers])).planned
  have hb' : Orderly { b with workers := before ++ ⟨j, .planned, .working rest none⟩ :: after } :=
    hb.replace hworkers fun h => h.suffix (List.suffix_cons step rest)
  have hnonneg := add_nonneg hn hb'.openScopes_nonneg
  have hchange : Worker.openScopes ⟨j, .planned, .working rest none⟩ -
      Worker.openScopes ⟨j, .planned, .working (step :: rest) seen⟩ = Phase.depthChange step := by
    simp only [Worker.openScopes, WellNested.depthChanges_cons]
    ring
  rw [openScopes_replace hworkers rfl, hchange, ← add_assoc] at hnonneg ⊢
  obtain ⟨hopened', hnone⟩ := hopened.attempt hfresh hnonneg
  rw [Console.step_planned hnone] at hstep
  cases hstep
  exact ⟨rfl, hb', hopened'⟩

/-- **In calm steps nothing fails, and the console has open what the workers have to close**, above `n` scopes that others have
to close. -/
theorem Moves.orderly (h : Moves out b s b') (hcalm : Calm b out s) (hb : b.Orderly) (hn : 0 ≤ n)
    (hopened : b.instrumenter.console.Opened base (n + b.openScopes)) :
    b'.Orderly ∧ b'.instrumenter.console.Opened base (n + b'.openScopes) := by
  cases h with
  | @start free j rest hfree hwaiting =>
    have hwait := hb.waiting
    rw [hwaiting] at hwait
    refine ⟨⟨fun j' hj => hwait j' (List.mem_cons_of_mem _ hj), fun w hw => ?_⟩, ?_⟩
    · rcases List.mem_append.1 hw with hw | hw
      · exact hb.workers w hw
      · rw [List.mem_singleton.1 hw]
        exact Worker.orderly_start (hwait j List.mem_cons_self)
    · have hj : (Worker.start j).openScopes = 0 := by
        show -Phase.depthChanges j.phases.steps = 0
        rw [(hwait j List.mem_cons_self).closed, neg_zero]
      simpa [openScopes, hj] using hopened
  | look hworkers hlooks =>
    obtain ⟨hwaiting, hworkers'⟩ := hb.replace hworkers fun h => h.suffix (List.suffix_refl _)
    exact ⟨⟨hwaiting, hworkers'⟩, opened_replace hworkers hopened _ rfl⟩
  | console hworkers hstep =>
    rw [hcalm.taken] at hstep
    obtain ⟨rfl, ⟨hwaiting, hworkers'⟩, hopened'⟩ :=
      hb.console hn hopened hworkers (hcalm.fresh _ _ rfl (getElem?_workers hworkers)) hstep
    exact ⟨⟨hwaiting, hworkers'⟩, hopened'⟩
  | settle hworkers =>
    obtain ⟨hwaiting, hworkers'⟩ := hb.replace hworkers fun h => h.past .settled nofun
    refine ⟨⟨hwaiting, hworkers'⟩, ?_⟩
    rw [Instrumenter.console_keep]
    exact opened_replace hworkers hopened _ rfl
  | deliver hworkers =>
    obtain ⟨hwaiting, hworkers'⟩ := hb.replace hworkers fun h => h.past (.delivered _) nofun
    exact ⟨⟨hwaiting, hworkers'⟩, opened_replace hworkers hopened _ rfl⟩
  | release hworkers =>
    obtain ⟨hwaiting, hworkers'⟩ := hb.replace hworkers fun h => h.past .finished nofun
    exact ⟨⟨hwaiting, hworkers'⟩, opened_replace hworkers hopened _ rfl⟩

/-- in every state reached by calm steps nothing has failed and the console has open what the workers have to close -/
theorem Reaches.orderly (h : b.Reaches Calm uses b') (hb : b.Orderly)
    (hopened : b.instrumenter.console.Opened base b.openScopes) :
    b'.Orderly ∧ b'.instrumenter.console.Opened base b'.openScopes := by
  induction h with
  | refl => exact ⟨hb, hopened⟩
  | step _ hcalm hstep ih =>
    obtain ⟨horderly, hopened'⟩ := ih
    simpa using (moves_of_step? hstep).orderly hcalm horderly (le_refl 0) (by simpa using hopened')

/-- **A worker that closes a scope finds one open.** -/
theorem scopes_ne_nil_of_stop (hb : b.Orderly) (hopened : b.instrumenter.console.Opened base b.openScopes) {w : Worker}
    {rest : List ConsoleStep} {seen : Option Glance} (hw : w ∈ b.workers) (hstop : w.stage = .working (.stop :: rest) seen) :
    b.instrumenter.console.scopes ≠ [] := by
  obtain ⟨opened, hscopes, hlength⟩ := hopened
  have horderly := hb.workers w hw
  have hrest : rest <:+ w.job.phases.steps := (List.suffix_cons .stop rest).trans (horderly.left _ _ hstop)
  have hopen : w.openScopes = 1 - Phase.depthChanges rest := by
    rw [Worker.openScopes, hstop]
    show -(-1 + Phase.depthChanges rest) = _
    ring
  have hle := hb.le_openScopes hw
  have hclosed := horderly.whole.suffix hrest
  intro hnone
  rw [hscopes, List.append_eq_nil_iff] at hnone
  rw [hnone.1, List.length_nil, Nat.cast_zero] at hlength
  omega

theorem openScopes_of_isDone (h : b.isDone) : b.openScopes = 0 := by
  have hfinished : ∀ w ∈ b.workers, w.openScopes = 0 := by
    intro w hw
    obtain ⟨j, course, stage⟩ := w
    have hw := List.all_eq_true.1 (Bool.and_eq_true_iff.1 h).2 _ hw
    cases stage <;> first | rfl | cases hw
  refine List.sum_eq_zero fun n hn => ?_
  obtain ⟨w, hw, rfl⟩ := List.mem_map.1 hn
  exact hfinished w hw

/-! ## Nobody in between -/

/-- what any worker saw is still open -/
def SeesFresh (b : Batch) : Prop := ∀ w ∈ b.workers, b.instrumenter.console.Fresh w.seen?

theorem seesFresh_of_unseen (h : ∀ w ∈ b.workers, w.seen? = none) : b.SeesFresh := by
  intro w hw
  rw [h w hw]
  exact Console.fresh_none _

theorem SeesFresh.calm (h : b.SeesFresh) (htaken : out.takes = Console.takesAll) (s : BatchStep) : Calm b out s :=
  ⟨htaken, fun _ w _ hw => h w (List.mem_of_getElem? hw)⟩

/-- a worker without a slot saw nothing -/
theorem seen?_of_holdsSlot {w : Worker} (h : w.holdsSlot = false) : w.seen? = none := by
  obtain ⟨j, course, stage⟩ := w
  cases stage <;> first | rfl | cases h

/-- where one worker at most holds a slot, it is alone to have seen anything -/
theorem seen?_of_countP_le_one {before after : List Worker} {w v : Worker}
    (hone : (before ++ w :: after).countP Worker.holdsSlot ≤ 1) (hslot : w.holdsSlot) (hv : v ∈ before ++ after) :
    v.seen? = none := by
  refine seen?_of_holdsSlot (Bool.eq_false_iff.2 fun hheld => ?_)
  have hpos : 0 < (before ++ after).countP Worker.holdsSlot := List.countP_pos_iff.2 ⟨v, hv, hheld⟩
  rw [List.countP_append, List.countP_cons, if_pos hslot] at hone
  rw [List.countP_append] at hpos
  omega

/-- a step of the only worker that holds a slot -/
theorem SeesFresh.replace {before after : List Worker} {w w' : Worker} (hone : b.workers.countP Worker.holdsSlot ≤ 1)
    (hworkers : b.workers = before ++ w :: after) (hslot : w.holdsSlot) {c : Console} (hw' : c.Fresh w'.seen?) :
    ∀ v ∈ before ++ w' :: after, c.Fresh v.seen? := by
  intro v hv
  rw [hworkers] at hone
  rcases List.mem_append.1 hv with hv | hv
  · rw [seen?_of_countP_le_one hone hslot (List.mem_append_left _ hv)]
    exact c.fresh_none
  · rcases List.mem_cons.1 hv with rfl | hv
    · exact hw'
    · rw [seen?_of_countP_le_one hone hslot (List.mem_append_right _ hv)]
      exact c.fresh_none

/-- **With one worker at a time, what it saw is still open.** -/
theorem Moves.seesFresh (h : Moves out b s b') (hone : b.workers.countP Worker.holdsSlot ≤ 1) (hb : b.SeesFresh) :
    b'.SeesFresh := by
  cases h with
  | start hfree hwaiting =>
    intro w hw
    rcases List.mem_append.1 hw with hw | hw
    · exact hb w hw
    · rw [List.mem_singleton.1 hw]
      exact Console.fresh_none _
  | look hworkers hlooks =>
    refine SeesFresh.replace hone hworkers rfl ?_
    rintro g hg
    cases hg
    rfl
  | console hworkers hstep => exact SeesFresh.replace hone hworkers rfl (Console.fresh_none _)
  | settle hworkers => exact SeesFresh.replace hone hworkers rfl (Console.fresh_none _)
  | deliver hworkers => exact SeesFresh.replace hone hworkers rfl (Console.fresh_none _)
  | release hworkers => exact SeesFresh.replace hone hworkers rfl (Console.fresh_none _)

end Batch

end Turnstile
