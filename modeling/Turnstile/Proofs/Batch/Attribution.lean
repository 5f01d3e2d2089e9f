/-
Whose paths the lines of a batch show.

The workers of a batch take turns on one console (`Takes`). Each follows the paths of its own unit, its key and inside it
the phases (`OnPaths`). Whether the lines show these paths depends on the turns.

- `OnPaths.showsOwnPath`: at each begin and end, the worker's own path is one of its unit's;
- `Moves.regular`: with whole steps nothing fails, so a turn is the step that is due;
- `Follows.move`, `Takes.follows`: a turn of one worker changes no other worker's scopes, so each worker has done the
  beginning of its own steps;
- `Follows.held_of_countP_le_one`: workers have scopes of their own only while they hold a slot;
- `exists_takes_two_begins`: with two units and two slots, a second unit can begin inside the scope of the first;
- `attributed_iff_one_at_a_time`: all lines of all runs are attributed just when one unit is done at a time.
-/
import Turnstile.Proofs.Batch.Delivery
import Turnstile.Proofs.Report.Attribution

namespace Turnstile

/-! ## Paths of a unit -/

/-- the phases of a unit that have a scope -/
def phaseNames : List String := ["parse", "index", "generate"]

/-- the paths of a unit: its key, and its key and a phase -/
def SourceUnit.paths (u : SourceUnit) : List String :=
  ("[ " ++ u.key ++ " ]") :: phaseNames.map fun phase => "[ " ++ u.key ++ " | " ++ phase ++ " ]"

/-- the names of the scopes along a path of a unit with a key, innermost first -/
def IsOwnPath (key : String) (names : List String) : Prop := names = [key] ∨ ∃ phase ∈ phaseNames, names = [phase, key]

theorem IsOwnPath.pathText_mem {u : SourceUnit} {scopes : List Scope} (h : IsOwnPath u.key (scopes.map Scope.name)) :
    Console.pathText scopes ∈ u.paths := by
  have htext : Console.pathText scopes = "[ " ++ " | ".intercalate (scopes.map Scope.name).reverse ++ " ]" := by
    rw [Console.pathText, List.map_reverse]
  rw [htext, SourceUnit.paths]
  rcases h with h | ⟨phase, hphase, h⟩
  · rw [h, List.reverse_singleton, String.intercalate_singleton]
    exact List.mem_cons_self
  · refine List.mem_cons_of_mem _ (List.mem_map.2 ⟨phase, hphase, ?_⟩)
    rw [h]
    simp [String.append_assoc]

/-- steps that begin and end scopes only along the paths of a key, with the names that are open before and after them -/
inductive OnPaths (key : String) : List String → List ConsoleStep → List String → Prop
  | nil {names : List String} : OnPaths key names [] names
  | begin {name : String} {names after : List String} {steps : List ConsoleStep} : IsOwnPath key (name :: names) →
      OnPaths key (name :: names) steps after → OnPaths key names (.begin name :: steps) after
  | stop {name : String} {names after : List String} {steps : List ConsoleStep} : IsOwnPath key (name :: names) →
      OnPaths key names steps after → OnPaths key (name :: names) (.stop :: steps) after
  | flat {names after : List String} {step : ConsoleStep} {steps : List ConsoleStep} : Phase.depthChange step = 0 →
      OnPaths key names steps after → OnPaths key names (step :: steps) after

namespace OnPaths

variable {key : String} {names mid after : List String} {as bs : List ConsoleStep}

theorem append (ha : OnPaths key names as mid) (hb : OnPaths key mid bs after) : OnPaths key names (as ++ bs) after := by
  induction ha with
  | nil => exact hb
  | begin hpath _ ih => exact .begin hpath (ih hb)
  | stop hpath _ ih => exact .stop hpath (ih hb)
  | flat hflat _ ih => exact .flat hflat (ih hb)

theorem of_flat (h : ∀ step ∈ as, Phase.depthChange step = 0) : OnPaths key names as names := by
  induction as with
  | nil => exact .nil
  | cons step as ih => exact .flat (h step List.mem_cons_self) (ih fun s hs => h s (List.mem_cons_of_mem _ hs))

theorem eq_of_nil (h : OnPaths key names [] after) : names = after := by
  cases h
  rfl

theorem enclosed {name : String} (hpath : IsOwnPath key (name :: names)) (h : OnPaths key (name :: names) as (name :: names)) :
    OnPaths key names (.begin name :: as ++ [.stop]) names := by
  rw [List.cons_append]
  exact .begin hpath (h.append (.stop hpath .nil))

section Phases

variable {α β : Type}

theorem bind {p : Phase α} {next : α → Phase β} (hp : OnPaths key names p.steps names)
    (hnext : ∀ a, OnPaths key names (next a).steps names) : OnPaths key names (p >>= next).steps names := by
  show OnPaths key names (p.andThen next).steps names
  rw [Phase.andThen]
  split
  · next a _ => exact hp.append (hnext a)
  · exact hp

/-- a phase in a scope of its own, inside that of the unit -/
theorem inScope {shown : Bool} {phase : String} {p : Phase α} (hphase : phase ∈ phaseNames) (hnames : shown → names = [key])
    (hp : ∀ step ∈ p.steps, Phase.depthChange step = 0) : OnPaths key names (p.inScope shown phase).steps names := by
  cases shown with
  | false => exact .of_flat hp
  | true =>
    obtain rfl := hnames rfl
    exact enclosed (.inr ⟨phase, hphase, rfl⟩) (.of_flat hp)

end Phases

end OnPaths

theorem onPaths_textPhases (read : TreeReader) (o : Options) (src : SourceText) (key : String) :
    OnPaths key [] (textPhases read o src key).steps [] := by
  have hbody : ∀ names, (o.debug → names = [key]) → OnPaths key names
      (do
        let program ← (parsePhase read src key).inScope o.debug "parse"
        Phase.ofResult (checkWrapping o.noAutoWrap program key)
        let index ← (indexPhase o.walkDebug program).inScope o.debug "index"
        let text ← (generatePhase o.style src program index key).inScope o.debug "generate"
        return (index, text) : Phase (CoverageIndex × String)).steps names := by
    intro names hnames
    refine OnPaths.bind (.inScope (by decide) hnames (flat_of_isLog (isLog_of_mem_parsePhase read src key))) fun program => ?_
    refine OnPaths.bind .nil fun _ => ?_
    refine OnPaths.bind (.inScope (by decide) hnames (flat_of_isLog (isLog_of_mem_indexPhase _ program))) fun index => ?_
    refine OnPaths.bind (.inScope (by decide) hnames (flat_of_isLog (isLog_of_mem_generatePhase _ _ _ _ _))) fun text => ?_
    exact .nil
  rw [textPhases, Phase.inScope]
  split
  · exact .enclosed (.inl rfl) (hbody _ fun _ => rfl)
  · next hdebug => exact hbody [] fun h => absurd h hdebug

/-- **A unit begins and ends scopes only along its own paths**, whether it succeeds or fails. -/
theorem SourceUnit.onPaths_phases (u : SourceUnit) (read : TreeReader) (o : Options) :
    OnPaths u.key [] (u.phases read o).steps [] := by
  refine OnPaths.bind (onPaths_textPhases read o _ u.key) fun written => ?_
  refine OnPaths.bind (.of_flat (depthChange_of_mem_summarySteps _ _ _ _ _)) fun _ => ?_
  exact .nil

/-- the first thing to do for a unit whose phases are shown is to begin the scope of its key -/
theorem SourceUnit.exists_phases_eq (u : SourceUnit) (read : TreeReader) {o : Options} (hdebug : o.debug) :
    ∃ rest, (u.phases read o).steps = .begin u.key :: rest := by
  have htext : ∃ rest, (textPhases read o (.ofString u.code) u.key).steps = .begin u.key :: rest := by
    rw [textPhases, Phase.inScope, if_pos hdebug]
    exact ⟨_, List.cons_append⟩
  obtain ⟨rest, htext⟩ := htext
  show ∃ rest, ((textPhases read o (.ofString u.code) u.key).andThen _).steps = _
  rw [Phase.andThen]
  split
  · exact ⟨_, congrArg (· ++ _) htext⟩
  · exact ⟨rest, htext⟩

/-! ### A turn along the paths -/

section Turn

variable {key : String} {after : List String} {steps : List ConsoleStep} {c : Console} {turns : List Turn} {turn : Turn}

/-- a begin or an end is to show a path of the worker's unit, and has a line to print -/
def ShowsOwnPath (key : String) (c : Console) (before : List Turn) (turn : Turn) : Prop :=
  Phase.depthChange turn.step ≠ 0 →
    IsOwnPath key ((c.shownScopes before turn).map Scope.name) ∧ (c.ownLine? before turn).isSome

theorem OnPaths.tail {step : ConsoleStep} {scopes : List Scope} (h : OnPaths key (scopes.map Scope.name) (step :: steps) after)
    (c : Console) : OnPaths key ((c.scopesAfter scopes step).map Scope.name) steps after := by
  generalize hnames : scopes.map Scope.name = names at h
  cases h with
  | begin _ hrest =>
    rw [Console.scopesAfter, List.map_cons, hnames]
    exact hrest
  | stop _ hrest =>
    rw [Console.scopesAfter, List.map_tail, hnames]
    exact hrest
  | flat hflat hrest =>
    rw [Console.scopesAfter_of_flat hflat, hnames]
    exact hrest

/-- **At each begin and end the worker's own path is one of its unit's.** -/
theorem OnPaths.showsOwnPath {worker : ℕ} {step : ConsoleStep}
    (h : OnPaths key ((c.ownScopes worker turns).map Scope.name) (step :: steps) after) :
    ShowsOwnPath key c turns ⟨worker, step⟩ := by
  generalize hnames : (c.ownScopes worker turns).map Scope.name = names at h
  intro hchange
  cases h with
  | begin hpath _ =>
    refine ⟨?_, rfl⟩
    rw [Console.shownScopes_begin, List.map_cons, hnames]
    exact hpath
  | stop hpath _ =>
    obtain ⟨scope, rest, hown, -, -⟩ := List.map_eq_cons_iff.1 hnames
    refine ⟨?_, ?_⟩
    · rw [Console.shownScopes_stop, hnames]
      exact hpath
    · simp [Console.ownLine?, hown]
  | flat hflat _ => exact absurd hflat hchange

/-- a worker that is to show a path of its unit ends only scopes that it began -/
theorem ShowsOwnPath.endsOwn (h : ShowsOwnPath key c turns turn) : c.EndsOwn turns turn := by
  obtain ⟨worker, step⟩ := turn
  intro hstop hnone
  obtain rfl : step = .stop := hstop
  have hchange : Phase.depthChange .stop ≠ 0 := by decide
  have hline := (h hchange).2
  rw [Console.ownLine?, hnone] at hline
  exact absurd hline (by simp)

end Turn

/-! ## Turns of a batch -/

/-- the steps on the console that are left at a stage -/
def Stage.rest : Stage → List ConsoleStep
  | .working rest _ => rest
  | _ => []

namespace Batch

variable {out : Outside} {b b' : Batch} {s : BatchStep} {c : Console} {turns : List Turn} {us : List SourceUnit}
variable {read : TreeReader} {o : Options} {limit : ℕ} {base : List Scope}

/-- the steps on the console that are left to the worker at a place -/
def left (b : Batch) (i : ℕ) : List ConsoleStep := (b.workers[i]?).elim [] fun w => w.stage.rest

/-- the turn on the console that a step of a batch is, if it is one -/
def turnOf (b : Batch) : BatchStep → List Turn
  | .start => []
  | .look _ => []
  | .advance i => (b.left i).head?.toList.map fun step => ⟨i, step⟩

/-- the states that a batch comes to while every step is taken as a whole and every line is taken, with the turns of its workers
so far; the receiver answers each step as it likes -/
inductive Takes (b : Batch) : List Turn → Batch → Prop
  | refl : Takes b [] b
  | step {turns : List Turn} {mid after : Batch} {out : Outside} {s : BatchStep} :
      Takes b turns mid → Whole mid out s → mid.step? out s = some after → Takes b (turns ++ mid.turnOf s) after

theorem turnOf_cases (b : Batch) (s : BatchStep) : b.turnOf s = [] ∨ ∃ turn, b.turnOf s = [turn] := by
  cases s with
  | start => exact .inl rfl
  | look i => exact .inl rfl
  | advance i =>
    rw [turnOf]
    cases (b.left i).head? with
    | none => exact .inl rfl
    | some step => exact .inr ⟨_, rfl⟩

/-- the turns so far were taken one after another -/
theorem Takes.exists_before (h : b.Takes turns b') {before : List Turn} (hbefore : before <+: turns) :
    ∃ mid, b.Takes before mid := by
  induction h with
  | refl =>
    rw [List.prefix_nil.1 hbefore]
    exact ⟨b, .refl⟩
  | @step turns mid after out s hmid hwhole hstep ih =>
    rcases mid.turnOf_cases s with hnone | ⟨turn, hone⟩
    · rw [hnone, List.append_nil] at hbefore
      exact ih hbefore
    · rw [hone] at hbefore
      rcases List.prefix_concat_iff.1 hbefore with rfl | hbefore
      · rw [← hone]
        exact ⟨after, hmid.step hwhole hstep⟩
      · exact ih hbefore

/-- a schedule of whole steps leads to a state that the batch comes to -/
theorem exists_takes_of_run? {accepts : Delivery → Bool} {schedule : List BatchStep} (hall : ∀ s ∈ schedule, ∀ i, s ≠ .look i)
    (h : b.run? ⟨accepts, Console.takesAll⟩ schedule = some b') : ∃ turns, b.Takes turns b' := by
  induction schedule using List.reverseRecOn generalizing b' with
  | nil =>
    cases h
    exact ⟨[], .refl⟩
  | append_singleton schedule s ih =>
    rw [run?, List.foldlM_append] at h
    obtain ⟨mid, hmid, hlast⟩ := Option.bind_eq_some_iff.1 h
    obtain ⟨turns, htakes⟩ := ih (fun t ht => hall t (List.mem_append_left _ ht)) hmid
    rw [List.foldlM_cons] at hlast
    obtain ⟨after, hstep, hnone⟩ := Option.bind_eq_some_iff.1 hlast
    cases hnone
    exact ⟨_, htakes.step ⟨rfl, hall s (by simp)⟩ hstep⟩

section Left

variable {before after : List Worker} {j : Job} {course : Course} {stage : Stage} {i : ℕ}

theorem left_of_workers (h : b.workers = before ++ ⟨j, course, stage⟩ :: after) : b.left before.length = stage.rest := by
  rw [left, getElem?_workers h]
  rfl

theorem left_of_ne {w w' : Worker} (h : b.workers = before ++ w :: after) (h' : b'.workers = before ++ w' :: after)
    (hi : i ≠ before.length) : b'.left i = b.left i := by
  have hplace : b'.workers[i]? = b.workers[i]? := by
    rw [h, h']
    rcases lt_or_gt_of_ne hi with hlt | hgt
    · rw [List.getElem?_append_left hlt, List.getElem?_append_left hlt]
    · obtain ⟨k, rfl⟩ := Nat.exists_eq_add_of_lt hgt
      simp [List.getElem?_append_right, Nat.add_assoc]
  rw [left, left, hplace]

/-- a step after the last one on the console leaves nothing to be done there -/
theorem left_of_rest_nil {stage' : Stage} (h : b.workers = before ++ ⟨j, course, stage⟩ :: after)
    (h' : b'.workers = before ++ ⟨j, course, stage'⟩ :: after) (hstage : stage.rest = []) (hstage' : stage'.rest = []) (i : ℕ) :
    b'.left i = b.left i := by
  rcases eq_or_ne i before.length with rfl | hi
  · rw [left_of_workers h, left_of_workers h', hstage, hstage']
  · exact left_of_ne h h' hi

theorem turnOf_eq_nil (h : b.workers = before ++ ⟨j, course, stage⟩ :: after) (hstage : stage.rest = []) :
    b.turnOf (.advance before.length) = [] := by
  rw [turnOf, left_of_workers h, hstage]
  rfl

theorem left_of_length_le (h : b.workers.length ≤ i) : b.left i = [] := by
  rw [left, List.getElem?_eq_none h]
  rfl

end Left

/-! ### Nothing in between -/

/-- nothing has failed, the console has open what the workers have to close, and no worker has looked at it and not gone on -/
structure Regular (base : List Scope) (b : Batch) : Prop where
  orderly : b.Orderly
  opened : b.instrumenter.console.Opened base b.openScopes
  unseen : ∀ w ∈ b.workers, w.seen? = none

theorem regular_ofUnits (read : TreeReader) (s : Instrumenter) (us : List SourceUnit) (limit : ℕ) :
    Regular s.console.scopes ⟨limit, us.map fun u => u.job read s.options, [], s, []⟩ :=
  ⟨orderly_ofUnits read s us limit, Console.opened_zero_iff.2 rfl, fun _ hw => absurd hw List.not_mem_nil⟩

theorem Regular.calm (h : Regular base b) (hwhole : Whole b out s) : Calm b out s :=
  (seesFresh_of_unseen h.unseen).calm hwhole.taken s

theorem Moves.unseen (h : Moves out b s b') (hwhole : Whole b out s) (hb : ∀ w ∈ b.workers, w.seen? = none) :
    ∀ w ∈ b'.workers, w.seen? = none := by
  cases h with
  | start hfree hwaiting =>
    intro w hw
    rcases List.mem_append.1 hw with hw | hw
    · exact hb w hw
    · rw [List.mem_singleton.1 hw]
      rfl
  | look => exact absurd rfl (hwhole.undivided _)
  | console hworkers | settle hworkers | deliver hworkers | release hworkers => exact forall_mem_replace (hworkers ▸ hb) rfl

theorem Moves.regular (h : Moves out b s b') (hwhole : Whole b out s) (hb : Regular base b) : Regular base b' := by
  have hopened : b.instrumenter.console.Opened base (0 + b.openScopes) := by
    rw [zero_add]
    exact hb.opened
  obtain ⟨horderly, hopened'⟩ := h.orderly (hb.calm hwhole) hb.orderly (le_refl 0) hopened
  rw [zero_add] at hopened'
  exact ⟨horderly, hopened', h.unseen hwhole hb.unseen⟩

/-! ### What each worker has done -/

/-- the key of the unit at a place -/
def keyAt (us : List SourceUnit) (i : ℕ) : String := (us[i]?).elim "" SourceUnit.key

/-- the units of a batch, its workers and its console after some turns -/
structure Follows (c : Console) (read : TreeReader) (o : Options) (us : List SourceUnit) (limit : ℕ) (turns : List Turn)
    (b : Batch) : Prop where
  accounts : ∃ uses, Accounts (us.map fun u => u.job read o) limit uses b
  regular : Regular c.scopes b
  console : b.instrumenter.console = c.afterTurns turns
  /-- each worker has open what the rest of its steps ends -/
  left : ∀ i, OnPaths (keyAt us i) ((c.ownScopes i turns).map Scope.name) (b.left i) []
  shows : EachTurn (fun before turn => ∃ u, us[turn.worker]? = some u ∧ ShowsOwnPath u.key c before turn) turns

theorem Accounts.exists_unit {uses : List SlotUse} {i : ℕ} {j : Job}
    (h : Accounts (us.map fun u => u.job read o) limit uses b)
    (hi : (b.workers.map Worker.job ++ b.waiting)[i]? = some j) : ∃ u, us[i]? = some u ∧ u.job read o = j := by
  rw [h.jobs, List.getElem?_map, Option.map_eq_some_iff] at hi
  exact hi

theorem keyAt_of_getElem? {i : ℕ} {u : SourceUnit} (h : us[i]? = some u) : keyAt us i = u.key := by
  rw [keyAt, h]
  rfl

theorem follows_ofUnits (read : TreeReader) (s : Instrumenter) (us : List SourceUnit) (limit : ℕ) :
    Follows s.console read s.options us limit [] ⟨limit, us.map fun u => u.job read s.options, [], s, []⟩ :=
  ⟨⟨[], accounts_ofUnits s _ limit⟩, regular_ofUnits read s us limit, rfl, fun _ => .nil, eachTurn_nil⟩

/-- a step that is no turn and leaves each worker the same steps on the console -/
theorem Follows.keep (h : Follows c read o us limit turns b)
    (haccounts : ∃ uses, Accounts (us.map fun u => u.job read o) limit uses b') (hregular : Regular c.scopes b')
    (hconsole : b'.instrumenter.console = b.instrumenter.console) (hleft : ∀ i, b'.left i = b.left i) :
    Follows c read o us limit turns b' := by
  refine ⟨haccounts, hregular, hconsole.trans h.console, fun i => ?_, h.shows⟩
  rw [hleft]
  exact h.left i

/-- a worker is started with nothing open and all steps of its unit before it -/
theorem Follows.start {j : Job} {waiting : List Job} (h : Follows c read o us limit turns b)
    (haccounts : ∃ uses, Accounts (us.map fun u => u.job read o) limit uses b') (hregular : Regular c.scopes b')
    (hconsole : b'.instrumenter.console = b.instrumenter.console) (hwaiting : b.waiting = j :: waiting)
    (hworkers : b'.workers = b.workers ++ [.start j]) : Follows c read o us limit turns b' := by
  obtain ⟨_, hunits⟩ := h.accounts
  obtain ⟨u, hu, rfl⟩ := hunits.exists_unit (i := b.workers.length) (j := j) (by simp [hwaiting])
  refine ⟨haccounts, hregular, hconsole.trans h.console, fun i => ?_, h.shows⟩
  have hleft := h.left i
  rcases lt_trichotomy i b.workers.length with hlt | rfl | hgt
  · rw [Batch.left] at hleft ⊢
    rwa [hworkers, List.getElem?_append_left hlt]
  · -- nothing was left to do at its place, so nothing is open there
    rw [left_of_length_le (le_refl _)] at hleft
    rw [hleft.eq_of_nil, left_of_workers hworkers, keyAt_of_getElem? hu]
    exact u.onPaths_phases read o
  · rw [left_of_length_le hgt.le] at hleft
    rwa [left_of_length_le (by simpa [hworkers] using hgt)]

/-- a turn of a worker -/
theorem Follows.turn {before after : List Worker} {j : Job} {course course' : Course} {step : ConsoleStep}
    {rest : List ConsoleStep} {seen : Option Glance}
    (h : Follows c read o us limit turns b)
    (haccounts : ∃ uses, Accounts (us.map fun u => u.job read o) limit uses b') (hregular : Regular c.scopes b')
    (hconsole : b'.instrumenter.console = b.instrumenter.console.perform step)
    (hworkers : b.workers = before ++ ⟨j, course, .working (step :: rest) seen⟩ :: after)
    (hworkers' : b'.workers = before ++ ⟨j, course', .working rest none⟩ :: after) :
    Follows c read o us limit (turns ++ [⟨before.length, step⟩]) b' := by
  obtain ⟨_, hunits⟩ := h.accounts
  obtain ⟨u, hu, -⟩ := hunits.exists_unit (i := before.length) (j := j) (by simp [hworkers])
  have hown := h.left before.length
  rw [left_of_workers hworkers] at hown
  refine ⟨haccounts, hregular, ?_, fun i => ?_, ?_⟩
  · rw [hconsole, h.console, Console.afterTurns_concat]
  · rcases eq_or_ne i before.length with rfl | hi
    · rw [left_of_workers hworkers', Console.ownScopes_concat_self c turns ⟨before.length, step⟩]
      exact hown.tail _
    · rw [left_of_ne hworkers hworkers' hi, Console.ownScopes_concat_of_ne c turns ⟨before.length, step⟩ hi.symm]
      exact h.left i
  · refine eachTurn_concat.2 ⟨h.shows, u, hu, ?_⟩
    rw [keyAt_of_getElem? hu] at hown
    exact hown.showsOwnPath

/-- **Each step of a batch is the next step of one worker along the paths of its unit**, or no turn. -/
theorem Follows.move (h : Follows c read o us limit turns b) (hwhole : Whole b out s) (hmove : Moves out b s b') :
    Follows c read o us limit (turns ++ b.turnOf s) b' := by
  have hregular := hmove.regular hwhole h.regular
  have haccounts : ∃ uses, Accounts (us.map fun u => u.job read o) limit uses b' := by
    obtain ⟨_, haccounts⟩ := h.accounts
    exact ⟨_, haccounts.move hmove⟩
  cases hmove with
  | start _ hwaiting =>
    rw [turnOf, List.append_nil]
    exact h.start haccounts hregular rfl hwaiting rfl
  | look => exact absurd rfl (hwhole.undivided _)
  | @console before after j course course' step rest seen console hworkers hstep =>
    have hmem : ⟨j, course, .working (step :: rest) seen⟩ ∈ b.workers := by simp [hworkers]
    obtain rfl : course = .planned := h.regular.orderly.planned _ hmem
    obtain rfl : seen = none := h.regular.unseen _ hmem
    rw [hwhole.taken] at hstep
    obtain rfl : b.instrumenter.console.perform step = console := congrArg Prod.fst hstep
    rw [turnOf, left_of_workers hworkers]
    exact h.turn haccounts hregular rfl hworkers rfl
  | settle hworkers =>
    rw [turnOf_eq_nil hworkers rfl, List.append_nil]
    exact h.keep haccounts hregular (Instrumenter.console_keep _ _) (left_of_rest_nil hworkers rfl rfl rfl)
  | deliver hworkers =>
    rw [turnOf_eq_nil hworkers rfl, List.append_nil]
    exact h.keep haccounts hregular rfl (left_of_rest_nil hworkers rfl rfl rfl)
  | release hworkers =>
    rw [turnOf_eq_nil hworkers rfl, List.append_nil]
    exact h.keep haccounts hregular rfl (left_of_rest_nil hworkers rfl rfl rfl)

theorem Takes.follows {turns' : List Turn} (h : b.Takes turns' b') (hb : Follows c read o us limit turns b) :
    Follows c read o us limit (turns ++ turns') b' := by
  induction h with
  | refl => rwa [List.append_nil]
  | step _ hwhole hstep ih =>
    rw [← List.append_assoc]
    exact ih.move hwhole (moves_of_step? hstep)

/-- what the workers of a batch are to show is a path of their units, and they end only what they began -/
theorem Follows.endsOwn (h : Follows c read o us limit turns b) : EachTurn c.EndsOwn turns := by
  refine h.shows.mono fun before turn hturn => ?_
  obtain ⟨u, -, hu⟩ := hturn
  exact hu.endsOwn

/-! ### One unit at a time -/

/-- a worker with scopes of its own holds a slot -/
theorem Follows.exists_worker (h : Follows c read o us limit turns b) {i : ℕ} (hown : c.ownScopes i turns ≠ []) :
    ∃ w, b.workers[i]? = some w ∧ w.holdsSlot := by
  have hleft : b.left i ≠ [] := by
    intro hnone
    have hpaths := h.left i
    rw [hnone] at hpaths
    exact hown (List.map_eq_nil_iff.1 hpaths.eq_of_nil)
  cases hw : b.workers[i]? with
  | none =>
    rw [Batch.left, hw] at hleft
    exact absurd rfl hleft
  | some w =>
    refine ⟨w, rfl, ?_⟩
    obtain ⟨j, course, stage⟩ := w
    rw [Batch.left, hw] at hleft
    cases stage <;> first | rfl | exact absurd rfl hleft

theorem two_le_countP {α : Type} {p : α → Bool} {ws : List α} {i k : ℕ} {v w : α} (hv : ws[i]? = some v)
    (hw : ws[k]? = some w) (hik : i < k) (hpv : p v) (hpw : p w) : 2 ≤ ws.countP p := by
  have hfront : 0 < (ws.take k).countP p := by
    refine List.countP_pos_iff.2 ⟨v, List.mem_of_getElem? (i := i) ?_, hpv⟩
    rw [List.getElem?_take_of_lt hik, hv]
  have hback : 0 < (ws.drop k).countP p := by
    refine List.countP_pos_iff.2 ⟨w, List.mem_of_getElem? (i := 0) ?_, hpw⟩
    rw [List.getElem?_drop, Nat.add_zero, hw]
  have hsplit : ws.countP p = (ws.take k).countP p + (ws.drop k).countP p := by
    rw [← List.countP_append, List.take_append_drop]
  omega

theorem Follows.held_of_countP_le_one (h : Follows c read o us limit turns b)
    (hone : b.workers.countP Worker.holdsSlot ≤ 1) : c.Held turns := by
  intro v w hvw
  by_contra hboth
  obtain ⟨hv, hw⟩ := not_or.1 hboth
  obtain ⟨x, hx, hxslot⟩ := h.exists_worker hv
  obtain ⟨y, hy, hyslot⟩ := h.exists_worker hw
  have htwo : 2 ≤ b.workers.countP Worker.holdsSlot := by
    rcases lt_or_gt_of_ne hvw with hlt | hgt
    · exact two_le_countP hx hy hlt hxslot hyslot
    · exact two_le_countP hy hx hgt hyslot hxslot
  omega

/-- a batch with one slot or one unit has one worker at a time -/
theorem Follows.countP_le_one (h : Follows c read o us limit turns b) (hone : limit ≤ 1 ∨ us.length ≤ 1) :
    b.workers.countP Worker.holdsSlot ≤ 1 := by
  obtain ⟨uses, haccounts⟩ := h.accounts
  have hslots := haccounts.slots
  have hjobs := congrArg List.length haccounts.jobs
  simp only [List.length_append, List.length_map] at hjobs
  have hworkers := List.countP_le_length (p := Worker.holdsSlot) (l := b.workers)
  omega

/-- **With one slot or one unit no two workers ever have scopes of their own.** -/
theorem Takes.apart (h : b.Takes turns b') (hb : Follows c read o us limit [] b) (hone : limit ≤ 1 ∨ us.length ≤ 1) :
    c.Apart turns := by
  intro before hbefore
  obtain ⟨mid, hmid⟩ := h.exists_before hbefore
  have hfollows : Follows c read o us limit before mid := hmid.follows hb
  exact hfollows.held_of_countP_le_one (hfollows.countP_le_one hone)

/-! ### Two units at a time -/

section Taken

variable {mid : Batch} {j k : Job} {rest rest' : List ConsoleStep}

/-- every delivery is accepted and every line is taken -/
def welcoming : Outside := ⟨fun _ => true, Console.takesAll⟩

theorem Takes.start {free : ℕ} {jobs : List Job} (h : b.Takes turns mid) (hfree : mid.free = free + 1)
    (hwaiting : mid.waiting = j :: jobs) :
    b.Takes turns { mid with free := free, waiting := jobs, workers := mid.workers ++ [.start j] } := by
  have hmove : Moves welcoming mid .start _ := .start hfree hwaiting
  have hwhole : Whole mid welcoming .start := ⟨rfl, nofun⟩
  have hstep := h.step hwhole hmove.step?_eq
  rwa [turnOf, List.append_nil] at hstep

/-- a worker begins the scope of its unit -/
theorem Takes.begin {name : String} (before : List Worker) {after : List Worker} (h : b.Takes turns mid)
    (hworkers : mid.workers = before ++ ⟨j, .planned, .working (.begin name :: rest) none⟩ :: after) :
    b.Takes (turns ++ [⟨before.length, .begin name⟩])
      { mid with
        workers := before ++ ⟨j, .planned, .working rest none⟩ :: after
        instrumenter := { mid.instrumenter with console := mid.instrumenter.console.perform (.begin name) } } := by
  have hmove : Moves welcoming mid (.advance before.length) _ := .console hworkers rfl
  have hwhole : Whole mid welcoming (.advance before.length) := ⟨rfl, nofun⟩
  have hstep := h.step hwhole hmove.step?_eq
  rwa [turnOf, left_of_workers hworkers] at hstep

/-- with two slots the second worker can begin its scope right behind the first one -/
theorem exists_takes_first_begins (s : Instrumenter) (jobs : List Job) (free : ℕ) {name name' : String}
    (hj : j.phases.steps = .begin name :: rest) (hk : k.phases.steps = .begin name' :: rest') :
    ∃ b', Takes ⟨free + 2, j :: k :: jobs, [], s, []⟩ [⟨0, .begin name⟩, ⟨1, .begin name'⟩] b' := by
  have hstarted : Takes ⟨free + 2, j :: k :: jobs, [], s, []⟩ []
      ⟨free, jobs, [⟨j, .planned, .working (.begin name :: rest) none⟩, ⟨k, .planned, .working (.begin name' :: rest') none⟩],
        s, []⟩ := by
    rw [← hj, ← hk]
    exact (Takes.refl.start rfl rfl).start rfl rfl
  have hfirst := hstarted.begin [] rfl
  exact ⟨_, hfirst.begin [⟨j, .planned, .working rest none⟩] rfl⟩

end Taken

/-- **With two slots and two units, one unit can begin inside the scope of another.** -/
theorem exists_takes_two_begins (read : TreeReader) {s : Instrumenter} (hdebug : s.options.debug) (hslots : 2 ≤ limit)
    (hunits : 2 ≤ us.length) : ∃ (u v : SourceUnit) (b' : Batch),
      Takes ⟨limit, us.map fun u => u.job read s.options, [], s, []⟩ [⟨0, .begin u.key⟩, ⟨1, .begin v.key⟩] b' := by
  obtain ⟨free, rfl⟩ := Nat.exists_eq_add_of_le' hslots
  rcases us with _ | ⟨u, _ | ⟨v, rest⟩⟩
  · simp at hunits
  · simp at hunits
  · obtain ⟨_, hu⟩ := u.exists_phases_eq read hdebug
    obtain ⟨_, hv⟩ := v.exists_phases_eq read hdebug
    obtain ⟨b', htakes⟩ := exists_takes_first_begins s (rest.map fun u => u.job read s.options) free
      (j := u.job read s.options) (k := v.job read s.options) hu hv
    exact ⟨u, v, b', htakes⟩

theorem limit_nonneg_of_ofUnits? {s : Instrumenter} {limit : ℤ}
    (hb : ofUnits? read s (us.map SourceUnit.values) limit = .ok b) : 0 ≤ limit := by
  by_contra hnegative
  rw [ofUnits?, mapM_map_eq_ok fun u _ => SourceUnit.ofJson?_values u] at hb
  change (if limit < 0 then _ else _) = _ at hb
  rw [if_pos (not_le.1 hnegative)] at hb
  cases hb

end Batch

/-- **The lines of a batch are attributed just when one unit is done at a time.** In whatever order the workers take their
turns, the console has what these turns print; at each begin and end the path of the worker's own scopes is one of its
unit's, `[ key ]` or `[ key | phase ]`, and the worker is to print a line with it; and the lines printed are these lines if
and only if no two workers had scopes of their own at a time. If phases are shown, the lines of every run of a batch are
these lines if and only if the batch has at most one slot or at most one unit. -/
theorem attributed_iff_one_at_a_time (read : TreeReader) (s : Instrumenter) (us : List SourceUnit) {limit : ℤ} {b : Batch}
    (hb : Batch.ofUnits? read s (us.map SourceUnit.values) limit = .ok b) :
    (∀ turns b', b.Takes turns b' →
      b'.instrumenter.console = s.console.afterTurns turns ∧
      EachTurn (fun before turn => Phase.depthChange turn.step ≠ 0 → ∃ u, us[turn.worker]? = some u ∧
        Console.pathText (s.console.shownScopes before turn) ∈ u.paths ∧ (s.console.ownLine? before turn).isSome) turns ∧
      (EachTurn s.console.Attributed turns ↔ s.console.Apart turns)) ∧
    (s.options.debug →
      ((∀ turns b', b.Takes turns b' → EachTurn s.console.Attributed turns) ↔ limit ≤ 1 ∨ us.length ≤ 1)) := by
  have hlimit := Batch.limit_nonneg_of_ofUnits? hb
  rw [Batch.ofUnits?_values read s us hlimit] at hb
  cases hb
  have hstart := Batch.follows_ofUnits read s us limit.toNat
  have hiff : ∀ turns b', Batch.Takes _ turns b' → (EachTurn s.console.Attributed turns ↔ s.console.Apart turns) :=
    fun turns b' htakes => Console.attributed_iff_apart (htakes.follows hstart).endsOwn
  refine ⟨fun turns b' htakes => ⟨(htakes.follows hstart).console, ?_, hiff turns b' htakes⟩, fun hdebug => ⟨?_, ?_⟩⟩
  · refine (htakes.follows hstart).shows.mono fun before turn hturn hchange => ?_
    obtain ⟨u, hu, hpath⟩ := hturn
    exact ⟨u, hu, (hpath hchange).1.pathText_mem, (hpath hchange).2⟩
  · intro hall
    by_contra hmany
    obtain ⟨hslots, hunits⟩ := not_or.1 hmany
    obtain ⟨u, v, b', htakes⟩ := Batch.exists_takes_two_begins read hdebug (show 2 ≤ limit.toNat by omega)
      (show 2 ≤ us.length by omega)
    exact Console.not_apart_of_two_begins s.console u.key v.key ((hiff _ b' htakes).1 (hall _ b' htakes))
  · intro hone turns b' htakes
    exact (hiff turns b' htakes).2 (htakes.apart hstart (hone.imp (by omega) id))

/-! ### Two units -/

def unitA : SourceUnit := ⟨"a;", some "a.js"⟩

def unitB : SourceUnit := ⟨"b;", some "b.js"⟩

/-- one after the other -/
theorem twoNamed_attributed : ∃ b final turns, Batch.ofUnits? Grammar.readProgram showingInstrumenter
      ([unitA, unitB].map SourceUnit.values) 1 = .ok b ∧
    b.Takes turns final ∧ final.isDone ∧ EachTurn showingInstrumenter.console.Attributed turns := by
  have hb := Batch.ofUnits?_values Grammar.readProgram showingInstrumenter [unitA, unitB] (show (0 : ℤ) ≤ 1 by decide)
  obtain ⟨schedule, final, hall, hrun, hdone⟩ := (Batch.accounts_ofUnits showingInstrumenter
    ([unitA, unitB].map fun u => u.job Grammar.readProgram showingInstrumenter.options) 1).exists_isDone Nat.one_pos
    Batch.welcoming
  obtain ⟨turns, htakes⟩ := Batch.exists_takes_of_run? hall hrun
  obtain ⟨-, hone⟩ := attributed_iff_one_at_a_time Grammar.readProgram showingInstrumenter [unitA, unitB] hb
  exact ⟨_, final, turns, hb, htakes, hdone, (hone rfl).2 (.inl (le_refl 1)) turns final htakes⟩

/-- the second inside the first: its line shows a path that no unit has -/
theorem twoNamed_not_attributed : ∃ b b', Batch.ofUnits? Grammar.readProgram showingInstrumenter
      ([unitA, unitB].map SourceUnit.values) 2 = .ok b ∧
    b.Takes [⟨0, .begin "a.js"⟩, ⟨1, .begin "b.js"⟩] b' ∧
    b'.instrumenter.console.printed = "begin [ a.js ]\nbegin [ a.js | b.js ]\n" ∧
    (∀ u ∈ [unitA, unitB], "[ a.js | b.js ]" ∉ u.paths) ∧
    ¬ EachTurn showingInstrumenter.console.Attributed [⟨0, .begin "a.js"⟩, ⟨1, .begin "b.js"⟩] := by
  have hdebug : showingInstrumenter.options.debug := rfl
  obtain ⟨_, ha⟩ := unitA.exists_phases_eq Grammar.readProgram hdebug
  obtain ⟨_, hb⟩ := unitB.exists_phases_eq Grammar.readProgram hdebug
  obtain ⟨b', htakes⟩ := Batch.exists_takes_first_begins showingInstrumenter [] 0
    (j := unitA.job Grammar.readProgram showingInstrumenter.options)
    (k := unitB.job Grammar.readProgram showingInstrumenter.options) ha hb
  have hfollows := htakes.follows (Batch.follows_ofUnits Grammar.readProgram showingInstrumenter [unitA, unitB] 2)
  refine ⟨_, b', Batch.ofUnits?_values Grammar.readProgram showingInstrumenter [unitA, unitB] (by decide), htakes, ?_,
    by decide, ?_⟩
  · rw [hfollows.console]
    rfl
  · intro hattributed
    exact Console.not_apart_of_two_begins _ _ _ ((Console.attributed_iff_apart hfollows.endsOwn).1 hattributed)

end Turnstile
