/-
Scopes that a unit opens and closes.

- `WellNested`: steps that close every scope they open and never one that they did not open;
- `SourceUnit.wellNested_phases`: the steps of a unit are well nested, whether it succeeds or fails at any phase;
- `Console.Opened.attempt`: what one step does to the scopes above those that were open before, if every line is taken and
  nobody came in between;
- `Console.wellNested_foldl`, `Instrumenter.instrument_eq`: well-nested steps, and with them a whole unit, then go as planned
  and leave the console in the scope it was in.
-/
import Mathlib.Tactic
import Turnstile.Instrumenter

namespace Turnstile

/-- each scope opened is closed again, and what is left of the steps at any time never opens more than it closes -/
structure WellNested (steps : List ConsoleStep) : Prop where
  closed : Phase.depthChanges steps = 0
  closing : ∀ n, Phase.depthChanges (steps.drop n) ≤ 0

namespace WellNested

variable {as bs : List ConsoleStep}

theorem nil : WellNested [] := ⟨rfl, fun n => by rw [List.drop_nil]; rfl⟩

theorem append (ha : WellNested as) (hb : WellNested bs) : WellNested (as ++ bs) := by
  refine ⟨?_, ?_⟩
  · rw [Phase.depthChanges_append, ha.closed, hb.closed, add_zero]
  · intro n
    rw [List.drop_append, Phase.depthChanges_append]
    exact add_nonpos (ha.closing n) (hb.closing _)

/-- steps that neither open nor close a scope -/
theorem of_flat (h : ∀ step ∈ as, Phase.depthChange step = 0) : WellNested as := by
  have hzero : ∀ steps : List ConsoleStep, (∀ step ∈ steps, Phase.depthChange step = 0) → Phase.depthChanges steps = 0 := by
    intro steps hsteps
    induction steps with
    | nil => rfl
    | cons step steps ih =>
      have hrest := ih fun s hs => hsteps s (List.mem_cons_of_mem _ hs)
      rw [Phase.depthChanges] at hrest ⊢
      rw [List.foldr_cons, hrest, hsteps step List.mem_cons_self, add_zero]
  exact ⟨hzero as h, fun n => (hzero _ fun step hs => h step (List.mem_of_mem_drop hs)).le⟩

theorem depthChanges_cons (step : ConsoleStep) (steps : List ConsoleStep) :
    Phase.depthChanges (step :: steps) = Phase.depthChange step + Phase.depthChanges steps := rfl

/-- steps inside a scope of their own -/
theorem enclosed (h : WellNested as) (name : String) : WellNested (.begin name :: as ++ [.stop]) := by
  have hwhole : Phase.depthChanges (.begin name :: as ++ [.stop]) = 0 := by
    rw [List.cons_append, depthChanges_cons, Phase.depthChanges_append, h.closed]
    rfl
  refine ⟨hwhole, ?_⟩
  intro n
  cases n with
  | zero => exact hwhole.le
  | succ n =>
    have hrest : Phase.depthChanges ([ConsoleStep.stop].drop (n - as.length)) ≤ 0 := by
      cases n - as.length with
      | zero => decide
      | succ m => simp [Phase.depthChanges]
    rw [List.cons_append, List.drop_succ_cons, List.drop_append, Phase.depthChanges_append]
    exact add_nonpos (h.closing n) hrest

/-- what is left of well-nested steps never opens more than it closes -/
theorem suffix {rest : List ConsoleStep} (h : WellNested as) (hrest : rest <:+ as) : Phase.depthChanges rest ≤ 0 := by
  rw [List.suffix_iff_eq_drop.1 hrest]
  exact h.closing _

end WellNested

/-! ## Phases -/

namespace Phase

variable {α β : Type}

theorem wellNested_ofResult (r : Except Failure α) : WellNested (ofResult r).steps := .nil

theorem wellNested_bind {p : Phase α} {next : α → Phase β} (hp : WellNested p.steps)
    (hnext : ∀ a, WellNested (next a).steps) : WellNested (p >>= next).steps := by
  show WellNested (p.andThen next).steps
  rw [andThen]
  split
  · next a _ => exact hp.append (hnext a)
  · exact hp

/-- what holds of the steps of each of two phases -/
theorem forall_steps_bind {P : ConsoleStep → Prop} {p : Phase α} {next : α → Phase β} (hp : ∀ step ∈ p.steps, P step)
    (hnext : ∀ a, ∀ step ∈ (next a).steps, P step) : ∀ step ∈ (p >>= next).steps, P step := by
  show ∀ step ∈ (p.andThen next).steps, P step
  rw [andThen]
  split
  · next a _ => exact List.forall_mem_append.2 ⟨hp, hnext a⟩
  · exact hp

theorem wellNested_inScope {p : Phase α} (hp : WellNested p.steps) (shown : Bool) (name : String) :
    WellNested (p.inScope shown name).steps := by
  rw [inScope]
  split
  · exact hp.enclosed name
  · exact hp

end Phase

/-! ### Phases inside a unit -/

/-- a line of the log -/
def ConsoleStep.IsLog (step : ConsoleStep) : Prop := ∃ level source message, step = .log level source message

theorem ConsoleStep.IsLog.flat {step : ConsoleStep} (h : step.IsLog) : Phase.depthChange step = 0 := by
  obtain ⟨level, source, message, rfl⟩ := h
  rfl

theorem flat_of_isLog {steps : List ConsoleStep} (h : ∀ step ∈ steps, step.IsLog) :
    ∀ step ∈ steps, Phase.depthChange step = 0 := fun step hs => (h step hs).flat

theorem isLog_of_mem_map {α : Type} {level : LogLevel} {source : LogSource} (text : α → String) (xs : List α) :
    ∀ step ∈ xs.map fun x => ConsoleStep.log level source (text x), step.IsLog := by
  intro step hs
  obtain ⟨x, -, rfl⟩ := List.mem_map.1 hs
  exact ⟨level, source, text x, rfl⟩

theorem isLog_of_mem_parsePhase (read : TreeReader) (src : SourceText) (key : String) :
    ∀ step ∈ (parsePhase read src key).steps, step.IsLog := by
  rw [parsePhase]
  split
  · exact isLog_of_mem_map _ _
  · exact isLog_of_mem_map _ _

theorem isLog_of_mem_indexPhase (walkDebug : Bool) (program : Node) :
    ∀ step ∈ (indexPhase walkDebug program).steps, step.IsLog := by
  cases walkDebug with
  | false => exact fun step hs => absurd hs List.not_mem_nil
  | true => exact isLog_of_mem_map _ _

theorem isLog_of_mem_generatePhase (style : EmitStyle) (src : SourceText) (program : Node) (index : CoverageIndex)
    (key : String) : ∀ step ∈ (generatePhase style src program index key).steps, step.IsLog := by
  rw [generatePhase]
  split
  · exact fun step hs => ⟨_, _, _, List.mem_singleton.1 hs⟩
  · exact fun step hs => absurd hs List.not_mem_nil

theorem depthChange_of_mem_summarySteps (debug : Bool) (src : SourceText) (key : String) (m : CoverageMap) (text : String) :
    ∀ step ∈ summarySteps debug src key m text, Phase.depthChange step = 0 := by
  intro step hs
  rcases List.mem_cons.1 hs with rfl | hs
  · rfl
  · cases debug with
    | false => cases hs
    | true =>
      simp only [if_true, List.mem_cons, List.not_mem_nil, or_false] at hs
      rcases hs with rfl | rfl <;> rfl

/-! ### Units -/

theorem wellNested_textPhases (read : TreeReader) (o : Options) (src : SourceText) (key : String) :
    WellNested (textPhases read o src key).steps := by
  refine Phase.wellNested_inScope ?_ _ _
  refine Phase.wellNested_bind (Phase.wellNested_inScope (.of_flat (flat_of_isLog (isLog_of_mem_parsePhase read src key))) _ _)
    fun program => ?_
  refine Phase.wellNested_bind (Phase.wellNested_ofResult _) fun _ => ?_
  refine Phase.wellNested_bind (Phase.wellNested_inScope (.of_flat (flat_of_isLog (isLog_of_mem_indexPhase _ program))) _ _)
    fun index => ?_
  refine Phase.wellNested_bind (Phase.wellNested_inScope (.of_flat (flat_of_isLog (isLog_of_mem_generatePhase _ _ _ _ _))) _ _)
    fun text => ?_
  exact Phase.wellNested_ofResult _

/-- **A unit closes every scope it opens, and no other**, also when one of its phases fails. -/
theorem SourceUnit.wellNested_phases (u : SourceUnit) (read : TreeReader) (o : Options) :
    WellNested (u.phases read o).steps := by
  refine Phase.wellNested_bind (wellNested_textPhases read o _ u.key) fun written => ?_
  refine Phase.wellNested_bind (.of_flat (depthChange_of_mem_summarySteps _ _ _ _ _)) fun _ => ?_
  exact Phase.wellNested_ofResult _

/-- without debugging, all that is done on the console for a unit are lines of the log -/
theorem SourceUnit.isLog_phases (u : SourceUnit) (read : TreeReader) {o : Options} (hdebug : o.debug = false) :
    ∀ step ∈ (u.phases read o).steps, step.IsLog := by
  refine Phase.forall_steps_bind ?_ fun written => Phase.forall_steps_bind ?_ fun _ => nofun
  · rw [textPhases, hdebug]
    refine Phase.forall_steps_bind (isLog_of_mem_parsePhase read _ u.key) fun program => ?_
    refine Phase.forall_steps_bind nofun fun _ => ?_
    refine Phase.forall_steps_bind (isLog_of_mem_indexPhase _ program) fun index => ?_
    exact Phase.forall_steps_bind (isLog_of_mem_generatePhase _ _ _ _ _) fun text => nofun
  · rw [hdebug]
    exact fun step hs => ⟨_, _, _, List.mem_singleton.1 hs⟩

/-! ## A stream that takes every line -/

namespace Console

variable {c : Console} {base : List Scope} {n : ℤ}

@[simp] theorem output_takesAll (c : Console) (s : String) (tabs : ℕ) : c.output takesAll s tabs =
    ({ c with transcript := .text (String.ofList (List.replicate tabs '\t') ++ s ++ "\n") :: c.transcript }, none) := rfl

/-- lines that are all taken leave the scopes as they are -/
theorem outputAll_takesAll (c : Console) (lines : List String) :
    (c.outputAll takesAll lines).1.scopes = c.scopes ∧ (c.outputAll takesAll lines).2 = none := by
  induction lines generalizing c with
  | nil => exact ⟨rfl, rfl⟩
  | cons line lines ih => exact ih _

theorem annotated_takesAll (c : Console) (title : String) (lines : List String) :
    (c.annotated takesAll title lines).1.scopes = c.scopes ∧ (c.annotated takesAll title lines).2 = none :=
  outputAll_takesAll c _

/-! ## Scopes of the console -/

/-- `n` scopes are open inside those of `base` -/
def Opened (base : List Scope) (n : ℤ) (c : Console) : Prop :=
  ∃ opened, c.scopes = opened ++ base ∧ (opened.length : ℤ) = n

theorem opened_zero_iff : Opened base 0 c ↔ c.scopes = base := by
  constructor
  · rintro ⟨opened, hscopes, hlength⟩
    have hnone : opened = [] := List.length_eq_zero_iff.1 (by exact_mod_cast hlength)
    rw [hscopes, hnone, List.nil_append]
  · intro h
    exact ⟨[], h, rfl⟩

/-- what was seen is what is open -/
def Fresh (c : Console) (seen : Option Glance) : Prop := ∀ g ∈ seen, g.scopes = c.scopes

theorem fresh_none (c : Console) : c.Fresh none := nofun

theorem scopes_glance {seen : Option Glance} (h : c.Fresh seen) :
    (c.glance seen).1.scopes = c.scopes ∧ (c.glance seen).2.scopes = c.scopes := by
  cases seen with
  | none => exact ⟨rfl, rfl⟩
  | some g => exact ⟨h g rfl, rfl⟩

/-- **A step opens or closes one scope, or none**, and does not fail, if every line is taken and what it saw is open. -/
theorem Opened.attempt (h : Opened base n c) {seen : Option Glance} (hfresh : c.Fresh seen) {step : ConsoleStep}
    (hn : 0 ≤ n + Phase.depthChange step) : Opened base (n + Phase.depthChange step) (c.attempt takesAll seen step).1 ∧
      (c.attempt takesAll seen step).2 = none := by
  obtain ⟨opened, hscopes, hlength⟩ := h
  obtain ⟨hseen, -⟩ := scopes_glance hfresh
  cases step with
  | begin name =>
    refine ⟨⟨⟨name, (c.glance seen).1.time⟩ :: opened, ?_, ?_⟩, rfl⟩
    · rw [List.cons_append, ← hscopes, ← hseen]
      rfl
    · rw [List.length_cons, Nat.cast_add, hlength]
      rfl
  | stop =>
    cases opened with
    | nil =>
      have hlength : (0 : ℤ) = n := hlength
      rw [← hlength] at hn
      exact absurd hn (by decide)
    | cons scope opened =>
      have hstop : c.attempt takesAll seen .stop = (c.glance seen).2.stop takesAll (c.glance seen).1 := rfl
      rw [hstop, Console.stop, hseen, hscopes]
      refine ⟨⟨opened, rfl, ?_⟩, rfl⟩
      rw [← hlength, List.length_cons]
      simp [Phase.depthChange]
  | log level source message => exact ⟨⟨opened, hscopes, hlength.trans (add_zero n).symm⟩, rfl⟩
  | listing title lines =>
    obtain ⟨hsame, hnone⟩ := annotated_takesAll c title lines
    exact ⟨⟨opened, hsame.trans hscopes, hlength.trans (add_zero n).symm⟩, hnone⟩

/-! ## Steps in order -/

/-- a step that does not fail leaves the others as planned -/
theorem step_planned {takes : String → Bool} {seen : Option Glance} {step : ConsoleStep}
    (h : (c.attempt takes seen step).2 = none) :
    Course.step takes seen (c, .planned) step = ((c.attempt takes seen step).1, .planned) := by
  show ((c.attempt takes seen step).1, Course.planned.after step (c.attempt takes seen step).2) = _
  rw [h]
  rfl

/-- what is left of well-nested steps goes as planned, if all that it closes is open -/
theorem foldl_step_eq {rest steps : List ConsoleStep} (h : WellNested steps) (hrest : rest <:+ steps) (c : Console)
    (hopened : Opened base (-Phase.depthChanges rest) c) :
    rest.foldl (Course.step takesAll none) (c, .planned) = (c.performAll rest, .planned) ∧
      Opened base 0 (c.performAll rest) := by
  -- what is left of the steps closes exactly the scopes opened so far
  induction rest generalizing c with
  | nil => exact ⟨rfl, hopened⟩
  | cons step rest ih =>
    have hsuffix : rest <:+ steps := (List.suffix_cons step rest).trans hrest
    have hn : -Phase.depthChanges (step :: rest) + Phase.depthChange step = -Phase.depthChanges rest := by
      rw [WellNested.depthChanges_cons]
      ring
    have hnonneg : 0 ≤ -Phase.depthChanges (step :: rest) + Phase.depthChange step :=
      hn ▸ Int.neg_nonneg_of_nonpos (h.suffix hsuffix)
    obtain ⟨hopened', hnone⟩ := hopened.attempt (fresh_none c) hnonneg
    rw [hn] at hopened'
    rw [List.foldl_cons, step_planned hnone]
    exact ih hsuffix (c.perform step) hopened'

/-- **Well-nested steps go as planned**, if every line is taken, and leave the console in the scope it was in. -/
theorem wellNested_foldl {steps : List ConsoleStep} (h : WellNested steps) (c : Console) :
    steps.foldl (Course.step takesAll none) (c, .planned) = (c.performAll steps, .planned) ∧
      (c.performAll steps).scopes = c.scopes := by
  have hopened : Opened c.scopes (-Phase.depthChanges steps) c := by
    rw [h.closed]
    exact opened_zero_iff.2 rfl
  obtain ⟨heq, hscopes⟩ := foldl_step_eq h (List.suffix_refl steps) c hopened
  exact ⟨heq, opened_zero_iff.1 hscopes⟩

end Console

namespace Instrumenter

theorem console_keep (s : Instrumenter) (result : Except Failure Product) : (s.keep result).console = s.console := by
  cases result <;> rfl

/-- a unit does all its steps, if every line is taken -/
theorem instrument_eq (s : Instrumenter) (read : TreeReader) (u : SourceUnit) : s.instrument read u =
    ({ s with console := s.console.performAll (u.phases read s.options).steps }.keep (u.phases read s.options).result,
      (u.phases read s.options).result) := by
  rw [instrument, instrumentOn]
  simp only [(Console.wellNested_foldl (u.wellNested_phases read s.options) s.console).1]
  rfl

theorem result_instrument (s : Instrumenter) (read : TreeReader) (u : SourceUnit) :
    (s.instrument read u).2 = (u.phases read s.options).result := by
  rw [instrument_eq]

/-- **Instrumenting a unit leaves the console in the scope it was in**, whether the unit succeeds or fails, if every line is
taken. -/
theorem scopes_instrument (s : Instrumenter) (read : TreeReader) (u : SourceUnit) :
    (s.instrument read u).1.console.scopes = s.console.scopes := by
  rw [instrument_eq, console_keep]
  exact (Console.wellNested_foldl (u.wellNested_phases read s.options) s.console).2

end Instrumenter

end Turnstile
