/-
Whose scope a line of the console shows.

Several workers take turns on one console. Each has scopes of its own, those that it began and has not ended
(`ownScopes`), while the console has one path for all of them. A turn is `Attributed` if the line that it prints shows the
scopes of the worker that takes it and, at an end, the time since that worker's begin.

- `scopes_perform`: what a step does to the scopes of the console;
- `exists_heldBy`: as long as no two workers have scopes of their own at a time, the console has open what one of them has;
- `attributed_iff_apart`: each line is attributed if and only if no two workers ever have scopes of their own at a time.
-/
import Turnstile.Proofs.Report.Scopes

namespace Turnstile

/-- a step on a console that several workers share -/
structure Turn where
  worker : ℕ
  step : ConsoleStep
  deriving DecidableEq

/-- something holds of each turn with the turns before it -/
def EachTurn (P : List Turn → Turn → Prop) (turns : List Turn) : Prop :=
  ∀ before turn, before ++ [turn] <+: turns → P before turn

section EachTurn

variable {P Q : List Turn → Turn → Prop} {turns : List Turn} {turn : Turn}

theorem eachTurn_nil : EachTurn P [] := by
  intro before turn h
  have hlength := h.length_le
  simp at hlength

theorem eachTurn_concat : EachTurn P (turns ++ [turn]) ↔ EachTurn P turns ∧ P turns turn := by
  constructor
  · intro h
    exact ⟨fun before t ht => h before t (ht.trans (List.prefix_append turns [turn])), h turns turn (List.prefix_refl _)⟩
  · rintro ⟨hturns, hturn⟩ before t ht
    rcases List.prefix_concat_iff.1 ht with heq | hbefore
    · obtain ⟨rfl, hlast⟩ := List.append_inj' heq rfl
      rw [List.singleton_inj.1 hlast]
      exact hturn
    · exact hturns before t hbefore

theorem EachTurn.mono (h : EachTurn P turns) (hPQ : ∀ before turn, P before turn → Q before turn) : EachTurn Q turns :=
  fun before turn ht => hPQ before turn (h before turn ht)

end EachTurn

namespace Console

variable {c : Console} {turns : List Turn} {turn : Turn} {worker : ℕ}

/-! ## Scopes of one worker -/

/-- what a step at this time makes of some scopes -/
def scopesAfter (c : Console) (scopes : List Scope) : ConsoleStep → List Scope
  | .begin name => ⟨name, c.now⟩ :: scopes
  | .stop => scopes.tail
  | _ => scopes

theorem scopes_perform (c : Console) (step : ConsoleStep) : (c.perform step).scopes = c.scopesAfter c.scopes step := by
  cases step with
  | begin name => rfl
  | stop =>
    obtain ⟨clock, readings, scopes, transcript⟩ := c
    cases scopes <;> rfl
  | log level source message => rfl
  | listing title lines => exact (annotated_takesAll c title lines).1

theorem scopesAfter_of_flat {scopes : List Scope} {step : ConsoleStep} (h : Phase.depthChange step = 0) :
    c.scopesAfter scopes step = scopes := by
  cases step <;> first | rfl | cases h

/-- the console after some turns -/
def afterTurns (c : Console) (turns : List Turn) : Console := c.performAll (turns.map Turn.step)

/-- one turn, with the scopes of a worker before and after it -/
def follow (worker : ℕ) (state : Console × List Scope) (turn : Turn) : Console × List Scope :=
  (state.1.perform turn.step, if turn.worker = worker then state.1.scopesAfter state.2 turn.step else state.2)

/-- the scopes that a worker began in some turns and has not ended, innermost first -/
def ownScopes (c : Console) (worker : ℕ) (turns : List Turn) : List Scope := (turns.foldl (follow worker) (c, [])).2

theorem afterTurns_concat (c : Console) (turns : List Turn) (turn : Turn) :
    c.afterTurns (turns ++ [turn]) = (c.afterTurns turns).perform turn.step := by
  simp [afterTurns, performAll]

theorem scopes_afterTurns_concat (c : Console) (turns : List Turn) (turn : Turn) :
    (c.afterTurns (turns ++ [turn])).scopes = (c.afterTurns turns).scopesAfter (c.afterTurns turns).scopes turn.step := by
  rw [afterTurns_concat, scopes_perform]

theorem ownScopes_concat (c : Console) (worker : ℕ) (turns : List Turn) (turn : Turn) :
    c.ownScopes worker (turns ++ [turn]) =
      if turn.worker = worker then (c.afterTurns turns).scopesAfter (c.ownScopes worker turns) turn.step
      else c.ownScopes worker turns := by
  have hconsole : (turns.foldl (follow worker) (c, [])).1 = c.afterTurns turns := by
    rw [afterTurns, performAll, List.foldl_map]
    exact (List.foldl_hom Prod.fst fun _ _ => rfl).symm
  rw [ownScopes, List.foldl_append, List.foldl_cons, List.foldl_nil, follow, hconsole]
  rfl

theorem ownScopes_concat_self (c : Console) (turns : List Turn) (turn : Turn) :
    c.ownScopes turn.worker (turns ++ [turn]) =
      (c.afterTurns turns).scopesAfter (c.ownScopes turn.worker turns) turn.step := by
  rw [ownScopes_concat, if_pos rfl]

theorem ownScopes_concat_of_ne (c : Console) (turns : List Turn) (turn : Turn) (h : turn.worker ≠ worker) :
    c.ownScopes worker (turns ++ [turn]) = c.ownScopes worker turns := by
  rw [ownScopes_concat, if_neg h]

/-! ## Lines of one worker -/

/-- the scopes of its own worker that a turn is to show: a begin with the new scope, an end with the one that it ends -/
def shownScopes (c : Console) (before : List Turn) (turn : Turn) : List Scope :=
  match turn.step with
  | .begin name => ⟨name, (c.afterTurns before).now⟩ :: c.ownScopes turn.worker before
  | _ => c.ownScopes turn.worker before

theorem shownScopes_begin (c : Console) (before : List Turn) (worker : ℕ) (name : String) :
    c.shownScopes before ⟨worker, .begin name⟩ = ⟨name, (c.afterTurns before).now⟩ :: c.ownScopes worker before := rfl

theorem shownScopes_stop (c : Console) (before : List Turn) (worker : ℕ) :
    c.shownScopes before ⟨worker, .stop⟩ = c.ownScopes worker before := rfl

/-- the line that a turn is to print: at a begin and an end the path of its own worker, inside the scopes that were open
before any turn, and at an end also the time since that worker began the scope -/
def ownLine? (c : Console) (before : List Turn) (turn : Turn) : Option String :=
  let path := pathText (c.shownScopes before turn ++ c.scopes)
  match turn.step with
  | .begin _ => some ("begin " ++ path ++ "\n")
  | .stop =>
    (c.ownScopes turn.worker before).head?.map fun scope =>
      "end   " ++ path ++ " " ++ Number.elapsedText ((c.afterTurns before).now - scope.started) ++ "\n"
  | _ => none

/-- a turn prints the line of its own worker, if it is to print one -/
def Attributed (c : Console) (before : List Turn) (turn : Turn) : Prop :=
  ∀ line ∈ c.ownLine? before turn,
    (c.afterTurns (before ++ [turn])).transcript = .text line :: (c.afterTurns before).transcript

/-- a worker ends only scopes that it began -/
def EndsOwn (c : Console) (before : List Turn) (turn : Turn) : Prop :=
  turn.step = .stop → c.ownScopes turn.worker before ≠ []

/-- of any two workers at most one has scopes of its own -/
def Held (c : Console) (turns : List Turn) : Prop :=
  ∀ v w, v ≠ w → c.ownScopes v turns = [] ∨ c.ownScopes w turns = []

/-- no two workers have scopes of their own at any time -/
def Apart (c : Console) (turns : List Turn) : Prop := ∀ before, before <+: turns → c.Held before

theorem apart_nil : c.Apart [] := by
  intro before h
  rw [List.prefix_nil.1 h]
  exact fun v w _ => .inl rfl

theorem apart_concat : c.Apart (turns ++ [turn]) ↔ c.Apart turns ∧ c.Held (turns ++ [turn]) := by
  constructor
  · intro h
    exact ⟨fun before hb => h before (hb.trans (List.prefix_append turns [turn])), h _ (List.prefix_refl _)⟩
  · rintro ⟨hturns, hheld⟩ before hb
    rcases List.prefix_concat_iff.1 hb with rfl | hb
    · exact hheld
    · exact hturns before hb

theorem Apart.held (h : c.Apart turns) : c.Held turns := h turns (List.prefix_refl _)

/-- a worker that begins behind another one is not apart from it -/
theorem not_apart_of_two_begins (c : Console) (name name' : String) :
    ¬ c.Apart [⟨0, .begin name⟩, ⟨1, .begin name'⟩] := by
  intro h
  rcases h.held 0 1 Nat.zero_ne_one with hnone | hnone
  · cases hnone
  · cases hnone

/-! ### Lengths of paths -/

theorem length_intercalate_add {sep : String} {xs : List String} (h : xs ≠ []) :
    (sep.intercalate xs).length + sep.length = (xs.map fun x => x.length + sep.length).sum := by
  induction xs with
  | nil => exact absurd rfl h
  | cons x xs ih =>
    cases xs with
    | nil => simp
    | cons y ys =>
      have hrest := ih (List.cons_ne_nil y ys)
      rw [String.intercalate_cons_cons, String.length_append, String.length_append, List.map_cons, List.sum_cons, ← hrest]
      omega

theorem length_pathText {scopes : List Scope} (h : scopes ≠ []) :
    (pathText scopes).length = (scopes.map fun s => s.name.length + 3).sum + 1 := by
  have hnames : scopes.reverse.map (·.name) ≠ [] := by simpa using h
  have hlength : (" | ".intercalate (scopes.reverse.map (·.name))).length + 3 =
      (scopes.map fun s => s.name.length + 3).sum := by
    calc (" | ".intercalate (scopes.reverse.map (·.name))).length + 3
        = ((scopes.reverse.map (·.name)).map fun name => name.length + 3).sum := length_intercalate_add hnames
      _ = (scopes.map fun s => s.name.length + 3).reverse.sum := by rw [List.map_map, List.map_reverse]; rfl
      _ = (scopes.map fun s => s.name.length + 3).sum := List.sum_reverse _
  rw [pathText, String.length_append, String.length_append, show "[ ".length = 2 from rfl, show " ]".length = 2 from rfl]
  omega

/-- scopes between two others make a path longer -/
theorem eq_nil_of_pathText_eq {scope : Scope} {inner base : List Scope}
    (h : pathText (scope :: (inner ++ base)) = pathText (scope :: base)) : inner = [] := by
  have hlength := congrArg String.length h
  rw [length_pathText (List.cons_ne_nil _ _), length_pathText (List.cons_ne_nil _ _)] at hlength
  cases inner with
  | nil => rfl
  | cons s inner =>
    simp only [List.cons_append, List.map_cons, List.map_append, List.sum_cons, List.sum_append] at hlength
    omega

/-! ### One path for all -/

/-- a worker has all scopes that any worker has, and the console has them open -/
structure HeldBy (c : Console) (turns : List Turn) (holder : ℕ) : Prop where
  others : ∀ v, v ≠ holder → c.ownScopes v turns = []
  scopes : (c.afterTurns turns).scopes = c.ownScopes holder turns ++ c.scopes

section HeldBy

variable {holder : ℕ}

theorem heldBy_nil (c : Console) (holder : ℕ) : c.HeldBy [] holder := ⟨fun _ _ => rfl, rfl⟩

theorem HeldBy.held (h : c.HeldBy turns holder) : c.Held turns := by
  intro v w hvw
  rcases eq_or_ne v holder with rfl | hv
  · exact .inr (h.others w hvw.symm)
  · exact .inl (h.others v hv)

/-- a worker that is the only one to have scopes holds the console -/
theorem HeldBy.pass (h : c.HeldBy turns holder) (hothers : ∀ v, v ≠ worker → c.ownScopes v turns = []) :
    c.HeldBy turns worker := by
  refine ⟨hothers, ?_⟩
  rcases eq_or_ne worker holder with rfl | hne
  · exact h.scopes
  · rw [h.scopes, hothers holder hne.symm, h.others worker hne]

/-- a turn of the worker that holds the console -/
theorem HeldBy.concat (turn : Turn) (h : c.HeldBy turns turn.worker)
    (hscopes : (c.afterTurns turns).scopesAfter (c.ownScopes turn.worker turns ++ c.scopes) turn.step =
      (c.afterTurns turns).scopesAfter (c.ownScopes turn.worker turns) turn.step ++ c.scopes) :
    c.HeldBy (turns ++ [turn]) turn.worker := by
  refine ⟨fun v hv => ?_, ?_⟩
  · rw [ownScopes_concat_of_ne c turns turn hv.symm]
    exact h.others v hv
  · rw [scopes_afterTurns_concat, h.scopes, hscopes, ownScopes_concat_self]

/-- a turn that neither begins nor ends a scope -/
theorem HeldBy.concat_flat (h : c.HeldBy turns holder) (hflat : Phase.depthChange turn.step = 0) :
    c.HeldBy (turns ++ [turn]) holder := by
  have hown : ∀ v, c.ownScopes v (turns ++ [turn]) = c.ownScopes v turns := by
    intro v
    rw [ownScopes_concat, scopesAfter_of_flat hflat, ite_self]
  refine ⟨fun v hv => (hown v).trans (h.others v hv), ?_⟩
  rw [scopes_afterTurns_concat, scopesAfter_of_flat hflat, h.scopes, hown]

/-- a worker that ends a scope of its own holds the console -/
theorem HeldBy.eq_of_own (h : c.HeldBy turns holder) (hown : c.ownScopes worker turns ≠ []) : worker = holder := by
  by_contra hne
  exact hown (h.others worker hne)

theorem HeldBy.concat_stop (h : c.HeldBy turns holder) (hown : c.ownScopes worker turns ≠ []) :
    c.HeldBy (turns ++ [⟨worker, .stop⟩]) worker := by
  obtain rfl := h.eq_of_own hown
  exact HeldBy.concat ⟨worker, .stop⟩ h (List.tail_append_of_ne_nil hown)

/-- a worker that begins a scope while no other has any holds the console -/
theorem HeldBy.pass_of_begin {name : String} (h : c.HeldBy turns holder)
    (hheld : c.Held (turns ++ [⟨worker, .begin name⟩])) : c.HeldBy turns worker := by
  have hopen : c.ownScopes worker (turns ++ [⟨worker, .begin name⟩]) ≠ [] := by
    rw [ownScopes_concat_self c turns ⟨worker, .begin name⟩]
    exact List.cons_ne_nil _ _
  refine h.pass fun v hv => ?_
  rw [← ownScopes_concat_of_ne c turns ⟨worker, .begin name⟩ hv.symm]
  exact (hheld v worker hv).resolve_right hopen

theorem HeldBy.concat_begin (h : c.HeldBy turns worker) (name : String) :
    c.HeldBy (turns ++ [⟨worker, .begin name⟩]) worker := HeldBy.concat ⟨worker, .begin name⟩ h rfl

end HeldBy

/-- **As long as no two workers have scopes of their own, the console has open what one of them has.** -/
theorem exists_heldBy (hends : EachTurn c.EndsOwn turns) (hapart : c.Apart turns) : ∃ holder, c.HeldBy turns holder := by
  induction turns using List.reverseRecOn with
  | nil => exact ⟨0, heldBy_nil c 0⟩
  | append_singleton turns turn ih =>
    obtain ⟨hends, hend⟩ := eachTurn_concat.1 hends
    obtain ⟨hapart, hheld⟩ := apart_concat.1 hapart
    obtain ⟨holder, h⟩ := ih hends hapart
    obtain ⟨worker, step⟩ := turn
    cases step with
    | begin name => exact ⟨worker, (h.pass_of_begin hheld).concat_begin name⟩
    | stop => exact ⟨worker, h.concat_stop (hend rfl)⟩
    | log level source message => exact ⟨holder, h.concat_flat rfl⟩
    | listing title lines => exact ⟨holder, h.concat_flat rfl⟩

/-! ### Lines and paths -/

/-- a begin prints the path of the console, whoever opened it -/
theorem transcript_begin (c : Console) (turns : List Turn) (worker : ℕ) (name : String) :
    (c.afterTurns (turns ++ [⟨worker, .begin name⟩])).transcript =
      .text ("begin " ++ pathText (⟨name, (c.afterTurns turns).now⟩ :: (c.afterTurns turns).scopes) ++ "\n") ::
        (c.afterTurns turns).transcript := by
  rw [afterTurns_concat]
  show Entry.text ("" ++ _ ++ "\n") :: _ = _
  rw [String.empty_append]
  rfl

/-- an end prints the path of the console and the time since its innermost scope began, whoever opened them -/
theorem transcript_stop {scope : Scope} {rest : List Scope} (worker : ℕ)
    (h : (c.afterTurns turns).scopes = scope :: rest) :
    (c.afterTurns (turns ++ [⟨worker, .stop⟩])).transcript =
      .text ("end   " ++ pathText (scope :: rest) ++ " " ++
        Number.elapsedText ((c.afterTurns turns).now - scope.started) ++ "\n") :: (c.afterTurns turns).transcript := by
  have hstop : (c.afterTurns turns).perform .stop =
      ((c.afterTurns turns).look.2.stop takesAll (c.afterTurns turns).look.1).1 := rfl
  have hseen : (c.afterTurns turns).look.1 = ⟨scope :: rest, (c.afterTurns turns).now⟩ := by rw [look, h]
  rw [afterTurns_concat, hstop, hseen]
  show Entry.text ("" ++ _ ++ "\n") :: _ = _
  rw [String.empty_append]
  rfl

theorem HeldBy.attributed_begin (h : c.HeldBy turns worker) (name : String) :
    c.Attributed turns ⟨worker, .begin name⟩ := by
  intro line hline
  cases hline
  rw [transcript_begin, h.scopes, shownScopes_begin, List.cons_append]

theorem HeldBy.attributed_stop (h : c.HeldBy turns worker) : c.Attributed turns ⟨worker, .stop⟩ := by
  intro line hline
  obtain ⟨scope, hscope, rfl⟩ := Option.mem_map.1 hline
  obtain ⟨rest, hown⟩ : ∃ rest, c.ownScopes worker turns = scope :: rest := List.head?_eq_some_iff.1 hscope
  have hscopes : (c.afterTurns turns).scopes = scope :: (rest ++ c.scopes) := by
    rw [h.scopes, hown, List.cons_append]
  rw [transcript_stop worker hscopes, shownScopes_stop, hown, List.cons_append]

theorem attributed_of_flat (hflat : Phase.depthChange turn.step = 0) : c.Attributed turns turn := by
  obtain ⟨worker, step⟩ := turn
  intro line hline
  cases step with
  | begin name => cases hflat
  | stop => cases hflat
  | log level source message => cases hline
  | listing title lines => cases hline

/-- a worker whose begin is attributed holds the console: any other scope would be in the path -/
theorem HeldBy.pass_of_attributed {holder : ℕ} {name : String} (h : c.HeldBy turns holder)
    (hattributed : c.Attributed turns ⟨worker, .begin name⟩) : c.HeldBy turns worker := by
  rcases eq_or_ne worker holder with rfl | hne
  · exact h
  · refine h.pass fun v _ => ?_
    have hline := hattributed _ rfl
    rw [transcript_begin, h.scopes, shownScopes_begin, h.others worker hne] at hline
    have htext := Entry.text.inj (List.head_eq_of_cons_eq hline)
    rw [String.append_left_inj, String.append_right_inj] at htext
    have hholder := eq_nil_of_pathText_eq htext
    rcases eq_or_ne v holder with rfl | hv
    · exact hholder
    · exact h.others v hv

/-- **Each line is attributed to the worker that prints it if and only if no two workers ever have scopes of their own at a
time.** -/
theorem attributed_iff_apart (hends : EachTurn c.EndsOwn turns) : EachTurn c.Attributed turns ↔ c.Apart turns := by
  -- of the last turn only a begin is in question: an end and all else leave the console with the worker that holds it
  induction turns using List.reverseRecOn with
  | nil => exact iff_of_true eachTurn_nil apart_nil
  | append_singleton turns turn ih =>
    obtain ⟨hends, hend⟩ := eachTurn_concat.1 hends
    rw [eachTurn_concat, apart_concat, ih hends]
    refine and_congr_right fun hapart => ?_
    obtain ⟨holder, h⟩ := exists_heldBy hends hapart
    obtain ⟨worker, step⟩ := turn
    cases step with
    | begin name =>
      constructor
      · intro hattributed
        exact ((h.pass_of_attributed hattributed).concat_begin name).held
      · intro hheld
        exact (h.pass_of_begin hheld).attributed_begin name
    | stop =>
      have hown := hend rfl
      obtain rfl := h.eq_of_own hown
      exact iff_of_true h.attributed_stop (h.concat_stop hown).held
    | log level source message => exact iff_of_true (attributed_of_flat rfl) (h.concat_flat rfl).held
    | listing title lines => exact iff_of_true (attributed_of_flat rfl) (h.concat_flat rfl).held

end Console

end Turnstile
