/-
Where a report writes what was recorded.

- `ReportEvent`: a diagnostic is recorded, the buffer is flushed, a managed block ends;
- `releasedAt?`, `releasedBy`, `unreleased`: the event of a history that writes a diagnostic, if there is one;
- `writtenIn`: everything that a history writes, event by event;
- `Diagnostics.Tells`: a report that shows what its history says, kept by every event (`Diagnostics.Tells.record`);
- `ReportStep.happen`: the events of a step and what leaves it, by the history alone;
- `every_diagnostic_released`: steps make the events that the history decides on, and the report tells them at every moment.
-/
import Mathlib.Tactic
import Turnstile.Report.Diagnostics

namespace Turnstile

/-! ## Histories -/

inductive Severity where
  | error
  | warning
  deriving DecidableEq, Repr

/-- what happens to a report -/
inductive ReportEvent where
  | recorded (severity : Severity) (d : Diagnostic)
  | flushed
  /-- a managed block ends, with what left its steps -/
  | closed (escape : Option Escape)
  deriving DecidableEq, Repr

namespace ReportEvent

def diagnostic? : ReportEvent → Option Diagnostic
  | recorded _ d => some d
  | _ => none

def records (severity : Severity) : ReportEvent → Bool
  | recorded s _ => s = severity
  | _ => false

/-- whether what was recorded before is written -/
def releases : ReportEvent → Bool
  | recorded .. => false
  | _ => true

end ReportEvent

open ReportEvent (records releases diagnostic?)

section Histories

variable (h : List ReportEvent)

/-- the first event behind an index that writes what was recorded before it -/
def releasedAt? (i : ℕ) : Option ℕ := (List.range h.length).find? fun j => i < j && h[j]?.any releases

/-- what was recorded at the indices with a property -/
def recordedWhere (p : ℕ → Bool) : List Diagnostic :=
  h.zipIdx.filterMap fun (e, i) => if p i then e.diagnostic? else none

/-- what the event at an index writes -/
def releasedBy (j : ℕ) : List Diagnostic := recordedWhere h fun i => releasedAt? h i = some j

/-- what no event has written -/
def unreleased : List Diagnostic := recordedWhere h fun i => releasedAt? h i = none

/-- the numbers of errors and warnings recorded -/
def countsText : String :=
  Text.integerText (h.countP (records .error)) ++ " errors, " ++ Text.integerText (h.countP (records .warning)) ++ " warnings"

/-- the line that ends a managed block behind a history -/
def ReportEvent.statusLine : ReportEvent → String
  | closed escape =>
    (if escape.isSome then "Instrumentation Aborted - " else "Instrumentation Successful - ") ++ countsText h ++ "\n"
  | _ => ""

/-- the text that the event at an index writes: the diagnostics it releases, then the line of the block it ends -/
def writtenAt (j : ℕ) : String :=
  String.join ((releasedBy h j).map Diagnostic.text) ++ h[j]?.elim "" (ReportEvent.statusLine (h.take j))

def writtenIn : String := String.join ((List.range h.length).map (writtenAt h))

theorem any_records_iff (severity : Severity) : h.any (records severity) = true ↔ ∃ d, .recorded severity d ∈ h := by
  rw [List.any_eq_true]
  constructor
  · rintro ⟨e, he, hrecords⟩
    cases e with
    | recorded s d =>
      obtain rfl : s = severity := by simpa [records] using hrecords
      exact ⟨d, he⟩
    | flushed => cases hrecords
    | closed escape => cases hrecords
  · rintro ⟨d, hd⟩
    exact ⟨_, hd, by simp [records]⟩

end Histories

/-! ## One more event -/

section Concat

variable {h : List ReportEvent} {e : ReportEvent} {i j : ℕ}

theorem lt_of_releasedAt? (hj : releasedAt? h i = some j) : i < j ∧ j < h.length := by
  have hfound := List.find?_some hj
  have hmem := List.mem_range.1 (List.mem_of_find?_eq_some hj)
  simp only [Bool.and_eq_true, decide_eq_true_eq] at hfound
  exact ⟨hfound.1, hmem⟩

theorem releasedAt?_concat : releasedAt? (h ++ [e]) i =
    (releasedAt? h i).or (if i < h.length ∧ e.releases then some h.length else none) := by
  have hbefore : ((List.range h.length).find? fun j => i < j && (h ++ [e])[j]?.any releases) = releasedAt? h i := by
    refine List.find?_congr fun j hj => ?_
    rw [List.getElem?_append_left (List.mem_range.1 hj)]
  rw [releasedAt?, List.length_append, List.length_singleton, List.range_succ, List.find?_append, hbefore]
  congr 1
  by_cases hlast : i < h.length ∧ e.releases
  · simp [hlast]
  · simp [hlast]

theorem recordedWhere_congr {p q : ℕ → Bool} (hpq : ∀ i < h.length, p i = q i) : recordedWhere h p = recordedWhere h q := by
  refine List.filterMap_congr fun ⟨e, i⟩ hmem => ?_
  simp only [hpq i (List.snd_lt_of_mem_zipIdx hmem)]

theorem recordedWhere_concat (p : ℕ → Bool) :
    recordedWhere (h ++ [e]) p = recordedWhere h p ++ if p h.length then e.diagnostic?.toList else [] := by
  rw [recordedWhere, List.zipIdx_append, List.filterMap_append, recordedWhere]
  congr 1
  cases hp : p h.length <;> cases hd : e.diagnostic? <;> simp [hp, hd]

theorem releasedBy_concat (hj : j < h.length) : releasedBy (h ++ [e]) j = releasedBy h j := by
  have hlast : releasedAt? (h ++ [e]) h.length ≠ some j := by
    intro hreleased
    exact absurd (lt_of_releasedAt? hreleased).1 hj.not_gt
  rw [releasedBy, recordedWhere_concat, if_neg (by simpa using hlast), List.append_nil]
  refine recordedWhere_congr fun i _ => ?_
  have hne : h.length ≠ j := hj.ne'
  rw [releasedAt?_concat]
  split_ifs <;> cases releasedAt? h i <;> simp [hne]

theorem releasedBy_last : releasedBy (h ++ [e]) h.length = if e.releases then unreleased h else [] := by
  have hlast : releasedAt? (h ++ [e]) h.length ≠ some h.length := by
    intro hreleased
    exact absurd (lt_of_releasedAt? hreleased).1 (lt_irrefl _)
  rw [releasedBy, recordedWhere_concat, if_neg (by simpa using hlast), List.append_nil]
  cases he : e.releases with
  | true =>
    rw [if_pos rfl, unreleased]
    refine recordedWhere_congr fun i hi => ?_
    have hne : ∀ j, releasedAt? h i = some j → j ≠ h.length := fun j hj => (lt_of_releasedAt? hj).2.ne
    rw [releasedAt?_concat, if_pos ⟨hi, he⟩]
    cases hreleased : releasedAt? h i with
    | none => simp
    | some j => simp [hne j hreleased]
  | false =>
    have hnone : ∀ i, releasedAt? (h ++ [e]) i ≠ some h.length := by
      intro i hreleased
      rw [releasedAt?_concat, if_neg (by simp [he]), Option.or_none] at hreleased
      exact absurd (lt_of_releasedAt? hreleased).2 (lt_irrefl _)
    simp [recordedWhere, hnone]

theorem unreleased_concat :
    unreleased (h ++ [e]) = if e.releases then [] else unreleased h ++ e.diagnostic?.toList := by
  rw [unreleased, recordedWhere_concat]
  cases he : e.releases with
  | true =>
    have hd : e.diagnostic? = none := by
      cases e with
      | recorded severity d => cases he
      | flushed => rfl
      | closed escape => rfl
    have hsome : ∀ i < h.length, releasedAt? (h ++ [e]) i ≠ none := by
      intro i hi
      rw [releasedAt?_concat, if_pos ⟨hi, he⟩]
      simp
    rw [recordedWhere_congr (q := fun _ => false) fun i hi => by simpa using hsome i hi]
    simp [recordedWhere, hd]
  | false =>
    have hsame : ∀ i, releasedAt? (h ++ [e]) i = releasedAt? h i := by
      intro i
      rw [releasedAt?_concat, if_neg (by simp [he]), Option.or_none]
    have hlast : releasedAt? h h.length = none := by
      by_contra hreleased
      obtain ⟨j, hj⟩ := Option.ne_none_iff_exists'.1 hreleased
      have := lt_of_releasedAt? hj
      omega
    simp [hsame, hlast, unreleased]

/-- **Every diagnostic is written once, in the order recorded**, or not yet. -/
theorem released_append_unreleased (h : List ReportEvent) :
    (List.range h.length).flatMap (releasedBy h) ++ unreleased h = h.filterMap diagnostic? := by
  induction h using List.reverseRecOn with
  | nil => rfl
  | append_singleton h e ih =>
    have hbefore : (List.range h.length).flatMap (releasedBy (h ++ [e])) = (List.range h.length).flatMap (releasedBy h) :=
      List.flatMap_congr fun j hj => releasedBy_concat (List.mem_range.1 hj)
    rw [List.length_append, List.length_singleton, List.range_succ, List.flatMap_append, hbefore, List.filterMap_append, ← ih]
    simp only [List.flatMap_singleton, releasedBy_last, unreleased_concat]
    cases e <;> simp [releases, diagnostic?]

/-- what one more event writes -/
theorem writtenIn_concat : writtenIn (h ++ [e]) = writtenIn h ++
    (String.join ((if e.releases then unreleased h else []).map Diagnostic.text) ++ e.statusLine h) := by
  have hbefore : (List.range h.length).map (writtenAt (h ++ [e])) = (List.range h.length).map (writtenAt h) := by
    refine List.map_congr_left fun j hj => ?_
    have hlt := List.mem_range.1 hj
    rw [writtenAt, writtenAt, releasedBy_concat hlt, List.getElem?_append_left hlt, List.take_append_of_le_length hlt.le]
  have hlast : writtenAt (h ++ [e]) h.length =
      String.join ((if e.releases then unreleased h else []).map Diagnostic.text) ++ e.statusLine h := by
    rw [writtenAt, releasedBy_last, List.take_left, List.getElem?_concat_length, Option.elim_some]
  rw [writtenIn, List.length_append, List.length_singleton, List.range_succ, List.map_append, hbefore, String.join_append,
    ← writtenIn]
  simp [hlast]

end Concat

/-! ## Reports -/

namespace Diagnostics

/-- a report after an event -/
def record (s : Diagnostics) : ReportEvent → Diagnostics
  | .recorded .error d => s.error d
  | .recorded .warning d => s.warn d
  | .flushed => s.flush
  | .closed escape => (s.close escape).1

/-- a report behind a history -/
def behind (h : List ReportEvent) : Diagnostics := h.foldl record .empty

theorem behind_append_singleton (h : List ReportEvent) (e : ReportEvent) : behind (h ++ [e]) = (behind h).record e :=
  List.foldl_concat ..

/-- a report that shows what its history says -/
structure Tells (h : List ReportEvent) (s : Diagnostics) : Prop where
  errors : s.errors = h.countP (records .error)
  warnings : s.warnings = h.countP (records .warning)
  buffer : s.buffer = unreleased h
  written : s.written = writtenIn h

namespace Tells

variable {h : List ReportEvent} {s : Diagnostics}

theorem status_eq (ht : Tells h s) : s.status = countsText h := by rw [status, ht.errors, ht.warnings, countsText]

theorem finalize_eq (ht : Tells h s) :
    s.finalize = if h.any (records .error) then some (.abort (countsText h)) else none := by
  have hpos : 0 < s.errors ↔ h.any (records .error) = true := by
    rw [ht.errors, List.countP_pos_iff, List.any_eq_true]
  simp only [finalize, hpos, ht.status_eq]

theorem error (ht : Tells h s) (d : Diagnostic) : Tells (h ++ [.recorded .error d]) (s.error d) where
  errors := by simp [Diagnostics.error, records, ht.errors]
  warnings := by simp [Diagnostics.error, records, ht.warnings]
  buffer := by simp [Diagnostics.error, unreleased_concat, releases, diagnostic?, ht.buffer]
  written := by simp [Diagnostics.error, writtenIn_concat, releases, ReportEvent.statusLine, ht.written]

theorem warn (ht : Tells h s) (d : Diagnostic) : Tells (h ++ [.recorded .warning d]) (s.warn d) where
  errors := by simp [Diagnostics.warn, records, ht.errors]
  warnings := by simp [Diagnostics.warn, records, ht.warnings]
  buffer := by simp [Diagnostics.warn, unreleased_concat, releases, diagnostic?, ht.buffer]
  written := by simp [Diagnostics.warn, writtenIn_concat, releases, ReportEvent.statusLine, ht.written]

theorem flush (ht : Tells h s) : Tells (h ++ [.flushed]) s.flush where
  errors := by simp [Diagnostics.flush, records, ht.errors]
  warnings := by simp [Diagnostics.flush, records, ht.warnings]
  buffer := by simp [Diagnostics.flush, unreleased_concat, releases]
  written := by simp [Diagnostics.flush, writtenIn_concat, releases, ReportEvent.statusLine, ht.written, ht.buffer]

theorem close (ht : Tells h s) (escape : Option Escape) : Tells (h ++ [.closed escape]) (s.close escape).1 where
  errors := by simp [Diagnostics.close, Diagnostics.flush, records, ht.errors]
  warnings := by simp [Diagnostics.close, Diagnostics.flush, records, ht.warnings]
  buffer := by simp [Diagnostics.close, Diagnostics.flush, unreleased_concat, releases]
  written := by
    -- flushing leaves the counts as they are, so the line has those of the history
    have hstatus : s.flush.status = countsText h := ht.status_eq
    simp only [Diagnostics.close, hstatus]
    simp [Diagnostics.flush, writtenIn_concat, releases, ReportEvent.statusLine, ht.written, ht.buffer, String.append_assoc]

/-- **Every event keeps a report and its history together.** -/
theorem record (ht : Tells h s) (e : ReportEvent) : Tells (h ++ [e]) (s.record e) := by
  cases e with
  | recorded severity d =>
    cases severity with
    | error => exact ht.error d
    | warning => exact ht.warn d
  | flushed => exact ht.flush
  | closed escape => exact ht.close escape

end Tells

/-- a report tells any history that it is behind -/
theorem tells_behind (h : List ReportEvent) : Tells h (behind h) := by
  induction h using List.reverseRecOn with
  | nil => exact ⟨rfl, rfl, rfl, rfl⟩
  | append_singleton h e ih =>
    rw [behind_append_singleton]
    exact ih.record e

end Diagnostics

/-! ## Steps -/

def Escape.isAbort : Escape → Bool
  | abort _ => true
  | other _ => false

theorem Escape.isAbort_eq_false_iff {escape : Escape} : escape.isAbort = false ↔ ∀ status, escape ≠ .abort status := by
  cases escape <;> simp [isAbort]

mutual
/-- the events of a step behind a history, and what leaves it -/
def ReportStep.happen (h : List ReportEvent) : ReportStep → List ReportEvent × Option Escape
  | .error d => ([.recorded .error d], none)
  | .warn d => ([.recorded .warning d], none)
  | .exception classification message text line file =>
    ([.recorded .error (.ofError classification message text line file)], none)
  | .flush => ([.flushed], none)
  | .finalize => ([], if h.any (records .error) then some (.abort (countsText h)) else none)
  | .fail message => ([], some (.other message))
  | .managed steps =>
    let inside := happenAll h steps
    (inside.1 ++ [.closed inside.2], inside.2.filter fun escape => !escape.isAbort)

/-- the events of steps up to the first that fails -/
def happenAll (h : List ReportEvent) : List ReportStep → List ReportEvent × Option Escape
  | [] => ([], none)
  | b :: bs =>
    let first := b.happen h
    match first.2 with
    | some escape => (first.1, some escape)
    | none =>
      let rest := happenAll (h ++ first.1) bs
      (first.1 ++ rest.1, rest.2)
end

/-- the events of runs one after another, whether they fail or not, and what leaves each -/
def happenEach (h : List ReportEvent) : List (List ReportStep) → List ReportEvent × List (Option Escape)
  | [] => ([], [])
  | steps :: more =>
    let first := happenAll h steps
    let rest := happenEach (h ++ first.1) more
    (first.1 ++ rest.1, first.2 :: rest.2)

namespace Diagnostics

/-- runs one after another, whether they fail or not, with what leaves each -/
def runEach (s : Diagnostics) : List (List ReportStep) → Diagnostics × List (Option Escape)
  | [] => (s, [])
  | steps :: more =>
    let first := s.run steps
    let rest := first.1.runEach more
    (rest.1, first.2 :: rest.2)

mutual
/-- the reports that a step goes through, one after each thing that happens -/
def stepStates (s : Diagnostics) : ReportStep → List Diagnostics
  | .error d => [s.error d]
  | .warn d => [s.warn d]
  | .exception classification message text line file => [s.error (.ofError classification message text line file)]
  | .flush => [s.flush]
  | .finalize => []
  | .fail _ => []
  | .managed steps => runStates s steps ++ [(s.step (.managed steps)).1]

def runStates (s : Diagnostics) : List ReportStep → List Diagnostics
  | [] => []
  | b :: bs =>
    match s.step b with
    | (next, none) => stepStates s b ++ runStates next bs
    | (_, some _) => stepStates s b
end

def runEachStates (s : Diagnostics) : List (List ReportStep) → List Diagnostics
  | [] => []
  | steps :: more => s.runStates steps ++ (s.run steps).1.runEachStates more

theorem close_eq (s : Diagnostics) (escape : Option Escape) :
    s.close escape = (s.record (.closed escape), escape.filter fun escape => !escape.isAbort) := by
  obtain _ | _ | _ := escape <;> rfl

mutual
/-- **A step makes the events that its history lets it make**, and fails where the history says so. -/
theorem step_behind (h : List ReportEvent) : ∀ b : ReportStep,
    step (behind h) b = (behind (h ++ (b.happen h).1), (b.happen h).2)
  | .error d => by rw [step, ReportStep.happen, behind_append_singleton]; rfl
  | .warn d => by rw [step, ReportStep.happen, behind_append_singleton]; rfl
  | .exception .. => by rw [step, ReportStep.happen, behind_append_singleton]; rfl
  | .flush => by rw [step, ReportStep.happen, behind_append_singleton]; rfl
  | .finalize => by rw [step, ReportStep.happen, (tells_behind h).finalize_eq, List.append_nil]
  | .fail message => by rw [step, ReportStep.happen, List.append_nil]
  | .managed steps => by
    rw [step, run_behind h steps, ReportStep.happen]
    simp only [close_eq, ← behind_append_singleton, List.append_assoc]

theorem run_behind (h : List ReportEvent) : ∀ steps : List ReportStep,
    run (behind h) steps = (behind (h ++ (happenAll h steps).1), (happenAll h steps).2)
  | [] => by rw [run, happenAll, List.append_nil]
  | b :: bs => by
    rw [run, step_behind h b, happenAll]
    cases (b.happen h).2 with
    | some escape => rfl
    | none =>
      simp only []
      rw [run_behind _ bs, List.append_assoc]
end

/-- the reports behind a history and ever more of what follows -/
def statesAlong (h events : List ReportEvent) : List Diagnostics := events.inits.tail.map fun p => behind (h ++ p)

theorem statesAlong_append (h es fs : List ReportEvent) :
    statesAlong h (es ++ fs) = statesAlong h es ++ statesAlong (h ++ es) fs := by
  have hne : es.inits ≠ [] := by cases es <;> simp
  rw [statesAlong, List.inits_append, List.tail_append_of_ne_nil hne, List.map_append, List.map_map]
  simp [statesAlong, Function.comp_def]

theorem statesAlong_singleton (h : List ReportEvent) (e : ReportEvent) : statesAlong h [e] = [(behind h).record e] := by
  simp [statesAlong, behind_append_singleton]

mutual
/-- **A step goes through the reports behind its events.** -/
theorem stepStates_behind (h : List ReportEvent) : ∀ b : ReportStep,
    stepStates (behind h) b = statesAlong h (b.happen h).1
  | .error d => by rw [stepStates, ReportStep.happen, statesAlong_singleton]; rfl
  | .warn d => by rw [stepStates, ReportStep.happen, statesAlong_singleton]; rfl
  | .exception .. => by rw [stepStates, ReportStep.happen, statesAlong_singleton]; rfl
  | .flush => by rw [stepStates, ReportStep.happen, statesAlong_singleton]; rfl
  | .finalize => by rw [stepStates, ReportStep.happen]; rfl
  | .fail message => by rw [stepStates, ReportStep.happen]; rfl
  | .managed steps => by
    rw [stepStates, runStates_behind h steps, step_behind, ReportStep.happen, statesAlong_append, statesAlong_singleton,
      ← List.append_assoc, behind_append_singleton]

theorem runStates_behind (h : List ReportEvent) : ∀ steps : List ReportStep,
    runStates (behind h) steps = statesAlong h (happenAll h steps).1
  | [] => by rw [runStates, happenAll]; rfl
  | b :: bs => by
    rw [runStates, step_behind h b, happenAll]
    cases (b.happen h).2 with
    | some escape => exact stepStates_behind h b
    | none =>
      simp only []
      rw [stepStates_behind h b, runStates_behind _ bs, statesAlong_append]
end

/-- runs make the events that their histories let them make, and go through the reports behind these -/
theorem runEach_behind (h : List ReportEvent) (runs : List (List ReportStep)) :
    (behind h).runEach runs = (behind (h ++ (happenEach h runs).1), (happenEach h runs).2) ∧
    (behind h).runEachStates runs = statesAlong h (happenEach h runs).1 := by
  induction runs generalizing h with
  | nil => simp [runEach, runEachStates, happenEach, statesAlong]
  | cons steps more ih =>
    obtain ⟨hrun, hstates⟩ := ih (h ++ (happenAll h steps).1)
    constructor
    · simp only [runEach, happenEach, run_behind, hrun, List.append_assoc]
    · simp only [runEachStates, happenEach, run_behind, hstates, runStates_behind, statesAlong_append]

end Diagnostics

/-- what was recorded in front of a block stands above its line, and the flush behind the failure is not reached -/
example : Diagnostics.empty.run [.warn ⟨"Note", "odd", []⟩,
    .managed [.exception "ParseError" "bad" "bad (a.js)" none (some "a.js"), .finalize, .flush], .fail "late", .flush] =
    (⟨1, 1, [], "Note: odd\nParseError: bad\n\tFile \"a.js\"\nInstrumentation Aborted - 1 errors, 1 warnings\n"⟩,
      some (.other "late")) := by
  decide +kernel

end Turnstile
