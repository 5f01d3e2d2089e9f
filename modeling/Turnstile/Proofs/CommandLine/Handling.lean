/-
What becomes of the files of a run.

A file with an output directory is either stored or reported, and a report about an empty unit may stand beside.
- `Handled`: a file, its output, and what became of it; `Handled.Fits`: the four ways in which that comes about;
- `Work.Advances`: all that a step changes. `advances_of_step` says that a step handles its file, `exists_step` that it
  does not stop there;
- `Work.Progress`: what several steps have left behind, by what became of each file so far (`progress_of_foldlM`);
- `InstrumentCommand.Begins`: a command that comes to its first file.
-/
import Turnstile.Proofs.CommandLine.Stores
import Turnstile.Proofs.Emit.Product
import Turnstile.Proofs.Report.Scopes
import Turnstile.CommandLine.Run

namespace Turnstile

/-! ## Files that were handled -/

/-- what became of a file: an error, or the text that was stored; with what was done on the console -/
structure Handled where
  file : Path
  target : Path
  steps : List ConsoleStep
  warning : Option Diagnostic
  outcome : Except Diagnostic String

namespace Handled

/-- the text that was stored, with its place -/
def write? (h : Handled) : Option (Path × String) :=
  match h.outcome with
  | .ok text => some (h.target, text)
  | .error _ => none

def isWritten (h : Handled) : Bool := h.write?.isSome

/-- the error that was reported -/
def error? (h : Handled) : Option Diagnostic :=
  match h.outcome with
  | .ok _ => none
  | .error d => some d

/-- what was reported, in order -/
def diagnostics (h : Handled) : List Diagnostic := h.warning.toList ++ h.error?.toList

/-- the texts that were stored -/
def writes (hs : List Handled) : List (Path × String) := hs.filterMap write?

/-- the file whose output went to some place -/
def writer? (hs : List Handled) (target : Path) : Option Path :=
  (hs.find? fun h => h.isWritten && h.target = target).map file

theorem write?_eq_some_iff {h : Handled} {v : Path × String} :
    h.write? = some v ↔ h.target = v.1 ∧ h.outcome = .ok v.2 := by
  rw [write?]
  split <;> simp_all [Prod.ext_iff]

/-- what was written was written for a file -/
theorem isSome_writer?_of_mem_writes {hs : List Handled} {v : Path × String} (hv : v ∈ writes hs) :
    (writer? hs v.1).isSome = true := by
  obtain ⟨h, hh, hwrite⟩ := List.mem_filterMap.1 hv
  have hwritten : h.isWritten = true := by rw [isWritten, hwrite]; rfl
  rw [writer?, Option.isSome_map, List.find?_isSome]
  exact ⟨h, hh, by simp [hwritten, (write?_eq_some_iff.1 hwrite).1]⟩

/-- the file whose output went to some place was handled so -/
theorem exists_of_writer? {hs : List Handled} {target source : Path} (h : writer? hs target = some source) :
    ∃ g ∈ hs, g.file = source ∧ g.target = target ∧ g.isWritten = true := by
  obtain ⟨g, hfind, rfl⟩ := Option.map_eq_some_iff.1 h
  have hg := List.find?_some hfind
  rw [Bool.and_eq_true, decide_eq_true_iff] at hg
  exact ⟨g, List.mem_of_find?_eq_some hfind, rfl, hg.2, hg.1⟩

/-- the warning about a unit in which nothing can be counted -/
def emptyUnit? (file : Path) (map : CoverageMap) : Option Diagnostic :=
  if map.statements.isEmpty then some ⟨"EmptyUnit", "nothing to count", fileOrigin file⟩ else none

/-- what a file that is read yields -/
def unitResult (read : TreeReader) (options : Options) (file : Path) (code : String) : Except Failure Product :=
  (SourceUnit.phases ⟨code, some file.text⟩ read options).result

/-- what is done on the console for a file that is read -/
def unitSteps (read : TreeReader) (options : Options) (file : Path) (code : String) : List ConsoleStep :=
  (SourceUnit.phases ⟨code, some file.text⟩ read options).steps

/-- the line of the log about a text that is stored -/
def storedNote (file target : Path) : ConsoleStep := .log .info .commandLine (file.text ++ " -> " ++ target.text)

/-- what becomes of a file, given the files there are and the file whose output is at its place already: it cannot be read,
or it fails, or its output would overwrite another one, or it is stored -/
inductive Fits (read : TreeReader) (options : Options) (fs : FileSystem) (other? : Option Path) : Handled → Prop where
  | unreadable {file target : Path} {e : TextFault} (unread : fs.readText file = .error e) :
      Fits read options fs other? ⟨file, target, [], none, .error ⟨"IOError", e.message file, fileOrigin file⟩⟩
  | failed {file target : Path} {code : String} {e : Failure} {d : Diagnostic} (text : fs.readText file = .ok code)
      (failure : unitResult read options file code = .error e) (reported : e.diagnostic? file.text = some d) :
      Fits read options fs other? ⟨file, target, unitSteps read options file code, none, .error d⟩
  | clash {file target other : Path} {code : String} {p : Product} (text : fs.readText file = .ok code)
      (product : unitResult read options file code = .ok p) (taken : other? = some other) :
      Fits read options fs other? ⟨file, target, unitSteps read options file code, emptyUnit? file p.map,
        .error ⟨"OutputClash", file.text ++ " would overwrite the output of " ++ other.text, fileOrigin target⟩⟩
  | stored {file target : Path} {code : String} {p : Product} (text : fs.readText file = .ok code)
      (product : unitResult read options file code = .ok p) (free : other? = none) :
      Fits read options fs other?
        ⟨file, target, unitSteps read options file code ++ [storedNote file target], emptyUnit? file p.map, .ok p.text⟩

/-- what is written is what the unit yields, and its place was free -/
theorem Fits.of_isWritten {read : TreeReader} {options : Options} {fs : FileSystem} {other? : Option Path} {h : Handled}
    (hfits : h.Fits read options fs other?) (hwritten : h.isWritten = true) : other? = none ∧
      ∃ code p, fs.readText h.file = .ok code ∧ unitResult read options h.file code = .ok p ∧
        h.write? = some (h.target, p.text) := by
  cases hfits with
  | stored text product free => exact ⟨free, _, _, text, product, rfl⟩
  | _ => cases hwritten

end Handled

/-! ## One step -/

theorem Console.performAll_append (c : Console) (as bs : List ConsoleStep) :
    c.performAll (as ++ bs) = (c.performAll as).performAll bs :=
  List.foldl_append ..

/-- a report with what was reported about some files behind it -/
def Diagnostics.reporting (s : Diagnostics) (hs : List Handled) : Diagnostics :=
  ⟨s.errors + (hs.filterMap Handled.error?).length, s.warnings + (hs.filterMap Handled.warning).length,
    s.buffer ++ hs.flatMap Handled.diagnostics, s.written⟩

/-- an error is all that is reported about a file without a warning -/
theorem Diagnostics.error_eq_reporting (s : Diagnostics) (file target : Path) (steps : List ConsoleStep) (d : Diagnostic) :
    s.error d = s.reporting [⟨file, target, steps, none, .error d⟩] := by
  simp [reporting, error, Handled.error?, Handled.diagnostics]

namespace Work

open Handled

/-- all that a step changes -/
structure Advances (read : TreeReader) (w : Work) (h : Handled) (w' : Work) : Prop where
  fits : h.Fits read w.instrumenter.options w.files (w.written.get? h.target)
  options : w'.instrumenter.options = w.instrumenter.options
  files : w.files.storeAll h.write?.toList = .ok w'.files
  written : w'.written = if h.isWritten then w.written.put h.target h.file else w.written
  diagnostics : w'.diagnostics = w.diagnostics.reporting [h]
  console : w'.instrumenter.console = w.instrumenter.console.performAll h.steps
  stdout : w'.stdout = w.stdout

variable {read : TreeReader} {w w' : Work} {file target : Path} {code text : String}

/-- the step of a file that can be read -/
theorem step_of_readText (hnull : file.hasNull = false) (hread : w.files.readText file = .ok code)
    (target : Option Path) : Work.step read w (file, target) =
      let next : Work := { w with instrumenter := (w.instrumenter.instrument read ⟨code, some file.text⟩).1 }
      match unitResult read w.instrumenter.options file code with
      | .ok p => ((next.warnIfEmpty file p.map).deliver file target p.text).mapError .file
      | .error e =>
        match e.diagnostic? file.text with
        | some d => .ok (next.error d)
        | none => .error (.failure e) := by
  have hresult : (w.instrumenter.instrument read ⟨code, some file.text⟩).2 = unitResult read w.instrumenter.options file code :=
    Instrumenter.result_instrument ..
  rw [Work.step, hread, ← hresult]
  exact if_neg (by simp [hnull])

theorem store_eq_ok_iff : w.store file target text = .ok w' ↔
    ∃ files, w.files.store target text = .ok files ∧ w' = { w with
      files := files
      written := w.written.put target file
      instrumenter := { w.instrumenter with console := w.instrumenter.console.perform (storedNote file target) } } := by
  have hstore : w.store file target text = (do
      let files ← w.files.store target text
      return { w with
        files := files
        written := w.written.put target file
        instrumenter := { w.instrumenter with console := w.instrumenter.console.perform (storedNote file target) } }) :=
    (bind_assoc ..).symm
  rw [hstore, bind_eq_ok_iff]
  refine exists_congr fun files => and_congr_right fun _ => ?_
  exact ⟨fun h => (Except.ok.inj h).symm, fun h => h ▸ rfl⟩

/-- a warning changes the reports only -/
theorem warnIfEmpty_eq (w : Work) (file target : Path) (map : CoverageMap) (text : String) : w.warnIfEmpty file map =
    { w with diagnostics := w.diagnostics.reporting [⟨file, target, [], emptyUnit? file map, .ok text⟩] } := by
  rw [warnIfEmpty, emptyUnit?]
  split_ifs <;> simp [Diagnostics.reporting, Diagnostics.warn, Handled.error?, Handled.diagnostics, List.filterMap_cons]

/-- **A step handles its file.** -/
theorem advances_of_step (hstep : Work.step read w (file, some target) = .ok w') :
    ∃ h : Handled, h.file = file ∧ h.target = target ∧ w.Advances read h w' := by
  have hnull : file.hasNull = false := by
    by_contra htrue
    rw [Work.step, if_pos (by simpa using htrue)] at hstep
    cases hstep
  have hconsole : ∀ u : SourceUnit, (w.instrumenter.instrument read u).1.console =
      w.instrumenter.console.performAll (u.phases read w.instrumenter.options).steps := fun u => by
    rw [Instrumenter.instrument_eq, Instrumenter.console_keep]
  cases hread : w.files.readText file with
  | error e =>
    rw [Work.step, hread, if_neg (by simp [hnull])] at hstep
    cases hstep
    exact ⟨_, rfl, rfl, .unreadable hread, rfl, rfl, rfl, Diagnostics.error_eq_reporting .., rfl, rfl⟩
  | ok code =>
    rw [step_of_readText hnull hread] at hstep
    dsimp only at hstep
    split at hstep
    · next p hp =>
      rw [warnIfEmpty_eq _ file target p.map p.text, deliver] at hstep
      dsimp only at hstep
      split at hstep
      · next other htaken =>
        cases hstep
        refine ⟨_, rfl, rfl, .clash hread hp htaken, Instrumenter.options_instrument .., rfl, rfl, ?_, hconsole _, rfl⟩
        simp [Diagnostics.reporting, Work.error, Diagnostics.error, Handled.error?, Handled.diagnostics, List.filterMap_cons]
      · next hfree =>
        obtain ⟨files, hfiles, rfl⟩ := store_eq_ok_iff.1 (mapError_eq_ok_iff.1 hstep)
        refine ⟨_, rfl, rfl, .stored hread hp hfree, Instrumenter.options_instrument .., ?_, rfl, rfl, ?_, rfl⟩
        · exact FileSystem.storeAll_singleton.2 hfiles
        · rw [Console.performAll_append]
          exact congrArg (Console.perform · _) (hconsole _)
    · next e he =>
      split at hstep
      · next d hd =>
        cases hstep
        exact ⟨_, rfl, rfl, .failed hread he hd, Instrumenter.options_instrument .., rfl, rfl,
          Diagnostics.error_eq_reporting .., hconsole _, rfl⟩
      · cases hstep

/-- **A step goes through** if a failure of the unit can be reported and its text can be stored. -/
theorem exists_step (hnull : file.hasNull = false)
    (hfails : ∀ code e, w.files.readText file = .ok code → unitResult read w.instrumenter.options file code = .error e →
      (e.diagnostic? file.text).isSome = true)
    (hstores : ∀ code p, w.files.readText file = .ok code → unitResult read w.instrumenter.options file code = .ok p →
      w.written.get? target = none → ∃ files, w.files.store target p.text = .ok files) :
    ∃ w', Work.step read w (file, some target) = .ok w' := by
  cases hread : w.files.readText file with
  | error e => exact ⟨_, by rw [Work.step, hread, if_neg (by simp [hnull])]⟩
  | ok code =>
    rw [step_of_readText hnull hread]
    dsimp only
    split
    · next p hp =>
      rw [warnIfEmpty_eq _ file target p.map p.text, deliver]
      dsimp only
      split
      · exact ⟨_, rfl⟩
      · next hfree =>
        obtain ⟨files, hfiles⟩ := hstores code p hread hp hfree
        exact ⟨_, mapError_eq_ok_iff.2 (store_eq_ok_iff.2 ⟨files, hfiles, rfl⟩)⟩
    · next e he =>
      obtain ⟨d, hd⟩ := Option.isSome_iff_exists.1 (hfails code e hread he)
      rw [hd]
      exact ⟨_, rfl⟩

/-! ## Several steps -/

/-- what several steps leave behind -/
structure Progress (read : TreeReader) (start : Work) (hs : List Handled) (w : Work) : Prop where
  fits : ∀ before h after, hs = before ++ h :: after → ∃ fs, start.files.storeAll (writes before) = .ok fs ∧
    h.Fits read start.instrumenter.options fs (writer? before h.target)
  options : w.instrumenter.options = start.instrumenter.options
  files : start.files.storeAll (writes hs) = .ok w.files
  written : ∀ target, w.written.get? target = writer? hs target
  distinct : ((writes hs).map Prod.fst).Nodup
  diagnostics : w.diagnostics = start.diagnostics.reporting hs
  console : w.instrumenter.console = start.instrumenter.console.performAll (hs.flatMap Handled.steps)
  stdout : w.stdout = start.stdout

variable {start : Work} {hs : List Handled} {h : Handled}

theorem progress_nil (hwritten : start.written = .empty) : Progress read start [] start :=
  ⟨by simp, rfl, rfl, fun target => by rw [hwritten]; rfl, List.nodup_nil, by simp [Diagnostics.reporting], rfl, rfl⟩

theorem writes_append_singleton : writes (hs ++ [h]) = writes hs ++ h.write?.toList := by
  rw [writes, List.filterMap_append, writes]
  cases hw : h.write? <;> simp [hw]

theorem writer?_append_singleton (target : Path) : writer? (hs ++ [h]) target =
    (writer? hs target).or (if h.isWritten && h.target = target then some h.file else none) := by
  rw [writer?, List.find?_append, writer?]
  cases hs.find? _ <;> simp [List.find?_singleton]

/-- an output that is stored goes to a place that was free -/
theorem Advances.free (hadvances : w.Advances read h w') (hwritten : h.isWritten = true) :
    w.written.get? h.target = none :=
  (hadvances.fits.of_isWritten hwritten).1

theorem Progress.step (hprogress : Progress read start hs w) (hadvances : w.Advances read h w') :
    Progress read start (hs ++ [h]) w' := by
  refine ⟨fun before g after hsplit => ?_, hadvances.options.trans hprogress.options, ?_, fun target => ?_, ?_, ?_, ?_,
    hadvances.stdout.trans hprogress.stdout⟩
  · rcases List.eq_nil_or_concat after with rfl | ⟨front, last, rfl⟩
    · obtain ⟨rfl, hg⟩ := List.append_inj' hsplit rfl
      cases hg
      refine ⟨w.files, hprogress.files, ?_⟩
      rw [← hprogress.written, ← hprogress.options]
      exact hadvances.fits
    · rw [List.concat_eq_append, ← List.cons_append, ← List.append_assoc] at hsplit
      exact hprogress.fits before g front (List.append_inj' hsplit rfl).1
  · rw [writes_append_singleton]
    exact FileSystem.storeAll_append.2 ⟨w.files, hprogress.files, hadvances.files⟩
  · rw [writer?_append_singleton, ← hprogress.written, hadvances.written]
    cases hwritten : h.isWritten with
    | false => simp
    | true =>
      rw [if_pos rfl, OrderedMap.get?_put]
      by_cases hsame : h.target = target
      · subst hsame
        simp [hadvances.free hwritten]
      · simp [hsame, Ne.symm hsame]
  · rw [writes_append_singleton, List.map_append]
    refine List.nodup_append.2 ⟨hprogress.distinct, ?_, ?_⟩
    · cases h.write? <;> simp
    · rintro target hold _ hnew rfl
      obtain ⟨v, hv, rfl⟩ := List.mem_map.1 hold
      obtain ⟨v', hv', htarget⟩ := List.mem_map.1 hnew
      rw [Option.mem_toList] at hv'
      have hfree := hadvances.free (by rw [isWritten, hv']; rfl)
      rw [(write?_eq_some_iff.1 hv').1, htarget, hprogress.written] at hfree
      simpa [hfree] using isSome_writer?_of_mem_writes hv
  · rw [hadvances.diagnostics, hprogress.diagnostics]
    simp [Diagnostics.reporting, Nat.add_assoc]
  · rw [hadvances.console, hprogress.console, ← Console.performAll_append]
    simp

/-- **Steps handle their files, in order.** -/
theorem progress_of_foldlM (hwritten : start.written = .empty) {units : List (Path × Path)}
    (hfold : (units.map fun u => (u.1, some u.2)).foldlM (Work.step read) start = .ok w) :
    ∃ hs : List Handled, hs.map (fun h => (h.file, h.target)) = units ∧ Progress read start hs w := by
  induction units using List.reverseRecOn generalizing w with
  | nil =>
    cases hfold
    exact ⟨[], rfl, progress_nil hwritten⟩
  | append_singleton units u ih =>
    rw [List.map_append, List.foldlM_append, bind_eq_ok_iff] at hfold
    obtain ⟨mid, hmid, hfold⟩ := hfold
    obtain ⟨hs, hunits, hprogress⟩ := ih hmid
    simp only [List.map_singleton, List.foldlM_cons, List.foldlM_nil, bind_pure] at hfold
    obtain ⟨h, hfile, htarget, hadvances⟩ := advances_of_step hfold
    exact ⟨hs ++ [h], by simp [hunits, hfile, htarget], hprogress.step hadvances⟩

end Work

/-! ## A command -/

/-- in front of the first file -/
def Work.start (options : Options) (clock : Nat → Float) (files : FileSystem) : Work :=
  ⟨.new options (.start clock), .empty, .empty, files, ""⟩

/-- a command with an output directory that comes to its first file: its options are valid, and the directory can be made -/
structure InstrumentCommand.Begins (c : InstrumentCommand) (fs : FileSystem) (output : Path) (options : Options)
    (prepared : FileSystem) : Prop where
  outputGiven : c.output = some output
  optionsValid : Options.ofMapping? c.mapping = .ok options
  directoryNamed : output.hasNull = false
  directoryMade : fs.makeDirectories output = .ok prepared

/-- a command finds out where its files go, goes through them and ends -/
theorem InstrumentCommand.Begins.run_eq {c : InstrumentCommand} {fs prepared : FileSystem} {output : Path}
    {options : Options} (h : c.Begins fs output options prepared) (read : TreeReader) (clock : Nat → Float) :
    c.run read clock fs = (do
      let targets ← c.targets? prepared
      let w ← targets.foldlM (Work.step read) (Work.start options clock prepared)
      return w.finish c.logLevel) := by
  have hprepare : c.prepare fs = .ok prepared := by
    rw [prepare, h.outputGiven]
    dsimp only
    rw [if_neg (by simp [h.directoryNamed]), h.directoryMade]
    rfl
  rw [run, h.outputGiven, h.optionsValid, hprepare]
  rfl

end Turnstile
