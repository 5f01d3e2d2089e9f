/-
What a command accounts for.

A command with an output directory, whose outputs can be stored and whose units fail with errors that can be reported only,
comes to its end (`exists_end`). Then every file was handled in one of two ways: its output is in the file system, or there
is one error about it. The reports are written in the order of the files, with their numbers behind them, and the exit code
tells whether there was an error (`accounts_for_files`).
-/
import Turnstile.Proofs.CommandLine.Outputs

namespace Turnstile

open Handled

/-! ## Reports about files -/

/-- the classes that errors about files are reported under -/
def errorClasses : List String := "IOError" :: "OutputClash" :: [ErrorClass.parse, .illegalReturn, .input].map ErrorClass.name

/-- a report names a file as its origin, or as the one that would overwrite the output of another -/
def Diagnostic.Names (d : Diagnostic) (file : Path) : Prop :=
  (∃ line, d.trace = ["File \"" ++ file.text ++ "\"" ++ line]) ∨
    ∃ other : Path, d.message = file.text ++ " would overwrite the output of " ++ other.text

theorem Path.text_ne_empty (p : Path) : p.text ≠ "" := by
  rw [Path.text]
  split_ifs with h
  · decide
  · exact h

theorem Diagnostic.exists_origin (line : Option String) (file : Path) :
    ∃ rest, Diagnostic.origin line (some file.text) = ["File \"" ++ file.text ++ "\"" ++ rest] := by
  have hfile : (some file.text).filter (· ≠ "") = some file.text := by simp [Option.filter, file.text_ne_empty]
  cases line with
  | none => exact ⟨"", by simp only [Diagnostic.origin, hfile, String.append_empty]⟩
  | some l =>
    have hquote : "\", line " = "\"" ++ ", line " := by decide
    refine ⟨", line " ++ l, ?_⟩
    rw [Diagnostic.origin, hfile]
    simp only [Option.getD_some, hquote, String.append_assoc]

theorem ErrorClass.name_mem (e : ErrorClass) : e.name ∈ errorClasses := by
  cases e <;> simp [errorClasses]

/-- an error of a unit is reported under its class, and for its file -/
theorem Failure.names_of_diagnostic? {e : Failure} {file : Path} {d : Diagnostic} (h : e.diagnostic? file.text = some d) :
    d.classification ∈ errorClasses ∧ d.Names file := by
  cases e with
  | misuse m =>
    cases h
    exact ⟨ErrorClass.name_mem .input, Or.inl (Diagnostic.exists_origin none file)⟩
  | source e =>
    cases h
    exact ⟨e.errorClass.name_mem, Or.inl (Diagnostic.exists_origin e.place.line? file)⟩
  | _ => cases h

namespace Handled

variable {read : TreeReader} {options : Options} {fs : FileSystem} {other? : Option Path} {h : Handled}

/-- **An error about a file is of a known class and names the file.** -/
theorem Fits.names_of_error? (hfits : h.Fits read options fs other?) {d : Diagnostic} (herror : h.error? = some d) :
    d.classification ∈ errorClasses ∧ d.Names h.file := by
  cases hfits with
  | @unreadable file =>
    cases herror
    exact ⟨by simp [errorClasses], Or.inl (Diagnostic.exists_origin none file)⟩
  | failed text failure reported =>
    cases herror
    exact Failure.names_of_diagnostic? reported
  | clash =>
    cases herror
    exact ⟨by simp [errorClasses], Or.inr ⟨_, rfl⟩⟩
  | stored => cases herror

theorem names_of_emptyUnit? {file : Path} {map : CoverageMap} {d : Diagnostic} (h : emptyUnit? file map = some d) :
    d.classification = "EmptyUnit" ∧ d.Names file := by
  rw [emptyUnit?] at h
  split_ifs at h
  cases h
  exact ⟨rfl, Or.inl (Diagnostic.exists_origin none file)⟩

/-- a warning about a file is about an empty unit and names the file -/
theorem Fits.names_of_warning (hfits : h.Fits read options fs other?) {d : Diagnostic} (hwarning : h.warning = some d) :
    d.classification = "EmptyUnit" ∧ d.Names h.file := by
  cases hfits with
  | unreadable => cases hwarning
  | failed => cases hwarning
  | clash => exact names_of_emptyUnit? hwarning
  | stored => exact names_of_emptyUnit? hwarning

/-! ## Outputs that would be overwritten -/

/-- the file at some place whose output was written -/
def sharer? (wd : List String) (hs : List Handled) (file : Path) : Option Path :=
  (hs.find? fun g => g.isWritten && Path.resolve wd g.file = Path.resolve wd file).map Handled.file

theorem isSome_sharer?_iff {wd : List String} {hs : List Handled} {file : Path} : (sharer? wd hs file).isSome = true ↔
    ∃ g ∈ hs, g.isWritten = true ∧ Path.resolve wd g.file = Path.resolve wd file := by
  simp [sharer?]

/-- outputs are the same exactly if their files are at one place -/
theorem writer?_eq_sharer? {c : InstrumentCommand} {wd : List String} {output file : Path} {hs : List Handled}
    (hcovers : c.Covers wd output hs) (hfile : file ∈ c.files) :
    writer? hs (c.targetOf wd output file) = sharer? wd hs file := by
  rw [writer?, sharer?]
  refine congrArg _ (List.find?_congr fun g hg => ?_)
  obtain ⟨hmem, htarget⟩ := hcovers g hg
  rw [htarget, decide_eq_decide.2 (InstrumentCommand.targetOf_eq_iff hmem hfile)]

/-- **A file that could be instrumented clashes exactly if its place is taken.** -/
theorem Fits.clash_iff (hfits : h.Fits read options fs other?) {code : String} {p : Product}
    (htext : fs.readText h.file = .ok code) (hproduct : unitResult read options h.file code = .ok p) :
    (∃ d, h.error? = some d ∧ d.classification = "OutputClash") ↔ other?.isSome = true := by
  cases hfits with
  | unreadable unread => rw [unread] at htext; cases htext
  | failed text failure =>
    obtain rfl := Except.ok.inj (text.symm.trans htext)
    rw [failure] at hproduct
    cases hproduct
  | clash text product taken => simp [Handled.error?, taken]
  | stored text product free => simp [Handled.error?, free]

end Handled

/-! ## To the end -/

/-- the units of a command fail with errors that can be reported only -/
def InstrumentCommand.Reportable (c : InstrumentCommand) (read : TreeReader) (options : Options) (clock : Nat → Float)
    (prepared : FileSystem) : Prop :=
  ∀ before file target after w code e, c.targets? prepared = .ok (before ++ (file, target) :: after) →
    before.foldlM (Work.step read) (Work.start options clock prepared) = .ok w → w.files.readText file = .ok code →
    unitResult read options file code = .error e → (e.diagnostic? file.text).isSome = true

namespace InstrumentCommand

variable {c : InstrumentCommand} {read : TreeReader} {fs prepared : FileSystem} {output : Path} {options : Options}
  {clock : Nat → Float} {hs : List Handled} {w : Work}

/-- **A command comes to its end.** -/
theorem Begins.exists_end (hbegins : c.Begins fs output options prepared) (hdots : ".." ∉ fs.workingDirectory)
    (hstorable : c.Storable output prepared) (hreportable : c.Reportable read options clock prepared)
    {before after : List (Path × Option Path)} (htargets : c.targets? prepared = .ok (before ++ after)) :
    ∃ w, before.foldlM (Work.step read) (Work.start options clock prepared) = .ok w := by
  induction before using List.reverseRecOn generalizing after with
  | nil => exact ⟨_, rfl⟩
  | append_singleton before unit ih =>
    rw [List.append_assoc, List.singleton_append] at htargets
    obtain ⟨w, hbefore⟩ := ih htargets
    obtain ⟨hs, -, hcovers, hprogress⟩ := hbegins.progress htargets hbefore
    obtain ⟨hplaced, hunits⟩ := hbegins.targets?_eq_ok_iff.1 htargets
    have hunit : unit ∈ c.files.map fun file => (file, some (c.targetOf fs.workingDirectory output file)) := by
      simp [← hunits]
    obtain ⟨file, hfile, rfl⟩ := List.mem_map.1 hunit
    have hoptions : w.instrumenter.options = options := hprogress.options
    obtain ⟨w', hstep⟩ : ∃ w', Work.step read w (file, some (c.targetOf fs.workingDirectory output file)) = .ok w' := by
      refine Work.exists_step (hplaced.hasNull_eq_false hfile) (fun code e hread hfails => ?_) (fun code p hread _ _ => ?_)
      · rw [hoptions] at hfails
        exact hreportable before file _ after w code e htargets hbefore hread hfails
      · exact hbegins.exists_store hdots hstorable hcovers hprogress hfile hread p.text
    refine ⟨w', ?_⟩
    rw [List.foldlM_append, bind_eq_ok_iff]
    exact ⟨w, hbefore, by simpa using hstep⟩

end InstrumentCommand

/-! ## What is left behind -/

/-- the reports about some files in order, and behind them their numbers -/
def reportText (hs : List Handled) : String :=
  String.join ((hs.flatMap diagnostics).map Diagnostic.text) ++
    (if (hs.filterMap error?).isEmpty then "Instrumentation Successful - " else "Instrumentation Aborted - ") ++
    Text.integerText (hs.filterMap error?).length ++ " errors, " ++
    Text.integerText (hs.filterMap Handled.warning).length ++ " warnings\n"

/-- what a command leaves behind, by what became of each of its files -/
structure InstrumentCommand.Accounts (c : InstrumentCommand) (read : TreeReader) (output : Path) (options : Options)
    (clock : Nat → Float) (prepared : FileSystem) (hs : List Handled) (result : RunResult) : Prop where
  /-- every file is handled once, in order -/
  files : hs.map Handled.file = c.files
  targets : InstrumentCommand.outputPaths? prepared.workingDirectory output c.files = some (hs.map Handled.target)
  /-- a file is handled as the outputs before it leave it -/
  fits : ∀ before h after, hs = before ++ h :: after → ∃ fs, prepared.storeAll (writes before) = .ok fs ∧
    h.Fits read options fs (sharer? prepared.workingDirectory before h.file) ∧
    ∀ code p, fs.readText h.file = .ok code → unitResult read options h.file code = .ok p →
      ((∃ d, h.error? = some d ∧ d.classification = "OutputClash") ↔
        ∃ g ∈ before, g.isWritten = true ∧
          Path.resolve prepared.workingDirectory g.file = Path.resolve prepared.workingDirectory h.file)
  errors : ∀ h ∈ hs, ∀ d, h.error? = some d → d.classification ∈ errorClasses ∧ d.Names h.file
  warnings : ∀ h ∈ hs, ∀ d, h.warning = some d → d.classification = "EmptyUnit" ∧ d.Names h.file
  /-- nothing is written but the outputs, each at a place of its own -/
  stored : prepared.storeAll (writes hs) = .ok result.files
  places : ((writes hs).map fun v => Path.resolve prepared.workingDirectory v.1).Nodup
  kept : ∀ v ∈ writes hs,
    result.files.entry? (Path.resolve prepared.workingDirectory v.1) = some (.file v.2.toUTF8.toList)
  stdout : result.stdout = ""
  stderr : result.stderr =
    ((Console.start clock).performAll (hs.flatMap Handled.steps)).stream c.logLevel ++ reportText hs
  exitCode : result.exitCode = if (hs.filterMap error?).isEmpty then 0 else 1

/-- **At the end the reports are written**, and the failure that follows errors is stopped. -/
theorem Diagnostics.close_reporting (hs : List Handled) : (empty.reporting hs).close (empty.reporting hs).finalize =
    (⟨(hs.filterMap error?).length, (hs.filterMap Handled.warning).length, [], reportText hs⟩, none) := by
  rw [finalize]
  cases herrors : hs.filterMap error? with
  | nil => simp [reporting, empty, close, flush, status, reportText, herrors, String.append_assoc]
  | cons d ds => simp [reporting, empty, close, flush, status, reportText, herrors, String.append_assoc]

namespace InstrumentCommand

variable {c : InstrumentCommand} {read : TreeReader} {fs prepared : FileSystem} {output : Path} {options : Options}
  {clock : Nat → Float} {hs : List Handled} {w : Work}

/-- what all files have become is what the command leaves behind -/
theorem Begins.accounts (hbegins : c.Begins fs output options prepared) (hdots : ".." ∉ fs.workingDirectory)
    (hunits : c.targets? prepared = .ok (hs.map fun h => (h.file, some h.target)))
    (hcovers : c.Covers fs.workingDirectory output hs)
    (hprogress : Work.Progress read (Work.start options clock prepared) hs w) :
    c.Accounts read output options clock prepared hs (w.finish c.logLevel) := by
  have hwd : prepared.workingDirectory = fs.workingDirectory := hbegins.workingDirectory
  have hdiagnostics : w.diagnostics = Diagnostics.empty.reporting hs := hprogress.diagnostics
  have hplaces := nodup_places hdots hcovers hprogress.distinct
  have hfits : ∀ before h after, hs = before ++ h :: after → ∃ files, prepared.storeAll (writes before) = .ok files ∧
      h.Fits read options files (sharer? fs.workingDirectory before h.file) := by
    intro before h after hsplit
    obtain ⟨files, hfiles, hfits⟩ := hprogress.fits before h after hsplit
    obtain ⟨hfile, htarget⟩ := hcovers h (by simp [hsplit])
    refine ⟨files, hfiles, ?_⟩
    have hbefore : c.Covers fs.workingDirectory output before := fun g hg => hcovers g (by simp [hsplit, hg])
    rw [← writer?_eq_sharer? hbefore hfile, ← htarget]
    exact hfits
  obtain ⟨hplaced, hunits⟩ := hbegins.targets?_eq_ok_iff.1 hunits
  have hfiles : hs.map Handled.file = c.files := by simpa [Function.comp_def] using congrArg (List.map Prod.fst) hunits
  have hfitsMem : ∀ h ∈ hs, ∃ files other?, h.Fits read options files other? := by
    intro h hh
    obtain ⟨before, after, hsplit⟩ := List.append_of_mem hh
    obtain ⟨files, -, hfits⟩ := hfits before h after hsplit
    exact ⟨files, _, hfits⟩
  refine ⟨hfiles, ?_, fun before h after hsplit => ?_, fun h hh d => ?_, fun h hh d => ?_, hprogress.files, ?_, ?_,
    hprogress.stdout, ?_, ?_⟩
  · rw [outputPaths?_eq hplaced.1, hwd, ← hfiles, List.map_map]
    exact congrArg some (List.map_congr_left fun h hh => (hcovers h hh).2.symm)
  · obtain ⟨files, hfiles, hfits⟩ := hfits before h after hsplit
    rw [hwd]
    refine ⟨files, hfiles, hfits, fun code p htext hproduct => ?_⟩
    rw [hfits.clash_iff htext hproduct, isSome_sharer?_iff]
  · obtain ⟨files, other?, hfits⟩ := hfitsMem h hh
    exact hfits.names_of_error?
  · obtain ⟨files, other?, hfits⟩ := hfitsMem h hh
    exact hfits.names_of_warning
  · rw [hwd]
    exact hplaces
  · exact FileSystem.entry?_storeAll (hwd ▸ hplaces) hprogress.files
  · rw [Work.finish, hdiagnostics, Diagnostics.close_reporting, hprogress.console]
    rfl
  · rw [Work.finish, hdiagnostics, Diagnostics.close_reporting]
    simp [List.length_eq_zero_iff]

/-- **A command accounts for every file.** If there are files and all of them have places, its outputs can be stored and its
units fail with errors that can be reported only, it comes to its end. (A working directory is a place, so no part of it is
double dots.) Every file is then written once or has exactly one error, which names it; a file that could be instrumented is
an output clash exactly if the output of an earlier file at its place was written; the reports are printed once, in the order
of the files, and behind them their numbers; and the exit code is one exactly if there is an error. -/
theorem accounts_for_files (hbegins : c.Begins fs output options prepared) (hdots : ".." ∉ fs.workingDirectory)
    (hplaced : c.Placed prepared) (hstorable : c.Storable output prepared)
    (hreportable : c.Reportable read options clock prepared) :
    ∃ hs result, c.run read clock fs = .ok result ∧ c.Accounts read output options clock prepared hs result := by
  obtain ⟨units, hunits⟩ : ∃ units, c.targets? prepared = .ok units := ⟨_, hbegins.targets?_eq_ok_iff.2 ⟨hplaced, rfl⟩⟩
  have hall : c.targets? prepared = .ok (units ++ []) := by rw [hunits, List.append_nil]
  obtain ⟨w, hw⟩ := hbegins.exists_end hdots hstorable hreportable hall
  obtain ⟨hs, hhs, hcovers, hprogress⟩ := hbegins.progress hall hw
  refine ⟨hs, w.finish c.logLevel, ?_, hbegins.accounts hdots (by rw [hhs, hunits]) hcovers hprogress⟩
  rw [hbegins.run_eq, hunits, ok_bind, hw]
  rfl

/-- **One file without a place stops all of them**, and so does a command without files: no unit is made, and nothing is
reported. -/
theorem Begins.run_of_not_placed (hbegins : c.Begins fs output options prepared) (h : ¬ c.Placed prepared) :
    ∃ e, (e = .noFiles ∨ ∃ fault, e = .path fault) ∧ c.run read clock fs = .error e := by
  cases htargets : c.targets? prepared with
  | ok units => exact absurd (hbegins.targets?_eq_ok_iff.1 htargets).1 h
  | error e =>
    refine ⟨e, ?_, by rw [hbegins.run_eq, htargets]; rfl⟩
    rw [targets?, hbegins.outputGiven] at htargets
    dsimp only at htargets
    cases hplaces : c.files.mapM prepared.resolve? with
    | error fault =>
      rw [hplaces] at htargets
      cases htargets
      exact Or.inr ⟨fault, rfl⟩
    | ok places =>
      rw [hplaces] at htargets
      left
      cases hpaths : outputPaths? prepared.workingDirectory output c.files with
      | none =>
        rw [hpaths] at htargets
        cases htargets
        rfl
      | some targets =>
        rw [hpaths] at htargets
        cases htargets

end InstrumentCommand

/-! ### One file by two ways, and a missing one -/

/-- the empty file, a missing one, and the empty file again on the way through the directory for outputs -/
def threeFiles : InstrumentCommand := .into outDirectory [aFile, bFile, outDirectory.append ["..", "a.js"]]

/-- what is printed about them -/
def threeFilesReport : String :=
  "EmptyUnit: nothing to count\n\tFile \"a.js\"\n" ++
  "IOError: [Errno 2] No such file or directory: 'b.js'\n\tFile \"b.js\"\n" ++
  "EmptyUnit: nothing to count\n\tFile \"out/../a.js\"\n" ++
  "OutputClash: out/../a.js would overwrite the output of a.js\n\tFile \"out/a.js\"\n" ++
  "Instrumentation Aborted - 2 errors, 2 warnings\n"

/-- where they go -/
def threeUnits : List (Path × Option Path) :=
  [(aFile, some (outDirectory.append ["a.js"])), (bFile, some (outDirectory.append ["b.js"])),
    (outDirectory.append ["..", "a.js"], some (outDirectory.append ["a.js"]))]

theorem threeFiles_targets : threeFiles.targets? preparedFile = .ok threeUnits := by decide +kernel

/-- what can be read of these files is always the empty text -/
theorem threeFiles_empty {before after : List (Path × Option Path)} {file : Path} {w : Work} {code : String}
    (hunits : threeUnits = before ++ after)
    (hbefore : before.foldlM (Work.step emptyReader) (usualStart preparedFile) = .ok w) (hfile : file ∈ threeFiles.files)
    (htext : w.files.readText file = .ok code) : code = "" := by
  have hall : ∀ before ∈ threeUnits.inits, ∀ file ∈ threeFiles.files,
      ((before.foldlM (Work.step emptyReader) (usualStart preparedFile)).toOption.bind
        fun w => (w.files.readText file).toOption).getD "" = "" := by decide +kernel
  have hempty := hall before ((List.mem_inits before _).2 ⟨after, hunits.symm⟩) file hfile
  rw [hbefore] at hempty
  simpa [Except.toOption, htext] using hempty

theorem threeFiles_reportable : threeFiles.Reportable emptyReader InstrumentCommand.usualOptions Float.ofNat preparedFile := by
  intro before file target after w code e htargets hbefore htext hfails
  have hunits : threeUnits = before ++ (file, target) :: after := Except.ok.inj (threeFiles_targets.symm.trans htargets)
  have hfile : file ∈ threeFiles.files := by
    have hall : ∀ u ∈ threeUnits, u.1 ∈ threeFiles.files := by decide
    exact hall (file, target) (by simp [hunits])
  obtain rfl := threeFiles_empty hunits hbefore hfile htext
  have hall : ∀ file ∈ threeFiles.files,
      (unitResult emptyReader InstrumentCommand.usualOptions file "").toOption.isSome = true := by decide +kernel
  have hsome := hall file hfile
  rw [hfails] at hsome
  cases hsome

theorem threeFiles_storable : threeFiles.Storable outDirectory preparedFile := by
  have hall : ∀ file ∈ threeFiles.files,
      (preparedFile.store (threeFiles.targetOf ["w"] outDirectory file) "").toOption.isSome = true := by decide +kernel
  intro file hfile
  obtain ⟨stored, hstored⟩ := Option.isSome_iff_exists.1 (hall file hfile)
  exact ⟨stored, ok_of_toOption hstored⟩

theorem threeFiles_accounted :
    threeFiles.Begins oneFile outDirectory InstrumentCommand.usualOptions preparedFile ∧
    threeFiles.Placed preparedFile ∧ threeFiles.Storable outDirectory preparedFile ∧
    threeFiles.Reportable emptyReader InstrumentCommand.usualOptions Float.ofNat preparedFile ∧
    ∃ hs result, threeFiles.run emptyReader Float.ofNat oneFile = .ok result ∧
      threeFiles.Accounts emptyReader outDirectory InstrumentCommand.usualOptions Float.ofNat preparedFile hs result ∧
      result.exitCode = 1 ∧ result.stderr = threeFilesReport := by
  have hbegins : threeFiles.Begins oneFile outDirectory InstrumentCommand.usualOptions preparedFile :=
    begins_into_outDirectory _
  have hplaced : threeFiles.Placed preparedFile := (hbegins.targets?_eq_ok_iff.1 threeFiles_targets).1
  obtain ⟨hs, result, hrun, haccounts⟩ := InstrumentCommand.accounts_for_files hbegins (by decide) hplaced
    threeFiles_storable threeFiles_reportable
  have hprinted : (threeFiles.run emptyReader Float.ofNat oneFile).toOption.map (fun r => (r.exitCode, r.stderr)) =
      some (1, threeFilesReport) := by decide +kernel
  rw [hrun] at hprinted
  obtain ⟨hexit, hstderr⟩ := Prod.mk.inj (Option.some.inj hprinted)
  exact ⟨hbegins, hplaced, threeFiles_storable, threeFiles_reportable, hs, result, hrun, haccounts, hexit, hstderr⟩

/-! ### Files without places -/

/-- a link that leads back to itself -/
def linkFile : Path := ⟨"", ["link.js"]⟩

/-- a path with a null character in it -/
def nullFile : Path := ⟨"", ["b\x00.js"]⟩

/-- the empty file and a link that leads back to itself -/
def linkedFile : FileSystem := oneFile.put ["w", "link.js"] .loop

/-- these files, and the directory for outputs -/
def preparedLink : FileSystem := linkedFile.put ["w", "out"] .directory

/-- **An empty file next to one without a place** is not accounted for, although its output could be stored. -/
theorem emptyFile_unaccounted :
    (InstrumentCommand.into outDirectory [aFile, linkFile]).Begins linkedFile outDirectory InstrumentCommand.usualOptions
      preparedLink ∧
    (InstrumentCommand.into outDirectory [aFile, nullFile]).Begins linkedFile outDirectory InstrumentCommand.usualOptions
      preparedLink ∧
    preparedLink.textAt? ["w", "a.js"] = some "" ∧
    (unitResult emptyReader InstrumentCommand.usualOptions aFile "").toOption.isSome = true ∧
    (∃ stored, preparedLink.store (outDirectory.append ["a.js"]) "" = .ok stored) ∧
    (InstrumentCommand.into outDirectory [aFile, linkFile]).run emptyReader Float.ofNat linkedFile = .error (.path .loop) ∧
    (InstrumentCommand.into outDirectory [aFile, nullFile]).run emptyReader Float.ofNat linkedFile =
      .error (.path .null) := by
  have hbegins : ∀ files, (InstrumentCommand.into outDirectory files).Begins linkedFile outDirectory
      InstrumentCommand.usualOptions preparedLink := fun files => InstrumentCommand.begins_into files (by decide) rfl
  have hlink : (InstrumentCommand.into outDirectory [aFile, linkFile]).targets? preparedLink = .error (.path .loop) := by
    decide +kernel
  have hnull : (InstrumentCommand.into outDirectory [aFile, nullFile]).targets? preparedLink = .error (.path .null) := by
    decide +kernel
  refine ⟨hbegins _, hbegins _, by decide +kernel, by decide +kernel, ⟨_, rfl⟩, ?_, ?_⟩
  · rw [(hbegins _).run_eq, hlink]
    rfl
  · rw [(hbegins _).run_eq, hnull]
    rfl

end Turnstile
