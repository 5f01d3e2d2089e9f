/-
Running a command.

A run reads and writes a file system and gives an exit code and what it prints. Each file is instrumented on its own: one that
fails is reported and skipped, and the exit code is one if any did. Below an output directory the files keep the layout that
they have below the deepest directory that holds them all; so all files must have places before the first of them is read.
-/
import Turnstile.CommandLine.Arguments
import Turnstile.CommandLine.FileSystem
import Turnstile.Instrumenter
import Turnstile.Report.Diagnostics

namespace Turnstile

/-- what is left behind by a run -/
structure RunResult where
  exitCode : Nat
  stdout : String
  stderr : String
  files : FileSystem

/-- what stops a run in its middle -/
inductive Crash where
  | file (e : FileFault)
  | path (e : PathFault)
  /-- outputs of no files at all are asked for -/
  | noFiles
  | failure (e : Failure)
  deriving DecidableEq, Repr

/-- the report about a failure, unless it is a defect of the tree -/
def Failure.diagnostic? (e : Failure) (file : String) : Option Diagnostic :=
  match e with
  | .misuse m => some (.ofError ErrorClass.input.name m.message m.message none (some file))
  | .source e => some (.ofError e.errorClass.name e.cause.message e.text e.place.line? (some file))
  | _ => none

/-- the origin of a report about a whole file -/
def fileOrigin (p : Path) : List String := Diagnostic.origin none (some p.text)

/-- the line that says why a run does not even begin -/
def errorLine (message : String) : String := "Error: " ++ message ++ "\n"

/-! ## instrumenting -/

namespace InstrumentCommand

def mapping (c : InstrumentCommand) : Options.Mapping :=
  .ofList [("traceVariable", (c.traceVariable.map Json.string).getD .null), ("embedSource", .bool c.embedSource),
    ("noAutoWrap", .bool c.noAutoWrap), ("noCompact", .bool c.noCompact), ("debug", .bool c.debug)]

def logLevel (c : InstrumentCommand) : LogLevel :=
  if c.debug then .debug else if c.verbose then .info else .warning

/-- where the outputs of some files go below a directory, by their places: each keeps its way from the directory that holds them
all. No files have no such directory, and a file outside of it would have no way. -/
def outputPaths? (workingDirectory : List String) (output : Path) (files : List Path) : Option (List Path) :=
  let places := files.map (Path.resolve workingDirectory)
  if places.isEmpty then none
  else places.mapM fun place => (Path.relativeTo? (Path.commonDirectory places) place).map output.append

/-- the files with the paths their outputs go to, if each file has a place -/
def targets? (c : InstrumentCommand) (files : FileSystem) : Except Crash (List (Path × Option Path)) :=
  match c.output with
  | none => .ok (c.files.map fun f => (f, none))
  | some output => do
    let _ ← (c.files.mapM files.resolve?).mapError .path
    match outputPaths? files.workingDirectory output c.files with
    | some targets => return c.files.zip (targets.map some)
    | none => .error .noFiles

end InstrumentCommand

/-- a run over several files, between two of them -/
structure Work where
  instrumenter : Instrumenter
  diagnostics : Diagnostics
  /-- the outputs written so far, with the files they are of -/
  written : OrderedMap Path Path
  files : FileSystem
  stdout : String

namespace Work

def error (w : Work) (d : Diagnostic) : Work := { w with diagnostics := w.diagnostics.error d }

/-- a unit in which nothing can be counted is warned about -/
def warnIfEmpty (w : Work) (file : Path) (map : CoverageMap) : Work :=
  if map.statements.isEmpty then
    { w with diagnostics := w.diagnostics.warn ⟨"EmptyUnit", "nothing to count", fileOrigin file⟩ }
  else w

/-- writes an output to its place -/
def store (w : Work) (file target : Path) (text : String) : Except FileFault Work := do
  let files ← w.files.makeDirectories target.parent
  let files ← files.writeText target text
  let console := w.instrumenter.console.log .info .commandLine (file.text ++ " -> " ++ target.text)
  return { w with files := files, written := w.written.put target file, instrumenter := { w.instrumenter with console } }

/-- gives an output to its place, or prints it where there is none; two outputs never share a place -/
def deliver (w : Work) (file : Path) (target : Option Path) (text : String) : Except FileFault Work :=
  match target with
  | none => .ok { w with stdout := w.stdout ++ text }
  | some target =>
    match w.written.get? target with
    | some other => .ok (w.error ⟨"OutputClash", file.text ++ " would overwrite the output of " ++ other.text,
        fileOrigin target⟩)
    | none => w.store file target text

/-- one file -/
def step (read : TreeReader) (w : Work) (unit : Path × Option Path) : Except Crash Work :=
  if unit.1.hasNull then .error (.path .null)
  else
    match w.files.readText unit.1 with
    | .error e => .ok (w.error ⟨"IOError", e.message unit.1, fileOrigin unit.1⟩)
    | .ok code =>
      let (instrumenter, result) := w.instrumenter.instrument read ⟨code, some unit.1.text⟩
      let w := { w with instrumenter }
      match result with
      | .ok p => ((w.warnIfEmpty unit.1 p.map).deliver unit.1 unit.2 p.text).mapError .file
      | .error e =>
        match e.diagnostic? unit.1.text with
        | some d => .ok (w.error d)
        | none => .error (.failure e)

/-- the end of a run, with the reports behind all that was printed before -/
def finish (w : Work) (level : LogLevel) : RunResult :=
  let reports := (w.diagnostics.close w.diagnostics.finalize).1
  ⟨if reports.errors = 0 then 0 else 1, w.stdout, w.instrumenter.console.stream level ++ reports.written, w.files⟩

end Work

/-- makes the output directory, if one is given -/
def InstrumentCommand.prepare (c : InstrumentCommand) (files : FileSystem) : Except Crash FileSystem :=
  match c.output with
  | some output => if output.hasNull then .error (.path .null) else (files.makeDirectories output).mapError .file
  | none => .ok files

def InstrumentCommand.run (c : InstrumentCommand) (read : TreeReader) (clock : Nat → Float) (files : FileSystem) :
    Except Crash RunResult :=
  if c.output.isNone && 1 < c.files.length then
    .ok ⟨1, "", errorLine "--output is required when instrumenting several files", files⟩
  else
    match Options.ofMapping? c.mapping with
    | .error m => .ok ⟨1, "", errorLine m.message, files⟩
    | .ok options => do
      let prepared ← c.prepare files
      let targets ← c.targets? prepared
      let work : Work := ⟨.new options (.start clock), .empty, .empty, prepared, ""⟩
      return (← targets.foldlM (Work.step read) work).finish c.logLevel

/-! ## printing a map -/

/-- the map of a file with its path in front -/
def mapReport (file : Path) (map : CoverageMap) : Json :=
  match map.toJson with
  | .object fields => .object (("path", .string file.text) :: fields)
  | v => v

def MapCommand.run (c : MapCommand) (read : TreeReader) (files : FileSystem) : Except Crash RunResult :=
  if c.file.hasNull then .error (.path .null)
  else
    match files.readText c.file with
    | .error e => .ok ⟨1, "", errorLine (e.message c.file), files⟩
    | .ok code =>
      match parseUnit read (.ofString code) (some c.file.text) with
      | .error (.source e) => .ok ⟨1, "", errorLine e.text, files⟩
      | .error e => .error (.failure e)
      | .ok program =>
        match CoverageIndex.ofProgram program with
        | .error e => .error (.failure e.failure)
        | .ok index =>
          .ok ⟨0, (mapReport c.file index.map).render (.indented c.indent.toNat) ++ "\n", "", files⟩

/-! ## any command line -/

def versionText : String := "jstrace 0.1.0\n"

/-- runs the command that a command line gives -/
def runCommandLine (read : TreeReader) (clock : Nat → Float) (files : FileSystem) (args : List String) :
    Except Crash RunResult :=
  match Command.ofArguments args with
  | .error (.help topic) => .ok ⟨0, topic.text, "", files⟩
  | .error .version => .ok ⟨0, versionText, "", files⟩
  | .error .refused => .ok ⟨2, "", "", files⟩
  | .ok (.instrument c) => c.run read clock files
  | .ok (.map c) => c.run read files

end Turnstile
