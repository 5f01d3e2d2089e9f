/-
Instrumenting one unit after another.

An instrumenter has options, a console and the map and trace of the last unit that succeeded; a unit that fails leaves them
as they were. `instrument` runs the phases of one unit: parsing, the check for returns, numbering and generation.
-/
import Turnstile.Emit.Generate
import Turnstile.Phase
import Turnstile.Program.Parsed

namespace Turnstile

/-- what a unit yields -/
structure Product where
  text : String
  map : CoverageMap
  trace : Trace

structure Instrumenter where
  options : Options
  console : Console
  /-- the map and trace of the last unit that succeeded -/
  last : Option (CoverageMap × Trace)

/-- a unit whose code and file name are texts -/
structure SourceUnit where
  code : String
  file : Option String
  deriving DecidableEq, Repr

namespace SourceUnit

/-- a unit from values of any type -/
def ofJson? (code file : Json) : Except Misuse SourceUnit :=
  match code with
  | .string code =>
    match file with
    | .string file => .ok ⟨code, some file⟩
    | .null => .ok ⟨code, none⟩
    | file => .error (.fileNotText file.typeName)
  | code => .error (.codeNotText code.typeName)

/-- the key that the counts of a unit are recorded under -/
def key (u : SourceUnit) : String := u.file.getD (placeholderKey u.code)

end SourceUnit

namespace Options

def style (o : Options) : EmitStyle := ⟨o.traceVariable, o.embedSource, !o.noCompact⟩

end Options

/-- refuses a return outside every function, unless units are wrapped -/
def checkWrapping (noAutoWrap : Bool) (program : Node) (key : String) : Except Failure Unit :=
  if noAutoWrap then
    match program.mainlineReturn with
    | .ok none => .ok ()
    | .ok (some n) =>
      .error (.source ⟨.illegalReturn, .position n.span.location.startLine n.span.location.startColumn, some key⟩)
    | .error .missingOperand => .error (.defect .missingPart)
  else .ok ()

def IndexFault.failure : IndexFault → Failure
  | missingOperand => .defect .missingPart
  | sparseIds _ => .sparseIds

def GenerateFault.failure : GenerateFault → Failure
  | unnumbered _ => .unnumbered
  | cutCharacter => .cutCharacter

/-- the message of the log about a unit that does not parse -/
def failureNote? : Failure → Option String
  | .source e =>
    match e.cause with
    | .tooDeep => none
    | .early _ => some ("early error: " ++ e.text)
    | _ => some ("parse failure: " ++ e.text)
  | _ => none

/-! ## Phases of a unit -/

/-- the phase that parses a unit -/
def parsePhase (read : TreeReader) (src : SourceText) (key : String) : Phase Node :=
  match parseUnit read src (some key) with
  | .ok program =>
    ⟨program.unknownTypes.map fun t =>
      .log .warning .lowering ("treating unknown statement type " ++ t ++ " as an expression"), .ok program⟩
  | .error e => ⟨(failureNote? e).toList.map (.log .debug .parser), .error e⟩

/-- the phase that numbers a program -/
def indexPhase (walkDebug : Bool) (program : Node) : Phase CoverageIndex :=
  ⟨if walkDebug then (program.visits 0 .root).map fun v => .log .debug .index v.line else [],
    (CoverageIndex.ofProgram program).mapError IndexFault.failure⟩

/-- the phase that writes the text of a program -/
def generatePhase (style : EmitStyle) (src : SourceText) (program : Node) (index : CoverageIndex) (key : String) :
    Phase String :=
  match generate? style src program index key with
  | .ok g => ⟨[.log .debug .generator (Text.integerText g.insertions ++ " insertions for " ++ key)], .ok g.text⟩
  | .error e => .failed e.failure

/-- the phases of a unit up to its text, each inside its own scope -/
def textPhases (read : TreeReader) (o : Options) (src : SourceText) (key : String) : Phase (CoverageIndex × String) :=
  Phase.inScope o.debug key do
    let program ← (parsePhase read src key).inScope o.debug "parse"
    Phase.ofResult (checkWrapping o.noAutoWrap program key)
    let index ← (indexPhase o.walkDebug program).inScope o.debug "index"
    let text ← (generatePhase o.style src program index key).inScope o.debug "generate"
    return (index, text)

/-- the summary of a unit in the log -/
def summaryText (key : String) (m : CoverageMap) : String :=
  "instrumented " ++ key ++ ": " ++ Text.integerText m.statements.length ++ " statements, "
    ++ Text.integerText m.branches.length ++ " branches, " ++ Text.integerText m.functions.length ++ " functions"

/-- the summary of a unit, and both its texts as listings if they are to be shown -/
def summarySteps (debug : Bool) (src : SourceText) (key : String) (m : CoverageMap) (text : String) : List ConsoleStep :=
  .log .debug .instrumenter (summaryText key m) ::
    if debug then
      [.listing ("original " ++ key) src.lines,
        .listing ("instrumented " ++ key) ((Text.splitLines text.toList).map String.ofList)]
    else []

/-- all that is done for a unit -/
def SourceUnit.phases (u : SourceUnit) (read : TreeReader) (o : Options) : Phase Product := do
  let src := SourceText.ofString u.code
  let (index, text) ← textPhases read o src u.key
  Phase.ofSteps (summarySteps o.debug src u.key index.map text)
  return ⟨text, index.map, Trace.initial index.map (o.style.code src)⟩

namespace Instrumenter

def new (options : Options) (console : Console) : Instrumenter := ⟨options, console, none⟩

/-- keeps the map and trace of a unit that succeeded -/
def keep (s : Instrumenter) : Except Failure Product → Instrumenter
  | .ok p => { s with last := some (p.map, p.trace) }
  | .error _ => s

/-- instruments a unit, with the console on a stream that takes some lines -/
def instrumentOn (takes : String → Bool) (s : Instrumenter) (read : TreeReader) (u : SourceUnit) :
    Instrumenter × Except Failure Product :=
  let p := u.phases read s.options
  let (console, course) := p.steps.foldl (Course.step takes none) (s.console, .planned)
  let result := course.result p.result
  ({ s with console }.keep result, result)

/-- instruments a unit, with the console on a stream that takes every line -/
def instrument (s : Instrumenter) (read : TreeReader) (u : SourceUnit) : Instrumenter × Except Failure Product :=
  s.instrumentOn Console.takesAll read u

/-- instruments values that may be no unit -/
def instrumentJson (s : Instrumenter) (read : TreeReader) (code file : Json) : Instrumenter × Except Failure Product :=
  match SourceUnit.ofJson? code file with
  | .error m => (s, .error (.misuse m))
  | .ok u => s.instrument read u

end Instrumenter

end Turnstile
