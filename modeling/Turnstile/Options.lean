/-
Options of an instrumenter.

Options are given as a mapping in which every option has two spellings, the trace variable three. Entries apply from left
to right; one whose value is null counts for nothing. The trace variable has to be an identifier. Keywords are merged over
options that were read before.
-/
import Turnstile.Json.Value
import Turnstile.OrderedMap

namespace Turnstile

structure Options where
  /-- the global variable that holds the counts of all files -/
  traceVariable : String
  /-- put the source lines into the counts -/
  embedSource : Bool
  /-- refuse a return outside every function -/
  noAutoWrap : Bool
  /-- write the preamble one statement a line -/
  noCompact : Bool
  /-- print the phases and both texts -/
  debug : Bool
  /-- log every node that is numbered -/
  walkDebug : Bool
  deriving DecidableEq, Repr

/-- wrong use of an instrumenter -/
inductive Misuse where
  | codeNotText (typeName : String)
  | fileNotText (typeName : String)
  | unknownOption (key : String)
  | traceVariable (shown : String)
  deriving DecidableEq, Repr

def Misuse.message : Misuse → String
  | codeNotText typeName => "Code must be a string, got " ++ typeName
  | fileNotText typeName => "File name must be a string, got " ++ typeName
  | unknownOption key => "Unknown instrumenter option " ++ Text.quoted key
  | traceVariable shown => "Trace variable must be an identifier, got " ++ shown

/-- the options by name -/
inductive OptionName where
  | traceVariable
  | embedSource
  | noAutoWrap
  | noCompact
  | debug
  | walkDebug
  deriving DecidableEq, Repr

def OptionName.ofKey? : String → Option OptionName
  | "traceVariable" | "coverageVariable" | "trace_variable" => some .traceVariable
  | "embedSource" | "embed_source" => some .embedSource
  | "noAutoWrap" | "no_auto_wrap" => some .noAutoWrap
  | "noCompact" | "no_compact" => some .noCompact
  | "debug" => some .debug
  | "walkDebug" | "walk_debug" => some .walkDebug
  | _ => none

def isIdentifierStart (c : Char) : Bool := c.isAlpha || c = '_' || c = '$'

def isIdentifierRest (c : Char) : Bool := isIdentifierStart c || c.isDigit

/-- letters, digits, `_` and `$`, with no digit in front; a newline may follow -/
def isIdentifier (s : String) : Bool :=
  match s.toList with
  | [] => false
  | c :: cs =>
    isIdentifierStart c
      && (cs.all isIdentifierRest || (cs.getLast? = some '\n' && cs.dropLast.all isIdentifierRest))

namespace Options

abbrev Mapping := OrderedMap String Json

/-- options before the trace variable is checked -/
structure Draft where
  traceVariable : Json
  embedSource : Bool
  noAutoWrap : Bool
  noCompact : Bool
  debug : Bool
  walkDebug : Bool

def Draft.default : Draft := ⟨.string "__trace__", false, false, false, false, false⟩

def Draft.set (d : Draft) (name : OptionName) (value : Json) : Draft :=
  match name with
  | .traceVariable => { d with traceVariable := value }
  | .embedSource => { d with embedSource := value.isSet }
  | .noAutoWrap => { d with noAutoWrap := value.isSet }
  | .noCompact => { d with noCompact := value.isSet }
  | .debug => { d with debug := value.isSet }
  | .walkDebug => { d with walkDebug := value.isSet }

/-- one entry of a mapping -/
def Draft.apply (d : Draft) (e : String × Json) : Except Misuse Draft :=
  match OptionName.ofKey? e.1 with
  | none => .error (.unknownOption e.1)
  | some name =>
    match e.2 with
    | .null => .ok d
    | value => .ok (d.set name value)

/-- options whose trace variable is an identifier -/
def Draft.check (d : Draft) : Except Misuse Options :=
  match d.traceVariable with
  | .string s =>
    if isIdentifier s then .ok ⟨s, d.embedSource, d.noAutoWrap, d.noCompact, d.debug, d.walkDebug⟩
    else .error (.traceVariable (Text.quoted s))
  | v => .error (.traceVariable v.shown)

def ofMapping? (m : Mapping) : Except Misuse Options := do
  (← m.entries.foldlM Draft.apply Draft.default).check

/-- options as a mapping, in their order -/
def toMapping (o : Options) : Mapping :=
  .ofList [("trace_variable", .string o.traceVariable), ("embed_source", .bool o.embedSource),
    ("no_auto_wrap", .bool o.noAutoWrap), ("no_compact", .bool o.noCompact), ("debug", .bool o.debug),
    ("walk_debug", .bool o.walkDebug)]

/-- options with keywords put over them; a keyword spelt as in `toMapping` replaces the entry, null included -/
def withKeywords? (o : Options) (keywords : Mapping) : Except Misuse Options :=
  if keywords.entries.isEmpty then .ok o
  else ofMapping? (keywords.entries.foldl (fun m e => m.put e.1 e.2) o.toMapping)

/-- what an instrumenter is given options as -/
inductive Given where
  | nothing
  | mapping (m : Mapping)
  /-- options that were built before -/
  | built (o : Options)

/-- the options that are given; built ones are taken as they are -/
def Given.read? : Given → Except Misuse Options
  | nothing => ofMapping? .empty
  | mapping m => ofMapping? m
  | built o => .ok o

/-- the options of an instrumenter: those it is given, and keywords over them -/
def construct? (given : Given) (keywords : Mapping) : Except Misuse Options := do
  let o ← given.read?
  o.withKeywords? keywords

/-- the options of an instrumenter that is given a mapping or nothing -/
def read? (m : Option Mapping) (keywords : Mapping) : Except Misuse Options :=
  construct? (m.elim .nothing .mapping) keywords

end Options

end Turnstile
