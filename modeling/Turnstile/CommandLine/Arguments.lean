/-
Command lines.

Each command knows some switches by name. An unambiguous beginning of a long name stands for it; a value follows its switch,
behind an equals sign or as the next argument, and directly behind a short name. Short names may be run together. Behind a
lone `--` every argument is a value of the command. The values of a command stand together: those behind a later switch are
left over, and then the command line is refused.
-/
import Turnstile.CommandLine.Help
import Turnstile.CommandLine.Path
import Turnstile.Text.Integer

namespace Turnstile

/-- the switches of all commands -/
inductive Switch where
  | help
  | version
  | output
  | traceVariable
  | embedSource
  | noAutoWrap
  | noCompact
  | debug
  | verbose
  | indent
  deriving DecidableEq, Repr

namespace Switch

/-- a value belongs to it -/
def valued : Switch → Bool
  | output | traceVariable | indent => true
  | _ => false

end Switch

/-- the switches that a command knows, by their names, and the help about them -/
structure Vocabulary where
  topic : HelpTopic
  names : List (String × Switch)

/-- how one argument is to be read -/
inductive ArgumentKind where
  | value
  /-- a lone `--` -/
  | separator
  | switch (s : Switch) (short : Bool) (attached : Option (List Char))
  /-- like a switch, but of no known name -/
  | unknown
  deriving DecidableEq, Repr

/-- why a command line gives no command -/
inductive NoCommand where
  /-- help was asked for -/
  | help (topic : HelpTopic)
  | version
  | refused
  deriving DecidableEq, Repr

/-- what a command line tells a command -/
structure ArgumentList where
  /-- the switches with their values, in order -/
  settings : List (Switch × Option String)
  /-- the values of the command, once they were met -/
  values : Option (List String)
  /-- some argument is left over -/
  spare : Bool

namespace Vocabulary

def switch? (v : Vocabulary) (name : String) : Option Switch := (v.names.find? fun e => e.1 = name).map (·.2)

/-- a dash and a number, with a fraction or not -/
def isNegativeNumber (cs : List Char) : Bool :=
  let isDigit := fun c => (Text.digitValue? c).isSome
  match cs with
  | '-' :: r =>
    match r.dropWhile isDigit with
    | [] => !r.isEmpty
    | '.' :: f => !f.isEmpty && f.all isDigit
    | _ => false
  | _ => false

/-- the readings of an argument as a switch by part of its text -/
def partly (v : Vocabulary) (arg : List Char) : List ArgumentKind :=
  match arg with
  | '-' :: '-' :: _ =>
    let name := arg.takeWhile (· ≠ '=')
    let attached := if arg.contains '=' then some ((arg.dropWhile (· ≠ '=')).drop 1) else none
    (v.names.filter fun e => name <+: e.1.toList).map fun e => .switch e.2 false attached
  | '-' :: c :: r =>
    (v.names.filter fun e => e.1.toList = ['-', c]).map fun e => .switch e.2 true (some r)
  | _ => []

/-- the reading of one argument; an ambiguous beginning has none -/
def kindOf? (v : Vocabulary) (arg : String) : Option ArgumentKind :=
  let cs := arg.toList
  let isShort := cs.length = 2
  match cs with
  | '-' :: _ :: _ =>
    match v.switch? arg with
    | some s => some (.switch s isShort none)
    | none =>
      let name := cs.takeWhile (· ≠ '=')
      match if cs.contains '=' then v.switch? (String.ofList name) else none with
      | some s => some (.switch s (name.length = 2) (some ((cs.dropWhile (· ≠ '=')).drop 1)))
      | none =>
        match v.partly cs with
        | [kind] => some kind
        | [] => some (if isNegativeNumber cs || cs.contains ' ' then .value else .unknown)
        | _ => none
  | _ => some .value

/-- the readings of all arguments -/
def kinds? (v : Vocabulary) : List String → Option (List (String × ArgumentKind))
  | [] => some []
  | "--" :: args => some (("--", .separator) :: args.map fun a => (a, .value))
  | a :: args => do
    let kind ← v.kindOf? a
    return (a, kind) :: (← v.kinds? args)

/-- the switches in one argument, the last one with what is attached to it -/
def unpack? (v : Vocabulary) (s : Switch) (short : Bool) (attached : List Char) :
    Option (List Switch × Switch × Option String) :=
  if s.valued then some ([], s, some (String.ofList attached))
  else
    match attached with
    | [] => none
    | c :: r =>
      if short then
        match v.switch? (String.ofList ['-', c]) with
        | none => none
        | some next =>
          if r.isEmpty then some ([s], next, none)
          else (v.unpack? next true r).map fun (ss, last, value) => (s :: ss, last, value)
      else none

end Vocabulary

/-- the width that the value of a switch stands for -/
def indent? (value : String) : Option Int := (Text.integer? value.toList).toOption

namespace ArgumentList

/-- one more switch; help and the version are shown at once -/
def set (topic : HelpTopic) (l : ArgumentList) (s : Switch) (value : Option String) : Except NoCommand ArgumentList :=
  match s with
  | .help => .error (.help topic)
  | .version => .error .version
  | .indent =>
    if (value.bind indent?).isSome then .ok { l with settings := l.settings ++ [(s, value)] } else .error .refused
  | _ => .ok { l with settings := l.settings ++ [(s, value)] }

/-- the values among arguments that stand together; the first separator is none -/
def valuesOf (args : List (String × ArgumentKind)) : List String :=
  (args.eraseP fun a => a.2 = .separator).map (·.1)

/-- values that stand together; a command with a single value leaves further ones over -/
def take (l : ArgumentList) (many : Bool) (args : List (String × ArgumentKind)) : ArgumentList :=
  match l.values, valuesOf args with
  | none, v :: vs => if many then { l with values := some (v :: vs) }
    else { l with values := some [v], spare := l.spare || !vs.isEmpty }
  | _, _ => { l with spare := true }

/-- all arguments, from left to right -/
def read (v : Vocabulary) (many : Bool) (l : ArgumentList) (args : List (String × ArgumentKind)) :
    Except NoCommand ArgumentList :=
  match args with
  | [] => .ok l
  | (_, .unknown) :: rest => { l with spare := true }.read v many rest
  | (_, .switch s short attached) :: rest =>
    match attached with
    | some cs =>
      match v.unpack? s short cs with
      | none => .error .refused
      | some (ss, last, value) => do
        let l ← ss.foldlM (fun l s => l.set v.topic s none) l
        if value.isNone && last.valued then
          match rest with
          | (a, .value) :: rest => (← l.set v.topic last (some a)).read v many rest
          | _ => .error .refused
        else (← l.set v.topic last value).read v many rest
    | none =>
      if s.valued then
        match rest with
        | (a, .value) :: rest => do (← l.set v.topic s (some a)).read v many rest
        | _ => .error .refused
      else do (← l.set v.topic s none).read v many rest
  | a :: rest =>
    let plain := fun (b : String × ArgumentKind) => b.2 = .value || b.2 = .separator
    (l.take many (a :: rest.takeWhile plain)).read v many (rest.dropWhile plain)
termination_by args.length
decreasing_by
  all_goals simp only [List.length_cons] at *
  all_goals grind [List.dropWhile_suffix, List.IsSuffix.length_le]

end ArgumentList

/-! ## commands -/

structure InstrumentCommand where
  files : List Path
  output : Option Path
  traceVariable : Option String
  embedSource : Bool
  noAutoWrap : Bool
  noCompact : Bool
  debug : Bool
  verbose : Bool
  deriving DecidableEq, Repr

structure MapCommand where
  file : Path
  indent : Int
  deriving DecidableEq, Repr

inductive Command where
  | instrument (c : InstrumentCommand)
  | map (c : MapCommand)
  deriving DecidableEq, Repr

namespace Command

def mainVocabulary : Vocabulary := ⟨.program, [("-h", .help), ("--help", .help), ("--version", .version)]⟩

def instrumentVocabulary : Vocabulary := ⟨.instrument, [
  ("-h", .help), ("--help", .help), ("-o", .output), ("--output", .output), ("--trace-variable", .traceVariable),
  ("--embed-source", .embedSource), ("--no-auto-wrap", .noAutoWrap), ("--no-compact", .noCompact), ("-d", .debug),
  ("--debug", .debug), ("-v", .verbose), ("--verbose", .verbose)
]⟩

def mapVocabulary : Vocabulary := ⟨.map, [("-h", .help), ("--help", .help), ("--indent", .indent)]⟩

/-- the last value of a switch -/
def lastValue? (l : ArgumentList) (s : Switch) : Option String :=
  (l.settings.findRev? fun e => e.1 = s).bind (·.2)

def isSet (l : ArgumentList) (s : Switch) : Bool := l.settings.any fun e => e.1 = s

/-- the arguments of a command, with at least one value and nothing left over -/
def argumentsOf (v : Vocabulary) (many : Bool) (args : List String) : Except NoCommand (ArgumentList × List String) :=
  match v.kinds? args with
  | none => .error .refused
  | some kinds => do
    let l ← ArgumentList.read v many ⟨[], none, false⟩ kinds
    match l.values with
    | some values => if l.spare then .error .refused else .ok (l, values)
    | none => .error .refused

def instrumentOf (args : List String) : Except NoCommand InstrumentCommand := do
  let (l, values) ← argumentsOf instrumentVocabulary true args
  return {
    files := values.map Path.ofString
    output := (lastValue? l .output).map Path.ofString
    traceVariable := lastValue? l .traceVariable
    embedSource := isSet l .embedSource
    noAutoWrap := isSet l .noAutoWrap
    noCompact := isSet l .noCompact
    debug := isSet l .debug
    verbose := isSet l .verbose }

def mapOf (args : List String) : Except NoCommand MapCommand := do
  let (l, values) ← argumentsOf mapVocabulary false args
  return ⟨Path.ofString (values.headD ""), ((lastValue? l .indent).bind indent?).getD 2⟩

/-- the command that a name in front of its arguments gives -/
def named (name : String) (args : List String) : Except NoCommand Command :=
  match name with
  | "instrument" => instrument <$> instrumentOf args
  | "map" => map <$> mapOf args
  | _ => .error .refused

/-- the command behind the switches that stand in front of it -/
def behind (spare : Bool) : List (String × ArgumentKind) → Except NoCommand Command
  | [] => .error .refused
  | (_, .unknown) :: rest => behind true rest
  | (_, .switch s short attached) :: rest =>
    match attached with
    | none =>
      match s with
      | .help => .error (.help .program)
      | .version => .error .version
      | _ => behind spare rest
    | some cs =>
      match mainVocabulary.unpack? s short cs with
      | some (s :: _, _, _) => .error (if s = .help then .help .program else .version)
      | _ => .error .refused
  | (name, _) :: rest => do
    let c ← named name (rest.map (·.1))
    if spare then .error .refused else .ok c

/-- the command that a command line gives -/
def ofArguments (args : List String) : Except NoCommand Command :=
  match mainVocabulary.kinds? args with
  | none => .error .refused
  | some kinds => behind false kinds

end Command

end Turnstile
