/-
Why a unit is not instrumented.

A failure is wrong use, an error in the source, a return that the wrapping forbids, a defect of the concrete tree, or a step
on the console that cannot be done. An error in the source has a cause, the place it was found at and the file.
-/
import Turnstile.Options
import Turnstile.Program.EarlyError
import Turnstile.Report.Console

namespace Turnstile

/-- where in a file an error is -/
inductive Place where
  | unknown
  /-- at some position that is not known -/
  | somewhere
  | position (line column : Int)
  deriving DecidableEq, Repr

/-- what is wrong with a source -/
inductive ParseCause where
  /-- a token is missing -/
  | missing (token : String)
  | endOfInput
  /-- a text that fits nowhere -/
  | unexpected (snippet : String)
  /-- no program, it is not known why -/
  | unreadable
  | tooDeep
  | early (cause : EarlyErrorCause)
  | illegalReturn
  deriving DecidableEq, Repr

def ParseCause.message : ParseCause → String
  | missing token => "Missing " ++ token
  | endOfInput => "Unexpected end of input"
  | unexpected snippet => "Unexpected token " ++ Text.quoted snippet
  | unreadable => "Syntax error"
  | tooDeep => "Nesting too deep"
  | early cause => cause.message
  | illegalReturn => "Illegal return statement"

structure ParseError where
  cause : ParseCause
  place : Place
  file : Option String
  deriving DecidableEq, Repr

/-- `L`, or `L:C` where a column is known -/
def lineText (line : Int) (column : Option Int) : String :=
  match column with
  | some c => Text.integerText line ++ ":" ++ Text.integerText c
  | none => Text.integerText line

/-- a message with its file and line behind it, those that are known -/
def locatedText (message : String) (file line : Option String) : String :=
  let where_ := (file.filter (· ≠ "")).toList ++ (line.map ("line " ++ ·)).toList
  if where_.isEmpty then message else message ++ " (" ++ ", ".intercalate where_ ++ ")"

/-- the line of a place as text -/
def Place.line? : Place → Option String
  | unknown => none
  | somewhere => some "?"
  | position line column => some (lineText line (some column))

/-- the message of an error with its place -/
def ParseError.text (e : ParseError) : String := locatedText e.cause.message e.file e.place.line?

/-- what is wrong with a concrete tree that no grammar yields -/
inductive TreeDefect where
  | missingPart
  | emptyElse
  deriving DecidableEq, Repr

/-- the classes of errors that a unit is reported under -/
inductive ErrorClass where
  | parse
  | illegalReturn
  | input
  deriving DecidableEq, Repr

def ErrorClass.name : ErrorClass → String
  | parse => "ParseError"
  | illegalReturn => "IllegalReturnError"
  | input => "InputError"

inductive Failure where
  | misuse (m : Misuse)
  | source (e : ParseError)
  | defect (d : TreeDefect)
  /-- a span or an insertion cuts a character -/
  | cutCharacter
  /-- a text that is not blank has no line -/
  | lineless
  /-- a counted node has no id -/
  | unnumbered
  | sparseIds
  | console (fault : ConsoleFault)
  deriving DecidableEq, Repr

/-- the class that an error in a source is reported under -/
def ParseError.errorClass (e : ParseError) : ErrorClass :=
  match e.cause with
  | .illegalReturn => .illegalReturn
  | _ => .parse

end Turnstile
