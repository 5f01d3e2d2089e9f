/-
A source text as it is parsed, with its byte offsets and positions.

A first line that starts with `#!` is turned into a line comment; lines are those of the text as given. Offsets count
bytes of the UTF-8 form. `position` finds the line in the table of line starts and counts the characters begun since.
-/
import Turnstile.Source.Location
import Turnstile.Text.Utf8

namespace Turnstile

/-- a leading interpreter line as a line comment -/
def commentOutShebang (s : String) : String :=
  match s.toList with
  | '#' :: '!' :: _ => "//" ++ s
  | _ => s

/-- where lines start: at zero and one past every newline byte -/
def lineStartsOf (bytes : List UInt8) : List Nat :=
  (bytes.foldl (fun (i, starts) b => (i + 1, if b = 10 then (i + 1) :: starts else starts)) (0, [0])).2.reverse

/-- a text, the form of it that is parsed, the bytes of that form and where its lines start -/
structure SourceText where
  given : String
  text : String
  data : ByteArray
  lineStarts : List Nat

/-- a line and column -/
structure Position where
  line : Nat
  column : Nat
  deriving DecidableEq, Repr, Inhabited

/-- the line being read, last character first, then the lines after it -/
def breakLinesFrom (line : List Char) : List Char → List (List Char)
  | [] => [line.reverse]
  | '\r' :: '\n' :: r => line.reverse :: breakLinesFrom [] r
  | '\r' :: r => line.reverse :: breakLinesFrom [] r
  | '\n' :: r => line.reverse :: breakLinesFrom [] r
  | c :: r => breakLinesFrom (c :: line) r

namespace SourceText

def ofString (s : String) : SourceText :=
  let text := commentOutShebang s
  ⟨s, text, text.toUTF8, lineStartsOf text.toUTF8.data.toList⟩

/-- an offset inside the data; a negative one counts from the end -/
def clamp (src : SourceText) (n : Int) : Nat :=
  if n < 0 then (n + src.data.size).toNat else min n.toNat src.data.size

/-- the bytes from one offset up to another -/
def bytes (src : SourceText) (start stop : Int) : ByteArray := src.data.extract (src.clamp start) (src.clamp stop)

/-- adds to `n` how many characters begin among the `count` bytes from offset `i` on -/
def charactersBegun (data : ByteArray) (i : Nat) (n : Nat) : Nat → Nat
  | 0 => n
  | count + 1 =>
    match data[i]? with
    | some b => charactersBegun data (i + 1) (if Text.Utf8.isTail b then n else n + 1) count
    | none => n

/-- the position of a byte offset; inside a character it is the one after it -/
def position (src : SourceText) (offset : Int) : Position :=
  let line := src.lineStarts.countP fun (start : Nat) => (start : Int) ≤ offset
  let start := if line = 0 then src.lineStarts.getLastD 0 else src.lineStarts.getD (line - 1) 0
  ⟨line, charactersBegun src.data start 0 (src.clamp offset - start)⟩

def location (src : SourceText) (start stop : Nat) : Location :=
  let a := src.position start
  let b := src.position stop
  ⟨a.line, a.column, b.line, b.column⟩

def span (src : SourceText) (start stop : Nat) : Span := ⟨start, stop, src.location start stop⟩

/-- the text between two offsets, unless one of them cuts a character -/
def slice? (src : SourceText) (start stop : Int) : Option String := String.fromUTF8? (src.bytes start stop)

/-- the lines of the text as given, without their line ends -/
def lines (src : SourceText) : List String := (breakLinesFrom [] src.given.toList).map String.ofList

end SourceText

end Turnstile
