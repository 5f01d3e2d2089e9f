/-
Laying out generated statements.

In the compact layout statements stand on one line with a blank between two. Otherwise each has a line of its own, indented
by four blanks for every open block.
-/

namespace Turnstile

structure Output where
  compact : Bool
  /-- the blocks that are open; more may be closed than were opened -/
  indent : Int
  started : Bool
  text : String
  deriving DecidableEq, Repr

namespace Output

def empty (compact : Bool) : Output := ⟨compact, 0, false, ""⟩

def newline (o : Output) : Output := { o with text := o.text ++ "\n" }

def statement (o : Output) (s : String) : Output :=
  if o.compact then { o with text := o.text ++ (if o.started then " " ++ s else s), started := true }
  else
    let blanks := String.ofList (List.replicate (4 * o.indent).toNat ' ')
    { o with text := o.text ++ blanks ++ s ++ "\n", started := true }

/-- a statement that opens a block -/
def startBlock (o : Output) (s : String) : Output :=
  let o := o.statement (s ++ " \x7b")
  { o with indent := o.indent + 1 }

def endBlock (o : Output) : Output := { o with indent := o.indent - 1 }.statement "\x7d"

end Output

end Turnstile
