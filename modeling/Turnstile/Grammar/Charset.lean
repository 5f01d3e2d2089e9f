/-
The classes of characters that JavaScript source is made of.

Gaps separate tokens and are never part of a name; whatever is neither a gap, a control character nor punctuation may start
a name.
-/

namespace Turnstile.Grammar

/-- white space between tokens: that of Unicode, and the joiners of no width -/
def isGap (c : Char) : Bool :=
  let n := c.toNat
  (9 ≤ n && n ≤ 13) || n = 32 || n = 0x85 || n = 0xA0 || n = 0x1680 || (0x2000 ≤ n && n ≤ 0x200B) || n = 0x2028
    || n = 0x2029 || n = 0x202F || n = 0x205F || n = 0x2060 || n = 0x3000 || n = 0xFEFF

/-- white space that a line may break at: no space that forbids it -/
def isSpace (c : Char) : Bool :=
  let n := c.toNat
  (9 ≤ n && n ≤ 13) || n = 32 || n = 0x1680 || (0x2000 ≤ n && n ≤ 0x2006) || (0x2008 ≤ n && n ≤ 0x200A) || n = 0x2028
    || n = 0x2029 || n = 0x205F || n = 0x3000

/-- characters that end a line where a semicolon may be left out -/
def isNewline (c : Char) : Bool := c = '\n' || c.toNat = 0x2028 || c.toNat = 0x2029

/-- characters that end a line comment -/
def endsLineComment (c : Char) : Bool := isNewline c || c = '\r'

def isPunctuation (c : Char) : Bool := ":;`\"'@#.,|^&<=>+-*/\\%?!~()[]\x7b\x7d".contains c

def isHexDigit (c : Char) : Bool := c.isDigit || ('a' ≤ c && c ≤ 'f') || ('A' ≤ c && c ≤ 'F')

def isOctalDigit (c : Char) : Bool := '0' ≤ c && c ≤ '7'

/-- characters of a name other than the escapes in it -/
def isNamePart (c : Char) : Bool := 0x20 < c.toNat && !isGap c && !isPunctuation c

def isNameStart (c : Char) : Bool := isNamePart c && !c.isDigit

end Turnstile.Grammar
