/-
Words with a meaning of their own.

Reserved words are never names. Contextual words are keywords in some places and names in all others; those that begin a
statement or an expression cannot begin it as names.
-/

namespace Turnstile.Grammar

def reservedWords : List String := [
  "break", "case", "catch", "class", "const", "continue", "debugger", "default", "delete", "do", "else", "export",
  "extends", "false", "finally", "for", "function", "if", "import", "in", "instanceof", "new", "null", "return", "super",
  "switch", "this", "throw", "true", "try", "typeof", "var", "void", "while", "with"
]

def isReserved (w : String) : Bool := reservedWords.contains w

/-- words that are keywords where an expression begins, and no names there -/
def openingWords : List String := ["undefined", "yield"]

/-- words that may be keywords or names where a statement or a member begins -/
def contextualWords : List String := ["async", "export", "get", "let", "set", "static"]

def isContextual (w : String) : Bool := contextualWords.contains w

/-- words that may name a variable -/
def isBindingName (w : String) : Bool := !isReserved w

/-- words that may stand in an expression as names -/
def isExpressionName (w : String) : Bool := w = "export" || !isReserved w

/-- words that may label a statement, or name the first member of an object that begins a statement -/
def isLabel (w : String) : Bool := isExpressionName w && !openingWords.contains w

end Turnstile.Grammar
