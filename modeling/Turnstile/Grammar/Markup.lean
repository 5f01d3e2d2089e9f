/-
Elements of markup inside expressions.

An element has a name, attributes and children; children are text, references to characters, further elements, and
expressions between braces. Names of opening and closing tags need not agree.
-/
import Turnstile.Grammar.Level

namespace Turnstile.Grammar

/-- characters that end text between tags -/
def endsMarkupText (c : Char) : Bool := c = '<' || c = '>' || c = '\x7b' || c = '\x7d' || c = '&'

/-- some character is no space, or a space in front of the first line end: what makes text more than layout -/
def isMarkupText : List Char → Bool
  | [] => false
  | '\n' :: r => (r.dropWhile fun c => c = '\n' || isSpace c) ≠ []
  | _ => true

/-- past text between tags, if it is more than layout -/
def markupText? (c : Cursor) : Option Cursor :=
  if isMarkupText (c.rest.takeWhile (!endsMarkupText ·)) then some (c.skipWhile (!endsMarkupText ·)) else none

/-- past a reference to a character, by name or by number -/
def characterReference? (c : Cursor) : Option Cursor := do
  let d ← c.pass? "&"
  let body := d.rest.takeWhile (· ≠ ';')
  let known := match body with
    | '#' :: x :: r =>
      if x = 'x' || x = 'X' then 1 ≤ r.length && r.length ≤ 6 && r.all isHexDigit
      else r.length ≤ 4 && (x :: r).all Char.isDigit
    | _ => 1 ≤ body.length && body.length ≤ 30 && body.all Char.isAlpha
  if known then (d.skipWhile (· ≠ ';')).pass? ";" else none

/-- past a name with dashes in it -/
def dashedName? (c : Cursor) : Option Cursor :=
  let d := c.skipWhile fun a => a.isAlphanum || a = '_' || a = '$'
  if c.offset < d.offset && !((c.rest.head?.map Char.isDigit).getD true) && d.startsWith "-" then
    some (d.skipWhile fun a => a.isAlphanum || a = '_' || a = '$' || a = '-')
  else none

namespace Level

open Parse

variable (g : Level)

/-- one name of a tag or an attribute -/
def markupWord (kind : String) : Parse Tree :=
  literal kind fun c => (dashedName? c).or ((name? c).map (·.2))

/-- one more name of a chain in a tag -/
def tagNameStep (t : Tree) : Parse (Option Tree) := do
  if ← symbol? "." then
    let property ← wordLeaf "property_identifier" fun _ => true
    return some (← since "member_expression" t.start [t.inField "object", property.inField "property"])
  return none

/-- a name that may have a second part behind a colon -/
def spacedName (kind : String) : Parse Tree := do
  let name ← markupWord kind
  if ← symbol? ":" then since "jsx_namespace_name" name.start [name, ← markupWord "identifier"]
  else return name

def tagName : Parse Tree := do
  let name ← spacedName "identifier"
  iterate tagNameStep name g.limit

/-- expressions between braces; they may be left out -/
def markupExpression : Parse Tree := do
  let start ← symbol "\x7b"
  if ← symbol? "\x7d" then since "jsx_expression" start []
  else
    let inside ← if ← comesNext "..." then g.spread else g.expressions .inner
    discard (symbol "\x7d")
    since "jsx_expression" start [inside]

/-- the value of an attribute; a string in it may hold line ends -/
def attributeValue : Parse Tree := do
  let c ← upcoming
  match c.rest with
  | '\x7b' :: _ => g.markupExpression
  | '<' :: _ => g.element
  | q :: _ =>
    ensure (q = '"' || q = '\'')
    literal "string" fun c => ((past q c).skipWhile (· ≠ q)).passIf? (· = q)
  | [] => refuse

def tagAttribute : Parse Tree := do
  if ← comesNext "\x7b" then g.markupExpression
  else
    let name ← spacedName "property_identifier"
    if ← symbol? "=" then since "jsx_attribute" name.start [name, ← g.attributeValue]
    else return .node "jsx_attribute" name.start name.stop [name]

/-- the next attribute of a tag -/
def nextAttribute : Parse (Option Tree) := do
  if (← comesNext ">") || (← comesNext "/>") then return none
  return some ((← g.tagAttribute).inField "attribute")

/-- the next child of an element, up to its closing tag -/
def nextChild : Parse (Option Tree) := do
  let c ← get
  match markupText? c with
  | some d =>
    set d
    return some (.leaf "jsx_text" c.offset d.offset)
  | none =>
    let c := c.skipWhile isGap
    set c
    if c.startsWith "</" then return none
    match c.rest with
    | '<' :: _ => some <$> g.element
    | '\x7b' :: _ => some <$> g.markupExpression
    | _ =>
      set (← ofOption (characterReference? c))
      return some (← since "html_character_reference" c.offset [])

/-- a closing tag -/
def closingTag : Parse Tree := do
  let start ← symbol "</"
  let name ← if ← comesNext ">" then pure [] else pure [(← g.tagName).inField "name"]
  discard (symbol ">")
  since "jsx_closing_element" start name

/-- an element of markup -/
def elementHere : Parse Tree := do
  let start ← symbol "<"
  let name ← if ← comesNext ">" then pure [] else pure [(← g.tagName).inField "name"]
  let attributes ← if name.isEmpty then pure [] else g.many g.nextAttribute
  if ← symbol? "/>" then since "jsx_self_closing_element" start (name ++ attributes)
  else
    discard (symbol ">")
    let tag ← since "jsx_opening_element" start (name ++ attributes)
    let children ← g.many g.nextChild
    let close ← g.closingTag
    since "jsx_element" start (tag.inField "open_tag" :: children ++ [close.inField "close_tag"])

end Level

end Turnstile.Grammar
