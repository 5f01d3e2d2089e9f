/-
What any calls of an output write, in both layouts.

- `OutputCall.piece`, `openAround`: what a call emits, and the blocks that are open around it;
- `Output.Wrote`: what an output has written after some calls, kept by every call (`Output.Wrote.perform`);
- `preambleCalls`: the calls that write a preamble, balanced whatever the entry is (`balanced_preambleCalls`);
- `Json.tokens`: the parts of a value that every layout on one line keeps;
- `layouts_agree`: pieces on one line or each on a line of its own, and the preamble in both layouts from the same statements.
-/
import Turnstile.Proofs.Emit.PreambleLiterals

namespace Turnstile

/-! ## Calls -/

/-- a call that emits a piece -/
inductive OutputCall where
  | statement (s : String)
  | startBlock (s : String)
  | endBlock
  deriving DecidableEq, Repr

namespace OutputCall

/-- what a call emits, without what sets it apart from the pieces around it -/
def piece : OutputCall → String
  | statement s => s
  | startBlock s => s ++ " \x7b"
  | endBlock => "\x7d"

def opens : OutputCall → Bool
  | startBlock _ => true
  | _ => false

def closes : OutputCall → Bool
  | endBlock => true
  | _ => false

end OutputCall

open OutputCall (opens closes)

/-- the blocks that are open around a piece: those opened before it and not closed before it or by it. There are none if more
were closed than opened. -/
def openAround (calls : List OutputCall) (i : ℕ) : ℕ := (calls.take i).countP opens - (calls.take (i + 1)).countP closes

/-- one piece a line, behind four blanks for every block that is open around it -/
def layoutLines (calls : List OutputCall) : List String :=
  calls.mapIdx fun i c => String.ofList (List.replicate (4 * openAround calls i) ' ') ++ c.piece ++ "\n"

/-- the text of some calls -/
def layoutText (compact : Bool) (calls : List OutputCall) : String :=
  if compact then " ".intercalate (calls.map OutputCall.piece) else String.join (layoutLines calls)

/-- every block is closed, and none that is not open -/
structure Balanced (calls : List OutputCall) : Prop where
  closed : calls.countP opens = calls.countP closes
  closing : ∀ n, (calls.take n).countP closes ≤ (calls.take n).countP opens

namespace Balanced

variable {calls inner rest : List OutputCall}

theorem nil : Balanced [] := ⟨rfl, fun n => by simp⟩

theorem statement (h : Balanced rest) (s : String) : Balanced (.statement s :: rest) := by
  refine ⟨by simpa [opens, closes] using h.closed, ?_⟩
  rintro (_ | n)
  · simp
  · simpa [opens, closes] using h.closing n

theorem block (hinner : Balanced inner) (hrest : Balanced rest) (s : String) :
    Balanced (.startBlock s :: (inner ++ .endBlock :: rest)) := by
  refine ⟨?_, ?_⟩
  · have hclosed := hinner.closed
    have hrestClosed := hrest.closed
    simp [List.countP_cons, opens, closes]
    omega
  · rintro (_ | n)
    · simp
    · rw [List.take_succ_cons, List.take_append]
      cases hn : n - inner.length with
      | zero =>
        -- inside the block, which is still open
        have hclosing := hinner.closing n
        simp [List.countP_cons, opens, closes]
        omega
      | succ m =>
        have hclosed := hinner.closed
        have hclosing := hrest.closing m
        rw [List.take_of_length_le (by omega)]
        simp [List.countP_cons, opens, closes]
        omega

end Balanced

theorem openAround_append_left {calls : List OutputCall} {i : ℕ} (h : i < calls.length) (more : List OutputCall) :
    openAround (calls ++ more) i = openAround calls i := by
  rw [openAround, openAround, List.take_append_of_le_length h.le, List.take_append_of_le_length (by omega)]

theorem layoutLines_concat (calls : List OutputCall) (c : OutputCall) :
    layoutLines (calls ++ [c]) = layoutLines calls ++
      [String.ofList (List.replicate (4 * openAround (calls ++ [c]) calls.length) ' ') ++ c.piece ++ "\n"] := by
  rw [layoutLines, List.mapIdx_concat, layoutLines]
  congr 1
  refine List.ext_getElem (by simp) fun i _ hi => ?_
  have hlength : i < calls.length := by simpa using hi
  simp [openAround_append_left hlength]

/-! ## Performing calls -/

namespace Output

def perform (o : Output) : OutputCall → Output
  | .statement s => o.statement s
  | .startBlock s => o.startBlock s
  | .endBlock => o.endBlock

def performAll (o : Output) (calls : List OutputCall) : Output := calls.foldl perform o

/-- what an output has written after some calls -/
structure Wrote (compact : Bool) (calls : List OutputCall) (o : Output) : Prop where
  compact_eq : o.compact = compact
  /-- below zero if more blocks were closed than opened -/
  indent : o.indent = calls.countP opens - calls.countP closes
  started : o.started = !calls.isEmpty
  text : o.text = layoutText compact calls

variable {o : Output} {compact : Bool} {calls : List OutputCall}

theorem Wrote.empty (compact : Bool) : Wrote compact [] (Output.empty compact) := by
  cases compact <;> exact ⟨rfl, rfl, rfl, rfl⟩

theorem compact_perform (o : Output) (c : OutputCall) : (o.perform c).compact = o.compact := by
  cases c <;> cases h : o.compact <;> simp [perform, Output.statement, startBlock, endBlock, h]

theorem started_perform (o : Output) (c : OutputCall) : (o.perform c).started = true := by
  cases c <;> cases h : o.compact <;> simp [perform, Output.statement, startBlock, endBlock, h]

theorem indent_perform (o : Output) (c : OutputCall) :
    (o.perform c).indent = o.indent + [c].countP opens - [c].countP closes := by
  cases c <;> cases h : o.compact <;> simp [perform, Output.statement, startBlock, endBlock, opens, closes, h]

/-- a piece is written when the block it closes is closed and the block it opens is not yet open -/
theorem text_perform (o : Output) (c : OutputCall) : (o.perform c).text =
    if o.compact then o.text ++ (if o.started then " " ++ c.piece else c.piece)
    else o.text ++ (String.ofList (List.replicate (4 * (o.indent - [c].countP closes)).toNat ' ') ++ c.piece ++ "\n") := by
  cases c <;> cases h : o.compact <;>
    simp [perform, Output.statement, startBlock, endBlock, closes, OutputCall.piece, String.append_assoc, h]

theorem openAround_last (calls : List OutputCall) (c : OutputCall) : openAround (calls ++ [c]) calls.length =
    calls.countP opens - (calls.countP closes + [c].countP closes) := by
  rw [openAround, List.take_left, List.take_of_length_le (by simp), List.countP_append]

/-- **One call writes one piece.** -/
theorem Wrote.perform (h : Wrote compact calls o) (c : OutputCall) : Wrote compact (calls ++ [c]) (o.perform c) where
  compact_eq := by rw [compact_perform, h.compact_eq]
  indent := by
    rw [indent_perform, h.indent, List.countP_append, List.countP_append]
    push_cast
    ring
  started := by simp [started_perform]
  text := by
    rw [text_perform, h.compact_eq, h.text, h.indent, h.started]
    cases compact with
    | true =>
      by_cases hcalls : calls = []
      · simp [layoutText, hcalls]
      · have hpieces : calls.map OutputCall.piece ≠ [] := by simpa using hcalls
        have htext : layoutText true (calls ++ [c]) = layoutText true calls ++ " " ++ c.piece := by
          simp only [layoutText, if_true, List.map_append]
          rw [String.intercalate_append_of_ne_nil hpieces (by simp)]
          rfl
        simp [htext, hcalls, String.append_assoc]
    | false =>
      -- the indentation is an integer and the open blocks a natural number, so both stop at zero
      have hblanks : (4 * ((calls.countP opens : ℤ) - calls.countP closes - [c].countP closes)).toNat =
          4 * openAround (calls ++ [c]) calls.length := by
        rw [openAround_last]
        omega
      simp only [hblanks, layoutText, layoutLines_concat, String.join_append]
      simp

/-- what any calls write -/
theorem wrote_performAll (compact : Bool) (calls : List OutputCall) :
    Wrote compact calls ((Output.empty compact).performAll calls) := by
  induction calls using List.reverseRecOn with
  | nil => exact .empty compact
  | append_singleton calls c ih =>
    rw [performAll, List.foldl_concat]
    exact ih.perform c

end Output

/-! ## Entries -/

namespace Json

/-- a part of a text that every layout on one line keeps -/
inductive Token where
  | bracket (c : Char)
  | comma
  | colon
  /-- a string, a number or a name -/
  | scalar (text : List Char)
  deriving DecidableEq, Repr

/-- the text of a part; a layout on one line decides on what stands for commas and colons only -/
def Token.text (l : Layout) : Token → List Char
  | bracket c => [c]
  | comma => l.itemSeparator
  | colon => l.keySeparator
  | scalar text => text

mutual
/-- the parts of a value -/
def tokens : Json → List Token
  | null => [.scalar ['n', 'u', 'l', 'l']]
  | bool b => [.scalar (if b then ['t', 'r', 'u', 'e'] else ['f', 'a', 'l', 's', 'e'])]
  | int n => [.scalar (Text.integerText n).toList]
  | float x => [.scalar (numeral x).toList]
  | string s => [.scalar (literal s)]
  | array items => .bracket '[' :: [Token.comma].intercalate (itemTokens items) ++ [.bracket ']']
  | object fields => .bracket '\x7b' :: [Token.comma].intercalate (fieldTokens fields) ++ [.bracket '\x7d']

def itemTokens : List Json → List (List Token)
  | [] => []
  | v :: vs => tokens v :: itemTokens vs

def fieldTokens : List (String × Json) → List (List Token)
  | [] => []
  | (k, v) :: fs => (.scalar (literal k) :: .colon :: tokens v) :: fieldTokens fs
end

variable {l : Layout}

theorem flatMap_intercalate {α β : Type} (f : α → List β) (separator : List α) (parts : List (List α)) :
    (separator.intercalate parts).flatMap f = (separator.flatMap f).intercalate (parts.map (·.flatMap f)) := by
  induction parts with
  | nil => simp
  | cons part parts ih =>
    cases parts with
    | nil => simp
    | cons next parts => simpa [List.intercalate_cons_cons] using ih

theorem flatMap_enclose (hl : l.indent = none) (depth : ℕ) (opening closing : Char) (parts : List (List Token)) :
    (Token.bracket opening :: [Token.comma].intercalate parts ++ [Token.bracket closing]).flatMap (Token.text l) =
      l.enclose depth opening closing (parts.map (·.flatMap (Token.text l))) := by
  have hbreak : ∀ depth, l.lineBreak depth = [] := by
    intro depth
    rw [Layout.lineBreak, hl]
  cases parts with
  | nil => simp [Layout.enclose, Token.text]
  | cons part parts => simp [Layout.enclose, hbreak, flatMap_intercalate, Token.text]

mutual
/-- **On one line a value is its tokens**, whatever the layout. -/
theorem write_tokens (hl : l.indent = none) (depth : ℕ) : ∀ v : Json, write l depth v = (tokens v).flatMap (Token.text l)
  | null => by simp [write, tokens, Token.text]
  | bool b => by simp [write, tokens, Token.text]
  | int n => by simp [write, tokens, Token.text]
  | float x => by simp [write, tokens, Token.text]
  | string s => by simp [write, tokens, Token.text]
  | array items => by rw [write, tokens, flatMap_enclose hl depth, writeItems_tokens hl]
  | object fields => by rw [write, tokens, flatMap_enclose hl depth, writeFields_tokens hl]

theorem writeItems_tokens (hl : l.indent = none) (depth : ℕ) : ∀ items : List Json,
    writeItems l depth items = (itemTokens items).map (·.flatMap (Token.text l))
  | [] => rfl
  | v :: vs => by rw [writeItems, itemTokens, List.map_cons, write_tokens hl, writeItems_tokens hl]

theorem writeFields_tokens (hl : l.indent = none) (depth : ℕ) : ∀ fields : List (String × Json),
    writeFields l depth fields = (fieldTokens fields).map (·.flatMap (Token.text l))
  | [] => rfl
  | (k, v) :: fs => by
    rw [writeFields, fieldTokens, List.map_cons, write_tokens hl, writeFields_tokens hl]
    simp [Token.text]
end

end Json

/-! ## Preambles -/

section Preambles

variable (traceVariable key : String)

/-- the calls that write a preamble around the text of an entry -/
def preambleCalls (body : String) : List OutputCall :=
  let tracker := trackerName key
  let slot := literalText traceVariable
  let name := literalText key
  [.statement ("var " ++ tracker ++ " = (Function('return this'))();"),
    .startBlock ("if (!" ++ tracker ++ "[" ++ slot ++ "])"),
    .statement (tracker ++ "[" ++ slot ++ "] = \x7b\x7d;"),
    .endBlock,
    .statement (tracker ++ " = " ++ tracker ++ "[" ++ slot ++ "];"),
    .startBlock ("if (!(" ++ tracker ++ "[" ++ name ++ "]))"),
    .statement (tracker ++ "[" ++ name ++ "] = " ++ body ++ ";"),
    .endBlock,
    .statement (tracker ++ " = " ++ tracker ++ "[" ++ name ++ "];")]

theorem balanced_preambleCalls (body : String) : Balanced (preambleCalls traceVariable key body) :=
  .statement (.block (.statement .nil _) (.statement (.block (.statement .nil _) (.statement .nil _) _) _) _) _

/-- **In both layouts a preamble is the same calls**, around the same tokens of the entry. -/
theorem preamble_eq_layoutText (entry : Json) (compact : Bool) : preamble traceVariable key entry compact =
    layoutText compact (preambleCalls traceVariable key
      (String.ofList (entry.tokens.flatMap (Json.Token.text (entryLayout compact))))) := by
  have hbody : entry.render (entryLayout compact) =
      String.ofList (entry.tokens.flatMap (Json.Token.text (entryLayout compact))) := by
    rw [Json.render, Json.write_tokens (oneLine_entryLayout compact).indent]
  rw [← hbody]
  calc preamble traceVariable key entry compact
      = ((Output.empty compact).performAll (preambleCalls traceVariable key (entry.render (entryLayout compact)))).text := rfl
    _ = layoutText compact (preambleCalls traceVariable key (entry.render (entryLayout compact))) :=
        (Output.wrote_performAll compact _).text

end Preambles

/-- **Both layouts write the same pieces.** Take any calls of a fresh output, balanced or not. In the compact layout the text
is the pieces with one blank between two and nothing around them; otherwise it is one piece a line, behind four blanks for
every block that is open around it. Take any trace variable, key and entry. The preambles of the two layouts are written by
the same calls, in which every block is closed; all that differs between the calls is the text of the entry, and its two
texts are the same tokens, without and with a blank behind each comma and colon. -/
theorem layouts_agree :
    (∀ calls : List OutputCall,
      ((Output.empty true).performAll calls).text = " ".intercalate (calls.map OutputCall.piece) ∧
      ((Output.empty false).performAll calls).text = String.join (layoutLines calls)) ∧
    ∀ (traceVariable key : String) (entry : Json),
      let body (blank : List Char) := String.ofList (entry.tokens.flatMap (Json.Token.text ⟨',' :: blank, ':' :: blank, none⟩))
      let calls (blank : List Char) := preambleCalls traceVariable key (body blank)
      (∀ blank, Balanced (calls blank)) ∧
      preamble traceVariable key entry true = " ".intercalate ((calls []).map OutputCall.piece) ∧
      preamble traceVariable key entry false = String.join (layoutLines (calls [' '])) := by
  refine ⟨fun calls => ⟨?_, ?_⟩, fun traceVariable key entry => ⟨fun blank => ?_, ?_, ?_⟩⟩
  · exact (Output.wrote_performAll true calls).text
  · exact (Output.wrote_performAll false calls).text
  · exact balanced_preambleCalls traceVariable key _
  · exact preamble_eq_layoutText traceVariable key entry true
  · exact preamble_eq_layoutText traceVariable key entry false

/-- more blocks closed than opened: what is open after them is not indented until the others are made up for -/
example : ((Output.empty false).performAll [.endBlock, .startBlock "f", .statement "x", .startBlock "g", .statement "y"]).text =
    "\x7d\nf \x7b\nx\ng \x7b\n    y\n" := by
  decide

end Turnstile
