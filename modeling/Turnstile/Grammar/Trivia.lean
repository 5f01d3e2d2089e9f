/-
What stands between tokens: gaps and comments.

A comment runs to the end of its line or to its closing mark. Markup comments are known only where no operand stands in
front of them, since `<!--` may otherwise be operators.
-/
import Turnstile.Grammar.Charset
import Turnstile.Grammar.Cursor

namespace Turnstile.Grammar

/-- past the mark that closes a comment -/
def closeFrom? (offset : Nat) : List Char → Option Cursor
  | '*' :: '/' :: r => some ⟨offset + 2, r⟩
  | c :: r => closeFrom? (offset + c.utf8Size) r
  | [] => none

theorem closeFrom?_length {offset : Nat} {r : List Char} {d : Cursor} (h : closeFrom? offset r = some d) :
    d.rest.length < r.length := by
  fun_induction closeFrom? offset r with
  | case1 offset r =>
    obtain rfl := Option.some.inj h
    exact Nat.lt_succ_of_lt (Nat.lt_succ_self _)
  | case2 offset c r _ ih => exact Nat.lt_succ_of_lt (ih h)
  | case3 => exact absurd h (by simp)

/-- past a comment that stands here -/
def comment? (c : Cursor) : Option Cursor :=
  match c.rest with
  | '/' :: '/' :: r => some (Cursor.skipFrom (!endsLineComment ·) (c.offset + 2) r)
  | '/' :: '*' :: r => closeFrom? (c.offset + 2) r
  | _ => none

theorem comment?_length {c d : Cursor} (h : comment? c = some d) : d.rest.length < c.rest.length := by
  unfold comment? at h
  split at h
  next r hr =>
    obtain rfl := Option.some.inj h
    have hle := Cursor.skipFrom_length_le (!endsLineComment ·) (c.offset + 2) r
    rw [hr, List.length_cons, List.length_cons]
    omega
  next r hr =>
    have hlt := closeFrom?_length h
    rw [hr, List.length_cons, List.length_cons]
    omega
  next => exact absurd h (by simp)

/-- past a markup comment that stands here: it starts with `<!--` or `-->` and takes the rest of its line -/
def markupComment? (c : Cursor) : Option Cursor :=
  match (c.pass? "<!--").or (c.pass? "-->") with
  | some d => some (d.skipWhile (!isNewline ·))
  | none => none

theorem markupComment?_length {c d : Cursor} (h : markupComment? c = some d) : d.rest.length < c.rest.length := by
  unfold markupComment? at h
  split at h
  next e he =>
    simp only [Option.some.injEq] at h
    subst h
    have hle := Cursor.skipWhile_length_le (!isNewline ·) e
    have hlt : e.rest.length < c.rest.length := by
      rcases Option.or_eq_some_iff.1 he with h | ⟨_, h⟩
      · have := Cursor.pass?_length h
        have : "<!--".toList.length = 4 := by decide
        omega
      · have := Cursor.pass?_length h
        have : "-->".toList.length = 3 := by decide
        omega
    omega
  next => exact absurd h (by simp)

/-- the next token that is no gap and no comment, seen from behind an operand or not -/
def nextToken (operand : Bool) (c : Cursor) : Cursor :=
  let d := c.skipWhile isGap
  match _h : if operand then comment? d else (comment? d).or (markupComment? d) with
  | some e => nextToken operand e
  | none => d
termination_by c.rest.length
decreasing_by
  have hle := Cursor.skipWhile_length_le isGap c
  have hlt : e.rest.length < (c.skipWhile isGap).rest.length := by
    split at _h
    · exact comment?_length _h
    · rcases Option.or_eq_some_iff.1 _h with h | ⟨_, h⟩
      · exact comment?_length h
      · exact markupComment?_length h
  omega

/-- the first gap or comment after which `stop` holds, seen from `c` on, `none` where a token comes first -/
def betweenTokens? (stop : Cursor → Bool) (c : Cursor) : Option Cursor :=
  if stop c then some c
  else
    match _h : comment? (c.skipWhile isGap) with
    | some d => betweenTokens? stop d
    | none => none
termination_by c.rest.length
decreasing_by
  have := Cursor.skipWhile_length_le isGap c
  have := comment?_length _h
  omega

end Turnstile.Grammar
