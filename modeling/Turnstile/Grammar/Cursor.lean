/-
Places in a text that is being read.

A cursor knows its byte offset and the characters from there on. Moving one never lengthens what is left, and moving it past
some text that stands there shortens it.
-/

namespace Turnstile

structure Cursor where
  offset : Nat
  rest : List Char
  deriving DecidableEq, Repr, Inhabited

namespace Cursor

/-- in front of a whole text -/
def ofString (s : String) : Cursor := ⟨0, s.toList⟩

/-- past the characters in front that satisfy a condition -/
def skipFrom (p : Char → Bool) (offset : Nat) : List Char → Cursor
  | [] => ⟨offset, []⟩
  | c :: r => if p c then skipFrom p (offset + c.utf8Size) r else ⟨offset, c :: r⟩

def skipWhile (p : Char → Bool) (c : Cursor) : Cursor := skipFrom p c.offset c.rest

/-- past some characters, if they stand in front -/
def passFrom? (offset : Nat) : List Char → List Char → Option Cursor
  | [], r => some ⟨offset, r⟩
  | _ :: _, [] => none
  | k :: ks, c :: r => if k = c then passFrom? (offset + c.utf8Size) ks r else none

/-- past a text, if it stands here -/
def pass? (s : String) (c : Cursor) : Option Cursor := passFrom? c.offset s.toList c.rest

def startsWith (s : String) (c : Cursor) : Bool := (c.pass? s).isSome

/-- past one character that satisfies a condition -/
def passIf? (p : Char → Bool) (c : Cursor) : Option Cursor :=
  match c.rest with
  | [] => none
  | a :: r => if p a then some ⟨c.offset + a.utf8Size, r⟩ else none

theorem skipFrom_length_le (p : Char → Bool) (offset : Nat) (r : List Char) :
    (skipFrom p offset r).rest.length ≤ r.length := by
  induction r generalizing offset with
  | nil => exact Nat.le_refl _
  | cons c r ih =>
    simp only [skipFrom]
    split
    · exact Nat.le_succ_of_le (ih _)
    · exact Nat.le_refl _

theorem skipWhile_length_le (p : Char → Bool) (c : Cursor) : (c.skipWhile p).rest.length ≤ c.rest.length :=
  skipFrom_length_le p c.offset c.rest

theorem passFrom?_length {offset : Nat} {ks r : List Char} {d : Cursor} (h : passFrom? offset ks r = some d) :
    d.rest.length + ks.length = r.length := by
  induction ks generalizing offset r with
  | nil => simp only [passFrom?, Option.some.injEq] at h; simp [← h]
  | cons k ks ih =>
    cases r with
    | nil => simp [passFrom?] at h
    | cons c r =>
      simp only [passFrom?] at h
      split at h
      · have := ih h
        simp only [List.length_cons]
        omega
      · exact absurd h (by simp)

/-- a text that stands here is no longer ahead behind it -/
theorem pass?_length {s : String} {c d : Cursor} (h : c.pass? s = some d) :
    d.rest.length + s.toList.length = c.rest.length := passFrom?_length h

end Cursor

end Turnstile
