/-
Insertions into a text at byte offsets.

An insertion opens or closes something. At one offset, what closes comes before what opens; what was recorded first opens
first and closes last. `insertAll?` writes the text with all insertions in it, unless one of them cuts a character.
-/

namespace Turnstile

structure Insertion (α : Type) where
  offset : Int
  payload : α
  closing : Bool
  deriving Repr

namespace Insertion

def opening {α : Type} (offset : Int) (payload : α) : Insertion α := ⟨offset, payload, false⟩

def close {α : Type} (offset : Int) (payload : α) : Insertion α := ⟨offset, payload, true⟩

/-- two insertions around a byte range -/
def wrap {α : Type} (start stop : Int) (before after : α) : List (Insertion α) :=
  [opening start before, close stop after]

/-- whether the insertion recorded at place `i` stands before or at the one recorded at place `j` -/
def before {α : Type} (x y : Insertion α × Nat) : Bool :=
  if x.1.offset ≠ y.1.offset then x.1.offset < y.1.offset
  else if x.1.closing ≠ y.1.closing then x.1.closing
  else if x.1.closing then y.2 ≤ x.2
  else x.2 ≤ y.2

end Insertion

/-- insertions in the order in which they stand in the text -/
def inTextOrder {α : Type} (edits : List (Insertion α)) : List (Insertion α) :=
  (edits.zipIdx.mergeSort Insertion.before).map (·.1)

/-- the text from a position on, with insertions in text order; `done` holds the pieces written, last first -/
def insertFrom? {α : Type} (render : α → String) (data : ByteArray) (position : Nat) (done : List String) :
    List (Insertion α) → Option (List String)
  | [] => (String.fromUTF8? (data.extract position data.size)).map fun rest => (rest :: done).reverse
  | e :: es =>
    if (position : Int) < e.offset then
      match String.fromUTF8? (data.extract position e.offset.toNat) with
      | some piece => insertFrom? render data e.offset.toNat (render e.payload :: piece :: done) es
      | none => none
    else insertFrom? render data position (render e.payload :: done) es

/-- the text with every insertion in it -/
def insertAll? {α : Type} (render : α → String) (data : ByteArray) (edits : List (Insertion α)) : Option String :=
  (insertFrom? render data 0 [] (inTextOrder edits)).map String.join

end Turnstile
