/-
Reading UTF-8 byte sequences that may be ill formed.

`step` reads one character or one maximal ill-formed subpart from the front. `decode` reads a whole sequence or reports
the first ill-formed subpart. `step_rest_lt`: every step consumes a byte.
-/

namespace Turnstile.Text.Utf8

/-- why a subpart is ill formed -/
inductive Defect where
  | startByte
  | continuation
  | truncated
  deriving DecidableEq, Repr

/-- outcome of one step at the front of a byte sequence -/
inductive Step where
  | char (c : Char) (rest : List UInt8)
  | bad (defect : Defect) (width : Nat) (rest : List UInt8)

/-- what a step leaves unread -/
def Step.rest : Step → List UInt8
  | .char _ rest => rest
  | .bad _ _ rest => rest

/-- a byte of the form 10xxxxxx -/
def isTail (b : UInt8) : Bool := 0x80 ≤ b && b ≤ 0xBF

/-- the bytes allowed second after a three byte lead -/
def isSecondOfThree (a b : UInt8) : Bool :=
  if a = 0xE0 then 0xA0 ≤ b && b ≤ 0xBF else if a = 0xED then 0x80 ≤ b && b ≤ 0x9F else isTail b

/-- the bytes allowed second after a four byte lead -/
def isSecondOfFour (a b : UInt8) : Bool :=
  if a = 0xF0 then 0x90 ≤ b && b ≤ 0xBF else if a = 0xF4 then 0x80 ≤ b && b ≤ 0x8F else isTail b

/-- the low `n` bits of a byte, as a number -/
def low (b : UInt8) (n : Nat) : Nat := b.toNat % Nat.pow 2 n

/-- one character or one maximal ill-formed subpart, starting with the byte `a` -/
def step (a : UInt8) (r : List UInt8) : Step :=
  if a < 0x80 then .char (Char.ofNat a.toNat) r
  else if a < 0xC2 then .bad .startByte 1 r
  else if a < 0xE0 then
    match r with
    | [] => .bad .truncated 1 []
    | b :: r1 => if isTail b then .char (Char.ofNat (low a 5 * 64 + low b 6)) r1 else .bad .continuation 1 (b :: r1)
  else if a < 0xF0 then
    match r with
    | [] => .bad .truncated 1 []
    | b :: r1 =>
      if isSecondOfThree a b then
        match r1 with
        | [] => .bad .truncated 2 []
        | c :: r2 =>
          if isTail c then .char (Char.ofNat (low a 4 * 4096 + low b 6 * 64 + low c 6)) r2
          else .bad .continuation 2 (c :: r2)
      else .bad .continuation 1 (b :: r1)
  else if a < 0xF5 then
    match r with
    | [] => .bad .truncated 1 []
    | b :: r1 =>
      if isSecondOfFour a b then
        match r1 with
        | [] => .bad .truncated 2 []
        | c :: r2 =>
          if isTail c then
            match r2 with
            | [] => .bad .truncated 3 []
            | d :: r3 =>
              if isTail d then
                .char (Char.ofNat (low a 3 * 262144 + low b 6 * 4096 + low c 6 * 64 + low d 6)) r3
              else .bad .continuation 3 (d :: r3)
          else .bad .continuation 2 (c :: r2)
      else .bad .continuation 1 (b :: r1)
  else .bad .startByte 1 r

/-- every step consumes at least its first byte -/
theorem step_rest_le (a : UInt8) (r : List UInt8) : (step a r).rest.length ≤ r.length := by
  fun_cases step a r <;> simp only [Step.rest, List.length_cons, List.length_nil, Nat.le_refl] <;> omega

theorem step_rest_lt (a : UInt8) (r : List UInt8) : (step a r).rest.length < (a :: r).length :=
  Nat.lt_succ_of_le (step_rest_le a r)

/-- where and why a byte sequence is ill formed; `byte` is the first byte of the subpart -/
structure Fault where
  defect : Defect
  position : Nat
  width : Nat
  byte : UInt8
  deriving DecidableEq, Repr

/-- the characters of a well-formed byte sequence, or its first fault; `done` holds what is read, last first -/
def decodeFrom (position : Nat) (done : List Char) : List UInt8 → Except Fault (List Char)
  | [] => .ok done.reverse
  | a :: r =>
    match _h : step a r with
    | .char c rest => decodeFrom (position + c.utf8Size) (c :: done) rest
    | .bad defect width _ => .error ⟨defect, position, width, a⟩
termination_by bytes => bytes.length
decreasing_by (have hr := step_rest_lt a r; simp_all [Step.rest])

def decode (bytes : List UInt8) : Except Fault (List Char) := decodeFrom 0 [] bytes

def Defect.message : Defect → String
  | .startByte => "invalid start byte"
  | .continuation => "invalid continuation byte"
  | .truncated => "unexpected end of data"

end Turnstile.Text.Utf8
