/-
Reading the beginning of a text that may end inside a character.

Decoding with replacement reads one character for each well-formed sequence and one replacement for each ill-formed
subpart. Of a text that is cut at some byte, only the last character can be ill formed.
- `Encoded`: the byte sequences of characters, by the ranges of their bytes;
- `begunBefore`: the characters that begin before a byte offset;
- `length_decodeReplacing`, `countP_not_isTail`: decoding the bytes up to an offset gives as many characters as begin before
  it, and so does counting the bytes that are no continuation.
-/
import Mathlib.Data.Int.Notation
import Mathlib.Data.List.Basic
import Turnstile.Text.Utf8

namespace Turnstile

open Text.Utf8

/-- decoding in which each ill-formed subpart reads as one replacement character -/
def decodeReplacing : List UInt8 → List Char
  | [] => []
  | a :: r =>
    match _h : step a r with
    | .char c rest => c :: decodeReplacing rest
    | .bad _ _ rest => Char.ofNat 0xFFFD :: decodeReplacing rest
termination_by bytes => bytes.length
decreasing_by all_goals (have hr := step_rest_lt a r; simp_all [Step.rest])

/-- the characters that begin before a byte offset -/
def begunBefore : List Char → ℕ → List Char
  | c :: cs, o + 1 => c :: begunBefore cs (o + 1 - c.utf8Size)
  | _, _ => []

variable {a b : UInt8} {tails : List UInt8}

/-- the first byte of a character and the bytes behind it -/
inductive Encoded : UInt8 → List UInt8 → Prop where
  | one {a : UInt8} (high : a.toNat < 128) : Encoded a []
  | two {a b : UInt8} (low : 194 ≤ a.toNat) (high : a.toNat < 224) (second : isTail b) : Encoded a [b]
  | three {a b c : UInt8} (low : 224 ≤ a.toNat) (high : a.toNat < 240) (second : isSecondOfThree a b)
      (third : isTail c) : Encoded a [b, c]
  | four {a b c d : UInt8} (low : 240 ≤ a.toNat) (high : a.toNat < 245) (second : isSecondOfFour a b)
      (third : isTail c) (fourth : isTail d) : Encoded a [b, c, d]

/-! ## Bytes of a character -/

theorem isTail_iff : isTail b = true ↔ 128 ≤ b.toNat ∧ b.toNat ≤ 191 := by
  simp only [isTail, Bool.and_eq_true, decide_eq_true_eq, UInt8.le_iff_toNat_le]
  rfl

theorem isSecondOfThree_iff : isSecondOfThree a b = true ↔
    (128 ≤ b.toNat ∧ b.toNat ≤ 191) ∧ (a.toNat = 224 → 160 ≤ b.toNat) ∧ (a.toNat = 237 → b.toNat ≤ 159) := by
  have hfirst : a = 0xE0 ↔ a.toNat = 224 := UInt8.toNat_inj.symm
  have hlast : a = 0xED ↔ a.toNat = 237 := UInt8.toNat_inj.symm
  rw [isSecondOfThree, ← isTail_iff]
  split_ifs <;> simp_all [isTail, UInt8.le_iff_toNat_le] <;> omega

theorem isSecondOfFour_iff : isSecondOfFour a b = true ↔
    (128 ≤ b.toNat ∧ b.toNat ≤ 191) ∧ (a.toNat = 240 → 144 ≤ b.toNat) ∧ (a.toNat = 244 → b.toNat ≤ 143) := by
  have hfirst : a = 0xF0 ↔ a.toNat = 240 := UInt8.toNat_inj.symm
  have hlast : a = 0xF4 ↔ a.toNat = 244 := UInt8.toNat_inj.symm
  rw [isSecondOfFour, ← isTail_iff]
  split_ifs <;> simp_all [isTail, UInt8.le_iff_toNat_le] <;> omega

theorem toNat_byte {n : ℕ} (h : n < 256) : (UInt8.ofNat n).toNat = n := by
  rw [UInt8.toNat_ofNat']
  exact Nat.mod_eq_of_lt h

/-- the bytes behind the first are of the form 10xxxxxx -/
theorem isTail_byte (n : ℕ) : isTail (UInt8.ofNat (n % 64 + 128)) = true := by
  rw [isTail_iff, toNat_byte (by omega)]
  omega

/-- what the encoding of a character looks like -/
theorem encoded_utf8EncodeChar (c : Char) : ∃ a tails, String.utf8EncodeChar c = a :: tails ∧ Encoded a tails := by
  have hvalid : c.val.toNat < 0xD800 ∨ 0xDFFF < c.val.toNat ∧ c.val.toNat < 0x110000 := c.valid
  simp only [String.utf8EncodeChar]
  split
  · refine ⟨_, _, rfl, .one ?_⟩
    rw [toNat_byte] <;> omega
  · split
    · refine ⟨_, _, rfl, .two ?_ ?_ (isTail_byte _)⟩ <;> rw [toNat_byte] <;> omega
    · split
      · refine ⟨_, _, rfl, .three ?_ ?_ ?_ (isTail_byte _)⟩
        · rw [toNat_byte] <;> omega
        · rw [toNat_byte] <;> omega
        · rw [isSecondOfThree_iff, toNat_byte (by omega), toNat_byte (by omega)]
          omega
      · refine ⟨_, _, rfl, .four ?_ ?_ ?_ (isTail_byte _) (isTail_byte _)⟩
        · rw [toNat_byte] <;> omega
        · rw [toNat_byte] <;> omega
        · rw [isSecondOfFour_iff, toNat_byte (by omega), toNat_byte (by omega)]
          omega

namespace Encoded

theorem isTail_lead (h : Encoded a tails) : isTail a = false := by
  rw [Bool.eq_false_iff, Ne, isTail_iff]
  cases h <;> omega

theorem isTail_of_mem (h : Encoded a tails) : ∀ b ∈ tails, isTail b = true := by
  cases h with
  | one => simp
  | two _ _ second => simpa using second
  | three _ _ second third =>
    have hsecond := isTail_iff.2 (isSecondOfThree_iff.1 second).1
    simp [hsecond, third]
  | four _ _ second third fourth =>
    have hsecond := isTail_iff.2 (isSecondOfFour_iff.1 second).1
    simp [hsecond, third, fourth]

/-- a whole character is read in one step -/
theorem rest_whole (h : Encoded a tails) (r : List UInt8) : (step a (tails ++ r)).rest = r := by
  cases h with
  | one high => simp [step, UInt8.lt_iff_toNat_lt, high, Step.rest]
  | two low high second =>
    have hlow : ¬ a.toNat < 128 ∧ ¬ a.toNat < 194 := by omega
    simp [step, UInt8.lt_iff_toNat_lt, hlow, high, second, Step.rest]
  | three low high second third =>
    have hlow : ¬ a.toNat < 128 ∧ ¬ a.toNat < 194 ∧ ¬ a.toNat < 224 := by omega
    simp [step, UInt8.lt_iff_toNat_lt, hlow, high, second, third, Step.rest]
  | four low high second third fourth =>
    have hlow : ¬ a.toNat < 128 ∧ ¬ a.toNat < 194 ∧ ¬ a.toNat < 224 ∧ ¬ a.toNat < 240 := by omega
    simp [step, UInt8.lt_iff_toNat_lt, hlow, high, second, third, fourth, Step.rest]

/-- a character that is cut is replaced in one step -/
theorem rest_cut (h : Encoded a tails) {j : ℕ} (hj : j < tails.length) : (step a (tails.take j)).rest = [] := by
  cases h with
  | one high => cases hj
  | two low high second =>
    have hlow : ¬ a.toNat < 128 ∧ ¬ a.toNat < 194 := by omega
    obtain rfl : j = 0 := by simpa using hj
    simp [step, UInt8.lt_iff_toNat_lt, hlow, high, Step.rest]
  | three low high second third =>
    have hlow : ¬ a.toNat < 128 ∧ ¬ a.toNat < 194 ∧ ¬ a.toNat < 224 := by omega
    obtain rfl | rfl : j = 0 ∨ j = 1 := by simp at hj; omega
    all_goals simp [step, UInt8.lt_iff_toNat_lt, hlow, high, second, Step.rest]
  | four low high second third fourth =>
    have hlow : ¬ a.toNat < 128 ∧ ¬ a.toNat < 194 ∧ ¬ a.toNat < 224 ∧ ¬ a.toNat < 240 := by omega
    obtain rfl | rfl | rfl : j = 0 ∨ j = 1 ∨ j = 2 := by simp at hj; omega
    all_goals simp [step, UInt8.lt_iff_toNat_lt, hlow, high, second, third, Step.rest]

end Encoded

/-! ## A text that is cut -/

theorem length_decodeReplacing_cons (a : UInt8) (r : List UInt8) :
    (decodeReplacing (a :: r)).length = (decodeReplacing (step a r).rest).length + 1 := by
  rw [decodeReplacing]
  split <;> simp_all [Step.rest]

theorem countP_take_eq_zero {p : UInt8 → Bool} (h : ∀ b ∈ tails, p b = false) (j : ℕ) : (tails.take j).countP p = 0 := by
  rw [List.countP_eq_zero]
  intro b hb
  simp [h b (List.mem_of_mem_take hb)]

variable (cs : List Char) (o : ℕ)

/-- each character begins with one byte that is no continuation -/
theorem countP_not_isTail :
    (((cs.flatMap String.utf8EncodeChar).take o).countP fun b => !isTail b) = (begunBefore cs o).length := by
  induction cs generalizing o with
  | nil => simp [begunBefore]
  | cons c cs ih =>
    cases o with
    | zero => rfl
    | succ j =>
      obtain ⟨a, tails, hbytes, hencoded⟩ := encoded_utf8EncodeChar c
      have htails : ((tails.take j).countP fun b => !isTail b) = 0 :=
        countP_take_eq_zero (fun b hb => by simp [hencoded.isTail_of_mem b hb]) j
      rw [List.flatMap_cons, List.take_append, List.countP_append, String.length_utf8EncodeChar, ih, hbytes,
        List.take_succ_cons, List.countP_cons, htails, hencoded.isTail_lead, begunBefore, List.length_cons]
      simp [Nat.add_comm]

/-- **Of a text that is cut, as many characters are read as begin.** -/
theorem length_decodeReplacing :
    (decodeReplacing ((cs.flatMap String.utf8EncodeChar).take o)).length = (begunBefore cs o).length := by
  induction cs generalizing o with
  | nil => simp [begunBefore, decodeReplacing]
  | cons c cs ih =>
    cases o with
    | zero => simp [begunBefore, decodeReplacing]
    | succ j =>
      obtain ⟨a, tails, hbytes, hencoded⟩ := encoded_utf8EncodeChar c
      have hsize : c.utf8Size = tails.length + 1 := by
        rw [← String.length_utf8EncodeChar, hbytes, List.length_cons]
      have hrest : j + 1 - c.utf8Size = j - tails.length := by omega
      rw [List.flatMap_cons, hbytes, List.cons_append, List.take_succ_cons, length_decodeReplacing_cons, begunBefore,
        List.length_cons, hrest, ← ih, List.take_append]
      rcases Nat.lt_or_ge j tails.length with hcut | hwhole
      · have hnone : j - tails.length = 0 := by omega
        rw [hnone, List.take_zero, List.append_nil, hencoded.rest_cut hcut]
      · rw [List.take_of_length_le hwhole, hencoded.rest_whole]

end Turnstile
