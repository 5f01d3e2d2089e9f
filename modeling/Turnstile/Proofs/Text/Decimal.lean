/-
Integers read back from their decimal text.

- `natural?_of_isDigit`: a run of digits denotes their value, unless it is too long;
- `integer?_of_isWritable`: an integer that is written reads back, sign included;
- `integerText_injective`: different integers have different texts, however long these are.
-/
import Mathlib.Tactic
import Turnstile.Text.Integer

namespace Turnstile.Text

theorem digit_range {c : Char} (h : c.isDigit = true) : 48 ≤ c.toNat ∧ c.toNat ≤ 57 := by
  simp only [Char.isDigit, Bool.and_eq_true, decide_eq_true_eq, ge_iff_le, UInt32.le_iff_toNat_le] at h
  exact h

theorem isDigit_of_mem_toDigits {n : ℕ} {c : Char} (h : c ∈ Nat.toDigits 10 n) : c.isDigit = true :=
  Nat.isDigit_of_mem_toDigits (by norm_num) le_rfl h

/-- the first range of digits is that of ASCII -/
theorem digitValue?_of_isDigit {c : Char} (h : c.isDigit = true) : digitValue? c = some (c.toNat - 48) := by
  obtain ⟨hlow, hhigh⟩ := digit_range h
  have hhigh : c.toNat < 48 + 10 := by omega
  simp [digitValue?, digitZeros, hlow, hhigh]

theorem not_isBlank_of_isDigit {c : Char} (h : c.isDigit = true) : isBlank c = false := by
  obtain ⟨hlow, hhigh⟩ := digit_range h
  simp only [isBlank, Bool.or_eq_false_iff, Bool.and_eq_false_iff, decide_eq_false_iff_not]
  omega

/-- the value of a digit of ASCII -/
def digitOf (c : Char) : ℕ := c.toNat - 48

/-- a run of digits is read to its end -/
theorem digitsAfter?_of_isDigit {ds : List Char} (h : ∀ c ∈ ds, c.isDigit = true) :
    digitsAfter? ds = some (ds.map digitOf, []) := by
  induction ds with
  | nil => rfl
  | cons c ds ih =>
    obtain ⟨hc, hds⟩ := List.forall_mem_cons.1 h
    have hunderscore : c ≠ '_' := by
      rintro rfl
      exact absurd hc (by decide)
    rw [digitsAfter?, digitValue?_of_isDigit hc]
    · simp only [ih hds, Option.map_some, List.map_cons, digitOf]
    · rintro rfl
      exact absurd rfl hunderscore
    · rintro _ _ rfl
      exact absurd rfl hunderscore

theorem foldl_digitOf (ds : List Char) (value : ℕ) :
    (ds.map digitOf).foldl (fun n d => n * 10 + d) value = Nat.ofDigitChars 10 ds value := by
  induction ds generalizing value with
  | nil => rfl
  | cons c ds ih =>
    rw [List.map_cons, List.foldl_cons, ih, Nat.ofDigitChars_cons, Nat.mul_comm value 10]
    rfl

/-- a run of digits that is not empty denotes their value, or is too long -/
theorem natural?_of_isDigit {ds : List Char} (hne : ds ≠ []) (h : ∀ c ∈ ds, c.isDigit = true) :
    natural? ds = if digitLimit < ds.length then .error (.tooLong ds.length) else .ok (Nat.ofDigitChars 10 ds 0) := by
  obtain ⟨c, ds, rfl⟩ := List.exists_cons_of_ne_nil hne
  obtain ⟨hc, hds⟩ := List.forall_mem_cons.1 h
  rw [natural?, digitValue?_of_isDigit hc, digitsAfter?_of_isDigit hds]
  have hvalue := foldl_digitOf ds (c.toNat - 48)
  rw [Nat.ofDigitChars_cons, Nat.mul_zero, Nat.zero_add, List.length_cons]
  simp only [List.length_map, List.isEmpty_nil, if_true, hvalue]
  rfl

theorem trim_of_forall {kind : Char → Bool} {cs : List Char} (h : ∀ c ∈ cs, kind c = false) : trim kind cs = cs := by
  have hkeeps : ∀ ds : List Char, (∀ c ∈ ds, kind c = false) → ds.dropWhile kind = ds := by
    intro ds hds
    cases ds with
    | nil => rfl
    | cons d ds => simp [hds d List.mem_cons_self]
  have hreverse : ∀ c ∈ cs.reverse, kind c = false := fun c hc => h c (List.mem_reverse.1 hc)
  rw [trim, hkeeps cs h, hkeeps _ hreverse, List.reverse_reverse]

/-- the characters of an integer text: digits, with a sign in front of those of a negative number -/
theorem toList_integerText (n : ℤ) : (integerText n).toList =
    (if n < 0 then ['-'] else []) ++ Nat.toDigits 10 n.natAbs := by
  rw [integerText]
  split <;> simp

/-- an integer is written if it has at most `digitLimit` digits, the sign not counted -/
theorem isWritable_iff (n : ℤ) : IsWritable n ↔ n.natAbs < 10 ^ digitLimit :=
  Nat.length_toDigits_le_iff (by norm_num) (by decide)

theorem length_toDigits_pow (k : ℕ) : (Nat.toDigits 10 ((10 : ℤ) ^ k).natAbs).length = k + 1 := by
  have hamount : ((10 : ℤ) ^ k).natAbs = 10 ^ k := Int.natAbs_pow 10 k
  have hle := (Nat.length_toDigits_le_iff (b := 10) (n := 10 ^ k) (k := k + 1) (by norm_num) k.succ_pos).2
    (Nat.pow_lt_pow_right (by norm_num) k.lt_succ_self)
  have hge : ¬ (Nat.toDigits 10 (10 ^ k)).length ≤ k := by
    intro hle
    rcases k.eq_zero_or_pos with rfl | hk
    · exact absurd hle (by decide)
    · exact absurd ((Nat.length_toDigits_le_iff (by norm_num) hk).1 hle) (lt_irrefl _)
  rw [hamount]
  omega

/-- a power of ten with a digit too many is not written -/
theorem not_isWritable_pow {k : ℕ} (h : digitLimit ≤ k) : ¬ IsWritable (10 ^ k) := by
  rw [IsWritable, length_toDigits_pow]
  omega

/-- the text of an integer denotes it, unless there are more digits than are read -/
theorem integer?_toList_integerText (n : ℤ) : integer? (integerText n).toList =
    if IsWritable n then .ok n else .error (.tooLong (Nat.toDigits 10 n.natAbs).length) := by
  have hpadding : ∀ c ∈ Nat.toDigits 10 n.natAbs, isPadding c = false := fun c hc => by
    rw [isPadding, not_isBlank_of_isDigit (isDigit_of_mem_toDigits hc), Bool.false_and]
  have hdigits : natural? (Nat.toDigits 10 n.natAbs) =
      if IsWritable n then .ok n.natAbs else .error (.tooLong (Nat.toDigits 10 n.natAbs).length) := by
    rw [natural?_of_isDigit Nat.toDigits_ne_nil fun _ => isDigit_of_mem_toDigits, Nat.ofDigitChars_ten_toDigits]
    simp only [← Nat.not_le, ite_not]
    rfl
  rw [integer?, toList_integerText]
  by_cases hn : n < 0
  · have hsigned : ∀ c ∈ '-' :: Nat.toDigits 10 n.natAbs, isPadding c = false := by
      rw [List.forall_mem_cons]
      exact ⟨by decide, hpadding⟩
    have hvalue : -((n.natAbs : ℕ) : ℤ) = n := by omega
    rw [if_pos hn, List.singleton_append, trim_of_forall hsigned]
    simp only [hdigits]
    split
    · exact congrArg Except.ok hvalue
    · rfl
  · have hvalue : ((n.natAbs : ℕ) : ℤ) = n := by omega
    rw [if_neg hn, List.nil_append, trim_of_forall hpadding]
    -- no digit is a sign, so the digits are read as they stand
    split
    · next hsign => exact absurd (isDigit_of_mem_toDigits (hsign ▸ List.mem_cons_self)) (by decide)
    · next hsign => exact absurd (isDigit_of_mem_toDigits (hsign ▸ List.mem_cons_self)) (by decide)
    · rw [hdigits]
      split
      · exact congrArg Except.ok hvalue
      · rfl

/-- **Integers read back.** The text of an integer denotes it, if it is one that is written. -/
theorem integer?_of_isWritable {n : ℤ} (h : IsWritable n) : integer? (integerText n).toList = .ok n := by
  rw [integer?_toList_integerText, if_pos h]

/-- the digits in the text of an integer are those of its amount -/
theorem filter_isDigit_integerText (n : ℤ) : (integerText n).toList.filter Char.isDigit = Nat.toDigits 10 n.natAbs := by
  have hdigits : (Nat.toDigits 10 n.natAbs).filter Char.isDigit = Nat.toDigits 10 n.natAbs :=
    List.filter_eq_self.2 fun _ => isDigit_of_mem_toDigits
  have hsign : (if n < 0 then ['-'] else []).filter Char.isDigit = [] := by split <;> rfl
  rw [toList_integerText, List.filter_append, hsign, hdigits, List.nil_append]

theorem mem_integerText_sign_iff (n : ℤ) : '-' ∈ (integerText n).toList ↔ n < 0 := by
  have hdigits : '-' ∉ Nat.toDigits 10 n.natAbs := fun h => absurd (isDigit_of_mem_toDigits h) (by decide)
  rw [toList_integerText]
  split <;> simp [*]

theorem integerText_injective : Function.Injective integerText := by
  intro m n h
  have hamount : m.natAbs = n.natAbs := by
    have hdigits := filter_isDigit_integerText m
    rw [h, filter_isDigit_integerText] at hdigits
    rw [← Nat.ofDigitChars_ten_toDigits (n := m.natAbs), ← hdigits, Nat.ofDigitChars_ten_toDigits]
  have hsign : m < 0 ↔ n < 0 := by rw [← mem_integerText_sign_iff, h, mem_integerText_sign_iff]
  omega

end Turnstile.Text
