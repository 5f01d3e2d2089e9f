/-
Literals read back from their text.

- `stringRest?_escaped`: a code point reads back from its escape, one outside the basic plane from its two surrogates;
- `stringRest?_literal`: a string literal ends at its closing quote, whatever code points the string has, and reads back if
  no two of them are the halves of a pair;
- `literal_joined`: a pair is written as the one code point it stands for;
- `number?_integerText`: an integer reads back where nothing carries it on.
-/
import Mathlib.Data.List.Chain
import Mathlib.Tactic
import Turnstile.Json.Reader
import Turnstile.Json.Writer
import Turnstile.Proofs.Text.Decimal

namespace Turnstile.Json

/-! ## Strings -/

theorem hexValue?_hexDigit : ∀ n < 16, hexValue? (Text.hexDigit n) = some n := by decide

/-- a UTF-16 unit is written with four digits that denote it -/
theorem exists_unitEscape {n : ℕ} (h : n < 0x10000) :
    ∃ a b c d, unitEscape n = ['\\', 'u', a, b, c, d] ∧ unit? a b c d = some n := by
  refine ⟨_, _, _, _, rfl, ?_⟩
  have hdigit : ∀ m, hexValue? (Text.hexDigit (m % 16)) = some (m % 16) := fun m =>
    hexValue?_hexDigit _ (Nat.mod_lt m (by norm_num))
  simp only [unit?, hdigit, Option.bind_eq_bind, Option.bind_some, Option.pure_def, Option.some.injEq]
  omega

/-- a UTF-16 unit that is the second half of a pair stands in front of a text, as an escape -/
def StartsLow (r : List Char) : Prop :=
  ∃ a b c d rest n, r = '\\' :: 'u' :: a :: b :: c :: d :: rest ∧ unit? a b c d = some n ∧ Text.isLow n = true

theorem stringRest?_quote (done : List ℕ) (r : List Char) : stringRest? done ('"' :: r) = some (done.reverse, r) := by
  rw [stringRest?]

theorem stringRest?_plain {c : Char} (hquote : c ≠ '"') (hbackslash : c ≠ '\\') (done : List ℕ) (r : List Char) :
    stringRest? done (c :: r) = stringRest? (c.toNat :: done) r := by
  rw [stringRest?]
  all_goals simp_all

theorem stringRest?_short {e c : Char} (h : shortEscape? e = some c) (done : List ℕ) (r : List Char) :
    stringRest? done ('\\' :: e :: r) = stringRest? (c.toNat :: done) r := by
  have hu : e ≠ 'u' := by
    rintro rfl
    cases h
  rw [stringRest?, h, Option.bind_some]
  all_goals simp_all

/-- a unit stands for itself unless it is the first half of a pair and the second half follows -/
theorem stringRest?_unit {n : ℕ} (hn : n < 0x10000) {r : List Char} (halone : Text.isHigh n = true → ¬ StartsLow r)
    (done : List ℕ) : stringRest? done (unitEscape n ++ r) = stringRest? (n :: done) r := by
  obtain ⟨a, b, c, d, hescape, hunit⟩ := exists_unitEscape hn
  rw [hescape]
  simp only [List.cons_append, List.nil_append]
  rw [stringRest?.eq_def]
  split
  · simp_all
  · simp_all
  · next a₂ b₂ c₂ d₂ rest heq =>
    simp only [List.cons.injEq, true_and] at heq
    obtain ⟨rfl, rfl, rfl, rfl, rfl⟩ := heq
    rw [hunit]
    cases hunit₂ : unit? a₂ b₂ c₂ d₂ with
    | none => rfl
    | some m =>
      have hpair : (Text.isHigh n && Text.isLow m) = false := by
        by_contra hpair
        rw [Bool.not_eq_false, Bool.and_eq_true] at hpair
        exact halone hpair.1 ⟨a₂, b₂, c₂, d₂, rest, m, rfl, hunit₂, hpair.2⟩
      simp only [hpair, Bool.false_eq_true, if_false]
  · next heq =>
    simp only [List.cons.injEq, true_and] at heq
    obtain ⟨rfl, rfl, rfl, rfl, rfl⟩ := heq
    rw [hunit, Option.bind_some]
  · next hunicode heq =>
    simp only [List.cons.injEq, true_and] at heq
    exact absurd heq.2.symm (hunicode _ _ _ _ _ heq.1.symm)
  · next hescape heq =>
    simp only [List.cons.injEq] at heq
    exact absurd heq.2.symm (hescape _ _ heq.1.symm)

theorem stringRest?_pair {high low : ℕ} (hhigh : Text.isHigh high = true) (hlow : Text.isLow low = true) (done : List ℕ)
    (r : List Char) : stringRest? done (unitEscape high ++ (unitEscape low ++ r)) =
      stringRest? (Text.joinSurrogates high low :: done) r := by
  have hbound : high < 0x10000 ∧ low < 0x10000 := by
    simp only [Text.isHigh, Text.isLow, Bool.and_eq_true, decide_eq_true_eq] at hhigh hlow
    omega
  obtain ⟨a, b, c, d, hfirst, hunit⟩ := exists_unitEscape hbound.1
  obtain ⟨a', b', c', d', hsecond, hunit'⟩ := exists_unitEscape hbound.2
  rw [hfirst, hsecond]
  simp only [List.cons_append, List.nil_append]
  rw [stringRest?, hunit, hunit']
  simp [hhigh, hlow]

theorem joinSurrogates_of_astral {c : Char} (h : 0x10000 ≤ c.toNat) :
    Text.isHigh (0xD800 + (c.toNat - 0x10000) / 0x400) = true ∧ Text.isLow (0xDC00 + (c.toNat - 0x10000) % 0x400) = true ∧
      Text.joinSurrogates (0xD800 + (c.toNat - 0x10000) / 0x400) (0xDC00 + (c.toNat - 0x10000) % 0x400) = c.toNat := by
  have hmax : c.toNat < 0x110000 := by
    rcases c.valid with hc | ⟨-, hc⟩
    · exact hc.trans (by norm_num)
    · exact hc
  refine ⟨?_, ?_, ?_⟩
  · simp only [Text.isHigh, Bool.and_eq_true, decide_eq_true_eq]
    omega
  · simp only [Text.isLow, Bool.and_eq_true, decide_eq_true_eq]
    omega
  · unfold Text.joinSurrogates
    omega

/-- no character is a surrogate -/
theorem not_isSurrogate_toNat (c : Char) : Text.isSurrogate c.toNat = false := by
  have hvalid : c.toNat < 0xD800 ∨ 0xDFFF < c.toNat := by
    rcases c.valid with hc | ⟨hc, -⟩
    · exact .inl hc
    · exact .inr hc
  simp only [Text.isSurrogate, Text.isHigh, Text.isLow, Bool.or_eq_false_iff, Bool.and_eq_false_iff, decide_eq_false_iff_not]
  omega

theorem not_isHigh_toNat (c : Char) : Text.isHigh c.toNat = false :=
  (Bool.or_eq_false_iff.1 (not_isSurrogate_toNat c)).1

theorem not_isLow_toNat (c : Char) : Text.isLow c.toNat = false :=
  (Bool.or_eq_false_iff.1 (not_isSurrogate_toNat c)).2

/-- every other code point is a character -/
theorem isValidChar_of_not_isSurrogate {n : ℕ} (hn : n < 0x110000) (h : Text.isSurrogate n = false) : n.isValidChar := by
  simp only [Text.isSurrogate, Text.isHigh, Text.isLow, Bool.or_eq_false_iff, Bool.and_eq_false_iff,
    decide_eq_false_iff_not] at h
  rw [Nat.isValidChar]
  omega

/-- **A character reads back** from its form in a string literal. -/
theorem stringRest?_escapedChar (c : Char) (done : List ℕ) (r : List Char) :
    stringRest? done (escapedChar c ++ r) = stringRest? (c.toNat :: done) r := by
  have hshort : ∀ {e d : Char}, shortEscape? e = some d → c = d →
      stringRest? done ('\\' :: e :: r) = stringRest? (c.toNat :: done) r := by
    rintro e d he rfl
    exact stringRest?_short he done r
  have heq_of_toNat : ∀ {d : Char}, c.toNat = d.toNat → c = d := fun h => Char.toNat_inj.1 h
  unfold escapedChar
  split_ifs with hquote hbackslash hnewline hreturn htab hback hfeed hplain hbasic
  · exact hshort (e := '"') rfl hquote
  · exact hshort (e := '\\') rfl hbackslash
  · exact hshort (e := 'n') rfl hnewline
  · exact hshort (e := 'r') rfl hreturn
  · exact hshort (e := 't') rfl htab
  · exact hshort (e := 'b') rfl (heq_of_toNat hback)
  · exact hshort (e := 'f') rfl (heq_of_toNat hfeed)
  · exact stringRest?_plain hquote hbackslash done r
  · exact stringRest?_unit hbasic (fun hhigh => absurd hhigh (by simp [not_isHigh_toNat])) done
  · obtain ⟨hhigh, hlow, hjoin⟩ := joinSurrogates_of_astral (c := c) (by omega)
    rw [List.append_assoc, stringRest?_pair hhigh hlow, hjoin]

/-- **A code point reads back** from its form in a string literal, unless it makes a pair with what follows. -/
theorem stringRest?_escaped {n : ℕ} (hn : n < 0x110000) {r : List Char} (halone : Text.isHigh n = true → ¬ StartsLow r)
    (done : List ℕ) : stringRest? done (escaped n ++ r) = stringRest? (n :: done) r := by
  rw [escaped]
  split
  · next hsurrogate =>
    have hbasic : n < 0x10000 := by
      simp only [Text.isSurrogate, Text.isHigh, Text.isLow, Bool.or_eq_true, Bool.and_eq_true, decide_eq_true_eq] at hsurrogate
      omega
    exact stringRest?_unit hbasic halone done
  · next hcharacter =>
    rw [stringRest?_escapedChar, Text.toNat_ofNat (isValidChar_of_not_isSurrogate hn (Bool.not_eq_true _ ▸ hcharacter))]

/-- a unit looks like the second half of a pair only if it is one -/
theorem not_startsLow_unitEscape {n : ℕ} (hn : n < 0x10000) (hlow : Text.isLow n = false) (r : List Char) :
    ¬ StartsLow (unitEscape n ++ r) := by
  obtain ⟨a, b, c, d, hescape, hunit⟩ := exists_unitEscape hn
  rintro ⟨a', b', c', d', rest, m, heq, hm, hmlow⟩
  simp only [hescape, List.cons_append, List.nil_append, List.cons.injEq, true_and] at heq
  obtain ⟨rfl, rfl, rfl, rfl, -⟩ := heq
  obtain rfl : n = m := Option.some.inj (hunit.symm.trans hm)
  exact absurd hmlow (by simp [hlow])

/-- no character looks like the second half of a pair in a string literal -/
theorem not_startsLow_escapedChar (c : Char) (r : List Char) : ¬ StartsLow (escapedChar c ++ r) := by
  have hshort : ∀ {e : Char} {r : List Char}, e ≠ 'u' → ¬ StartsLow ('\\' :: e :: r) := by
    rintro e r he ⟨a, b, c, d, rest, n, heq, -⟩
    simp only [List.cons.injEq, true_and] at heq
    exact he heq.1
  unfold escapedChar
  split_ifs with hquote hbackslash hnewline hreturn htab hback hfeed hplain hbasic
  iterate 7 exact hshort (by decide)
  · rintro ⟨a, b, c, d, rest, n, heq, -⟩
    exact hbackslash (List.cons.inj heq).1
  · exact not_startsLow_unitEscape hbasic (not_isLow_toNat c) r
  · obtain ⟨hhigh, -, -⟩ := joinSurrogates_of_astral (c := c) (by omega)
    rw [List.append_assoc]
    refine not_startsLow_unitEscape ?_ ?_ _
    · simp only [Text.isHigh, Bool.and_eq_true, decide_eq_true_eq] at hhigh
      omega
    · simp only [Text.isHigh, Text.isLow, Bool.and_eq_true, Bool.and_eq_false_iff, decide_eq_true_eq,
        decide_eq_false_iff_not] at hhigh ⊢
      omega

/-- what is no second half of a pair does not look like one in a string literal -/
theorem not_startsLow_escaped {n : ℕ} (hlow : Text.isLow n = false) (r : List Char) : ¬ StartsLow (escaped n ++ r) := by
  rw [escaped]
  split
  · next hsurrogate =>
    have hbasic : n < 0x10000 := by
      simp only [Text.isSurrogate, Text.isHigh, hlow, Bool.or_false, Bool.and_eq_true, decide_eq_true_eq] at hsurrogate
      omega
    exact not_startsLow_unitEscape hbasic hlow r
  · exact not_startsLow_escapedChar _ r

theorem not_startsLow_quote (r : List Char) : ¬ StartsLow ('"' :: r) := by
  rintro ⟨a, b, c, d, rest, n, heq, -⟩
  cases heq

/-- code points among which no two make a pair read back -/
theorem stringRest?_flatMap {ns : List ℕ} (hmax : ∀ n ∈ ns, n < 0x110000)
    (hpair : ns.IsChain fun high low => ¬ (Text.isHigh high = true ∧ Text.isLow low = true)) (done : List ℕ)
    (r : List Char) : stringRest? done (ns.flatMap escaped ++ '"' :: r) = some (done.reverse ++ ns, r) := by
  induction ns generalizing done with
  | nil => rw [List.flatMap_nil, List.nil_append, stringRest?_quote, List.append_nil]
  | cons n ns ih =>
    obtain ⟨hn, hns⟩ := List.forall_mem_cons.1 hmax
    have halone : Text.isHigh n = true → ¬ StartsLow (ns.flatMap escaped ++ '"' :: r) := by
      intro hhigh
      cases ns with
      | nil => exact not_startsLow_quote r
      | cons m ns =>
        have hlow : Text.isLow m = false := by simpa [hhigh] using hpair.rel
        rw [List.flatMap_cons, List.append_assoc]
        exact not_startsLow_escaped hlow _
    rw [List.flatMap_cons, List.append_assoc, stringRest?_escaped hn halone, ih hns hpair.tail, List.reverse_cons,
      List.append_assoc, List.singleton_append]

/-- a string literal, after its opening quote, reads back and ends at its closing quote -/
theorem stringRest?_literal {σ : Type} [Text.CodeText σ] {s : σ} (hpair : Text.CodeText.NoPair s) (r : List Char) :
    stringRest? [] ((literal s).tail ++ r) = some (Text.CodeText.points s, r) := by
  have htail : (literal s).tail ++ r = (Text.CodeText.points s).flatMap escaped ++ '"' :: r := by simp [literal]
  have hchain := List.isChain_iff_forall_rel_of_append_cons_cons.2 fun high low before after => hpair before high low after
  rw [htail, stringRest?_flatMap (fun n => Text.CodeText.points_lt) hchain, List.reverse_nil, List.nil_append]

/-- the characters of a string make no pair -/
theorem noPair_string (s : String) : Text.CodeText.NoPair s := by
  intro before high low after hpoints hpair
  have hmem : high ∈ s.toList.map Char.toNat := by
    have hsplit : s.toList.map Char.toNat = before ++ high :: low :: after := hpoints
    rw [hsplit]
    exact List.mem_append_right _ List.mem_cons_self
  obtain ⟨c, -, rfl⟩ := List.mem_map.1 hmem
  exact absurd hpair.1 (by simp [not_isHigh_toNat])

/-! ## Joined pairs -/

section Joined

variable {high low : ℕ}

theorem joinSurrogates_range (hhigh : Text.isHigh high = true) (hlow : Text.isLow low = true) :
    0x10000 ≤ Text.joinSurrogates high low ∧ Text.joinSurrogates high low < 0x110000 := by
  simp only [Text.isHigh, Text.isLow, Bool.and_eq_true, decide_eq_true_eq] at hhigh hlow
  unfold Text.joinSurrogates
  omega

theorem not_isSurrogate_joinSurrogates (hhigh : Text.isHigh high = true) (hlow : Text.isLow low = true) :
    Text.isSurrogate (Text.joinSurrogates high low) = false := by
  have hrange := (joinSurrogates_range hhigh hlow).1
  simp only [Text.isSurrogate, Text.isHigh, Text.isLow, Bool.or_eq_false_iff, Bool.and_eq_false_iff, decide_eq_false_iff_not]
  omega

/-- a character outside the basic plane is escaped as two units -/
theorem escapedChar_of_astral {c : Char} (h : 0x10000 ≤ c.toNat) : escapedChar c =
    unitEscape (0xD800 + (c.toNat - 0x10000) / 0x400) ++ unitEscape (0xDC00 + (c.toNat - 0x10000) % 0x400) := by
  have hne : ∀ {d : Char}, d.toNat < 0x10000 → c ≠ d := by
    rintro d hd rfl
    omega
  rw [escapedChar, if_neg (hne (by decide)), if_neg (hne (by decide)), if_neg (hne (by decide)), if_neg (hne (by decide)),
    if_neg (hne (by decide)), if_neg (by omega), if_neg (by omega), if_neg (by omega), if_neg (by omega)]

/-- the code point of a pair is escaped as the two halves are -/
theorem escaped_joinSurrogates (hhigh : Text.isHigh high = true) (hlow : Text.isLow low = true) :
    escaped (Text.joinSurrogates high low) = escaped high ++ escaped low := by
  obtain ⟨hmin, hmax⟩ := joinSurrogates_range hhigh hlow
  have hplain := not_isSurrogate_joinSurrogates hhigh hlow
  have htoNat := Text.toNat_ofNat (isValidChar_of_not_isSurrogate hmax hplain)
  have hhalves : Text.isSurrogate high = true ∧ Text.isSurrogate low = true := by
    simp [Text.isSurrogate, hhigh, hlow]
  have hunits : 0xD800 + (Text.joinSurrogates high low - 0x10000) / 0x400 = high ∧
      0xDC00 + (Text.joinSurrogates high low - 0x10000) % 0x400 = low := by
    simp only [Text.isHigh, Text.isLow, Bool.and_eq_true, decide_eq_true_eq] at hhigh hlow
    unfold Text.joinSurrogates
    omega
  calc
    escaped (Text.joinSurrogates high low) = escapedChar (Char.ofNat (Text.joinSurrogates high low)) := by
      rw [escaped, hplain, if_neg Bool.false_ne_true]
    _ = unitEscape high ++ unitEscape low := by
      rw [escapedChar_of_astral (htoNat.symm ▸ hmin), htoNat, hunits.1, hunits.2]
    _ = escaped high ++ escaped low := by rw [escaped, escaped, if_pos hhalves.1, if_pos hhalves.2]

/-- joining pairs does not show in a string literal -/
theorem flatMap_escaped_joinPairs (ns : List ℕ) : (Text.joinPairs ns).flatMap escaped = ns.flatMap escaped := by
  induction ns using Text.joinPairs.induct with
  | case1 high low r hpair ih =>
    obtain ⟨hhigh, hlow⟩ := Bool.and_eq_true_iff.1 hpair
    rw [Text.joinPairs, if_pos hpair, List.flatMap_cons, ih, escaped_joinSurrogates hhigh hlow, List.append_assoc]
    rfl
  | case2 high low r hpair ih =>
    rw [Text.joinPairs, if_neg hpair, List.flatMap_cons, ih]
    rfl
  | case3 ns hshort => rw [Text.joinPairs.eq_2 ns hshort]

theorem joinPairs_eq_self {ns : List ℕ}
    (h : ns.IsChain fun high low => ¬ (Text.isHigh high = true ∧ Text.isLow low = true)) : Text.joinPairs ns = ns := by
  induction ns using Text.joinPairs.induct with
  | case1 high low r hpair ih => exact absurd (Bool.and_eq_true_iff.1 hpair) h.rel
  | case2 high low r hpair ih => rw [Text.joinPairs, if_neg hpair, ih h.tail]
  | case3 ns hshort => rw [Text.joinPairs.eq_2 ns hshort]

/-- what joining pairs puts first is no second half, unless it stood first before -/
theorem not_isLow_head_joinPairs {ns : List ℕ} (h : ∀ n ∈ ns.head?, Text.isLow n = false) :
    ∀ n ∈ (Text.joinPairs ns).head?, Text.isLow n = false := by
  induction ns using Text.joinPairs.induct with
  | case1 high low r hpair ih =>
    obtain ⟨hhigh, hlow⟩ := Bool.and_eq_true_iff.1 hpair
    rw [Text.joinPairs, if_pos hpair]
    intro n hn
    obtain rfl := Option.some.inj hn
    exact (Bool.or_eq_false_iff.1 (not_isSurrogate_joinSurrogates hhigh hlow)).2
  | case2 high low r hpair ih =>
    rw [Text.joinPairs, if_neg hpair]
    rintro n ⟨⟩
    exact h high rfl
  | case3 ns hshort => rwa [Text.joinPairs.eq_2 ns hshort]

/-- no pairs are left, and none come into being -/
theorem isChain_joinPairs (ns : List ℕ) :
    (Text.joinPairs ns).IsChain fun high low => ¬ (Text.isHigh high = true ∧ Text.isLow low = true) := by
  induction ns using Text.joinPairs.induct with
  | case1 high low r hpair ih =>
    obtain ⟨hhigh, hlow⟩ := Bool.and_eq_true_iff.1 hpair
    have hplain := not_isSurrogate_joinSurrogates hhigh hlow
    rw [Text.joinPairs, if_pos hpair, List.isChain_cons]
    exact ⟨fun m _ h => absurd h.1 (by simp [(Bool.or_eq_false_iff.1 hplain).1]), ih⟩
  | case2 high low r hpair ih =>
    rw [Text.joinPairs, if_neg hpair, List.isChain_cons]
    refine ⟨fun m hm h => ?_, ih⟩
    have hlow : Text.isLow low = false := by simpa [h.1] using hpair
    have hhead : Text.isLow m = false := not_isLow_head_joinPairs (by rintro n ⟨⟩; exact hlow) m hm
    exact absurd h.2 (by simp [hhead])
  | case3 ns hshort =>
    rw [Text.joinPairs.eq_2 ns hshort]
    match ns with
    | [] => exact .nil
    | [n] => exact .singleton n
    | high :: low :: r => exact absurd rfl (hshort high low r)

/-- joining pairs adds characters only -/
theorem mem_joinPairs {n : ℕ} {ns : List ℕ} (h : n ∈ Text.joinPairs ns) : n.isValidChar ∨ n ∈ ns := by
  induction ns using Text.joinPairs.induct with
  | case1 high low r hpair ih =>
    obtain ⟨hhigh, hlow⟩ := Bool.and_eq_true_iff.1 hpair
    rw [Text.joinPairs, if_pos hpair, List.mem_cons] at h
    rcases h with hn | h
    · have hplain := not_isSurrogate_joinSurrogates hhigh hlow
      exact .inl (hn ▸ isValidChar_of_not_isSurrogate (joinSurrogates_range hhigh hlow).2 hplain)
    · exact (ih h).imp_right fun hr => List.mem_cons_of_mem _ (List.mem_cons_of_mem _ hr)
  | case2 high low r hpair ih =>
    rw [Text.joinPairs, if_neg hpair, List.mem_cons] at h
    rcases h with rfl | h
    · exact .inr List.mem_cons_self
    · exact (ih h).imp_right (List.mem_cons_of_mem _)
  | case3 ns hshort =>
    rw [Text.joinPairs.eq_2 ns hshort] at h
    exact .inr h

variable {σ : Type} [Text.CodeText σ] (s : σ)

theorem points_joined : Text.CodeText.points (Text.CodeText.joined s) = Text.joinPairs (Text.CodeText.points s) :=
  Text.CodeText.points_ofPoints fun _ hn => (mem_joinPairs hn).imp_right fun h => ⟨s, h⟩

/-- **Joining the pairs of a text does not show in its literal**, and leaves no pairs. -/
theorem literal_joined : literal (Text.CodeText.joined s) = literal s := by
  rw [literal, points_joined, flatMap_escaped_joinPairs, literal]

theorem noPair_joined : Text.CodeText.NoPair (Text.CodeText.joined s) := by
  intro before high low after h
  rw [points_joined] at h
  exact List.isChain_iff_forall_rel_of_append_cons_cons.1 (isChain_joinPairs _) h

theorem joined_eq_self {s : σ} (h : Text.CodeText.NoPair s) : Text.CodeText.joined s = s := by
  rw [Text.CodeText.joined, joinPairs_eq_self, Text.CodeText.ofPoints_points]
  exact List.isChain_iff_forall_rel_of_append_cons_cons.2 fun high low before after => h before high low after

end Joined

/-! ## Numbers -/

/-- nothing in front of a text carries a number on: no digit, point or exponent -/
def EndsNumber (rest : List Char) : Prop :=
  ∀ c ∈ rest.head?, c.isDigit = false ∧ c ≠ '.' ∧ c ≠ 'e' ∧ c ≠ 'E'

theorem endsNumber_cons {c : Char} (h : c.isDigit = false ∧ c ≠ '.' ∧ c ≠ 'e' ∧ c ≠ 'E') (r : List Char) :
    EndsNumber (c :: r) := by
  intro d hd
  obtain rfl := Option.some.inj hd
  exact h

theorem digitsValue_eq (ds : List Char) : digitsValue ds = Nat.ofDigitChars 10 ds 0 := by
  have hstep : ∀ (ds : List Char) (n : ℕ),
      ds.foldl (fun n d => n * 10 + (d.toNat - 48)) n = Nat.ofDigitChars 10 ds n := by
    intro ds
    induction ds with
    | nil => exact fun _ => rfl
    | cons d ds ih =>
      intro n
      rw [List.foldl_cons, ih, Nat.ofDigitChars_cons, Nat.mul_comm n 10]
      rfl
  exact hstep ds 0

section Numbers

variable {σ : Type} {ds rest : List Char}

theorem takeWhile_digits (hds : ∀ c ∈ ds, c.isDigit = true) (hrest : EndsNumber rest) :
    (ds ++ rest).takeWhile Char.isDigit = ds ∧ (ds ++ rest).dropWhile Char.isDigit = rest := by
  rw [List.takeWhile_append_of_pos hds, List.dropWhile_append_of_pos hds]
  cases rest with
  | nil => simp
  | cons c rest => simp [(hrest c rfl).1]

/-- a run of digits that nothing carries on is a whole number -/
theorem number?_digits (hne : ds ≠ []) (hds : ∀ c ∈ ds, c.isDigit = true) (hrest : EndsNumber rest) :
    number? (ds ++ rest) = some ((int (digitsValue ds : ℕ) : Json σ), rest) ∧
      number? ('-' :: (ds ++ rest)) = some ((int (-(digitsValue ds : ℕ)) : Json σ), rest) := by
  obtain ⟨htake, hdrop⟩ := takeWhile_digits hds hrest
  obtain ⟨d, ds, rfl⟩ := List.exists_cons_of_ne_nil hne
  have hsign : d ≠ '-' := by
    rintro rfl
    exact absurd (hds _ List.mem_cons_self) (by decide)
  rw [List.cons_append] at htake hdrop ⊢
  rw [number?, number?]
  · rw [htake, hdrop]
    cases rest with
    | nil => simp
    | cons c rest =>
      obtain ⟨-, hpoint, he, hE⟩ := hrest c rfl
      simp [hpoint, he, hE]
  · intro r heq
    exact hsign (List.cons.inj heq).1

/-- an integer reads back where nothing carries it on -/
theorem number?_integerText (n : ℤ) (hrest : EndsNumber rest) :
    number? ((Text.integerText n).toList ++ rest) = some ((int n : Json σ), rest) := by
  have hdigits : ∀ c ∈ Nat.toDigits 10 n.natAbs, c.isDigit = true := fun _ => Text.isDigit_of_mem_toDigits
  obtain ⟨hpositive, hnegative⟩ := number?_digits (σ := σ) Nat.toDigits_ne_nil hdigits hrest
  rw [digitsValue_eq, Nat.ofDigitChars_ten_toDigits] at hpositive hnegative
  rw [Text.toList_integerText]
  by_cases hn : n < 0
  · have hvalue : -((n.natAbs : ℕ) : ℤ) = n := by omega
    rw [if_pos hn, List.singleton_append, List.cons_append, hnegative, hvalue]
  · have hvalue : ((n.natAbs : ℕ) : ℤ) = n := by omega
    rw [if_neg hn, List.nil_append, hpositive, hvalue]

end Numbers

end Turnstile.Json
