/-
Texts by their code points.

A `String` has characters only. A `PointText` has any code points, also the surrogates that stand for no character. What
reads and writes texts does so for both of them, through `CodeText`.
-/

namespace Turnstile.Text

/-- whether a code point is the first half of a pair of surrogates -/
def isHigh (n : Nat) : Bool := 0xD800 ≤ n && n < 0xDC00

/-- whether a code point is the second half of a pair of surrogates -/
def isLow (n : Nat) : Bool := 0xDC00 ≤ n && n < 0xE000

def isSurrogate (n : Nat) : Bool := isHigh n || isLow n

/-- two halves as the code point they stand for -/
def joinSurrogates (high low : Nat) : Nat := 0x10000 + (high - 0xD800) * 0x400 + (low - 0xDC00)

/-- the halves of pairs that stand side by side, joined -/
def joinPairs : List Nat → List Nat
  | high :: low :: r => if isHigh high && isLow low then joinSurrogates high low :: joinPairs r else high :: joinPairs (low :: r)
  | ns => ns

/-- any code points one after the other -/
abbrev PointText := List (Fin 0x110000)

/-- what has the code points of a text; a text may have any code points of characters and of other texts of its type -/
class CodeText (σ : Type) where
  points : σ → List Nat
  ofPoints : List Nat → σ
  ofPoints_points (s : σ) : ofPoints (points s) = s
  points_ofPoints {ns : List Nat} (h : ∀ n ∈ ns, n.isValidChar ∨ ∃ s, n ∈ points s) : points (ofPoints ns) = ns
  points_lt {s : σ} {n : Nat} (h : n ∈ points s) : n < 0x110000

theorem lt_of_isValidChar {n : Nat} (h : n.isValidChar) : n < 0x110000 := by
  rcases h with hn | ⟨-, hn⟩
  · exact Nat.lt_trans hn (by decide)
  · exact hn

/-- every code point of a character is that of its character -/
theorem toNat_ofNat {n : Nat} (h : n.isValidChar) : (Char.ofNat n).toNat = n := by
  rw [Char.ofNat, dif_pos h]
  rfl

theorem map_ofNat_toNat (cs : List Char) : (cs.map Char.toNat).map Char.ofNat = cs := by
  rw [List.map_map]
  exact List.map_id'' Char.ofNat_toNat cs

instance CodeText.instString : CodeText String where
  points s := s.toList.map Char.toNat
  ofPoints ns := String.ofList (ns.map Char.ofNat)
  ofPoints_points s := by rw [map_ofNat_toNat, String.ofList_toList]
  points_ofPoints {ns} h := by
    have hvalid : ∀ n ∈ ns, (Char.ofNat n).toNat = n := by
      intro n hn
      rcases h n hn with hchar | ⟨s, hs⟩
      · exact toNat_ofNat hchar
      · obtain ⟨c, -, rfl⟩ := List.mem_map.1 hs
        exact toNat_ofNat c.valid
    rw [String.toList_ofList, List.map_map]
    exact (List.map_congr_left hvalid).trans (List.map_id' ns)
  points_lt h := by
    obtain ⟨c, -, rfl⟩ := List.mem_map.1 h
    exact lt_of_isValidChar c.valid

instance CodeText.instPointText : CodeText PointText where
  points s := s.map Fin.val
  ofPoints ns := ns.map (Fin.ofNat 0x110000)
  ofPoints_points s := by
    rw [List.map_map]
    exact List.map_id'' Fin.ofNat_val_eq_self s
  points_ofPoints {ns} h := by
    have hbound : ∀ n ∈ ns, (Fin.ofNat 0x110000 n).val = n := by
      intro n hn
      rcases h n hn with hchar | ⟨s, hs⟩
      · exact Nat.mod_eq_of_lt (lt_of_isValidChar hchar)
      · obtain ⟨m, -, rfl⟩ := List.mem_map.1 hs
        exact Nat.mod_eq_of_lt m.isLt
    rw [List.map_map]
    exact (List.map_congr_left hbound).trans (List.map_id' ns)
  points_lt h := by
    obtain ⟨n, -, rfl⟩ := List.mem_map.1 h
    exact n.isLt

namespace CodeText

variable {σ : Type} [CodeText σ]

/-- the text of some characters -/
def ofString (s : String) : σ := ofPoints (s.toList.map Char.toNat)

/-- the characters of a text, with `\0` for a surrogate -/
def chars (s : σ) : List Char := (points s).map Char.ofNat

@[simp] theorem chars_ofString (s : String) : chars (ofString s : σ) = s.toList := by
  have hchars : ∀ n ∈ s.toList.map Char.toNat, n.isValidChar ∨ ∃ s : σ, n ∈ points s := by
    intro n hn
    obtain ⟨c, -, rfl⟩ := List.mem_map.1 hn
    exact .inl c.valid
  rw [chars, ofString, points_ofPoints hchars, map_ofNat_toNat]

@[simp] theorem ofString_string (s : String) : ofString s = s := ofPoints_points s

@[simp] theorem chars_string (s : String) : chars s = s.toList := map_ofNat_toNat s.toList

/-- no first half of a pair of surrogates stands right before a second half -/
def NoPair (s : σ) : Prop :=
  ∀ before high low after, points s = before ++ high :: low :: after → ¬ (isHigh high = true ∧ isLow low = true)

/-- a text with one code point for each pair of surrogates -/
def joined (s : σ) : σ := ofPoints (joinPairs (points s))

/-- a text of characters, or the place of its first surrogates with these surrogates -/
def string? (s : σ) : Except (Nat × List Nat) String :=
  match (points s).dropWhile (!isSurrogate ·) with
  | [] => .ok (String.ofList (chars s))
  | rest => .error ((points s).length - rest.length, rest.takeWhile isSurrogate)

end CodeText

end Turnstile.Text
