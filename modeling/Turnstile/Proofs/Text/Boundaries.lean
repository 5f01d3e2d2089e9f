/-
Characters and the bytes they begin at.

A character of a text begins where the characters in front of it end.
- `boundary_iff`: the boundaries of a text are the byte lengths of its beginnings;
- `not_boundary_of_inside`: no offset inside a character is one;
- `sliceText_char`: the slice from the beginning of a character to its end is that character.
-/
import Turnstile.Proofs.Emit.Weaving

namespace Turnstile

/-- how many bytes some characters take -/
def byteLength (cs : List Char) : ℕ := (cs.map Char.utf8Size).sum

@[simp] theorem byteLength_nil : byteLength [] = 0 := rfl

@[simp] theorem byteLength_cons (c : Char) (cs : List Char) : byteLength (c :: cs) = c.utf8Size + byteLength cs := by
  simp [byteLength]

@[simp] theorem byteLength_append (cs ds : List Char) : byteLength (cs ++ ds) = byteLength cs + byteLength ds := by
  simp [byteLength]

theorem utf8ByteSize_ofList (cs : List Char) : (String.ofList cs).utf8ByteSize = byteLength cs := by
  induction cs with
  | nil => rfl
  | cons c cs ih =>
    have hcons : String.ofList (c :: cs) = String.singleton c ++ String.ofList cs := by
      apply String.toList_injective
      simp
    rw [hcons, String.utf8ByteSize_append, String.utf8ByteSize_singleton, ih, byteLength_cons]

theorem byteLength_toList (text : String) : byteLength text.toList = text.toUTF8.size := by
  rw [← utf8ByteSize_ofList, String.ofList_toList]
  rfl

variable {text : String} {i : ℕ} {c : Char} {front back : List Char}

/-- **Boundaries are where some first characters of a text end.** -/
theorem boundary_iff : Boundary text i ↔ ∃ front back, text.toList = front ++ back ∧ byteLength front = i := by
  unfold Boundary
  rw [String.Pos.Raw.isValid_iff_exists_take_toList]
  constructor
  · rintro ⟨n, hn⟩
    refine ⟨text.toList.take n, text.toList.drop n, (List.take_append_drop n _).symm, ?_⟩
    rw [← utf8ByteSize_ofList]
    exact hn.symm
  · rintro ⟨front, back, htext, rfl⟩
    refine ⟨front.length, ?_⟩
    rw [htext, List.take_left, utf8ByteSize_ofList]

theorem boundary_of_append (htext : text.toList = front ++ back) : Boundary text (byteLength front) :=
  boundary_iff.2 ⟨front, back, htext, rfl⟩

/-- what begins a text and is not longer than another beginning begins that one too -/
theorem byteLength_le_or_le {front' back' : List Char} (h : front ++ c :: back = front' ++ back') :
    byteLength front' ≤ byteLength front ∨ byteLength front + c.utf8Size ≤ byteLength front' := by
  rcases List.append_eq_append_iff.1 h with ⟨rest, hfront, hrest⟩ | ⟨rest, hfront, -⟩
  · cases rest with
    | nil =>
      left
      simp [hfront]
    | cons d rest =>
      right
      obtain ⟨rfl, -⟩ := List.cons.inj hrest
      rw [hfront, byteLength_append, byteLength_cons]
      omega
  · left
    rw [hfront, byteLength_append]
    omega

/-- inside a character there is no boundary -/
theorem not_boundary_of_inside (htext : text.toList = front ++ c :: back) (hlt : byteLength front < i)
    (hgt : i < byteLength front + c.utf8Size) : ¬ Boundary text i := by
  intro h
  obtain ⟨front', back', htext', rfl⟩ := boundary_iff.1 h
  rcases byteLength_le_or_le (htext.symm.trans htext') with hle | hle <;> omega

theorem byteLength_add_le_size (htext : text.toList = front ++ back) :
    byteLength front + byteLength back = text.toUTF8.size := by
  rw [← byteLength_append, ← htext, byteLength_toList]

/-- the slice over a character is that character -/
theorem sliceText_char (htext : text.toList = front ++ c :: back) :
    sliceText text.toUTF8 (byteLength front) (byteLength front + c.utf8Size) = String.singleton c := by
  have hnext : text.toList = (front ++ [c]) ++ back := by simp [htext]
  have hend : byteLength (front ++ [c]) = byteLength front + c.utf8Size := by simp
  have hi : Boundary text (byteLength front) := boundary_of_append htext
  have hj : Boundary text (byteLength front + c.utf8Size) := hend ▸ boundary_of_append hnext
  have hparts : text = String.ofList front ++ (String.singleton c ++ String.ofList back) := by
    apply String.toList_injective
    simp [htext]
  have hfront : byteLength front = (String.ofList front).toByteArray.size := by
    rw [String.size_toByteArray, utf8ByteSize_ofList]
  have hchar : c.utf8Size = (String.singleton c).toByteArray.size := by
    rw [String.size_toByteArray, String.utf8ByteSize_singleton]
  rw [← String.toByteArray_inj]
  calc (sliceText text.toUTF8 (byteLength front) (byteLength front + c.utf8Size)).toByteArray
      = text.toUTF8.extract (byteLength front + 0) (byteLength front + c.utf8Size) :=
        toByteArray_sliceText hi hj (Nat.le_add_right _ _)
    _ = (String.singleton c ++ String.ofList back).toByteArray.extract 0 c.utf8Size := by
        rw [String.toUTF8_eq_toByteArray, hparts, String.toByteArray_append, hfront, ByteArray.extract_append_size_add]
    _ = (String.singleton c).toByteArray := by
        rw [String.toByteArray_append, hchar, ByteArray.extract_append_size_left,
          ByteArray.extract_zero_size]

end Turnstile
