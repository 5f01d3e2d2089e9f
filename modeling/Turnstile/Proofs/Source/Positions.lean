/-
Positions below a line that is put in front of a text.

Line starts and columns are computed from bytes; a newline byte belongs to a newline character and to no other.
- `startsAfter`: the line starts of a text by recursion along its bytes;
- `Below`: one source text is another with a line in front of it, as far as bytes and line starts go;
- `Below.position_add`, `Below.slice?_add`: an offset has the same column one line further down, and the text between two
  offsets is the same, also for offsets inside characters and past the end.
-/
import Mathlib.Data.Int.Notation
import Mathlib.Data.List.Basic
import Turnstile.Source.Text

namespace Turnstile

/-! ## Newline bytes -/

/-- only a newline has the byte of a newline in its UTF-8 form -/
theorem eq_newline_of_mem_utf8EncodeChar {c : Char} (h : 10 ∈ String.utf8EncodeChar c) : c = '\n' := by
  have hbyte : ∀ v : ℕ, v < 256 → 10 = UInt8.ofNat v → v = 10 := by
    intro v hv he
    have hmod : 10 = v % 256 := by simpa using congrArg UInt8.toNat he
    omega
  have hvalue : c.val.toNat = 10 := by
    simp only [String.utf8EncodeChar] at h
    split at h
    · rw [List.mem_singleton] at h
      exact hbyte _ (by omega) h
    · -- the bytes of longer forms are 128 and more
      split at h
      · simp only [List.mem_cons, List.not_mem_nil, or_false] at h
        rcases h with h | h <;> have := hbyte _ (by omega) h <;> omega
      · split at h
        · simp only [List.mem_cons, List.not_mem_nil, or_false] at h
          rcases h with h | h | h <;> have := hbyte _ (by omega) h <;> omega
        · simp only [List.mem_cons, List.not_mem_nil, or_false] at h
          rcases h with h | h | h | h <;> have := hbyte _ (by omega) h <;> omega
  exact Char.ext (UInt32.toNat_inj.1 hvalue)

/-- the bytes of a text, as its positions are computed from them -/
def utf8Bytes (s : String) : List UInt8 := s.toUTF8.data.toList

theorem utf8Bytes_eq (s : String) : utf8Bytes s = s.toList.flatMap String.utf8EncodeChar := by
  have h : s.toByteArray = s.toList.utf8Encode := by
    rw [← String.toByteArray_ofList, String.ofList_toList]
  rw [utf8Bytes, String.toUTF8_eq_toByteArray, h, List.utf8Encode, List.toList_data_toByteArray]

theorem utf8Bytes_append (s t : String) : utf8Bytes (s ++ t) = utf8Bytes s ++ utf8Bytes t := by
  simp [utf8Bytes_eq]

theorem length_utf8Bytes (s : String) : (utf8Bytes s).length = s.utf8ByteSize := by
  rw [utf8Bytes, String.toUTF8_eq_toByteArray, Array.length_toList, ← String.size_toByteArray]
  rfl

theorem newline_notMem_utf8Bytes {s : String} (h : '\n' ∉ s.toList) : 10 ∉ utf8Bytes s := by
  rw [utf8Bytes_eq, List.mem_flatMap]
  rintro ⟨c, hc, hten⟩
  rw [eq_newline_of_mem_utf8EncodeChar hten] at hc
  exact h hc

/-! ## Line starts -/

/-- one past every newline byte, the first byte being at `i` -/
def startsAfter (i : ℕ) : List UInt8 → List ℕ
  | [] => []
  | b :: bytes => if b = 10 then (i + 1) :: startsAfter (i + 1) bytes else startsAfter (i + 1) bytes

theorem lineStartsOf_eq (bytes : List UInt8) : lineStartsOf bytes = 0 :: startsAfter 0 bytes := by
  have hfold : ∀ (bytes : List UInt8) (i : ℕ) (starts : List ℕ),
      (bytes.foldl (fun p b => (p.1 + 1, if b = 10 then (p.1 + 1) :: p.2 else p.2)) (i, starts)).2 =
        (startsAfter i bytes).reverse ++ starts := by
    intro bytes
    induction bytes with
    | nil => intros; rfl
    | cons b bytes ih =>
      intro i starts
      rw [List.foldl_cons, ih, startsAfter]
      split_ifs <;> simp
  have hstarts : (lineStartsOf bytes).reverse = (startsAfter 0 bytes).reverse ++ [0] := by
    rw [lineStartsOf, List.reverse_reverse]
    exact hfold bytes 0 [0]
  rw [← List.reverse_reverse (lineStartsOf bytes), hstarts, List.reverse_append, List.reverse_reverse]
  rfl

theorem startsAfter_append (i : ℕ) (front bytes : List UInt8) :
    startsAfter i (front ++ bytes) = startsAfter i front ++ startsAfter (i + front.length) bytes := by
  induction front generalizing i with
  | nil => rfl
  | cons b front ih =>
    have hplace : i + (b :: front).length = i + 1 + front.length := by
      rw [List.length_cons]
      omega
    rw [List.cons_append, startsAfter, startsAfter, ih, hplace]
    split_ifs <;> rfl

theorem startsAfter_eq_nil {bytes : List UInt8} (h : 10 ∉ bytes) (i : ℕ) : startsAfter i bytes = [] := by
  induction bytes generalizing i with
  | nil => rfl
  | cons b bytes ih =>
    rw [List.mem_cons, not_or] at h
    rw [startsAfter, if_neg (Ne.symm h.1), ih h.2]

theorem startsAfter_add (i k : ℕ) (bytes : List UInt8) :
    startsAfter (i + k) bytes = (startsAfter i bytes).map (· + k) := by
  induction bytes generalizing i with
  | nil => rfl
  | cons b bytes ih =>
    have hplace : i + k + 1 = i + 1 + k := by omega
    rw [startsAfter, startsAfter, hplace, ih]
    split_ifs <;> rfl

/-- a line in front: one more line start, and all others further on -/
theorem lineStartsOf_line_append {line : List UInt8} (h : 10 ∉ line) (bytes : List UInt8) :
    lineStartsOf (line ++ 10 :: bytes) = 0 :: (lineStartsOf bytes).map (· + (line.length + 1)) := by
  have hshift := startsAfter_add 0 (line.length + 1) bytes
  rw [lineStartsOf_eq, lineStartsOf_eq, startsAfter_append, startsAfter_eq_nil h, startsAfter, if_pos rfl,
    List.map_cons, ← hshift]
  simp

/-! ## Columns -/

theorem charactersBegun_append (front data : ByteArray) (i n count : ℕ) :
    SourceText.charactersBegun (front ++ data) (i + front.size) n count = SourceText.charactersBegun data i n count := by
  induction count generalizing i n with
  | zero => rfl
  | succ count ih =>
    have hget : (front ++ data)[i + front.size]? = data[i]? := by
      by_cases h : i < data.size
      · rw [getElem?_pos data i h, getElem?_pos _ _ (by rw [ByteArray.size_append]; omega),
          ByteArray.getElem_append_right (by omega)]
        simp
      · rw [getElem?_neg data i h, getElem?_neg _ _ (by rw [ByteArray.size_append]; omega)]
    rw [SourceText.charactersBegun, SourceText.charactersBegun, hget]
    cases data[i]? with
    | none => rfl
    | some b =>
      have hplace : i + front.size + 1 = i + 1 + front.size := by omega
      simp only [hplace, ih]

/-! ## A line in front -/

/-- a text is another with a line of a number of bytes in front of it -/
structure Below (bytes : ℕ) (src src' : SourceText) : Prop where
  data : ∃ front : ByteArray, front.size = bytes ∧ src'.data = front ++ src.data
  lineStarts : src'.lineStarts = 0 :: src.lineStarts.map (· + bytes)
  /-- the first line starts with the text -/
  startsAtZero : 0 ∈ src.lineStarts

namespace Below

variable {bytes : ℕ} {src src' : SourceText}

theorem size_eq (h : Below bytes src src') : src'.data.size = src.data.size + bytes := by
  obtain ⟨front, hsize, hdata⟩ := h.data
  rw [hdata, ByteArray.size_append, hsize, Nat.add_comm]

theorem clamp_add (h : Below bytes src src') (offset : ℕ) :
    src'.clamp ((offset + bytes : ℕ) : ℤ) = src.clamp offset + bytes := by
  have hsize := h.size_eq
  simp only [SourceText.clamp]
  rw [if_neg (by omega), if_neg (by omega)]
  omega

/-- one line further down, in the same column -/
theorem position_add (h : Below bytes src src') (offset : ℕ) :
    src'.position ((offset + bytes : ℕ) : ℤ) = ⟨(src.position offset).line + 1, (src.position offset).column⟩ := by
  set line := src.lineStarts.countP fun (start : ℕ) => (start : ℤ) ≤ (offset : ℤ) with hline
  have hcount : (src'.lineStarts.countP fun (start : ℕ) => (start : ℤ) ≤ ((offset + bytes : ℕ) : ℤ)) = line + 1 := by
    rw [h.lineStarts, List.countP_cons_of_pos (by simp; omega), List.countP_map, hline]
    congr 1
    apply List.countP_congr
    intro start _
    simp
  have hpos : 0 < line := List.countP_pos_iff.2 ⟨0, h.startsAtZero, by simp⟩
  have hlen : line ≤ src.lineStarts.length := List.countP_le_length
  have hstart : src'.lineStarts.getD (line + 1 - 1) 0 = src.lineStarts.getD (line - 1) 0 + bytes := by
    obtain ⟨i, hi⟩ : ∃ i, line = i + 1 := ⟨line - 1, by omega⟩
    have hlt : i < src.lineStarts.length := by omega
    simp [h.lineStarts, hi, hlt]
  obtain ⟨front, hsize, hdata⟩ := h.data
  simp only [SourceText.position]
  rw [hcount, ← hline, if_neg (by omega), if_neg (by omega), hstart, h.clamp_add, Nat.add_sub_add_right, hdata, ← hsize,
    charactersBegun_append]

theorem slice?_add (h : Below bytes src src') (start stop : ℕ) :
    src'.slice? ((start + bytes : ℕ) : ℤ) ((stop + bytes : ℕ) : ℤ) = src.slice? start stop := by
  obtain ⟨front, hsize, hdata⟩ := h.data
  rw [SourceText.slice?, SourceText.slice?, SourceText.bytes, SourceText.bytes, h.clamp_add, h.clamp_add, hdata, ← hsize,
    Nat.add_comm _ front.size, Nat.add_comm _ front.size, ByteArray.extract_append_size_add]

end Below

/-! ## Interpreter lines -/

theorem commentOutShebang_eq_self {s : String} (h : ¬ "#!".toList <+: s.toList) : commentOutShebang s = s := by
  rw [commentOutShebang]
  split
  · rename_i rest heq
    exact absurd ⟨rest, heq.symm⟩ h
  · rfl

theorem commentOutShebang_append (s : String) : commentOutShebang ("#!" ++ s) = "//#!" ++ s := by
  simp only [commentOutShebang, String.toList_append]
  rw [← String.append_assoc]
  rfl

/-- a text with an interpreter line in front of it: the line is two bytes longer where it is parsed -/
theorem below_interpreterLine {r s : String} (hr : ¬ "#!".toList <+: r.toList) (hs : '\n' ∉ s.toList) :
    Below ("//#!" ++ s ++ "\n").utf8ByteSize (.ofString r) (.ofString ("#!" ++ s ++ "\n" ++ r)) := by
  have htext : commentOutShebang ("#!" ++ s ++ "\n" ++ r) = "//#!" ++ s ++ "\n" ++ r := by
    rw [String.append_assoc, String.append_assoc, commentOutShebang_append]
    simp only [String.append_assoc]
  have hline : 10 ∉ utf8Bytes ("//#!" ++ s) := by
    apply newline_notMem_utf8Bytes
    simpa using hs
  have hbytes : utf8Bytes ("//#!" ++ s ++ "\n" ++ r) = utf8Bytes ("//#!" ++ s) ++ 10 :: utf8Bytes r := by
    have hnewline : utf8Bytes "\n" = [10] := by decide
    simp [utf8Bytes_append, hnewline]
  have hsize : ("//#!" ++ s ++ "\n").utf8ByteSize = (utf8Bytes ("//#!" ++ s)).length + 1 := by
    rw [String.utf8ByteSize_append, length_utf8Bytes]
    rfl
  refine ⟨⟨("//#!" ++ s ++ "\n").toUTF8, ?_, ?_⟩, ?_, ?_⟩
  · rw [String.toUTF8_eq_toByteArray, String.size_toByteArray]
  · simp only [SourceText.ofString, htext, commentOutShebang_eq_self hr, String.toUTF8_eq_toByteArray,
      String.toByteArray_append]
  · have hstarts := lineStartsOf_line_append hline (utf8Bytes r)
    simp only [SourceText.ofString, htext, commentOutShebang_eq_self hr]
    rw [← hbytes] at hstarts
    rw [hsize]
    exact hstarts
  · simp [SourceText.ofString, lineStartsOf_eq]

end Turnstile
