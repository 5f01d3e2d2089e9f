/-
Positions in the order of a text.

A reader that moves along a text counts lines and columns; positions are where it stands.
- `position_eq_afterBytes`: the line found among the line starts and the characters counted from there are what a reader of
  the bytes counts;
- `afterBytes_take`: inside a character it stands where it stands behind it;
- `position_order`: what lines and columns are, and that they are ordered as the offsets are.
-/
import Mathlib.Data.Prod.Lex
import Mathlib.Data.List.Induction
import Mathlib.Order.Monotone.Basic
import Turnstile.Proofs.Source.Positions
import Turnstile.Proofs.Text.Boundaries
import Turnstile.Proofs.Text.Replacement

namespace Turnstile

open Text.Utf8 (isTail)

namespace Position

/-- where a reader stands after one more byte -/
def afterByte (p : Position) (b : UInt8) : Position :=
  if b = 10 then ⟨p.line + 1, 0⟩ else if isTail b then p else ⟨p.line, p.column + 1⟩

/-- where a reader stands after one more character -/
def afterChar (p : Position) (c : Char) : Position :=
  if c = '\n' then ⟨p.line + 1, 0⟩ else ⟨p.line, p.column + 1⟩

/-- lines first, then columns -/
def key (p : Position) : ℕ ×ₗ ℕ := toLex (p.line, p.column)

end Position

/-- the bytes in front of an offset, from the start of the line on which it is -/
def SourceText.lineSoFar (src : SourceText) (o : ℕ) : List UInt8 :=
  (src.bytes (src.lineStarts.getD ((src.position o).line - 1) 0) o).data.toList

/-- one location is inside another -/
def Location.Inside (inner outer : Location) : Prop :=
  toLex (outer.startLine, outer.startColumn) ≤ toLex (inner.startLine, inner.startColumn) ∧
    toLex (inner.endLine, inner.endColumn) ≤ toLex (outer.endLine, outer.endColumn)

variable {c : Char} {b : UInt8} {p : Position} {i o o' : ℕ} {front back : List Char} {bytes tails : List UInt8}

/-! ## The line -/

theorem length_startsAfter (i : ℕ) (bytes : List UInt8) : (startsAfter i bytes).length = bytes.count 10 := by
  induction bytes generalizing i with
  | nil => rfl
  | cons b bytes ih =>
    rw [startsAfter, List.count_cons]
    by_cases hb : b = 10 <;> simp [hb, ih]

theorem countP_startsAfter (i o : ℕ) (bytes : List UInt8) :
    ((startsAfter i bytes).countP fun (start : ℕ) => (start : ℤ) ≤ o) = (bytes.take (o - i)).count 10 := by
  induction bytes generalizing i with
  | nil => simp [startsAfter]
  | cons b bytes ih =>
    have hstart : ((i + 1 : ℕ) : ℤ) ≤ o ↔ i < o := by omega
    rw [startsAfter]
    rcases Nat.lt_or_ge i o with hlt | hge
    · obtain ⟨k, hk⟩ : ∃ k, o - i = k + 1 := ⟨o - i - 1, by omega⟩
      have hrest : o - (i + 1) = k := by omega
      rw [hk, List.take_succ_cons, List.count_cons]
      by_cases hb : b = 10
      · rw [if_pos hb, List.countP_cons, ih, hrest]
        simp [hb, hlt]
      · rw [if_neg hb, ih, hrest]
        simp [hb]
    · have hnone : o - i = 0 := by omega
      have hrest : o - (i + 1) = 0 := by omega
      by_cases hb : b = 10
      · rw [if_pos hb, List.countP_cons, ih, hrest, hnone]
        simp [hge]
      · rw [if_neg hb, ih, hrest, hnone]
        simp

/-- where the last line of some bytes starts -/
def lastLineStart (bytes : List UInt8) : ℕ := (0 :: startsAfter 0 bytes).getLast (List.cons_ne_nil _ _)

theorem lastLineStart_concat (bytes : List UInt8) (b : UInt8) :
    lastLineStart (bytes ++ [b]) = if b = 10 then bytes.length + 1 else lastLineStart bytes := by
  have hstarts : startsAfter 0 (bytes ++ [b]) =
      startsAfter 0 bytes ++ if b = 10 then [bytes.length + 1] else [] := by
    rw [startsAfter_append, Nat.zero_add]
    rfl
  unfold lastLineStart
  simp only [hstarts]
  split
  · simp only [← List.cons_append]
    exact List.getLast_append_singleton _
  · simp only [List.append_nil]

theorem lastLineStart_le (bytes : List UInt8) : lastLineStart bytes ≤ bytes.length := by
  induction bytes using List.reverseRecOn with
  | nil => exact le_rfl
  | append_singleton bytes b ih =>
    rw [lastLineStart_concat, List.length_append, List.length_singleton]
    split <;> omega

/-- among all line starts, the last one up to an offset comes after as many newlines as there are in front of it -/
theorem lineStartsOf_getD (bytes : List UInt8) (o : ℕ) :
    (lineStartsOf bytes).getD ((bytes.take o).count 10) 0 = lastLineStart (bytes.take o) := by
  have hlast : (bytes.take o).count 10 < (0 :: startsAfter 0 (bytes.take o)).length := by
    rw [List.length_cons, length_startsAfter]
    omega
  have hstarts : lineStartsOf bytes =
      (0 :: startsAfter 0 (bytes.take o)) ++ startsAfter (0 + (bytes.take o).length) (bytes.drop o) := by
    rw [List.cons_append, ← startsAfter_append, List.take_append_drop, lineStartsOf_eq]
  rw [hstarts, List.getD_eq_getElem?_getD, List.getElem?_append_left hlast, lastLineStart, List.getLast_eq_getElem,
    List.getElem?_eq_getElem hlast]
  simp [length_startsAfter]

/-! ## The column -/

theorem charactersBegun_eq (data : ByteArray) (i n count : ℕ) :
    SourceText.charactersBegun data i n count =
      n + ((data.data.toList.drop i).take count).countP fun b => !isTail b := by
  induction count generalizing i n with
  | zero => simp [SourceText.charactersBegun]
  | succ count ih =>
    rw [SourceText.charactersBegun]
    by_cases hi : i < data.size
    · have hlist : i < data.data.toList.length := hi
      rw [getElem?_pos data i hi, List.drop_eq_getElem_cons hlist, List.take_succ_cons, List.countP_cons]
      have hbyte : data.data.toList[i] = data[i] := rfl
      simp only [ih, hbyte]
      cases isTail data[i] <;> simp [Nat.add_assoc, Nat.add_comm]
    · have hlist : data.data.toList.drop i = [] := List.drop_eq_nil_of_le (not_lt.1 hi)
      rw [getElem?_neg data i hi, hlist]
      simp

/-- the column counts the characters of the last line that have begun -/
theorem afterBytes_eq (bytes : List UInt8) :
    bytes.foldl Position.afterByte ⟨1, 0⟩ =
      ⟨1 + bytes.count 10, (bytes.drop (lastLineStart bytes)).countP fun b => !isTail b⟩ := by
  induction bytes using List.reverseRecOn with
  | nil => rfl
  | append_singleton bytes b ih =>
    have hle := lastLineStart_le bytes
    rw [List.foldl_append, ih, List.count_append, lastLineStart_concat, List.foldl_cons, List.foldl_nil,
      Position.afterByte]
    by_cases hb : b = 10
    · subst hb
      have hnone : (bytes ++ [10]).drop (bytes.length + 1) = [] := List.drop_of_length_le (by simp)
      rw [if_pos rfl, if_pos rfl, hnone]
      simp [Nat.add_assoc]
    · rw [if_neg hb, if_neg hb, List.drop_append_of_le_length hle, List.countP_append]
      cases htail : isTail b <;> simp [hb, htail]

theorem clamp_ofString (s : String) (o : ℕ) :
    (SourceText.ofString s).clamp o = min o (utf8Bytes (SourceText.ofString s).text).length := by
  have hsize : (SourceText.ofString s).data.size = (utf8Bytes (SourceText.ofString s).text).length := rfl
  rw [SourceText.clamp, if_neg (by omega), Int.toNat_natCast, hsize]

/-- **A position is where a reader of the bytes in front of it stands.** -/
theorem position_eq_afterBytes (s : String) (o : ℕ) :
    (SourceText.ofString s).position o =
      ((utf8Bytes (SourceText.ofString s).text).take o).foldl Position.afterByte ⟨1, 0⟩ := by
  have hclamp := clamp_ofString s o
  set bytes := utf8Bytes (SourceText.ofString s).text
  have hstarts : (SourceText.ofString s).lineStarts = lineStartsOf bytes := rfl
  have hdata : (SourceText.ofString s).data.data.toList = bytes := rfl
  have hstart := lineStartsOf_getD bytes o
  have hline : ((lineStartsOf bytes).countP fun (start : ℕ) => (start : ℤ) ≤ (o : ℤ)) = (bytes.take o).count 10 + 1 := by
    rw [lineStartsOf_eq, List.countP_cons, countP_startsAfter]
    simp
  have hcolumn : (bytes.drop (lastLineStart (bytes.take o))).take (min o bytes.length - lastLineStart (bytes.take o)) =
      (bytes.take o).drop (lastLineStart (bytes.take o)) := by
    rw [List.drop_take, List.take_eq_take_iff, List.length_drop]
    omega
  rw [SourceText.position, hstarts, hline, afterBytes_eq]
  simp only [if_neg (Nat.succ_ne_zero _), Nat.add_sub_cancel]
  rw [hstart, charactersBegun_eq, hdata, hclamp, hcolumn, Nat.zero_add, Nat.add_comm]

theorem lineSoFar_ofString (s : String) (o : ℕ) :
    (SourceText.ofString s).lineSoFar o =
      ((utf8Bytes (SourceText.ofString s).text).take o).drop
        (lastLineStart ((utf8Bytes (SourceText.ofString s).text).take o)) := by
  have hclamp := clamp_ofString s
  have hline := congrArg Position.line ((position_eq_afterBytes s o).trans (afterBytes_eq _))
  simp only at hline
  set bytes := utf8Bytes (SourceText.ofString s).text
  have hstarts : (SourceText.ofString s).lineStarts = lineStartsOf bytes := rfl
  have hdata : (SourceText.ofString s).data.data.toList = bytes := rfl
  have hstart := lineStartsOf_getD bytes o
  have hle := lastLineStart_le (bytes.take o)
  rw [List.length_take] at hle
  have hinside : min (lastLineStart (bytes.take o)) bytes.length = lastLineStart (bytes.take o) := by omega
  rw [SourceText.lineSoFar, hline, hstarts, Nat.add_sub_cancel_left, hstart, SourceText.bytes, hclamp, hclamp,
    ByteArray.data_extract, Array.toList_extract, hdata, List.extract_eq_take_drop, hinside,
    List.drop_take, List.take_eq_take_iff, List.length_drop]
  omega

/-! ## Characters -/

theorem afterTails (p : Position) (h : ∀ b ∈ tails, isTail b = true) : tails.foldl Position.afterByte p = p := by
  induction tails with
  | nil => rfl
  | cons b tails ih =>
    rw [List.forall_mem_cons] at h
    have hb : b ≠ 10 := by
      rintro rfl
      simp [isTail] at h
    rw [List.foldl_cons, Position.afterByte, if_neg hb, if_pos h.1]
    exact ih h.2

/-- inside a character a reader stands where it stands behind it -/
theorem afterBytes_take (p : Position) (c : Char) (j : ℕ) :
    ((String.utf8EncodeChar c).take (j + 1)).foldl Position.afterByte p = p.afterChar c := by
  obtain ⟨lead, tails, hbytes, hencoded⟩ := encoded_utf8EncodeChar c
  have hlead := hencoded.isTail_lead
  have htake : ∀ b ∈ tails.take j, isTail b = true := fun b hb => hencoded.isTail_of_mem b (List.mem_of_mem_take hb)
  rw [hbytes, List.take_succ_cons, List.foldl_cons, afterTails _ htake, Position.afterByte, Position.afterChar]
  have hnewline : lead = 10 ↔ c = '\n' := by
    constructor
    · rintro rfl
      apply eq_newline_of_mem_utf8EncodeChar
      rw [hbytes]
      exact List.mem_cons_self
    · rintro rfl
      exact (List.cons.inj hbytes).1.symm
  simp [hnewline, hlead]

/-- reading bytes is reading the characters that begin in them -/
theorem afterBytes_eq_afterChars (p : Position) (cs : List Char) (o : ℕ) :
    ((cs.flatMap String.utf8EncodeChar).take o).foldl Position.afterByte p =
      (begunBefore cs o).foldl Position.afterChar p := by
  induction cs generalizing p o with
  | nil => simp [begunBefore]
  | cons c cs ih =>
    cases o with
    | zero => rfl
    | succ j =>
      rw [List.flatMap_cons, List.take_append, List.foldl_append, afterBytes_take, String.length_utf8EncodeChar,
        begunBefore, List.foldl_cons, ih]

theorem afterChars_eq (cs : List Char) :
    cs.foldl Position.afterChar ⟨1, 0⟩ = ⟨1 + cs.count '\n', (cs.reverse.takeWhile (· ≠ '\n')).length⟩ := by
  induction cs using List.reverseRecOn with
  | nil => rfl
  | append_singleton cs c ih =>
    rw [List.foldl_append, ih, List.foldl_cons, List.foldl_nil, Position.afterChar, List.count_append,
      List.reverse_append]
    by_cases hc : c = '\n' <;> simp [hc, Nat.add_assoc]

theorem position_eq_afterChars (s : String) (o : ℕ) :
    (SourceText.ofString s).position o =
      (begunBefore (SourceText.ofString s).text.toList o).foldl Position.afterChar ⟨1, 0⟩ := by
  rw [position_eq_afterBytes, utf8Bytes_eq, afterBytes_eq_afterChars]

/-! ## The line read so far -/

theorem eq_newline_of_getElem? {cs : List Char} {k : ℕ} (h : (cs.flatMap String.utf8EncodeChar)[k]? = some 10) :
    ∃ front back, cs = front ++ '\n' :: back ∧ byteLength front = k := by
  induction cs generalizing k with
  | nil => simp at h
  | cons c cs ih =>
    rw [List.flatMap_cons] at h
    rcases Nat.lt_or_ge k c.utf8Size with hin | hbehind
    · rw [List.getElem?_append_left (by simpa using hin)] at h
      have hc : c = '\n' := eq_newline_of_mem_utf8EncodeChar (List.mem_of_getElem? h)
      subst hc
      have hk : k = 0 := Nat.lt_one_iff.1 hin
      exact ⟨[], cs, rfl, hk.symm⟩
    · rw [List.getElem?_append_right (by simpa using hbehind), String.length_utf8EncodeChar] at h
      obtain ⟨front, back, rfl, hfront⟩ := ih h
      exact ⟨c :: front, back, rfl, by rw [byteLength_cons, hfront]; omega⟩

theorem lastLineStart_cases (bytes : List UInt8) :
    lastLineStart bytes = 0 ∨ ∃ k, lastLineStart bytes = k + 1 ∧ bytes[k]? = some 10 := by
  induction bytes using List.reverseRecOn with
  | nil => exact Or.inl rfl
  | append_singleton bytes b ih =>
    rw [lastLineStart_concat]
    by_cases hb : b = 10
    · subst hb
      exact Or.inr ⟨bytes.length, if_pos rfl, by simp⟩
    · rw [if_neg hb]
      rcases ih with hzero | ⟨k, hstart, hk⟩
      · exact Or.inl hzero
      · refine Or.inr ⟨k, hstart, ?_⟩
        rw [List.getElem?_append_left (List.getElem?_eq_some_iff.1 hk).1]
        exact hk

/-- a line starts between two characters -/
theorem exists_lastLineStart_eq (cs : List Char) (o : ℕ) : ∃ front back, cs = front ++ back ∧
    lastLineStart ((cs.flatMap String.utf8EncodeChar).take o) = byteLength front := by
  rcases lastLineStart_cases ((cs.flatMap String.utf8EncodeChar).take o) with hzero | ⟨k, hstart, hk⟩
  · exact ⟨[], cs, rfl, hzero⟩
  · have hin := (List.getElem?_eq_some_iff.1 hk).1
    rw [List.length_take] at hin
    rw [List.getElem?_take_of_lt (by omega)] at hk
    obtain ⟨front, back, rfl, rfl⟩ := eq_newline_of_getElem? hk
    refine ⟨front ++ ['\n'], back, by simp, ?_⟩
    rw [hstart, byteLength_append]
    rfl

theorem length_flatMap_utf8EncodeChar (cs : List Char) :
    (cs.flatMap String.utf8EncodeChar).length = byteLength cs := by
  simp [byteLength, List.length_flatMap]

/-- what is counted on a line is what decoding the line with replacements reads -/
theorem countP_line (cs : List Char) (o : ℕ) :
    ((((cs.flatMap String.utf8EncodeChar).take o).drop
        (lastLineStart ((cs.flatMap String.utf8EncodeChar).take o))).countP fun b => !isTail b) =
      (decodeReplacing (((cs.flatMap String.utf8EncodeChar).take o).drop
        (lastLineStart ((cs.flatMap String.utf8EncodeChar).take o)))).length := by
  obtain ⟨front, back, hcs, hstart⟩ := exists_lastLineStart_eq cs o
  have hline : ((cs.flatMap String.utf8EncodeChar).take o).drop (byteLength front) =
      (back.flatMap String.utf8EncodeChar).take (o - byteLength front) := by
    rw [hcs, List.drop_take, List.flatMap_append, ← length_flatMap_utf8EncodeChar front, List.drop_left]
  rw [hstart, hline, countP_not_isTail, length_decodeReplacing]

/-! ## Order -/

/-- before a later offset at least the same characters begin -/
theorem begunBefore_prefix (cs : List Char) (h : o ≤ o') : begunBefore cs o <+: begunBefore cs o' := by
  induction cs generalizing o o' with
  | nil => exact List.prefix_rfl
  | cons c cs ih =>
    cases o with
    | zero => exact List.nil_prefix
    | succ j =>
      obtain ⟨k, rfl⟩ : ∃ k, o' = k + 1 := ⟨o' - 1, by omega⟩
      rw [begunBefore, begunBefore, List.cons_prefix_cons]
      exact ⟨rfl, ih (by omega)⟩

/-- between two characters, exactly those in front have begun -/
theorem begunBefore_byteLength (front back : List Char) : begunBefore (front ++ back) (byteLength front) = front := by
  induction front with
  | nil => cases back <;> rfl
  | cons c front ih =>
    have hpos := c.utf8Size_pos
    obtain ⟨k, hk⟩ : ∃ k, byteLength (c :: front) = k + 1 := ⟨byteLength (c :: front) - 1, by rw [byteLength_cons]; omega⟩
    have hrest : k + 1 - c.utf8Size = byteLength front := by
      rw [byteLength_cons] at hk
      omega
    rw [hk, List.cons_append, begunBefore, hrest, ih]

theorem Position.key_lt_afterChar (p : Position) (c : Char) : p.key < (p.afterChar c).key := by
  rw [key, key, Prod.Lex.toLex_lt_toLex, afterChar]
  split
  · exact Or.inl (Nat.lt_succ_self _)
  · exact Or.inr ⟨rfl, Nat.lt_succ_self _⟩

theorem Position.key_le_afterChars (p : Position) (cs : List Char) : p.key ≤ (cs.foldl afterChar p).key := by
  induction cs generalizing p with
  | nil => exact le_rfl
  | cons c cs ih => exact (p.key_lt_afterChar c).le.trans (ih _)

theorem position_monotone (s : String) : Monotone fun o : ℕ => ((SourceText.ofString s).position o).key := by
  intro o o' h
  obtain ⟨rest, hrest⟩ := begunBefore_prefix (SourceText.ofString s).text.toList h
  simp only [position_eq_afterChars]
  rw [← hrest, List.foldl_append]
  exact Position.key_le_afterChars _ _

theorem position_strictMonoOn (s : String) :
    StrictMonoOn (fun o : ℕ => ((SourceText.ofString s).position o).key)
      {o | Boundary (SourceText.ofString s).text o} := by
  intro o ho o' ho' h
  obtain ⟨front, back, htext, rfl⟩ := boundary_iff.1 ho
  obtain ⟨front', back', htext', rfl⟩ := boundary_iff.1 ho'
  have hbegun := begunBefore_prefix (SourceText.ofString s).text.toList h.le
  have hfront := begunBefore_byteLength front back
  have hfront' := begunBefore_byteLength front' back'
  rw [← htext] at hfront
  rw [← htext'] at hfront'
  simp only [position_eq_afterChars, hfront, hfront'] at hbegun ⊢
  obtain ⟨rest, rfl⟩ := hbegun
  cases rest with
  | nil => simp at h
  | cons c rest =>
    rw [List.foldl_append, List.foldl_cons]
    exact (Position.key_lt_afterChar _ c).trans_le (Position.key_le_afterChars _ rest)

theorem Position.cast_le_cast {p q : Position} (h : p.key ≤ q.key) :
    toLex ((p.line : ℤ), (p.column : ℤ)) ≤ toLex ((q.line : ℤ), (q.column : ℤ)) := by
  rw [key, key, Prod.Lex.toLex_le_toLex] at h
  rw [Prod.Lex.toLex_le_toLex]
  simpa using h

/-- what is read on a line up to an offset -/
theorem column_eq_length_decodeReplacing (s : String) (o : ℕ) :
    ((SourceText.ofString s).position o).column = (decodeReplacing ((SourceText.ofString s).lineSoFar o)).length := by
  have hcolumn := congrArg Position.column ((position_eq_afterBytes s o).trans (afterBytes_eq _))
  rw [hcolumn, lineSoFar_ofString, utf8Bytes_eq]
  exact countP_line _ o

/-- **Positions count newlines and characters, and are ordered as offsets are.** The column is also what decoding the line
so far reads, a character that is cut being replaced. -/
theorem position_order (s : String) :
    (∀ o : ℕ, (SourceText.ofString s).position o =
      ⟨1 + ((utf8Bytes (SourceText.ofString s).text).take o).count 10,
        ((begunBefore (SourceText.ofString s).text.toList o).reverse.takeWhile (· ≠ '\n')).length⟩) ∧
    (∀ o : ℕ, ((SourceText.ofString s).position o).column =
      (decodeReplacing ((SourceText.ofString s).lineSoFar o)).length) ∧
    Monotone (fun o : ℕ => ((SourceText.ofString s).position o).key) ∧
    StrictMonoOn (fun o : ℕ => ((SourceText.ofString s).position o).key)
      {o | Boundary (SourceText.ofString s).text o} ∧
    Set.InjOn (fun o : ℕ => (SourceText.ofString s).position o) {o | Boundary (SourceText.ofString s).text o} ∧
    ∀ start stop start' stop' : ℕ, start ≤ start' → stop' ≤ stop →
      ((SourceText.ofString s).location start' stop').Inside ((SourceText.ofString s).location start stop) := by
  have hmono := position_monotone s
  have hstrict := position_strictMonoOn s
  refine ⟨?_, column_eq_length_decodeReplacing s, hmono, hstrict, ?_, ?_⟩
  · intro o
    have hline := congrArg Position.line ((position_eq_afterBytes s o).trans (afterBytes_eq _))
    have hcolumn := congrArg Position.column ((position_eq_afterChars s o).trans (afterChars_eq _))
    cases hposition : (SourceText.ofString s).position o
    simp only [hposition] at hline hcolumn
    rw [hline, hcolumn]
  · intro o ho o' ho' heq
    exact hstrict.injOn ho ho' (congrArg Position.key heq)
  · intro start stop start' stop' hstart hstop
    exact ⟨Position.cast_le_cast (hmono hstart), Position.cast_le_cast (hmono hstop)⟩

/-- inside a character, behind a newline and at an empty last line -/
theorem position_order_umlaut :
    (SourceText.ofString "ab\nxé\n").position 5 = ⟨2, 2⟩ ∧ (SourceText.ofString "ab\nxé\n").position 3 = ⟨2, 0⟩ ∧
    (SourceText.ofString "ab\nxé\n").position 7 = ⟨3, 0⟩ ∧
    ((SourceText.ofString "ab\nxé\n").location 4 6).Inside ((SourceText.ofString "ab\nxé\n").location 3 7) := by
  obtain ⟨hposition, -, -, -, -, hlocation⟩ := position_order "ab\nxé\n"
  exact ⟨(hposition 5).trans rfl, (hposition 3).trans rfl, (hposition 7).trans rfl,
    hlocation 3 7 4 6 (by decide) (by decide)⟩

end Turnstile
