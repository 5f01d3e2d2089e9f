/-
The lines of a text and the positions in it.

A position counts newlines. The lines that are put into a trace also end at a carriage return with no newline behind it, so a
character is on the line and in the column of its position as long as no such return stands in front of it.
- `breakLinesFrom_append`, `breakLinesFrom_ends`: the lines of a text from those of its beginning, and along line ends;
- `afterChars_of_loneReturns`: without such returns, the column is how far the line has come;
- `charAt?_of_noLoneReturns`, `charAt?_behind_loneReturns`: what is found at the position of a character;
- `char_found_at_position`: all characters of a text are found exactly if none is behind such a return.
-/
import Mathlib.Data.List.DropRight
import Turnstile.Proofs.Emit.Product
import Turnstile.Proofs.Source.PositionOrder

namespace Turnstile

/-- the characters that end lines, a return and a newline together only one -/
def endsLine (c : Char) : Bool := c = '\n' || c = '\r'

/-- the carriage returns with no newline behind them -/
def loneReturns : List Char → ℕ
  | '\r' :: '\n' :: cs => loneReturns cs
  | '\r' :: cs => loneReturns cs + 1
  | _ :: cs => loneReturns cs
  | [] => 0

/-- the line that is open behind some characters, last character first -/
def openLine (line cs : List Char) : List Char := cs.foldl (fun line c => if endsLine c then [] else c :: line) line

/-- some first characters of a text and, behind them, one that ends no line -/
structure Shows (s : String) (front : List Char) (c : Char) : Prop where
  text : front ++ [c] <+: s.toList
  notEnd : endsLine c = false

/-- the character that stands in the lines of a text on the line and in the column of an offset -/
def SourceText.charAt? (src : SourceText) (o : ℕ) : Option Char :=
  src.lines[(src.position o).line - 1]?.bind fun line => line.toList[(src.position o).column]?

variable {c : Char} {line front back ends cs : List Char} {s : String}

/-! ## Line ends -/

theorem ne_of_endsLine (h : endsLine c = false) : c ≠ '\n' ∧ c ≠ '\r' := by
  simpa [endsLine] using h

theorem breakLinesFrom_cons (h : endsLine c = false) : breakLinesFrom line (c :: cs) = breakLinesFrom (c :: line) cs := by
  obtain ⟨hn, hr⟩ := ne_of_endsLine h
  rw [breakLinesFrom] <;> simp_all

theorem breakLinesFrom_return (h : cs.head? ≠ some '\n') :
    breakLinesFrom line ('\r' :: cs) = line.reverse :: breakLinesFrom [] cs := by
  rw [breakLinesFrom]
  rintro rest rfl
  simp at h

theorem loneReturns_cons (h : c ≠ '\r') : loneReturns (c :: cs) = loneReturns cs := by
  rw [loneReturns] <;> simp_all

theorem loneReturns_return (h : cs.head? ≠ some '\n') : loneReturns ('\r' :: cs) = loneReturns cs + 1 := by
  rw [loneReturns]
  rintro rest rfl
  simp at h

/-- induction that takes a return and the newline behind it at once -/
theorem lineEndInduction {motive : List Char → Prop} (nil : motive [])
    (pair : ∀ cs, motive cs → motive ('\r' :: '\n' :: cs))
    (lone : ∀ cs, cs.head? ≠ some '\n' → motive cs → motive ('\r' :: cs))
    (newline : ∀ cs, motive cs → motive ('\n' :: cs))
    (other : ∀ c cs, endsLine c = false → motive cs → motive (c :: cs)) (cs : List Char) : motive cs := by
  fun_induction loneReturns cs with
  | case1 cs ih => exact pair cs ih
  | case2 cs hnext ih =>
    refine lone cs (fun h => ?_) ih
    obtain ⟨rest, rfl⟩ := List.head?_eq_some_iff.1 h
    exact hnext rest rfl
  | case3 c cs _ hreturn ih =>
    by_cases hn : c = '\n'
    · exact hn ▸ newline cs ih
    · exact other c cs (by simpa [endsLine, hn] using hreturn) ih
  | case4 => exact nil

/-- a cut does not part a return from the newline behind it -/
def CutsCleanly (front back : List Char) : Prop := front.getLast? = some '\r' → back.head? ≠ some '\n'

theorem CutsCleanly.of_cons (h : CutsCleanly (c :: front) back) : CutsCleanly front back :=
  fun hlast => h (by simp [List.getLast?_cons, hlast])

theorem CutsCleanly.head?_ne (h : CutsCleanly ('\r' :: front) back) (hfront : front.head? ≠ some '\n') :
    (front ++ back).head? ≠ some '\n' := by
  cases front with
  | nil => exact h rfl
  | cons c front => exact hfront

theorem loneReturns_append (h : CutsCleanly front back) :
    loneReturns (front ++ back) = loneReturns front + loneReturns back := by
  induction front using lineEndInduction with
  | nil => simp [loneReturns]
  | pair cs ih => exact ih h.of_cons.of_cons
  | lone cs hcs ih =>
    rw [List.cons_append, loneReturns_return (h.head?_ne hcs), loneReturns_return hcs, ih h.of_cons]
    omega
  | newline cs ih =>
    rw [List.cons_append, loneReturns_cons (by decide), loneReturns_cons (by decide), ih h.of_cons]
  | other c cs hc ih =>
    have hr := (ne_of_endsLine hc).2
    rw [List.cons_append, loneReturns_cons hr, loneReturns_cons hr, ih h.of_cons]

/-! ## The lines of a text -/

theorem openLine_of_endsLine (h : endsLine c = true) : openLine line (c :: cs) = openLine [] cs := by
  simp [openLine, h]

theorem openLine_cons (h : endsLine c = false) : openLine line (c :: cs) = openLine (c :: line) cs := by
  simp [openLine, h]

/-- the lines of a text are those that end in its beginning and those of the rest, which goes on with the open line -/
theorem breakLinesFrom_append (line : List Char) (h : CutsCleanly front back) : ∃ done : List (List Char),
    done.length = front.count '\n' + loneReturns front ∧
      breakLinesFrom line (front ++ back) = done ++ breakLinesFrom (openLine line front) back := by
  induction front using lineEndInduction generalizing line with
  | nil => exact ⟨[], rfl, rfl⟩
  | pair cs ih =>
    obtain ⟨done, hlength, hlines⟩ := ih [] h.of_cons.of_cons
    refine ⟨line.reverse :: done, by simp [loneReturns, hlength]; omega, ?_⟩
    rw [openLine_of_endsLine (by decide), openLine_of_endsLine (by decide), List.cons_append, List.cons_append,
      breakLinesFrom, hlines, List.cons_append]
  | lone cs hcs ih =>
    obtain ⟨done, hlength, hlines⟩ := ih [] h.of_cons
    refine ⟨line.reverse :: done, by simp [loneReturns_return hcs, hlength]; omega, ?_⟩
    rw [openLine_of_endsLine (by decide), List.cons_append, breakLinesFrom_return (h.head?_ne hcs), hlines,
      List.cons_append]
  | newline cs ih =>
    obtain ⟨done, hlength, hlines⟩ := ih [] h.of_cons
    refine ⟨line.reverse :: done, by simp [loneReturns_cons, hlength]; omega, ?_⟩
    rw [openLine_of_endsLine (by decide), List.cons_append, breakLinesFrom, hlines, List.cons_append]
  | other c cs hc ih =>
    obtain ⟨hn, hr⟩ := ne_of_endsLine hc
    obtain ⟨done, hlength, hlines⟩ := ih (c :: line) h.of_cons
    exact ⟨done, by simp [loneReturns_cons hr, hn, hlength], by
      rw [openLine_cons hc, List.cons_append, breakLinesFrom_cons hc, hlines]⟩

/-- the first line goes on with the open line -/
theorem breakLinesFrom_head (line cs : List Char) : ∃ rest later,
    breakLinesFrom line cs = (line.reverse ++ rest) :: later := by
  induction cs using lineEndInduction generalizing line with
  | nil => exact ⟨[], [], by simp [breakLinesFrom]⟩
  | pair cs => exact ⟨[], _, by rw [breakLinesFrom, List.append_nil]⟩
  | lone cs hcs => exact ⟨[], _, by rw [breakLinesFrom_return hcs, List.append_nil]⟩
  | newline cs => exact ⟨[], _, by rw [breakLinesFrom, List.append_nil]⟩
  | other c cs hc ih =>
    obtain ⟨rest, later, hlines⟩ := ih (c :: line)
    exact ⟨c :: rest, later, by rw [breakLinesFrom_cons hc, hlines]; simp⟩

theorem getElem?_cons_blanks {lines : List (List Char)} {n i : ℕ} (h : ∀ i < n, lines[i]? = some []) (hi : i < n + 1) :
    (line :: lines)[i]? = some (if i = 0 then line else []) := by
  cases i with
  | zero => rfl
  | succ i => exact h i (Nat.lt_of_succ_lt_succ hi)

/-- between line ends there are empty lines -/
theorem breakLinesFrom_ends (line : List Char) (hends : ∀ c ∈ ends, endsLine c = true) (hclean : CutsCleanly ends back) {i : ℕ}
    (hi : i < ends.count '\n' + loneReturns ends) :
    (breakLinesFrom line (ends ++ back))[i]? = some (if i = 0 then line.reverse else []) := by
  induction ends using lineEndInduction generalizing line i with
  | nil => simp [loneReturns] at hi
  | pair cs ih =>
    rw [List.cons_append, List.cons_append, breakLinesFrom]
    refine getElem?_cons_blanks (n := cs.count '\n' + loneReturns cs) (fun i hi => ?_) ?_
    · simpa using ih [] (fun c hc => hends c (by simp [hc])) hclean.of_cons.of_cons hi
    · simp [loneReturns] at hi
      omega
  | lone cs hcs ih =>
    rw [List.cons_append, breakLinesFrom_return (hclean.head?_ne hcs)]
    refine getElem?_cons_blanks (n := cs.count '\n' + loneReturns cs) (fun i hi => ?_) ?_
    · simpa using ih [] (fun c hc => hends c (by simp [hc])) hclean.of_cons hi
    · simp [loneReturns_return hcs] at hi
      omega
  | newline cs ih =>
    rw [List.cons_append, breakLinesFrom]
    refine getElem?_cons_blanks (n := cs.count '\n' + loneReturns cs) (fun i hi => ?_) ?_
    · simpa using ih [] (fun c hc => hends c (by simp [hc])) hclean.of_cons hi
    · simp [loneReturns_cons] at hi
      omega
  | other c cs hc =>
    rw [hends c List.mem_cons_self] at hc
    cases hc

/-! ## Positions along a text -/

theorem line_afterChars (p : Position) (cs : List Char) :
    (cs.foldl Position.afterChar p).line = p.line + cs.count '\n' := by
  induction cs generalizing p with
  | nil => rfl
  | cons c cs ih =>
    rw [List.foldl_cons, ih, Position.afterChar, List.count_cons]
    by_cases hc : c = '\n' <;> simp [hc]
    omega

theorem column_afterChars_of_not_mem {p : Position} (h : '\n' ∉ cs) :
    (cs.foldl Position.afterChar p).column = p.column + cs.length := by
  induction cs generalizing p with
  | nil => rfl
  | cons c cs ih =>
    rw [List.mem_cons, not_or] at h
    rw [List.foldl_cons, ih h.2, Position.afterChar, if_neg (Ne.symm h.1), List.length_cons, Nat.add_right_comm]
    rfl

/-- a reader of newlines stands as far into the line as a reader of all line ends, unless a return stands alone -/
theorem column_afterChars_of_noLoneReturns (n : ℕ) (line : List Char) (h : loneReturns cs = 0) :
    (cs.foldl Position.afterChar ⟨n, line.length⟩).column = (openLine line cs).length := by
  induction cs using lineEndInduction generalizing n line with
  | nil => rfl
  | pair cs ih =>
    rw [openLine_of_endsLine (by decide), openLine_of_endsLine (by decide), ← ih (n + 1) [] (by simpa [loneReturns] using h)]
    rfl
  | lone cs hcs =>
    rw [loneReturns_return hcs] at h
    cases h
  | newline cs ih =>
    rw [openLine_of_endsLine (by decide), ← ih (n + 1) [] (by simpa [loneReturns_cons] using h)]
    rfl
  | other c cs hc ih =>
    obtain ⟨hn, hr⟩ := ne_of_endsLine hc
    rw [openLine_cons hc, ← ih n (c :: line) (by simpa [loneReturns_cons hr] using h), List.foldl_cons, Position.afterChar,
      if_neg hn]
    rfl

theorem position_behind (hshebang : ¬ "#!".toList <+: s.toList) (htext : s.toList = front ++ back) :
    (SourceText.ofString s).position (byteLength front) = front.foldl Position.afterChar ⟨1, 0⟩ := by
  have hself : (SourceText.ofString s).text = s := commentOutShebang_eq_self hshebang
  rw [position_eq_afterChars, hself, htext, begunBefore_byteLength]

/-! ## Characters at their positions -/

/-- **Where no return stands alone in front of a character, it is found at its position.** -/
theorem charAt?_of_noLoneReturns (hshebang : ¬ "#!".toList <+: s.toList) (htext : s.toList = front ++ c :: back)
    (hc : endsLine c = false) (hlone : loneReturns front = 0) :
    (SourceText.ofString s).charAt? (byteLength front) = some c := by
  have hclean : CutsCleanly front (c :: back) := fun _ => by simpa using (ne_of_endsLine hc).1
  obtain ⟨done, hlength, hlines⟩ := breakLinesFrom_append [] hclean
  obtain ⟨rest, later, hfirst⟩ := breakLinesFrom_head (c :: openLine [] front) back
  have hindex : 1 + front.count '\n' - 1 = done.length := by omega
  have hcolumn : (front.foldl Position.afterChar ⟨1, 0⟩).column = (openLine [] front).length :=
    column_afterChars_of_noLoneReturns 1 [] hlone
  have hgiven : (SourceText.ofString s).given = s := rfl
  rw [SourceText.charAt?, position_behind hshebang htext, line_afterChars, hcolumn, SourceText.lines, hgiven, htext,
    hlines, breakLinesFrom_cons hc, hfirst, hindex]
  simp

/-- **What is at the position of the first character behind returns that stand alone is not that character.** -/
theorem charAt?_behind_loneReturns (hshebang : ¬ "#!".toList <+: s.toList) (htext : s.toList = front ++ (ends ++ c :: back))
    (hc : endsLine c = false) (hends : ∀ e ∈ ends, endsLine e = true) (hlast : front.getLast? ≠ some '\r')
    (hfront : loneReturns front = 0) (hlone : loneReturns ends ≠ 0) :
    (SourceText.ofString s).charAt? (byteLength (front ++ ends)) = none := by
  have hcut : CutsCleanly front (ends ++ c :: back) := fun h => absurd h hlast
  obtain ⟨done, hlength, hlines⟩ := breakLinesFrom_append [] hcut
  have hclean : CutsCleanly ends (c :: back) := fun _ => by simpa using (ne_of_endsLine hc).1
  have hindex : 1 + (front ++ ends).count '\n' - 1 = done.length + ends.count '\n' := by
    rw [List.count_append]
    omega
  have hline := breakLinesFrom_ends (openLine [] front) hends hclean (i := ends.count '\n') (by omega)
  have hgiven : (SourceText.ofString s).given = s := rfl
  rw [SourceText.charAt?, position_behind hshebang (htext.trans (List.append_assoc _ _ _).symm), line_afterChars,
    SourceText.lines, hgiven, htext, hlines, hindex, List.getElem?_map, List.getElem?_append_right (by omega),
    Nat.add_sub_cancel_left, hline, Option.map_some, Option.bind_some, String.toList_ofList]
  split
  · next hnone =>
    -- the line of the character in front of the returns, which is shorter
    have hnewline : '\n' ∉ ends := List.count_eq_zero.1 hnone
    have hcolumn : (front.foldl Position.afterChar ⟨1, 0⟩).column = (openLine [] front).length :=
      column_afterChars_of_noLoneReturns 1 [] hfront
    rw [List.foldl_append, column_afterChars_of_not_mem hnewline, hcolumn]
    exact List.getElem?_eq_none (by simp)
  · rfl

theorem loneReturns_concat (h : endsLine c = false) : loneReturns (front ++ [c]) = loneReturns front := by
  obtain ⟨hn, hr⟩ := ne_of_endsLine h
  rw [loneReturns_append fun _ => by simpa using hn, loneReturns_cons hr]
  rfl

/-- the line ends that some characters end with -/
theorem exists_trailing_ends (cs : List Char) : ∃ start ends, cs = start ++ ends ∧ (∀ e ∈ ends, endsLine e = true) ∧
    ∀ d ∈ start.getLast?, endsLine d = false := by
  refine ⟨cs.rdropWhile endsLine, cs.rtakeWhile endsLine, List.rdropWhile_append_rtakeWhile.symm,
    fun e he => List.mem_rtakeWhile_imp he, fun d hd => ?_⟩
  obtain ⟨hne, rfl⟩ := List.mem_getLast?_eq_getLast hd
  simpa using List.rdropWhile_last_not endsLine cs hne

/-- in a text all of whose characters are found no return stands alone in front of one -/
theorem loneReturns_of_found (hshebang : ¬ "#!".toList <+: s.toList)
    (hfound : ∀ front c, Shows s front c → (SourceText.ofString s).charAt? (byteLength front) = some c)
    (h : Shows s front c) : loneReturns front = 0 := by
  induction hlength : front.length using Nat.strong_induction_on generalizing front c with
  | _ n ih =>
    -- in front of the character there are line ends, and in front of them a character that ends no line
    obtain ⟨start, ends, rfl, hends, hlast⟩ := exists_trailing_ends front
    have hstart : loneReturns start = 0 := by
      rcases List.eq_nil_or_concat start with rfl | ⟨before, d, rfl⟩
      · rfl
      · rw [List.concat_eq_append] at *
        have hd : endsLine d = false := hlast d (by simp)
        have hshown : Shows s before d := ⟨(List.prefix_append _ _).trans ((List.prefix_append _ _).trans h.text), hd⟩
        rw [loneReturns_concat hd]
        exact ih before.length (by simp at hlength; omega) hshown rfl
    have hreturn : start.getLast? ≠ some '\r' := fun he => absurd (hlast _ he) (by decide)
    by_contra hlone
    rw [loneReturns_append fun he => absurd he hreturn, hstart, Nat.zero_add] at hlone
    obtain ⟨back, hback⟩ := h.text
    have htext : s.toList = start ++ (ends ++ c :: back) := by simpa using hback.symm
    have hnone := charAt?_behind_loneReturns hshebang htext h.notEnd hends hreturn hstart hlone
    rw [hfound _ _ h] at hnone
    cases hnone

/-- **Characters are found at their positions where no return stands alone in front of them.** The lines that are put into
a trace then hold each character on the line and in the column of its position; so they do for all characters of a text
exactly if none of them is behind such a return. -/
theorem char_found_at_position (hshebang : ¬ "#!".toList <+: s.toList) :
    (∀ front c, Shows s front c → loneReturns front = 0 →
      (SourceText.ofString s).charAt? (byteLength front) = some c) ∧
    ((∀ front c, Shows s front c → (SourceText.ofString s).charAt? (byteLength front) = some c) ↔
      ∀ front c, Shows s front c → loneReturns front = 0) ∧
    ∀ (u : SourceUnit) (read : TreeReader) (o : Options) (p : Product), u.code = s → o.embedSource = true →
      (u.phases read o).result = .ok p → p.trace.code = some ((SourceText.ofString s).lines.map Json.string) := by
  have hfound : ∀ front c, Shows s front c → loneReturns front = 0 →
      (SourceText.ofString s).charAt? (byteLength front) = some c := by
    intro front c h hlone
    obtain ⟨back, hback⟩ := h.text
    exact charAt?_of_noLoneReturns hshebang (by simpa using hback.symm) h.notEnd hlone
  refine ⟨hfound, ⟨fun hall front c h => loneReturns_of_found hshebang hall h,
    fun hall front c h => hfound front c h (hall front c h)⟩, ?_⟩
  rintro u read o p rfl hembed hp
  rw [(SourceUnit.product hp).1, if_pos hembed]
  rfl

/-- behind a return with its newline, a newline and a character of two bytes -/
theorem char_found_at_position_umlaut : Shows "a\r\né\nb" ['a', '\r', '\n', 'é', '\n'] 'b' ∧
    (SourceText.ofString "a\r\né\nb").charAt? 6 = some 'b' ∧
    (SourceText.ofString "a\r\né\nb").lines = ["a", "é", "b"] := by
  have h : Shows "a\r\né\nb" ['a', '\r', '\n', 'é', '\n'] 'b' := ⟨by decide, by decide⟩
  exact ⟨h, (char_found_at_position (by decide)).1 _ _ h (by decide), by decide⟩

/-- behind a return that stands alone, on the second line but at a position on the first -/
theorem char_not_found_behind_return : ¬ "#!".toList <+: "a\rb".toList ∧ Shows "a\rb" ['a', '\r'] 'b' ∧
    (SourceText.ofString "a\rb").position 2 = ⟨1, 2⟩ ∧ (SourceText.ofString "a\rb").lines = ["a", "b"] ∧
    (SourceText.ofString "a\rb").charAt? 2 ≠ some 'b' := by
  exact ⟨by decide, ⟨by decide, by decide⟩, by decide, by decide, by decide⟩

end Turnstile
