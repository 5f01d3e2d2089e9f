/-
The first line of a text without the blanks around it.

Line ends are blanks, so a text that begins with something else has a first line that is not empty.
- `strips_strip`: `strip` takes the blanks away from both ends, and nothing else;
- `exists_splitLines_eq`: what `splitLines` gives first is the first line, and a text that is not empty has one;
- `IsFirstLine.ne_nil`: the first line of a stripped text is not empty.
-/
import Mathlib.Data.List.TakeWhile
import Mathlib.Tactic
import Turnstile.Text.Blank

namespace Turnstile.Text

/-- `inner` is a text without the blanks at its ends -/
structure Strips (text inner : List Char) : Prop where
  around : ∃ lead trail, text = lead ++ inner ++ trail ∧
    (∀ c ∈ lead, isBlank c = true) ∧ ∀ c ∈ trail, isBlank c = true
  head : ∀ c ∈ inner.head?, isBlank c = false
  last : ∀ c ∈ inner.getLast?, isBlank c = false

/-- `line` is what stands in front of the first line end of a text, or all of a text without one -/
structure IsFirstLine (text line : List Char) : Prop where
  noEnds : ∀ c ∈ line, isLineEnd c = false
  rest : ∃ rest, text = line ++ rest ∧ ∀ c ∈ rest.head?, isLineEnd c = true

variable {cs text inner line : List Char} {c : Char}

/-! ## Without the blanks around -/

theorem not_isBlank_of_mem_head? (h : c ∈ (cs.dropWhile isBlank).head?) : isBlank c = false := by
  have hhead := List.head?_dropWhile_not isBlank cs
  rw [Option.mem_def.1 h] at hhead
  simpa using hhead

/-- **`strip` takes away the blanks at both ends**, and nothing else. -/
theorem strips_strip (cs : List Char) : Strips cs (strip cs) := by
  set inside := cs.dropWhile isBlank with hinside
  set trail := (inside.reverse.takeWhile isBlank).reverse with htrail
  have hsplit : inside = strip cs ++ trail := by
    have hreverse := congrArg List.reverse (List.takeWhile_append_dropWhile (p := isBlank) (l := inside.reverse))
    rw [List.reverse_append, List.reverse_reverse] at hreverse
    exact hreverse.symm
  refine ⟨⟨cs.takeWhile isBlank, trail, ?_, fun c hc => List.mem_takeWhile_imp hc, fun c hc => ?_⟩, fun c hc => ?_,
    fun c hc => ?_⟩
  · rw [List.append_assoc, ← hsplit, List.takeWhile_append_dropWhile]
  · exact List.mem_takeWhile_imp (List.mem_reverse.1 hc)
  · -- the stripped text begins what follows the blanks in front
    apply not_isBlank_of_mem_head?
    rw [← hinside, hsplit, List.head?_append, Option.mem_def.1 hc]
    rfl
  · rw [strip, trim, List.getLast?_reverse] at hc
    exact not_isBlank_of_mem_head? hc

theorem Strips.eq_nil_iff (h : Strips text inner) : inner = [] ↔ ∀ c ∈ text, isBlank c = true := by
  obtain ⟨lead, trail, rfl, hlead, htrail⟩ := h.around
  constructor
  · rintro rfl c hc
    rw [List.append_nil, List.mem_append] at hc
    exact hc.elim (hlead c) (htrail c)
  · intro hblank
    cases inner with
    | nil => rfl
    | cons c inner =>
      have hc := hblank c (List.mem_append_left _ (List.mem_append_right _ List.mem_cons_self))
      rw [h.head c rfl] at hc
      cases hc

/-! ## The first line -/

theorem isFirstLine_of_cons (hc : isLineEnd c = false) (h : IsFirstLine cs line) : IsFirstLine (c :: cs) (c :: line) := by
  obtain ⟨rest, rfl, hrest⟩ := h.rest
  exact ⟨List.forall_mem_cons.2 ⟨hc, h.noEnds⟩, rest, rfl, hrest⟩

theorem isFirstLine_nil_of_cons (hc : isLineEnd c = true) : IsFirstLine (c :: cs) [] :=
  ⟨by simp, c :: cs, rfl, fun d hd => Option.mem_some.1 hd ▸ hc⟩

/-- what is cut off first is the line being read, up to the first line end that follows -/
theorem exists_splitLinesFrom_eq (read cs : List Char) (hne : read ≠ [] ∨ cs ≠ []) :
    ∃ line more, splitLinesFrom read cs = (read.reverse ++ line) :: more ∧ IsFirstLine cs line := by
  induction read, cs using splitLinesFrom.induct with
  | case1 read hempty => simp_all
  | case2 read hfilled => exact ⟨[], [], by simp [splitLinesFrom, hfilled], by simp, [], rfl, by simp⟩
  | case3 read r => exact ⟨[], _, by rw [splitLinesFrom, List.append_nil], isFirstLine_nil_of_cons (by decide)⟩
  | case4 read c r hpair hend =>
    exact ⟨[], _, by rw [splitLinesFrom, if_pos hend, List.append_nil]; exact hpair, isFirstLine_nil_of_cons hend⟩
  | case5 read c r hpair hend ih =>
    obtain ⟨line, more, hlines, hline⟩ := ih (Or.inl (List.cons_ne_nil c read))
    refine ⟨c :: line, more, ?_, isFirstLine_of_cons (by simpa using hend) hline⟩
    rw [splitLinesFrom, if_neg hend, hlines]
    · simp
    · exact hpair

/-- **A text that is not empty has a first line**, which is the first of its lines. -/
theorem exists_splitLines_eq (hne : cs ≠ []) : ∃ line more, splitLines cs = line :: more ∧ IsFirstLine cs line :=
  exists_splitLinesFrom_eq [] cs (Or.inr hne)

/-- **The first line of a stripped text is not empty**, since no blank and so no line end is in front. -/
theorem IsFirstLine.ne_nil (hline : IsFirstLine inner line) (hinner : Strips text inner) (hne : inner ≠ []) : line ≠ [] := by
  rintro rfl
  obtain ⟨rest, hrest, hend⟩ := hline.rest
  obtain ⟨c, r, rfl⟩ := List.exists_cons_of_ne_nil hne
  have hblank := isBlank_of_isLineEnd c (hend c (by rw [← List.nil_append rest, ← hrest]; rfl))
  rw [hinner.head c rfl] at hblank
  cases hblank

end Turnstile.Text
