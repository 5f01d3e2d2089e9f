/-
Texts of visible characters.

A text of the characters from the space to `~` ends no line, whatever a line terminator is taken to be.
- `visible_literal`: a string literal is such a text, whatever the string holds;
- `visible_render`: so is a value without floating point numbers in a layout on one line;
- `visible_integerText`, `Digest.visible_ofText`: so are numbers and digests.
-/
import Mathlib.Tactic
import Turnstile.Json.Writer
import Turnstile.Text.Digest

namespace Turnstile

/-! ## Visible characters -/

def isVisible (c : Char) : Bool := 0x20 ≤ c.toNat && c.toNat ≤ 0x7E

/-- nothing but visible characters -/
def Visible (cs : List Char) : Prop := ∀ c ∈ cs, isVisible c = true

instance (cs : List Char) : Decidable (Visible cs) := decidable_of_iff (cs.all isVisible = true) List.all_eq_true

/-- a character that ends a line of a script -/
def isLineTerminator (c : Char) : Bool := c = '\n' || c = '\r' || c.toNat = 0x2028 || c.toNat = 0x2029

theorem not_isLineTerminator_of_isVisible {c : Char} (h : isVisible c = true) : isLineTerminator c = false := by
  have hrange : 0x20 ≤ c.toNat ∧ c.toNat ≤ 0x7E := by simpa [isVisible] using h
  have hnewline : c ≠ '\n' := by
    rintro rfl
    exact absurd hrange (by decide)
  have hreturn : c ≠ '\r' := by
    rintro rfl
    exact absurd hrange (by decide)
  have hseparators : c.toNat ≠ 0x2028 ∧ c.toNat ≠ 0x2029 := by omega
  simp [isLineTerminator, hnewline, hreturn, hseparators]

section Lists

variable {cs ds : List Char}

@[simp] theorem visible_nil : Visible [] := by simp [Visible]

@[simp] theorem visible_cons_iff {c : Char} : Visible (c :: cs) ↔ isVisible c = true ∧ Visible cs := List.forall_mem_cons

@[simp] theorem visible_append : Visible (cs ++ ds) ↔ Visible cs ∧ Visible ds := List.forall_mem_append

theorem visible_flatMap {α : Type} {l : List α} {f : α → List Char} (h : ∀ x ∈ l, Visible (f x)) :
    Visible (l.flatMap f) := by
  intro c hc
  obtain ⟨x, hx, hcx⟩ := List.mem_flatMap.1 hc
  exact h x hx c hcx

theorem visible_intercalate {l : List (List Char)} (hcs : Visible cs) (h : ∀ x ∈ l, Visible x) :
    Visible (cs.intercalate l) := by
  induction l with
  | nil => simp
  | cons x l ih =>
    cases l with
    | nil => simpa using h
    | cons y l =>
      have hrest := ih fun z hz => h z (List.mem_cons_of_mem _ hz)
      simp [List.intercalate_cons_cons, hcs, hrest, h x]

end Lists

/-! ## Digits -/

namespace Text

theorem isVisible_hexDigit : ∀ n < 16, isVisible (hexDigit n) = true := by decide

theorem visible_hexDigits (width n : ℕ) : Visible (hexDigits width n) := by
  induction width generalizing n with
  | zero => simp [hexDigits]
  | succ width ih => simp [hexDigits, ih, isVisible_hexDigit _ (Nat.mod_lt n (by norm_num))]

theorem visible_integerText (n : ℤ) : Visible (integerText n).toList := by
  have hdigits : Visible (Nat.toDigits 10 n.natAbs) := by
    intro c hc
    have hdigit := Nat.isDigit_of_mem_toDigits (by norm_num) le_rfl hc
    simp only [Char.isDigit, Bool.and_eq_true, decide_eq_true_eq, ge_iff_le, UInt32.le_iff_toNat_le] at hdigit
    have hrange : 48 ≤ c.toNat ∧ c.toNat ≤ 57 := hdigit
    simp only [isVisible, Bool.and_eq_true, decide_eq_true_eq]
    omega
  rw [integerText]
  split
  · have hsign : Visible "-".toList := by decide
    simp only [String.toList_append, String.toList_ofList, visible_append]
    exact ⟨hsign, hdigits⟩
  · simpa using hdigits

theorem Digest.visible_ofText (n : ℕ) (s : String) : Visible (Digest.ofText n s).toList := by
  rw [Digest.ofText, String.toList_ofList]
  intro c hc
  have hvisible : Visible (Digest.md5 s.toUTF8.data.toList) :=
    visible_flatMap fun w _ => visible_flatMap fun b _ => visible_hexDigits 2 b.toNat
  exact hvisible c (List.mem_of_mem_take hc)

end Text

/-! ## JSON -/

namespace Json

theorem visible_unitEscape (n : ℕ) : Visible (unitEscape n) := by
  have hfront : isVisible '\\' = true ∧ isVisible 'u' = true := by decide
  simp [unitEscape, hfront, Text.visible_hexDigits]

theorem visible_escapedChar (c : Char) : Visible (escapedChar c) := by
  unfold escapedChar
  split_ifs with _ _ _ _ _ _ _ hrange
  all_goals try decide
  · simpa [isVisible] using hrange
  · exact visible_unitEscape _
  · simp [visible_unitEscape]

theorem visible_escaped (n : ℕ) : Visible (escaped n) := by
  rw [escaped]
  split
  · exact visible_unitEscape n
  · exact visible_escapedChar _

variable {σ : Type} [Text.CodeText σ]

/-- **A string literal is visible**, whatever code points the string has. -/
theorem visible_literal (s : σ) : Visible (literal s) := by
  have hquote : isVisible '"' = true := by decide
  simp [literal, hquote, visible_flatMap fun n _ => visible_escaped n]

/-- a value with no floating point number in it -/
inductive NoFloats : Json σ → Prop where
  | null : NoFloats .null
  | bool (b : Bool) : NoFloats (.bool b)
  | int (n : ℤ) : NoFloats (.int n)
  | string (s : σ) : NoFloats (.string s)
  | array {items : List (Json σ)} (items_noFloats : ∀ v ∈ items, NoFloats v) : NoFloats (.array items)
  | object {fields : List (String × Json σ)} (fields_noFloats : ∀ f ∈ fields, NoFloats f.2) : NoFloats (.object fields)

/-- everything on one line -/
structure Layout.OneLine (l : Layout) : Prop where
  indent : l.indent = none
  itemSeparator : Visible l.itemSeparator
  keySeparator : Visible l.keySeparator

theorem Layout.oneLine_compact : Layout.compact.OneLine := ⟨rfl, by decide, by decide⟩

variable {l : Layout}

theorem writeItems_eq (depth : ℕ) (items : List (Json σ)) : writeItems l depth items = items.map (write l depth) := by
  induction items with
  | nil => rfl
  | cons v items ih => simp [writeItems, ih]

theorem writeFields_eq (depth : ℕ) (fields : List (String × Json σ)) : writeFields l depth fields =
    fields.map fun f => literal f.1 ++ l.keySeparator ++ write l depth f.2 := by
  induction fields with
  | nil => rfl
  | cons f fields ih => simp [writeFields, ih]

theorem Layout.OneLine.visible_enclose (hl : l.OneLine) (depth : ℕ) {opening closing : Char} {items : List (List Char)}
    (hbrackets : isVisible opening = true ∧ isVisible closing = true) (hitems : ∀ x ∈ items, Visible x) :
    Visible (l.enclose depth opening closing items) := by
  have hbreak : ∀ depth, l.lineBreak depth = [] := by
    intro depth
    simp [lineBreak, hl.indent]
  cases items with
  | nil => simp [enclose, hbrackets]
  | cons x items => simp [enclose, hbreak, hbrackets, visible_intercalate hl.itemSeparator hitems]

theorem visible_write (hl : l.OneLine) {v : Json σ} (hv : v.NoFloats) (depth : ℕ) : Visible (write l depth v) := by
  induction hv generalizing depth with
  | null => rw [write]; decide
  | bool b => cases b <;> rw [write] <;> decide
  | int n =>
    rw [write]
    exact Text.visible_integerText n
  | string s =>
    rw [write]
    exact visible_literal s
  | array _ ih =>
    rw [write, writeItems_eq]
    refine hl.visible_enclose depth (by decide) fun x hx => ?_
    obtain ⟨v, hv, rfl⟩ := List.mem_map.1 hx
    exact ih v hv (depth + 1)
  | object _ ih =>
    rw [write, writeFields_eq]
    refine hl.visible_enclose depth (by decide) fun x hx => ?_
    obtain ⟨f, hf, rfl⟩ := List.mem_map.1 hx
    have hvalue := ih f hf (depth + 1)
    simp [visible_literal, hl.keySeparator, hvalue]

/-- **A value on one line is visible**, if no floating point number is in it. -/
theorem visible_render (hl : l.OneLine) {v : Json σ} (hv : v.NoFloats) : Visible (v.render l).toList := by
  rw [render, String.toList_ofList]
  exact visible_write hl hv 0

end Json

end Turnstile
