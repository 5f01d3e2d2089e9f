/-
The literals of the preamble.

A preamble is code of its own with three literals in it: the trace variable, the key and the entry of the file.
- `preambleParts`, `preambleText_eq`: the preamble part by part;
- `PreamblePart.front?_text`: a literal ends exactly where a reader ends it, whatever follows;
- `PreamblePart.text_joined`: a pair of surrogates is spliced like the code point it stands for;
- `preamble_literals_read_back`: in both layouts the literals are visible, end where a reader ends them, and read back to the
  trace variable, the key and an entry that holds the trace;
- `preamble_limits`: what has no preamble, and what reads back as something else.
-/
import Mathlib.Data.List.TakeWhile
import Turnstile.Emit.Snippet
import Turnstile.Proofs.Coverage.WireForm

namespace Turnstile

/-! ## Parts -/

/-- what a preamble is made of: code of its own, and three literals -/
inductive PreamblePart where
  | code (s : String)
  | traceVariable
  | key
  | entry
  deriving DecidableEq, Repr

/-- a statement of a preamble with the number of blocks around it -/
structure PreambleLine where
  depth : ℕ
  parts : List PreamblePart

open PreamblePart in
/-- the statements that bind the tracker, first making the record and the entry of the key where they are missing -/
def preambleLines (tracker : String) : List PreambleLine := [
  ⟨0, [code "var ", code tracker, code " = (Function('return this'))();"]⟩,
  ⟨0, [code "if (!", code tracker, code "[", traceVariable, code "])", code " \x7b"]⟩,
  ⟨1, [code tracker, code "[", traceVariable, code "] = \x7b\x7d;"]⟩,
  ⟨0, [code "\x7d"]⟩,
  ⟨0, [code tracker, code " = ", code tracker, code "[", traceVariable, code "];"]⟩,
  ⟨0, [code "if (!(", code tracker, code "[", key, code "]))", code " \x7b"]⟩,
  ⟨1, [code tracker, code "[", key, code "] = ", entry, code ";"]⟩,
  ⟨0, [code "\x7d"]⟩,
  ⟨0, [code tracker, code " = ", code tracker, code "[", key, code "];"]⟩]

/-- statements on one line with a blank between two, or each on a line of its own, indented by four blanks a block -/
def preambleParts (tracker : String) (compact : Bool) : List PreamblePart :=
  if compact then [PreamblePart.code " "].intercalate ((preambleLines tracker).map PreambleLine.parts)
  else (preambleLines tracker).flatMap fun line =>
    .code (String.ofList (List.replicate (4 * line.depth) ' ')) :: line.parts ++ [.code "\n"]

section Parts

variable {σ : Type} [Text.CodeText σ] (traceVariable key : σ) (entry : Json σ) (compact : Bool)

namespace PreamblePart

def text : PreamblePart → String
  | code s => s
  | .traceVariable => literalText traceVariable
  | .key => literalText key
  | .entry => entry.render (entryLayout compact)

/-- what a literal stands for -/
def value? : PreamblePart → Option (Json σ)
  | code _ => none
  | .traceVariable => some (.string traceVariable)
  | .key => some (.string key)
  | .entry => some entry

end PreamblePart

/-- the text of some parts -/
def partsText (ps : List PreamblePart) : String :=
  String.join (ps.map (PreamblePart.text traceVariable key entry compact))

/-- a preamble is the text of its parts -/
theorem preambleText_eq (tracker : String) :
    preambleText tracker (literalText traceVariable) (literalText key) (entry.render (entryLayout compact)) compact =
      partsText traceVariable key entry compact (preambleParts tracker compact) := by
  cases compact <;>
    simp [preambleText, partsText, preambleParts, preambleLines, entryLayout, PreamblePart.text, Output.statement,
      Output.startBlock, Output.endBlock, Output.empty, String.append_assoc, -String.reduceAppend]

end Parts

/-! ## Literals -/

theorem Json.Layout.oneLine_spaced : Layout.spaced.OneLine := ⟨rfl, by decide, by decide⟩

theorem oneLine_entryLayout (compact : Bool) : (entryLayout compact).OneLine := by
  cases compact with
  | false => exact Json.Layout.oneLine_spaced
  | true => exact Json.Layout.oneLine_compact

theorem separates_entryLayout (compact : Bool) : (entryLayout compact).Separates := by
  cases compact with
  | false => exact Json.Layout.separates_spaced
  | true => exact Json.Layout.separates_compact

/-! ### Entries -/

namespace Json

variable {σ : Type}

theorem isWritable_array_iff {items : List (Json σ)} : (array items).isWritable = true ↔ ∀ v ∈ items, v.isWritable = true := by
  rw [isWritable]
  induction items with
  | nil => simp [areWritable]
  | cons v items ih => simp [areWritable, ih]

theorem isWritable_object_iff {fields : List (String × Json σ)} :
    (object fields).isWritable = true ↔ ∀ f ∈ fields, f.2.isWritable = true := by
  rw [isWritable]
  induction fields with
  | nil => simp [fieldsWritable]
  | cons f fields ih => simp [fieldsWritable, ih]

end Json

namespace Trace

variable {σ : Type} [Text.CodeText σ] {t : Trace σ}

omit [Text.CodeText σ] in
/-- a trace with other source lines -/
def withLines (t : Trace σ) (lines : Option (List σ)) : Trace σ := { t with code := lines.map (·.map .string) }

/-- source lines with a code point for each pair of surrogates -/
def joinedLines (lines : Option (List σ)) : Option (List σ) := lines.map (·.map Text.CodeText.joined)

theorem legible_withLines {lines : Option (List σ)} (h : ∀ ls ∈ lines, ∀ s ∈ ls, Text.CodeText.NoPair s) :
    (t.withLines lines).toJson.Legible := by
  refine legible_toJson fun items hitems line hline => ?_
  obtain ⟨ls, hls, rfl⟩ := Option.map_eq_some_iff.1 hitems
  obtain ⟨s, hs, rfl⟩ := List.mem_map.1 hline
  exact .string (h ls hls s hs)

theorem noPair_joinedLines (lines : Option (List σ)) : ∀ ls ∈ joinedLines lines, ∀ s ∈ ls, Text.CodeText.NoPair s := by
  intro ls hls s hs
  obtain ⟨texts, -, rfl⟩ := Option.map_eq_some_iff.1 hls
  obtain ⟨s, -, rfl⟩ := List.mem_map.1 hs
  exact Json.noPair_joined s

/-- joining the pairs in source lines does not show in the text of an entry -/
theorem render_joinedLines (lines : Option (List σ)) (l : Json.Layout) :
    (t.withLines (joinedLines lines)).toJson.render l = (t.withLines lines).toJson.render l := by
  cases lines with
  | none => rfl
  | some lines =>
    simp [Json.render, toJson, withLines, joinedLines, Json.write, Json.writeFields_eq, Json.writeItems_eq, Json.literal_joined,
      Function.comp_def]

omit [Text.CodeText σ] in
/-- an entry is written if the counts of its trace are -/
theorem isWritable_withLines {lines : Option (List σ)} (h : ∀ n ∈ (t.withLines lines).counts, Text.IsWritable n) :
    (t.withLines lines).toJson.isWritable = true := by
  have hcounts : ∀ {α : Type} {value : α → Json σ} (m : OrderedMap ℤ α), (∀ x ∈ m.values, (value x).isWritable = true) →
      (countsJson value m).isWritable = true := by
    intro α value m hvalues
    rw [countsJson, Json.isWritable_object_iff]
    intro f hf
    obtain ⟨e, he, rfl⟩ := List.mem_map.1 hf
    exact hvalues e.2 (List.mem_map_of_mem he)
  have hint : ∀ {n : ℤ}, Text.IsWritable n → (Json.int n : Json σ).isWritable = true := fun hn => by
    simpa [Json.isWritable] using hn
  have hslots : ∀ {ns : List ℤ}, (∀ n ∈ ns, Text.IsWritable n) → (Json.array (ns.map .int) : Json σ).isWritable = true := by
    intro ns hns
    rw [Json.isWritable_array_iff]
    intro v hv
    obtain ⟨n, hn, rfl⟩ := List.mem_map.1 hv
    exact hint (hns n hn)
  simp only [counts, List.forall_mem_append, List.forall_mem_flatten] at h
  obtain ⟨⟨hstatements, hbranches⟩, hfunctions⟩ := h
  rw [toJson, Json.isWritable_object_iff]
  intro f hf
  simp only [List.mem_append, List.mem_cons, List.not_mem_nil, or_false, Option.mem_toList, Option.map_eq_some_iff] at hf
  rcases hf with (rfl | rfl | rfl) | ⟨items, hitems, rfl⟩
  · exact hcounts _ fun n hn => hint (hstatements n hn)
  · exact hcounts _ fun ns hns => hslots (hbranches ns hns)
  · exact hcounts _ fun n hn => hint (hfunctions n hn)
  · rw [Json.isWritable_array_iff]
    obtain ⟨texts, -, rfl⟩ := Option.map_eq_some_iff.1 hitems
    intro v hv
    obtain ⟨s, -, rfl⟩ := List.mem_map.1 hv
    rfl

end Trace

/-! ### Parts as literals -/

namespace PreamblePart

variable {σ : Type} [Text.CodeText σ] {traceVariable key : σ} {entry v : Json σ} {compact : Bool} {p : PreamblePart}

theorem toList_literalText (s : σ) : (literalText s).toList = Json.literal s := by rw [literalText, String.toList_ofList]

theorem visible_text (hentry : entry.Legible) (hv : p.value? traceVariable key entry = some v) :
    Visible (p.text traceVariable key entry compact).toList := by
  cases p with
  | code s => cases hv
  | traceVariable =>
    rw [text, toList_literalText]
    exact Json.visible_literal traceVariable
  | key =>
    rw [text, toList_literalText]
    exact Json.visible_literal key
  | entry => exact Json.visible_render (oneLine_entryLayout compact) hentry.noFloats

/-- **A literal ends where a reader ends it**, whatever follows. -/
theorem front?_text (hvariable : Text.CodeText.NoPair traceVariable) (hkey : Text.CodeText.NoPair key) (hentry : entry.Legible)
    (hobject : ∀ n, entry ≠ .int n) (hv : p.value? traceVariable key entry = some v) (rest : List Char) :
    Json.front? ((p.text traceVariable key entry compact).toList ++ rest) = some (v, rest) := by
  cases p with
  | code s => cases hv
  | traceVariable =>
    cases hv
    rw [text, toList_literalText, Json.front?_literal hvariable]
  | key =>
    cases hv
    rw [text, toList_literalText, Json.front?_literal hkey]
  | entry =>
    cases hv
    rw [text, Json.render, String.toList_ofList]
    refine Json.front?_write (separates_entryLayout compact) hentry ?_
    rintro ⟨n, hn⟩
    exact absurd hn (hobject n)

/-- **A pair of surrogates is spliced like the code point it stands for.** -/
theorem text_joined (t : Trace σ) (lines : Option (List σ)) :
    p.text (Text.CodeText.joined traceVariable) key (t.withLines (Trace.joinedLines lines)).toJson compact =
      p.text traceVariable key (t.withLines lines).toJson compact := by
  cases p with
  | code s => rfl
  | traceVariable => simp only [text, literalText, Json.literal_joined]
  | key => rfl
  | entry => exact Trace.render_joinedLines lines _

end PreamblePart

/-! ## Preambles -/

section Preambles

variable {σ : Type} [Text.CodeText σ]

/-- a key that a digest is taken of has no surrogates -/
theorem noPair_of_string? {key : σ} {name : String} (h : Text.CodeText.string? key = .ok name) : Text.CodeText.NoPair key := by
  have hplain : ∀ n ∈ Text.CodeText.points key, Text.isSurrogate n = false := by
    rw [Text.CodeText.string?] at h
    split at h
    · next hnone =>
      intro n hn
      simpa using List.dropWhile_eq_nil_iff.1 hnone n hn
    · cases h
  intro before high low after hpoints hpair
  have hhigh := hplain high (by simp [hpoints])
  rw [Text.isSurrogate, hpair.1, Bool.true_or] at hhigh
  cases hhigh

omit [Text.CodeText σ] in
/-- a preamble for characters is the one of generated code -/
theorem preamble?_string (traceVariable key : String) {entry : Json} (h : entry.isWritable = true) (compact : Bool) :
    preamble? traceVariable key entry compact = .ok (preamble traceVariable key entry compact) := by
  have hkey : Text.CodeText.string? key = .ok key := by
    have hplain : (Text.CodeText.points key).dropWhile (!Text.isSurrogate ·) = [] := by
      rw [List.dropWhile_eq_nil_iff]
      intro n hn
      obtain ⟨c, -, rfl⟩ := List.mem_map.1 hn
      rw [Json.not_isSurrogate_toNat, Bool.not_false]
    rw [Text.CodeText.string?, hplain]
    simp
  rw [preamble?, hkey, Json.render?, if_pos h]
  rfl

/-- **The literals of a preamble read back.** Take any trace variable, any key of characters, and a trace with any source lines,
in either layout, with ids and counts of at most `Text.digitLimit` digits. The trace has an entry, and there is a preamble: its
parts one after another. Each literal among them is visible, and a reader that starts at it gives back the trace variable, the
key or the entry and stops where the next part begins; the entry, read under the key of the file, is the trace. Two halves of a
pair of surrogates side by side read back as the code point they stand for; all else reads back as it is. -/
theorem preamble_literals_read_back (traceVariable key : σ) (name : String) (statements functions : OrderedMap ℤ ℤ)
    (branches : OrderedMap ℤ (List ℤ)) (code : Option (List σ)) (compact : Bool)
    (hname : Text.CodeText.string? key = .ok name) :
    let tables : Trace σ := ⟨statements, branches, functions, none⟩
    let trace := tables.withLines code
    let readBack := tables.withLines (Trace.joinedLines code)
    let parts := preambleParts (trackerName name) compact
    let text := partsText traceVariable key trace.toJson compact
    (∀ n ∈ trace.ids ++ trace.counts, Text.IsWritable n) →
    trace.toJson? = some trace.toJson ∧ preamble? traceVariable key trace.toJson compact = .ok (text parts) ∧
    (∀ before p after v, parts = before ++ p :: after →
      p.value? (Text.CodeText.joined traceVariable) key readBack.toJson = some v →
      Visible (p.text traceVariable key trace.toJson compact).toList ∧
      Json.front? (text (p :: after)).toList = some (v, (text after).toList)) ∧
    (∃ r, HitRecord.ofJson? (.object [(name, readBack.toJson)]) = .ok r ∧ r.keys = [name] ∧ r.files.get? name = some readBack) ∧
    (∀ s : σ, Text.CodeText.NoPair s → Text.CodeText.joined s = s) := by
  intro tables trace readBack parts text hwritten
  rw [List.forall_mem_append] at hwritten
  obtain ⟨hids, hcounts⟩ := hwritten
  have hentry : readBack.toJson.Legible := Trace.legible_withLines (Trace.noPair_joinedLines code)
  have hobject : ∀ n, readBack.toJson ≠ .int n := by
    intro n hn
    cases hn
  refine ⟨if_pos hids, ?_, fun before p after v _ hv => ⟨?_, ?_⟩, ?_, fun s => Json.joined_eq_self⟩
  · rw [preamble?, hname, Json.render?, if_pos (Trace.isWritable_withLines hcounts)]
    exact congrArg Except.ok (preambleText_eq traceVariable key trace.toJson compact (trackerName name))
  · rw [← PreamblePart.text_joined]
    exact PreamblePart.visible_text hentry hv
  · have htext : text (p :: after) = p.text traceVariable key trace.toJson compact ++ text after := by
      simp [text, partsText]
    rw [htext, String.toList_append, ← PreamblePart.text_joined]
    exact PreamblePart.front?_text (Json.noPair_joined traceVariable) (noPair_of_string? hname) hentry hobject hv _
  · have hrecord : (⟨.ofList [(name, readBack)]⟩ : HitRecord σ).IsWritable := by
      intro t ht
      obtain rfl : t = readBack := List.mem_singleton.1 ht
      exact hids
    exact ⟨⟨.ofList [(name, readBack)]⟩, HitRecord.ofJson?_toJson hrecord, rfl, by
      simp [OrderedMap.ofList, OrderedMap.get?_put]⟩

end Preambles

/-- surrogates side by side and alone, ids and counts of either sign -/
theorem preamble_literals_read_back_surrogates :
    let tables : Trace Text.PointText :=
      ⟨⟨[(-12, 34)], by decide⟩, ⟨[(1, [0, 5, -3]), (0, [])], by decide⟩, ⟨[(7, -8)], by decide⟩, none⟩
    let trace := tables.withLines (some [[0xD83D, 0xDE00], [0xDE00, 0xD83D], []])
    let readBack := tables.withLines (some [[0x1F600], [0xDE00, 0xD83D], []])
    (∀ n ∈ trace.ids ++ trace.counts, Text.IsWritable n) ∧
    ∃ r, HitRecord.ofJson? (.object [("é", readBack.toJson)]) = .ok r ∧ r.files.get? "é" = some readBack := by
  intro tables trace readBack
  have hwritten : ∀ n ∈ trace.ids ++ trace.counts, Text.IsWritable n := by decide
  obtain ⟨-, -, -, ⟨r, hr, -, hget⟩, -⟩ := preamble_literals_read_back ([0xDC00] : Text.PointText) [0xE9] "é"
    tables.statements tables.functions tables.branches (some [[0xD83D, 0xDE00], [0xDE00, 0xD83D], []]) false rfl hwritten
  exact ⟨hwritten, r, hr, hget⟩

/-- an entry with one count -/
def Trace.ofCount (n : ℤ) : Trace := ⟨⟨[(1, n)], List.nodup_singleton _⟩, .empty, .empty, none⟩

theorem Trace.preamble?_of_long_count {n : ℤ} (hlong : ¬ Text.IsWritable n) :
    preamble? "" "" (ofCount n).toJson true = .error .longInteger := by
  have hwritten : (ofCount n).toJson.isWritable = false := by
    simp [ofCount, toJson, countsJson, Json.isWritable, Json.fieldsWritable, hlong]
  rw [preamble?, Json.render?, hwritten]
  rfl

/-- an id or a count with a digit too many has no preamble, nor has a surrogate in the key, and two halves of a pair of
surrogates read back as one code point -/
theorem preamble_limits : (Trace.ofStatement (10 ^ 4300)).toJson? = none ∧
    preamble? "" "" (Trace.ofCount (10 ^ 4300)).toJson true = .error .longInteger ∧
    preamble? [] ([0x61, 0xD800] : Text.PointText) .null true = .error (.surrogates 1 [0xD800]) ∧
    Json.front? (literalText ([0xD83D, 0xDE00] : Text.PointText)).toList = some (.string ([0x1F600] : Text.PointText), []) := by
  have hlong : ¬ Text.IsWritable (10 ^ 4300) := Text.not_isWritable_pow le_rfl
  refine ⟨(Trace.no_wireForm hlong).1, Trace.preamble?_of_long_count hlong, rfl, ?_⟩
  have hjoined : Text.CodeText.joined ([0xD83D, 0xDE00] : Text.PointText) = [0x1F600] := rfl
  have hread := Json.front?_literal (Json.noPair_joined ([0xD83D, 0xDE00] : Text.PointText)) []
  rwa [Json.literal_joined, hjoined, List.append_nil, ← PreamblePart.toList_literalText] at hread

end Turnstile
