/-
Nothing is lost between insertions.

Wherever insertions stand, what is written is pieces of the source with the insertions between them, in text order.
- `Conserves`: some pieces make up a text, hold all insertions and, without them, the source;
- `exists_conserves`: a text with insertions comes of such pieces, for insertions at any offsets;
- `exists_insertAll?`: insertions between characters can be written;
- `KeepsLines`, `keepsLines_of_newline_notMem`: insertions without newlines leave every source character on its line.
-/
import Turnstile.Proofs.Emit.Weaving

namespace Turnstile

variable {α : Type} {render : α → String} {text : String}

/-! ## Pieces of a written text -/

namespace Piece

/-- what a piece inserts -/
def payload? : Piece α → Option α
  | source .. => none
  | inserted payload => some payload

@[simp] theorem payload?_source (start stop : ℕ) : (source start stop : Piece α).payload? = none := rfl

@[simp] theorem payload?_inserted (payload : α) : (inserted payload).payload? = some payload := rfl

end Piece

/-- some pieces make up a text; what they insert are the insertions in text order, and the rest is the source -/
structure Conserves (render : α → String) (text out : String) (es : List (Insertion α)) (ps : List (Piece α)) : Prop where
  written : out = piecesText render text.toUTF8 ps
  insertions : ps.filterMap Piece.payload? = (inTextOrder es).map Insertion.payload
  source : String.join (ps.map (Piece.verbatim text.toUTF8)) = text

theorem toByteArray_of_fromUTF8? {bytes : ByteArray} {s : String} (h : String.fromUTF8? bytes = some s) :
    s.toByteArray = bytes := by
  rw [String.fromUTF8?] at h
  split at h
  · cases h
    rfl
  · cases h

theorem sliceText_of_fromUTF8? {data : ByteArray} {start stop : ℕ} {s : String}
    (h : String.fromUTF8? (data.extract start stop) = some s) : sliceText data start stop = s := by
  rw [sliceText, h]
  rfl

/-- bytes up to an offset and from it on; an offset past the end leaves nothing -/
theorem extract_append_extract (data : ByteArray) {i j : ℕ} (h : i ≤ j) :
    data.extract i j ++ data.extract j data.size = data.extract i data.size := by
  rw [ByteArray.extract_append_extract, Nat.min_eq_left h]
  rcases Nat.lt_or_ge data.size j with hj | hj
  · apply ByteArray.ext
    rw [Nat.max_eq_left hj.le, ByteArray.data_extract, ByteArray.data_extract]
    exact Array.extract_of_size_lt hj
  · rw [Nat.max_eq_right hj]

/-- from a position on, what is written is pieces of the source with the insertions between them -/
theorem exists_pieces_of_insertFrom? {data : ByteArray} {position : ℕ} {done out : List String}
    {ts : List (Insertion α)} (h : insertFrom? render data position done ts = some out) : ∃ ps : List (Piece α),
      out = done.reverse ++ ps.map (Piece.text render data) ∧
      ps.filterMap Piece.payload? = ts.map Insertion.payload ∧
      (String.join (ps.map (Piece.verbatim data))).toByteArray = data.extract position data.size := by
  induction ts generalizing position done with
  | nil =>
    obtain ⟨rest, hrest, rfl⟩ := Option.map_eq_some_iff.1 h
    refine ⟨[.source position data.size], ?_, rfl, ?_⟩
    · simp [Piece.text, sliceText_of_fromUTF8? hrest]
    · simpa [Piece.verbatim, sliceText_of_fromUTF8? hrest] using toByteArray_of_fromUTF8? hrest
  | cons e ts ih =>
    rw [insertFrom?] at h
    split at h
    · next hlt =>
      split at h
      · next piece hpiece =>
        obtain ⟨ps, rfl, hpayloads, hsource⟩ := ih h
        have hle : position ≤ e.offset.toNat := by omega
        refine ⟨.source position e.offset.toNat :: .inserted e.payload :: ps, ?_, ?_, ?_⟩
        · simp [Piece.text, sliceText_of_fromUTF8? hpiece]
        · simp [List.filterMap_cons, hpayloads]
        · rw [← extract_append_extract data hle, ← hsource, ← toByteArray_of_fromUTF8? hpiece]
          simp [Piece.verbatim, sliceText_of_fromUTF8? hpiece, String.toByteArray_append]
      · cases h
    · obtain ⟨ps, rfl, hpayloads, hsource⟩ := ih h
      refine ⟨.inserted e.payload :: ps, ?_, ?_, ?_⟩
      · simp [Piece.text]
      · simp [hpayloads]
      · simpa [Piece.verbatim] using hsource

/-- **The source is conserved.** A text with insertions is the source in pieces with the insertions between them. -/
theorem exists_conserves {es : List (Insertion α)} {out : String} (h : insertAll? render text.toUTF8 es = some out) :
    ∃ ps, Conserves render text out es ps := by
  obtain ⟨parts, hparts, rfl⟩ := Option.map_eq_some_iff.1 h
  obtain ⟨ps, rfl, hpayloads, hsource⟩ := exists_pieces_of_insertFrom? hparts
  refine ⟨ps, rfl, hpayloads, ?_⟩
  rw [← String.toByteArray_inj, hsource]
  exact ByteArray.extract_zero_size

/-! ## Insertions between characters -/

variable (render) in
theorem exists_insertFrom? {position : ℕ} {ts : List (Insertion α)} (done : List String) (hposition : Boundary text position)
    (h : ∀ e ∈ ts, ∃ i : ℕ, e.offset = i ∧ Boundary text i) :
    ∃ out, insertFrom? render text.toUTF8 position done ts = some out := by
  induction ts generalizing position done with
  | nil => exact ⟨_, by rw [insertFrom?, fromUTF8?_slice hposition (boundary_size text) hposition.le_size]; rfl⟩
  | cons e ts ih =>
    obtain ⟨i, hoffset, hi⟩ := h e List.mem_cons_self
    have hrest : ∀ e ∈ ts, ∃ i : ℕ, e.offset = i ∧ Boundary text i := fun e he => h e (List.mem_cons_of_mem _ he)
    rw [insertFrom?, hoffset]
    split
    · next hlt =>
      have hslice := fromUTF8?_slice hposition hi (by omega)
      rw [Int.toNat_natCast, hslice]
      exact ih _ hi hrest
    · exact ih _ hposition hrest

variable (render) in
/-- **Insertions between characters can be written.** -/
theorem exists_insertAll? {es : List (Insertion α)} (h : ∀ e ∈ es, ∃ i : ℕ, e.offset = i ∧ Boundary text i) :
    ∃ out, insertAll? render text.toUTF8 es = some out := by
  have hsorted : ∀ e ∈ inTextOrder es, ∃ i : ℕ, e.offset = i ∧ Boundary text i := fun e he =>
    h e ((arranges_inTextOrder es).mem_iff.1 he)
  obtain ⟨parts, hparts⟩ := exists_insertFrom? render [] (boundary_zero text) hsorted
  exact ⟨String.join parts, by rw [insertAll?, hparts]; rfl⟩

/-! ## Lines -/

/-- in front of every source character, the text of the pieces has as many newlines as the source has -/
def KeepsLines (render : α → String) (data : ByteArray) (ps : List (Piece α)) : Prop :=
  ∀ front start stop back before c after, ps = front ++ .source start stop :: back →
    (sliceText data start stop).toList = before ++ c :: after →
    ((piecesText render data front).toList ++ before).count '\n' =
      ((String.join (front.map (Piece.verbatim data))).toList ++ before).count '\n'

theorem count_piecesText {data : ByteArray} {ps : List (Piece α)}
    (h : ∀ payload ∈ ps.filterMap Piece.payload?, '\n' ∉ (render payload).toList) :
    (piecesText render data ps).toList.count '\n' =
      (String.join (ps.map (Piece.verbatim data))).toList.count '\n' := by
  induction ps with
  | nil => rfl
  | cons p ps ih =>
    rw [piecesText, List.map_cons, List.map_cons, String.join_cons, String.join_cons, String.toList_append,
      String.toList_append, List.count_append, List.count_append]
    cases p with
    | source i j => exact congrArg _ (ih h)
    | inserted payload =>
      have hpayloads : ∀ x ∈ payload :: ps.filterMap Piece.payload?, '\n' ∉ (render x).toList := h
      obtain ⟨hpayload, hrest⟩ := List.forall_mem_cons.1 hpayloads
      have hnone : (Piece.text render data (.inserted payload)).toList.count '\n' = 0 := List.count_eq_zero.2 hpayload
      rw [hnone]
      exact congrArg _ (ih hrest)

/-- what is inserted moves no source character to another line, if it holds no newline -/
theorem keepsLines_of_newline_notMem {data : ByteArray} {ps : List (Piece α)}
    (h : ∀ payload ∈ ps.filterMap Piece.payload?, '\n' ∉ (render payload).toList) : KeepsLines render data ps := by
  intro front start stop back before c after hps _
  have hfront : ∀ payload ∈ front.filterMap Piece.payload?, '\n' ∉ (render payload).toList := by
    intro payload hpayload
    apply h payload
    rw [hps, List.filterMap_append]
    exact List.mem_append_left _ hpayload
  rw [List.count_append, List.count_append, count_piecesText hfront]

end Turnstile
