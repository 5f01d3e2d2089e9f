/-
Pieces of text with insertions between them.

A text with insertions is a list of pieces, each a slice of the source or something inserted.
- `Weaves`: insertions in text order lead through the pieces from one offset to another;
- `Weaves.insertFrom?`: writing such insertions gives the text of the pieces, if all slices are cut between characters;
- `Laid`: a recording, put in text order, leads through some pieces and stays within a range. Recordings are laid out
  side by side (`append`), behind an opening and in front of a closing.
-/
import Turnstile.Proofs.Emit.TextOrder

namespace Turnstile

/-! ## Slices -/

/-- an offset between two characters of a text, or at one of its ends -/
abbrev Boundary (text : String) (i : ℕ) : Prop := String.Pos.Raw.IsValid text ⟨i⟩

/-- the text of a byte range; empty if the range cuts a character -/
def sliceText (data : ByteArray) (start stop : ℕ) : String := (String.fromUTF8? (data.extract start stop)).getD ""

section Slices

variable {text : String} {i j k : ℕ}

theorem Boundary.le_size (h : Boundary text i) : i ≤ text.toUTF8.size := by
  simpa [String.Pos.Raw.le_iff] using h.le_rawEndPos

theorem isValidUTF8_slice (hi : Boundary text i) (hj : Boundary text j) (hij : i ≤ j) :
    (text.toUTF8.extract i j).IsValidUTF8 :=
  (String.Pos.Raw.isValidUTF8_extract_iff ⟨i⟩ ⟨j⟩ hij hj.le_rawEndPos).2 (Or.inr ⟨hi, hj⟩)

theorem fromUTF8?_slice (hi : Boundary text i) (hj : Boundary text j) (hij : i ≤ j) :
    String.fromUTF8? (text.toUTF8.extract i j) = some (sliceText text.toUTF8 i j) := by
  rw [sliceText, String.fromUTF8?, dif_pos (isValidUTF8_slice hi hj hij)]
  rfl

theorem toByteArray_sliceText (hi : Boundary text i) (hj : Boundary text j) (hij : i ≤ j) :
    (sliceText text.toUTF8 i j).toByteArray = text.toUTF8.extract i j := by
  rw [sliceText, String.fromUTF8?, dif_pos (isValidUTF8_slice hi hj hij)]
  rfl

/-- slices side by side -/
theorem sliceText_append (hi : Boundary text i) (hj : Boundary text j) (hk : Boundary text k) (hij : i ≤ j) (hjk : j ≤ k) :
    sliceText text.toUTF8 i j ++ sliceText text.toUTF8 j k = sliceText text.toUTF8 i k := by
  rw [← String.toByteArray_inj, String.toByteArray_append, toByteArray_sliceText hi hj hij,
    toByteArray_sliceText hj hk hjk, toByteArray_sliceText hi hk (hij.trans hjk)]
  exact (ByteArray.extract_eq_extract_append_extract j hij hjk).symm

theorem sliceText_self (hi : Boundary text i) : sliceText text.toUTF8 i i = "" := by
  rw [← String.toByteArray_inj, toByteArray_sliceText hi hi le_rfl]
  simp

theorem boundary_zero (text : String) : Boundary text 0 := String.Pos.Raw.isValid_zero

theorem boundary_size (text : String) : Boundary text text.toUTF8.size := String.Pos.Raw.isValid_rawEndPos

theorem sliceText_all (text : String) : sliceText text.toUTF8 0 text.toUTF8.size = text := by
  rw [← String.toByteArray_inj, toByteArray_sliceText (boundary_zero _) (boundary_size _) (Nat.zero_le _)]
  exact ByteArray.extract_zero_size

end Slices

/-! ## Pieces -/

/-- a slice of the source, or something inserted -/
inductive Piece (α : Type) where
  | source (start stop : ℕ)
  | inserted (payload : α)
  deriving DecidableEq, Repr

namespace Piece

variable {α : Type}

def text (render : α → String) (data : ByteArray) : Piece α → String
  | source start stop => sliceText data start stop
  | inserted payload => render payload

/-- the source in a piece -/
def verbatim (data : ByteArray) : Piece α → String
  | source start stop => sliceText data start stop
  | inserted _ => ""

end Piece

variable {α : Type}

/-- the text of some pieces -/
def piecesText (render : α → String) (data : ByteArray) (ps : List (Piece α)) : String :=
  String.join (ps.map (Piece.text render data))

/-- from an offset, through insertions in text order and the pieces around them, to an offset; slices end between
characters -/
inductive Weaves (text : String) : ℕ → List (Insertion α) → List (Piece α) → ℕ → Prop where
  | nil {i : ℕ} : Weaves text i [] [] i
  | source {i j k : ℕ} {ts : List (Insertion α)} {ps : List (Piece α)} (le : i ≤ j) (boundary : Boundary text j)
      (rest : Weaves text j ts ps k) : Weaves text i ts (.source i j :: ps) k
  | inserted {i k : ℕ} {e : Insertion α} {ts : List (Insertion α)} {ps : List (Piece α)} (offset : e.offset = i)
      (rest : Weaves text i ts ps k) : Weaves text i (e :: ts) (.inserted e.payload :: ps) k

namespace Weaves

variable {text : String} {i j k : ℕ} {ts us : List (Insertion α)} {ps qs : List (Piece α)}

theorem le (h : Weaves text i ts ps j) : i ≤ j := by
  induction h with
  | nil => exact le_rfl
  | source le _ _ ih => exact le.trans ih
  | inserted _ _ ih => exact ih

theorem boundary (h : Weaves text i ts ps j) (hi : Boundary text i) : Boundary text j := by
  induction h with
  | nil => exact hi
  | source _ boundary _ ih => exact ih boundary
  | inserted _ _ ih => exact ih hi

theorem append (h : Weaves text i ts ps j) (h' : Weaves text j us qs k) : Weaves text i (ts ++ us) (ps ++ qs) k := by
  induction h with
  | nil => exact h'
  | source le boundary _ ih => exact .source le boundary (ih h')
  | inserted offset _ ih => exact .inserted offset (ih h')

/-- the pieces between insertions are the source, unchanged and complete -/
theorem join_verbatim (h : Weaves text i ts ps j) (hi : Boundary text i) :
    String.join (ps.map (Piece.verbatim text.toUTF8)) = sliceText text.toUTF8 i j := by
  induction h with
  | nil => exact (sliceText_self hi).symm
  | source le boundary rest ih =>
    rw [List.map_cons, String.join_cons, ih boundary]
    exact sliceText_append hi boundary (rest.boundary boundary) le rest.le
  | inserted _ _ ih =>
    rw [List.map_cons, String.join_cons, ih hi]
    exact String.empty_append

/-- what is inserted between the pieces are the insertions -/
theorem exists_of_inserted_mem (h : Weaves text i ts ps j) {payload : α} (hp : .inserted payload ∈ ps) :
    ∃ e ∈ ts, e.payload = payload := by
  induction h with
  | nil => cases hp
  | source _ _ _ ih =>
    rcases List.mem_cons.1 hp with hp | hp
    · cases hp
    · exact ih hp
  | inserted _ _ ih =>
    rcases List.mem_cons.1 hp with hp | hp
    · cases hp
      exact ⟨_, List.mem_cons_self, rfl⟩
    · obtain ⟨e, he, hpayload⟩ := ih hp
      exact ⟨e, List.mem_cons_of_mem _ he, hpayload⟩

/-- **Writing insertions in text order gives the text of the pieces.** Up to the offset `i` the source is still to be
written from `p` on. -/
theorem insertFrom? (h : Weaves text i ts ps j) (hj : j = text.toUTF8.size) (render : α → String) {p : ℕ}
    (hp : Boundary text p) (hi : Boundary text i) (hpi : p ≤ i) (done : List String) :
    (insertFrom? render text.toUTF8 p done ts).map String.join =
      some (String.join done.reverse ++ sliceText text.toUTF8 p i ++ piecesText render text.toUTF8 ps) := by
  induction h generalizing p done with
  | nil =>
    subst hj
    have hslice := fromUTF8?_slice hp hi hpi
    rw [Turnstile.insertFrom?, hslice]
    simp [piecesText]
  | source le boundary rest ih =>
    rw [ih hj hp boundary (hpi.trans le), piecesText, piecesText, List.map_cons, String.join_cons, Piece.text,
      ← sliceText_append hp hi boundary hpi le]
    simp only [String.append_assoc]
  | @inserted i k e ts ps offset rest ih =>
    by_cases hlt : p < i
    · have hslice := fromUTF8?_slice hp hi hpi
      have hoffset : e.offset.toNat = i := by omega
      rw [Turnstile.insertFrom?, if_pos (by omega), hoffset, hslice]
      simp only
      rw [ih hj hi hi le_rfl, sliceText_self hi]
      simp [piecesText, Piece.text, String.append_assoc]
    · obtain rfl : p = i := by omega
      rw [Turnstile.insertFrom?, if_neg (by omega), ih hj hp hi hpi, sliceText_self hi]
      simp [piecesText, Piece.text, String.append_assoc]

end Weaves

theorem insertFrom?_map {β : Type} (render : β → String) (f : α → β) (data : ByteArray) (p : ℕ) (done : List String)
    (ts : List (Insertion α)) : insertFrom? render data p done (ts.map (Insertion.map f)) =
      insertFrom? (fun x => render (f x)) data p done ts := by
  induction ts generalizing p done with
  | nil => rfl
  | cons e ts ih =>
    rw [List.map_cons, insertFrom?, insertFrom?]
    simp only [Insertion.map] at ih ⊢
    simp only [ih]

/-- insertions may be written as something else where they are recorded or where they stand -/
theorem insertAll?_map {β : Type} (render : β → String) (f : α → β) (data : ByteArray) (es : List (Insertion α)) :
    insertAll? render data (es.map (Insertion.map f)) = insertAll? (fun x => render (f x)) data es := by
  rw [insertAll?, insertAll?, inTextOrder_map, insertFrom?_map]

/-! ## Recordings laid out -/

/-- a recording that stays within a range and, put in text order, leads through some pieces -/
structure Laid (text : String) (lo hi lim : ℕ) (es : List (Insertion α)) (ps : List (Piece α)) : Prop where
  within : Within lo hi lim es
  woven : ∃ ts, Arranges ts es ∧ Weaves text lo ts ps hi

namespace Laid

variable {text : String} {lo mid hi lim lim' : ℕ} {es fs : List (Insertion α)} {ps qs : List (Piece α)}

theorem congr (h : Laid text lo hi lim es ps) (hes : SameOrder es fs) : Laid text lo hi lim fs ps := by
  obtain ⟨hwithin, ts, harranges, hweaves⟩ := h
  exact ⟨fun e he => hwithin e (hes.mem_iff.2 he), ts, harranges.congr hes, hweaves⟩

/-- a slice of the source -/
theorem source (hle : lo ≤ hi) (hboundary : Boundary text hi) : Laid text lo hi lim ([] : List (Insertion α))
    [.source lo hi] := ⟨.nil, [], .nil, .source hle hboundary .nil⟩

theorem nil : Laid text lo lo lim ([] : List (Insertion α)) [] := ⟨.nil, [], .nil, .nil⟩

/-- side by side; what opens at the offset between must have been recorded in that order -/
theorem append (h : Laid text lo mid lim es ps) (h' : Laid text mid hi lim' fs qs) (hlim : lim ≤ mid + 1)
    (hlim' : lim ≤ lim') : Laid text lo hi lim' (es ++ fs) (ps ++ qs) := by
  obtain ⟨hwithin, ts, harranges, hweaves⟩ := h
  obtain ⟨hwithin', us, harranges', hweaves'⟩ := h'
  have hle := hweaves.le
  have hle' := hweaves'.le
  refine ⟨(hwithin.mono le_rfl hle' hlim').append (hwithin'.mono hle le_rfl le_rfl), ts ++ us,
    harranges.append harranges' (fun e he f hf => ?_) fun e he f hf hc hkey => ?_, hweaves.append hweaves'⟩
  · rcases hwithin e he with ⟨hc, h1, h2⟩ | ⟨hc, h1, h2⟩ <;> rcases hwithin' f hf with ⟨hc', h3, h4⟩ | ⟨hc', h3, h4⟩
    · exact Or.inl (by omega)
    · exact Insertion.le_of_offset_le (by omega) (Or.inl hc)
    · exact Or.inl (by omega)
    · exact Insertion.le_of_offset_le (by omega) (Or.inr hc')
  · -- what closes up to `mid` does not meet what closes behind it
    obtain ⟨hoffset, hclosing⟩ := Prod.mk.inj hkey
    rcases hwithin e he with ⟨-, h1, h2⟩ | ⟨hc', -⟩
    · rcases hwithin' f hf with ⟨hf, h3, h4⟩ | ⟨hf, h3, h4⟩
      · omega
      · rw [hc, hf] at hclosing
        cases hclosing
    · rw [hc] at hc'
      cases hc'

/-- behind an opening -/
theorem opening (h : Laid text lo hi lim es ps) (payload : α) (hlim : lo < lim) :
    Laid text lo hi lim (.opening lo payload :: es) (.inserted payload :: ps) := by
  have hone : Laid text lo lo (lo + 1) [Insertion.opening (lo : ℤ) payload] [.inserted payload] := by
    have hweaves : Weaves text lo [Insertion.opening (lo : ℤ) payload] [.inserted payload] lo := .inserted rfl .nil
    exact ⟨.of_openings [payload] le_rfl (Nat.lt_succ_self lo), _, .singleton _, hweaves⟩
  exact hone.append h le_rfl hlim

/-- in front of a closing -/
theorem closing (h : Laid text lo hi lim es ps) (payload : α) (hlt : lo < hi) (hlim : lim ≤ hi) :
    Laid text lo hi lim (.close hi payload :: es) (ps ++ [.inserted payload]) := by
  obtain ⟨hwithin, ts, harranges, hweaves⟩ := h
  have hlast : Weaves text hi [Insertion.close (hi : ℤ) payload] [.inserted payload] hi := .inserted rfl .nil
  refine ⟨Within.append (.of_closings [payload] hlt le_rfl) hwithin, _,
    harranges.closing rfl fun e he => ?_, hweaves.append hlast⟩
  rcases hwithin e he with ⟨hc, h1, h2⟩ | ⟨hc, h1, h2⟩
  · exact Insertion.le_of_offset_le h2 (Or.inl hc)
  · have hlim : (lim : ℤ) ≤ hi := by exact_mod_cast hlim
    exact Or.inl (h2.trans_le hlim)

theorem openings (h : Laid text lo hi lim es ps) (payloads : List α) (hlim : lo < lim) :
    Laid text lo hi lim (payloads.map (Insertion.opening (lo : ℤ)) ++ es) (payloads.map .inserted ++ ps) := by
  induction payloads with
  | nil => exact h
  | cons p payloads ih => exact ih.opening p hlim

/-! ### Whole texts -/

theorem join_verbatim (h : Laid text lo hi lim es ps) (hlo : Boundary text lo) :
    String.join (ps.map (Piece.verbatim text.toUTF8)) = sliceText text.toUTF8 lo hi := by
  obtain ⟨-, ts, -, hweaves⟩ := h
  exact hweaves.join_verbatim hlo

theorem exists_of_inserted_mem (h : Laid text lo hi lim es ps) {payload : α} (hp : .inserted payload ∈ ps) :
    ∃ e ∈ es, e.payload = payload := by
  obtain ⟨-, ts, harranges, hweaves⟩ := h
  obtain ⟨e, he, hpayload⟩ := hweaves.exists_of_inserted_mem hp
  exact ⟨e, harranges.mem_iff.1 he, hpayload⟩

/-- **A text with its insertions is the text of the pieces.** -/
theorem insertAll? (h : Laid text 0 text.toUTF8.size lim es ps) (render : α → String) :
    insertAll? render text.toUTF8 es = some (piecesText render text.toUTF8 ps) := by
  obtain ⟨-, ts, harranges, hweaves⟩ := h
  have hzero := boundary_zero text
  rw [Turnstile.insertAll?, inTextOrder_eq_of_arranges harranges,
    hweaves.insertFrom? rfl render hzero hzero le_rfl, sliceText_self hzero]
  simp

end Laid

end Turnstile
