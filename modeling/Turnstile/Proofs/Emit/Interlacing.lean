/-
A text between its insertions.

The text with insertions, told character by character: at the beginning of a character stands what was recorded there,
the closings in reverse and then the openings, and behind it the character.
- `interlace`: the insertions and the characters of a text in this order, each offset outside the text at the end of the
  text it lies beyond;
- `insertAll?_eq_interlace`: inserting fails exactly if an insertion cuts a character, and otherwise writes the text told
  in this way, in which each insertion and each character has its one place.
-/
import Mathlib.Data.Finset.Sort
import Turnstile.Proofs.Emit.Conservation
import Turnstile.Proofs.Text.Boundaries

namespace Turnstile

variable {α : Type}

/-- what was recorded at an offset, as it stands there -/
def standingAtOffset (es : List (Insertion α)) (o : ℤ) : List (Insertion α) :=
  (recordedAt (o, true) es).reverse ++ recordedAt (o, false) es

/-- the offsets at which something was recorded, the smallest first -/
def offsetsOf (es : List (Insertion α)) : List ℤ := (es.map Insertion.offset).toFinset.sort

/-- where in a text of some size an offset leads to: at the most to its beginning or its end -/
def placeIn (size : ℕ) (o : ℤ) : ℕ := min o.toNat size

/-- what stands at a place of a text, ordered by offset -/
def standingAt (size : ℕ) (es : List (Insertion α)) (place : ℕ) : List (Insertion α) :=
  ((offsetsOf es).filter fun o => placeIn size o = place).flatMap (standingAtOffset es)

/-- insertions and characters from a place on: what stands there, then the character that begins there -/
def interlace (size : ℕ) (es : List (Insertion α)) : ℕ → List Char → List (Insertion α ⊕ Char)
  | place, [] => (standingAt size es place).map Sum.inl
  | place, c :: cs => (standingAt size es place).map Sum.inl ++ Sum.inr c :: interlace size es (place + c.utf8Size) cs

/-- the text of an insertion or of a character -/
def markText (render : α → String) : Insertion α ⊕ Char → String :=
  Sum.elim (fun e => render e.payload) String.singleton

/-- an insertion cuts a character of a text -/
def Insertion.Cuts (text : String) (e : Insertion α) : Prop :=
  0 < e.offset ∧ e.offset < text.toUTF8.size ∧ ¬ Boundary text e.offset.toNat

variable {render : α → String} {text : String} {size place p : ℕ} {es ts : List (Insertion α)} {e : Insertion α} {o : ℤ}

/-! ## The order -/

theorem mem_standingAtOffset : e ∈ standingAtOffset es o ↔ e ∈ es ∧ e.offset = o := by
  rw [standingAtOffset, List.mem_append, List.mem_reverse, mem_recordedAt, mem_recordedAt, ← and_or_left]
  refine and_congr_right fun _ => ?_
  cases h : e.closing <;> simp [Insertion.key, h]

theorem mem_offsetsOf : o ∈ offsetsOf es ↔ ∃ e ∈ es, e.offset = o := by
  simp [offsetsOf]

theorem pairwise_offsetsOf (es : List (Insertion α)) : (offsetsOf es).Pairwise (· ≤ ·) := Finset.pairwise_sort _ _

theorem pairwise_standingAtOffset (es : List (Insertion α)) (o : ℤ) :
    (standingAtOffset es o).Pairwise Insertion.Le := by
  rw [standingAtOffset, List.pairwise_append]
  refine ⟨?_, ?_, ?_⟩
  · apply List.pairwise_of_forall_mem_list
    intro e he f hf
    have he := (mem_recordedAt.1 (List.mem_reverse.1 he)).2
    have hf := (mem_recordedAt.1 (List.mem_reverse.1 hf)).2
    exact Insertion.le_of_key_eq (he.trans hf.symm)
  · apply List.pairwise_of_forall_mem_list
    intro e he f hf
    exact Insertion.le_of_key_eq ((mem_recordedAt.1 he).2.trans (mem_recordedAt.1 hf).2.symm)
  · intro e he f hf
    obtain ⟨hoffset, hclosing⟩ := Prod.mk.inj (mem_recordedAt.1 (List.mem_reverse.1 he)).2
    obtain ⟨hoffset', -⟩ := Prod.mk.inj (mem_recordedAt.1 hf).2
    exact Insertion.le_of_offset_le (hoffset.trans hoffset'.symm).le (Or.inl hclosing)

theorem recordedAt_recordedAt (k k' : ℤ × Bool) (es : List (Insertion α)) :
    recordedAt k (recordedAt k' es) = if k' = k then recordedAt k es else [] := by
  split
  · next heq =>
    subst heq
    apply List.filter_eq_self.2
    intro e he
    exact decide_eq_true (mem_recordedAt.1 he).2
  · next hne =>
    apply recordedAt_eq_nil
    intro e he hkey
    exact hne ((mem_recordedAt.1 he).2.symm.trans hkey)

theorem recordedAt_reverse (k : ℤ × Bool) (es : List (Insertion α)) :
    recordedAt k es.reverse = (recordedAt k es).reverse := List.filter_reverse ..

/-- of one direction, an offset has what was recorded there and no more -/
theorem recordedAt_standingAtOffset (k : ℤ × Bool) (es : List (Insertion α)) (o : ℤ) :
    recordedAt k (standingAtOffset es o) = if o = k.1 then standing k (recordedAt k es) else [] := by
  obtain ⟨o', closing⟩ := k
  rw [standingAtOffset, recordedAt_append, recordedAt_reverse, recordedAt_recordedAt, recordedAt_recordedAt]
  by_cases ho : o = o'
  · subst ho
    cases closing <;> simp [standing]
  · simp [ho]

theorem flatMap_ite_eq {l : List ℤ} (hl : l.Nodup) (o : ℤ) (ts : List (Insertion α)) :
    l.flatMap (fun o' => if o' = o then ts else []) = if o ∈ l then ts else [] := by
  induction l with
  | nil => rfl
  | cons o' l ih =>
    rw [List.nodup_cons] at hl
    rw [List.flatMap_cons, ih hl.2]
    by_cases ho : o' = o
    · subst ho
      simp [hl.1]
    · simp [ho, Ne.symm ho]

/-- offset by offset, the insertions are in text order -/
theorem arranges_offsetsOf (es : List (Insertion α)) : Arranges ((offsetsOf es).flatMap (standingAtOffset es)) es := by
  constructor
  · rw [List.pairwise_flatMap]
    refine ⟨fun o _ => pairwise_standingAtOffset es o, ?_⟩
    have hlt : (offsetsOf es).Pairwise (· < ·) := (Finset.sortedLT_sort _).pairwise
    refine hlt.imp ?_
    intro o o' ho e he f hf
    rw [← (mem_standingAtOffset.1 he).2, ← (mem_standingAtOffset.1 hf).2] at ho
    exact Or.inl ho
  · intro k
    have hparts : recordedAt k ((offsetsOf es).flatMap (standingAtOffset es)) =
        (offsetsOf es).flatMap fun o => if o = k.1 then standing k (recordedAt k es) else [] := by
      rw [recordedAt, List.filter_flatMap]
      exact congrArg (List.flatMap · _) (funext fun o => recordedAt_standingAtOffset k es o)
    have hnodup : (offsetsOf es).Nodup := Finset.sort_nodup _ _
    rw [hparts, flatMap_ite_eq hnodup]
    split
    · rfl
    · next hnone =>
      have hempty : recordedAt k es = [] := by
        apply recordedAt_eq_nil
        intro e he hkey
        exact hnone (mem_offsetsOf.2 ⟨e, he, congrArg Prod.fst hkey⟩)
      rw [hempty, standing]
      split <;> rfl

/-! ## Each insertion once -/

theorem placeIn_le (size : ℕ) (o : ℤ) : placeIn size o ≤ size := min_le_right _ _

theorem placeIn_of_mem_standingAt (h : e ∈ standingAt size es place) : placeIn size e.offset = place := by
  obtain ⟨o, ho, he⟩ := List.mem_flatMap.1 h
  rw [(mem_standingAtOffset.1 he).2]
  simpa using (List.mem_filter.1 ho).2

theorem filterMap_getLeft?_inl (ts : List (Insertion α)) :
    (ts.map (Sum.inl (β := Char))).filterMap Sum.getLeft? = ts := by
  rw [List.filterMap_map]
  exact List.filterMap_some

theorem filterMap_getRight?_interlace (size : ℕ) (es : List (Insertion α)) (place : ℕ) (cs : List Char) :
    (interlace size es place cs).filterMap Sum.getRight? = cs := by
  have hinl : ∀ ts : List (Insertion α), (ts.map (Sum.inl (β := Char))).filterMap Sum.getRight? = [] := by
    intro ts
    simp
  induction cs generalizing place with
  | nil => exact hinl _
  | cons c cs ih =>
    rw [interlace, List.filterMap_append, hinl, List.filterMap_cons, ih]
    rfl

/-- in a sorted list, what leads to a place comes before what leads beyond it -/
theorem filter_le_placeIn {l : List ℤ} (hl : l.Pairwise (· ≤ ·)) (size place : ℕ) :
    (l.filter fun o => place ≤ placeIn size o) =
      (l.filter fun o => placeIn size o = place) ++ l.filter fun o => place < placeIn size o := by
  induction l with
  | nil => rfl
  | cons o l ih =>
    rw [List.pairwise_cons] at hl
    simp only [List.filter_cons, ih hl.2]
    rcases Nat.lt_trichotomy (placeIn size o) place with hlt | heq | hgt
    · simp [hlt.not_ge, hlt.ne, hlt.le]
    · simp [heq]
    · have hnone : (l.filter fun o' => placeIn size o' = place) = [] := by
        rw [List.filter_eq_nil_iff]
        intro o' ho'
        have hle : placeIn size o ≤ placeIn size o' := min_le_min_right _ (Int.toNat_le_toNat (hl.1 o' ho'))
        simpa using (hgt.trans_le hle).ne'
      simp [hnone, hgt.le, hgt.ne', hgt]

/-- beyond the beginning of a character the next place is the end of that character -/
theorem lt_placeIn_iff {c : Char} {front cs : List Char} (hes : ∀ e ∈ es, ¬ e.Cuts text)
    (htext : text.toList = front ++ c :: cs) (ho : o ∈ offsetsOf es) :
    byteLength front < placeIn text.toUTF8.size o ↔
      byteLength front + c.utf8Size ≤ placeIn text.toUTF8.size o := by
  constructor
  · intro hlt
    by_contra hinside
    obtain ⟨e, he, rfl⟩ := mem_offsetsOf.1 ho
    have hsize := byteLength_add_le_size htext
    rw [byteLength_cons] at hsize
    unfold placeIn at hlt hinside
    refine hes e he ⟨by omega, by omega, not_boundary_of_inside htext (by omega) (by omega)⟩
  · intro hle
    have hpos := c.utf8Size_pos
    omega

/-- from a place on, the insertions are those whose offsets lead there or beyond -/
theorem filterMap_getLeft?_interlace {front cs : List Char} (hes : ∀ e ∈ es, ¬ e.Cuts text)
    (htext : text.toList = front ++ cs) :
    (interlace text.toUTF8.size es (byteLength front) cs).filterMap Sum.getLeft? =
      ((offsetsOf es).filter fun o => byteLength front ≤ placeIn text.toUTF8.size o).flatMap (standingAtOffset es) := by
  induction cs generalizing front with
  | nil =>
    have hsize := byteLength_add_le_size htext
    rw [byteLength_nil, Nat.add_zero] at hsize
    have hend : ∀ o, placeIn text.toUTF8.size o = text.toUTF8.size ↔ text.toUTF8.size ≤ placeIn text.toUTF8.size o :=
      fun o => (placeIn_le text.toUTF8.size o).ge_iff_eq.symm
    rw [interlace, filterMap_getLeft?_inl, standingAt, hsize]
    simp only [hend]
  | cons c cs ih =>
    have hnext : text.toList = (front ++ [c]) ++ cs := by simp [htext]
    have hrest := ih hnext
    rw [byteLength_append, byteLength_cons, byteLength_nil, Nat.add_zero] at hrest
    have hbeyond : ((offsetsOf es).filter fun o => byteLength front < placeIn text.toUTF8.size o) =
        (offsetsOf es).filter fun o => byteLength front + c.utf8Size ≤ placeIn text.toUTF8.size o := by
      apply List.filter_congr
      intro o ho
      exact decide_eq_decide.2 (lt_placeIn_iff hes htext ho)
    calc (interlace text.toUTF8.size es (byteLength front) (c :: cs)).filterMap Sum.getLeft?
        = standingAt text.toUTF8.size es (byteLength front) ++
            (interlace text.toUTF8.size es (byteLength front + c.utf8Size) cs).filterMap Sum.getLeft? := by
          rw [interlace, List.filterMap_append, filterMap_getLeft?_inl, List.filterMap_cons]
          rfl
      _ = _ := by
          rw [hrest, ← hbeyond, standingAt, ← List.flatMap_append, ← filter_le_placeIn (pairwise_offsetsOf es)]

/-- along a text that no insertion cuts, the insertions are in text order -/
theorem filterMap_getLeft?_interlace_toList (hes : ∀ e ∈ es, ¬ e.Cuts text) :
    (interlace text.toUTF8.size es 0 text.toList).filterMap Sum.getLeft? = inTextOrder es := by
  have htext : text.toList = [] ++ text.toList := rfl
  have hall := filterMap_getLeft?_interlace hes htext
  rw [byteLength_nil] at hall
  rw [hall, inTextOrder_eq_of_arranges (arranges_offsetsOf es)]
  simp

theorem inTextOrder_perm (es : List (Insertion α)) : (inTextOrder es).Perm es := by
  have h := (List.mergeSort_perm es.zipIdx Insertion.before).map Prod.fst
  rwa [List.zipIdx_map_fst] at h

/-! ## Offsets outside the text -/

/-- an insertion at the place its offset leads to -/
def Insertion.placed (size : ℕ) (e : Insertion α) : Insertion α := { e with offset := placeIn size e.offset }

theorem extract_min (data : ByteArray) (i j : ℕ) :
    data.extract (min i data.size) (min j data.size) = data.extract i j := by
  apply ByteArray.ext
  rw [ByteArray.data_extract, ByteArray.data_extract]
  apply Array.ext
  · simp only [Array.size_extract, ByteArray.size_data]
    omega
  · intro k hk hk'
    simp only [Array.size_extract, ByteArray.size_data] at hk hk'
    simp only [Array.getElem_extract]
    congr 1
    omega

/-- it is the same to insert beyond a text or at its end -/
theorem insertFrom?_placed {data : ByteArray} {done done' : List String}
    (hdone : String.join done.reverse = String.join done'.reverse) :
    (insertFrom? render data p done ts).map String.join =
      (insertFrom? render data (min p data.size) done' (ts.map (Insertion.placed data.size))).map String.join := by
  induction ts generalizing p done done' with
  | nil =>
    have hrest := extract_min data p data.size
    rw [min_self] at hrest
    rw [List.map_nil, insertFrom?, insertFrom?, hrest, Option.map_map, Option.map_map]
    congr 1
    funext rest
    simp [hdone]
  | cons e ts ih =>
    rw [List.map_cons, insertFrom?, insertFrom?]
    have hplaced : (Insertion.placed data.size e).offset = (placeIn data.size e.offset : ℤ) := rfl
    have hpayload : (Insertion.placed data.size e).payload = e.payload := rfl
    rw [hplaced, hpayload, Int.toNat_natCast]
    unfold placeIn
    by_cases hlt : (p : ℤ) < e.offset
    · rw [if_pos hlt]
      rcases Nat.lt_or_ge p data.size with hp | hp
      · rw [if_pos (by omega), extract_min]
        cases String.fromUTF8? (data.extract p e.offset.toNat) with
        | none => rfl
        | some piece => exact ih (by simp [hdone])
      · -- behind the text nothing is left to be written
        have hnone : data.extract p e.offset.toNat = ByteArray.empty := by
          rw [← extract_min, Nat.min_eq_right hp, Nat.min_eq_right (by omega)]
          simp
        have hpiece : String.fromUTF8? ByteArray.empty = some "" := rfl
        rw [if_neg (by omega), hnone, hpiece]
        simp only
        have hsame : min p data.size = min e.offset.toNat data.size := by omega
        rw [hsame]
        exact ih (by simp [hdone])
    · rw [if_neg hlt, if_neg (by omega)]
      exact ih (by simp [hdone])

/-! ## What is written -/

theorem weaves_placed (h : ∀ e ∈ ts, placeIn size e.offset = place) :
    Weaves text place (ts.map (Insertion.placed size)) (ts.map fun e => .inserted e.payload) place := by
  induction ts with
  | nil => exact .nil
  | cons e ts ih =>
    rw [List.forall_mem_cons] at h
    exact .inserted (congrArg Nat.cast h.1) (ih h.2)

theorem piecesText_inserted (render : α → String) (data : ByteArray) (ts : List (Insertion α)) :
    piecesText render data (ts.map fun e => .inserted e.payload) =
      String.join ((ts.map Sum.inl).map (markText render)) := by
  rw [piecesText, List.map_map, List.map_map]
  rfl

theorem piecesText_append (render : α → String) (data : ByteArray) (ps qs : List (Piece α)) :
    piecesText render data (ps ++ qs) = piecesText render data ps ++ piecesText render data qs := by
  rw [piecesText, List.map_append, String.join_append]
  rfl

/-- the insertions lead along the characters -/
theorem exists_weaves_interlace (render : α → String) (es : List (Insertion α)) {front cs : List Char}
    (htext : text.toList = front ++ cs) :
    ∃ ps : List (Piece α), Weaves text (byteLength front)
        (((interlace text.toUTF8.size es (byteLength front) cs).filterMap Sum.getLeft?).map
          (Insertion.placed text.toUTF8.size)) ps text.toUTF8.size ∧
      piecesText render text.toUTF8 ps =
        String.join ((interlace text.toUTF8.size es (byteLength front) cs).map (markText render)) := by
  have hstanding : ∀ place, Weaves text place ((standingAt text.toUTF8.size es place).map (Insertion.placed text.toUTF8.size))
      ((standingAt text.toUTF8.size es place).map fun e => .inserted e.payload) place := by
    intro place
    apply weaves_placed
    intro e he
    exact placeIn_of_mem_standingAt he
  induction cs generalizing front with
  | nil =>
    have hsize := byteLength_add_le_size htext
    rw [byteLength_nil, Nat.add_zero] at hsize
    refine ⟨(standingAt text.toUTF8.size es (byteLength front)).map fun e => .inserted e.payload, ?_, ?_⟩
    · rw [interlace, filterMap_getLeft?_inl]
      have hend := hstanding (byteLength front)
      rwa [hsize] at hend ⊢
    · rw [interlace]
      exact piecesText_inserted render _ _
  | cons c cs ih =>
    have hnext : text.toList = (front ++ [c]) ++ cs := by simp [htext]
    have hend : byteLength (front ++ [c]) = byteLength front + c.utf8Size := by simp
    obtain ⟨ps, hweaves, hps⟩ := ih hnext
    have hboundary : Boundary text (byteLength (front ++ [c])) := boundary_of_append hnext
    rw [hend] at hweaves hps hboundary
    refine ⟨((standingAt text.toUTF8.size es (byteLength front)).map fun e => .inserted e.payload) ++
      .source (byteLength front) (byteLength front + c.utf8Size) :: ps, ?_, ?_⟩
    · rw [interlace, List.filterMap_append, filterMap_getLeft?_inl, List.filterMap_cons, List.map_append]
      exact (hstanding _).append (.source (Nat.le_add_right _ _) hboundary hweaves)
    · have hchar : Piece.text render text.toUTF8 (.source (byteLength front) (byteLength front + c.utf8Size)) =
          markText render (.inr c) := sliceText_char htext
      rw [interlace, piecesText_append, piecesText_inserted, List.map_append, String.join_append, List.map_cons,
        String.join_cons, ← hps, piecesText, List.map_cons, String.join_cons, hchar]
      rfl

/-- without a cut, the text told character by character is written -/
theorem insertAll?_of_not_cuts (render : α → String) (hes : ∀ e ∈ es, ¬ e.Cuts text) :
    insertAll? render text.toUTF8 es =
      some (String.join ((interlace text.toUTF8.size es 0 text.toList).map (markText render))) := by
  have htext : text.toList = [] ++ text.toList := rfl
  obtain ⟨ps, hweaves, hps⟩ := exists_weaves_interlace render es htext
  rw [byteLength_nil] at hweaves hps
  rw [filterMap_getLeft?_interlace_toList hes] at hweaves
  have hzero := boundary_zero text
  have hwritten := hweaves.insertFrom? rfl render hzero hzero le_rfl []
  rw [insertAll?, insertFrom?_placed rfl, Nat.zero_min, hwritten, sliceText_self hzero, hps]
  simp

/-! ## Cuts -/

/-- what could be written from a boundary on was not cut -/
theorem not_cuts_of_insertFrom? {done out : List String} (h : insertFrom? render text.toUTF8 p done ts = some out)
    (hsorted : ts.Pairwise Insertion.Le) (hp : Boundary text p ∨ text.toUTF8.size ≤ p)
    (hbehind : ∀ e ∈ ts, e.offset ≤ 0 ∨ (p : ℤ) ≤ e.offset) : ∀ e ∈ ts, ¬ e.Cuts text := by
  induction ts generalizing p done with
  | nil => simp
  | cons e ts ih =>
    rw [List.pairwise_cons] at hsorted
    rw [List.forall_mem_cons] at hbehind ⊢
    rw [insertFrom?] at h
    split at h
    · next hlt =>
      split at h
      · next piece hpiece =>
        have hnext : Boundary text e.offset.toNat ∨ text.toUTF8.size ≤ e.offset.toNat := by
          rcases Nat.lt_or_ge e.offset.toNat text.toUTF8.size with hin | hout
          · have hvalid : (text.toUTF8.extract p e.offset.toNat).IsValidUTF8 := by
              rw [← toByteArray_of_fromUTF8? hpiece]
              exact piece.isValidUTF8
            have hiff := String.Pos.Raw.isValidUTF8_extract_iff (s := text) ⟨p⟩ ⟨e.offset.toNat⟩
              (by simp [String.Pos.Raw.le_iff]; omega) (by simpa [String.Pos.Raw.le_iff] using hin.le)
            rcases hiff.1 hvalid with heq | ⟨-, hboundary⟩
            · have := congrArg String.Pos.Raw.byteIdx heq
              simp only at this
              omega
            · exact Or.inl hboundary
          · exact Or.inr hout
        refine ⟨?_, ih h hsorted.2 hnext ?_⟩
        · rintro ⟨hpos, hin, hcut⟩
          rcases hnext with hboundary | hout
          · exact hcut hboundary
          · omega
        · intro f hf
          right
          rcases hsorted.1 f hf with hoffset | ⟨hoffset, -⟩ <;> omega
      · cases h
    · next hge =>
      refine ⟨?_, ih h hsorted.2 hp hbehind.2⟩
      rintro ⟨hpos, hin, hcut⟩
      have hhere : e.offset.toNat = p := by
        rcases hbehind.1 with hle | hle <;> omega
      rcases hp with hboundary | hout
      · exact hcut (hhere ▸ hboundary)
      · omega

theorem not_cuts_of_insertAll? {out : String} (h : insertAll? render text.toUTF8 es = some out) :
    ∀ e ∈ es, ¬ e.Cuts text := by
  obtain ⟨parts, hparts, -⟩ := Option.map_eq_some_iff.1 h
  have harranges := arranges_inTextOrder es
  have hall := not_cuts_of_insertFrom? hparts harranges.sorted (Or.inl (boundary_zero text)) fun e _ => by omega
  intro e he
  exact hall e (harranges.mem_iff.2 he)

/-- **Insertions stand where they were recorded.** Inserting fails exactly if an insertion cuts a character. Otherwise the
text is written character by character, at the beginning of each what was recorded there, all insertions once and all
characters in their order. -/
theorem insertAll?_eq_interlace (render : α → String) (text : String) (es : List (Insertion α)) :
    (insertAll? render text.toUTF8 es = none ↔ ∃ e ∈ es, e.Cuts text) ∧
    ((∀ e ∈ es, ¬ e.Cuts text) →
      insertAll? render text.toUTF8 es =
        some (String.join ((interlace text.toUTF8.size es 0 text.toList).map (markText render))) ∧
      ((interlace text.toUTF8.size es 0 text.toList).filterMap Sum.getLeft?).Perm es ∧
      (interlace text.toUTF8.size es 0 text.toList).filterMap Sum.getRight? = text.toList) := by
  refine ⟨⟨?_, ?_⟩, ?_⟩
  · intro hnone
    by_contra hcuts
    push Not at hcuts
    rw [insertAll?_of_not_cuts render hcuts] at hnone
    cases hnone
  · rintro ⟨e, he, hcuts⟩
    cases hout : insertAll? render text.toUTF8 es with
    | none => rfl
    | some out => exact absurd hcuts (not_cuts_of_insertAll? hout e he)
  · intro hes
    refine ⟨insertAll?_of_not_cuts render hes, ?_, filterMap_getRight?_interlace _ _ _ _⟩
    rw [filterMap_getLeft?_interlace_toList hes]
    exact inTextOrder_perm es

/-- something wrapped, two more insertions where it ends, one in front of the text and one behind it -/
def wrappedInsertions : List (Insertion String) :=
  Insertion.wrap 0 3 "(" ")" ++
    [Insertion.opening 3 "[", Insertion.close 3 "|", Insertion.opening (-1) "<", Insertion.close 9 ">"]

theorem offsetsOf_wrappedInsertions : offsetsOf wrappedInsertions = [-1, 0, 3, 9] := by
  have hset : (wrappedInsertions.map Insertion.offset).toFinset = [-1, 0, 3, 9].toFinset := by decide
  rw [offsetsOf, hset]
  exact (List.toFinset_sort _ (by decide)).2 (by decide)

theorem insertAll?_eq_interlace_wrapped :
    (∀ e ∈ wrappedInsertions, ¬ e.Cuts "é;x") ∧
    insertAll? id "é;x".toUTF8 wrappedInsertions = some "<(é;|)[x>" ∧
    insertAll? id "é;x".toUTF8 [Insertion.opening 1 "("] = none := by
  have htext : "é;x".toList = ['é', ';'] ++ ['x'] := rfl
  have hthree : Boundary "é;x" 3 := boundary_of_append htext
  have hwhole : ∀ e ∈ wrappedInsertions, ¬ e.Cuts "é;x" := by
    rintro e he ⟨hpos, hlt, hcut⟩
    have hoffset : e.offset ∈ offsetsOf wrappedInsertions := mem_offsetsOf.2 ⟨e, he, rfl⟩
    have hsize : ("é;x".toUTF8.size : ℤ) = 4 := rfl
    rw [offsetsOf_wrappedInsertions] at hoffset
    have hat : e.offset = 3 := by
      rw [List.mem_cons, List.mem_cons, List.mem_cons, List.mem_singleton] at hoffset
      omega
    rw [hat] at hcut
    exact hcut hthree
  have hfirst : "é;x".toList = [] ++ 'é' :: [';', 'x'] := rfl
  have hcut : (Insertion.opening 1 "(").Cuts "é;x" :=
    ⟨by decide, by decide, not_boundary_of_inside hfirst (by decide) (by decide)⟩
  refine ⟨hwhole, ?_, (insertAll?_eq_interlace id "é;x" [Insertion.opening 1 "("]).1.2 ⟨_, List.mem_cons_self, hcut⟩⟩
  rw [((insertAll?_eq_interlace id "é;x" wrappedInsertions).2 hwhole).1]
  have hmarks : interlace 4 wrappedInsertions 0 ['é', ';', 'x'] =
      [.inl (.opening (-1) "<"), .inl (.opening 0 "("), .inr 'é', .inr ';', .inl (.close 3 "|"), .inl (.close 3 ")"),
        .inl (.opening 3 "["), .inr 'x', .inl (.close 9 ">")] := by
    simp only [interlace, standingAt, offsetsOf_wrappedInsertions]
    rfl
  exact congrArg (fun marks => some (String.join (marks.map (markText id)))) hmarks

end Turnstile
