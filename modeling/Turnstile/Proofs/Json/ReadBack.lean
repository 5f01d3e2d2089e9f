/-
Values read back from their text.

The reader takes back what the writer writes and stops exactly where that ends.
- `ReadsBack`: a text that a reader takes back;
- `enclosed?_enclose`: a bracketed sequence of texts that read back, whatever follows its closing bracket;
- `value?_write`, `front?_write`: every legible value, in every layout that separates items and keys.
-/
import Turnstile.Proofs.Json.Literals
import Turnstile.Proofs.Json.Visible

namespace Turnstile.Json

/-! ## White space and separators -/

/-- white space that may stand in front of any token -/
def Spaces (cs : List Char) : Prop := ∀ c ∈ cs, isSpace c = true

theorem spaces_nil : Spaces [] := by simp [Spaces]

theorem skipSpace_append {blanks : List Char} (h : Spaces blanks) (rest : List Char) :
    skipSpace (blanks ++ rest) = skipSpace rest := List.dropWhile_append_of_pos h

theorem skipSpace_cons {c : Char} (h : isSpace c = false) (r : List Char) : skipSpace (c :: r) = c :: r := by
  simp [skipSpace, h]

/-- a comma between items and a colon behind keys, each with white space behind it at most -/
structure Layout.Separates (l : Layout) : Prop where
  items : ∃ blanks, l.itemSeparator = ',' :: blanks ∧ Spaces blanks
  keys : ∃ blanks, l.keySeparator = ':' :: blanks ∧ Spaces blanks

theorem Layout.separates_compact : Layout.compact.Separates := ⟨⟨[], rfl, spaces_nil⟩, ⟨[], rfl, spaces_nil⟩⟩

theorem Layout.separates_spaced : Layout.spaced.Separates :=
  ⟨⟨[' '], rfl, by simp [Spaces, isSpace]⟩, ⟨[' '], rfl, by simp [Spaces, isSpace]⟩⟩

theorem Layout.spaces_lineBreak (l : Layout) (depth : ℕ) : Spaces (l.lineBreak depth) := by
  rw [lineBreak]
  split
  · exact spaces_nil
  · intro c hc
    rcases List.mem_cons.1 hc with rfl | hc
    · rfl
    · rw [List.eq_of_mem_replicate hc]
      rfl

/-! ## Brackets -/

/-- a closing bracket -/
def isClosing (c : Char) : Bool := c = ']' || c = '\x7d'

theorem endsNumber_of_isSpace {c : Char} (h : isSpace c = true) (r : List Char) : EndsNumber (c :: r) := by
  apply endsNumber_cons
  simp only [isSpace, Bool.or_eq_true, decide_eq_true_eq] at h
  rcases h with ((rfl | rfl) | rfl) | rfl <;> decide

/-- behind white space, a comma or a closing bracket ends a number too -/
theorem endsNumber_spaces {blanks : List Char} (h : Spaces blanks) {c : Char} (hc : c = ',' ∨ isClosing c = true)
    (r : List Char) : EndsNumber (blanks ++ c :: r) := by
  cases blanks with
  | nil =>
    apply endsNumber_cons
    simp only [isClosing, Bool.or_eq_true, decide_eq_true_eq] at hc
    rcases hc with rfl | rfl | rfl <;> decide
  | cons b blanks => exact endsNumber_of_isSpace (h b List.mem_cons_self) _

/-- a text that neither space nor a closing bracket starts, and that a reader takes back where no number is carried on -/
structure ReadsBack {α : Type} (item : List Char → Option (α × List Char)) (text : List Char) (value : α) : Prop where
  starts : ∃ c r, text = c :: r ∧ isSpace c = false ∧ isClosing c = false
  reads : ∀ rest, EndsNumber rest → item (text ++ rest) = some (value, rest)

section Brackets

variable {α : Type} {item : List Char → Option (α × List Char)} {text : α → List Char} {vs : List α}
  {lead blanks trail : List Char} {closing : Char}

theorem items?_last {cs r rest : List Char} {v : α} (hitem : item (skipSpace cs) = some (v, r))
    (hclose : skipSpace r = closing :: rest) (hclosing : closing ≠ ',') (fuel : ℕ) (done : List α) :
    items? closing item (fuel + 1) done cs = some ((v :: done).reverse, rest) := by
  rw [items?, hitem]
  simp [hclose]

theorem items?_next {cs r rest : List Char} {v : α} (hitem : item (skipSpace cs) = some (v, r))
    (hcomma : skipSpace r = ',' :: rest) (fuel : ℕ) (done : List α) :
    items? closing item (fuel + 1) done cs = items? closing item fuel (v :: done) rest := by
  rw [items?, hitem]
  simp [hcomma]

theorem ne_comma_of_isClosing (h : isClosing closing = true) : isSpace closing = false ∧ closing ≠ ',' := by
  simp only [isClosing, Bool.or_eq_true, decide_eq_true_eq] at h
  rcases h with rfl | rfl <;> decide

theorem ReadsBack.skipSpace {x : List Char} {v : α} (h : ReadsBack item x v) (hlead : Spaces lead) (rest : List Char) :
    skipSpace (lead ++ (x ++ rest)) = x ++ rest := by
  obtain ⟨c, r, rfl, hspace, -⟩ := h.starts
  rw [skipSpace_append hlead, List.cons_append, skipSpace_cons hspace]

theorem ReadsBack.ne_nil {x : List Char} {v : α} (h : ReadsBack item x v) : x ≠ [] := by
  obtain ⟨c, r, rfl, -⟩ := h.starts
  exact List.cons_ne_nil c r

/-- items with separators between them read back, whatever follows their closing bracket -/
theorem items?_intercalate (hvs : ∀ v ∈ vs, ReadsBack item (text v) v) (hne : vs ≠ []) (hlead : Spaces lead)
    (hblanks : Spaces blanks) (htrail : Spaces trail) (hclosing : isClosing closing = true) {fuel : ℕ}
    (hfuel : vs.length ≤ fuel) (done : List α) (rest : List Char) :
    items? closing item fuel done
      (lead ++ ((',' :: blanks).intercalate (vs.map text) ++ (trail ++ closing :: rest))) =
      some (done.reverse ++ vs, rest) := by
  induction vs generalizing lead fuel done with
  | nil => exact absurd rfl hne
  | cons v vs ih =>
    have hv : ReadsBack item (text v) v := hvs v List.mem_cons_self
    obtain ⟨hspace, hcomma⟩ := ne_comma_of_isClosing hclosing
    rw [List.length_cons] at hfuel
    obtain ⟨fuel, rfl⟩ : ∃ k, fuel = k + 1 := ⟨fuel - 1, by omega⟩
    cases vs with
    | nil =>
      have hitem := hv.reads _ (endsNumber_spaces htrail (.inr hclosing) rest)
      rw [← hv.skipSpace hlead] at hitem
      have hclose : skipSpace (trail ++ closing :: rest) = closing :: rest := by
        rw [skipSpace_append htrail, skipSpace_cons hspace]
      rw [List.map_singleton, List.intercalate_singleton, items?_last hitem hclose hcomma, List.reverse_cons]
    | cons w vs =>
      have hitem := fun tail : List Char => hv.reads (',' :: tail) (endsNumber_cons (by decide) tail)
      have hrest := ih (fun x hx => hvs x (List.mem_cons_of_mem _ hx)) (List.cons_ne_nil _ _) hblanks
        (Nat.le_of_succ_le_succ hfuel) (v :: done)
      rw [List.map_cons] at hrest ⊢
      rw [List.map_cons, List.intercalate_cons_cons, List.append_assoc, List.append_assoc, List.cons_append]
      rw [items?_next (by rw [hv.skipSpace hlead, hitem]) (skipSpace_cons (by decide) _), hrest, List.reverse_cons,
        List.append_assoc, List.singleton_append]

theorem length_le_length_intercalate (hvs : ∀ v ∈ vs, text v ≠ []) (sep : List Char) :
    vs.length ≤ (sep.intercalate (vs.map text)).length := by
  induction vs with
  | nil => simp
  | cons v vs ih =>
    have hv := List.length_pos_iff.2 (hvs v List.mem_cons_self)
    have hrest := ih fun w hw => hvs w (List.mem_cons_of_mem _ hw)
    cases vs with
    | nil => simpa [Nat.succ_le_iff] using hv
    | cons w vs =>
      simp only [List.map_cons, List.intercalate_cons_cons, List.length_append, List.length_cons] at hrest ⊢
      omega

theorem exists_intercalate_cons (sep x : List Char) (xs : List (List Char)) :
    ∃ tail, sep.intercalate (x :: xs) = x ++ tail := by
  cases xs with
  | nil => exact ⟨[], by simp⟩
  | cons y xs => exact ⟨sep ++ sep.intercalate (y :: xs), by rw [List.intercalate_cons_cons, List.append_assoc]⟩

theorem enclosed?_of_not_isClosing {cs r : List Char} {c : Char} (hskip : skipSpace cs = c :: r)
    (hclosing : isClosing closing = true) (hc : isClosing c = false) :
    enclosed? closing item cs = items? closing item (cs.length + 1) [] (c :: r) := by
  have hne : c ≠ closing := by
    rintro rfl
    rw [hclosing] at hc
    cases hc
  rw [enclosed?, hskip]
  exact if_neg hne

/-- what follows the opening bracket of a sequence that is not empty -/
theorem Layout.tail_enclose {l : Layout} {blanks : List Char} (hseparator : l.itemSeparator = ',' :: blanks) (depth : ℕ)
    (opening closing : Char) (x : List Char) (xs : List (List Char)) (rest : List Char) :
    (l.enclose depth opening closing (x :: xs)).tail ++ rest = l.lineBreak (depth + 1) ++
      ((',' :: (blanks ++ l.lineBreak (depth + 1))).intercalate (x :: xs) ++ (l.lineBreak depth ++ closing :: rest)) := by
  rw [enclose, hseparator]
  · simp
  · simp

/-- a bracketed sequence reads back, after its opening bracket and whatever follows the closing one -/
theorem enclosed?_enclose {l : Layout} (hl : l.Separates) (opening closing : Char) (hclosing : isClosing closing = true)
    (hvs : ∀ v ∈ vs, ReadsBack item (text v) v) (depth : ℕ) (rest : List Char) :
    enclosed? closing item ((l.enclose depth opening closing (vs.map text)).tail ++ rest) = some (vs, rest) := by
  obtain ⟨blanks, hseparator, hblanks⟩ := hl.items
  cases vs with
  | nil => simp [Layout.enclose, enclosed?, skipSpace_cons (ne_comma_of_isClosing hclosing).1]
  | cons v vs =>
    have hv : ReadsBack item (text v) v := hvs v List.mem_cons_self
    have hseparators : Spaces (blanks ++ l.lineBreak (depth + 1)) :=
      List.forall_mem_append.2 ⟨hblanks, l.spaces_lineBreak (depth + 1)⟩
    set body := (',' :: (blanks ++ l.lineBreak (depth + 1))).intercalate ((v :: vs).map text)
      ++ (l.lineBreak depth ++ closing :: rest) with hbody
    have htext : (l.enclose depth opening closing ((v :: vs).map text)).tail ++ rest = l.lineBreak (depth + 1) ++ body :=
      Layout.tail_enclose hseparator depth opening closing (text v) (vs.map text) rest
    obtain ⟨c, r, hstarts, hspace, hopen⟩ := hv.starts
    obtain ⟨tail, htail⟩ : ∃ tail, body = c :: tail := by
      obtain ⟨tail, htail⟩ := exists_intercalate_cons (',' :: (blanks ++ l.lineBreak (depth + 1))) (text v) (vs.map text)
      exact ⟨_, by rw [hbody, List.map_cons, htail, hstarts, List.cons_append, List.cons_append]⟩
    have hskip : skipSpace (l.lineBreak (depth + 1) ++ body) = body := by
      rw [skipSpace_append (l.spaces_lineBreak (depth + 1)), htail, skipSpace_cons hspace]
    have hfuel : (v :: vs).length ≤ (l.lineBreak (depth + 1) ++ body).length + 1 := by
      have hcount := length_le_length_intercalate (fun w hw => (hvs w hw).ne_nil)
        (',' :: (blanks ++ l.lineBreak (depth + 1)))
      rw [hbody, List.length_append, List.length_append]
      omega
    have hitems := items?_intercalate hvs (List.cons_ne_nil v vs) spaces_nil hseparators (l.spaces_lineBreak depth) hclosing
      hfuel [] rest
    rw [htext, enclosed?_of_not_isClosing (hskip.trans htail) hclosing hopen, ← htail]
    exact hitems

end Brackets

/-! ## Values -/

section Values

variable {σ : Type}

theorem foldl_putField (fields : List (String × Json σ)) {more : List (String × Json σ)}
    (h : ((fields ++ more).map (·.1)).Nodup) : more.foldl putField fields = fields ++ more := by
  induction more generalizing fields with
  | nil => simp
  | cons f more ih =>
    have hnew : (fields.any fun g => g.1 == f.1) = false := by
      rw [List.any_eq_false]
      intro g hg heq
      rw [List.map_append, List.map_cons] at h
      exact (List.nodup_append.1 h).2.2 g.1 (List.mem_map_of_mem hg) f.1 List.mem_cons_self (beq_iff_eq.1 heq)
    rw [List.foldl_cons, putField, hnew, if_neg Bool.false_ne_true, ih]
    · rw [List.append_assoc, List.singleton_append]
    · rwa [List.append_assoc, List.singleton_append]

theorem literal_eq {τ : Type} [Text.CodeText τ] (s : τ) : literal s = '"' :: (literal s).tail := rfl

/-- a field reads back if its value does -/
theorem pair?_of_value {value : List Char → Option (Json σ × List Char)} {l : Layout} (hl : l.Separates) {x : List Char}
    {f : String × Json σ} (h : ReadsBack value x f.2) : ReadsBack (pair? value) (literal f.1 ++ l.keySeparator ++ x) f := by
  obtain ⟨blanks, hseparator, hblanks⟩ := hl.keys
  refine ⟨⟨'"', _, rfl, rfl, rfl⟩, fun rest hrest => ?_⟩
  rw [literal_eq, hseparator, List.cons_append, List.cons_append, List.cons_append, pair?, List.append_assoc,
    List.append_assoc, List.cons_append, stringRest?_literal (noPair_string f.1), Option.bind_some]
  have hcolon : skipSpace (':' :: (blanks ++ (x ++ rest))) = ':' :: (blanks ++ (x ++ rest)) := skipSpace_cons rfl _
  simp only [hcolon, h.skipSpace hblanks, h.reads rest hrest, Option.map_some, Text.CodeText.ofPoints_points]

variable [Text.CodeText σ]

/-- a value that its text determines: no floating point number, no two halves of a pair side by side in a string, and no key
twice in one object -/
inductive Legible : Json σ → Prop where
  | null : Legible .null
  | bool (b : Bool) : Legible (.bool b)
  | int (n : ℤ) : Legible (.int n)
  | string {s : σ} (noPair : Text.CodeText.NoPair s) : Legible (.string s)
  | array {items : List (Json σ)} (items_legible : ∀ v ∈ items, Legible v) : Legible (.array items)
  | object {fields : List (String × Json σ)} (nodup_keys : (fields.map (·.1)).Nodup)
      (fields_legible : ∀ f ∈ fields, Legible f.2) : Legible (.object fields)

theorem Legible.noFloats {v : Json σ} (h : v.Legible) : v.NoFloats := by
  induction h with
  | null => exact .null
  | bool b => exact .bool b
  | int n => exact .int n
  | string hs => exact .string _
  | array _ ih => exact .array ih
  | object _ _ ih => exact .object ih

theorem Layout.exists_enclose (l : Layout) (depth : ℕ) (opening closing : Char) (items : List (List Char)) :
    ∃ r, l.enclose depth opening closing items = opening :: r := by
  cases items with
  | nil => exact ⟨_, rfl⟩
  | cons x items => exact ⟨_, rfl⟩

theorem exists_integerText_starts (n : ℤ) : ∃ c r, (Text.integerText n).toList = c :: r ∧
    (c.isDigit = true ∨ c = '-' ∧ ∃ d ds, r = d :: ds ∧ d.isDigit = true) := by
  obtain ⟨d, ds, hdigits⟩ := List.exists_cons_of_ne_nil (Nat.toDigits_ne_nil (b := 10) (n := n.natAbs))
  have hd : d.isDigit = true := Text.isDigit_of_mem_toDigits (hdigits ▸ List.mem_cons_self)
  rw [Text.toList_integerText, hdigits]
  split
  · exact ⟨'-', d :: ds, rfl, .inr ⟨rfl, d, ds, rfl, hd⟩⟩
  · exact ⟨d, ds, rfl, .inl hd⟩

theorem not_isSpace_of_isDigit {c : Char} (h : c.isDigit = true) : isSpace c = false ∧ isClosing c = false := by
  constructor
  · by_contra hc
    simp only [isSpace, Bool.not_eq_false, Bool.or_eq_true, decide_eq_true_eq] at hc
    rcases hc with ((rfl | rfl) | rfl) | rfl <;> exact absurd h (by decide)
  · by_contra hc
    simp only [isClosing, Bool.not_eq_false, Bool.or_eq_true, decide_eq_true_eq] at hc
    rcases hc with rfl | rfl <;> exact absurd h (by decide)

/-- neither white space nor a closing bracket starts the text of a value -/
theorem exists_write_starts (l : Layout) (depth : ℕ) {v : Json σ} (hv : v.Legible) :
    ∃ c r, write l depth v = c :: r ∧ isSpace c = false ∧ isClosing c = false := by
  cases hv with
  | null => exact ⟨'n', _, by rw [write], rfl, rfl⟩
  | bool b =>
    cases b with
    | false => exact ⟨'f', _, by rw [write]; rfl, rfl, rfl⟩
    | true => exact ⟨'t', _, by rw [write]; rfl, rfl, rfl⟩
  | int n =>
    obtain ⟨c, r, htext, hc⟩ := exists_integerText_starts n
    refine ⟨c, r, by rw [write, htext], ?_⟩
    rcases hc with hdigit | ⟨rfl, -⟩
    · exact not_isSpace_of_isDigit hdigit
    · decide
  | string _ => exact ⟨'"', _, by rw [write]; rfl, rfl, rfl⟩
  | array _ =>
    rw [write]
    obtain ⟨r, hr⟩ := l.exists_enclose depth '[' ']' _
    exact ⟨'[', r, hr, rfl, rfl⟩
  | object _ _ =>
    rw [write]
    obtain ⟨r, hr⟩ := l.exists_enclose depth '\x7b' '\x7d' _
    exact ⟨'\x7b', r, hr, rfl, rfl⟩

theorem value?_string (depth : ℕ) {s : σ} (hs : Text.CodeText.NoPair s) (rest : List Char) :
    value? (depth + 1) (literal s ++ rest) = some (.string s, rest) := by
  rw [literal_eq, List.cons_append, value?, stringRest?_literal hs, Option.map_some]
  simp only [Text.CodeText.ofPoints_points]

/-- what a digit starts, or a digit behind a sign, is read as a number -/
theorem value?_integerText (depth : ℕ) (n : ℤ) {rest : List Char} (hrest : EndsNumber rest) :
    value? (depth + 1) ((Text.integerText n).toList ++ rest) = some ((.int n : Json σ), rest) := by
  rw [← number?_integerText n hrest]
  obtain ⟨c, r, htext, hc⟩ := exists_integerText_starts n
  rw [htext, List.cons_append, value?]
  all_goals
    intro tail heq
    rcases hc with hdigit | ⟨rfl, d, ds, rfl, hdigit⟩
    · obtain ⟨rfl, -⟩ := List.cons.inj heq
      exact absurd hdigit (by decide)
    · simp_all

theorem length_le_of_mem_intercalate (sep : List Char) {x : List Char} {xs : List (List Char)} (h : x ∈ xs) :
    x.length ≤ (sep.intercalate xs).length := by
  induction xs with
  | nil => cases h
  | cons y xs ih =>
    obtain ⟨tail, htail⟩ := exists_intercalate_cons sep y xs
    rcases List.mem_cons.1 h with rfl | h
    · rw [htail, List.length_append]
      omega
    · cases xs with
      | nil => cases h
      | cons z xs =>
        have hrest := ih h
        rw [List.intercalate_cons_cons, List.length_append]
        omega

/-- an item is shorter than what encloses it -/
theorem Layout.length_lt_of_mem_enclose (l : Layout) (depth : ℕ) (opening closing : Char) {x : List Char}
    {items : List (List Char)} (h : x ∈ items) : x.length + 1 < (l.enclose depth opening closing items).length := by
  cases items with
  | nil => cases h
  | cons y items =>
    have hlength := length_le_of_mem_intercalate (l.itemSeparator ++ l.lineBreak (depth + 1)) h
    simp only [enclose, List.length_append, List.length_cons, List.length_nil]
    omega

section Composites

variable {l : Layout} {indent depth : ℕ}

theorem value?_array (hl : l.Separates) {items : List (Json σ)}
    (hitems : ∀ v ∈ items, ReadsBack (value? depth) (write l (indent + 1) v) v) (rest : List Char) :
    value? (depth + 1) (write l indent (.array items) ++ rest) = some (.array items, rest) := by
  have hread := enclosed?_enclose hl '[' ']' rfl hitems indent rest
  obtain ⟨r, hr⟩ := l.exists_enclose indent '[' ']' (items.map (write l (indent + 1)))
  rw [hr, List.tail_cons] at hread
  rw [write, writeItems_eq, hr, List.cons_append, value?, hread, Option.map_some]

theorem value?_object (hl : l.Separates) {fields : List (String × Json σ)} (hkeys : (fields.map (·.1)).Nodup)
    (hfields : ∀ f ∈ fields, ReadsBack (value? depth) (write l (indent + 1) f.2) f.2) (rest : List Char) :
    value? (depth + 1) (write l indent (.object fields) ++ rest) = some (.object fields, rest) := by
  have hpairs := fun f hf => pair?_of_value hl (hfields f hf)
  have hread := enclosed?_enclose hl '\x7b' '\x7d' rfl hpairs indent rest
  have hfold : fields.foldl putField [] = fields := foldl_putField [] hkeys
  obtain ⟨r, hr⟩ := l.exists_enclose indent '\x7b' '\x7d'
    (fields.map fun f => literal f.1 ++ l.keySeparator ++ write l (indent + 1) f.2)
  rw [hr, List.tail_cons] at hread
  rw [write, writeFields_eq, hr, List.cons_append, value?, hread, Option.map_some]
  simp only [hfold]

end Composites

theorem length_lt_of_mem_items (l : Layout) (indent : ℕ) {v : Json σ} {items : List (Json σ)} (h : v ∈ items) :
    (write l (indent + 1) v).length + 1 < (write l indent (.array items)).length := by
  rw [write, writeItems_eq]
  exact l.length_lt_of_mem_enclose indent '[' ']' (List.mem_map_of_mem h)

theorem length_lt_of_mem_fields (l : Layout) (indent : ℕ) {f : String × Json σ} {fields : List (String × Json σ)}
    (h : f ∈ fields) : (write l (indent + 1) f.2).length + 1 < (write l indent (.object fields)).length := by
  rw [write, writeFields_eq]
  have hlength := l.length_lt_of_mem_enclose indent '\x7b' '\x7d'
    (List.mem_map_of_mem (f := fun f : String × Json σ => literal f.1 ++ l.keySeparator ++ write l (indent + 1) f.2) h)
  rw [List.length_append] at hlength
  omega

/-- **Values read back.** The text of a legible value gives the value back and ends exactly where it ends; only a number has
to be kept apart from what follows. -/
theorem value?_write {l : Layout} (hl : l.Separates) {v : Json σ} (hv : v.Legible) (indent : ℕ) {depth : ℕ} {rest : List Char}
    (hdepth : (write l indent v).length < depth) (hrest : (∃ n, v = .int n) → EndsNumber rest) :
    value? depth (write l indent v ++ rest) = some (v, rest) := by
  obtain ⟨depth, rfl⟩ : ∃ k, depth = k + 1 := ⟨depth - 1, by omega⟩
  induction hv generalizing indent depth rest with
  | null =>
    rw [write]
    rfl
  | bool b =>
    rw [write]
    cases b <;> rfl
  | int n =>
    rw [write]
    exact value?_integerText depth n (hrest ⟨n, rfl⟩)
  | string hs =>
    rw [write]
    exact value?_string depth hs rest
  | array items_legible ih =>
    refine value?_array hl (fun v hv => ⟨exists_write_starts l _ (items_legible v hv), fun rest hrest => ?_⟩) rest
    have hlength := length_lt_of_mem_items l indent hv
    obtain ⟨depth, rfl⟩ : ∃ k, depth = k + 1 := ⟨depth - 1, by omega⟩
    exact ih v hv (indent + 1) (fun _ => hrest) depth (by omega)
  | object nodup_keys fields_legible ih =>
    refine value?_object hl nodup_keys
      (fun f hf => ⟨exists_write_starts l _ (fields_legible f hf), fun rest hrest => ?_⟩) rest
    have hlength := length_lt_of_mem_fields l indent hf
    obtain ⟨depth, rfl⟩ : ∃ k, depth = k + 1 := ⟨depth - 1, by omega⟩
    exact ih f hf (indent + 1) (fun _ => hrest) depth (by omega)

/-- the value at the front of a text, and what follows it -/
def front? (cs : List Char) : Option (Json σ × List Char) := value? (cs.length + 1) cs

theorem front?_literal {s : σ} (hs : Text.CodeText.NoPair s) (rest : List Char) :
    front? (literal s ++ rest) = some (.string s, rest) :=
  value?_string _ hs rest

/-- a value at the front of a text is read up to its end -/
theorem front?_write {l : Layout} (hl : l.Separates) {v : Json σ} (hv : v.Legible) {rest : List Char}
    (hrest : (∃ n, v = .int n) → EndsNumber rest) : front? (write l 0 v ++ rest) = some (v, rest) := by
  apply value?_write hl hv
  · rw [List.length_append]
    omega
  · exact hrest

end Values

end Turnstile.Json
