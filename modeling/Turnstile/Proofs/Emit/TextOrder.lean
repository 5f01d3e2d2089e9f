/-
Insertions in text order.

Insertions are recorded in one order and stand in the text in another. Only insertions that agree in offset and direction
are compared by when they were recorded, so the text order is known offset by offset.
- `SameOrder`: two recordings that agree offset by offset stand for the same text;
- `Arranges`: a list that is sorted and, offset by offset, has what closes in reverse and what opens as recorded;
- `inTextOrder_eq_of_arranges`: there is one such list, and it is the text order.
-/
import Mathlib.Tactic
import Turnstile.Emit.Edits

namespace Turnstile

namespace Insertion

variable {α : Type}

/-- where an insertion stands and whether it closes; the time of recording only decides among insertions that agree in it -/
def key (e : Insertion α) : ℤ × Bool := (e.offset, e.closing)

/-- an offset comes before another one, and at one offset what closes comes before what opens -/
def Le (e f : Insertion α) : Prop :=
  e.offset < f.offset ∨ e.offset = f.offset ∧ (e.closing = true ∨ f.closing = false)

/-- another payload at the same place -/
def map {β : Type} (f : α → β) (e : Insertion α) : Insertion β := ⟨e.offset, f e.payload, e.closing⟩

theorem Le.trans {e f g : Insertion α} (h : e.Le f) (h' : f.Le g) : e.Le g := by
  rcases h with h | ⟨h, hc⟩
  · rcases h' with h' | ⟨h', -⟩
    · exact Or.inl (h.trans h')
    · exact Or.inl (h'.symm ▸ h)
  · rcases h' with h' | ⟨h', hc'⟩
    · exact Or.inl (h ▸ h')
    · refine Or.inr ⟨h.trans h', ?_⟩
      rcases hc with hc | hc
      · exact Or.inl hc
      · rcases hc' with hc' | hc'
        · rw [hc] at hc'
          cases hc'
        · exact Or.inr hc'

theorem key_eq_of_le {e f : Insertion α} (h : e.Le f) (h' : f.Le e) : e.key = f.key := by
  unfold Le at h h'
  have hoffset : e.offset = f.offset := by omega
  have hclosing : e.closing = f.closing := by
    cases he : e.closing <;> cases hf : f.closing <;> simp_all
  exact Prod.ext hoffset hclosing

theorem le_of_offset_le {e f : Insertion α} (h : e.offset ≤ f.offset) (hc : e.closing = true ∨ f.closing = false) :
    e.Le f := h.lt_or_eq.imp_right fun heq => ⟨heq, hc⟩

theorem le_of_key_eq {e f : Insertion α} (h : e.key = f.key) : e.Le f := by
  obtain ⟨hoffset, hclosing⟩ := Prod.mk.inj h
  refine le_of_offset_le hoffset.le ?_
  cases hf : f.closing
  · exact Or.inr rfl
  · exact Or.inl (hclosing.trans hf)

end Insertion

variable {α : Type}

/-! ## Insertions at one place -/

/-- the insertions of one direction at one offset -/
def recordedAt (k : ℤ × Bool) (es : List (Insertion α)) : List (Insertion α) := es.filter fun e => e.key = k

theorem recordedAt_append (k : ℤ × Bool) (es fs : List (Insertion α)) :
    recordedAt k (es ++ fs) = recordedAt k es ++ recordedAt k fs := List.filter_append ..

theorem mem_recordedAt {k : ℤ × Bool} {es : List (Insertion α)} {e : Insertion α} :
    e ∈ recordedAt k es ↔ e ∈ es ∧ e.key = k := by simp [recordedAt]

theorem recordedAt_eq_nil {k : ℤ × Bool} {es : List (Insertion α)} (h : ∀ e ∈ es, e.key ≠ k) :
    recordedAt k es = [] := List.filter_eq_nil_iff.2 fun e he => by simpa using h e he

/-- the order in which insertions of one direction stand at an offset: the last one that closes stands first -/
def standing (k : ℤ × Bool) (es : List (Insertion α)) : List (Insertion α) := if k.2 then es.reverse else es

/-- sorted lists that agree place by place are the same -/
theorem eq_of_sorted {es fs : List (Insertion α)} (hes : es.Pairwise Insertion.Le) (hfs : fs.Pairwise Insertion.Le)
    (h : ∀ k, recordedAt k es = recordedAt k fs) : es = fs := by
  induction es generalizing fs with
  | nil =>
    cases fs with
    | nil => rfl
    | cons f fs =>
      have := h f.key
      simp [recordedAt] at this
  | cons e es ih =>
    cases fs with
    | nil =>
      have := h e.key
      simp [recordedAt] at this
    | cons f fs =>
      rw [List.pairwise_cons] at hes hfs
      have hkey : e.key = f.key := by
        have he : e ∈ f :: fs := (mem_recordedAt.1 (h e.key ▸ mem_recordedAt.2 ⟨List.mem_cons_self, rfl⟩)).1
        have hf : f ∈ e :: es := (mem_recordedAt.1 ((h f.key).symm ▸ mem_recordedAt.2 ⟨List.mem_cons_self, rfl⟩)).1
        rcases List.mem_cons.1 he with rfl | he
        · rfl
        · rcases List.mem_cons.1 hf with rfl | hf
          · rfl
          · exact Insertion.key_eq_of_le (hes.1 f hf) (hfs.1 e he)
      have hhead : e = f := by
        have := h e.key
        simp only [recordedAt, List.filter_cons, hkey, decide_true, if_true] at this
        exact (List.cons.inj this).1
      subst hhead
      refine congrArg _ (ih hes.2 hfs.2 fun k => ?_)
      have := h k
      simp only [recordedAt, List.filter_cons] at this ⊢
      split_ifs at this
      · exact (List.cons.inj this).2
      · exact this

/-! ## The sorting order -/

namespace Insertion

variable {x y z : Insertion α × ℕ}

/-- places decide first, and at one place the time of recording does -/
theorem before_iff : before x y = true ↔
    x.1.Le y.1 ∧ (x.1.key = y.1.key → if x.1.closing then y.2 ≤ x.2 else x.2 ≤ y.2) := by
  obtain ⟨⟨o, p, c⟩, i⟩ := x
  obtain ⟨⟨o', p', c'⟩, j⟩ := y
  by_cases ho : o = o'
  · subst ho
    cases c <;> cases c' <;> simp [before, Le, key]
  · have hlt : o < o' ↔ o ≤ o' := by omega
    simp [before, Le, key, ho]

theorem before_total (x y : Insertion α × ℕ) : (before x y || before y x) = true := by
  obtain ⟨⟨o, p, c⟩, i⟩ := x
  obtain ⟨⟨o', p', c'⟩, j⟩ := y
  by_cases ho : o = o'
  · subst ho
    cases c <;> cases c' <;> simp [before, Nat.le_total]
  · have hlt : o < o' ∨ o' < o := by omega
    simp [before, ho, Ne.symm ho, hlt]

theorem before_trans (h : before x y = true) (h' : before y z = true) : before x z = true := by
  rw [before_iff] at *
  refine ⟨h.1.trans h'.1, fun hxz => ?_⟩
  have hxy : x.1.key = y.1.key := key_eq_of_le h.1 (h'.1.trans (le_of_key_eq hxz.symm))
  have hyz : y.1.key = z.1.key := hxy.symm.trans hxz
  have hclosing : y.1.closing = x.1.closing := (congrArg Prod.snd hxy).symm
  have hi := h.2 hxy
  have hj := h'.2 hyz
  rw [hclosing] at hj
  split_ifs at * <;> omega

end Insertion

/-! ## The text order -/

/-- a list is sorted and holds, place by place, what was recorded there -/
structure Arranges (ts es : List (Insertion α)) : Prop where
  sorted : ts.Pairwise Insertion.Le
  standing : ∀ k, recordedAt k ts = standing k (recordedAt k es)

theorem mem_of_mem_zipIdx_eq {es : List (Insertion α)} {x y : Insertion α × ℕ} (hx : x ∈ es.zipIdx)
    (hy : y ∈ es.zipIdx) (h : x.2 = y.2) : x = y := by
  have hx := List.mem_zipIdx_iff_getElem?.1 hx
  have hy := List.mem_zipIdx_iff_getElem?.1 hy
  rw [h, hy] at hx
  exact Prod.ext (Option.some.inj hx).symm h

/-- recordings with their times, at one place -/
theorem map_filter_zipIdx (k : ℤ × Bool) (es : List (Insertion α)) (i : ℕ) :
    (((es.zipIdx i).filter fun x => x.1.key = k).map Prod.fst) = recordedAt k es := by
  induction es generalizing i with
  | nil => rfl
  | cons e es ih =>
    by_cases h : e.key = k
    · simpa [recordedAt, List.filter_cons, h] using ih (i + 1)
    · simpa [recordedAt, List.filter_cons, h] using ih (i + 1)

theorem pairwise_lt_zipIdx (es : List (Insertion α)) (i : ℕ) : (es.zipIdx i).Pairwise fun x y => x.2 < y.2 := by
  have h := List.pairwise_lt_range' (s := i) (n := es.length)
  rw [← List.zipIdx_map_snd i es, List.pairwise_map] at h
  exact h

/-- **The sort arranges what was recorded.** -/
theorem arranges_inTextOrder (es : List (Insertion α)) : Arranges (inTextOrder es) es := by
  have hsorted : (es.zipIdx.mergeSort Insertion.before).Pairwise fun x y => Insertion.before x y = true :=
    @List.pairwise_mergeSort _ Insertion.before (fun _ _ _ => Insertion.before_trans) Insertion.before_total _
  refine ⟨List.pairwise_map.2 (hsorted.imp fun h => (Insertion.before_iff.1 h).1), fun k => ?_⟩
  have hplace : recordedAt k (inTextOrder es) =
      ((es.zipIdx.mergeSort Insertion.before).filter fun x => x.1.key = k).map Prod.fst := by
    rw [recordedAt, inTextOrder, List.filter_map]
    rfl
  have hperm := (List.mergeSort_perm es.zipIdx Insertion.before).filter fun x => x.1.key = k
  have htimes := (pairwise_lt_zipIdx es 0).filter fun x => x.1.key = k
  have hplaced : ((es.zipIdx.mergeSort Insertion.before).filter fun x => x.1.key = k).Pairwise fun x y =>
      if k.2 then y.2 ≤ x.2 else x.2 ≤ y.2 := by
    refine List.pairwise_filter.2 (hsorted.imp fun {x y} h hx hy => ?_)
    have hx : x.1.key = k := by simpa using hx
    have hy : y.1.key = k := by simpa using hy
    have hclosing : x.1.closing = k.2 := congrArg Prod.snd hx
    have htime := (Insertion.before_iff.1 h).2 (hx.trans hy.symm)
    rwa [hclosing] at htime
  rw [hplace, ← map_filter_zipIdx k es 0]
  -- at one place the sort compares times only, and no two recordings share a time
  generalize (es.zipIdx.mergeSort Insertion.before).filter _ = placed at hperm hplaced ⊢
  have hmem : ∀ x ∈ placed, x ∈ es.zipIdx := fun x hx => (List.mem_filter.1 (hperm.mem_iff.1 hx)).1
  cases hk : k.2 with
  | false =>
    rw [hk] at hplaced
    have hanti : ∀ x y, x ∈ placed → y ∈ es.zipIdx.filter (fun x => x.1.key = k) → x.2 ≤ y.2 → y.2 ≤ x.2 → x = y :=
      fun x y hx hy h h' => mem_of_mem_zipIdx_eq (hmem x hx) (List.mem_filter.1 hy).1 (le_antisymm h h')
    rw [List.Perm.eq_of_pairwise hanti hplaced (htimes.imp fun h => h.le) hperm, Turnstile.standing, hk]
    rfl
  | true =>
    rw [hk] at hplaced
    have hanti : ∀ x y, x ∈ placed → y ∈ (es.zipIdx.filter fun x => x.1.key = k).reverse → y.2 ≤ x.2 → x.2 ≤ y.2 →
        x = y := fun x y hx hy h h' =>
      mem_of_mem_zipIdx_eq (hmem x hx) (List.mem_filter.1 (List.mem_reverse.1 hy)).1 (le_antisymm h' h)
    rw [List.Perm.eq_of_pairwise hanti hplaced (List.pairwise_reverse.2 (htimes.imp fun h => h.le))
      (hperm.trans (List.reverse_perm _).symm), Turnstile.standing, hk, List.map_reverse]
    rfl

/-- **There is one arrangement.** -/
theorem inTextOrder_eq_of_arranges {ts es : List (Insertion α)} (h : Arranges ts es) : inTextOrder es = ts := by
  have hsort := arranges_inTextOrder es
  exact eq_of_sorted hsort.sorted h.sorted fun k => (hsort.standing k).trans (h.standing k).symm

/-- where insertions stand does not depend on what they insert -/
theorem inTextOrder_map {β : Type} (f : α → β) (es : List (Insertion α)) :
    inTextOrder (es.map (Insertion.map f)) = (inTextOrder es).map (Insertion.map f) := by
  have hrecorded : ∀ k (fs : List (Insertion α)),
      recordedAt k (fs.map (Insertion.map f)) = (recordedAt k fs).map (Insertion.map f) := by
    intro k fs
    exact List.filter_map
  obtain ⟨hsorted, hstanding⟩ := arranges_inTextOrder es
  refine inTextOrder_eq_of_arranges ⟨List.pairwise_map.2 hsorted, fun k => ?_⟩
  rw [hrecorded, hrecorded, hstanding k, Turnstile.standing, Turnstile.standing]
  split
  · exact List.map_reverse
  · rfl

/-! ## Recordings that stand for the same text -/

/-- the same insertions place by place -/
def SameOrder (es fs : List (Insertion α)) : Prop := ∀ k, recordedAt k es = recordedAt k fs

namespace SameOrder

variable {es fs gs hs : List (Insertion α)}

theorem refl (es : List (Insertion α)) : SameOrder es es := fun _ => rfl

theorem symm (h : SameOrder es fs) : SameOrder fs es := fun k => (h k).symm

theorem trans (h : SameOrder es fs) (h' : SameOrder fs gs) : SameOrder es gs := fun k => (h k).trans (h' k)

theorem mem_iff (h : SameOrder es fs) {e : Insertion α} : e ∈ es ↔ e ∈ fs := by
  have hmem : e ∈ recordedAt e.key es ↔ e ∈ recordedAt e.key fs := by rw [h e.key]
  simpa [mem_recordedAt] using hmem

theorem append (h : SameOrder es fs) (h' : SameOrder gs hs) : SameOrder (es ++ gs) (fs ++ hs) := fun k => by
  rw [recordedAt_append, recordedAt_append, h k, h' k]

/-- recordings at different places may be exchanged -/
theorem swap (h : ∀ e ∈ es, ∀ f ∈ fs, e.key ≠ f.key) : SameOrder (es ++ fs) (fs ++ es) := by
  intro k
  rw [recordedAt_append, recordedAt_append]
  by_cases hes : recordedAt k es = []
  · rw [hes, List.nil_append, List.append_nil]
  · obtain ⟨e, he⟩ := List.exists_mem_of_ne_nil _ hes
    obtain ⟨he, hk⟩ := mem_recordedAt.1 he
    have hfs : recordedAt k fs = [] := recordedAt_eq_nil fun f hf hfk => h e he f hf (hk.trans hfk.symm)
    rw [hfs, List.nil_append, List.append_nil]

/-- one recording pass before another, or the two interleaved -/
theorem interleave {β : Type} {l : List β} {f g : β → List (Insertion α)}
    (h : l.Pairwise fun x y => ∀ e ∈ g x, ∀ e' ∈ f y, e.key ≠ e'.key) :
    SameOrder (l.flatMap f ++ l.flatMap g) (l.flatMap fun x => f x ++ g x) := by
  induction l with
  | nil => exact .refl _
  | cons x l ih =>
    rw [List.pairwise_cons] at h
    have hswap : SameOrder (l.flatMap f ++ g x) (g x ++ l.flatMap f) := by
      refine .swap fun e he e' he' => ?_
      obtain ⟨y, hy, he⟩ := List.mem_flatMap.1 he
      exact (h.1 y hy e' he' e he).symm
    have hrest := (hswap.append (.refl (l.flatMap g))).trans
      (by simpa [List.append_assoc] using (SameOrder.refl (g x)).append (ih h.2))
    simpa [List.append_assoc] using (SameOrder.refl (f x)).append hrest

end SameOrder

namespace Arranges

variable {ts us es fs : List (Insertion α)}

theorem congr (h : Arranges ts es) (hes : SameOrder es fs) : Arranges ts fs :=
  ⟨h.sorted, fun k => by rw [h.standing k, hes k]⟩

theorem mem_iff (h : Arranges ts es) {e : Insertion α} : e ∈ ts ↔ e ∈ es := by
  have hmem := congrArg (e ∈ ·) (h.standing e.key)
  simpa [Turnstile.standing, apply_ite (e ∈ ·), mem_recordedAt] using hmem

theorem nil : Arranges ([] : List (Insertion α)) [] := ⟨.nil, fun k => by simp [Turnstile.standing, recordedAt]⟩

/-- what stands in front of a place is recorded apart from what stands behind it, but for openings recorded earlier -/
theorem append (h : Arranges ts es) (h' : Arranges us fs) (hle : ∀ e ∈ es, ∀ f ∈ fs, e.Le f)
    (hclose : ∀ e ∈ es, ∀ f ∈ fs, e.closing = true → e.key ≠ f.key) : Arranges (ts ++ us) (es ++ fs) := by
  refine ⟨List.pairwise_append.2 ⟨h.sorted, h'.sorted, fun e he f hf => hle e (h.mem_iff.1 he) f (h'.mem_iff.1 hf)⟩,
    fun k => ?_⟩
  rw [recordedAt_append, recordedAt_append, h.standing k, h'.standing k, Turnstile.standing, Turnstile.standing,
    Turnstile.standing]
  cases hk : k.2 with
  | false => rfl
  | true =>
    by_cases hes : recordedAt k es = []
    · simp [hes]
    · obtain ⟨e, he⟩ := List.exists_mem_of_ne_nil _ hes
      obtain ⟨he, hek⟩ := mem_recordedAt.1 he
      have hclosing : e.closing = true := (congrArg Prod.snd hek).trans hk
      have hfs : recordedAt k fs = [] :=
        recordedAt_eq_nil fun f hf hfk => hclose e he f hf hclosing (hek.trans hfk.symm)
      simp [hfs]

theorem singleton (e : Insertion α) : Arranges [e] [e] := by
  refine ⟨List.pairwise_singleton _ _, fun k => ?_⟩
  by_cases h : e.key = k <;> simp [Turnstile.standing, recordedAt, h]

/-- what closes behind everything was recorded before everything -/
theorem closing {c : Insertion α} (h : Arranges ts es) (hc : c.closing = true) (hle : ∀ e ∈ es, e.Le c) :
    Arranges (ts ++ [c]) (c :: es) := by
  refine ⟨List.pairwise_append.2 ⟨h.sorted, List.pairwise_singleton _ _, fun e he f hf => ?_⟩, fun k => ?_⟩
  · rw [List.mem_singleton.1 hf]
    exact hle e (h.mem_iff.1 he)
  · have hcons : c :: es = [c] ++ es := rfl
    rw [hcons, recordedAt_append, recordedAt_append, h.standing k]
    by_cases hk : c.key = k
    · have hclosing : k.2 = true := (congrArg Prod.snd hk).symm.trans hc
      simp [Turnstile.standing, hclosing, recordedAt, hk]
    · have hnone : recordedAt k [c] = [] := recordedAt_eq_nil (by simpa using hk)
      rw [hnone, List.append_nil, List.nil_append]

end Arranges

/-! ## Insertions within a range -/

/-- what opens stands from `lo` on and before `lim`, what closes stands behind `lo` and up to `hi` -/
def Within (lo hi lim : ℕ) (es : List (Insertion α)) : Prop :=
  ∀ e ∈ es, e.closing = true ∧ (lo : ℤ) < e.offset ∧ e.offset ≤ hi ∨
    e.closing = false ∧ (lo : ℤ) ≤ e.offset ∧ e.offset < lim

namespace Within

variable {lo hi lim lo' hi' lim' : ℕ} {es fs : List (Insertion α)}

theorem nil : Within lo hi lim ([] : List (Insertion α)) := by simp [Within]

theorem append (h : Within lo hi lim es) (h' : Within lo hi lim fs) : Within lo hi lim (es ++ fs) := fun e he =>
  (List.mem_append.1 he).elim (h e) (h' e)

theorem mono (h : Within lo hi lim es) (hlo : lo' ≤ lo) (hhi : hi ≤ hi') (hlim : lim ≤ lim') :
    Within lo' hi' lim' es := by
  intro e he
  rcases h e he with ⟨hc, h1, h2⟩ | ⟨hc, h1, h2⟩
  · exact Or.inl ⟨hc, by omega, by omega⟩
  · exact Or.inr ⟨hc, by omega, by omega⟩

theorem of_openings (payloads : List α) {offset : ℕ} (hlo : lo ≤ offset) (hlim : offset < lim) :
    Within lo hi lim (payloads.map fun p => Insertion.opening offset p) := by
  intro e he
  obtain ⟨p, -, rfl⟩ := List.mem_map.1 he
  exact Or.inr ⟨rfl, by simpa [Insertion.opening] using hlo, by simpa [Insertion.opening] using hlim⟩

theorem of_closings (payloads : List α) {offset : ℕ} (hlo : lo < offset) (hhi : offset ≤ hi) :
    Within lo hi lim (payloads.map fun p => Insertion.close offset p) := by
  intro e he
  obtain ⟨p, -, rfl⟩ := List.mem_map.1 he
  exact Or.inl ⟨rfl, by simpa [Insertion.close] using hlo, by simpa [Insertion.close] using hhi⟩

/-- ranges that follow each other have no place in common -/
theorem key_ne (h : Within lo hi lim es) (h' : Within lo' hi' lim' fs) (hhi : hi ≤ lo') (hlim : lim ≤ lo') :
    ∀ e ∈ es, ∀ f ∈ fs, e.key ≠ f.key := by
  intro e he f hf hkey
  obtain ⟨hoffset, hclosing⟩ := Prod.mk.inj hkey
  rcases h e he with ⟨hc, h1, h2⟩ | ⟨hc, h1, h2⟩ <;> rcases h' f hf with ⟨hc', h3, h4⟩ | ⟨hc', h3, h4⟩
  · omega
  · simp [hc, hc'] at hclosing
  · simp [hc, hc'] at hclosing
  · omega

theorem swap (h : Within lo hi lim es) (h' : Within lo' hi' lim' fs) (hhi : hi ≤ lo') (hlim : lim ≤ lo') :
    SameOrder (es ++ fs) (fs ++ es) := .swap (h.key_ne h' hhi hlim)

end Within

/-- what opens and what closes may be recorded in either order -/
theorem SameOrder.swap_closings {payloads : List α} {offset : ℕ} {es : List (Insertion α)}
    (h : ∀ e ∈ es, e.closing = false) :
    SameOrder (payloads.map (Insertion.close offset) ++ es) (es ++ payloads.map (Insertion.close offset)) := by
  refine .swap fun e he f hf hkey => ?_
  obtain ⟨p, -, rfl⟩ := List.mem_map.1 he
  have hclosing := congrArg Prod.snd hkey
  rw [Insertion.key, Insertion.key, h f hf] at hclosing
  cases hclosing

end Turnstile
