/-
Where insertions stand and what they write.

- `Edit.Sound`: an insertion stands at an offset of some kind and has visible text around its counter;
- `sound_edits`: so do all insertions for a part of a program, if all offsets of its nodes are of that kind;
- `sound_programEdits`: and all insertions for a program, if its preamble is visible.
-/
import Turnstile.Proofs.Emit.Recursion
import Turnstile.Proofs.Emit.Spans
import Turnstile.Proofs.Json.Visible

namespace Turnstile

variable {fits : ℕ → Prop}

/-! ## Sound insertions -/

/-- visible text around a counter -/
structure Snippet.IsVisible {ρ : Type} (s : Snippet ρ) : Prop where
  before : Visible s.before.toList
  after : Visible s.after.toList

/-- an insertion at a fitting offset, with visible text -/
structure Edit.Sound (fits : ℕ → Prop) (e : Edit) : Prop where
  offset : ∃ i : ℕ, e.offset = i ∧ fits i
  visible : e.payload.IsVisible

namespace Edit

theorem sound_opening {i : ℕ} {s : Snippet Address} (hi : fits i) (hs : s.IsVisible) :
    Sound fits (.opening i s) := ⟨⟨i, rfl, hi⟩, hs⟩

theorem sound_close {i : ℕ} {s : Snippet Address} (hi : fits i) (hs : s.IsVisible) :
    Sound fits (.close i s) := ⟨⟨i, rfl, hi⟩, hs⟩

theorem sound_wrap {i j : ℕ} {s t : Snippet Address} (hi : fits i) (hj : fits j) (hs : s.IsVisible) (ht : t.IsVisible) :
    ∀ e ∈ Insertion.wrap (i : ℤ) j s t, Sound fits e := by
  intro e he
  simp only [Insertion.wrap, List.mem_cons, List.not_mem_nil, or_false] at he
  rcases he with rfl | rfl
  · exact sound_opening hi hs
  · exact sound_close hj ht

end Edit

namespace Snippet

variable {ρ : Type}

theorem isVisible_mk {before after : String} (counter : Option (Counter ρ))
    (h : Visible before.toList ∧ Visible after.toList) : IsVisible ⟨before, counter, after⟩ := ⟨h.1, h.2⟩

theorem isVisible_plain {s : String} (h : Visible s.toList) : (plain s : Snippet ρ).IsVisible :=
  isVisible_mk none ⟨h, visible_nil⟩

theorem isVisible_count (c : Counter ρ) : (count c).IsVisible := isVisible_mk (some c) (by decide)

theorem isVisible_countAfter {separator : String} (h : separator = "" ∨ separator = ";") (c : Counter ρ) :
    (countAfter separator c).IsVisible := by
  rcases h with rfl | rfl <;> exact isVisible_mk (some c) (by decide)

theorem isVisible_openBlock (c : Option (Counter ρ)) : (openBlock c).IsVisible := by
  cases c with
  | none => exact isVisible_plain (by decide)
  | some c => exact isVisible_mk (some c) (by decide)

theorem isVisible_closeBlock : (closeBlock : Snippet ρ).IsVisible := isVisible_plain (by decide)

theorem isVisible_elseBlock (c : Counter ρ) : (elseBlock c).IsVisible := isVisible_mk (some c) (by decide)

theorem isVisible_openSequence (c : Counter ρ) : (openSequence c).IsVisible := isVisible_mk (some c) (by decide)

theorem isVisible_closeSequence : (closeSequence : Snippet ρ).IsVisible := isVisible_plain (by decide)

end Snippet

/-! ## Offsets of a part -/

namespace Node

variable {data : ByteArray} {hoist : Option ℕ} {a : Address} {n : Node}

/-- all offsets of the nodes of a part fit -/
def OffsetsFit (fits : ℕ → Prop) (a : Address) (n : Node) : Prop := ∀ p ∈ n.preorder a, ∀ offset ∈ p.2.offsets, fits offset

namespace OffsetsFit

theorem self (h : n.OffsetsFit fits a) : ∀ offset ∈ n.offsets, fits offset := h _ (self_mem_preorder a n)

theorem start (h : n.OffsetsFit fits a) : fits n.span.start := h.self _ (start_mem_offsets n)

theorem stop (h : n.OffsetsFit fits a) : fits n.span.stop := h.self _ (stop_mem_offsets n)

theorem of_mem_placed (h : n.OffsetsFit fits a) {p : Address × Node} (hp : p ∈ n.placed a) : p.2.OffsetsFit fits p.1 :=
  fun q hq => h q (mem_preorder_of_mem_placed hp hq)

theorem child (h : n.OffsetsFit fits a) {c : Node} (hc : c ∈ n.children) : ∃ b, c.OffsetsFit fits b := by
  obtain ⟨p, hp, rfl⟩ := exists_mem_placed a hc
  exact ⟨p.1, h.of_mem_placed hp⟩

end OffsetsFit

/-- the offset behind directives is one that was given or the end of a statement -/
theorem afterDirectives_cases (data : ByteArray) (statements : List Node) (default : ℕ) :
    ((afterDirectives data statements default).1 = default ∨
      ∃ n ∈ statements, (afterDirectives data statements default).1 = n.span.stop) ∧
    ((afterDirectives data statements default).2 = "" ∨ (afterDirectives data statements default).2 = ";") := by
  unfold afterDirectives
  split
  · exact ⟨Or.inl rfl, Or.inl rfl⟩
  · next last hlast =>
    have hmem := List.takeWhile_subset _ (List.mem_of_getLast? hlast)
    refine ⟨Or.inr ⟨last, hmem, rfl⟩, ?_⟩
    dsimp only
    split_ifs
    · exact Or.inl rfl
    · exact Or.inr rfl

/-! ## Insertions for a node -/

theorem sound_directiveEdits (b : Address) (statements : List Node) {offset : ℕ} (hoffset : fits offset) :
    ∀ e ∈ directiveEdits b statements offset, Edit.Sound fits e := by
  intro e he
  obtain ⟨p, -, rfl⟩ := List.mem_map.1 he
  exact Edit.sound_opening hoffset (Snippet.isVisible_count _)

theorem sound_countEdits (hhoist : ∀ offset ∈ hoist, fits offset) (hstart : fits n.span.start) :
    ∀ e ∈ countEdits hoist a n, Edit.Sound fits e := by
  intro e he
  have hoffset : fits (counterOffset hoist n) := by
    cases hoist with
    | none => exact hstart
    | some offset => exact hhoist offset rfl
  rw [countEdits] at he
  split at he
  · obtain rfl := List.mem_singleton.1 he
    exact Edit.sound_opening hoffset (Snippet.isVisible_count _)
  · cases he

theorem sound_alternativeEdits (slot : ℕ) {part : Option Node} (h : ∀ m ∈ part, ∃ b, m.OffsetsFit fits b) :
    ∀ e ∈ alternativeEdits a slot part, Edit.Sound fits e := by
  cases part with
  | none => simp [alternativeEdits]
  | some m =>
    obtain ⟨b, hm⟩ := h m rfl
    exact Edit.sound_wrap hm.start hm.stop (Snippet.isVisible_openSequence _) Snippet.isVisible_closeSequence

theorem sound_bodyEdits {b : Address} {body : Node} (h : ∃ b, body.OffsetsFit fits b) :
    ∀ e ∈ bodyEdits data a b body, Edit.Sound fits e := by
  obtain ⟨b', hbody⟩ := h
  cases body with
  | block span statements =>
    obtain ⟨hplace, hseparator⟩ := afterDirectives_cases data statements (span.start + 1)
    have hoffset : fits (afterDirectives data statements (span.start + 1)).1 := by
      rcases hplace with hplace | ⟨m, hm, hplace⟩ <;> rw [hplace]
      · exact hbody.self _ (by simp [offsets])
      · obtain ⟨b, hm⟩ := hbody.child hm
        exact hm.stop
    rw [bodyEdits]
    exact List.forall_mem_cons.2 ⟨Edit.sound_opening hoffset (Snippet.isVisible_countAfter hseparator _),
      sound_directiveEdits b statements hoffset⟩
  | _ =>
    exact Edit.sound_wrap hbody.start hbody.stop (Snippet.isVisible_openSequence _) Snippet.isVisible_closeSequence

theorem sound_localEdits (h : n.OffsetsFit fits a) (hhoist : ∀ offset ∈ hoist, fits offset) :
    ∀ e ∈ n.localEdits data hoist a, Edit.Sound fits e := by
  have hcount := sound_countEdits (a := a) (n := n) hhoist h.start
  have hpart : ∀ {c : Option Node}, (∀ m ∈ c, m ∈ n.children) → ∀ m ∈ c, ∃ b, m.OffsetsFit fits b := fun hc m hm =>
    h.child (hc m hm)
  cases n with
  | directive => simp [localEdits, isLogical, ownEdits]
  | ifStatement span test consequent alternate =>
    cases alternate with
    | some alternate => exact hcount
    | none =>
      exact List.forall_mem_append.2
        ⟨hcount, List.forall_mem_singleton.2 (Edit.sound_close h.stop (Snippet.isVisible_elseBlock _))⟩
  | conditional span test consequent alternate =>
    exact List.forall_mem_append.2 ⟨sound_alternativeEdits 0 (hpart (by simp_all [children])),
      sound_alternativeEdits 1 (hpart (by simp_all [children]))⟩
  | logical span operator left right =>
    exact List.forall_mem_append.2 ⟨sound_alternativeEdits 0 (hpart (by simp_all [children])),
      sound_alternativeEdits 1 (hpart (by simp_all [children]))⟩
  | function span form name parameters body =>
    cases body with
    | none => exact hcount
    | some body => exact sound_bodyEdits (h.child (by simp [children]))
  | _ => exact hcount

/-! ## Insertions for parts -/

/-- the role of a clause of a switch, by its number -/
def clauseRole : Node × ℕ → Role
  | (switchCase _ _ _ offset, slot) => .clause slot offset
  | _ => .plain

/-- a clause counts at its own offset -/
theorem offset_mem_offsets_of_mem_zip {x : (Address × Node) × Role} (hx : x ∈ (n.placed a).zip n.roles) {slot offset : ℕ}
    (hrole : x.2 = .clause slot offset) : offset ∈ x.1.2.offsets := by
  have hswitch : ∀ (cases : List Node) (i : ℕ), ∀ y ∈ cases.zip ((cases.zipIdx i).map clauseRole),
      y.2 = .clause slot offset → offset ∈ y.1.offsets := by
    intro cases
    induction cases with
    | nil => simp
    | cons c cases ih =>
      intro i y hy hrole
      rw [List.zipIdx_cons, List.map_cons, List.zip_cons_cons, List.mem_cons] at hy
      rcases hy with rfl | hy
      · cases c with
        | switchCase span test body offset' =>
          obtain ⟨-, rfl⟩ := Role.clause.inj hrole
          simp [offsets]
        | _ => cases hrole
      · exact ih (i + 1) y hy hrole
  have hmem : (x.1.2, x.2) ∈ n.children.zip n.roles := by
    have hmap := List.mem_map_of_mem (f := Prod.map Prod.snd id) hx
    rwa [← List.zip_map_left, placed, map_snd_placedFrom] at hmap
  have hrole' : Role.clause slot offset ∈ n.roles := hrole ▸ (List.of_mem_zip hmem).2
  cases n with
  | switchStatement span discriminant cases =>
    rw [children, roles, List.zip_append (by simp), List.mem_append] at hmem
    rcases hmem with hmem | hmem
    · have hplain := (List.of_mem_zip hmem).2
      rw [hrole] at hplain
      simp at hplain
    · exact hswitch cases 0 _ hmem hrole
  | _ => simp [roles] at hrole'

theorem sound_armEdits (counter : Option (Counter Address)) {b : Address} {part : Node} (h : part.OffsetsFit fits b) :
    ∀ e ∈ armEdits counter part, Edit.Sound fits e := by
  cases part with
  | block span body =>
    intro e he
    obtain ⟨c, -, rfl⟩ : ∃ c, counter = some c ∧ Insertion.opening ((span.start + 1 : ℕ) : ℤ) (Snippet.count c) = e := by
      simpa [armEdits] using he
    exact Edit.sound_opening (h.self _ (by simp [offsets])) (Snippet.isVisible_count c)
  | _ =>
    intro e he
    simp only [armEdits] at he
    split at he
    · exact Edit.sound_wrap h.start h.stop (Snippet.isVisible_openBlock counter) Snippet.isVisible_closeBlock e he
    · cases he

theorem sound_roleEdits (h : n.OffsetsFit fits a) {x : (Address × Node) × Role} (hx : x ∈ (n.placed a).zip n.roles) :
    ∀ e ∈ roleEdits a x.2 x.1.2, Edit.Sound fits e := by
  have hpart := h.of_mem_placed (List.of_mem_zip hx).1
  cases hrole : x.2 with
  | plain => simp [roleEdits]
  | arm slot => exact sound_armEdits _ hpart
  | clause slot offset =>
    have hoffset := hpart.self _ (offset_mem_offsets_of_mem_zip hx hrole)
    exact List.forall_mem_singleton.2 (Edit.sound_opening hoffset (Snippet.isVisible_count _))

/-- **Insertions stand at offsets of nodes and write visible text.** A counter that a label takes in front of itself stands
at an offset of the label. -/
theorem sound_edits (h : n.OffsetsFit fits a) (hhoist : ∀ offset ∈ hoist, fits offset) :
    ∀ e ∈ n.edits data hoist a, Edit.Sound fits e := by
  induction n using inductionOn generalizing a hoist with
  | step n ih =>
    intro e he
    rw [edits_eq, List.mem_append] at he
    rcases he with he | he
    · exact sound_localEdits h hhoist e he
    · obtain ⟨x, hx, he⟩ := List.mem_flatMap.1 he
      have hplaced := (List.of_mem_zip hx).1
      rw [partEdits, List.mem_append] at he
      rcases he with he | he
      · exact sound_roleEdits h hx e he
      · refine ih _ (mem_of_mem_placedFrom hplaced) (h.of_mem_placed hplaced) ?_ e he
        intro offset hoffset
        cases n with
        | labeled span label body =>
          rw [partHoist] at hoffset
          split at hoffset
          · cases hoffset
            cases hoist with
            | none => exact h.start
            | some offset => exact hhoist offset rfl
          · cases hoffset
        | _ => cases hoffset

end Node

/-- **All insertions for a program are sound**, if the preamble is visible. -/
theorem sound_programEdits {style : EmitStyle} {src : SourceText} {program : Node} {map : CoverageMap} {key : String}
    (h : program.OffsetsFit fits .root) (hzero : fits 0)
    (hpreamble : Visible (preamble style.traceVariable key (Trace.initial map (style.code src)).toJson style.compact).toList) :
    ∀ e ∈ programEdits style src program map key, Edit.Sound fits e := by
  obtain ⟨hplace, hseparator⟩ := Node.afterDirectives_cases src.data program.programBody 0
  have hoffset : fits (Node.afterDirectives src.data program.programBody 0).1 := by
    rcases hplace with hplace | ⟨m, hm, hplace⟩ <;> rw [hplace]
    · exact hzero
    · have hchild : m ∈ program.children := by
        cases program <;> first | exact hm | cases hm
      obtain ⟨b, hm⟩ := h.child hchild
      exact hm.stop
  have hheader : Visible ((Node.afterDirectives src.data program.programBody 0).2 ++
      preamble style.traceVariable key (Trace.initial map (style.code src)).toJson style.compact).toList := by
    rw [String.toList_append, visible_append]
    refine ⟨?_, hpreamble⟩
    rcases hseparator with hseparator | hseparator <;> rw [hseparator] <;> decide
  rw [programEdits]
  refine List.forall_mem_append.2 ⟨List.forall_mem_cons.2 ⟨?_, Node.sound_directiveEdits _ _ hoffset⟩, ?_⟩
  · exact Edit.sound_opening hoffset (Snippet.isVisible_plain hheader)
  · exact Node.sound_edits h (by simp)

end Turnstile
