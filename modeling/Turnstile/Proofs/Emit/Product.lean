/-
What a unit yields that succeeds.

- `exists_preamble`: a generated text has the preamble of the unit in it, with the initial trace of the map as its entry;
- `SourceUnit.product`: the trace kept for a unit is the initial trace of the map kept with it, and the entry of the preamble
  in the text written for it.
-/
import Turnstile.Instrumenter
import Turnstile.Proofs.Emit.Conservation
import Turnstile.Proofs.Emit.RenderedText

namespace Turnstile

/-! ## The preamble in a text -/

/-- what is inserted stands in the text -/
theorem Conserves.exists_append {α : Type} {render : α → String} {text out : String} {es : List (Insertion α)}
    {ps : List (Piece α)} (h : Conserves render text out es ps) {e : Insertion α} (he : e ∈ es) :
    ∃ head rest, out = head ++ render e.payload ++ rest := by
  have hpayload : e.payload ∈ ps.filterMap Piece.payload? := by
    rw [h.insertions]
    exact List.mem_map_of_mem ((arranges_inTextOrder es).mem_iff.2 he)
  obtain ⟨p, hp, hinserted⟩ := List.mem_filterMap.1 hpayload
  obtain rfl : p = .inserted e.payload := by
    cases p with
    | source start stop => cases hinserted
    | inserted payload => rw [Option.some.inj hinserted]
  obtain ⟨before, after, rfl⟩ := List.append_of_mem hp
  refine ⟨piecesText render text.toUTF8 before, piecesText render text.toUTF8 after, ?_⟩
  rw [h.written]
  simp [piecesText, Piece.text, String.append_assoc]

/-- the preamble is inserted behind the directives of the unit -/
theorem exists_mem_programEdits (style : EmitStyle) (src : SourceText) (program : Node) (map : CoverageMap) (key : String) :
    ∃ (offset : ℕ) (separator : String), .opening offset (.plain (separator ++
      preamble style.traceVariable key (Trace.initial map (style.code src)).toJson style.compact)) ∈
        programEdits style src program map key := ⟨_, _, List.mem_cons_self⟩

/-- **A generated text has its preamble in it.** -/
theorem exists_preamble {style : EmitStyle} {code key : String} {program : Node} {index : CoverageIndex} {g : Generated}
    (h : generate? style (.ofString code) program index key = .ok g) : ∃ head rest, g.text = head ++
      preamble style.traceVariable key (Trace.initial index.map (style.code (.ofString code))).toJson style.compact ++ rest := by
  obtain ⟨offset, separator, hmem⟩ := exists_mem_programEdits style (.ofString code) program index.map key
  rw [generate?] at h
  split at h
  · cases h
  · next insertions hresolve =>
    split at h
    · next text htext =>
      cases h
      obtain ⟨rfl, -⟩ := CoverageIndex.resolve_eq_map hresolve
      obtain ⟨ps, hps⟩ := exists_conserves htext
      obtain ⟨head, rest, hwritten⟩ := hps.exists_append (List.mem_map_of_mem hmem)
      refine ⟨head ++ separator, rest, hwritten.trans ?_⟩
      simp only [Insertion.map, Insertion.opening, CoverageIndex.snippet, Snippet.plain, Option.bind_none, Snippet.text,
        String.append_assoc, String.append_empty]
    · cases h

/-! ## Phases that succeed -/

namespace Phase

variable {α β : Type}

theorem result_pure (a : α) : (pure a : Phase α).result = pure a := rfl

theorem result_ofResult (r : Except Failure α) : (ofResult r).result = r := rfl

theorem result_ofSteps (steps : List ConsoleStep) : (ofSteps steps).result = pure () := rfl

theorem result_bind_eq (p : Phase α) (next : α → Phase β) :
    (p >>= next).result = p.result >>= fun a => (next a).result := by
  change (p.andThen next).result = _
  rw [andThen]
  cases p.result <;> rfl

theorem result_bind {p : Phase α} {next : α → Phase β} {b : β} (h : (p >>= next).result = .ok b) :
    ∃ a, p.result = .ok a ∧ (next a).result = .ok b := by
  rw [result_bind_eq] at h
  exact bind_eq_ok_iff.1 h

theorem result_inScope (p : Phase α) (shown : Bool) (name : String) : (p.inScope shown name).result = p.result := by
  cases shown <;> rfl

end Phase

theorem exists_generate? {read : TreeReader} {o : Options} {src : SourceText} {key : String} {index : CoverageIndex}
    {text : String} (h : (textPhases read o src key).result = .ok (index, text)) :
    ∃ program g, generate? o.style src program index key = .ok g ∧ g.text = text := by
  rw [textPhases, Phase.result_inScope] at h
  obtain ⟨program, -, h⟩ := Phase.result_bind h
  obtain ⟨-, -, h⟩ := Phase.result_bind h
  obtain ⟨index', -, h⟩ := Phase.result_bind h
  obtain ⟨text', htext, h⟩ := Phase.result_bind h
  cases h
  rw [Phase.result_inScope, generatePhase] at htext
  split at htext
  · next g hg =>
    cases htext
    exact ⟨program, g, hg, rfl⟩
  · cases htext

/-- **The trace of a unit is the initial trace of its map**, with the source lines of the unit exactly if they are to be put
into it, and it is the entry of the preamble in the text of the unit. -/
theorem SourceUnit.product {u : SourceUnit} {read : TreeReader} {o : Options} {p : Product}
    (h : (u.phases read o).result = .ok p) :
    p.trace = Trace.initial p.map (if o.embedSource then some (SourceText.ofString u.code).lines else none) ∧
    ∃ head rest, p.text = head ++ preamble o.traceVariable u.key p.trace.toJson (!o.noCompact) ++ rest := by
  obtain ⟨⟨index, text⟩, htext, h⟩ := Phase.result_bind h
  obtain ⟨-, -, h⟩ := Phase.result_bind h
  cases h
  obtain ⟨program, g, hg, rfl⟩ := exists_generate? htext
  refine ⟨?_, ?_⟩
  · rfl
  · obtain ⟨head, rest, hwritten⟩ := exists_preamble hg
    exact ⟨head, rest, hwritten⟩

namespace Instrumenter

theorem options_keep (s : Instrumenter) (result : Except Failure Product) : (s.keep result).options = s.options := by
  cases result <;> rfl

/-- an instrumenter keeps its options -/
theorem options_instrument (s : Instrumenter) (read : TreeReader) (u : SourceUnit) :
    (s.instrument read u).1.options = s.options :=
  options_keep _ _

end Instrumenter

/-! ### Empty units -/

/-- reads the empty text, and nothing else -/
def emptyReader : TreeReader :=
  ⟨fun src => if src.text = "" then .ok (.node "program" 0 0 []) else .error .unreadable, Lowering.usualDepth⟩

end Turnstile
