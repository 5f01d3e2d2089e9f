/-
Interpreter lines change nothing but line numbers.

A text that starts with `#!` is parsed with that line as a comment, which is two bytes longer. The nodes of the rest stand
that line further on.
- `Tree.moved`, `Lowering.twins_of_below`: a tree further on, over the text with a line in front, is a twin of the tree;
- `below_interpreterLine_alike`: lowering, the check for early errors and numbering do the same with and without an
  interpreter line, every place being one line further down and in the same column.
-/
import Turnstile.Proofs.Coverage.Displacement
import Turnstile.Proofs.Program.Comments
import Turnstile.Proofs.Source.Positions

namespace Turnstile

/-! ## Trees further on -/

namespace Tree

mutual
/-- a tree some bytes further on -/
def moved (bytes : ℕ) : Tree → Tree
  | ⟨kind, start, stop, named, isError, isMissing, hasError, field, children⟩ =>
    ⟨kind, start + bytes, stop + bytes, named, isError, isMissing, hasError, field, movedAll bytes children⟩

/-- the children of a tree some bytes further on -/
def movedAll (bytes : ℕ) : List Tree → List Tree
  | [] => []
  | t :: ts => t.moved bytes :: movedAll bytes ts
end

theorem movedAll_eq (bytes : ℕ) (ts : List Tree) : movedAll bytes ts = ts.map (moved bytes) := by
  induction ts with
  | nil => rfl
  | cons t ts ih => simp [movedAll, ih]

end Tree

theorem Thinned.map {R : Tree → Tree → Prop} {f : Tree → Tree} {ts : List Tree} (h : ∀ t ∈ ts, R t (f t)) :
    Thinned R ts (ts.map f) := by
  induction ts with
  | nil => exact .nil
  | cons t ts ih => exact .keep (h t List.mem_cons_self) (ih fun c hc => h c (List.mem_cons_of_mem _ hc))

theorem Below.span_add {bytes : ℕ} {src src' : SourceText} (h : Below bytes src src') (start stop : ℕ) :
    src'.span (start + bytes) (stop + bytes) = (src.span start stop).moved bytes 1 := by
  simp only [SourceText.span, SourceText.location, h.position_add]
  rfl

namespace Lowering

/-- further on, over the text with a line in front, every node has its text, one line further down -/
theorem twins_of_below {bytes : ℕ} {src src' : SourceText} (h : Below bytes src src') (t : Tree) :
    Twins src src' bytes 1 t (t.moved bytes) := by
  induction hsize : sizeOf t using Nat.strong_induction_on generalizing t with
  | _ size ih =>
    subst hsize
    have hchildren : ∀ c ∈ t.children, Twins src src' bytes 1 c (c.moved bytes) := fun c hc =>
      ih _ (Tree.sizeOf_lt_of_mem_children hc) c rfl
    obtain ⟨kind, start, stop, named, isError, isMissing, hasError, field, children⟩ := t
    rw [Tree.moved, Tree.movedAll_eq]
    refine .mk rfl rfl rfl (h.span_add start stop) ?_ (.map hchildren)
    simp only [textOf, h.slice?_add]

end Lowering

/-- **Interpreter lines are transparent.** Take a text without an interpreter line and one with it. A tree of the first is
lowered over the first as the tree further on, with or without the line as a comment, is lowered over the second: to the same
program one line further down, or with the same fault. The two programs have the same early error, one line further down, and
the same ids, names and kinds of branches, all locations one line further down and in the same columns. -/
theorem below_interpreterLine_alike {r s : String} (hr : ¬ "#!".toList <+: r.toList) (hs : '\n' ∉ s.toList) (depth : ℕ)
    (t : Tree) :
    let src := SourceText.ofString r
    let src' := SourceText.ofString ("#!" ++ s ++ "\n" ++ r)
    let bytes := ("//#!" ++ s ++ "\n").utf8ByteSize
    Lowering.program depth src' (t.moved bytes) = Node.moved bytes 1 <$> Lowering.program depth src t ∧
    (∀ t' : Tree, t'.WithoutComments (t.moved bytes) →
      Lowering.program depth src' t' = Node.moved bytes 1 <$> Lowering.program depth src t) ∧
    ∀ p : Node,
      (p.moved bytes 1).earlyError = p.earlyError.mapError (EarlyError.moved 1) ∧
      CoverageIndex.ofProgram (p.moved bytes 1) = CoverageIndex.moved 1 <$> CoverageIndex.ofProgram p := by
  intro src src' bytes
  have hprogram := Lowering.program_of_twins depth (Lowering.twins_of_below (below_interpreterLine hr hs) t)
  refine ⟨hprogram, fun t' ht' => ?_, fun p => ⟨earlyError_moved p, CoverageIndex.ofProgram_moved p⟩⟩
  rw [← hprogram, Lowering.program_of_withoutComments depth src' ht']

/-- the tree of `if (é) ö;` -/
def accentedIf : Tree :=
  .node "program" 0 11 [.node "if_statement" 0 11 [
    (Tree.node "parenthesized_expression" 3 7 [.leaf "identifier" 4 6]).inField "condition",
    (Tree.node "expression_statement" 8 11 [.leaf "identifier" 8 10]).inField "consequence"]]

theorem accentedIf_below_line :
    let src' := SourceText.ofString ("#!" ++ " ünode" ++ "\n" ++ "if (é) ö;")
    ¬ "#!".toList <+: "if (é) ö;".toList ∧ '\n' ∉ " ünode".toList ∧ ∃ p index,
      Lowering.program Lowering.usualDepth (.ofString "if (é) ö;") accentedIf = .ok p ∧
      Lowering.program Lowering.usualDepth src' (accentedIf.moved 12) = .ok (p.moved 12 1) ∧
      CoverageIndex.ofProgram (p.moved 12 1) = .ok index ∧
      index.map.statements = [⟨2, 0, 2, 9⟩, ⟨2, 7, 2, 9⟩] := by
  intro src'
  have hr : ¬ "#!".toList <+: "if (é) ö;".toList := by decide
  have hs : '\n' ∉ " ünode".toList := by decide
  obtain ⟨hprogram, -, hindex⟩ := below_interpreterLine_alike hr hs Lowering.usualDepth accentedIf
  have hok : ((Lowering.program Lowering.usualDepth (.ofString "if (é) ö;") accentedIf).toOption.bind fun p =>
      (CoverageIndex.ofProgram p).toOption.map fun index => index.map.statements) =
      some [⟨1, 0, 1, 9⟩, ⟨1, 7, 1, 9⟩] := by decide +kernel
  have hbytes : ("//#!" ++ " ünode" ++ "\n").utf8ByteSize = 12 := by decide
  rw [hbytes] at hprogram hindex
  cases hp : Lowering.program Lowering.usualDepth (.ofString "if (é) ö;") accentedIf with
  | error e =>
    rw [hp] at hok
    cases hok
  | ok p =>
    cases hi : CoverageIndex.ofProgram p with
    | error e =>
      simp [hp, hi, Except.toOption] at hok
    | ok index =>
      simp only [hp, hi, Except.toOption, Option.bind_some, Option.map_some, Option.some.injEq] at hok
      refine ⟨hr, hs, p, index.moved 1, rfl, ?_, ?_, ?_⟩
      · rw [hprogram, hp]
        rfl
      · rw [(hindex p).2, hi]
        rfl
      · simp only [CoverageIndex.moved, CoverageMap.moved, hok]
        rfl

end Turnstile
