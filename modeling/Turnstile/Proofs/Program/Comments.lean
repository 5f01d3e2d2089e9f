/-
Comments change nothing.

- `Tree.WithoutComments`: one tree is another without some of its comments, at any depth;
- `twins_of_withoutComments`: two such trees are twins at the same place, so they are lowered to the same program;
- `lowering_ignores_comments`: a unit read with or without its comments fails or succeeds alike, with the same map, trace and
  text.
-/
import Turnstile.Instrumenter
import Turnstile.Proofs.Program.Twins

namespace Turnstile

/-- the second tree is the first without some comments that stand in no field; the nodes that are left are as they were -/
inductive Tree.WithoutComments : Tree → Tree → Prop where
  | node {kind : String} {start stop : ℕ} {named isError isMissing hasError : Bool} {field : Option String}
      {children children' : List Tree} (thinned : Thinned WithoutComments children children') :
      WithoutComments ⟨kind, start, stop, named, isError, isMissing, hasError, field, children⟩
        ⟨kind, start, stop, named, isError, isMissing, hasError, field, children'⟩

theorem Tree.WithoutComments.hasError_eq {t t' : Tree} (h : t.WithoutComments t') : t'.hasError = t.hasError := by
  cases h
  rfl

namespace Lowering

theorem span_moved_zero (s : Span) : s.moved 0 0 = s := by
  simp [Span.moved, Location.moved]

/-- without some comments, every node has its type, its text and its place -/
theorem twins_of_withoutComments (src : SourceText) {t t' : Tree} (h : t.WithoutComments t') :
    Twins src src 0 0 t t' := by
  induction hsize : sizeOf t using Nat.strong_induction_on generalizing t t' with
  | _ size ih =>
    subst hsize
    cases h with
    | node thinned =>
      refine .mk rfl rfl rfl ?_ (by rw [textOf, textOf]) (thinned.mono ?_)
      · rw [span_moved_zero, spanOf, spanOf]
      intro c hc c' hcc
      exact ih _ (Tree.sizeOf_lt_of_mem_children hc) hcc rfl

/-- the same program with and without comments -/
theorem program_of_withoutComments (depth : ℕ) (src : SourceText) {t t' : Tree} (h : t.WithoutComments t') :
    program depth src t' = program depth src t := by
  rw [program_of_twins depth (twins_of_withoutComments src h)]
  have hid : Node.moved 0 0 = id := by
    funext n
    exact n.moved_zero
  rw [hid, id_map]

end Lowering

/-- **Comments are ignored.** A tree without errors is lowered to the same program over every source, or fails with the same
fault, when comments are taken out of it. A unit that is read with or without them has the same early error, or else the same
steps in the log and the same map, trace and text. -/
theorem lowering_ignores_comments {t t' : Tree} (h : t.WithoutComments t') (herror : t.hasError = false) :
    (∀ depth src, Lowering.program depth src t' = Lowering.program depth src t) ∧
    ∀ (u : SourceUnit) (o : Options) (read read' : TreeReader), read'.depth = read.depth →
      read (.ofString u.code) = .ok t → read' (.ofString u.code) = .ok t' →
      parseUnit read' (.ofString u.code) u.file = parseUnit read (.ofString u.code) u.file ∧
      u.phases read' o = u.phases read o := by
  have hprogram := fun depth src => Lowering.program_of_withoutComments depth src h
  refine ⟨hprogram, fun u o read read' hdepth hread hread' => ?_⟩
  have hparse : ∀ file, parseUnit read' (.ofString u.code) file = parseUnit read (.ofString u.code) file := by
    intro file
    simp [parseUnit, hread, hread', hdepth, h.hasError_eq, herror, hprogram]
  refine ⟨hparse u.file, ?_⟩
  simp only [SourceUnit.phases, textPhases, parsePhase, hparse]

def commentedElse : String := "/*a*/if (p) q; else /*b*/ r;"

/-- the tree of `commentedElse`, with some nodes in front of it and others in front of its last statement -/
def commentedElseTree (inFront inElse : List Tree) : Tree :=
  .node "program" 0 28 (inFront ++ [.node "if_statement" 5 28 [
    (Tree.node "parenthesized_expression" 8 11 [.leaf "identifier" 9 10]).inField "condition",
    (Tree.node "expression_statement" 12 14 [.leaf "identifier" 12 13]).inField "consequence",
    (Tree.node "else_clause" 15 28
      (inElse ++ [.node "expression_statement" 26 28 [.leaf "identifier" 26 27]])).inField "alternative"]])

theorem commentedElse_read_without :
    let u : SourceUnit := ⟨commentedElse, some "a.js"⟩
    let t := commentedElseTree [.leaf "comment" 0 5] [.leaf "comment" 20 25]
    let t' := commentedElseTree [] []
    t.WithoutComments t' ∧ t.hasError = false ∧
    ((Lowering.program Lowering.usualDepth (.ofString commentedElse) t).toOption.map fun n => n.children.length) = some 1 ∧
    Lowering.program Lowering.usualDepth (.ofString commentedElse) t' =
      Lowering.program Lowering.usualDepth (.ofString commentedElse) t ∧
    u.phases ⟨fun _ => .ok t', Lowering.usualDepth⟩ ⟨"trace", true, false, false, true, true⟩ =
      u.phases ⟨fun _ => .ok t, Lowering.usualDepth⟩ ⟨"trace", true, false, false, true, true⟩ := by
  intro u t t'
  have same : ∀ {kind start stop named isError isMissing hasError field},
      Tree.WithoutComments ⟨kind, start, stop, named, isError, isMissing, hasError, field, []⟩
        ⟨kind, start, stop, named, isError, isMissing, hasError, field, []⟩ := .node .nil
  have helse : t.WithoutComments t' :=
    .node (.drop rfl rfl (.keep (.node (.keep (.node (.keep same .nil)) (.keep (.node (.keep same .nil))
      (.keep (.node (.drop rfl rfl (.keep (.node (.keep same .nil)) .nil))) .nil)))) .nil))
  obtain ⟨hprogram, hunit⟩ := lowering_ignores_comments helse rfl
  exact ⟨helse, rfl, by decide +kernel, hprogram _ _, (hunit u _ ⟨fun _ => .ok t, _⟩ ⟨fun _ => .ok t', _⟩ rfl rfl rfl).2⟩

end Turnstile
