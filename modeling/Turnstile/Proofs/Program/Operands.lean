/-
Operands of lowered programs.

In a tree without errors both operands of a binary expression are there, and neither is a comment: the grammar has no other
form. A reader is relied on for this (`TreeReader.GivesOperands`), and then no short-circuit operator of a program lacks an
operand (`whole_of_parseUnit`).
-/
import Turnstile.Proofs.Program.Constructions
import Turnstile.Proofs.Program.MainlineReturns
import Turnstile.Program.Parsed

namespace Turnstile

namespace Tree

/-- an expression stands in the field -/
def holds (t : Tree) (field : String) : Bool := (t.child? field).any fun c => !c.isComment

/-- every binary expression has both operands -/
def HasOperands (t : Tree) : Prop :=
  ∀ u ∈ t.nodes, u.kind = "binary_expression" → u.holds "left" = true ∧ u.holds "right" = true

instance (t : Tree) : Decidable t.HasOperands := List.decidableBAll _ _

theorem HasOperands.inside {t c : Tree} (h : t.HasOperands) (hc : c ∈ t.children) : c.HasOperands :=
  fun u hu => h u (mem_nodes_of_mem_children hc hu)

theorem HasOperands.self {t : Tree} (h : t.HasOperands) (hkind : t.kind = "binary_expression") :
    t.holds "left" = true ∧ t.holds "right" = true :=
  h t t.self_mem_nodes hkind

end Tree

/-- a reader that gives trees with all operands, unless they hold errors -/
def TreeReader.GivesOperands (read : TreeReader) : Prop :=
  ∀ src root, read src = .ok root → root.hasError = false → root.HasOperands

namespace Lowering

variable {src : SourceText}

theorem Fills.isSome {t : Tree} {field : String} {o : Option Node} (h : Fills t field o) (hholds : t.holds field = true) :
    o.isSome = true := by
  obtain ⟨c, hc, hcomment⟩ := (Option.any_eq_true _ _).1 hholds
  exact h c hc (by simpa using hcomment)

theorem whole_of_isDirective {d : Node} (h : d.isDirective = true) : d.Whole := by
  cases d with
  | directive span value => exact .mk rfl (by simp [Node.children])
  | _ => cases h

theorem whole_prologue {directives statements : List Node} (hdirectives : ∀ d ∈ directives, d.isDirective = true)
    (hstatements : ∀ s ∈ statements, s.Whole) : ∀ c ∈ directives ++ statements, c.Whole :=
  List.forall_mem_append.2 ⟨fun d hd => whole_of_isDirective (hdirectives d hd), hstatements⟩

/-- **The constructions of lowering leave no operand out.** -/
theorem whole_closed : Closed src Tree.HasOperands Node.Whole Node.Whole where
  inside ht hc := ht.inside hc
  other {n} _ _ hlogical _ hchildren := by
    refine .mk ?_ hchildren
    cases n with
    | logical => cases hlogical
    | _ => rfl
  logical ht hkind hfillsLeft hfillsRight hleft hright := by
    obtain ⟨hholdsLeft, hholdsRight⟩ := ht.self hkind
    refine .mk (Bool.and_eq_true_iff.2 ⟨hfillsLeft.isSome hholdsLeft, hfillsRight.isSome hholdsRight⟩) fun c hc => ?_
    simp only [Node.children, List.mem_append, Option.mem_toList] at hc
    exact hc.elim (hleft c) (hright c)
  function hparameters hbody := by
    refine .mk rfl fun c hc => ?_
    simp only [Node.children, List.mem_append, Option.mem_toList] at hc
    exact hc.elim (hparameters c) (hbody c)
  expressionBody h := h
  blockBody hdirectives hstatements := .mk rfl (whole_prologue hdirectives hstatements)

/-- **Lowered programs lack no operand.** -/
theorem whole_of_program {depth : ℕ} {root : Tree} {program : Node} (hroot : root.HasOperands)
    (h : Lowering.program depth src root = .ok program) : program.Whole := by
  obtain ⟨directives, statements, rfl, hdirectives, hstatements⟩ := whole_closed.program_body hroot h
  exact .mk rfl (whole_prologue hdirectives hstatements)

end Lowering

theorem whole_of_parseUnit {read : TreeReader} (hread : read.GivesOperands) {src : SourceText} {file : Option String}
    {program : Node} (h : parseUnit read src file = .ok program) : program.Whole := by
  rw [parseUnit] at h
  split at h
  · cases h
  next root hroot =>
  split at h
  · cases h
  next herror =>
  split at h
  · cases h
  next lowered hlowered =>
  split at h
  · cases h
  · cases h
    exact Lowering.whole_of_program (hread src root hroot (by simpa using herror)) hlowered

end Turnstile
