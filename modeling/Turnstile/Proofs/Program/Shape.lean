/-
The shape of lowered programs.

A typed program may hold directives anywhere; lowering makes them only where a program or the block of a function begins,
and the clauses of a switch are clauses.
- `WellPlaced`: the shape, one rule for functions and one for all other nodes;
- `plain_closed`: every construction of lowering keeps it;
- `wellPlaced_of_program`: every lowered program has it.
-/
import Turnstile.Proofs.Program.Constructions

namespace Turnstile

/-! ## The shape -/

namespace Node

/-- the parts of a node that must not be directives: all, or those behind the directives that it begins with -/
def behindPrologue (begins : Bool) (n : Node) : List Node :=
  if begins then n.children.dropWhile isDirective else n.children

end Node

/-- directives stand only where a program or the block of a function begins, and switches have clauses; `begins` says that
the node is a program or the block of a function -/
inductive WellPlaced : Bool → Node → Prop where
  | function {begins : Bool} {span : Span} {form : FunctionForm} {name : Option String} {parameters : List Node}
      {body : Option Node} (parametersPlain : ∀ p ∈ parameters, p.isDirective = false)
      (parametersPlaced : ∀ p ∈ parameters, WellPlaced false p) (bodyPlain : ∀ b ∈ body, b.isDirective = false)
      (bodyPlaced : ∀ b ∈ body, WellPlaced b.isBlock b) :
      WellPlaced begins (.function span form name parameters body)
  | other {begins : Bool} {n : Node} (notFunction : n.isFunction = false)
      (plain : ∀ c ∈ n.behindPrologue begins, c.isDirective = false) (clauses : ∀ c ∈ n.clauses, c.isClause = true)
      (placed : ∀ c ∈ n.children, WellPlaced false c) : WellPlaced begins n

/-- the rule for a node that begins nothing is the stricter one -/
theorem WellPlaced.weaken {n : Node} (h : WellPlaced false n) (begins : Bool) : WellPlaced begins n := by
  cases h with
  | function parametersPlain parametersPlaced bodyPlain bodyPlaced =>
    exact .function parametersPlain parametersPlaced bodyPlain bodyPlaced
  | other notFunction plain clauses placed =>
    refine .other notFunction (fun c hc => plain c ?_) clauses placed
    cases begins
    · exact hc
    · exact List.dropWhile_subset _ hc

/-- a well placed part that is no directive and starts with none -/
structure Plain (n : Node) : Prop where
  notDirective : n.isDirective = false
  placed : WellPlaced false n

theorem Plain.of_children {n : Node} (hd : n.isDirective = false) (hf : n.isFunction = false)
    (hclauses : ∀ c ∈ n.clauses, c.isClause = true) (h : ∀ c ∈ n.children, Plain c) : Plain n :=
  ⟨hd, .other hf (fun c hc => (h c hc).notDirective) hclauses fun c hc => (h c hc).placed⟩

/-! ## Lowered programs -/

/-- directives do not count as statements, and behind those that a sequence begins with there are none -/
theorem dropWhile_isDirective {directives statements : List Node} (hdirectives : ∀ d ∈ directives, d.isDirective = true)
    (hstatements : ∀ s ∈ statements, Plain s) : (directives ++ statements).dropWhile Node.isDirective = statements := by
  rw [List.dropWhile_append_of_pos hdirectives]
  cases statements with
  | nil => rfl
  | cons s statements =>
    have hs : s.isDirective = false := (hstatements s List.mem_cons_self).notDirective
    exact List.dropWhile_cons_of_neg (by simp [hs])

theorem wellPlaced_of_isDirective {d : Node} (h : d.isDirective = true) : WellPlaced false d := by
  cases d with
  | directive span value =>
    exact .other rfl (by simp [Node.behindPrologue, Node.children]) (by simp [Node.clauses]) (by simp [Node.children])
  | _ => cases h

/-- directives in front of plain statements, in a program or the block of a function -/
theorem WellPlaced.of_prologue {n : Node} {directives statements : List Node} (hfunction : n.isFunction = false)
    (hclauses : n.clauses = []) (hchildren : n.children = directives ++ statements)
    (hdirectives : ∀ d ∈ directives, d.isDirective = true) (hstatements : ∀ s ∈ statements, Plain s) :
    WellPlaced true n := by
  refine .other hfunction ?_ (by simp [hclauses]) ?_
  · rw [Node.behindPrologue, if_pos rfl, hchildren, dropWhile_isDirective hdirectives hstatements]
    exact fun s hs => (hstatements s hs).notDirective
  · rw [hchildren]
    exact List.forall_mem_append.2
      ⟨fun d hd => wellPlaced_of_isDirective (hdirectives d hd), fun s hs => (hstatements s hs).placed⟩

namespace Lowering

variable {src : SourceText}

/-- **The constructions of lowering keep the shape.** -/
theorem plain_closed : Closed src (fun _ => True) Plain fun n => n.isDirective = false ∧ WellPlaced n.isBlock n where
  inside _ _ := trivial
  other hdirective hfunction _ hclauses hchildren := Plain.of_children hdirective hfunction hclauses hchildren
  logical _ _ _ _ hleft hright := by
    refine Plain.of_children rfl rfl (by simp [Node.clauses]) fun c hc => ?_
    simp only [Node.children, List.mem_append, Option.mem_toList] at hc
    exact hc.elim (hleft c) (hright c)
  function hparameters hbody :=
    ⟨rfl, .function (fun p hp => (hparameters p hp).notDirective) (fun p hp => (hparameters p hp).placed)
      (fun b hb => (hbody b hb).1) fun b hb => (hbody b hb).2⟩
  expressionBody h := ⟨h.notDirective, h.placed.weaken _⟩
  blockBody hdirectives hstatements := ⟨rfl, .of_prologue rfl rfl rfl hdirectives hstatements⟩

/-- **Lowered programs are well placed.** -/
theorem wellPlaced_of_program {depth : ℕ} {root : Tree} {program : Node} (h : Lowering.program depth src root = .ok program) :
    ∃ body, program = .program (spanOf src root) body ∧ WellPlaced true program := by
  obtain ⟨directives, statements, rfl, hdirectives, hstatements⟩ := plain_closed.program_body trivial h
  exact ⟨_, rfl, .of_prologue rfl rfl rfl hdirectives hstatements⟩

end Lowering

end Turnstile
