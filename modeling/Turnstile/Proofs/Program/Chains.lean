/-
Chains of short-circuit operators, one operator at a time.

A chain is read in a loop: the operators along the left operands first, then the operands from the inside out. By recursion
an operator is read by reading its left and then its right operand.
- `logical_of_operator`: the loop on a chain is the loop on its left operand, then one more operator;
- `Reading.applied`, `Reading.plainExpression`: an operator, and any expression, by recursion;
- `Reading.IsPlain`: a reading that reads every node by recursion into the nodes inside it, operators like all others;
- `IsPlain.logical_eq_applied`: such a reading may as well go over chains in a loop.
-/
import Turnstile.Proofs.Concrete.Sites
import Turnstile.Proofs.Program.Reading

namespace Turnstile

namespace Lowering

variable {r p : Reading} {src : SourceText} {t : Tree} {operator : String} {e : LoweringFault}

/-! ## Nodes that apply an operator -/

theorem kind_of_logicalOperator?_error (h : logicalOperator? src t = .error e) : t.kind = "binary_expression" := by
  by_contra hkind
  rw [logicalOperator?, if_neg hkind] at h
  cases h

/-- an expression of the type of operators is read as an operator, if it is one -/
theorem Reading.readExpression_of_kind (hkind : t.kind = "binary_expression") (r : Reading) (src : SourceText)
    (keep : Bool) : r.readExpression src keep t = (do
      match ← logicalOperator? src t with
      | some _ => r.logical src t
      | none => r.composite src t keep) := by
  have hcomment : t.isComment = false := by simp [Tree.isComment, hkind]
  have hform : functionForm? t = none := by simp [functionForm?, hkind]
  have hternary : t.kind ≠ "ternary_expression" := by simp [hkind]
  have hstatic : t.kind ≠ "class_static_block" := by simp [hkind]
  have hblock : t.kind ≠ "statement_block" := by simp [hkind]
  rw [readExpression_eq, hcomment, hform]
  simp only [if_neg hternary, if_neg hstatic, if_neg hblock]
  rfl

theorem Reading.readExpression_of_operator (h : logicalOperator? src t = .ok (some operator)) (keep : Bool) :
    r.readExpression src keep t = r.logical src t := by
  rw [readExpression_of_kind (kind_of_logicalOperator? h), h]
  rfl

theorem Reading.readExpression_of_error (h : logicalOperator? src t = .error e) (keep : Bool) :
    r.readExpression src keep t = .error e := by
  rw [readExpression_of_kind (kind_of_logicalOperator?_error h), h]
  rfl

/-! ## The loop -/

/-- what is already taken apart only comes behind -/
theorem chainOnto_append (src : SourceText) (t : Tree) (done : List (Tree × String)) : chainOnto src done t = (do
    let chain ← chainOnto src [] t
    return (chain.1 ++ done, chain.2)) := by
  induction t using Tree.inductionOn generalizing done with
  | step t ih =>
    rw [chainOnto_eq, chainOnto_eq src t []]
    cases logicalOperator? src t with
    | error e => rfl
    | ok operator =>
      cases operator with
      | none => rfl
      | some operator =>
        cases hleft : t.child? "left" with
        | none => rfl
        | some left =>
          have hnext := ih left (Tree.mem_children_of_child? hleft)
          show chainOnto src ((t, operator) :: done) left = (do
            let chain ← chainOnto src [(t, operator)] left
            return (chain.1 ++ done, chain.2))
          rw [hnext, hnext [(t, operator)], bind_assoc]
          simp

/-- no operator: an operand, which is kept -/
theorem Reading.logical_of_operand (h : logicalOperator? src t = .ok none) : r.logical src t = r.expression true t := by
  rw [Reading.logical, chainOnto_eq, h]
  show (r.expression true t >>= fun first => pure first) = r.expression true t
  exact bind_pure _

theorem Reading.logical_of_error (h : logicalOperator? src t = .error e) : r.logical src t = .error e := by
  rw [Reading.logical, chainOnto_eq, h]
  rfl

/-- what the loop reads of the left operand of an operator -/
def Reading.chainLeft (r : Reading) (src : SourceText) (t : Tree) : Result (Option Node) :=
  match t.child? "left" with
  | some left => r.logical src left
  | none => .ok none

/-- **One operator of a chain.** The loop goes over the left operand and then applies the operator. -/
theorem Reading.logical_of_operator (h : logicalOperator? src t = .ok (some operator)) :
    r.logical src t = (do r.applyOperator src (← r.chainLeft src t) (t, operator)) := by
  rw [Reading.logical, chainOnto_eq, h, chainLeft]
  cases t.child? "left" with
  | none =>
    show (r.applyOperator src none (t, operator) >>= fun last => pure last) = _
    exact bind_pure _
  | some left =>
    show (chainOnto src [(t, operator)] left >>= _) = (r.logical src left >>= _)
    rw [chainOnto_append, Reading.logical, bind_assoc, bind_assoc]
    refine congrArg _ (funext fun ⟨steps, first⟩ => ?_)
    have hlast : ∀ left, (steps ++ [(t, operator)]).foldlM (r.applyOperator src) left =
        (steps.foldlM (r.applyOperator src) left >>= fun left => r.applyOperator src left (t, operator)) := by
      intro left
      simp
    cases first with
    | none => exact hlast none
    | some f =>
      simp only [pure_bind, hlast, bind_assoc]

/-! ## Operators by recursion -/

/-- an operator around what is read of its operands -/
def Reading.applied (r : Reading) (src : SourceText) (t : Tree) (operator : String) : Result (Option Node) := do
  let left ← r.field true t "left"
  let right ← r.field true t "right"
  return some (.logical (spanOf src t) operator left right)

/-- an expression; an operator is read by reading its left and its right operand -/
def Reading.plainExpression (r : Reading) (src : SourceText) (keep : Bool) (t : Tree) : Result (Option Node) :=
  match logicalOperator? src t with
  | .ok (some operator) => r.applied src t operator
  | _ => r.readExpression src keep t

/-- every node is read by recursion into the nodes inside it -/
structure Reading.IsPlain (src : SourceText) (p : Reading) : Prop where
  expression : ∀ keep t, p.expression keep t = p.plainExpression src keep t
  statement : ∀ t, p.statement t = p.readStatement src t

/-- a reading that reads what is left of an operator by recursion may as well read it in a loop -/
theorem Reading.logical_eq_applied (h : logicalOperator? src t = .ok (some operator))
    (hp : ∀ c, sizeOf c < sizeOf t → p.expression true c = p.plainExpression src true c) :
    p.logical src t = p.applied src t operator := by
  induction t using Tree.inductionOn generalizing operator with
  | step t ih =>
    have hleft : p.chainLeft src t = p.field true t "left" := by
      unfold chainLeft field
      cases hchild : t.child? "left" with
      | none => rfl
      | some left =>
        have hmem := Tree.mem_children_of_child? hchild
        have hlt := Tree.sizeOf_lt_of_mem_children hmem
        dsimp only
        rw [hp left hlt, plainExpression]
        cases hoperator : logicalOperator? src left with
        | error e => rw [logical_of_error hoperator, readExpression_of_error hoperator]
        | ok inner =>
          cases inner with
          | none => rw [logical_of_operand hoperator, hp left hlt, plainExpression, hoperator]
          | some inner => exact ih left hmem hoperator fun c hc => hp c (hc.trans hlt)
    rw [logical_of_operator h, hleft]
    rfl

namespace Reading.IsPlain

theorem logical_eq_applied (hp : p.IsPlain src) (h : logicalOperator? src t = .ok (some operator)) :
    p.logical src t = p.applied src t operator :=
  Reading.logical_eq_applied h fun c _ => hp.expression true c

/-- recursion and the loop read the same expressions -/
theorem readExpression_eq (hp : p.IsPlain src) (keep : Bool) (t : Tree) :
    p.readExpression src keep t = p.expression keep t := by
  rw [hp.expression, plainExpression]
  split
  · next operator hoperator => rw [readExpression_of_operator hoperator, hp.logical_eq_applied hoperator]
  · rfl

end Reading.IsPlain

end Lowering

end Turnstile
