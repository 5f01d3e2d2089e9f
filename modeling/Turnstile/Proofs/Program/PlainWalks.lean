/-
Walks that know nothing of chains.

Four walks go over a chain of short-circuit operators in a loop. Here is each of them once more as a recursion that goes
into the left operand and then into the right one, as it goes into the parts of any other node.
- `plainVisits`, `plainWalk`, `plainEdits`, `plainCheck`, `plainReturn`: listing and numbering nodes, insertions, the first
  early error and the first return outside functions by recursion alone;
- `firstFound_operandsOnto`: a search along the operands of a chain is the search in its left and then in its right operand;
- `loops_eq_recursion`: with the loops all four do the same.
-/
import Turnstile.Proofs.Coverage.Numbering
import Turnstile.Proofs.Emit.Recursion
import Turnstile.Proofs.Program.MainlineReturns

namespace Turnstile

open Node

/-! ## The recursions -/

/-- the visits to a part of a program -/
def Node.plainVisits (depth : ℕ) (a : Address) (n : Node) : List Visit :=
  ⟨depth, a, n⟩ :: (n.placed a).attach.flatMap fun ⟨(b, c), _⟩ => c.plainVisits (depth + 1) b
termination_by sizeOf n
decreasing_by exact Node.sizeOf_lt_of_mem_placed ‹_›

/-- numbers a node, then its parts one after the other -/
def Numbering.plainWalk (t : Numbering) (a : Address) (n : Node) : Except MissingOperand Numbering := do
  (n.placed a).attach.foldlM (fun t ⟨(b, c), _⟩ => t.plainWalk b c) (← t.visit a n)
termination_by sizeOf n
decreasing_by exact Node.sizeOf_lt_of_mem_placed ‹_›

/-- numbers every counted node of a program -/
def CoverageIndex.plainIndex (program : Node) : Except IndexFault CoverageIndex :=
  match Numbering.empty.plainWalk .root program with
  | .ok t => ofNumbering? t
  | .error .missingOperand => .error .missingOperand

/-- what a node needs by itself, then part by part what the part needs for its role and what is inside it -/
def Node.plainEdits (data : ByteArray) (hoist : Option ℕ) (a : Address) (n : Node) : List Edit :=
  n.localEdits data hoist a ++ ((n.placed a).attach.zip n.roles).flatMap fun (⟨(b, c), _⟩, role) =>
    roleEdits a role c ++ c.plainEdits data (n.partHoist hoist c) b
termination_by sizeOf n
decreasing_by exact Node.sizeOf_lt_of_mem_placed ‹_›

/-- checks a node, then its parts up to the first error -/
def EarlyError.plainCheck (s : Scope) (n : Node) : Except EarlyError Unit :=
  match causeAt? s n with
  | some cause => .error ⟨cause, n.span.location⟩
  | none => n.children.attach.forM fun ⟨c, _⟩ => plainCheck (s.within n) c
termination_by sizeOf n
decreasing_by exact Node.sizeOf_lt_of_mem_children ‹_›

/-- what is found or fails first, of two searches -/
def orFound {β ε : Type} (first next : Except ε (Option β)) : Except ε (Option β) :=
  match first with
  | .ok none => next
  | found => found

/-- looks into the left operand of an operator, then into the right one; both have to be there -/
def Node.plainReturn (n : Node) : Except MissingOperand (Option Node) :=
  match n with
  | returnStatement span argument => .ok (some (returnStatement span argument))
  | function .. => .ok none
  | logical _ _ (some left) (some right) => orFound left.plainReturn right.plainReturn
  | logical _ _ (some left) none => orFound left.plainReturn (.error .missingOperand)
  | logical _ _ none _ => .error .missingOperand
  | n => firstFound (fun ⟨c, _⟩ => c.plainReturn) n.children.attach
termination_by sizeOf n
decreasing_by
  all_goals first
    | exact Node.sizeOf_lt_of_mem_children ‹_›
    | (simp; omega)

/-! ## Visits and numbers -/

namespace Node

theorem map_plainVisits (depth : ℕ) (a : Address) (n : Node) :
    (n.plainVisits depth a).map (fun v => (v.address, v.node)) = n.preorder a := by
  induction n using inductionOn generalizing depth a with
  | step n ih =>
    rw [plainVisits, preorder_eq, List.map_cons, List.map_flatMap, ← flatMap_attach (n.placed a)]
    refine congrArg _ (List.flatMap_congr ?_)
    rintro ⟨⟨b, c⟩, hp⟩ -
    exact ih c (mem_of_mem_placedFrom hp) (depth + 1) b

end Node

theorem foldlM_flatMap {α β σ ε : Type} (f : α → List β) (g : σ → β → Except ε σ) (l : List α) (s : σ) :
    (l.flatMap f).foldlM g s = l.foldlM (fun s x => (f x).foldlM g s) s := by
  induction l generalizing s with
  | nil => rfl
  | cons x l ih =>
    rw [List.flatMap_cons, List.foldlM_append, List.foldlM_cons]
    exact congrArg _ (funext ih)

theorem Numbering.plainWalk_eq (t : Numbering) (a : Address) (n : Node) :
    t.plainWalk a n = (n.preorder a).foldlM (fun t p => t.visit p.1 p.2) t := by
  induction n using inductionOn generalizing t a with
  | step n ih =>
    rw [plainWalk, preorder_eq, List.foldlM_cons]
    refine congrArg _ (funext fun t' => ?_)
    rw [← flatMap_attach (n.placed a), foldlM_flatMap]
    refine congrArg (fun step => (n.placed a).attach.foldlM step t') (funext fun t => funext ?_)
    rintro ⟨⟨b, c⟩, hp⟩
    exact ih c (mem_of_mem_placedFrom hp) t b

theorem CoverageIndex.ofProgram_eq_plainIndex (program : Node) : ofProgram program = plainIndex program := by
  rw [plainIndex, Numbering.plainWalk_eq]
  exact ofProgram_eq program

/-! ## Insertions -/

theorem Node.edits_eq_plainEdits (data : ByteArray) (hoist : Option ℕ) (a : Address) (n : Node) :
    n.edits data hoist a = n.plainEdits data hoist a := by
  induction n using inductionOn generalizing hoist a with
  | step n ih =>
    rw [edits_eq, plainEdits, ← flatMap_attach_zip (n.placed a)]
    refine congrArg _ (List.flatMap_congr ?_)
    rintro ⟨⟨⟨b, c⟩, hp⟩, role⟩ -
    exact congrArg _ (ih c (mem_of_mem_placedFrom hp) _ b)

/-! ## Early errors -/

theorem EarlyError.plainCheck_eq_failFirst (s : Scope) (n : Node) : plainCheck s n = failFirst (faults s n) := by
  induction n using inductionOn generalizing s with
  | step n ih =>
    rw [plainCheck, faults_eq]
    cases causeAt? s n with
    | some cause => rfl
    | none =>
      rw [Option.map_none, Option.toList_none, List.nil_append, ← flatMap_attach]
      refine forM_eq_failFirst ?_
      rintro ⟨c, hc⟩ -
      exact ih c hc (s.within n)

/-! ## The first return -/

section FirstReturn

variable {α β ε : Type} {f g : α → Except ε (Option β)} {x y z : Except ε (Option β)}

theorem orFound_none : orFound x (.ok none) = x := by
  rcases x with e | _ | b <;> rfl

theorem orFound_assoc : orFound (orFound x y) z = orFound x (orFound y z) := by
  rcases x with e | _ | b <;> rfl

theorem firstFound_cons (a : α) (l : List α) : firstFound f (a :: l) = orFound (f a) (firstFound f l) := by
  rw [firstFound]
  rcases f a with e | _ | b <;> rfl

theorem firstFound_congr {l : List α} (h : ∀ a ∈ l, f a = g a) : firstFound f l = firstFound g l := by
  induction l with
  | nil => rfl
  | cons a l ih =>
    rw [List.forall_mem_cons] at h
    rw [firstFound_cons, firstFound_cons, h.1, ih h.2]

theorem firstFound_map {γ : Type} (k : γ → α) (l : List γ) :
    firstFound f (l.map k) = firstFound (fun c => f (k c)) l := by
  induction l with
  | nil => rfl
  | cons c l ih => rw [List.map_cons, firstFound_cons, firstFound_cons, ih]

theorem firstFound_attach (l : List α) : firstFound (fun a : {a // a ∈ l} => f a.1) l.attach = firstFound f l := by
  rw [← firstFound_map, List.attach_map_subtype_val]

end FirstReturn

namespace Node

/-- the search in an operand, which has to be there -/
def operandReturn (p : Address × Option Node) : Except MissingOperand (Option Node) :=
  match p.2 with
  | some m => m.plainReturn
  | none => .error .missingOperand

theorem plainReturn_logical (span : Span) (operator : String) (left : Node) (right : Option Node) (a : Address) :
    (logical span operator (some left) right).plainReturn = orFound left.plainReturn (operandReturn (a, right)) := by
  cases right <;> rw [plainReturn] <;> rfl

theorem plainReturn_of_not_isLogical {n : Node} (hreturn : ∀ span argument, n ≠ returnStatement span argument)
    (hfunction : ∀ span form name parameters body, n ≠ function span form name parameters body)
    (hlogical : ¬ n.isLogical = true) : n.plainReturn = firstFound plainReturn n.children := by
  have hchain : ∀ span operator left right, n ≠ logical span operator left right := by
    rintro span operator left right rfl
    exact hlogical rfl
  rw [plainReturn]
  · exact firstFound_attach n.children
  · exact hreturn
  · exact hfunction
  · exact fun span operator left right => hchain span operator left right
  · exact fun span operator left => hchain span operator left none
  · exact fun span operator right => hchain span operator none right

/-- a search along the operands of a chain looks into the left operand and then into the right one -/
theorem firstFound_operandsOnto (rest : List (Address × Option Node)) (a : Address) (n : Node) :
    firstFound operandReturn (operandsOnto rest a n) = orFound n.plainReturn (firstFound operandReturn rest) := by
  fun_induction operandsOnto rest a n with
  | case1 rest a span operator left right ih =>
    rw [ih, firstFound_cons, plainReturn_logical _ _ _ _ (a.child 1), orFound_assoc]
  | case2 rest a span operator right =>
    rw [firstFound_cons, plainReturn]
    rfl
  | case3 rest a n => rw [firstFound_cons, operandReturn]

theorem mainlineReturn_eq_plainReturn (n : Node) : n.mainlineReturn = n.plainReturn := by
  induction hsize : sizeOf n using Nat.strong_induction_on generalizing n with
  | _ size ih =>
    subst hsize
    fun_cases mainlineReturn n with
    | case1 span argument => rw [plainReturn]
    | case2 span form name parameters body => rw [plainReturn]
    | case3 n hreturn hfunction hlogical =>
      have hchain := firstFound_operandsOnto [] .root n
      rw [firstFound, orFound_none] at hchain
      rw [← hchain]
      refine Eq.trans (firstFound_congr ?_) (firstFound_attach (n.operands .root))
      rintro ⟨⟨b, _ | m⟩, hp⟩ -
      · rfl
      · exact ih _ (operand_lt hlogical hp) m rfl
    | case4 n hreturn hfunction hlogical =>
      rw [plainReturn_of_not_isLogical hreturn hfunction hlogical]
      refine Eq.trans (firstFound_congr ?_) (firstFound_attach n.children)
      rintro ⟨c, hc⟩ -
      exact ih _ (sizeOf_lt_of_mem_children hc) c rfl

end Node

/-- **A chain in a loop is a chain by recursion.** Nodes are listed in the same order and get the same ids and locations,
insertions are recorded in the same order, and the first early error and the first return outside functions are the same, for
any part of a program. -/
theorem loops_eq_recursion (n : Node) :
    (∀ depth depth' a, (n.visits depth a).map (fun v => (v.address, v.node)) =
      (n.plainVisits depth' a).map fun v => (v.address, v.node)) ∧
    CoverageIndex.ofProgram n = CoverageIndex.plainIndex n ∧
    (∀ data hoist a, n.edits data hoist a = n.plainEdits data hoist a) ∧
    (∀ s, EarlyError.check s n = EarlyError.plainCheck s n) ∧
    n.mainlineReturn = n.plainReturn := by
  refine ⟨?_, CoverageIndex.ofProgram_eq_plainIndex n, ?_, ?_, n.mainlineReturn_eq_plainReturn⟩
  · intro depth depth' a
    rw [visits_eq_preorder, map_plainVisits]
  · intro data hoist a
    exact n.edits_eq_plainEdits data hoist a
  · intro s
    rw [check_eq_failFirst, EarlyError.plainCheck_eq_failFirst]

end Turnstile
