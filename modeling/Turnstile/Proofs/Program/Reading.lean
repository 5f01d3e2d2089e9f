/-
Lowering taken apart.

A reading is a chain of steps of which any may fail, and some steps only happen if a field is there. Here each such step has
a name of its own, and the readings of functions, conditions, exceptions and expressions are plain chains of named steps
(`chainOnto_eq`, `function_eq`, `ifStatement_eq`, `tryStatement_eq`, `readExpression_cases`, `readStatement_declaration`).
-/
import Mathlib.Tactic
import Turnstile.Program.Lowering

namespace Turnstile

/-! ## Results of several steps -/

theorem bind_eq_ok_iff {ε α β : Type} {x : Except ε α} {f : α → Except ε β} {b : β} :
    (x >>= f) = .ok b ↔ ∃ a, x = .ok a ∧ f a = .ok b := by
  cases x <;> simp [bind, Except.bind]

theorem map_eq_ok_iff {ε α β : Type} {x : Except ε α} {f : α → β} {b : β} :
    (f <$> x) = .ok b ↔ ∃ a, x = .ok a ∧ f a = b := by
  cases x <;> simp [Functor.map, Except.map]

theorem mapError_eq_ok_iff {ε δ α : Type} {x : Except ε α} {f : ε → δ} {a : α} : x.mapError f = .ok a ↔ x = .ok a := by
  cases x <;> simp [Except.mapError]

theorem ite_bind {ε α β : Type} {p : Prop} [Decidable p] {x y : Except ε α} {f : α → Except ε β} :
    (if p then x else y) >>= f = if p then x >>= f else y >>= f := by
  split_ifs <;> rfl

theorem ok_bind {ε α β : Type} {a : α} {f : α → Except ε β} : (Except.ok a >>= f) = f a := rfl

theorem ok_of_toOption {ε α : Type} {x : Except ε α} {a : α} (h : x.toOption = some a) : x = .ok a := by
  cases x <;> cases h
  rfl

/-- a list read item by item -/
theorem forall₂_of_mapM {ε α β : Type} {f : α → Except ε β} {xs : List α} {ys : List β} (h : xs.mapM f = .ok ys) :
    List.Forall₂ (fun x y => f x = .ok y) xs ys := by
  induction xs generalizing ys with
  | nil =>
    cases h
    exact .nil
  | cons x xs ih =>
    rw [List.mapM_cons, bind_eq_ok_iff] at h
    obtain ⟨y, hy, h⟩ := h
    obtain ⟨zs, hzs, h⟩ := bind_eq_ok_iff.1 h
    cases h
    exact .cons hy (ih hzs)

/-- reading item by item gives back the items that were written -/
theorem mapM_map_eq_ok {ε α β : Type} {write : α → β} {read : β → Except ε α} {xs : List α}
    (h : ∀ x ∈ xs, read (write x) = .ok x) : (xs.map write).mapM read = .ok xs := by
  induction xs with
  | nil => rfl
  | cons x xs ih =>
    obtain ⟨hx, hxs⟩ := List.forall_mem_cons.1 h
    rw [List.map_cons, List.mapM_cons, hx, ih hxs]
    rfl

theorem exists_left_of_forall₂ {α β : Type} {R : α → β → Prop} {xs : List α} {ys : List β} (h : List.Forall₂ R xs ys)
    {y : β} (hy : y ∈ ys) : ∃ x ∈ xs, R x y := by
  induction h with
  | nil => simp at hy
  | cons hxy _ ih =>
    rcases List.mem_cons.1 hy with rfl | hy
    · exact ⟨_, List.mem_cons_self, hxy⟩
    · obtain ⟨x, hx, hr⟩ := ih hy
      exact ⟨x, List.mem_cons_of_mem _ hx, hr⟩

theorem exists_right_of_forall₂ {α β : Type} {R : α → β → Prop} {xs : List α} {ys : List β} (h : List.Forall₂ R xs ys)
    {x : α} (hx : x ∈ xs) : ∃ y ∈ ys, R x y := exists_left_of_forall₂ h.flip hx

theorem exists_of_mem_mapM {ε α β : Type} {f : α → Except ε β} {xs : List α} {ys : List β} (h : xs.mapM f = .ok ys)
    {y : β} (hy : y ∈ ys) : ∃ x ∈ xs, f x = .ok y := exists_left_of_forall₂ (forall₂_of_mapM h) hy

/-! ## Steps that depend on a field -/

namespace Lowering

theorem required_eq_ok_iff {t c : Tree} {field : String} : required t field = .ok c ↔ t.child? field = some c := by
  unfold required
  split <;> simp_all

theorem kind_of_logicalOperator? {src : SourceText} {t : Tree} {operator : String}
    (h : logicalOperator? src t = .ok (some operator)) : t.kind = "binary_expression" := by
  by_contra hkind
  rw [logicalOperator?, if_neg hkind] at h
  cases h

/-- one operator of a chain after the other -/
theorem chainOnto_eq (src : SourceText) (t : Tree) (done : List (Tree × String)) : chainOnto src done t = (do
    match ← logicalOperator? src t with
    | none => return (done, some t)
    | some operator =>
      match t.child? "left" with
      | none => return ((t, operator) :: done, none)
      | some left => chainOnto src ((t, operator) :: done) left) := by
  rw [chainOnto]
  congr 1
  funext operator
  cases operator with
  | none => rfl
  | some operator =>
    dsimp only
    split
    · next hleft => rw [hleft]
    · next left hleft => rw [hleft]

namespace Reading

variable (r : Reading) (src : SourceText) (t : Tree)

/-- what is read of a field that may be absent -/
def optionally {α : Type} (field : String) (read : Tree → Result α) : Result (Option α) :=
  match t.child? field with
  | some c => some <$> read c
  | none => .ok none

def parameters : Result (List Node) :=
  match t.child? "parameters" with
  | some p => r.subexpressions p
  | none => .ok []

def functionBody (b : Tree) : Result (Option Node) :=
  if b.kind = "statement_block" then some <$> r.functionBlock src b else r.expression true b

def functionName (form : FunctionForm) : Result (Option String) :=
  if form = .arrow then .ok none else textOf? src (t.child? "name")

theorem function_eq (form : FunctionForm) : r.function src t form = (do
    let parameters ← r.parameters t
    let b ← required t "body"
    let body ← r.functionBody src b
    let name ← functionName src t form
    return .function (spanOf src t) form name parameters body) := by
  unfold Reading.function parameters functionBody functionName
  cases t.child? "parameters" <;> simp only [ite_bind] <;> rfl

theorem ifStatement_eq : r.ifStatement src t = (do
    let alternate ← optionally t "alternative" r.elseClause
    let test ← r.field false t "condition"
    let consequent ← r.statementField t "consequence"
    return .ifStatement (spanOf src t) test consequent alternate) := by
  unfold Reading.ifStatement optionally
  cases t.child? "alternative" <;> rfl

/-- the block that a field must hold -/
def blockField (field : String) : Result Node := do
  r.block src (← required t field)

theorem tryStatement_eq : r.tryStatement src t = (do
    let handler ← optionally t "handler" (r.catchClause src)
    let block ← r.blockField src t "body"
    let finalizer ← optionally t "finalizer" fun f => r.blockField src f "body"
    return .tryStatement (spanOf src t) block handler finalizer) := by
  unfold Reading.tryStatement optionally
  cases t.child? "handler" <;> cases t.child? "finalizer" <;> simp only [blockField, bind_assoc] <;> rfl

/-- a conditional expression -/
def conditional : Result (Option Node) := do
  let test ← r.field false t "condition"
  let consequent ← r.field true t "consequence"
  let alternate ← r.field true t "alternative"
  return some (.conditional (spanOf src t) test consequent alternate)

/-- the expressions that an expression of no other kind is kept for -/
def elements : Result (List Node) := if isDeclaration t then r.initializers t else r.subexpressions t

/-- an expression of no other kind, if it is kept -/
def composite (keep : Bool) : Result (Option Node) := do
  let elements ← r.elements t
  return if elements.isEmpty && !keep then none else some (.composite (spanOf src t) t.kind elements)

/-- an expression by kind -/
theorem readExpression_eq (keep : Bool) : r.readExpression src keep t =
    if t.isComment then .ok none
    else match functionForm? t with
      | some form => some <$> r.function src t form
      | none =>
        if t.kind = "ternary_expression" then r.conditional src t
        else (do
          match ← logicalOperator? src t with
          | some _ => r.logical src t
          | none =>
            if t.kind = "class_static_block" then
              return some (.staticBlock (spanOf src t) (← r.blockField src t "body"))
            else if t.kind = "statement_block" then some <$> r.block src t
            else r.composite src t keep) := by
  unfold Reading.readExpression conditional blockField composite elements
  split
  · rfl
  · cases functionForm? t with
    | some form => rfl
    | none =>
      by_cases hternary : t.kind = "ternary_expression"
      · simp only [hternary, if_true]
      · simp only [hternary, if_false]
        cases logicalOperator? src t with
        | error e => rfl
        | ok operator =>
          cases operator with
          | some op => rfl
          | none =>
            simp only [ok_bind, bind_assoc, ite_bind]

/-- an expression of a type without a reading of its own -/
structure IsComposite : Prop where
  notFunction : functionForm? t = none
  notConditional : t.kind ≠ "ternary_expression"
  notLogical : logicalOperator? src t = .ok none
  notStaticBlock : t.kind ≠ "class_static_block"
  notBlock : t.kind ≠ "statement_block"

/-- the ways to read an expression -/
theorem readExpression_cases (keep : Bool) {o : Option Node} (h : r.readExpression src keep t = .ok o) :
    t.isComment = true ∧ o = none ∨
    (∃ form n, functionForm? t = some form ∧ r.function src t form = .ok n ∧ o = some n) ∨
    t.kind = "ternary_expression" ∧ r.conditional src t = .ok o ∨
    (∃ operator, logicalOperator? src t = .ok (some operator) ∧ r.logical src t = .ok o) ∨
    (t.kind = "class_static_block" ∧ ∃ n, r.blockField src t "body" = .ok n ∧ o = some (.staticBlock (spanOf src t) n)) ∨
    (t.kind = "statement_block" ∧ ∃ n, r.block src t = .ok n ∧ o = some n) ∨
    IsComposite src t ∧ r.composite src t keep = .ok o := by
  rw [readExpression_eq] at h
  split at h
  · next hcomment => exact Or.inl ⟨hcomment, (Except.ok.inj h).symm⟩
  refine Or.inr ?_
  split at h
  · next form hform =>
    obtain ⟨n, hn, rfl⟩ := map_eq_ok_iff.1 h
    exact Or.inl ⟨form, n, hform, hn, rfl⟩
  next hform =>
  refine Or.inr ?_
  split at h
  · next hternary => exact Or.inl ⟨hternary, h⟩
  next hternary =>
  refine Or.inr ?_
  obtain ⟨operator, hoperator, h⟩ := bind_eq_ok_iff.1 h
  cases operator with
  | some operator => exact Or.inl ⟨operator, hoperator, h⟩
  | none =>
    refine Or.inr ?_
    dsimp only at h
    split at h
    · next hstatic =>
      obtain ⟨n, hn, h⟩ := bind_eq_ok_iff.1 h
      cases h
      exact Or.inl ⟨hstatic, n, hn, rfl⟩
    next hstatic =>
    refine Or.inr ?_
    split at h
    · next hblock =>
      obtain ⟨n, hn, rfl⟩ := map_eq_ok_iff.1 h
      exact Or.inl ⟨hblock, n, hn, rfl⟩
    next hblock =>
    exact Or.inr ⟨⟨hform, hternary, hoperator, hstatic, hblock⟩, h⟩

/-- the keyword of a declaration -/
def declarationKeyword : Result String :=
  if t.kind = "variable_declaration" then .ok "var" else (·.getD "let") <$> textOf? src (t.child? "kind")

/-- a declaration that is a statement -/
theorem readStatement_declaration (h : isDeclaration t = true) :
    r.readStatement src t = (do r.declaration src t (← declarationKeyword src t)) := by
  simp only [isDeclaration, Bool.or_eq_true, decide_eq_true_eq] at h
  unfold Reading.readStatement declarationKeyword
  rcases h with (hkind | hkind) | hkind <;> simp only [hkind]
  · rfl
  · cases textOf? src (t.child? "kind") <;> rfl
  · cases textOf? src (t.child? "kind") <;> rfl

end Reading

end Lowering

end Turnstile
