/-
Levels of lowering compared.

A reading takes what is inside a node from the reading one level below. Readings that agree on the nodes inside a node agree
on the node: as equal results, or up to nesting that is too deep.
- `Stepwise`: relations between results that hold step by step;
- `Reading.Related`: two readings whose results are related on some trees. One level of lowering keeps this, one lemma for
  each reading;
- `reading_le`: every level either gives up or reads what a reading without levels reads;
- `plainReading`: the reading without levels, which is the one that reads by recursion alone;
- `logical_eq_recursion`: chains read in a loop are read as by recursion.
-/
import Turnstile.Proofs.Program.Chains

namespace Turnstile

namespace Lowering

/-! ## Results compared step by step -/

/-- a relation between results that holds of equal ones, but perhaps not where nesting is too deep, and goes through steps -/
structure Stepwise (Rel : (α : Type) → Result α → Result α → Prop) : Prop where
  refl : ∀ {α : Type} {x : Result α}, x ≠ .error .tooDeep → Rel α x x
  bind : ∀ {α β : Type} {x y : Result α} {f g : α → Result β}, Rel α x y → (∀ a, Rel β (f a) (g a)) →
    Rel β (x >>= f) (y >>= g)

/-- the first result gives up where nesting is too deep, or is the second one -/
def LeResult (α : Type) (x y : Result α) : Prop := x = .error .tooDeep ∨ x = y

/-- the same result, which does not give up -/
def SameResult (α : Type) (x y : Result α) : Prop := x = y ∧ x ≠ .error .tooDeep

theorem stepwise_leResult : Stepwise LeResult := by
  constructor
  · intro α x _
    exact Or.inr rfl
  · rintro α β x y f g (rfl | rfl) hf
    · exact Or.inl rfl
    · cases x with
      | error e => exact Or.inr rfl
      | ok a => exact hf a

theorem stepwise_sameResult : Stepwise SameResult := by
  constructor
  · intro α x hx
    exact ⟨rfl, hx⟩
  · rintro α β x y f g ⟨rfl, hx⟩ hf
    cases x with
    | error e =>
      refine ⟨rfl, ?_⟩
      rintro ⟨⟩
      exact hx rfl
    | ok a => exact hf a

namespace Stepwise

variable {Rel : (α : Type) → Result α → Result α → Prop} {α β : Type}

theorem ok (h : Stepwise Rel) (a : α) : Rel α (.ok a) (.ok a) := h.refl (by simp)

theorem map (h : Stepwise Rel) {x y : Result α} (hxy : Rel α x y) (f : α → β) : Rel β (f <$> x) (f <$> y) := by
  rw [map_eq_pure_bind, map_eq_pure_bind]
  exact h.bind hxy fun a => h.ok (f a)

theorem mapM (h : Stepwise Rel) {f g : Tree → Result α} {ts : List Tree} (hf : ∀ t ∈ ts, Rel α (f t) (g t)) :
    Rel (List α) (ts.mapM f) (ts.mapM g) := by
  induction ts with
  | nil => exact h.ok []
  | cons t ts ih =>
    rw [List.forall_mem_cons] at hf
    rw [List.mapM_cons, List.mapM_cons]
    exact h.bind hf.1 fun a => h.bind (ih hf.2) fun as => h.ok (a :: as)

variable (src : SourceText)

theorem textOf (h : Stepwise Rel) (t : Tree) : Rel String (textOf src t) (textOf src t) := by
  apply h.refl
  unfold Lowering.textOf
  split <;> simp

theorem textOf? (h : Stepwise Rel) (o : Option Tree) : Rel (Option String) (textOf? src o) (textOf? src o) := by
  cases o with
  | none => exact h.ok none
  | some t => exact h.map (h.textOf src t) some

theorem logicalOperator? (h : Stepwise Rel) (t : Tree) :
    Rel (Option String) (logicalOperator? src t) (logicalOperator? src t) := by
  unfold Lowering.logicalOperator?
  split
  · refine h.bind (h.textOf? src _) fun operator => ?_
    cases operator with
    | none => exact h.ok none
    | some operator => exact h.ok _
  · exact h.ok none

theorem declarator (h : Stepwise Rel) (d : Tree) : Rel Declarator (declarator src d) (declarator src d) := by
  unfold Lowering.declarator
  split
  · split
    · exact h.bind (h.map (h.textOf src _) some) fun name => h.ok _
    · exact h.ok _
  · exact h.ok _

theorem directiveValue? (h : Stepwise Rel) (t : Tree) :
    Rel (Option String) (directiveValue? src t) (directiveValue? src t) := by
  unfold Lowering.directiveValue?
  split
  · split
    · split
      · exact h.bind (h.textOf src _) fun s => h.ok _
      · exact h.ok none
    · exact h.ok none
  · exact h.ok none

theorem required (h : Stepwise Rel) {t : Tree} {field : String} {f g : Tree → Result α}
    (hf : ∀ c ∈ t.children, Rel α (f c) (g c)) : Rel α (required t field >>= f) (required t field >>= g) := by
  unfold Lowering.required
  split
  · next c hc => exact hf c (Tree.mem_children_of_child? hc)
  · exact h.refl (by rintro ⟨⟩)

end Stepwise

/-- looking for an operator does not give up -/
theorem ne_tooDeep_of_logicalOperator? {src : SourceText} {t : Tree} {e : LoweringFault}
    (h : logicalOperator? src t = .error e) : e ≠ .tooDeep := by
  rintro rfl
  exact (stepwise_sameResult.logicalOperator? src t).2 h

/-! ## Readings compared -/

/-- two readings have related results on some trees, which hold the trees inside them -/
structure Reading.Related (Rel : (α : Type) → Result α → Result α → Prop) (trees : Tree → Prop) (r r' : Reading) :
    Prop where
  stepwise : Stepwise Rel
  inside : ∀ {t : Tree}, trees t → ∀ c ∈ t.children, trees c
  expression : ∀ keep {t : Tree}, trees t → Rel (Option Node) (r.expression keep t) (r'.expression keep t)
  statement : ∀ {t : Tree}, trees t → Rel Node (r.statement t) (r'.statement t)

namespace Reading.Related

variable {Rel : (α : Type) → Result α → Result α → Prop} {trees : Tree → Prop} {r r' : Reading} {t : Tree}
  {ts : List Tree} (h : Related Rel trees r r') (ht : ∀ c ∈ t.children, trees c) (hts : ∀ t ∈ ts, trees t)
  (src : SourceText)

include h

omit h in
theorem parts (ht : ∀ c ∈ t.children, trees c) : ∀ c ∈ t.parts, trees c :=
  fun c hc => ht c (Tree.mem_children_of_mem_parts hc)

/-! ### Lists -/

section Lists

include hts

theorem expressions : Rel (List Node) (r.expressions ts) (r'.expressions ts) :=
  h.stepwise.map (h.stepwise.mapM fun t ht => h.expression false (hts t ht)) _

theorem statements : Rel (List Node) (ts.mapM r.statement) (ts.mapM r'.statement) :=
  h.stepwise.mapM fun t ht => h.statement (hts t ht)

/-- directives first, then statements -/
theorem prologue : Rel (List Node) (r.prologue src ts) (r'.prologue src ts) := by
  induction ts with
  | nil => exact h.stepwise.ok []
  | cons t ts ih =>
    have hrest := (List.forall_mem_cons.1 hts).2
    rw [Reading.prologue, Reading.prologue]
    refine h.stepwise.bind (h.stepwise.directiveValue? src t) fun value => ?_
    cases value with
    | some value => exact h.stepwise.bind (ih hrest) fun ns => h.stepwise.ok _
    | none => exact h.statements hts

end Lists

/-! ### Fields and parts -/

include ht

theorem field (keep : Bool) (field : String) : Rel (Option Node) (r.field keep t field) (r'.field keep t field) := by
  unfold Reading.field
  split
  · next c hc => exact h.expression keep (ht c (Tree.mem_children_of_child? hc))
  · exact h.stepwise.ok none

theorem firstPart : Rel (Option Node) (r.firstPart t) (r'.firstPart t) := by
  unfold Reading.firstPart
  split
  · next c cs hcs => exact h.expression false (parts ht c (hcs ▸ List.mem_cons_self))
  · exact h.stepwise.ok none

theorem subexpressions : Rel (List Node) (r.subexpressions t) (r'.subexpressions t) := h.expressions (parts ht)

theorem initializers : Rel (List Node) (r.initializers t) (r'.initializers t) := by
  refine h.expressions fun c hc => ?_
  obtain ⟨d, hd, hc⟩ := List.mem_flatMap.1 hc
  have hd := h.inside (parts ht d (List.mem_filter.1 hd).1)
  rcases List.mem_append.1 hc with hc | hc
  · exact hd c (Tree.mem_children_of_child? (Option.mem_toList.1 hc))
  · exact hd c (Tree.mem_children_of_child? (Option.mem_toList.1 hc))

theorem declaration (keyword : String) : Rel Node (r.declaration src t keyword) (r'.declaration src t keyword) := by
  unfold Reading.declaration
  refine h.stepwise.bind (h.initializers ht) fun initializers => ?_
  refine h.stepwise.bind (h.stepwise.mapM fun d _ => h.stepwise.declarator src d) fun declarators => ?_
  exact h.stepwise.ok _

theorem statementField (field : String) : Rel Node (r.statementField t field) (r'.statementField t field) :=
  h.stepwise.required fun c hc => h.statement (ht c hc)

theorem block : Rel Node (r.block src t) (r'.block src t) := by
  unfold Reading.block
  exact h.stepwise.bind (h.statements (parts ht)) fun body => h.stepwise.ok _

theorem blockField (field : String) : Rel Node (r.blockField src t field) (r'.blockField src t field) :=
  h.stepwise.required fun c hc => h.block (h.inside (ht c hc)) src

/-! ### Functions -/

theorem functionBlock : Rel Node (r.functionBlock src t) (r'.functionBlock src t) := by
  unfold Reading.functionBlock
  exact h.stepwise.bind (h.prologue (parts ht) src) fun body => h.stepwise.ok _

theorem parameters : Rel (List Node) (r.parameters t) (r'.parameters t) := by
  unfold Reading.parameters
  split
  · next p hp => exact h.subexpressions (h.inside (ht p (Tree.mem_children_of_child? hp)))
  · exact h.stepwise.ok []

omit ht in
theorem functionBody {b : Tree} (hb : trees b) : Rel (Option Node) (r.functionBody src b) (r'.functionBody src b) := by
  unfold Reading.functionBody
  split
  · exact h.stepwise.map (h.functionBlock (h.inside hb) src) some
  · exact h.expression true hb

theorem function (form : FunctionForm) : Rel Node (r.function src t form) (r'.function src t form) := by
  have hname : Rel (Option String) (functionName src t form) (functionName src t form) := by
    unfold functionName
    split
    · exact h.stepwise.ok none
    · exact h.stepwise.textOf? src _
  rw [function_eq, function_eq]
  refine h.stepwise.bind (h.parameters ht) fun parameters => ?_
  refine h.stepwise.required fun b hb => ?_
  refine h.stepwise.bind (h.functionBody src (ht b hb)) fun body => ?_
  exact h.stepwise.bind hname fun name => h.stepwise.ok _

/-! ### Expressions -/

theorem conditional : Rel (Option Node) (r.conditional src t) (r'.conditional src t) := by
  unfold Reading.conditional
  refine h.stepwise.bind (h.field ht false _) fun test => ?_
  refine h.stepwise.bind (h.field ht true _) fun consequent => ?_
  exact h.stepwise.bind (h.field ht true _) fun alternate => h.stepwise.ok _

theorem elements : Rel (List Node) (r.elements t) (r'.elements t) := by
  unfold Reading.elements
  split
  · exact h.initializers ht
  · exact h.subexpressions ht

theorem composite (keep : Bool) : Rel (Option Node) (r.composite src t keep) (r'.composite src t keep) := by
  unfold Reading.composite
  exact h.stepwise.bind (h.elements ht) fun elements => h.stepwise.ok _

theorem logical {operator : String} (hoperator : logicalOperator? src t = .ok (some operator)) :
    Rel (Option Node) (r.logical src t) (r'.logical src t) := by
  induction t using Tree.inductionOn generalizing operator with
  | step t ih =>
    have hleft : Rel (Option Node) (r.chainLeft src t) (r'.chainLeft src t) := by
      unfold chainLeft
      split
      · next left hchild =>
        have hmem := Tree.mem_children_of_child? hchild
        cases hinner : logicalOperator? src left with
        | error e =>
          rw [logical_of_error hinner, logical_of_error hinner]
          exact h.stepwise.refl fun he => ne_tooDeep_of_logicalOperator? hinner (Except.error.inj he)
        | ok inner =>
          cases inner with
          | none =>
            rw [logical_of_operand hinner, logical_of_operand hinner]
            exact h.expression true (ht left hmem)
          | some inner => exact ih left hmem (h.inside (ht left hmem)) hinner
      · exact h.stepwise.ok none
    rw [logical_of_operator hoperator, logical_of_operator hoperator]
    refine h.stepwise.bind hleft fun left => ?_
    exact h.stepwise.bind (h.field ht true "right") fun right => h.stepwise.ok _

theorem readExpression (keep : Bool) :
    Rel (Option Node) (r.readExpression src keep t) (r'.readExpression src keep t) := by
  rw [readExpression_eq, readExpression_eq]
  split
  · exact h.stepwise.ok none
  split
  · next form _ => exact h.stepwise.map (h.function ht src form) some
  split
  · exact h.conditional ht src
  cases hoperator : logicalOperator? src t with
  | error e => exact h.stepwise.refl fun he => ne_tooDeep_of_logicalOperator? hoperator (Except.error.inj he)
  | ok operator =>
    cases operator with
    | some operator => exact h.logical ht src hoperator
    | none =>
      show Rel (Option Node) (ite _ _ _) (ite _ _ _)
      split
      · exact h.stepwise.bind (h.blockField ht src "body") fun body => h.stepwise.ok _
      split
      · exact h.stepwise.map (h.block ht src) some
      · exact h.composite ht src keep

/-! ### Statements -/

theorem catchClause : Rel Node (r.catchClause src t) (r'.catchClause src t) := by
  unfold Reading.catchClause
  refine h.stepwise.bind (h.field ht false _) fun parameter => ?_
  refine h.stepwise.required fun b hb => ?_
  exact h.stepwise.bind (h.block (h.inside (ht b hb)) src) fun body => h.stepwise.ok _

theorem elseClause : Rel Node (r.elseClause t) (r'.elseClause t) := by
  unfold Reading.elseClause
  split
  · next c cs hcs => exact h.statement (parts ht c (hcs ▸ List.mem_cons_self))
  · exact h.stepwise.refl (by rintro ⟨⟩)

theorem optionally (field : String) {read read' : Tree → Result Node}
    (hread : ∀ {c : Tree}, (∀ d ∈ c.children, trees d) → Rel Node (read c) (read' c)) :
    Rel (Option Node) (Reading.optionally t field read) (Reading.optionally t field read') := by
  unfold Reading.optionally
  split
  · next c hc => exact h.stepwise.map (hread (h.inside (ht c (Tree.mem_children_of_child? hc)))) some
  · exact h.stepwise.ok none

theorem ifStatement : Rel Node (r.ifStatement src t) (r'.ifStatement src t) := by
  rw [ifStatement_eq, ifStatement_eq]
  refine h.stepwise.bind (h.optionally ht _ fun hc => h.elseClause hc) fun alternate => ?_
  refine h.stepwise.bind (h.field ht false _) fun test => ?_
  exact h.stepwise.bind (h.statementField ht _) fun consequent => h.stepwise.ok _

theorem switchCase : Rel Node (r.switchCase src t) (r'.switchCase src t) := by
  unfold Reading.switchCase
  refine h.stepwise.bind (h.field ht false _) fun test => ?_
  refine h.stepwise.bind (h.statements fun c hc => ht c ?_) fun body => h.stepwise.ok _
  exact (List.dropWhile_sublist _).subset (List.drop_subset _ _ (List.mem_filter.1 hc).1)

theorem switchStatement : Rel Node (r.switchStatement src t) (r'.switchStatement src t) := by
  unfold Reading.switchStatement
  refine h.stepwise.required fun b hb => ?_
  have hclauses : Rel (List Node) ((b.parts.filter isSwitchCase).mapM (r.switchCase src))
      ((b.parts.filter isSwitchCase).mapM (r'.switchCase src)) := by
    refine h.stepwise.mapM fun c hc => h.switchCase (h.inside ?_) src
    exact parts (h.inside (ht b hb)) c (List.mem_filter.1 hc).1
  refine h.stepwise.bind hclauses fun clauses => ?_
  exact h.stepwise.bind (h.field ht false _) fun discriminant => h.stepwise.ok _

theorem tryStatement : Rel Node (r.tryStatement src t) (r'.tryStatement src t) := by
  rw [tryStatement_eq, tryStatement_eq]
  refine h.stepwise.bind (h.optionally ht _ fun hc => h.catchClause hc src) fun handler => ?_
  refine h.stepwise.bind (h.blockField ht src _) fun block => ?_
  exact h.stepwise.bind (h.optionally ht _ fun hc => h.blockField hc src _) fun finalizer => h.stepwise.ok _

omit ht in
theorem loopPart (hloop : trees t) : Rel (Option Node) (r.loopPart src t) (r'.loopPart src t) := by
  unfold Reading.loopPart
  split
  · exact h.stepwise.bind (h.initializers (h.inside hloop)) fun parts => h.stepwise.ok _
  · split
    · exact h.firstPart (h.inside hloop)
    · exact h.expression false hloop

theorem loopHeader : Rel (List Node) (r.loopHeader src t) (r'.loopHeader src t) := by
  refine h.stepwise.map (h.stepwise.mapM fun c hc => h.loopPart src (ht c ?_)) _
  exact List.eraseP_subset (List.mem_filter.1 hc).1

theorem readStatement : Rel Node (r.readStatement src t) (r'.readStatement src t) := by
  unfold Reading.readStatement
  dsimp only
  split
  case h_1 | h_17 | h_18 => exact h.stepwise.bind (h.firstPart ht) fun part => h.stepwise.ok _
  case h_2 => exact h.declaration ht src _
  case h_3 | h_4 => exact h.stepwise.bind (h.stepwise.textOf? src _) fun keyword => h.declaration ht src _
  case h_5 | h_6 => exact h.stepwise.bind (h.function ht src _) fun f => h.stepwise.ok _
  case h_7 =>
    refine h.stepwise.bind (h.stepwise.textOf? src _) fun name => ?_
    exact h.stepwise.bind (h.subexpressions ht) fun members => h.stepwise.ok _
  case h_8 => exact h.block ht src
  case h_9 | h_10 => exact h.stepwise.ok _
  case h_11 => exact h.ifStatement ht src
  case h_12 => exact h.switchStatement ht src
  case h_13 | h_23 =>
    refine h.stepwise.bind (h.field ht false _) fun test => ?_
    exact h.stepwise.bind (h.statementField ht _) fun body => h.stepwise.ok _
  case h_14 =>
    refine h.stepwise.bind (h.statementField ht _) fun body => ?_
    exact h.stepwise.bind (h.field ht false _) fun test => h.stepwise.ok _
  case h_15 =>
    refine h.stepwise.bind (h.loopHeader ht src) fun header => ?_
    exact h.stepwise.bind (h.statementField ht _) fun body => h.stepwise.ok _
  case h_16 =>
    refine h.stepwise.bind (h.stepwise.textOf? src _) fun operator => ?_
    refine h.stepwise.bind (h.loopHeader ht src) fun header => ?_
    exact h.stepwise.bind (h.statementField ht _) fun body => h.stepwise.ok _
  case h_19 | h_20 => exact h.stepwise.bind (h.stepwise.textOf? src _) fun label => h.stepwise.ok _
  case h_21 =>
    refine h.stepwise.bind (h.stepwise.textOf? src _) fun label => ?_
    exact h.stepwise.bind (h.statementField ht _) fun body => h.stepwise.ok _
  case h_22 => exact h.tryStatement ht src
  case h_24 | h_25 | h_26 => exact h.stepwise.bind (h.subexpressions ht) fun expressions => h.stepwise.ok _

end Reading.Related

/-! ## Levels -/

variable {src : SourceText} {p q : Reading} {t : Tree} {depth : ℕ}

theorem lt_of_inside {n : ℕ} (ht : sizeOf t < n) : ∀ c ∈ t.children, sizeOf c < n :=
  fun _ hc => (Tree.sizeOf_lt_of_mem_children hc).trans ht

/-- below its size no tree is nested too deep, and further levels change nothing -/
theorem reading_related (src : SourceText) (n : ℕ) :
    ∀ depth, n ≤ depth → (reading src depth).Related SameResult (fun c => sizeOf c < n) (reading src n) := by
  induction n with
  | zero =>
    intro depth _
    exact ⟨stepwise_sameResult, lt_of_inside, fun _ _ ht => absurd ht (Nat.not_lt_zero _),
      fun ht => absurd ht (Nat.not_lt_zero _)⟩
  | succ n ih =>
    intro depth hdepth
    obtain ⟨depth, rfl⟩ : ∃ k, depth = k + 1 := ⟨depth - 1, by omega⟩
    have hlevel := ih depth (by omega)
    have hinside : ∀ {t : Tree}, sizeOf t < n + 1 → ∀ c ∈ t.children, sizeOf c < n := by
      intro t ht c hc
      have hlt := Tree.sizeOf_lt_of_mem_children hc
      omega
    exact ⟨stepwise_sameResult, lt_of_inside, fun keep _ ht => hlevel.readExpression (hinside ht) src keep,
      fun ht => hlevel.readStatement (hinside ht) src⟩

/-- a reading without levels: each tree is read with levels enough for it -/
noncomputable def plainReading (src : SourceText) : Reading where
  expression keep t := (reading src (sizeOf t + 1)).expression keep t
  statement t := (reading src (sizeOf t + 1)).statement t

theorem reading_related_plainReading (src : SourceText) {n : ℕ} (hn : n ≤ depth) :
    (reading src depth).Related SameResult (fun c => sizeOf c < n) (plainReading src) := by
  have henough : ∀ {c : Tree}, sizeOf c < n →
      (reading src depth).Related SameResult (fun d => sizeOf d < sizeOf c + 1) (reading src (sizeOf c + 1)) := by
    intro c hc
    exact reading_related src (sizeOf c + 1) depth (by omega)
  exact ⟨stepwise_sameResult, lt_of_inside, fun keep _ ht => (henough ht).expression keep (Nat.lt_succ_self _),
    fun ht => (henough ht).statement (Nat.lt_succ_self _)⟩

theorem isPlain_plainReading (src : SourceText) : (plainReading src).IsPlain src := by
  have hinside : ∀ t : Tree, ∀ c ∈ t.children, sizeOf c < sizeOf t := fun _ _ hc => Tree.sizeOf_lt_of_mem_children hc
  have hlevel : ∀ t : Tree, (reading src (sizeOf t)).Related SameResult (fun c => sizeOf c < sizeOf t) (plainReading src) :=
    fun t => reading_related_plainReading src le_rfl
  constructor
  · intro keep t
    -- smaller trees first: an operator is applied to operands that are read by recursion
    induction hsize : sizeOf t using Nat.strong_induction_on generalizing t keep with
    | _ size ih =>
      subst hsize
      have hloop : (plainReading src).expression keep t = (plainReading src).readExpression src keep t :=
        ((hlevel t).readExpression (hinside t) src keep).1
      rw [hloop, Reading.plainExpression]
      split
      · next operator hoperator =>
        rw [Reading.readExpression_of_operator hoperator]
        exact Reading.logical_eq_applied hoperator fun c hc => ih _ hc true c rfl
      · rfl
  · intro t
    exact ((hlevel t).readStatement (hinside t) src).1

theorem anywhere {t : Tree} : ∀ c ∈ t.children, True := fun _ _ => trivial

theorem tooDeep_le (src : SourceText) (r : Reading) : (reading src 0).Related LeResult (fun _ => True) r :=
  ⟨stepwise_leResult, fun _ => anywhere, fun _ _ _ => Or.inl rfl, fun _ => Or.inl rfl⟩

/-- every level gives up or reads what is read without levels -/
theorem reading_le (hp : p.IsPlain src) (depth : ℕ) : (reading src depth).Related LeResult (fun _ => True) p := by
  induction depth with
  | zero => exact tooDeep_le src p
  | succ depth ih =>
    refine ⟨stepwise_leResult, fun _ => anywhere, fun keep t _ => ?_, fun {t} _ => ?_⟩
    · rw [← hp.readExpression_eq]
      exact ih.readExpression anywhere src keep
    · rw [hp.statement]
      exact ih.readStatement anywhere src

/-- one reading reads by recursion alone -/
theorem eq_plainReading (hp : p.IsPlain src) : p = plainReading src := by
  have hlevel : ∀ t : Tree, (reading src (sizeOf t + 1)).Related SameResult (fun c => sizeOf c < sizeOf t + 1) _ :=
    fun t => reading_related src (sizeOf t + 1) (sizeOf t + 1) le_rfl
  have hexpression : p.expression = (plainReading src).expression := by
    funext keep t
    rcases (reading_le hp (sizeOf t + 1)).expression keep trivial with hdeep | heq
    · exact absurd hdeep ((hlevel t).expression keep (Nat.lt_succ_self _)).2
    · exact heq.symm
  have hstatement : p.statement = (plainReading src).statement := by
    funext t
    rcases (reading_le hp (sizeOf t + 1)).statement trivial with hdeep | heq
    · exact absurd hdeep ((hlevel t).statement (Nat.lt_succ_self _)).2
    · exact heq.symm
  cases p
  exact congrArg₂ Reading.mk hexpression hstatement

/-! ## Recursion with levels -/

/-- the recursion on nodes nested below `depth` levels; each operator of a chain takes a level -/
def recursion (src : SourceText) : ℕ → Reading
  | 0 => ⟨fun _ _ => .error .tooDeep, fun _ => .error .tooDeep⟩
  | depth + 1 => ⟨(recursion src depth).plainExpression src, (recursion src depth).readStatement src⟩

theorem reading_le_succ (src : SourceText) (depth : ℕ) :
    (reading src depth).Related LeResult (fun _ => True) (reading src (depth + 1)) := by
  induction depth with
  | zero => exact tooDeep_le src _
  | succ depth ih =>
    exact ⟨stepwise_leResult, fun _ => anywhere, fun keep _ _ => ih.readExpression anywhere src keep,
      fun _ => ih.readStatement anywhere src⟩

theorem LeResult.trans {α : Type} {x y z : Result α} (h : LeResult α x y) (h' : LeResult α y z) : LeResult α x z := by
  rcases h with hdeep | rfl
  · exact Or.inl hdeep
  · exact h'

/-- an operator by recursion against the loop, if what is left of it compares -/
theorem applied_le_logical {r r' : Reading} (h : r.Related LeResult (fun _ => True) r') {operator : String}
    (hoperator : logicalOperator? src t = .ok (some operator))
    (hleft : ∀ left, t.child? "left" = some left →
      LeResult (Option Node) (r.expression true left) (r'.logical src left)) :
    LeResult (Option Node) (r.applied src t operator) (r'.logical src t) := by
  rw [Reading.logical_of_operator hoperator]
  refine h.stepwise.bind ?_ fun left => ?_
  · unfold Reading.field Reading.chainLeft
    cases hchild : t.child? "left" with
    | none => exact h.stepwise.ok none
    | some left => exact hleft left hchild
  · exact h.stepwise.bind (h.field anywhere true "right") fun right => h.stepwise.ok _

/-- with the same levels, the recursion gives up or does what the loop does -/
theorem recursion_le (src : SourceText) (depth : ℕ) :
    (recursion src depth).Related LeResult (fun _ => True) (reading src depth) ∧
    (∀ t, LeResult (Option Node) ((recursion src depth).expression true t) ((reading src depth).logical src t)) ∧
    ∀ t operator, logicalOperator? src t = .ok (some operator) →
      LeResult (Option Node) ((recursion src depth).applied src t operator) ((reading src depth).logical src t) := by
  induction depth with
  | zero =>
    have hrelated : (recursion src 0).Related LeResult (fun _ => True) (reading src 0) := tooDeep_le src _
    exact ⟨hrelated, fun _ => Or.inl rfl, fun t operator hoperator =>
      applied_le_logical hrelated hoperator fun _ _ => Or.inl rfl⟩
  | succ depth ih =>
    obtain ⟨hrelated, -, happlied⟩ := ih
    have hexpression : ∀ keep t, LeResult (Option Node) ((recursion src (depth + 1)).expression keep t)
        ((reading src (depth + 1)).expression keep t) := by
      intro keep t
      show LeResult _ ((recursion src depth).plainExpression src keep t) ((reading src depth).readExpression src keep t)
      unfold Reading.plainExpression
      split
      · next operator hoperator =>
        rw [Reading.readExpression_of_operator hoperator]
        exact happlied t operator hoperator
      · exact hrelated.readExpression anywhere src keep
    have hnext : (recursion src (depth + 1)).Related LeResult (fun _ => True) (reading src (depth + 1)) :=
      ⟨stepwise_leResult, fun _ => anywhere, fun keep t _ => hexpression keep t,
        fun _ => hrelated.readStatement anywhere src⟩
    have hlogical : ∀ t, LeResult (Option Node) ((recursion src (depth + 1)).expression true t)
        ((reading src (depth + 1)).logical src t) := by
      intro t
      have hstep : (recursion src (depth + 1)).expression true t = (recursion src depth).plainExpression src true t := rfl
      cases hoperator : logicalOperator? src t with
      | error e =>
        rw [Reading.logical_of_error hoperator, hstep, Reading.plainExpression, hoperator]
        exact Or.inr (Reading.readExpression_of_error hoperator true)
      | ok operator =>
        cases operator with
        | none =>
          rw [Reading.logical_of_operand hoperator]
          exact hexpression true t
        | some operator =>
          have hloop := (reading_le_succ src depth).logical anywhere src hoperator
          rw [hstep, Reading.plainExpression, hoperator]
          exact (happlied t operator hoperator).trans hloop
    exact ⟨hnext, hlogical, fun t operator hoperator => applied_le_logical hnext hoperator fun left _ => hlogical left⟩

/-- **A chain in a loop is read as by recursion.** One reading reads every node by recursion into the nodes inside it, an
operator by reading its left and its right operand. The loop, at any level, gives up or reads of a chain the same tree or
fails in the same way, and at a level as deep as the chain is large it does not give up. Where the recursion itself has
levels, it gives up wherever the loop does. -/
theorem logical_eq_recursion (src : SourceText) :
    ∃ p : Reading, (∀ q : Reading, q.IsPlain src ↔ q = p) ∧
      ∀ t operator, logicalOperator? src t = .ok (some operator) →
        p.applied src t operator ≠ .error .tooDeep ∧
        (∀ depth, (reading src depth).logical src t = .error .tooDeep ∨
          (reading src depth).logical src t = p.applied src t operator) ∧
        (∀ depth, sizeOf t ≤ depth → (reading src depth).logical src t = p.applied src t operator) ∧
        ∀ depth, (recursion src depth).applied src t operator = .error .tooDeep ∨
          (recursion src depth).applied src t operator = (reading src depth).logical src t := by
  have hp := isPlain_plainReading src
  refine ⟨plainReading src, fun q => ⟨eq_plainReading, fun hq => hq ▸ hp⟩, ?_⟩
  intro t operator hoperator
  have hsame : ∀ depth, sizeOf t ≤ depth → SameResult (Option Node) ((reading src depth).logical src t)
      ((plainReading src).logical src t) := by
    intro depth hdepth
    exact (reading_related_plainReading src hdepth).logical (fun c hc => Tree.sizeOf_lt_of_mem_children hc) src hoperator
  rw [← hp.logical_eq_applied hoperator]
  refine ⟨?_, ?_, fun depth hdepth => (hsame depth hdepth).1, fun depth => (recursion_le src depth).2.2 t operator hoperator⟩
  · obtain ⟨heq, hne⟩ := hsame (sizeOf t) le_rfl
    rwa [← heq]
  · intro depth
    exact (reading_le hp depth).logical anywhere src hoperator

def mixedText : String := "a&&b||c||"

/-- a chain of different operators, with nothing behind the last one -/
def mixedChain : Tree :=
  .node "binary_expression" 0 9 [
    (Tree.node "binary_expression" 0 7 [
      (Tree.node "binary_expression" 0 4 [
        (Tree.leaf "identifier" 0 1).inField "left", (Tree.token "&&" 1 3).inField "operator",
        (Tree.leaf "identifier" 3 4).inField "right"]).inField "left",
      (Tree.token "||" 4 6).inField "operator", (Tree.leaf "identifier" 6 7).inField "right"]).inField "left",
    (Tree.token "||" 7 9).inField "operator"]

/-- the loop reads the chain, and recursion gives the same node -/
theorem logical_eq_recursion_mixedChain : ∃ p : Reading, p.IsPlain (.ofString mixedText) ∧
    ∃ n, (reading (.ofString mixedText) usualDepth).logical (.ofString mixedText) mixedChain = .ok n ∧
      p.applied (.ofString mixedText) mixedChain "||" = .ok n ∧
      n.map (fun n => (n.operands .root).map fun o => o.2.isSome) = some [true, true, true, false] := by
  obtain ⟨p, hplain, hchains⟩ := logical_eq_recursion (.ofString mixedText)
  have hoperator : logicalOperator? (.ofString mixedText) mixedChain = .ok (some "||") := by decide +kernel
  have hread : ((reading (.ofString mixedText) usualDepth).logical (.ofString mixedText) mixedChain).toOption.map
      (fun n => n.map fun n => (n.operands .root).map fun o => o.2.isSome) = some (some [true, true, true, false]) := by
    decide +kernel
  obtain ⟨n, hn, hoperands⟩ := Option.map_eq_some_iff.1 hread
  have hn := ok_of_toOption hn
  obtain ⟨-, hdepths, -⟩ := hchains mixedChain "||" hoperator
  have hsame := (hdepths usualDepth).resolve_left (by rw [hn]; exact nofun)
  exact ⟨p, (hplain p).2 rfl, n, hn, hsame.symm.trans hn, hoperands⟩

end Lowering

end Turnstile
