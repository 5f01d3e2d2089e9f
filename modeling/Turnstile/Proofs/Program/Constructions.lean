/-
What lowering keeps.

A property of nodes that each construction of lowering keeps is a property of all that is lowered. Where operands come from
matters, so there is a property of trees as well that goes on to the trees inside.
- `Closed`: properties that the constructions keep, with rules for functions, their bodies, operators and all other nodes;
- `Reading.Gives`: a reading that gives nodes with the property and leaves out nothing that is to be kept;
- `Closed.readExpression`, `Closed.readStatement`: one level of lowering, one lemma for each reading;
- `Closed.program_body`: the statements of a whole program.
-/
import Turnstile.Proofs.Concrete.Sites
import Turnstile.Proofs.Program.Reading

namespace Turnstile

namespace Node

def isClause : Node → Bool
  | switchCase .. => true
  | _ => false

/-- the clauses of a switch -/
def clauses : Node → List Node
  | switchStatement _ _ cases => cases
  | _ => []

end Node

namespace Lowering

/-! ## Constructions -/

/-- what is read of a field is there if the field holds an expression -/
def Fills (t : Tree) (field : String) (o : Option Node) : Prop :=
  ∀ c, t.child? field = some c → c.isComment = false → o.isSome = true

/-- properties of parts of nodes and of bodies of functions that all constructions keep -/
structure Closed (src : SourceText) (trees : Tree → Prop) (parts bodies : Node → Prop) : Prop where
  inside : ∀ {t c : Tree}, trees t → c ∈ t.children → trees c
  other : ∀ {n : Node}, n.isDirective = false → n.isFunction = false → n.isLogical = false →
    (∀ c ∈ n.clauses, c.isClause = true) → (∀ c ∈ n.children, parts c) → parts n
  logical : ∀ {t : Tree} {operator : String} {left right : Option Node}, trees t → t.kind = "binary_expression" →
    Fills t "left" left → Fills t "right" right → (∀ n ∈ left, parts n) → (∀ n ∈ right, parts n) →
    parts (.logical (spanOf src t) operator left right)
  function : ∀ {span : Span} {form : FunctionForm} {name : Option String} {parameters : List Node} {body : Option Node},
    (∀ p ∈ parameters, parts p) → (∀ b ∈ body, bodies b) → parts (.function span form name parameters body)
  expressionBody : ∀ {n : Node}, parts n → bodies n
  blockBody : ∀ {span : Span} {directives statements : List Node}, (∀ d ∈ directives, d.isDirective = true) →
    (∀ s ∈ statements, parts s) → bodies (.block span (directives ++ statements))

/-- a reading that gives nodes with a property, and something wherever something is to be kept -/
structure Reading.Gives (r : Reading) (trees : Tree → Prop) (parts : Node → Prop) : Prop where
  expression : ∀ {keep t n}, trees t → r.expression keep t = .ok (some n) → parts n
  filled : ∀ {t o}, trees t → t.isComment = false → r.expression true t = .ok o → o.isSome = true
  statement : ∀ {t n}, trees t → r.statement t = .ok n → parts n

variable {r : Reading} {src : SourceText} {trees : Tree → Prop} {parts bodies : Node → Prop} {t : Tree} {n : Node}
  {o : Option Node} {ns : List Node}

/-! ## One level of lowering -/

namespace Closed

variable (h : Closed src trees parts bodies) (hr : r.Gives trees parts)

include h

/-- a node with neither clauses nor directives of its own -/
theorem of_children (hdirective : n.isDirective = false) (hfunction : n.isFunction = false)
    (hlogical : n.isLogical = false) (hclauses : n.clauses = []) (hchildren : ∀ c ∈ n.children, parts c) : parts n :=
  h.other hdirective hfunction hlogical (by simp [hclauses]) hchildren

/-- parts that may be absent, in front of a statement -/
theorem of_parts_body {body : Node} {front : List Node} (hdirective : n.isDirective = false)
    (hfunction : n.isFunction = false) (hlogical : n.isLogical = false) (hclauses : n.clauses = [])
    (hchildren : n.children = front ++ [body]) (hfront : ∀ c ∈ front, parts c) (hbody : parts body) : parts n := by
  refine h.of_children hdirective hfunction hlogical hclauses fun c hc => ?_
  rw [hchildren, List.mem_append, List.mem_singleton] at hc
  rcases hc with hc | rfl
  · exact hfront c hc
  · exact hbody

theorem inside_parts (ht : trees t) : ∀ c ∈ t.parts, trees c :=
  fun _ hc => h.inside ht (Tree.mem_children_of_mem_parts hc)

theorem inside_child? (ht : trees t) {field : String} {c : Tree} (hc : t.child? field = some c) : trees c :=
  h.inside ht (Tree.mem_children_of_child? hc)

theorem inside_required (ht : trees t) {field : String} {c : Tree} (hc : required t field = .ok c) : trees c :=
  h.inside_child? ht (required_eq_ok_iff.1 hc)

include hr

theorem field (ht : trees t) {keep : Bool} {field : String} (ho : r.field keep t field = .ok o) :
    ∀ n ∈ o, parts n := by
  rintro n rfl
  unfold Reading.field at ho
  split at ho
  · next c hc => exact hr.expression (h.inside_child? ht hc) ho
  · cases ho

theorem fills (ht : trees t) {field : String} (ho : r.field true t field = .ok o) : Fills t field o := by
  intro c hc hcomment
  rw [Reading.field, hc] at ho
  exact hr.filled (h.inside_child? ht hc) hcomment ho

theorem firstPart (ht : trees t) (ho : r.firstPart t = .ok o) : ∀ n ∈ o, parts n := by
  rintro n rfl
  unfold Reading.firstPart at ho
  split at ho
  · next c cs hcs => exact hr.expression (h.inside_parts ht c (hcs ▸ List.mem_cons_self)) ho
  · cases ho

omit h hr in
theorem of_filterMap {f : Tree → Result (Option Node)} {ts : List Tree}
    (hf : ∀ t ∈ ts, ∀ o, f t = .ok o → ∀ n ∈ o, parts n) (hns : (List.filterMap id) <$> ts.mapM f = .ok ns) :
    ∀ n ∈ ns, parts n := by
  obtain ⟨os, hos, rfl⟩ := map_eq_ok_iff.1 hns
  intro n hn
  obtain ⟨o, ho, hon⟩ := List.mem_filterMap.1 hn
  obtain ⟨c, hc, hco⟩ := exists_of_mem_mapM hos ho
  exact hf c hc o hco n hon

omit h in
theorem expressions {ts : List Tree} (hts : ∀ t ∈ ts, trees t) (hns : r.expressions ts = .ok ns) : ∀ n ∈ ns, parts n :=
  of_filterMap (fun t ht _ ho n hn => by cases hn; exact hr.expression (hts t ht) ho) hns

theorem subexpressions (ht : trees t) (hns : r.subexpressions t = .ok ns) : ∀ n ∈ ns, parts n :=
  expressions hr (h.inside_parts ht) hns

omit h in
theorem statements {ts : List Tree} (hts : ∀ t ∈ ts, trees t) (hns : ts.mapM r.statement = .ok ns) :
    ∀ n ∈ ns, parts n := by
  intro n hn
  obtain ⟨c, hc, hcn⟩ := exists_of_mem_mapM hns hn
  exact hr.statement (hts c hc) hcn

theorem statementField (ht : trees t) {field : String} (hn : r.statementField t field = .ok n) : parts n := by
  obtain ⟨c, hc, hn⟩ := bind_eq_ok_iff.1 hn
  exact hr.statement (h.inside_required ht hc) hn

theorem initializers (ht : trees t) (hns : r.initializers t = .ok ns) : ∀ n ∈ ns, parts n := by
  refine expressions hr (fun c hc => ?_) hns
  obtain ⟨d, hd, hc⟩ := List.mem_flatMap.1 hc
  have htd : trees d := h.inside_parts ht d (List.mem_filter.1 hd).1
  rcases List.mem_append.1 hc with hc | hc
  · exact h.inside_child? htd (Option.mem_toList.1 hc)
  · exact h.inside_child? htd (Option.mem_toList.1 hc)

theorem declaration (ht : trees t) {keyword : String} (hn : r.declaration src t keyword = .ok n) : parts n := by
  obtain ⟨initializers, hi, hn⟩ := bind_eq_ok_iff.1 hn
  obtain ⟨declarators, -, hn⟩ := bind_eq_ok_iff.1 hn
  cases hn
  exact h.of_children rfl rfl rfl rfl (h.initializers hr ht hi)

theorem block (ht : trees t) (hn : r.block src t = .ok n) : parts n := by
  obtain ⟨body, hb, hn⟩ := bind_eq_ok_iff.1 hn
  cases hn
  exact h.of_children rfl rfl rfl rfl (statements hr (h.inside_parts ht) hb)

theorem blockField (ht : trees t) {field : String} (hn : r.blockField src t field = .ok n) : parts n := by
  obtain ⟨c, hc, hn⟩ := bind_eq_ok_iff.1 hn
  exact h.block hr (h.inside_required ht hc) hn

/-! ### Functions -/

omit h in
/-- directives first, then statements -/
theorem prologue {ts : List Tree} (hts : ∀ t ∈ ts, trees t) (hns : r.prologue src ts = .ok ns) :
    ∃ directives statements, ns = directives ++ statements ∧ (∀ d ∈ directives, d.isDirective = true) ∧
      ∀ s ∈ statements, parts s := by
  induction ts generalizing ns with
  | nil =>
    cases hns
    exact ⟨[], [], rfl, by simp, by simp⟩
  | cons t ts ih =>
    rw [Reading.prologue, bind_eq_ok_iff] at hns
    obtain ⟨value, -, hns⟩ := hns
    cases value with
    | some value =>
      obtain ⟨rest, hrest, hns⟩ := bind_eq_ok_iff.1 hns
      cases hns
      obtain ⟨directives, statements, rfl, hdirectives, hstatements⟩ :=
        ih (fun t ht => hts t (List.mem_cons_of_mem _ ht)) hrest
      exact ⟨.directive (spanOf src t) value :: directives, statements, rfl,
        List.forall_mem_cons.2 ⟨rfl, hdirectives⟩, hstatements⟩
    | none => exact ⟨[], ns, rfl, by simp, statements hr hts hns⟩

theorem functionBlock (ht : trees t) (hn : r.functionBlock src t = .ok n) : bodies n := by
  obtain ⟨body, hb, hn⟩ := bind_eq_ok_iff.1 hn
  cases hn
  obtain ⟨directives, statements, rfl, hdirectives, hstatements⟩ := prologue hr (h.inside_parts ht) hb
  exact h.blockBody hdirectives hstatements

theorem parameters (ht : trees t) (hns : r.parameters t = .ok ns) : ∀ n ∈ ns, parts n := by
  unfold Reading.parameters at hns
  split at hns
  · next p hp => exact h.subexpressions hr (h.inside_child? ht hp) hns
  · cases hns
    simp

theorem functionBody (ht : trees t) (ho : r.functionBody src t = .ok o) : ∀ n ∈ o, bodies n := by
  rintro n rfl
  unfold Reading.functionBody at ho
  split at ho
  · obtain ⟨m, hm, hmn⟩ := map_eq_ok_iff.1 ho
    cases hmn
    exact h.functionBlock hr ht hm
  · exact h.expressionBody (hr.expression ht ho)

theorem readFunction (ht : trees t) {form : FunctionForm} (hn : r.function src t form = .ok n) : parts n := by
  rw [Reading.function_eq] at hn
  obtain ⟨parameters, hp, hn⟩ := bind_eq_ok_iff.1 hn
  obtain ⟨b, hb, hn⟩ := bind_eq_ok_iff.1 hn
  obtain ⟨body, hbody, hn⟩ := bind_eq_ok_iff.1 hn
  obtain ⟨name, -, hn⟩ := bind_eq_ok_iff.1 hn
  cases hn
  exact h.function (h.parameters hr ht hp) (h.functionBody hr (h.inside_required ht hb) hbody)

/-! ### Chains of short-circuit operators -/

omit hr in
/-- a chain taken apart: the innermost operator is in front and has the first operand on its left -/
theorem of_chainOnto {done steps : List (Tree × String)} {first : Option Tree} (ht : trees t)
    (hdone : ∀ step ∈ done, trees step.1 ∧ step.1.kind = "binary_expression")
    (hlast : ∀ step ∈ done.head?, step.1.child? "left" = some t) (hchain : chainOnto src done t = .ok (steps, first)) :
    (∀ step ∈ steps, trees step.1 ∧ step.1.kind = "binary_expression") ∧ (∀ f ∈ first, trees f) ∧
      (steps = [] → done = [] ∧ first = some t) ∧ ∀ step ∈ steps.head?, step.1.child? "left" = first := by
  -- along the left operands; what is already taken apart grows with each operator
  induction t using Tree.inductionOn generalizing done with
  | step t ih =>
    rw [chainOnto_eq, bind_eq_ok_iff] at hchain
    obtain ⟨operator, hoperator, hchain⟩ := hchain
    cases operator with
    | none =>
      cases hchain
      exact ⟨hdone, by simpa using ht, fun hnil => ⟨hnil, rfl⟩, hlast⟩
    | some operator =>
      have hnext : ∀ step ∈ (t, operator) :: done, trees step.1 ∧ step.1.kind = "binary_expression" :=
        List.forall_mem_cons.2 ⟨⟨ht, kind_of_logicalOperator? hoperator⟩, hdone⟩
      dsimp only at hchain
      split at hchain
      · next hleft =>
        cases hchain
        exact ⟨hnext, by simp, by simp, by simpa using hleft⟩
      · next left hleft =>
        obtain ⟨hsteps, hfirst, hnil, hhead⟩ := ih left (Tree.mem_children_of_child? hleft) (h.inside_child? ht hleft)
          hnext (by simpa using hleft) hchain
        exact ⟨hsteps, hfirst, fun hsteps => absurd (hnil hsteps).1 (List.cons_ne_nil _ _), hhead⟩

/-- an operator around what its left operand is read as -/
theorem applyOperator {left : Option Node} {step : Tree × String} (ht : trees step.1)
    (hkind : step.1.kind = "binary_expression") (hfills : Fills step.1 "left" left) (hleft : ∀ n ∈ left, parts n)
    (ho : r.applyOperator src left step = .ok o) : o.isSome = true ∧ ∀ n ∈ o, parts n := by
  obtain ⟨right, hright, ho⟩ := bind_eq_ok_iff.1 ho
  cases ho
  refine ⟨rfl, ?_⟩
  rintro _ ⟨⟩
  exact h.logical ht hkind hfills (h.fills hr ht hright) hleft (h.field hr ht hright)

/-- operators around an operand that is there, or that the innermost of them lacks -/
theorem applyOperators {left : Option Node} {steps : List (Tree × String)}
    (hsteps : ∀ step ∈ steps, trees step.1 ∧ step.1.kind = "binary_expression")
    (hfills : ∀ step ∈ steps.head?, Fills step.1 "left" left) (hleft : ∀ n ∈ left, parts n)
    (ho : steps.foldlM (r.applyOperator src) left = .ok o) :
    (steps ≠ [] → o.isSome = true) ∧ ∀ n ∈ o, parts n := by
  induction steps generalizing left with
  | nil =>
    cases ho
    exact ⟨fun hne => absurd rfl hne, hleft⟩
  | cons step steps ih =>
    rw [List.foldlM_cons, bind_eq_ok_iff] at ho
    obtain ⟨next, hnext, ho⟩ := ho
    obtain ⟨⟨ht, hkind⟩, hsteps⟩ := List.forall_mem_cons.1 hsteps
    obtain ⟨hsome, hparts⟩ := h.applyOperator hr ht hkind (hfills step rfl) hleft hnext
    obtain ⟨hsome', hparts'⟩ := ih hsteps (fun _ _ _ _ _ => hsome) hparts ho
    refine ⟨fun _ => ?_, hparts'⟩
    cases steps with
    | nil =>
      cases ho
      exact hsome
    | cons => exact hsome' (List.cons_ne_nil _ _)

theorem readLogical (ht : trees t) (ho : r.logical src t = .ok o) :
    (t.isComment = false → o.isSome = true) ∧ ∀ n ∈ o, parts n := by
  obtain ⟨⟨steps, first⟩, hchain, ho⟩ := bind_eq_ok_iff.1 ho
  obtain ⟨hsteps, hfirst, hnil, hhead⟩ := h.of_chainOnto ht (by simp) (by simp) hchain
  cases first with
  | none =>
    have hne : steps ≠ [] := fun hsteps => nomatch (hnil hsteps).2
    obtain ⟨hsome, hparts⟩ := h.applyOperators hr hsteps
      (fun step hstep c hc => by rw [hhead step hstep] at hc; cases hc) (by simp) ho
    exact ⟨fun _ => hsome hne, hparts⟩
  | some f =>
    obtain ⟨left, hleft, ho⟩ := bind_eq_ok_iff.1 ho
    have hfills : ∀ step ∈ steps.head?, Fills step.1 "left" left := by
      intro step hstep c hc hcomment
      rw [hhead step hstep] at hc
      cases hc
      exact hr.filled (hfirst _ rfl) hcomment hleft
    have hparts : ∀ n ∈ left, parts n := by
      rintro n rfl
      exact hr.expression (hfirst f rfl) hleft
    obtain ⟨hsome, hparts⟩ := h.applyOperators hr hsteps hfills hparts ho
    refine ⟨fun hcomment => ?_, hparts⟩
    by_cases hne : steps = []
    · obtain rfl : f = t := Option.some.inj (hnil hne).2
      subst hne
      cases ho
      exact hr.filled (hfirst _ rfl) hcomment hleft
    · exact hsome hne

/-! ### Expressions -/

theorem conditional (ht : trees t) (ho : r.conditional src t = .ok o) : o.isSome = true ∧ ∀ n ∈ o, parts n := by
  obtain ⟨test, htest, ho⟩ := bind_eq_ok_iff.1 ho
  obtain ⟨consequent, hconsequent, ho⟩ := bind_eq_ok_iff.1 ho
  obtain ⟨alternate, halternate, ho⟩ := bind_eq_ok_iff.1 ho
  cases ho
  refine ⟨rfl, ?_⟩
  rintro _ ⟨⟩
  refine h.of_children rfl rfl rfl rfl fun c hc => ?_
  simp only [Node.children, List.mem_append, Option.mem_toList] at hc
  rcases hc with (hc | hc) | hc
  · exact h.field hr ht htest c hc
  · exact h.field hr ht hconsequent c hc
  · exact h.field hr ht halternate c hc

theorem composite (ht : trees t) {keep : Bool} (ho : r.composite src t keep = .ok o) :
    (keep = true → o.isSome = true) ∧ ∀ n ∈ o, parts n := by
  obtain ⟨elements, helements, ho⟩ := bind_eq_ok_iff.1 ho
  have hparts : ∀ n ∈ elements, parts n := by
    unfold Reading.elements at helements
    split at helements
    · exact h.initializers hr ht helements
    · exact h.subexpressions hr ht helements
  cases ho
  split
  · next hleft => exact ⟨fun hkeep => by simp [hkeep] at hleft, by simp⟩
  · refine ⟨fun _ => rfl, ?_⟩
    rintro _ ⟨⟩
    exact h.of_children rfl rfl rfl rfl hparts

theorem readExpression (ht : trees t) {keep : Bool} (ho : r.readExpression src keep t = .ok o) :
    (t.isComment = false → keep = true → o.isSome = true) ∧ ∀ n ∈ o, parts n := by
  rcases r.readExpression_cases src t keep ho with
    ⟨hcomment, rfl⟩ | ⟨form, m, -, hm, rfl⟩ | ⟨-, hm⟩ | ⟨operator, -, hm⟩ | ⟨-, m, hm, rfl⟩ | ⟨-, m, hm, rfl⟩ | ⟨-, hm⟩
  · exact ⟨fun hno => absurd (hcomment.symm.trans hno) (by decide), by simp⟩
  · exact ⟨fun _ _ => rfl, by simpa using h.readFunction hr ht hm⟩
  · obtain ⟨hsome, hparts⟩ := h.conditional hr ht hm
    exact ⟨fun _ _ => hsome, hparts⟩
  · obtain ⟨hsome, hparts⟩ := h.readLogical hr ht hm
    exact ⟨fun hcomment _ => hsome hcomment, hparts⟩
  · have hblock := h.blockField hr ht hm
    exact ⟨fun _ _ => rfl, by simpa using h.of_children rfl rfl rfl rfl (by simpa [Node.children] using hblock)⟩
  · exact ⟨fun _ _ => rfl, by simpa using h.block hr ht hm⟩
  · obtain ⟨hsome, hparts⟩ := h.composite hr ht hm
    exact ⟨fun _ => hsome, hparts⟩

/-! ### Statements -/

theorem catchClause (ht : trees t) (hn : r.catchClause src t = .ok n) : parts n := by
  obtain ⟨parameter, hp, hn⟩ := bind_eq_ok_iff.1 hn
  obtain ⟨b, hb, hn⟩ := bind_eq_ok_iff.1 hn
  obtain ⟨body, hbody, hn⟩ := bind_eq_ok_iff.1 hn
  cases hn
  exact h.of_parts_body rfl rfl rfl rfl rfl (by simpa using h.field hr ht hp)
    (h.block hr (h.inside_required ht hb) hbody)

theorem elseClause (ht : trees t) (hn : r.elseClause t = .ok n) : parts n := by
  unfold Reading.elseClause at hn
  split at hn
  · next c cs hcs => exact hr.statement (h.inside_parts ht c (hcs ▸ List.mem_cons_self)) hn
  · cases hn

omit hr in
theorem optionally (ht : trees t) {field : String} {read : Tree → Result Node}
    (hread : ∀ {t n}, trees t → read t = .ok n → parts n) (ho : Reading.optionally t field read = .ok o) :
    ∀ n ∈ o, parts n := by
  rintro n rfl
  unfold Reading.optionally at ho
  split at ho
  · next c hc =>
    obtain ⟨m, hm, hmn⟩ := map_eq_ok_iff.1 ho
    cases hmn
    exact hread (h.inside_child? ht hc) hm
  · cases ho

theorem ifStatement (ht : trees t) (hn : r.ifStatement src t = .ok n) : parts n := by
  rw [Reading.ifStatement_eq] at hn
  obtain ⟨alternate, halternate, hn⟩ := bind_eq_ok_iff.1 hn
  obtain ⟨test, htest, hn⟩ := bind_eq_ok_iff.1 hn
  obtain ⟨consequent, hconsequent, hn⟩ := bind_eq_ok_iff.1 hn
  cases hn
  refine h.of_children rfl rfl rfl rfl fun c hc => ?_
  simp only [Node.children, List.mem_append, List.mem_cons, Option.mem_toList] at hc
  rcases hc with hc | rfl | hc
  · exact h.field hr ht htest c hc
  · exact h.statementField hr ht hconsequent
  · exact h.optionally ht (h.elseClause hr) halternate c hc

theorem switchCase (ht : trees t) (hn : r.switchCase src t = .ok n) : parts n ∧ n.isClause = true := by
  obtain ⟨test, htest, hn⟩ := bind_eq_ok_iff.1 hn
  obtain ⟨body, hbody, hn⟩ := bind_eq_ok_iff.1 hn
  cases hn
  refine ⟨h.of_children rfl rfl rfl rfl fun c hc => ?_, rfl⟩
  simp only [Node.children, List.mem_append, Option.mem_toList] at hc
  rcases hc with hc | hc
  · exact h.field hr ht htest c hc
  · refine statements hr (fun c hc => h.inside ht ?_) hbody c hc
    exact (List.dropWhile_sublist _).subset (List.drop_subset _ _ (List.mem_filter.1 hc).1)

theorem switchStatement (ht : trees t) (hn : r.switchStatement src t = .ok n) : parts n := by
  obtain ⟨body, hbody, hn⟩ := bind_eq_ok_iff.1 hn
  obtain ⟨cases, hcases, hn⟩ := bind_eq_ok_iff.1 hn
  obtain ⟨discriminant, hdiscriminant, hn⟩ := bind_eq_ok_iff.1 hn
  cases hn
  have hclauses : ∀ c ∈ cases, parts c ∧ c.isClause = true := by
    intro c hc
    obtain ⟨u, hu, huc⟩ := exists_of_mem_mapM hcases hc
    exact h.switchCase hr (h.inside_parts (h.inside_required ht hbody) u (List.mem_filter.1 hu).1) huc
  refine h.other rfl rfl rfl (fun c hc => (hclauses c hc).2) fun c hc => ?_
  simp only [Node.children, List.mem_append, Option.mem_toList] at hc
  rcases hc with hc | hc
  · exact h.field hr ht hdiscriminant c hc
  · exact (hclauses c hc).1

theorem tryStatement (ht : trees t) (hn : r.tryStatement src t = .ok n) : parts n := by
  rw [Reading.tryStatement_eq] at hn
  obtain ⟨handler, hhandler, hn⟩ := bind_eq_ok_iff.1 hn
  obtain ⟨block, hblock, hn⟩ := bind_eq_ok_iff.1 hn
  obtain ⟨finalizer, hfinalizer, hn⟩ := bind_eq_ok_iff.1 hn
  cases hn
  refine h.of_children rfl rfl rfl rfl fun c hc => ?_
  simp only [Node.children, List.mem_append, List.mem_cons, Option.mem_toList] at hc
  rcases hc with (rfl | hc) | hc
  · exact h.blockField hr ht hblock
  · exact h.optionally ht (h.catchClause hr) hhandler c hc
  · exact h.optionally ht (fun ht hn => h.blockField hr ht hn) hfinalizer c hc

theorem loopPart (ht : trees t) (ho : r.loopPart src t = .ok o) : ∀ n ∈ o, parts n := by
  unfold Reading.loopPart at ho
  split at ho
  · obtain ⟨initializers, hi, ho⟩ := bind_eq_ok_iff.1 ho
    cases ho
    split
    · simp
    · rintro _ ⟨⟩
      exact h.of_children rfl rfl rfl rfl (h.initializers hr ht hi)
  · split at ho
    · exact h.firstPart hr ht ho
    · rintro n rfl
      exact hr.expression ht ho

theorem loopHeader (ht : trees t) (hns : r.loopHeader src t = .ok ns) : ∀ n ∈ ns, parts n := by
  refine of_filterMap (fun c hc o ho => h.loopPart hr (h.inside ht ?_) ho) hns
  exact List.eraseP_subset (List.mem_filter.1 hc).1

theorem readStatement (ht : trees t) (hn : r.readStatement src t = .ok n) : parts n := by
  unfold Reading.readStatement at hn
  dsimp only at hn
  split at hn
  case h_1 | h_17 | h_18 =>
    obtain ⟨part, hpart, hn⟩ := bind_eq_ok_iff.1 hn
    cases hn
    exact h.of_children rfl rfl rfl rfl (by simpa [Node.children] using h.firstPart hr ht hpart)
  case h_2 => exact h.declaration hr ht hn
  case h_3 | h_4 =>
    obtain ⟨keyword, -, hn⟩ := bind_eq_ok_iff.1 hn
    exact h.declaration hr ht hn
  case h_5 | h_6 =>
    obtain ⟨f, hf, hn⟩ := bind_eq_ok_iff.1 hn
    cases hn
    exact h.of_children rfl rfl rfl rfl (by simpa [Node.children] using h.readFunction hr ht hf)
  case h_7 =>
    obtain ⟨name, -, hn⟩ := bind_eq_ok_iff.1 hn
    obtain ⟨members, hm, hn⟩ := bind_eq_ok_iff.1 hn
    cases hn
    exact h.of_children rfl rfl rfl rfl (h.subexpressions hr ht hm)
  case h_8 => exact h.block hr ht hn
  case h_9 | h_10 =>
    cases hn
    exact h.of_children rfl rfl rfl rfl (by simp [Node.children])
  case h_11 => exact h.ifStatement hr ht hn
  case h_12 => exact h.switchStatement hr ht hn
  case h_13 | h_23 =>
    obtain ⟨test, htest, hn⟩ := bind_eq_ok_iff.1 hn
    obtain ⟨body, hb, hn⟩ := bind_eq_ok_iff.1 hn
    cases hn
    exact h.of_parts_body rfl rfl rfl rfl rfl (by simpa using h.field hr ht htest) (h.statementField hr ht hb)
  case h_14 =>
    obtain ⟨body, hb, hn⟩ := bind_eq_ok_iff.1 hn
    obtain ⟨test, htest, hn⟩ := bind_eq_ok_iff.1 hn
    cases hn
    refine h.of_children rfl rfl rfl rfl fun c hc => ?_
    simp only [Node.children, List.mem_cons, Option.mem_toList] at hc
    rcases hc with rfl | hc
    · exact h.statementField hr ht hb
    · exact h.field hr ht htest c hc
  case h_15 =>
    obtain ⟨header, hh, hn⟩ := bind_eq_ok_iff.1 hn
    obtain ⟨body, hb, hn⟩ := bind_eq_ok_iff.1 hn
    cases hn
    exact h.of_parts_body rfl rfl rfl rfl rfl (h.loopHeader hr ht hh) (h.statementField hr ht hb)
  case h_16 =>
    obtain ⟨operator, -, hn⟩ := bind_eq_ok_iff.1 hn
    obtain ⟨header, hh, hn⟩ := bind_eq_ok_iff.1 hn
    obtain ⟨body, hb, hn⟩ := bind_eq_ok_iff.1 hn
    cases hn
    exact h.of_parts_body rfl rfl rfl rfl rfl (h.loopHeader hr ht hh) (h.statementField hr ht hb)
  case h_19 | h_20 =>
    obtain ⟨label, -, hn⟩ := bind_eq_ok_iff.1 hn
    cases hn
    exact h.of_children rfl rfl rfl rfl (by simp [Node.children])
  case h_21 =>
    obtain ⟨label, -, hn⟩ := bind_eq_ok_iff.1 hn
    obtain ⟨body, hb, hn⟩ := bind_eq_ok_iff.1 hn
    cases hn
    exact h.of_parts_body rfl rfl rfl rfl (rfl : _ = [] ++ [body]) (by simp) (h.statementField hr ht hb)
  case h_22 => exact h.tryStatement hr ht hn
  case h_24 | h_25 =>
    obtain ⟨expressions, he, hn⟩ := bind_eq_ok_iff.1 hn
    cases hn
    exact h.of_children rfl rfl rfl rfl (h.subexpressions hr ht he)
  case h_26 =>
    obtain ⟨elements, he, hn⟩ := bind_eq_ok_iff.1 hn
    cases hn
    have hpart : parts (.composite (spanOf src t) t.kind elements) :=
      h.of_children rfl rfl rfl rfl (h.subexpressions hr ht he)
    exact h.of_children rfl rfl rfl rfl (by simpa [Node.children] using hpart)

end Closed

/-! ## Whole programs -/

variable (h : Closed src trees parts bodies)

include h

/-- **Every level of lowering gives what the constructions keep.** -/
theorem Closed.reading_gives (depth : ℕ) : (reading src depth).Gives trees parts := by
  induction depth with
  | zero =>
    constructor
    · intro keep t n _ hn
      cases hn
    · intro t o _ _ ho
      cases ho
    · intro t n _ hn
      cases hn
  | succ depth ih =>
    exact ⟨fun ht hn => (h.readExpression ih ht hn).2 _ rfl,
      fun ht hcomment ho => (h.readExpression ih ht ho).1 hcomment rfl, fun ht hn => h.readStatement ih ht hn⟩

/-- a program is directives, then statements -/
theorem Closed.program_body {depth : ℕ} {root : Tree} {program : Node} (hroot : trees root)
    (hprogram : Lowering.program depth src root = .ok program) :
    ∃ directives statements, program = .program (spanOf src root) (directives ++ statements) ∧
      (∀ d ∈ directives, d.isDirective = true) ∧ ∀ s ∈ statements, parts s := by
  obtain ⟨body, hb, hprogram⟩ := bind_eq_ok_iff.1 hprogram
  cases hprogram
  obtain ⟨directives, statements, rfl, hdirectives, hstatements⟩ :=
    Closed.prologue (h.reading_gives depth) (h.inside_parts hroot) hb
  exact ⟨directives, statements, rfl, hdirectives, hstatements⟩

end Lowering

end Turnstile
