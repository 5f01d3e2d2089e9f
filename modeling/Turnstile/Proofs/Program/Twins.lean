/-
Trees that are lowered alike.

Lowering looks at the types of nodes, at their fields, at the text they cover and at where they are, and it skips comments.
- `Thinned`: two lists of trees, item by item, the second possibly without comments that stand in no field;
- `Twins`: two trees over two sources, node by node of the same type with the same text, the second a fixed number of bytes
  and lines further on;
- `Reading.Mirrors`: readings that give moved nodes for twins. One level of lowering keeps this, one lemma for each step;
- `program_of_twins`: twins are lowered to the same program, moved.
-/
import Turnstile.Proofs.Program.Displacement
import Turnstile.Proofs.Program.Reading

namespace Turnstile

/-! ## Lists without some comments -/

/-- two lists of trees, item by item in a relation; the second may lack comments of the first that stand in no field -/
inductive Thinned (R : Tree → Tree → Prop) : List Tree → List Tree → Prop where
  | nil : Thinned R [] []
  | keep {t t' : Tree} {ts ts' : List Tree} (related : R t t') (rest : Thinned R ts ts') : Thinned R (t :: ts) (t' :: ts')
  | drop {t : Tree} {ts ts' : List Tree} (comment : t.isComment = true) (noField : t.field = none)
      (rest : Thinned R ts ts') : Thinned R (t :: ts) ts'

namespace Thinned

variable {R S : Tree → Tree → Prop} {ts ts' : List Tree}

theorem mono (h : Thinned R ts ts') (hRS : ∀ t ∈ ts, ∀ t', R t t' → S t t') : Thinned S ts ts' := by
  induction h with
  | nil => exact .nil
  | keep related rest ih =>
    exact .keep (hRS _ List.mem_cons_self _ related) (ih fun t ht => hRS t (List.mem_cons_of_mem _ ht))
  | drop comment noField rest ih => exact .drop comment noField (ih fun t ht => hRS t (List.mem_cons_of_mem _ ht))

section Predicate

variable {p : Tree → Bool}

/-- a test that related items pass together finds the same item, if it does not find what is missing -/
theorem find? (h : Thinned R ts ts') (hp : ∀ t t', R t t' → p t' = p t)
    (hdrop : ∀ t, t.isComment = true → t.field = none → p t = false) : Option.Rel R (ts.find? p) (ts'.find? p) := by
  induction h with
  | nil => exact .none
  | @keep t t' ts ts' related rest ih =>
    have hpt := hp t t' related
    by_cases ht : p t = true
    · rw [List.find?_cons_of_pos ht, List.find?_cons_of_pos (hpt.trans ht)]
      exact .some related
    · rw [List.find?_cons_of_neg ht, List.find?_cons_of_neg (by rwa [hpt])]
      exact ih
  | @drop t ts ts' comment noField rest ih =>
    rw [List.find?_cons_of_neg (by simp [hdrop t comment noField])]
    exact ih

/-- the items that pass such a test pair up -/
theorem filter (h : Thinned R ts ts') (hp : ∀ t t', R t t' → p t' = p t)
    (hdrop : ∀ t, t.isComment = true → t.field = none → p t = false) :
    List.Forall₂ R (ts.filter p) (ts'.filter p) := by
  induction h with
  | nil => exact .nil
  | @keep t t' ts ts' related rest ih =>
    have hpt := hp t t' related
    by_cases ht : p t = true
    · rw [List.filter_cons_of_pos ht, List.filter_cons_of_pos (hpt.trans ht)]
      exact .cons related ih
    · rw [List.filter_cons_of_neg ht, List.filter_cons_of_neg (by rwa [hpt])]
      exact ih
  | @drop t ts ts' comment noField rest ih =>
    rw [List.filter_cons_of_neg (by simp [hdrop t comment noField])]
    exact ih

/-- without the first item that passes -/
theorem eraseP (h : Thinned R ts ts') (hp : ∀ t t', R t t' → p t' = p t)
    (hdrop : ∀ t, t.isComment = true → t.field = none → p t = false) : Thinned R (ts.eraseP p) (ts'.eraseP p) := by
  induction h with
  | nil => exact .nil
  | @keep t t' ts ts' related rest ih =>
    have hpt := hp t t' related
    by_cases ht : p t = true
    · rw [List.eraseP_cons_of_pos ht, List.eraseP_cons_of_pos (hpt.trans ht)]
      exact rest
    · rw [List.eraseP_cons_of_neg ht, List.eraseP_cons_of_neg (by rwa [hpt])]
      exact .keep related ih
  | @drop t ts ts' comment noField rest ih =>
    rw [List.eraseP_cons_of_neg (by simp [hdrop t comment noField])]
    exact .drop comment noField ih

/-- from the first item on that does not pass, if what is missing passes -/
theorem dropWhile (h : Thinned R ts ts') (hp : ∀ t t', R t t' → p t' = p t)
    (hdrop : ∀ t, t.isComment = true → t.field = none → p t = true) :
    (ts.dropWhile p = [] ∧ ts'.dropWhile p = []) ∨
    ∃ c c' cs cs', ts.dropWhile p = c :: cs ∧ ts'.dropWhile p = c' :: cs' ∧ R c c' ∧ Thinned R cs cs' := by
  induction h with
  | nil => exact Or.inl ⟨rfl, rfl⟩
  | @keep t t' ts ts' related rest ih =>
    have hpt := hp t t' related
    by_cases ht : p t = true
    · rw [List.dropWhile_cons_of_pos ht, List.dropWhile_cons_of_pos (hpt.trans ht)]
      exact ih
    · rw [List.dropWhile_cons_of_neg ht, List.dropWhile_cons_of_neg (by rwa [hpt])]
      exact Or.inr ⟨t, t', ts, ts', rfl, rfl, related, rest⟩
  | @drop t ts ts' comment noField rest ih =>
    rw [List.dropWhile_cons_of_pos (hdrop t comment noField)]
    exact ih

end Predicate

end Thinned

/-! ## Twins -/

namespace Lowering

/-- the same nodes over two sources: same types, same texts, and each a number of bytes and lines further on -/
inductive Twins (src src' : SourceText) (bytes lines : ℕ) : Tree → Tree → Prop where
  | mk {t t' : Tree} (kind : t'.kind = t.kind) (named : t'.named = t.named) (field : t'.field = t.field)
      (span : spanOf src' t' = (spanOf src t).moved bytes lines) (text : textOf src' t' = textOf src t)
      (children : Thinned (Twins src src' bytes lines) t.children t'.children) : Twins src src' bytes lines t t'

namespace Twins

variable {src src' : SourceText} {bytes lines : ℕ} {t t' : Tree}

theorem kind (h : Twins src src' bytes lines t t') : t'.kind = t.kind := by
  cases h with
  | mk kind named field span text children => exact kind

theorem field (h : Twins src src' bytes lines t t') : t'.field = t.field := by
  cases h with
  | mk kind named field span text children => exact field

theorem span (h : Twins src src' bytes lines t t') : spanOf src' t' = (spanOf src t).moved bytes lines := by
  cases h with
  | mk kind named field span text children => exact span

theorem stop (h : Twins src src' bytes lines t t') : t'.stop = t.stop + bytes := congrArg Span.stop h.span

theorem text (h : Twins src src' bytes lines t t') : textOf src' t' = textOf src t := by
  cases h with
  | mk kind named field span text children => exact text

theorem children (h : Twins src src' bytes lines t t') : Thinned (Twins src src' bytes lines) t.children t'.children := by
  cases h with
  | mk kind named field span text children => exact children

theorem isComment (h : Twins src src' bytes lines t t') : t'.isComment = t.isComment := by
  rw [Tree.isComment, h.kind, Tree.isComment]

theorem isPart (h : Twins src src' bytes lines t t') :
    (t'.named && !t'.isComment) = (t.named && !t.isComment) := by
  rw [h.isComment]
  cases h with
  | mk kind named => rw [named]

/-- a field holds twins, or nothing in both trees -/
theorem child?_cases (h : Twins src src' bytes lines t t') (field : String) :
    (t.child? field = none ∧ t'.child? field = none) ∨
    ∃ c c', t.child? field = some c ∧ t'.child? field = some c' ∧ Twins src src' bytes lines c c' := by
  have hrel : Option.Rel (Twins src src' bytes lines) (t.child? field) (t'.child? field) := by
    refine h.children.find? ?_ ?_
    · intro c c' hc
      rw [hc.field]
    · intro c _ hfield
      rw [hfield]
      rfl
  generalize t.child? field = o, t'.child? field = o' at hrel ⊢
  cases hrel with
  | none => exact Or.inl ⟨rfl, rfl⟩
  | some hc => exact Or.inr ⟨_, _, rfl, rfl, hc⟩

theorem parts (h : Twins src src' bytes lines t t') : List.Forall₂ (Twins src src' bytes lines) t.parts t'.parts := by
  refine h.children.filter (fun c c' hc => hc.isPart) ?_
  intro c hcomment _
  simp [hcomment]

/-- the parts of a loop other than its body -/
theorem loopParts (h : Twins src src' bytes lines t t') :
    List.Forall₂ (Twins src src' bytes lines) (loopParts t) (loopParts t') := by
  have hrest := h.children.eraseP (p := fun c => c.field == some "body")
    (fun c c' hc => by rw [hc.field]) (fun c _ hfield => by rw [hfield]; rfl)
  refine hrest.filter (fun c c' hc => hc.isPart) ?_
  intro c hcomment _
  simp [hcomment]

/-- what follows the first colon -/
theorem fromColon (h : Twins src src' bytes lines t t') :
    (t.children.dropWhile (fun c => c.kind ≠ ":") = [] ∧ t'.children.dropWhile (fun c => c.kind ≠ ":") = []) ∨
    ∃ c c' cs cs', t.children.dropWhile (fun c => c.kind ≠ ":") = c :: cs ∧
      t'.children.dropWhile (fun c => c.kind ≠ ":") = c' :: cs' ∧
      Twins src src' bytes lines c c' ∧ Thinned (Twins src src' bytes lines) cs cs' := by
  refine h.children.dropWhile ?_ ?_
  · intro c c' hc
    rw [hc.kind]
  · intro c hcomment _
    simp only [Tree.isComment, Bool.or_eq_true, decide_eq_true_eq] at hcomment
    rcases hcomment with (hkind | hkind) | hkind <;> simp [hkind]

end Twins


/-! ## One level of lowering -/

section Level

variable {src src' : SourceText} {bytes lines : ℕ}

/-- readings that give moved nodes for twins -/
structure Reading.Mirrors (src src' : SourceText) (bytes lines : ℕ) (r r' : Reading) : Prop where
  expression : ∀ keep {t t'}, Twins src src' bytes lines t t' →
    r'.expression keep t' = Option.map (Node.moved bytes lines) <$> r.expression keep t
  statement : ∀ {t t'}, Twins src src' bytes lines t t' →
    r'.statement t' = Node.moved bytes lines <$> r.statement t

variable {r r' : Reading} {t t' : Tree}

/-- lists read item by item -/
theorem mapM_of_forall₂ {α β γ δ : Type} {R : α → β → Prop} {xs : List α} {xs' : List β} {f : α → Result γ}
    {f' : β → Result δ} {φ : γ → δ} (h : List.Forall₂ R xs xs') (hf : ∀ a b, R a b → f' b = φ <$> f a) :
    xs'.mapM f' = List.map φ <$> xs.mapM f := by
  induction h with
  | nil => rfl
  | cons related _ ih =>
    rw [List.mapM_cons, List.mapM_cons, hf _ _ related, ih]
    simp

/-- one step after another -/
theorem bind_eq_map_bind {α β γ δ : Type} {x : Result α} {x' : Result β} {f : α → Result γ} {f' : β → Result δ}
    {φ : α → β} {ψ : γ → δ} (hx : x' = φ <$> x) (hf : ∀ a, f' (φ a) = ψ <$> f a) : (x' >>= f') = ψ <$> (x >>= f) := by
  subst hx
  cases x with
  | error e => rfl
  | ok a => exact hf a

/-! ### What is read of fields and parts -/

theorem Twins.textOf? (h : Twins src src' bytes lines t t') (field : String) :
    textOf? src' (t'.child? field) = textOf? src (t.child? field) := by
  rcases h.child?_cases field with ⟨hc, hc'⟩ | ⟨c, c', hc, hc', hcc⟩
  · rw [hc, hc']
    rfl
  · rw [hc, hc', Lowering.textOf?, hcc.text, Lowering.textOf?]

theorem Twins.required (h : Twins src src' bytes lines t t') {α : Type} {k k' : Tree → Result α} {φ : α → α}
    (field : String) (hk : ∀ c c', Twins src src' bytes lines c c' → k' c' = φ <$> k c) :
    (required t' field >>= k') = φ <$> (required t field >>= k) := by
  unfold Lowering.required
  rcases h.child?_cases field with ⟨hc, hc'⟩ | ⟨c, c', hc, hc', hcc⟩
  · rw [hc, hc']
    rfl
  · rw [hc, hc']
    exact hk c c' hcc

theorem filterMap_moved (os : List (Option Node)) : (os.map (Option.map (Node.moved bytes lines))).filterMap id =
    (os.filterMap id).map (Node.moved bytes lines) := by
  induction os with
  | nil => rfl
  | cons o os ih => cases o <;> simpa using ih

namespace Reading.Mirrors

theorem field (hr : Mirrors src src' bytes lines r r') (h : Twins src src' bytes lines t t') (keep : Bool)
    (field : String) : r'.field keep t' field = Option.map (Node.moved bytes lines) <$> r.field keep t field := by
  unfold Reading.field
  rcases h.child?_cases field with ⟨hc, hc'⟩ | ⟨c, c', hc, hc', hcc⟩
  · rw [hc, hc']
    rfl
  · rw [hc, hc']
    exact hr.expression keep hcc

theorem firstPart (hr : Mirrors src src' bytes lines r r') (h : Twins src src' bytes lines t t') :
    r'.firstPart t' = Option.map (Node.moved bytes lines) <$> r.firstPart t := by
  have hparts := h.parts
  unfold Reading.firstPart
  generalize t.parts = ts, t'.parts = ts' at hparts ⊢
  cases hparts with
  | nil => rfl
  | cons hc _ => exact hr.expression false hc

/-- what is read item by item, absent items left out -/
theorem filterMap {f f' : Tree → Result (Option Node)} {ts ts' : List Tree}
    (h : List.Forall₂ (Twins src src' bytes lines) ts ts')
    (hf : ∀ c c', Twins src src' bytes lines c c' → f' c' = Option.map (Node.moved bytes lines) <$> f c) :
    (List.filterMap id <$> ts'.mapM f') =
      List.map (Node.moved bytes lines) <$> (List.filterMap id <$> ts.mapM f) := by
  rw [mapM_of_forall₂ h hf, Functor.map_map, Functor.map_map]
  congr 1
  funext os
  exact filterMap_moved os

theorem expressions (hr : Mirrors src src' bytes lines r r') {ts ts' : List Tree}
    (h : List.Forall₂ (Twins src src' bytes lines) ts ts') :
    r'.expressions ts' = List.map (Node.moved bytes lines) <$> r.expressions ts :=
  filterMap h fun _ _ hc => hr.expression false hc

theorem subexpressions (hr : Mirrors src src' bytes lines r r') (h : Twins src src' bytes lines t t') :
    r'.subexpressions t' = List.map (Node.moved bytes lines) <$> r.subexpressions t :=
  hr.expressions h.parts

theorem statements (hr : Mirrors src src' bytes lines r r') {ts ts' : List Tree}
    (h : List.Forall₂ (Twins src src' bytes lines) ts ts') :
    ts'.mapM r'.statement = List.map (Node.moved bytes lines) <$> ts.mapM r.statement :=
  mapM_of_forall₂ h fun _ _ hc => hr.statement hc

theorem statementField (hr : Mirrors src src' bytes lines r r') (h : Twins src src' bytes lines t t') (field : String) :
    r'.statementField t' field = Node.moved bytes lines <$> r.statementField t field :=
  h.required field fun _ _ hc => hr.statement hc

/-! ### Declarations and blocks -/

theorem declarators (h : Twins src src' bytes lines t t') :
    List.Forall₂ (Twins src src' bytes lines) (declaratorsOf t) (declaratorsOf t') := by
  have hparts := h.parts
  unfold declaratorsOf
  generalize t.parts = ts, t'.parts = ts' at hparts ⊢
  induction hparts with
  | nil => exact .nil
  | @cons c c' cs cs' hc _ ih =>
    by_cases hkind : c.kind = "variable_declarator"
    · simpa [hkind, hc.kind] using ⟨hc, ih⟩
    · simpa [hkind, hc.kind] using ih

theorem initializers (hr : Mirrors src src' bytes lines r r') (h : Twins src src' bytes lines t t') :
    r'.initializers t' = List.map (Node.moved bytes lines) <$> r.initializers t := by
  have hfield : ∀ {d d' : Tree}, Twins src src' bytes lines d d' → ∀ field,
      List.Forall₂ (Twins src src' bytes lines) (d.child? field).toList (d'.child? field).toList := by
    intro d d' hd field
    rcases hd.child?_cases field with ⟨hc, hc'⟩ | ⟨c, c', hc, hc', hcc⟩
    · rw [hc, hc']
      exact .nil
    · rw [hc, hc']
      exact .cons hcc .nil
  refine hr.expressions ?_
  have hdeclarators := declarators h
  generalize declaratorsOf t = ds, declaratorsOf t' = ds' at hdeclarators ⊢
  induction hdeclarators with
  | nil => exact .nil
  | @cons d d' ds ds' hd _ ih =>
    rw [List.flatMap_cons, List.flatMap_cons]
    exact List.rel_append (List.rel_append (hfield hd "name") (hfield hd "value")) ih

theorem declarator {d d' : Tree} (h : Twins src src' bytes lines d d') :
    Lowering.declarator src' d' = Lowering.declarator src d := by
  have hvalue : (d'.child? "value").isSome = (d.child? "value").isSome := by
    rcases h.child?_cases "value" with ⟨hc, hc'⟩ | ⟨c, c', hc, hc', -⟩
    · rw [hc, hc']
    · rw [hc, hc', Option.isSome_some, Option.isSome_some]
  unfold Lowering.declarator
  rw [hvalue]
  rcases h.child?_cases "name" with ⟨hc, hc'⟩ | ⟨c, c', hc, hc', hcc⟩
  · rw [hc, hc']
  · rw [hc, hc']
    dsimp only
    rw [hcc.kind, hcc.text]

theorem declaration (hr : Mirrors src src' bytes lines r r') (h : Twins src src' bytes lines t t') (keyword : String) :
    r'.declaration src' t' keyword = Node.moved bytes lines <$> r.declaration src t keyword := by
  have hdeclarators : (declaratorsOf t').mapM (Lowering.declarator src') =
      (declaratorsOf t).mapM (Lowering.declarator src) := by
    rw [mapM_of_forall₂ (φ := id) (declarators h) fun d d' hd => by rw [declarator hd, id_map]]
    simp
  unfold Reading.declaration
  rw [hr.initializers h, hdeclarators, h.span]
  simp [Node.moved]

theorem block (hr : Mirrors src src' bytes lines r r') (h : Twins src src' bytes lines t t') :
    r'.block src' t' = Node.moved bytes lines <$> r.block src t := by
  unfold Reading.block
  rw [hr.statements h.parts, h.span]
  simp [Node.moved]

theorem blockField (hr : Mirrors src src' bytes lines r r') (h : Twins src src' bytes lines t t') (field : String) :
    r'.blockField src' t' field = Node.moved bytes lines <$> r.blockField src t field :=
  h.required field fun _ _ hc => hr.block hc

theorem directiveValue? (h : Twins src src' bytes lines t t') :
    directiveValue? src' t' = directiveValue? src t := by
  have hparts := h.parts
  unfold Lowering.directiveValue?
  rw [h.kind]
  generalize t.parts = ts, t'.parts = ts' at hparts ⊢
  cases hparts with
  | nil => rfl
  | cons hc hrest =>
    cases hrest with
    | nil => simp only [hc.kind, hc.text]
    | cons _ _ => rfl

theorem prologue (hr : Mirrors src src' bytes lines r r') {ts ts' : List Tree}
    (h : List.Forall₂ (Twins src src' bytes lines) ts ts') :
    r'.prologue src' ts' = List.map (Node.moved bytes lines) <$> r.prologue src ts := by
  induction h with
  | nil => rfl
  | @cons t t' ts ts' ht hts ih =>
    rw [Reading.prologue, Reading.prologue, directiveValue? ht, ih, hr.statements (.cons ht hts), ht.span]
    simp only [map_bind, bind_map_left]
    congr 1
    funext value
    cases value <;> simp [Node.moved]

theorem functionBlock (hr : Mirrors src src' bytes lines r r') (h : Twins src src' bytes lines t t') :
    r'.functionBlock src' t' = Node.moved bytes lines <$> r.functionBlock src t := by
  unfold Reading.functionBlock
  rw [hr.prologue h.parts, h.span]
  simp [Node.moved]

/-! ### Functions -/

theorem parameters (hr : Mirrors src src' bytes lines r r') (h : Twins src src' bytes lines t t') :
    r'.parameters t' = List.map (Node.moved bytes lines) <$> r.parameters t := by
  unfold Reading.parameters
  rcases h.child?_cases "parameters" with ⟨hc, hc'⟩ | ⟨c, c', hc, hc', hcc⟩
  · rw [hc, hc']
    rfl
  · rw [hc, hc']
    exact hr.subexpressions hcc

theorem functionBody (hr : Mirrors src src' bytes lines r r') (h : Twins src src' bytes lines t t') :
    r'.functionBody src' t' = Option.map (Node.moved bytes lines) <$> r.functionBody src t := by
  unfold Reading.functionBody
  rw [h.kind, hr.functionBlock h, hr.expression true h]
  split
  · simp
  · rfl

theorem function (hr : Mirrors src src' bytes lines r r') (h : Twins src src' bytes lines t t') (form : FunctionForm) :
    r'.function src' t' form = Node.moved bytes lines <$> r.function src t form := by
  have hname : functionName src' t' form = functionName src t form := by
    unfold functionName
    rw [h.textOf? "name"]
  rw [function_eq, function_eq, hname, h.span]
  refine bind_eq_map_bind (hr.parameters h) fun parameters => ?_
  refine h.required "body" fun b b' hb => ?_
  rw [hr.functionBody hb]
  simp [Node.moved]

/-! ### Expressions -/

theorem conditional (hr : Mirrors src src' bytes lines r r') (h : Twins src src' bytes lines t t') :
    r'.conditional src' t' = Option.map (Node.moved bytes lines) <$> r.conditional src t := by
  unfold Reading.conditional
  rw [hr.field h, hr.field h, hr.field h, h.span]
  simp [Node.moved]

theorem elements (hr : Mirrors src src' bytes lines r r') (h : Twins src src' bytes lines t t') :
    r'.elements t' = List.map (Node.moved bytes lines) <$> r.elements t := by
  unfold Reading.elements
  rw [isDeclaration, h.kind, hr.initializers h, hr.subexpressions h, isDeclaration]
  split <;> rfl

theorem composite (hr : Mirrors src src' bytes lines r r') (h : Twins src src' bytes lines t t') (keep : Bool) :
    r'.composite src' t' keep = Option.map (Node.moved bytes lines) <$> r.composite src t keep := by
  unfold Reading.composite
  rw [hr.elements h, h.span, h.kind]
  simp only [bind_map_left, map_bind, map_pure]
  congr 1
  funext ns
  cases ns <;> cases keep <;> simp [Node.moved]

theorem logicalOperator? (h : Twins src src' bytes lines t t') :
    Lowering.logicalOperator? src' t' = Lowering.logicalOperator? src t := by
  unfold Lowering.logicalOperator?
  rw [h.kind, h.textOf? "operator"]


/-- operators with twins for their nodes -/
abbrev TwinSteps (src src' : SourceText) (bytes lines : ℕ) : List (Tree × String) → List (Tree × String) → Prop :=
  List.Forall₂ fun step step' => Twins src src' bytes lines step.1 step'.1 ∧ step'.2 = step.2

/-- a chain of operators taken apart, and what is done with its steps -/
theorem chainOnto_bind {α β : Type} {φ : α → β} {k : List (Tree × String) × Option Tree → Result α}
    {k' : List (Tree × String) × Option Tree → Result β} {done done' : List (Tree × String)}
    (hdone : TwinSteps src src' bytes lines done done') (h : Twins src src' bytes lines t t')
    (hk : ∀ steps steps' first first', TwinSteps src src' bytes lines steps steps' →
      Option.Rel (Twins src src' bytes lines) first first' → k' (steps', first') = φ <$> k (steps, first)) :
    (chainOnto src' done' t' >>= k') = φ <$> (chainOnto src done t >>= k) := by
  induction hsize : sizeOf t using Nat.strong_induction_on generalizing t t' done done' with
  | _ size ih =>
    subst hsize
    rw [chainOnto_eq, chainOnto_eq, logicalOperator? h]
    cases Lowering.logicalOperator? src t with
    | error e => rfl
    | ok operator =>
      cases operator with
      | none => exact hk _ _ _ _ hdone (.some h)
      | some operator =>
        have hstep : TwinSteps src src' bytes lines ((t, operator) :: done) ((t', operator) :: done') :=
          .cons ⟨h, rfl⟩ hdone
        rcases h.child?_cases "left" with ⟨hc, hc'⟩ | ⟨c, c', hc, hc', hcc⟩
        · rw [hc, hc']
          exact hk _ _ _ _ hstep .none
        · have hlt := Tree.sizeOf_lt_of_mem_children (Tree.mem_children_of_child? hc)
          rw [hc, hc']
          exact ih _ hlt hstep hcc rfl

theorem applyOperators (hr : Mirrors src src' bytes lines r r') {steps steps' : List (Tree × String)}
    (h : TwinSteps src src' bytes lines steps steps') (left : Option Node) :
    steps'.foldlM (r'.applyOperator src') (left.map (Node.moved bytes lines)) =
      Option.map (Node.moved bytes lines) <$> steps.foldlM (r.applyOperator src) left := by
  induction h generalizing left with
  | nil => rfl
  | @cons step step' steps steps' hstep _ ih =>
    obtain ⟨hnode, hoperator⟩ := hstep
    have happly : r'.applyOperator src' (left.map (Node.moved bytes lines)) step' =
        Option.map (Node.moved bytes lines) <$> r.applyOperator src left step := by
      unfold Reading.applyOperator
      rw [hr.field hnode, hnode.span, hoperator]
      simp [Node.moved]
    rw [List.foldlM_cons, List.foldlM_cons]
    exact bind_eq_map_bind happly fun next => ih next

theorem logical (hr : Mirrors src src' bytes lines r r') (h : Twins src src' bytes lines t t') :
    r'.logical src' t' = Option.map (Node.moved bytes lines) <$> r.logical src t := by
  unfold Reading.logical
  refine chainOnto_bind .nil h fun steps steps' first first' hsteps hfirst => ?_
  cases hfirst with
  | none => exact hr.applyOperators hsteps none
  | some hf => exact bind_eq_map_bind (hr.expression true hf) fun left => hr.applyOperators hsteps left

theorem functionForm? (h : Twins src src' bytes lines t t') : Lowering.functionForm? t' = Lowering.functionForm? t := by
  unfold Lowering.functionForm?
  rw [h.kind]

theorem readExpression (hr : Mirrors src src' bytes lines r r') (keep : Bool) (h : Twins src src' bytes lines t t') :
    r'.readExpression src' keep t' = Option.map (Node.moved bytes lines) <$> r.readExpression src keep t := by
  rw [readExpression_eq, readExpression_eq, h.isComment, functionForm? h, h.kind]
  split
  · rfl
  cases Lowering.functionForm? t with
  | some form =>
    dsimp only
    rw [hr.function h]
    simp
  | none =>
    dsimp only
    split
    · exact hr.conditional h
    refine bind_eq_map_bind (φ := id) (by rw [logicalOperator? h, id_map]) fun operator => ?_
    cases operator with
    | some operator => exact hr.logical h
    | none =>
      dsimp only [id_eq]
      split
      · refine bind_eq_map_bind (hr.blockField h "body") fun n => ?_
        rw [h.span]
        simp [Node.moved]
      split
      · rw [hr.block h]
        simp
      · exact hr.composite h keep

/-! ### Statements -/

theorem catchClause (hr : Mirrors src src' bytes lines r r') (h : Twins src src' bytes lines t t') :
    r'.catchClause src' t' = Node.moved bytes lines <$> r.catchClause src t := by
  unfold Reading.catchClause
  refine bind_eq_map_bind (hr.field h false "parameter") fun parameter => ?_
  refine h.required "body" fun b b' hb => ?_
  rw [hr.block hb, h.span]
  simp [Node.moved]

theorem elseClause (hr : Mirrors src src' bytes lines r r') (h : Twins src src' bytes lines t t') :
    r'.elseClause t' = Node.moved bytes lines <$> r.elseClause t := by
  have hparts := h.parts
  unfold Reading.elseClause
  generalize t.parts = ts, t'.parts = ts' at hparts ⊢
  cases hparts with
  | nil => rfl
  | cons hc _ => exact hr.statement hc

theorem optionally (h : Twins src src' bytes lines t t') (field : String) {read read' : Tree → Result Node}
    (hread : ∀ c c', Twins src src' bytes lines c c' → read' c' = Node.moved bytes lines <$> read c) :
    Reading.optionally t' field read' = Option.map (Node.moved bytes lines) <$> Reading.optionally t field read := by
  unfold Reading.optionally
  rcases h.child?_cases field with ⟨hc, hc'⟩ | ⟨c, c', hc, hc', hcc⟩
  · rw [hc, hc']
    rfl
  · rw [hc, hc']
    dsimp only
    rw [hread c c' hcc]
    simp

theorem ifStatement (hr : Mirrors src src' bytes lines r r') (h : Twins src src' bytes lines t t') :
    r'.ifStatement src' t' = Node.moved bytes lines <$> r.ifStatement src t := by
  rw [ifStatement_eq, ifStatement_eq, optionally h "alternative" fun c c' hc => hr.elseClause hc, hr.field h,
    hr.statementField h, h.span]
  simp [Node.moved]

theorem switchCase (hr : Mirrors src src' bytes lines r r') (h : Twins src src' bytes lines t t') :
    r'.switchCase src' t' = Node.moved bytes lines <$> r.switchCase src t := by
  unfold Reading.switchCase
  rcases h.fromColon with ⟨hc, hc'⟩ | ⟨c, c', cs, cs', hc, hc', hcc, hrest⟩
  · rw [hc, hc', hr.field h, h.span, h.stop]
    simp [Node.moved]
  · have hbody := hrest.filter (p := fun c => c.named && !c.isComment) (fun _ _ hd => hd.isPart)
      (fun d hcomment _ => by simp [hcomment])
    rw [hc, hc', hr.field h, h.span]
    simp only [List.drop_succ_cons, List.drop_zero, List.head?_cons, Option.map_some, Option.getD_some]
    rw [hr.statements hbody, hcc.stop]
    simp [Node.moved]

theorem switchStatement (hr : Mirrors src src' bytes lines r r') (h : Twins src src' bytes lines t t') :
    r'.switchStatement src' t' = Node.moved bytes lines <$> r.switchStatement src t := by
  unfold Reading.switchStatement
  refine h.required "body" fun b b' hb => ?_
  have hcases : List.Forall₂ (Twins src src' bytes lines) (b.parts.filter isSwitchCase) (b'.parts.filter isSwitchCase) := by
    have hparts := hb.parts
    generalize b.parts = ts, b'.parts = ts' at hparts ⊢
    induction hparts with
    | nil => exact .nil
    | @cons c c' cs cs' hc _ ih =>
      have hkind : isSwitchCase c' = isSwitchCase c := by rw [isSwitchCase, hc.kind, isSwitchCase]
      by_cases hcase : isSwitchCase c = true
      · simpa [hcase, hkind] using ⟨hc, ih⟩
      · simpa [hcase, hkind] using ih
  rw [mapM_of_forall₂ hcases fun c c' hc => hr.switchCase hc, hr.field h, h.span]
  simp [Node.moved]

theorem tryStatement (hr : Mirrors src src' bytes lines r r') (h : Twins src src' bytes lines t t') :
    r'.tryStatement src' t' = Node.moved bytes lines <$> r.tryStatement src t := by
  rw [tryStatement_eq, tryStatement_eq, optionally h "handler" fun c c' hc => hr.catchClause hc, hr.blockField h,
    optionally h "finalizer" fun c c' hc => hr.blockField hc "body", h.span]
  simp [Node.moved]

theorem loopPart (hr : Mirrors src src' bytes lines r r') (h : Twins src src' bytes lines t t') :
    r'.loopPart src' t' = Option.map (Node.moved bytes lines) <$> r.loopPart src t := by
  unfold Reading.loopPart
  rw [isDeclaration, isDeclaration, h.kind, hr.initializers h, hr.firstPart h, hr.expression false h, h.span]
  split
  · simp only [bind_map_left, map_bind, map_pure]
    congr 1
    funext ns
    cases ns <;> simp [Node.moved]
  · split <;> rfl

theorem loopHeader (hr : Mirrors src src' bytes lines r r') (h : Twins src src' bytes lines t t') :
    r'.loopHeader src' t' = List.map (Node.moved bytes lines) <$> r.loopHeader src t :=
  filterMap h.loopParts fun _ _ hc => hr.loopPart hc

theorem readStatement (hr : Mirrors src src' bytes lines r r') (h : Twins src src' bytes lines t t') :
    r'.readStatement src' t' = Node.moved bytes lines <$> r.readStatement src t := by
  have htext := fun field => h.textOf? field
  have hfield := fun keep field => hr.field h keep field
  have hbody := hr.statementField h "body"
  unfold Reading.readStatement
  rw [h.kind, h.span]
  dsimp only
  split <;> simp [Node.moved, htext, hfield, hbody, hr.firstPart h, hr.declaration h, hr.function h,
    hr.subexpressions h, hr.block h, hr.ifStatement h, hr.switchStatement h, hr.tryStatement h, hr.loopHeader h]

end Reading.Mirrors

end Level

/-! ## Whole programs -/

variable {src src' : SourceText} {bytes lines : ℕ}

/-- every level of lowering reads twins alike -/
theorem mirrors_reading (src src' : SourceText) (bytes lines depth : ℕ) :
    Reading.Mirrors src src' bytes lines (reading src depth) (reading src' depth) := by
  induction depth with
  | zero =>
    constructor
    · intro keep t t' _
      rfl
    · intro t t' _
      rfl
  | succ depth ih =>
    constructor
    · intro keep t t' h
      exact ih.readExpression keep h
    · intro t t' h
      exact ih.readStatement h

/-- **Twins are lowered alike.** A tree whose nodes are those of another tree elsewhere in a source, some comments missing, is
lowered to the program of the other, moved; or both fail with the same fault. -/
theorem program_of_twins (depth : ℕ) {root root' : Tree} (h : Twins src src' bytes lines root root') :
    program depth src' root' = Node.moved bytes lines <$> program depth src root := by
  unfold program
  rw [(mirrors_reading src src' bytes lines depth).prologue h.parts, h.span]
  simp [Node.moved]

end Lowering

end Turnstile
