/-
Lowering of intact trees.

Lowering has three ways to fail besides nesting that is too deep: a part that a type requires is absent, an else clause is
empty, a span cuts a character. None of them is met in an intact tree.
- `IsIntact`, `Intact`: a node that has what its type requires, and a tree of such nodes;
- `OnlyTooDeep`: results that may only fail because of nesting, which holds of a chain of steps if it holds of each;
- `Reading.Reliable`: a reading with such results on intact trees. One level of lowering keeps this, one lemma for each
  reading;
- `program_onlyTooDeep`: an intact tree has a program or is nested too deep.
-/
import Turnstile.Proofs.Program.Chains

namespace Turnstile

namespace Lowering

/-! ## Intact trees -/

/-- the types of nodes that must have a body -/
def bodiedKinds : List String :=
  ["switch_statement", "while_statement", "do_statement", "for_statement", "for_in_statement", "labeled_statement",
    "try_statement", "with_statement", "class_static_block"] ++ Tree.functionKinds

/-- something stands in a field -/
def hasField (field : String) (t : Tree) : Bool := (t.child? field).isSome

/-- a token that stands in no field, such as the keyword of a function; lowering reads none of these -/
def isBareToken (t : Tree) : Bool := !t.named && t.field.isNone

/-- A node that covers whole characters and has the parts that its type requires. What a condition or an attempt requires
of its clauses is said of the statement, where they are known by their fields. -/
structure IsIntact (src : SourceText) (t : Tree) : Prop where
  text : (src.slice? t.start t.stop).isSome = true
  body : isBareToken t = false → t.kind ∈ bodiedKinds → hasField "body" t = true
  consequence : t.kind = "if_statement" → hasField "consequence" t = true
  alternative : t.kind = "if_statement" → ∀ c ∈ t.child? "alternative", c.parts ≠ []
  handler : t.kind = "try_statement" → ∀ c ∈ t.child? "handler", hasField "body" c = true
  finalizer : t.kind = "try_statement" → ∀ c ∈ t.child? "finalizer", hasField "body" c = true

instance (src : SourceText) (t : Tree) : Decidable (IsIntact src t) :=
  decidable_of_iff ((src.slice? t.start t.stop).isSome = true ∧
      (isBareToken t = false → t.kind ∈ bodiedKinds → hasField "body" t = true) ∧
      (t.kind = "if_statement" → hasField "consequence" t = true ∧ ∀ c ∈ t.child? "alternative", c.parts ≠ []) ∧
      (t.kind = "try_statement" → (∀ c ∈ t.child? "handler", hasField "body" c = true) ∧
        ∀ c ∈ t.child? "finalizer", hasField "body" c = true))
    ⟨fun ⟨text, body, condition, attempt⟩ => ⟨text, body, fun h => (condition h).1, fun h => (condition h).2,
        fun h => (attempt h).1, fun h => (attempt h).2⟩,
      fun h => ⟨h.text, h.body, fun hkind => ⟨h.consequence hkind, h.alternative hkind⟩,
        fun hkind => ⟨h.handler hkind, h.finalizer hkind⟩⟩⟩

/-- a tree of such nodes -/
def Intact (src : SourceText) (t : Tree) : Prop := ∀ d ∈ t.nodes, IsIntact src d

instance (src : SourceText) (t : Tree) : Decidable (Intact src t) :=
  inferInstanceAs (Decidable (∀ d ∈ t.nodes, IsIntact src d))

variable {src : SourceText} {t : Tree}

theorem Intact.node (h : Intact src t) : IsIntact src t := h t t.self_mem_nodes

theorem Intact.inside (h : Intact src t) : ∀ c ∈ t.children, Intact src c :=
  fun _ hc d hd => h d (Tree.mem_nodes_of_mem_children hc hd)

/-- an intact tree that lowering may read -/
structure Readable (src : SourceText) (t : Tree) : Prop where
  isRead : isBareToken t = false
  intact : Intact src t

/-- what lowering reads of some children: tokens and comments are left out -/
theorem Intact.readable (h : Intact src t) {ts : List Tree} (hts : ts ⊆ t.children) :
    ∀ c ∈ ts.filter (fun c => c.named && !c.isComment), Readable src c := by
  intro c hc
  obtain ⟨hc, hpart⟩ := List.mem_filter.1 hc
  have hnamed : c.named = true := (Bool.and_eq_true_iff.1 hpart).1
  exact ⟨by simp [isBareToken, hnamed], h.inside c (hts hc)⟩

theorem Intact.parts (h : Intact src t) : ∀ c ∈ t.parts, Readable src c := h.readable (List.Subset.refl _)

theorem Readable.parts (h : Readable src t) : ∀ c ∈ t.parts, Readable src c := h.intact.parts

theorem Readable.child {c : Tree} {field : String} (h : Readable src t) (hc : t.child? field = some c) : Readable src c := by
  have hfield : c.field = some field := by simpa using List.find?_some hc
  exact ⟨by simp [isBareToken, hfield], h.intact.inside c (Tree.mem_children_of_child? hc)⟩

theorem Readable.node (h : Readable src t) : IsIntact src t := h.intact.node

theorem Readable.body (h : Readable src t) (hkind : t.kind ∈ bodiedKinds) : hasField "body" t = true :=
  h.node.body h.isRead hkind

/-! ## Results that fail only where nesting is too deep -/

variable {α β : Type}

/-- a result, unless nesting is too deep -/
def OnlyTooDeep (x : Result α) : Prop := ∀ e, x = .error e → e = .tooDeep

namespace OnlyTooDeep

theorem tooDeep : OnlyTooDeep (.error .tooDeep : Result α) := by
  rintro e ⟨⟩
  rfl

theorem ok (a : α) : OnlyTooDeep (.ok a : Result α) := by
  rintro e ⟨⟩

theorem bind {x : Result α} {f : α → Result β} (hx : OnlyTooDeep x) (hf : ∀ a, OnlyTooDeep (f a)) :
    OnlyTooDeep (x >>= f) := by
  cases x with
  | error e =>
    obtain rfl := hx e rfl
    exact tooDeep
  | ok a => exact hf a

theorem map {x : Result α} (hx : OnlyTooDeep x) (f : α → β) : OnlyTooDeep (f <$> x) := by
  rw [map_eq_pure_bind]
  exact hx.bind fun a => ok (f a)

theorem mapM {f : Tree → Result α} {ts : List Tree} (hf : ∀ t ∈ ts, OnlyTooDeep (f t)) : OnlyTooDeep (ts.mapM f) := by
  induction ts with
  | nil => exact ok []
  | cons t ts ih =>
    rw [List.forall_mem_cons] at hf
    rw [List.mapM_cons]
    exact hf.1.bind fun a => (ih hf.2).bind fun as => ok (a :: as)

theorem of_required {field : String} {f : Tree → Result α} (hfield : hasField field t = true)
    (hf : ∀ c, t.child? field = some c → OnlyTooDeep (f c)) : OnlyTooDeep (required t field >>= f) := by
  obtain ⟨c, hc⟩ := Option.isSome_iff_exists.1 hfield
  rw [required, hc]
  exact hf c hc

theorem of_optionally {field : String} {read : Tree → Result α}
    (hread : ∀ c, t.child? field = some c → OnlyTooDeep (read c)) : OnlyTooDeep (Reading.optionally t field read) := by
  unfold Reading.optionally
  split
  · next c hc => exact (hread c hc).map some
  · exact ok none

end OnlyTooDeep

/-! ### Texts -/

namespace Readable

open OnlyTooDeep

theorem textOf (h : Readable src t) : OnlyTooDeep (textOf src t) := by
  obtain ⟨s, hs⟩ := Option.isSome_iff_exists.1 h.node.text
  rw [Lowering.textOf, hs]
  exact ok s

theorem textOf? (h : Readable src t) (field : String) : OnlyTooDeep (textOf? src (t.child? field)) := by
  cases hc : t.child? field with
  | none => exact ok none
  | some c => exact (h.child hc).textOf.map some

theorem logicalOperator? (h : Readable src t) : OnlyTooDeep (logicalOperator? src t) := by
  unfold Lowering.logicalOperator?
  split
  · refine (h.textOf? "operator").bind fun operator => ?_
    cases operator with
    | none => exact ok none
    | some operator => exact ok _
  · exact ok none

theorem declarator (h : Readable src t) : OnlyTooDeep (declarator src t) := by
  unfold Lowering.declarator
  split
  · next c hc =>
    split
    · exact ((h.child hc).textOf.map some).bind fun name => ok _
    · exact ok _
  · exact ok _

theorem directiveValue? (h : Readable src t) : OnlyTooDeep (directiveValue? src t) := by
  unfold Lowering.directiveValue?
  split
  · split
    · next c hparts =>
      split
      · exact (h.parts c (by simp [hparts])).textOf.bind fun s => ok _
      · exact ok none
    · exact ok none
  · exact ok none

end Readable

/-! ## Readings of intact trees -/

/-- a reading that fails on intact trees only where they are nested too deep -/
structure Reading.Reliable (src : SourceText) (r : Reading) : Prop where
  expression : ∀ keep {t : Tree}, Readable src t → OnlyTooDeep (r.expression keep t)
  statement : ∀ {t : Tree}, Readable src t → OnlyTooDeep (r.statement t)

namespace Reading.Reliable

open OnlyTooDeep

variable {r : Reading} {ts : List Tree} (h : r.Reliable src) (ht : Readable src t)
  (hts : ∀ t ∈ ts, Readable src t)

include h

/-! ### Lists -/

section Lists

include hts

theorem expressions : OnlyTooDeep (r.expressions ts) := (mapM fun t ht => h.expression false (hts t ht)).map _

theorem statements : OnlyTooDeep (ts.mapM r.statement) := mapM fun t ht => h.statement (hts t ht)

/-- directives first, then statements -/
theorem prologue : OnlyTooDeep (r.prologue src ts) := by
  induction ts with
  | nil => exact ok []
  | cons t ts ih =>
    obtain ⟨ht, hrest⟩ := List.forall_mem_cons.1 hts
    rw [Reading.prologue]
    refine ht.directiveValue?.bind fun value => ?_
    cases value with
    | some value => exact (ih hrest).bind fun ns => ok _
    | none => exact h.statements hts

end Lists

/-! ### Fields and parts -/

include ht

theorem field (keep : Bool) (field : String) : OnlyTooDeep (r.field keep t field) := by
  unfold Reading.field
  split
  · next c hc => exact h.expression keep (ht.child hc)
  · exact ok none

theorem firstPart : OnlyTooDeep (r.firstPart t) := by
  unfold Reading.firstPart
  split
  · next c cs hcs => exact h.expression false (ht.parts c (hcs ▸ List.mem_cons_self))
  · exact ok none

theorem subexpressions : OnlyTooDeep (r.subexpressions t) := h.expressions ht.parts

theorem initializers : OnlyTooDeep (r.initializers t) := by
  refine h.expressions fun c hc => ?_
  obtain ⟨d, hd, hc⟩ := List.mem_flatMap.1 hc
  have hd := ht.parts d (List.mem_filter.1 hd).1
  rcases List.mem_append.1 hc with hc | hc
  · exact hd.child (Option.mem_toList.1 hc)
  · exact hd.child (Option.mem_toList.1 hc)

theorem declaration (keyword : String) : OnlyTooDeep (r.declaration src t keyword) := by
  unfold Reading.declaration
  refine (h.initializers ht).bind fun initializers => ?_
  refine (mapM fun d hd => (ht.parts d (List.mem_filter.1 hd).1).declarator).bind fun declarators => ?_
  exact ok _

theorem statementField {field : String} (hfield : hasField field t = true) : OnlyTooDeep (r.statementField t field) :=
  of_required hfield fun _ hc => h.statement (ht.child hc)

theorem block : OnlyTooDeep (r.block src t) := by
  unfold Reading.block
  exact (h.statements ht.parts).bind fun body => ok _

theorem blockField {field : String} (hfield : hasField field t = true) : OnlyTooDeep (r.blockField src t field) :=
  of_required hfield fun _ hc => h.block (ht.child hc)

/-! ### Functions -/

theorem functionBlock : OnlyTooDeep (r.functionBlock src t) := by
  unfold Reading.functionBlock
  exact (h.prologue ht.parts).bind fun body => ok _

theorem parameters : OnlyTooDeep (r.parameters t) := by
  unfold Reading.parameters
  split
  · next p hp => exact h.subexpressions (ht.child hp)
  · exact ok []

theorem functionBody : OnlyTooDeep (r.functionBody src t) := by
  unfold Reading.functionBody
  split
  · exact (h.functionBlock ht).map some
  · exact h.expression true ht

theorem function (form : FunctionForm) (hkind : t.kind ∈ Tree.functionKinds) : OnlyTooDeep (r.function src t form) := by
  have hbody : hasField "body" t = true := ht.body (List.mem_append_right _ hkind)
  have hname : OnlyTooDeep (functionName src t form) := by
    unfold functionName
    split
    · exact ok none
    · exact ht.textOf? "name"
  rw [function_eq]
  refine (h.parameters ht).bind fun parameters => ?_
  refine of_required hbody fun b hb => ?_
  refine (h.functionBody (ht.child hb)).bind fun body => ?_
  exact hname.bind fun name => ok _

/-! ### Expressions -/

theorem conditional : OnlyTooDeep (r.conditional src t) := by
  unfold Reading.conditional
  refine (h.field ht false _).bind fun test => ?_
  refine (h.field ht true _).bind fun consequent => ?_
  exact (h.field ht true _).bind fun alternate => ok _

theorem composite (keep : Bool) : OnlyTooDeep (r.composite src t keep) := by
  have helements : OnlyTooDeep (r.elements t) := by
    unfold elements
    split
    · exact h.initializers ht
    · exact h.subexpressions ht
  exact helements.bind fun elements => ok _

/-- a chain: what is left of the last operator is a chain again -/
theorem logical : OnlyTooDeep (r.logical src t) := by
  induction t using Tree.inductionOn with
  | step t ih =>
    cases hoperator : Lowering.logicalOperator? src t with
    | error e =>
      rw [logical_of_error hoperator, ht.logicalOperator? e hoperator]
      exact tooDeep
    | ok operator =>
      cases operator with
      | none =>
        rw [logical_of_operand hoperator]
        exact h.expression true ht
      | some operator =>
        have hleft : OnlyTooDeep (r.chainLeft src t) := by
          unfold chainLeft
          split
          · next left hc => exact ih left (Tree.mem_children_of_child? hc) (ht.child hc)
          · exact ok none
        rw [logical_of_operator hoperator]
        exact hleft.bind fun left => (h.field ht true "right").bind fun right => ok _

theorem readExpression (keep : Bool) : OnlyTooDeep (r.readExpression src keep t) := by
  rw [readExpression_eq]
  split
  · exact ok none
  split
  · next form hform => exact (h.function ht form (kind_of_functionForm? hform)).map some
  split
  · exact h.conditional ht
  refine ht.logicalOperator?.bind fun operator => ?_
  cases operator with
  | some operator => exact h.logical ht
  | none =>
    dsimp only
    split
    · next hstatic =>
      exact (h.blockField ht (ht.body (by simp [hstatic, bodiedKinds]))).bind fun body => ok _
    split
    · exact (h.block ht).map some
    · exact h.composite ht keep

/-! ### Statements -/

theorem catchClause (hbody : hasField "body" t = true) : OnlyTooDeep (r.catchClause src t) := by
  unfold Reading.catchClause
  refine (h.field ht false _).bind fun parameter => ?_
  exact of_required hbody fun b hb => (h.block (ht.child hb)).bind fun body => ok _

theorem elseClause (hparts : t.parts ≠ []) : OnlyTooDeep (r.elseClause t) := by
  unfold Reading.elseClause
  split
  · next c cs hcs => exact h.statement (ht.parts c (hcs ▸ List.mem_cons_self))
  · next hnil => exact absurd hnil hparts

theorem ifStatement (hkind : t.kind = "if_statement") : OnlyTooDeep (r.ifStatement src t) := by
  have halternate : OnlyTooDeep (optionally t "alternative" r.elseClause) :=
    of_optionally fun c hc => h.elseClause (ht.child hc) (ht.node.alternative hkind c hc)
  rw [ifStatement_eq]
  refine halternate.bind fun alternate => ?_
  refine (h.field ht false _).bind fun test => ?_
  exact (h.statementField ht (ht.node.consequence hkind)).bind fun consequent => ok _

theorem switchCase : OnlyTooDeep (r.switchCase src t) := by
  unfold Reading.switchCase
  refine (h.field ht false _).bind fun test => ?_
  have hbehind : (t.children.dropWhile fun c => c.kind ≠ ":").drop 1 ⊆ t.children :=
    List.Subset.trans (List.drop_subset _ _) (List.dropWhile_sublist _).subset
  exact (h.statements (ht.intact.readable hbehind)).bind fun body => ok _

theorem switchStatement (hkind : t.kind = "switch_statement") : OnlyTooDeep (r.switchStatement src t) := by
  unfold Reading.switchStatement
  refine of_required (ht.body (by simp [hkind, bodiedKinds])) fun b hb => ?_
  have hclauses : OnlyTooDeep ((b.parts.filter isSwitchCase).mapM (r.switchCase src)) :=
    mapM fun c hc => h.switchCase ((ht.child hb).parts c (List.mem_filter.1 hc).1)
  exact hclauses.bind fun clauses => (h.field ht false _).bind fun discriminant => ok _

theorem tryStatement (hkind : t.kind = "try_statement") : OnlyTooDeep (r.tryStatement src t) := by
  have hhandler : OnlyTooDeep (optionally t "handler" (r.catchClause src)) :=
    of_optionally fun c hc => h.catchClause (ht.child hc) (ht.node.handler hkind c hc)
  have hfinalizer : OnlyTooDeep (optionally t "finalizer" fun f => r.blockField src f "body") :=
    of_optionally fun c hc => h.blockField (ht.child hc) (ht.node.finalizer hkind c hc)
  rw [tryStatement_eq]
  refine hhandler.bind fun handler => ?_
  refine (h.blockField ht (ht.body (by simp [hkind, bodiedKinds]))).bind fun block => ?_
  exact hfinalizer.bind fun finalizer => ok _

theorem loopPart : OnlyTooDeep (r.loopPart src t) := by
  unfold Reading.loopPart
  split
  · exact (h.initializers ht).bind fun parts => ok _
  · split
    · exact h.firstPart ht
    · exact h.expression false ht

theorem loopHeader : OnlyTooDeep (r.loopHeader src t) := by
  have hparts : ∀ c ∈ loopParts t, Readable src c := ht.intact.readable List.eraseP_subset
  exact (mapM fun c hc => h.loopPart (hparts c hc)).map _

theorem readStatement : OnlyTooDeep (r.readStatement src t) := by
  unfold Reading.readStatement
  dsimp only
  split
  case h_1 | h_17 | h_18 => exact (h.firstPart ht).bind fun part => ok _
  case h_2 => exact h.declaration ht _
  case h_3 | h_4 => exact (ht.textOf? "kind").bind fun keyword => h.declaration ht _
  case h_5 hkind | h_6 hkind => exact (h.function ht _ (by simp [hkind, Tree.functionKinds])).bind fun f => ok _
  case h_7 => exact (ht.textOf? "name").bind fun name => (h.subexpressions ht).bind fun members => ok _
  case h_8 => exact h.block ht
  case h_9 | h_10 => exact ok _
  case h_11 hkind => exact h.ifStatement ht hkind
  case h_12 hkind => exact h.switchStatement ht hkind
  case h_13 hkind | h_23 hkind =>
    have hbody := ht.body (by simp [hkind, bodiedKinds])
    exact (h.field ht false _).bind fun test => (h.statementField ht hbody).bind fun body => ok _
  case h_14 hkind =>
    have hbody := ht.body (by simp [hkind, bodiedKinds])
    exact (h.statementField ht hbody).bind fun body => (h.field ht false _).bind fun test => ok _
  case h_15 hkind =>
    have hbody := ht.body (by simp [hkind, bodiedKinds])
    exact (h.loopHeader ht).bind fun header => (h.statementField ht hbody).bind fun body => ok _
  case h_16 hkind =>
    have hbody := ht.body (by simp [hkind, bodiedKinds])
    refine (ht.textOf? "operator").bind fun operator => ?_
    exact (h.loopHeader ht).bind fun header => (h.statementField ht hbody).bind fun body => ok _
  case h_19 | h_20 => exact (ht.textOf? "label").bind fun label => ok _
  case h_21 hkind =>
    have hbody := ht.body (by simp [hkind, bodiedKinds])
    exact (ht.textOf? "label").bind fun label => (h.statementField ht hbody).bind fun body => ok _
  case h_22 hkind => exact h.tryStatement ht hkind
  case h_24 | h_25 | h_26 => exact (h.subexpressions ht).bind fun expressions => ok _

end Reading.Reliable

/-! ## Levels -/

theorem reading_reliable (src : SourceText) (depth : ℕ) : (reading src depth).Reliable src := by
  induction depth with
  | zero => exact ⟨fun _ _ _ => .tooDeep, fun _ => .tooDeep⟩
  | succ depth ih => exact ⟨fun keep _ ht => ih.readExpression ht keep, fun ht => ih.readStatement ht⟩

/-- **An intact tree has a program or is nested too deep.** -/
theorem program_onlyTooDeep (depth : ℕ) {root : Tree} (hintact : Intact src root) :
    OnlyTooDeep (Lowering.program depth src root) := by
  unfold Lowering.program
  exact ((reading_reliable src depth).prologue hintact.parts).bind fun statements => .ok _

end Lowering

end Turnstile
