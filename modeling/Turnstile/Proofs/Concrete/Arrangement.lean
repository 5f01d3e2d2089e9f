/-
The shapes of concrete trees.

The grammar says for each type of node which parts it has: a list of parts, parts in fields, or one of three arrangements of
their own, for loops, for the clauses of a switch and for functions.
- `arrangement?`: the arrangement of a node by its type and by what it is to the node above it;
- `Tree.fits`: a tree of such nodes; `Arranged` says what it says about one node, and the parts of a node fit in turn
  (`Arranged.fits_part`, `Arranged.fits_child`);
- `Arranged.filter_parts`, `Arranged.parts_clause`, `Arranged.loopParts_eq`: where the parts of a node are.
-/
import Mathlib.Tactic
import Turnstile.Program.Lowering

namespace Turnstile

namespace Tree

/-! ## Arrangements -/

/-- a named node that is no comment -/
def isPart (t : Tree) : Bool := t.named && !t.isComment

theorem parts_eq (t : Tree) : t.parts = t.children.filter isPart := rfl

/-- what a node is to the node above it -/
inductive Category where
  /-- a token or a comment -/
  | token
  /-- a name or a piece of a literal: it has no parts -/
  | word
  | program
  | statement
  | block
  | expression
  | elseClause
  | switchBody
  | clause
  | catchClause
  | finallyClause
  | declarator
  /-- what stands in the head of a loop -/
  | loopPart
  | parameters
  deriving DecidableEq, Repr

/-- how the parts of a node are arranged -/
inductive Arrangement where
  | list (each : Category)
  | atMostOne (part : Category)
  /-- one part at most in each of some fields, and no others -/
  | fields (categories : List (String × Category))
  /-- a body, and what is in the head of the loop -/
  | loop
  /-- a value in front of a colon, statements behind it -/
  | clause
  /-- parameters and a body; a method may compute its name and have decorators -/
  | function (method : Bool)
  deriving DecidableEq, Repr

namespace Arrangement

/-- the fields that are looked up; each holds one part at most -/
def fieldNames : Arrangement → List String
  | list _ | atMostOne _ => []
  | fields categories => categories.map Prod.fst
  | loop => ["body"]
  | clause => ["value"]
  | function _ => ["parameters", "body"]

/-- what a part in a field is to the node -/
def category? (a : Arrangement) (field : Option String) : Option Category :=
  match a with
  | list each => some each
  | atMostOne part => some part
  | fields categories => field.bind fun f => categories.lookup f
  | loop => some (if field = some "body" then .statement else .loopPart)
  | clause => some (if field = some "value" then .expression else .statement)
  | function method =>
    if field = some "parameters" then some .parameters
    else if field = some "body" then some .expression
    else if method && (field = some "name" || field = some "decorator") then some .expression
    else some .word

/-- what a child is to the node -/
def place? (a : Arrangement) (c : Tree) : Option Category := if c.isPart then a.category? c.field else some .token

/-- the number and the order of children -/
def allows (a : Arrangement) (children : List Tree) : Bool :=
  (a.fieldNames.all fun f => children.countP (fun c => c.field == some f) ≤ 1)
    && (children.all fun c => c.isPart || a.fieldNames.all fun f => c.field ≠ some f)
    && match a with
      | atMostOne _ => children.countP isPart ≤ 1
      | clause =>
        (children.all fun c => c.kind ≠ ":" || !c.isPart)
          && ((children.takeWhile fun c => c.kind ≠ ":").all fun c => !c.isPart || c.field == some "value")
          && (children.dropWhile fun c => c.kind ≠ ":").all fun c => c.field ≠ some "value"
      | _ => true

end Arrangement

/-- the types of functions -/
def functionKinds : List String :=
  ["function_declaration", "generator_function_declaration", "arrow_function", "method_definition", "function",
    "function_expression", "generator_function"]

/-- the types of nodes that can have a branch or a function counter -/
def siteKinds : List String :=
  "if_statement" :: "switch_statement" :: "ternary_expression" :: "binary_expression" :: functionKinds

/-- the types of names and of the pieces of literals -/
def wordKinds : List String :=
  ["identifier", "statement_identifier", "string_fragment", "escape_sequence", "html_character_reference"]

def expressionArrangement? (kind : String) : Option Arrangement :=
  match kind with
  | "if_statement" | "switch_statement" => none
  | "string" => some (.list .word)
  | "function_declaration" | "generator_function_declaration" | "arrow_function" | "function" | "function_expression"
  | "generator_function" => some (.function false)
  | "method_definition" => some (.function true)
  | "ternary_expression" =>
    some (.fields [("condition", .expression), ("consequence", .expression), ("alternative", .expression)])
  | "binary_expression" => some (.fields [("left", .expression), ("right", .expression)])
  | "class_static_block" => some (.fields [("body", .block)])
  | "statement_block" => some (.list .statement)
  | "variable_declaration" | "lexical_declaration" | "using_declaration" => some (.list .declarator)
  | _ => some (.list .expression)

def statementArrangement? (kind : String) : Option Arrangement :=
  match kind with
  | "expression_statement" | "return_statement" | "throw_statement" => some (.atMostOne .expression)
  | "variable_declaration" | "lexical_declaration" | "using_declaration" => some (.list .declarator)
  | "function_declaration" | "generator_function_declaration" => some (.function false)
  | "statement_block" => some (.list .statement)
  | "empty_statement" | "debugger_statement" => some (.fields [])
  | "if_statement" =>
    some (.fields [("condition", .expression), ("consequence", .statement), ("alternative", .elseClause)])
  | "switch_statement" => some (.fields [("value", .expression), ("body", .switchBody)])
  | "while_statement" | "do_statement" => some (.fields [("condition", .expression), ("body", .statement)])
  | "for_statement" | "for_in_statement" => some .loop
  | "break_statement" | "continue_statement" => some (.fields [("label", .word)])
  | "labeled_statement" => some (.fields [("label", .word), ("body", .statement)])
  | "try_statement" => some (.fields [("body", .block), ("handler", .catchClause), ("finalizer", .finallyClause)])
  | "with_statement" => some (.fields [("object", .expression), ("body", .statement)])
  | kind => if kind ∈ siteKinds then none else some (.list .expression)

/-- what is always of one type, and how its parts are arranged -/
def Category.soleType? : Category → Option (String × Arrangement)
  | program => some ("program", .list .statement)
  | block => some ("statement_block", .list .statement)
  | elseClause => some ("else_clause", .atMostOne .statement)
  | switchBody => some ("switch_body", .list .clause)
  | catchClause => some ("catch_clause", .fields [("parameter", .expression), ("body", .block)])
  | finallyClause => some ("finally_clause", .fields [("body", .block)])
  | declarator => some ("variable_declarator", .fields [("name", .expression), ("value", .expression)])
  | parameters => some ("formal_parameters", .list .expression)
  | _ => none

/-- the arrangement of the parts of a node, unless no such node stands there -/
def arrangement? (category : Category) (kind : String) : Option Arrangement :=
  match category with
  | .token => some (.fields [])
  | .word => if kind ∈ wordKinds then some (.fields []) else none
  | .statement => statementArrangement? kind
  | .expression => expressionArrangement? kind
  | .loopPart => if kind = "expression_statement" then some (.atMostOne .expression) else expressionArrangement? kind
  | .clause => if kind = "switch_case" || kind = "switch_default" then some .clause else none
  | category =>
    match category.soleType? with
    | some (type, a) => if kind = type then some a else none
    | none => none

/-! ## Trees of the grammar -/

mutual
/-- a tree whose nodes are arranged as their types say -/
def fits (category : Category) : Tree → Bool
  | ⟨kind, start, stop, named, isError, isMissing, hasError, field, children⟩ =>
    (category == .token || isPart ⟨kind, start, stop, named, isError, isMissing, hasError, field, children⟩)
      && match arrangement? category kind with
        | some a => a.allows children && fitAll a children
        | none => false

/-- the children of a node in their places -/
def fitAll (a : Arrangement) : List Tree → Bool
  | [] => true
  | c :: cs =>
    (match a.place? c with
      | some category => c.fits category
      | none => false) && fitAll a cs
end

theorem fitAll_iff {a : Arrangement} {ts : List Tree} :
    fitAll a ts = true ↔ ∀ c ∈ ts, ∃ category, a.place? c = some category ∧ c.fits category = true := by
  induction ts with
  | nil => simp [fitAll]
  | cons c cs ih =>
    rw [fitAll, Bool.and_eq_true, ih, List.forall_mem_cons]
    refine and_congr_left' ?_
    cases a.place? c <;> simp

/-- a node with the arrangement of its parts -/
structure Arranged (category : Category) (a : Arrangement) (t : Tree) : Prop where
  isPart : category = .token ∨ t.isPart = true
  arrangement : arrangement? category t.kind = some a
  allowed : a.allows t.children = true
  children : ∀ c ∈ t.children, ∃ category, a.place? c = some category ∧ c.fits category = true

theorem fits_iff {category : Category} {t : Tree} : t.fits category = true ↔ ∃ a, Arranged category a t := by
  obtain ⟨kind, start, stop, named, isError, isMissing, hasError, field, children⟩ := t
  rw [fits, Bool.and_eq_true, Bool.or_eq_true, beq_iff_eq]
  constructor
  · rintro ⟨hpart, h⟩
    split at h
    · next a ha =>
      obtain ⟨hallows, hall⟩ := Bool.and_eq_true_iff.1 h
      exact ⟨a, hpart, ha, hallows, fitAll_iff.1 hall⟩
    · cases h
  · rintro ⟨a, hpart, ha, hallows, hall⟩
    simp only at ha hallows hall
    refine ⟨hpart, ?_⟩
    rw [ha]
    exact Bool.and_eq_true_iff.2 ⟨hallows, fitAll_iff.2 hall⟩

namespace Arranged

variable {category k : Category} {a : Arrangement} {t c : Tree} {f : String}

theorem of_fits (h : t.fits category = true) (ha : arrangement? category t.kind = some a) : Arranged category a t := by
  obtain ⟨b, hb⟩ := fits_iff.1 h
  rw [hb.arrangement, Option.some.injEq] at ha
  exact ha ▸ hb

theorem of_soleType {type : String} (ht : category.soleType? = some (type, a)) (h : t.fits category = true) :
    t.kind = type ∧ Arranged category a t := by
  obtain ⟨b, hb⟩ := fits_iff.1 h
  have harrangement := hb.arrangement
  obtain ⟨hkind, hba⟩ : t.kind = type ∧ b = a := by
    cases category <;> simp_all [arrangement?, Category.soleType?]
  exact ⟨hkind, hba ▸ hb⟩

theorem of_clause (h : t.fits .clause = true) :
    (t.kind = "switch_case" ∨ t.kind = "switch_default") ∧ Arranged .clause .clause t := by
  obtain ⟨b, hb⟩ := fits_iff.1 h
  have harrangement := hb.arrangement
  rw [arrangement?] at harrangement
  split_ifs at harrangement with hkind
  cases harrangement
  exact ⟨by simpa using hkind, hb⟩

theorem of_word (h : t.fits .word = true) : t.kind ∈ wordKinds ∧ Arranged .word (.fields []) t := by
  obtain ⟨b, hb⟩ := fits_iff.1 h
  have harrangement := hb.arrangement
  rw [arrangement?] at harrangement
  split_ifs at harrangement with hkind
  cases harrangement
  exact ⟨hkind, hb⟩

theorem named (h : Arranged category a t) (hcategory : category ≠ .token) : t.named = true :=
  (Bool.and_eq_true_iff.1 (h.isPart.resolve_left hcategory)).1

/-- a node may be arranged alike as two things -/
theorem recategorize {category' : Category} (h : Arranged category a t) (hcategory : category ≠ .token)
    (ha : arrangement? category' t.kind = some a) : Arranged category' a t :=
  ⟨Or.inr (h.isPart.resolve_left hcategory), ha, h.allowed, h.children⟩

theorem fits_part (h : Arranged category a t) (hc : c ∈ t.parts) (hk : a.category? c.field = some k) :
    c.fits k = true := by
  obtain ⟨hmem, hpart⟩ := List.mem_filter.1 (parts_eq t ▸ hc)
  obtain ⟨b, hb, hfits⟩ := h.children c hmem
  rw [Arrangement.place?, if_pos hpart, hk, Option.some.injEq] at hb
  exact hb ▸ hfits

/-- a child that is no part -/
theorem fits_token (h : Arranged category a t) (hc : c ∈ t.children) (hpart : c.isPart = false) :
    c.fits .token = true := by
  obtain ⟨b, hb, hfits⟩ := h.children c hc
  rw [Arrangement.place?, if_neg (by simp [hpart]), Option.some.injEq] at hb
  exact hb ▸ hfits

theorem countP_field (h : Arranged category a t) (hf : f ∈ a.fieldNames) :
    t.children.countP (fun c => c.field == some f) ≤ 1 := by
  have hall := h.allowed
  simp only [Arrangement.allows, Bool.and_eq_true, List.all_eq_true, decide_eq_true_eq] at hall
  exact hall.1.1 f hf

theorem isPart_of_field (h : Arranged category a t) (hf : f ∈ a.fieldNames) (hc : c ∈ t.children)
    (hfield : c.field = some f) : c.isPart = true := by
  have hall := h.allowed
  simp only [Arrangement.allows, Bool.and_eq_true, List.all_eq_true, Bool.or_eq_true, decide_eq_true_eq] at hall
  exact (hall.1.2 c hc).resolve_right fun hne => hne f hf hfield

theorem mem_parts_of_child? (h : Arranged category a t) (hf : f ∈ a.fieldNames) (hc : t.child? f = some c) :
    c ∈ t.parts ∧ c.field = some f := by
  have hmem := mem_children_of_child? hc
  have hfield : c.field = some f := by simpa using List.find?_some hc
  exact ⟨List.mem_filter.2 ⟨hmem, h.isPart_of_field hf hmem hfield⟩, hfield⟩

theorem fits_child (h : Arranged category a t) (hf : f ∈ a.fieldNames) (hc : t.child? f = some c)
    (hk : a.category? (some f) = some k) : c.fits k = true := by
  obtain ⟨hmem, hfield⟩ := h.mem_parts_of_child? hf hc
  exact h.fits_part hmem (hfield ▸ hk)

/-- a part in one of the fields of a node -/
theorem exists_field {categories : List (String × Category)} (h : Arranged category (.fields categories) t)
    (hc : c ∈ t.parts) : ∃ f k, (f, k) ∈ categories ∧ c.field = some f ∧ c.fits k = true := by
  obtain ⟨hmem, hpart⟩ := List.mem_filter.1 (parts_eq t ▸ hc)
  obtain ⟨k, hk, hfits⟩ := h.children c hmem
  rw [Arrangement.place?, if_pos hpart] at hk
  obtain ⟨f, hf, hk⟩ := Option.bind_eq_some_iff.1 hk
  obtain ⟨front, back, rfl, -⟩ := List.lookup_eq_some_iff.1 hk
  exact ⟨f, k, by simp, hf, hfits⟩

/-- names and pieces of literals are expressions without parts -/
theorem fits_expression_of_word (h : t.fits .word = true) : t.fits .expression = true := by
  obtain ⟨hword, ha⟩ := of_word h
  have hexpression : ∀ kind ∈ wordKinds, expressionArrangement? kind = some (.list .expression) := by decide
  refine fits_iff.2 ⟨.list .expression, ⟨Or.inr (ha.isPart.resolve_left (by decide)), hexpression _ hword,
    by simp [Arrangement.allows, Arrangement.fieldNames], fun c hc => ?_⟩⟩
  cases hpart : c.isPart with
  | false => exact ⟨.token, by simp [Arrangement.place?, hpart], ha.fits_token hc hpart⟩
  | true =>
    obtain ⟨f, k, hnone, -⟩ := ha.exists_field (List.mem_filter.2 ⟨hc, hpart⟩)
    cases hnone

/-! ### Where parts are -/

theorem filter_eq_toList_find? {α : Type} {p : α → Bool} {l : List α} (h : l.countP p ≤ 1) :
    l.filter p = (l.find? p).toList := by
  rw [List.countP_eq_length_filter] at h
  rw [← List.head?_filter]
  match l.filter p, h with
  | [], _ | [_], _ => rfl

/-- a field that is looked up holds what is found in it -/
theorem filter_parts (h : Arranged category a t) (hf : f ∈ a.fieldNames) :
    (t.parts.filter fun c => c.field == some f) = (t.child? f).toList := by
  rw [child?, ← filter_eq_toList_find? (h.countP_field hf), parts_eq, List.filter_filter]
  refine List.filter_congr fun c hc => ?_
  by_cases hfield : c.field = some f
  · simp [hfield, h.isPart_of_field hf hc hfield]
  · simp [hfield]

theorem parts_atMostOne (h : Arranged category (.atMostOne k) t) : t.parts = [] ∨ ∃ c, t.parts = [c] := by
  have hall := h.allowed
  simp only [Arrangement.allows, Bool.and_eq_true, decide_eq_true_eq] at hall
  have hlen : t.parts.length ≤ 1 := by
    rw [parts_eq, ← List.countP_eq_length_filter]
    exact hall.2
  match hparts : t.parts, hlen with
  | [], _ => exact Or.inl rfl
  | [c], _ => exact Or.inr ⟨c, rfl⟩

theorem eraseP_eq_filter {α : Type} {p : α → Bool} {l : List α} (h : l.countP p ≤ 1) :
    l.eraseP p = l.filter fun x => !p x := by
  induction l with
  | nil => rfl
  | cons x l ih =>
    cases hp : p x with
    | false =>
      rw [List.countP_cons_of_neg (by simp [hp])] at h
      rw [List.eraseP_cons_of_neg (by simp [hp]), List.filter_cons_of_pos (by simp [hp]), ih h]
    | true =>
      rw [List.countP_cons_of_pos hp] at h
      have hnone : ∀ y ∈ l, ¬ p y = true := List.countP_eq_zero.1 (by omega)
      rw [List.eraseP_cons_of_pos hp, List.filter_cons_of_neg (by simp [hp])]
      exact (List.filter_eq_self.2 fun y hy => by simp [hnone y hy]).symm

/-- the head of a loop is what is not in the field of the body -/
theorem loopParts_eq (h : Arranged category .loop t) :
    Lowering.loopParts t = t.parts.filter fun c => !(c.field == some "body") := by
  rw [Lowering.loopParts, eraseP_eq_filter (h.countP_field (by simp [Arrangement.fieldNames])), parts_eq,
    List.filter_comm]
  rfl

/-- a clause is a value, then the statements behind its colon -/
theorem parts_clause (h : Arranged category .clause t) : t.parts = (t.child? "value").toList ++
    ((t.children.dropWhile fun c => c.kind ≠ ":").drop 1).filter Tree.isPart := by
  have hvalue : "value" ∈ Arrangement.clause.fieldNames := by simp [Arrangement.fieldNames]
  have hall := h.allowed
  simp only [Arrangement.allows, Bool.and_eq_true, List.all_eq_true] at hall
  obtain ⟨-, ⟨hcolon, hbefore⟩, hbehind⟩ := hall
  have hfront : ((t.children.takeWhile fun c => c.kind ≠ ":").filter Tree.isPart) = (t.child? "value").toList := by
    rw [child?, ← filter_eq_toList_find? (h.countP_field hvalue)]
    conv_rhs => rw [← List.takeWhile_append_dropWhile (p := fun c => decide (c.kind ≠ ":")) (l := t.children)]
    have hnone : ((t.children.dropWhile fun c => c.kind ≠ ":").filter fun c => c.field == some "value") = [] :=
      List.filter_eq_nil_iff.2 fun c hc => by simpa using hbehind c hc
    rw [List.filter_append, hnone, List.append_nil]
    refine List.filter_congr fun c hc => ?_
    have hmem : c ∈ t.children := List.takeWhile_subset _ hc
    cases hpart : c.isPart with
    | false =>
      refine (beq_eq_false_iff_ne.2 fun hfield => ?_).symm
      rw [h.isPart_of_field hvalue hmem hfield] at hpart
      cases hpart
    | true => simpa [hpart] using (hbefore c hc).symm
  have hbody : ((t.children.dropWhile fun c => c.kind ≠ ":").filter Tree.isPart) =
      ((t.children.dropWhile fun c => c.kind ≠ ":").drop 1).filter Tree.isPart := by
    cases hrest : t.children.dropWhile fun c => c.kind ≠ ":" with
    | nil => rfl
    | cons colon rest =>
      have hkind : colon.kind = ":" := by
        have hhead := List.head?_dropWhile_not (fun c : Tree => decide (c.kind ≠ ":")) t.children
        rw [hrest] at hhead
        simpa using hhead
      have hmem : colon ∈ t.children := (List.dropWhile_sublist _).subset (hrest ▸ List.mem_cons_self)
      have hpart : colon.isPart = false := by simpa [hkind] using hcolon colon hmem
      simp [hpart]
  rw [parts_eq, ← hfront, ← hbody, ← List.filter_append, List.takeWhile_append_dropWhile]

theorem category?_behind_colon (h : Arranged category .clause t)
    (hc : c ∈ ((t.children.dropWhile fun c => c.kind ≠ ":").drop 1).filter Tree.isPart) :
    c ∈ t.parts ∧ Arrangement.clause.category? c.field = some .statement := by
  obtain ⟨hbehind, hpart⟩ := List.mem_filter.1 hc
  have hrest := List.drop_subset _ _ hbehind
  have hall := h.allowed
  simp only [Arrangement.allows, Bool.and_eq_true, List.all_eq_true] at hall
  have hfield : c.field ≠ some "value" := by simpa using hall.2.2 c hrest
  exact ⟨List.mem_filter.2 ⟨(List.dropWhile_sublist _).subset hrest, hpart⟩, by simp [Arrangement.category?, hfield]⟩

/-- what is behind the colon of a clause is a statement -/
theorem fits_behind_colon (h : Arranged category .clause t)
    (hc : c ∈ ((t.children.dropWhile fun c => c.kind ≠ ":").drop 1).filter Tree.isPart) : c.fits .statement = true :=
  h.fits_part (h.category?_behind_colon hc).1 (h.category?_behind_colon hc).2

theorem category?_loopPart (h : Arranged category .loop t) (hc : c ∈ Lowering.loopParts t) :
    c ∈ t.parts ∧ Arrangement.loop.category? c.field = some .loopPart := by
  rw [h.loopParts_eq] at hc
  obtain ⟨hmem, hfield⟩ := List.mem_filter.1 hc
  rw [Bool.not_eq_true', beq_eq_false_iff_ne] at hfield
  exact ⟨hmem, by simp [Arrangement.category?, hfield]⟩

/-- what is in the head of a loop -/
theorem fits_loopPart (h : Arranged category .loop t) (hc : c ∈ Lowering.loopParts t) : c.fits .loopPart = true :=
  h.fits_part (h.category?_loopPart hc).1 (h.category?_loopPart hc).2

end Arranged

end Tree

end Turnstile
