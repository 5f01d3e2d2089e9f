/-
The marked nodes of a concrete tree.

Some nodes of a tree are marked, such as those that are to have counters, and so are some nodes of its typed program. Whether
a node of a tree is marked may depend on what it is to the node above it.
- `Tree.nodes`, `Tree.headNodes`, `Tree.otherNodes`: all nodes of a tree, those in the names and decorators of methods,
  and those elsewhere; `Tree.places` are the latter with what each is to the node above it;
- `isBranchSite`, `isFunctionSite`: the nodes that are to have counters;
- `Marking`, `Marking.Kept`: what nodes mark, and what lowering relies on to keep it, construction by construction;
- `sites`: the bag of the places that the nodes mark outside of the names and decorators of methods. It is made of the mark of
  the tree's own node and of what its parts hold; for each arrangement one equation says where the parts are
  (`sites_list`, `sites_fields`, `sites_function`, `sites_clause`, `sites_loop`).
-/
import Turnstile.Proofs.Concrete.Arrangement
import Turnstile.Proofs.Program.Preorder
import Turnstile.Proofs.Program.Reading

namespace Turnstile

/-! ## Sums along lists -/

section Sums

variable {α M : Type} [AddCommMonoid M]

theorem sum_map_flatMap {β : Type} (g : β → M) (f : α → List β) (l : List α) :
    ((l.flatMap f).map g).sum = (l.map fun a => ((f a).map g).sum).sum := by
  rw [List.flatMap_def, List.map_flatten, List.sum_flatten, List.map_map, List.map_map]
  rfl

theorem sum_map_filter (p : α → Bool) (g : α → M) (l : List α) :
    (l.map g).sum = ((l.filter p).map g).sum + ((l.filter fun a => !p a).map g).sum := by
  rw [← List.sum_append, ← List.map_append]
  exact ((List.filter_append_perm p l).map g).sum_eq.symm

/-- nodes that weigh nothing outside of some fields, summed field by field -/
theorem sum_by_fields {g : Tree → M} {fs : List String} (hfs : fs.Nodup) {l : List Tree}
    (hother : ∀ c ∈ l, (∀ f ∈ fs, c.field ≠ some f) → g c = 0) :
    (l.map g).sum = (fs.map fun f => ((l.filter fun c => c.field == some f).map g).sum).sum := by
  induction fs generalizing l with
  | nil =>
    refine List.sum_eq_zero fun x hx => ?_
    obtain ⟨c, hc, rfl⟩ := List.mem_map.1 hx
    exact hother c hc (by simp)
  | cons f fs ih =>
    rw [List.nodup_cons] at hfs
    have hrest := ih hfs.2 (l := l.filter fun c => !(c.field == some f)) fun c hc hall => by
      obtain ⟨hc, hf⟩ := List.mem_filter.1 hc
      exact hother c hc (List.forall_mem_cons.2 ⟨by simpa using hf, hall⟩)
    rw [sum_map_filter (fun c => c.field == some f), hrest, List.map_cons, List.sum_cons]
    refine congrArg _ (congrArg List.sum (List.map_congr_left fun e he => ?_))
    rw [List.filter_filter]
    congr 2
    refine List.filter_congr fun c _ => ?_
    by_cases hc : c.field = some e
    · have hne : e ≠ f := fun hef => hfs.1 (hef ▸ he)
      simp [hc, hne]
    · simp [hc]

theorem sum_ite_singleton {β : Type} (p : α → Bool) (f : α → β) (l : List α) :
    (l.map fun a => if p a then ({f a} : Multiset β) else 0).sum = ↑((l.filter p).map f) := by
  induction l with
  | nil => rfl
  | cons a l ih =>
    rw [List.map_cons, List.sum_cons, ih]
    cases h : p a <;> simp [h]

end Sums

namespace Tree

/-! ## Nodes -/

/-- all nodes of a tree in pre-order -/
def nodes (t : Tree) : List Tree := t :: t.children.attach.flatMap fun ⟨c, _⟩ => c.nodes
termination_by sizeOf t
decreasing_by exact sizeOf_lt_of_mem_children ‹_›

/-- a child that is the name or a decorator of a method -/
def inHead (t c : Tree) : Bool :=
  t.kind = "method_definition" && (c.field = some "name" || c.field = some "decorator")

/-- the nodes in the names and decorators of methods -/
def headNodes (t : Tree) : List Tree :=
  t.children.attach.flatMap fun ⟨c, _⟩ => if t.inHead c then c.nodes else c.headNodes
termination_by sizeOf t
decreasing_by exact sizeOf_lt_of_mem_children ‹_›

/-- the nodes outside of the names and decorators of methods -/
def otherNodes (t : Tree) : List Tree :=
  t :: t.children.attach.flatMap fun ⟨c, _⟩ => if t.inHead c then [] else c.otherNodes
termination_by sizeOf t
decreasing_by exact sizeOf_lt_of_mem_children ‹_›

theorem nodes_eq (t : Tree) : t.nodes = t :: t.children.flatMap nodes := by
  rw [nodes]
  exact congrArg _ (Node.flatMap_attach t.children nodes)

theorem self_mem_nodes (t : Tree) : t ∈ t.nodes := by
  rw [nodes_eq]
  exact List.mem_cons_self

theorem mem_nodes_of_mem_children {t c d : Tree} (hc : c ∈ t.children) (hd : d ∈ c.nodes) : d ∈ t.nodes := by
  rw [nodes_eq]
  exact List.mem_cons_of_mem t (List.mem_flatMap.2 ⟨c, hc, hd⟩)

theorem headNodes_eq (t : Tree) :
    t.headNodes = t.children.flatMap fun c => if t.inHead c then c.nodes else c.headNodes := by
  rw [headNodes]
  exact Node.flatMap_attach t.children fun c => if t.inHead c then c.nodes else c.headNodes

theorem otherNodes_eq (t : Tree) :
    t.otherNodes = t :: t.children.flatMap fun c => if t.inHead c then [] else c.otherNodes := by
  rw [otherNodes]
  exact congrArg _ (Node.flatMap_attach t.children fun c => if t.inHead c then [] else c.otherNodes)

/-- induction through children -/
theorem inductionOn {motive : Tree → Prop} (t : Tree) (step : ∀ t, (∀ c ∈ t.children, motive c) → motive t) :
    motive t := by
  induction h : sizeOf t using Nat.strong_induction_on generalizing t with
  | _ size ih =>
    subst h
    exact step t fun c hc => ih _ (sizeOf_lt_of_mem_children hc) c rfl

/-- every node is in the head of a method or is not -/
theorem nodes_perm (t : Tree) : t.nodes.Perm (t.otherNodes ++ t.headNodes) := by
  induction t using inductionOn with
  | step t ih =>
    rw [nodes_eq, otherNodes_eq, headNodes_eq, List.cons_append]
    refine List.Perm.cons t ?_
    have hsplit : (t.children.flatMap nodes).Perm (t.children.flatMap fun c =>
        (if t.inHead c then [] else c.otherNodes) ++ if t.inHead c then c.nodes else c.headNodes) := by
      refine List.Perm.flatMap_left _ fun c hc => ?_
      split_ifs
      · exact .refl _
      · exact ih c hc
    exact hsplit.trans (List.flatMap_append_perm _ _ _).symm

/-! ## What nodes are to the nodes above them -/

/-- what a child outside of the names and decorators of methods is to a node -/
def placeOf? (k : Category) (t c : Tree) : Option Category :=
  if t.inHead c then none else (arrangement? k t.kind).bind fun a => a.place? c

/-- the nodes outside of the names and decorators of methods, each with what it is to the node above it -/
def places (k : Category) (t : Tree) : List (Category × Tree) :=
  (k, t) :: t.children.attach.flatMap fun ⟨c, _⟩ => (t.placeOf? k c).toList.flatMap fun k' => c.places k'
termination_by sizeOf t
decreasing_by exact sizeOf_lt_of_mem_children ‹_›

theorem places_eq (k : Category) (t : Tree) : t.places k =
    (k, t) :: t.children.flatMap fun c => (t.placeOf? k c).toList.flatMap fun k' => c.places k' := by
  rw [places]
  exact congrArg _ (Node.flatMap_attach t.children fun c => (t.placeOf? k c).toList.flatMap fun k' => c.places k')

theorem mem_places_of_child {k k' : Category} {t c : Tree} (hc : c ∈ t.children) (hplace : t.placeOf? k c = some k') :
    (k', c) ∈ t.places k := by
  rw [places_eq]
  refine List.mem_cons_of_mem _ (List.mem_flatMap.2 ⟨c, hc, ?_⟩)
  rw [hplace, Option.toList_some, List.flatMap_singleton, places_eq]
  exact List.mem_cons_self

theorem placeOf?_eq {k : Category} {a : Arrangement} {t : Tree} (h : t.Arranged k a) (c : Tree) :
    t.placeOf? k c = if t.inHead c then none else a.place? c := by
  rw [placeOf?, h.arrangement, Option.bind_some]

/-- in a tree of the grammar every node is something to the node above it -/
theorem map_snd_places {k : Category} {t : Tree} (h : t.fits k = true) : (t.places k).map Prod.snd = t.otherNodes := by
  induction t using inductionOn generalizing k with
  | step t ih =>
    obtain ⟨a, ha⟩ := fits_iff.1 h
    rw [places_eq, otherNodes_eq, List.map_cons, List.map_flatMap]
    refine congrArg _ (List.flatMap_congr fun c hc => ?_)
    obtain ⟨k', hk', hfits⟩ := ha.children c hc
    rw [placeOf?_eq ha, hk']
    split_ifs
    · rfl
    · rw [Option.toList_some, List.flatMap_singleton, ih c hc hfits]

end Tree

namespace Lowering

/-! ## Sites -/

/-- a binary expression whose operator reads `&&`, `||` or `??` -/
def isShortCircuitNode (src : SourceText) (t : Tree) : Bool :=
  t.kind = "binary_expression" &&
    (t.child? "operator").any fun c => (src.slice? c.start c.stop).any fun s => s ∈ ["&&", "||", "??"]

/-- a node that is to have a branch counter -/
def isBranchSite (src : SourceText) (t : Tree) : Bool :=
  t.named && (t.kind = "if_statement" || t.kind = "switch_statement" || t.kind = "ternary_expression"
    || isShortCircuitNode src t)

/-- a node that is to have a function counter -/
def isFunctionSite (t : Tree) : Bool := t.named && t.kind ∈ Tree.functionKinds

variable {src : SourceText} {t : Tree}

/-! ## What lowering takes for a site -/

/-- lowering takes the nodes of the function types for functions -/
theorem isSome_functionForm? (t : Tree) : (functionForm? t).isSome = decide (t.kind ∈ Tree.functionKinds) := by
  unfold functionForm?
  split <;> simp_all [Tree.functionKinds]

theorem kind_of_functionForm? {form : FunctionForm} (h : functionForm? t = some form) : t.kind ∈ Tree.functionKinds := by
  simpa [h] using isSome_functionForm? t

/-- lowering takes the nodes with a short-circuit operator for chains -/
theorem isShortCircuitNode_of_ok {o : Option String} (h : logicalOperator? src t = .ok o) :
    isShortCircuitNode src t = o.isSome := by
  unfold logicalOperator? at h
  split at h
  · next hkind =>
    cases hc : t.child? "operator" with
    | none =>
      rw [hc] at h
      cases h
      simp [isShortCircuitNode, hc]
    | some c =>
      rw [hc, textOf?, textOf] at h
      cases hs : src.slice? c.start c.stop with
      | none =>
        rw [hs] at h
        cases h
      | some s =>
        rw [hs] at h
        have ho : o = if isShortCircuit s then some s else none := (Except.ok.inj h).symm
        have hsite : isShortCircuitNode src t = isShortCircuit s := by
          simp [isShortCircuitNode, isShortCircuit, hkind, hc, hs, Bool.or_assoc]
        rw [hsite, ho]
        cases isShortCircuit s <;> rfl
  · next hkind =>
    cases h
    simp [isShortCircuitNode, hkind]

end Lowering

/-- a declaration of variables -/
def Node.isVariableDeclaration : Node → Bool
  | variableDeclaration .. => true
  | _ => false

namespace Lowering

/-! ## Marks -/

/-- the places that the nodes of concrete trees and of typed programs mark themselves -/
structure Marking where
  ofTree : Tree.Category → Tree → Multiset Location
  ofNode : Node → Multiset Location

/-- the types of nodes that may be marked -/
def markedKinds : List String :=
  "variable_declaration" :: "lexical_declaration" :: "using_declaration" :: Tree.siteKinds

/-- Marks that lowering keeps. Only branching nodes, functions and declarations that are statements are marked, and what is
read of such a node marks what the node marks. -/
structure Marking.Kept (M : Marking) (src : SourceText) : Prop where
  notPart : ∀ {k t}, t.isPart = false → M.ofTree k t = 0
  plain : ∀ {k t}, t.kind ∉ markedKinds → M.ofTree k t = 0
  plainNode : ∀ {n : Node}, n.isBranch = false → n.isFunction = false → n.isVariableDeclaration = false → M.ofNode n = 0
  composite : ∀ {t}, t.fits .expression = true → Reading.IsComposite src t → M.ofTree .expression t = 0
  loopPart : ∀ {t}, M.ofTree .loopPart t = M.ofTree .expression t
  branch : ∀ {k t} {n : Node}, isBranchSite src t = true → n.span = spanOf src t → n.isBranch = true →
    n.isFunction = false → M.ofNode n = M.ofTree k t
  function : ∀ {k t form} {n : Node}, t.isPart = true → functionForm? t = some form → n.span = spanOf src t →
    n.isBranch = false → n.isFunction = true → M.ofNode n = M.ofTree k t
  declaration : ∀ {t keyword initializers declarators}, t.isPart = true → isDeclaration t = true →
    Reading.declarationKeyword src t = .ok keyword → (declaratorsOf t).mapM (declarator src) = .ok declarators →
    M.ofNode (.variableDeclaration (spanOf src t) keyword initializers declarators) = M.ofTree .statement t

/-! ## Sites -/

section Sites

variable (M : Marking)

/-- the places that are marked outside of the names and decorators of methods -/
def sites (k : Tree.Category) (t : Tree) : Multiset Location := ((t.places k).map fun p => M.ofTree p.1 p.2).sum

/-- the sites in a field -/
def fieldSites (k : Tree.Category) (t : Tree) (field : String) : Multiset Location :=
  ((t.child? field).toList.map (sites M k)).sum

/-- the sites of a child, if it may stand where it stands -/
def childSites (a : Tree.Arrangement) (c : Tree) : Multiset Location :=
  match a.place? c with
  | some k => sites M k c
  | none => 0

end Sites

variable {M : Marking} {t c : Tree} {f : String} {k kc : Tree.Category} {a : Tree.Arrangement}

theorem sites_eq (h : t.Arranged k a) : sites M k t =
    M.ofTree k t + (t.children.map fun c => if t.inHead c then 0 else childSites M a c).sum := by
  rw [sites, Tree.places_eq, List.map_cons, List.sum_cons, sum_map_flatMap]
  refine congrArg _ (congrArg List.sum (List.map_congr_left fun c _ => ?_))
  rw [Tree.placeOf?_eq h, childSites]
  split_ifs
  · rfl
  · cases a.place? c with
    | none => rfl
    | some k' =>
      rw [Option.toList_some, List.flatMap_singleton]
      rfl

theorem fieldSites_of_some (h : t.child? f = some c) : fieldSites M kc t f = sites M kc c := by
  simp [fieldSites, h]

theorem fieldSites_of_none (h : t.child? f = none) : fieldSites M kc t f = 0 := by
  simp [fieldSites, h]

theorem childSites_of_part (hpart : c.isPart = true) (hk : a.category? c.field = some kc) :
    childSites M a c = sites M kc c := by
  rw [childSites, Tree.Arrangement.place?, if_pos hpart, hk]

theorem childSites_of_mem_parts (hc : c ∈ t.parts) (hk : a.category? c.field = some kc) :
    childSites M a c = sites M kc c :=
  childSites_of_part (List.mem_filter.1 (Tree.parts_eq t ▸ hc)).2 hk

variable {src : SourceText} (hM : M.Kept src)

include hM

/-- tokens and comments have no sites -/
theorem sites_of_token (hpart : t.isPart = false) (h : t.fits .token = true) : sites M .token t = 0 := by
  induction t using Tree.inductionOn with
  | step t ih =>
    have ha : t.Arranged .token (.fields []) := .of_fits h rfl
    rw [sites_eq ha, hM.notPart hpart, zero_add]
    refine List.sum_eq_zero fun s hs => ?_
    obtain ⟨c, hc, rfl⟩ := List.mem_map.1 hs
    split_ifs
    · rfl
    · cases hc' : c.isPart with
      | false =>
        rw [childSites, Tree.Arrangement.place?, if_neg (by simp [hc'])]
        exact ih c hc hc' (ha.fits_token hc hc')
      | true =>
        obtain ⟨f, k, hnone, -⟩ := ha.exists_field (List.mem_filter.2 ⟨hc, hc'⟩)
        cases hnone

/-! ## The sites of a node by the arrangement of its parts -/

theorem sites_eq_parts (h : t.Arranged k a) : sites M k t =
    M.ofTree k t + (t.parts.map fun c => if t.inHead c then 0 else childSites M a c).sum := by
  have htokens : ((t.children.filter fun c => !c.isPart).map fun c =>
      if t.inHead c then 0 else childSites M a c).sum = 0 := by
    refine List.sum_eq_zero fun s hs => ?_
    obtain ⟨c, hc, rfl⟩ := List.mem_map.1 hs
    obtain ⟨hmem, hpart⟩ := List.mem_filter.1 hc
    rw [Bool.not_eq_true'] at hpart
    split_ifs
    · rfl
    · rw [childSites, Tree.Arrangement.place?, if_neg (by simp [hpart])]
      exact sites_of_token hM hpart (h.fits_token hmem hpart)
  rw [sites_eq h, sum_map_filter Tree.isPart, htokens, add_zero, Tree.parts_eq]

omit hM in
theorem inHead_eq_false (h : t.kind ≠ "method_definition") : t.inHead c = false := by
  simp [Tree.inHead, h]

/-- a node that is no method has the sites of all its parts -/
theorem sites_of_parts (h : t.Arranged k a) (hkind : t.kind ≠ "method_definition") :
    sites M k t = M.ofTree k t + (t.parts.map (childSites M a)).sum := by
  simp only [sites_eq_parts hM h, inHead_eq_false hkind, Bool.false_eq_true, if_false]

/-- parts that are all alike -/
theorem sites_list (h : t.Arranged k a) (hkind : t.kind ≠ "method_definition") (hk : ∀ f, a.category? f = some kc) :
    sites M k t = M.ofTree k t + (t.parts.map (sites M kc)).sum := by
  rw [sites_of_parts hM h hkind, List.map_congr_left fun c hc => childSites_of_mem_parts hc (hk c.field)]

omit hM in
theorem fieldSites_eq (h : t.Arranged k a) (hf : f ∈ a.fieldNames) (hk : a.category? (some f) = some kc) :
    ((t.parts.filter fun c => c.field == some f).map (childSites M a)).sum = fieldSites M kc t f := by
  rw [fieldSites, ← h.filter_parts hf]
  refine congrArg List.sum (List.map_congr_left fun c hc => ?_)
  obtain ⟨hmem, hfield⟩ := List.mem_filter.1 hc
  rw [childSites_of_mem_parts hmem (by rw [eq_of_beq hfield, hk])]

omit hM in
theorem lookup_of_mem {categories : List (String × Tree.Category)} (hnodup : (categories.map Prod.fst).Nodup)
    {e : String × Tree.Category} (he : e ∈ categories) : categories.lookup e.1 = some e.2 := by
  induction categories with
  | nil => cases he
  | cons d categories ih =>
    rw [List.map_cons, List.nodup_cons] at hnodup
    rcases List.mem_cons.1 he with rfl | he
    · exact List.lookup_cons_self
    · have hne : (e.1 == d.1) = false := beq_eq_false_iff_ne.2 fun h => hnodup.1 (h ▸ List.mem_map_of_mem he)
      rw [List.lookup_cons, hne]
      exact ih hnodup.2 he

theorem sites_fields {categories : List (String × Tree.Category)} (h : t.Arranged k (.fields categories))
    (hnodup : (categories.map Prod.fst).Nodup) (hkind : t.kind ≠ "method_definition") : sites M k t =
      M.ofTree k t + (categories.map fun e => fieldSites M e.2 t e.1).sum := by
  rw [sites_of_parts hM h hkind, sum_by_fields hnodup, List.map_map]
  · refine congrArg _ (congrArg List.sum (List.map_congr_left fun e he => ?_))
    exact fieldSites_eq h (List.mem_map_of_mem he) (lookup_of_mem hnodup he)
  · intro c hc hother
    obtain ⟨f, k, hmem, hf, -⟩ := h.exists_field hc
    exact absurd hf (hother f (List.mem_map_of_mem (f := Prod.fst) hmem))

/-- the sites of a node that marks nothing itself -/
theorem sites_of_plain (h : t.Arranged k a) (hkind : t.kind ∉ markedKinds) (hk : ∀ f, a.category? f = some kc) :
    sites M k t = (t.parts.map (sites M kc)).sum := by
  rw [sites_list hM h (fun hm => hkind (hm ▸ by decide)) hk, hM.plain hkind, zero_add]

theorem sites_fields_of_plain {categories : List (String × Tree.Category)} (h : t.Arranged k (.fields categories))
    (hnodup : (categories.map Prod.fst).Nodup) (hkind : t.kind ∉ markedKinds) :
    sites M k t = (categories.map fun e => fieldSites M e.2 t e.1).sum := by
  rw [sites_fields hM h hnodup fun hm => hkind (hm ▸ by decide), hM.plain hkind, zero_add]

/-- names have no sites -/
theorem sites_of_word (h : t.fits .word = true) : sites M .word t = 0 := by
  obtain ⟨hword, ha⟩ := Tree.Arranged.of_word h
  have hdisjoint : ∀ kind ∈ Tree.wordKinds, kind ∉ markedKinds := by decide
  rw [sites_fields_of_plain hM ha (by simp) (hdisjoint _ hword)]
  rfl

theorem fieldSites_of_word (h : t.Arranged k a) (hf : f ∈ a.fieldNames) (hk : a.category? (some f) = some .word) :
    fieldSites M .word t f = 0 := by
  cases hc : t.child? f with
  | none => exact fieldSites_of_none hc
  | some c => rw [fieldSites_of_some hc, sites_of_word hM (h.fits_child hf hc hk)]

/-- a function has the sites of its parameters and its body; those in the name and the decorators of a method are left
out -/
theorem sites_function {method : Bool} (h : t.Arranged k (.function method))
    (hmethod : method = true → t.kind = "method_definition") : sites M k t =
      M.ofTree k t + (fieldSites M .parameters t "parameters" + fieldSites M .expression t "body") := by
  have hfield : ∀ f ∈ ["parameters", "body"], ((t.parts.filter fun c => c.field == some f).map fun c =>
      if t.inHead c then 0 else childSites M (.function method) c).sum =
        ((t.parts.filter fun c => c.field == some f).map (childSites M (.function method))).sum := by
    intro f hf
    refine congrArg List.sum (List.map_congr_left fun c hc => ?_)
    have hcf : c.field = some f := by simpa using (List.mem_filter.1 hc).2
    rw [if_neg]
    simp only [List.mem_cons, List.not_mem_nil, or_false] at hf
    rcases hf with rfl | rfl <;> simp [Tree.inHead, hcf]
  rw [sites_eq_parts hM h, sum_by_fields (show ["parameters", "body"].Nodup by decide)]
  · simp only [List.map_cons, List.map_nil, List.sum_cons, List.sum_nil, add_zero]
    rw [hfield "parameters" (by simp), hfield "body" (by simp),
      fieldSites_eq h (by simp [Tree.Arrangement.fieldNames]) rfl, fieldSites_eq h (by simp [Tree.Arrangement.fieldNames]) rfl]
  · -- a part elsewhere is in the head of the method, or a name
    intro c hc hother
    by_cases hhead : t.inHead c = true
    · rw [if_pos hhead]
    · have hp : c.field ≠ some "parameters" := hother _ (by simp)
      have hb : c.field ≠ some "body" := hother _ (by simp)
      have hk : (Tree.Arrangement.function method).category? c.field = some .word := by
        cases method <;> simp_all [Tree.Arrangement.category?, Tree.inHead]
      rw [if_neg hhead, childSites_of_mem_parts hc hk, sites_of_word hM (h.fits_part hc hk)]

theorem sites_clause (h : t.Arranged k .clause) (hkind : t.kind ≠ "method_definition") : sites M k t =
    M.ofTree k t + (fieldSites M .expression t "value" +
      ((((t.children.dropWhile fun c => c.kind ≠ ":").drop 1).filter Tree.isPart).map (sites M .statement)).sum) := by
  have hvalue : ∀ c ∈ (t.child? "value").toList, childSites M .clause c = sites M .expression c := fun c hc => by
    obtain ⟨hmem, hfield⟩ := h.mem_parts_of_child? (by simp [Tree.Arrangement.fieldNames]) (Option.mem_toList.1 hc)
    exact childSites_of_mem_parts hmem (by simp [hfield, Tree.Arrangement.category?])
  have hbehind : ∀ c ∈ ((t.children.dropWhile fun c => c.kind ≠ ":").drop 1).filter Tree.isPart,
      childSites M .clause c = sites M .statement c := fun c hc =>
    childSites_of_mem_parts (h.category?_behind_colon hc).1 (h.category?_behind_colon hc).2
  rw [sites_of_parts hM h hkind, h.parts_clause, List.map_append, List.sum_append, fieldSites,
    List.map_congr_left hvalue, List.map_congr_left hbehind]

theorem sites_loop (h : t.Arranged k .loop) (hkind : t.kind ≠ "method_definition") : sites M k t =
    M.ofTree k t + (((loopParts t).map (sites M .loopPart)).sum + fieldSites M .statement t "body") := by
  have hhead : ∀ c ∈ loopParts t, childSites M .loop c = sites M .loopPart c := fun c hc =>
    childSites_of_mem_parts (h.category?_loopPart hc).1 (h.category?_loopPart hc).2
  have hbody : Tree.Arrangement.loop.category? (some "body") = some .statement := rfl
  rw [sites_of_parts hM h hkind, sum_map_filter (fun c => c.field == some "body"),
    fieldSites_eq h (by simp [Tree.Arrangement.fieldNames]) hbody, ← h.loopParts_eq, List.map_congr_left hhead,
    add_comm (fieldSites M .statement t "body")]

end Lowering

end Turnstile
