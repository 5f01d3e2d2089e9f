/-
The marks that expressions keep.

The marked nodes of a typed program are those of its concrete tree.
- `Node.sites`: the places that the nodes of a program mark;
- `Reading.KeepsSites`: what is read of a tree has the sites of the tree;
- `chainOnto_sites`: a chain of short-circuit operators taken apart has the sites of the chain;
- `KeepsSites.function`, `KeepsSites.readExpression`: one level of lowering keeps the sites of expressions. What stands in
  the name or the decorators of a method is not read.
-/
import Turnstile.Proofs.Concrete.Sites
import Turnstile.Proofs.Program.Reading

namespace Turnstile

/-! ## Sites of typed programs -/

namespace Node

variable (M : Lowering.Marking)

/-- the places that the nodes of a program mark -/
def sites (n : Node) : Multiset Location := ((n.preorder .root).map fun p => M.ofNode p.2).sum

/-- the sites of some nodes -/
def sitesAmong (ns : List Node) : Multiset Location := (ns.map (sites M)).sum

variable {M}

theorem map_snd_preorder (a b : Address) (n : Node) :
    (n.preorder a).map Prod.snd = (n.preorder b).map Prod.snd := by
  induction n using inductionOn generalizing a b with
  | step n ih =>
    have hparts (a b : Address) : ((n.placed a).flatMap fun p => (p.2.preorder p.1).map Prod.snd) =
        n.children.flatMap fun c => (c.preorder b).map Prod.snd := by
      rw [← flatMap_placedFrom _ a 0]
      exact List.flatMap_congr fun p hp => ih p.2 (mem_of_mem_placedFrom hp) _ _
    rw [preorder_eq, preorder_eq, List.map_cons, List.map_cons, List.map_flatMap, List.map_flatMap]
    rw [hparts a b, hparts b b]

theorem sites_eq (n : Node) : n.sites M = M.ofNode n + sitesAmong M n.children := by
  have hroot (a : Address) (c : Node) : ((c.preorder a).map fun p => M.ofNode p.2).sum = c.sites M := by
    have hmap (a : Address) : ((c.preorder a).map fun p => M.ofNode p.2) =
        ((c.preorder a).map Prod.snd).map M.ofNode := by simp
    rw [sites, hmap, hmap, map_snd_preorder a .root]
  rw [sites, preorder_eq, List.map_cons, List.sum_cons, sum_map_flatMap, sitesAmong]
  simp only [hroot]
  conv_rhs => rw [← map_snd_placedFrom .root 0 n.children, List.map_map]
  rfl

@[simp] theorem sitesAmong_nil : sitesAmong M [] = 0 := rfl

@[simp] theorem sitesAmong_cons (n : Node) (ns : List Node) :
    sitesAmong M (n :: ns) = n.sites M + sitesAmong M ns := rfl

theorem sitesAmong_singleton (n : Node) : sitesAmong M [n] = n.sites M := add_zero _

@[simp] theorem sitesAmong_append (ms ns : List Node) :
    sitesAmong M (ms ++ ns) = sitesAmong M ms + sitesAmong M ns := by
  simp [sitesAmong]

theorem sitesAmong_filterMap (os : List (Option Node)) :
    sitesAmong M (os.filterMap id) = (os.map fun o => sitesAmong M o.toList).sum := by
  induction os with
  | nil => rfl
  | cons o os ih =>
    rw [List.map_cons, List.sum_cons, ← ih]
    cases o <;> simp

end Node

namespace Lowering

open Node (sitesAmong)

/-! ## One level of lowering -/

/-- what is read of a tree has the sites of the tree -/
structure Reading.KeepsSites (r : Reading) (src : SourceText) (M : Marking) : Prop where
  kept : M.Kept src
  expression : ∀ {keep t o}, t.fits .expression = true → r.expression keep t = .ok o →
    sitesAmong M o.toList = sites M .expression t
  statement : ∀ {t n}, t.fits .statement = true → r.statement t = .ok n → n.sites M = sites M .statement t

variable {r : Reading} {src : SourceText} {M : Marking} {t : Tree} {n : Node} {ns : List Node}
  {k : Tree.Category} {a : Tree.Arrangement}

/-- a node that marks nothing itself -/
theorem sites_of_plainNode (hM : M.Kept src) (hbranch : n.isBranch = false) (hfunction : n.isFunction = false)
    (hdeclaration : n.isVariableDeclaration = false) : n.sites M = sitesAmong M n.children := by
  rw [Node.sites_eq, hM.plainNode hbranch hfunction hdeclaration, zero_add]

/-- a list read tree by tree -/
theorem sum_of_mapM {β : Type} {f : Tree → Result β} {g : β → Multiset Location} {g' : Tree → Multiset Location}
    {ts : List Tree} {bs : List β} (hf : ∀ t ∈ ts, ∀ b, f t = .ok b → g b = g' t) (h : ts.mapM f = .ok bs) :
    (bs.map g).sum = (ts.map g').sum := by
  induction ts generalizing bs with
  | nil =>
    cases h
    rfl
  | cons t ts ih =>
    rw [List.mapM_cons, bind_eq_ok_iff] at h
    obtain ⟨b, hb, h⟩ := h
    obtain ⟨cs, hcs, h⟩ := bind_eq_ok_iff.1 h
    cases h
    rw [List.map_cons, List.map_cons, List.sum_cons, List.sum_cons, hf t List.mem_cons_self b hb,
      ih (fun u hu => hf u (List.mem_cons_of_mem _ hu)) hcs]

theorem sitesAmong_of_mapM {f : Tree → Result (Option Node)} {g : Tree → Multiset Location} {ts : List Tree}
    (hf : ∀ t ∈ ts, ∀ o, f t = .ok o → sitesAmong M o.toList = g t)
    (h : (List.filterMap id) <$> ts.mapM f = .ok ns) : sitesAmong M ns = (ts.map g).sum := by
  obtain ⟨os, hos, rfl⟩ := map_eq_ok_iff.1 h
  rw [Node.sitesAmong_filterMap, sum_of_mapM hf hos]

/-! ## Chains of short-circuit operators -/

/-- one operator of a chain -/
structure IsOperator (src : SourceText) (t : Tree) : Prop where
  arranged : t.Arranged .expression (.fields [("left", .expression), ("right", .expression)])
  kind : t.kind = "binary_expression"
  isBranchSite : isBranchSite src t = true

variable (M) in
/-- the sites of an operator outside of its left operand -/
def operatorSites (step : Tree × String) : Multiset Location :=
  M.ofTree .expression step.1 + fieldSites M .expression step.1 "right"

theorem isOperator_of_fits (hfits : t.fits .expression = true) {operator : String}
    (h : logicalOperator? src t = .ok (some operator)) : IsOperator src t := by
  have hkind := kind_of_logicalOperator? h
  have ha : t.Arranged .expression (.fields [("left", .expression), ("right", .expression)]) :=
    .of_fits hfits (by rw [hkind]; rfl)
  exact ⟨ha, hkind, by simp [isBranchSite, isShortCircuitNode_of_ok h, ha.named (by decide)]⟩

theorem IsOperator.sites_eq (hM : M.Kept src) (h : IsOperator src t) (operator : String) :
    sites M .expression t = fieldSites M .expression t "left" + operatorSites M (t, operator) := by
  rw [sites_fields hM h.arranged (by decide) (by rw [h.kind]; decide), operatorSites]
  simp only [List.map_cons, List.map_nil, List.sum_cons, List.sum_nil, add_zero]
  exact add_left_comm _ _ _

/-- a chain taken apart: its operators, and the operand that it starts with -/
theorem chainOnto_sites (hM : M.Kept src) {done steps : List (Tree × String)} {first : Option Tree}
    (hfits : t.fits .expression = true) (hdone : ∀ step ∈ done, IsOperator src step.1)
    (h : chainOnto src done t = .ok (steps, first)) :
    sites M .expression t + (done.map (operatorSites M)).sum =
        (first.toList.map (sites M .expression)).sum + (steps.map (operatorSites M)).sum ∧
      (∀ f ∈ first, f.fits .expression = true) ∧ ∀ step ∈ steps, IsOperator src step.1 := by
  -- along the left operands; what is already taken apart grows with each operator
  induction t using Tree.inductionOn generalizing done with
  | step t ih =>
    rw [chainOnto_eq, bind_eq_ok_iff] at h
    obtain ⟨operator, hoperator, h⟩ := h
    cases operator with
    | none =>
      cases h
      exact ⟨by simp, by simpa using hfits, hdone⟩
    | some operator =>
      have ht := isOperator_of_fits hfits hoperator
      have hnext : ∀ step ∈ (t, operator) :: done, IsOperator src step.1 := List.forall_mem_cons.2 ⟨ht, hdone⟩
      dsimp only at h
      split at h
      · next hleft =>
        cases h
        refine ⟨?_, by simp, hnext⟩
        simp [ht.sites_eq hM operator, fieldSites_of_none hleft]
      · next left hleft =>
        have hfitsLeft := ht.arranged.fits_child (by decide) hleft rfl
        obtain ⟨hsum, hrest⟩ := ih left (Tree.mem_children_of_child? hleft) hfitsLeft hnext h
        refine ⟨?_, hrest⟩
        rw [← hsum, ht.sites_eq hM operator, fieldSites_of_some hleft, List.map_cons, List.sum_cons, add_assoc]

namespace Reading.KeepsSites

theorem field (hr : r.KeepsSites src M) (ha : t.Arranged k a) {field : String} (hf : field ∈ a.fieldNames)
    (hk : a.category? (some field) = some .expression) {keep : Bool} {o : Option Node}
    (h : r.field keep t field = .ok o) : sitesAmong M o.toList = fieldSites M .expression t field := by
  unfold Reading.field at h
  split at h
  · next c hc =>
    rw [fieldSites_of_some hc]
    exact hr.expression (ha.fits_child hf hc hk) h
  · next hc =>
    cases h
    rw [fieldSites_of_none hc]
    rfl

theorem statementField (hr : r.KeepsSites src M) (ha : t.Arranged k a) {field : String} (hf : field ∈ a.fieldNames)
    (hk : a.category? (some field) = some .statement) (h : r.statementField t field = .ok n) :
    n.sites M = fieldSites M .statement t field := by
  obtain ⟨c, hc, h⟩ := bind_eq_ok_iff.1 h
  have hc := required_eq_ok_iff.1 hc
  rw [fieldSites_of_some hc]
  exact hr.statement (ha.fits_child hf hc hk) h

theorem firstPart (hr : r.KeepsSites src M) (ha : t.Arranged k (.atMostOne .expression)) {o : Option Node}
    (h : r.firstPart t = .ok o) : sitesAmong M o.toList = (t.parts.map (sites M .expression)).sum := by
  unfold Reading.firstPart at h
  rcases ha.parts_atMostOne with hparts | ⟨c, hparts⟩
  · rw [hparts] at h ⊢
    cases h
    rfl
  · have hfits := ha.fits_part (c := c) (by simp [hparts]) rfl
    rw [hparts] at h ⊢
    simpa using hr.expression hfits h

theorem expressions (hr : r.KeepsSites src M) {ts : List Tree} (hfits : ∀ c ∈ ts, c.fits .expression = true)
    (h : r.expressions ts = .ok ns) : sitesAmong M ns = (ts.map (sites M .expression)).sum :=
  sitesAmong_of_mapM (fun c hc _ ho => hr.expression (hfits c hc) ho) h

theorem statements (hr : r.KeepsSites src M) {ts : List Tree} (hfits : ∀ c ∈ ts, c.fits .statement = true)
    (h : ts.mapM r.statement = .ok ns) : sitesAmong M ns = (ts.map (sites M .statement)).sum :=
  sum_of_mapM (fun c hc _ hn => hr.statement (hfits c hc) hn) h

/-! ## Declarations and blocks -/

theorem initializers (hr : r.KeepsSites src M) (ha : t.Arranged k (.list .declarator))
    (h : r.initializers t = .ok ns) : sitesAmong M ns = (t.parts.map (sites M .declarator)).sum := by
  have hdeclarator (d : Tree) (hd : d ∈ t.parts) : d.kind = "variable_declarator" ∧
      d.Arranged .declarator (.fields [("name", .expression), ("value", .expression)]) :=
    Tree.Arranged.of_soleType rfl (ha.fits_part hd rfl)
  have hall : declaratorsOf t = t.parts :=
    List.filter_eq_self.2 fun d hd => by simpa using (hdeclarator d hd).1
  rw [Reading.initializers, hall] at h
  rw [hr.expressions ?_ h, sum_map_flatMap]
  · refine congrArg List.sum (List.map_congr_left fun d hd => ?_)
    obtain ⟨hkind, hd⟩ := hdeclarator d hd
    rw [sites_fields_of_plain hr.kept hd (by decide) (by rw [hkind]; decide)]
    simp [fieldSites]
  · intro c hc
    obtain ⟨d, hd, hc⟩ := List.mem_flatMap.1 hc
    obtain ⟨-, hd⟩ := hdeclarator d hd
    rcases List.mem_append.1 hc with hc | hc
    · exact hd.fits_child (by decide) (Option.mem_toList.1 hc) rfl
    · exact hd.fits_child (by decide) (Option.mem_toList.1 hc) rfl

theorem block (hr : r.KeepsSites src M) (ha : t.Arranged k (.list .statement)) (hkind : t.kind ∉ markedKinds)
    (h : r.block src t = .ok n) : n.sites M = sites M k t := by
  obtain ⟨body, hb, h⟩ := bind_eq_ok_iff.1 h
  cases h
  rw [sites_of_plainNode hr.kept rfl rfl rfl, sites_of_plain hr.kept ha hkind fun _ => rfl]
  exact hr.statements (fun c hc => ha.fits_part hc rfl) hb

theorem blockField (hr : r.KeepsSites src M) (ha : t.Arranged k a) {field : String} (hf : field ∈ a.fieldNames)
    (hk : a.category? (some field) = some .block) (h : r.blockField src t field = .ok n) :
    n.sites M = fieldSites M .block t field := by
  obtain ⟨c, hc, h⟩ := bind_eq_ok_iff.1 h
  have hc := required_eq_ok_iff.1 hc
  obtain ⟨hkind, hb⟩ := Tree.Arranged.of_soleType rfl (ha.fits_child hf hc hk)
  rw [fieldSites_of_some hc]
  exact hr.block hb (by rw [hkind]; decide) h

/-! ## Functions -/

/-- the text of a directive has no sites -/
theorem sites_of_directiveValue? (hM : M.Kept src) {value : String} (hfits : t.fits .statement = true)
    (h : directiveValue? src t = .ok (some value)) : sites M .statement t = 0 := by
  unfold directiveValue? at h
  split at h
  case isFalse => cases h
  next hkind =>
  split at h
  case h_2 => cases h
  next c hparts =>
  split at h
  case isFalse => cases h
  next hc =>
  have ha : t.Arranged .statement (.atMostOne .expression) := .of_fits hfits (by rw [hkind]; rfl)
  have hstring : c.Arranged .expression (.list .word) :=
    .of_fits (ha.fits_part (by simp [hparts]) rfl) (by rw [hc]; rfl)
  rw [sites_of_plain hM ha (by rw [hkind]; decide) fun _ => rfl, hparts, List.map_singleton, List.sum_singleton,
    sites_of_plain hM hstring (by rw [hc]; decide) fun _ => rfl]
  refine List.sum_eq_zero fun s hs => ?_
  obtain ⟨w, hw, rfl⟩ := List.mem_map.1 hs
  exact sites_of_word hM (hstring.fits_part hw rfl)

theorem prologue (hr : r.KeepsSites src M) {ts : List Tree} (hfits : ∀ c ∈ ts, c.fits .statement = true)
    (h : r.prologue src ts = .ok ns) : sitesAmong M ns = (ts.map (sites M .statement)).sum := by
  induction ts generalizing ns with
  | nil =>
    cases h
    rfl
  | cons t ts ih =>
    rw [Reading.prologue, bind_eq_ok_iff] at h
    obtain ⟨value, hvalue, h⟩ := h
    cases value with
    | some value =>
      obtain ⟨rest, hrest, h⟩ := bind_eq_ok_iff.1 h
      cases h
      rw [Node.sitesAmong_cons, sites_of_plainNode hr.kept rfl rfl rfl, List.map_cons, List.sum_cons,
        sites_of_directiveValue? hr.kept (hfits t List.mem_cons_self) hvalue,
        ih (fun c hc => hfits c (List.mem_cons_of_mem _ hc)) hrest]
      rfl
    | none => exact hr.statements hfits h

theorem functionBlock (hr : r.KeepsSites src M) (ha : t.Arranged k (.list .statement))
    (hkind : t.kind ∉ markedKinds) (h : r.functionBlock src t = .ok n) : n.sites M = sites M k t := by
  obtain ⟨body, hb, h⟩ := bind_eq_ok_iff.1 h
  cases h
  rw [sites_of_plainNode hr.kept rfl rfl rfl, sites_of_plain hr.kept ha hkind fun _ => rfl]
  exact hr.prologue (fun c hc => ha.fits_part hc rfl) hb

theorem parameters (hr : r.KeepsSites src M) {method : Bool} (ha : t.Arranged k (.function method))
    (h : r.parameters t = .ok ns) : sitesAmong M ns = fieldSites M .parameters t "parameters" := by
  unfold Reading.parameters at h
  split at h
  · next p hp =>
    obtain ⟨hkind, hb⟩ := Tree.Arranged.of_soleType rfl (ha.fits_child (by simp [Tree.Arrangement.fieldNames]) hp rfl)
    rw [fieldSites_of_some hp, sites_of_plain hr.kept hb (by rw [hkind]; decide) fun _ => rfl]
    exact hr.expressions (fun c hc => hb.fits_part hc rfl) h
  · next hp =>
    cases h
    rw [fieldSites_of_none hp]
    rfl

theorem functionBody (hr : r.KeepsSites src M) (hfits : t.fits .expression = true) {o : Option Node}
    (h : r.functionBody src t = .ok o) : sitesAmong M o.toList = sites M .expression t := by
  unfold Reading.functionBody at h
  split_ifs at h with hkind
  · obtain ⟨m, hm, rfl⟩ := map_eq_ok_iff.1 h
    have ha : t.Arranged .expression (.list .statement) := .of_fits hfits (by rw [hkind]; rfl)
    simpa using hr.functionBlock ha (by rw [hkind]; decide) hm
  · exact hr.expression hfits h

/-- a function keeps the sites of its parameters and its body -/
theorem function (hr : r.KeepsSites src M) {method : Bool} (ha : t.Arranged k (.function method))
    (hmethod : method = true → t.kind = "method_definition") (hk : k ≠ .token) {form : FunctionForm}
    (hform : functionForm? t = some form) (h : r.function src t form = .ok n) : n.sites M = sites M k t := by
  rw [function_eq] at h
  obtain ⟨parameters, hp, h⟩ := bind_eq_ok_iff.1 h
  obtain ⟨b, hb, h⟩ := bind_eq_ok_iff.1 h
  obtain ⟨body, hbody, h⟩ := bind_eq_ok_iff.1 h
  obtain ⟨name, -, h⟩ := bind_eq_ok_iff.1 h
  cases h
  have hb := required_eq_ok_iff.1 hb
  have hfits := ha.fits_child (by simp [Tree.Arrangement.fieldNames]) hb rfl
  rw [Node.sites_eq, hr.kept.function (ha.isPart.resolve_left hk) hform rfl rfl rfl, sites_function hr.kept ha hmethod,
    Node.children, Node.sitesAmong_append, hr.parameters ha hp, hr.functionBody hfits hbody, fieldSites_of_some hb]

/-! ## Expressions -/

/-- nothing is lost where an expression with nothing inside is left out -/
theorem sitesAmong_composite (hM : M.Kept src) {p : Prop} [Decidable p] (hp : p → ns = []) (span : Span) (kind : String) :
    sitesAmong M (if p then none else some (Node.composite span kind ns)).toList = sitesAmong M ns := by
  split_ifs with h
  · rw [hp h]
    rfl
  · rw [Option.toList_some, Node.sitesAmong_singleton, sites_of_plainNode hM rfl rfl rfl]
    rfl

theorem conditional (hr : r.KeepsSites src M) (hfits : t.fits .expression = true)
    (hkind : t.kind = "ternary_expression") {o : Option Node} (h : r.conditional src t = .ok o) :
    sitesAmong M o.toList = sites M .expression t := by
  have ha : t.Arranged .expression
      (.fields [("condition", .expression), ("consequence", .expression), ("alternative", .expression)]) :=
    .of_fits hfits (by rw [hkind]; rfl)
  have hbranch : isBranchSite src t = true := by simp [isBranchSite, ha.named (by decide), hkind]
  obtain ⟨test, ht, h⟩ := bind_eq_ok_iff.1 h
  obtain ⟨consequent, hc, h⟩ := bind_eq_ok_iff.1 h
  obtain ⟨alternate, hal, h⟩ := bind_eq_ok_iff.1 h
  cases h
  rw [Option.toList_some, Node.sitesAmong_singleton, Node.sites_eq, hr.kept.branch hbranch rfl rfl rfl,
    sites_fields hr.kept ha (by decide) (by rw [hkind]; decide)]
  simp only [Node.children, Node.sitesAmong_append, List.map_cons, List.map_nil, List.sum_cons, List.sum_nil, add_zero]
  rw [hr.field ha (by decide) rfl ht, hr.field ha (by decide) rfl hc, hr.field ha (by decide) rfl hal,
    add_assoc (fieldSites ..)]

theorem applyOperator (hr : r.KeepsSites src M) {left o : Option Node} {step : Tree × String}
    (hstep : IsOperator src step.1) (h : r.applyOperator src left step = .ok o) :
    sitesAmong M o.toList = sitesAmong M left.toList + operatorSites M step := by
  obtain ⟨right, hright, h⟩ := bind_eq_ok_iff.1 h
  cases h
  rw [Option.toList_some, Node.sitesAmong_singleton, Node.sites_eq, hr.kept.branch hstep.isBranchSite rfl rfl rfl,
    Node.children, Node.sitesAmong_append, hr.field hstep.arranged (by decide) rfl hright, operatorSites]
  exact add_left_comm _ _ _

theorem applyOperators (hr : r.KeepsSites src M) {left o : Option Node} {steps : List (Tree × String)}
    (hsteps : ∀ step ∈ steps, IsOperator src step.1) (h : steps.foldlM (r.applyOperator src) left = .ok o) :
    sitesAmong M o.toList = sitesAmong M left.toList + (steps.map (operatorSites M)).sum := by
  induction steps generalizing left with
  | nil =>
    cases h
    simp
  | cons step steps ih =>
    rw [List.foldlM_cons, bind_eq_ok_iff] at h
    obtain ⟨next, hnext, h⟩ := h
    rw [List.forall_mem_cons] at hsteps
    rw [ih hsteps.2 h, hr.applyOperator hsteps.1 hnext, List.map_cons, List.sum_cons, add_assoc]

theorem logical (hr : r.KeepsSites src M) (hfits : t.fits .expression = true) {o : Option Node}
    (h : r.logical src t = .ok o) : sitesAmong M o.toList = sites M .expression t := by
  obtain ⟨⟨steps, first⟩, hchain, h⟩ := bind_eq_ok_iff.1 h
  obtain ⟨hsum, hfirst, hsteps⟩ := chainOnto_sites hr.kept hfits (by simp) hchain
  rw [List.map_nil, List.sum_nil, add_zero] at hsum
  cases first with
  | none =>
    rw [hr.applyOperators hsteps h, hsum]
    rfl
  | some f =>
    obtain ⟨left, hleft, h⟩ := bind_eq_ok_iff.1 h
    rw [hr.applyOperators hsteps h, hsum, hr.expression (hfirst f rfl) hleft]
    simp

/-- what stands in an expression without a reading of its own is a name or an expression, unless it declares something -/
theorem arrangement_of_isComposite (ha : t.Arranged .expression a) (hcomposite : IsComposite src t)
    (hdeclaration : isDeclaration t = false) : a = .list .word ∨
      a = .fields [("left", .expression), ("right", .expression)] ∨ a = .list .expression := by
  obtain ⟨notFunction, notConditional, -, notStaticBlock, notBlock⟩ := hcomposite
  have harrangement : Tree.expressionArrangement? t.kind = some a := ha.arrangement
  unfold functionForm? at notFunction
  unfold isDeclaration at hdeclaration
  unfold Tree.expressionArrangement? at harrangement
  split at harrangement <;> simp_all

/-- a name has no sites as an expression either -/
theorem sites_expression_of_word (hM : M.Kept src) (h : t.fits .word = true) : sites M .expression t = 0 := by
  obtain ⟨hword, hnames⟩ := Tree.Arranged.of_word h
  obtain ⟨a, ha⟩ := Tree.fits_iff.1 (Tree.Arranged.fits_expression_of_word h)
  have hdisjoint : ∀ kind ∈ Tree.wordKinds, kind ∉ markedKinds := by decide
  have hparts : t.parts = [] := List.eq_nil_iff_forall_not_mem.2 fun c hc => by
    obtain ⟨f, k, hnone, -⟩ := hnames.exists_field hc
    cases hnone
  have hkind := hdisjoint _ hword
  rw [sites_of_parts hM ha fun hm => hkind (hm ▸ by decide), hM.plain hkind, hparts]
  rfl

/-- what stands in an expression without a reading of its own is an expression, unless it declares something -/
theorem fits_part_of_isComposite (hM : M.Kept src) (ha : t.Arranged .expression a) (hcomposite : IsComposite src t)
    (hdeclaration : isDeclaration t = false) {c : Tree} (hc : c ∈ t.parts) :
    c.fits .expression = true ∧ childSites M a c = sites M .expression c := by
  rcases arrangement_of_isComposite ha hcomposite hdeclaration with rfl | rfl | rfl
  · have hword := ha.fits_part hc rfl
    refine ⟨Tree.Arranged.fits_expression_of_word hword, ?_⟩
    rw [sites_expression_of_word hM hword, childSites_of_mem_parts hc rfl, sites_of_word hM hword]
  · obtain ⟨f, k, hmem, hfield, hfits⟩ := ha.exists_field hc
    simp only [List.mem_cons, List.not_mem_nil, or_false, Prod.mk.injEq] at hmem
    rcases hmem with ⟨rfl, rfl⟩ | ⟨rfl, rfl⟩ <;> exact ⟨hfits, childSites_of_mem_parts hc (by rw [hfield]; rfl)⟩
  · exact ⟨ha.fits_part hc rfl, childSites_of_mem_parts hc rfl⟩

theorem arranged_of_isDeclaration (src : SourceText) (hfits : t.fits .expression = true)
    (hdeclaration : isDeclaration t = true) : IsComposite src t ∧ t.Arranged .expression (.list .declarator) := by
  simp only [isDeclaration, Bool.or_eq_true, decide_eq_true_eq] at hdeclaration
  rcases hdeclaration with (hkind | hkind) | hkind <;>
    exact ⟨⟨by simp [functionForm?, hkind], by simp [hkind], by simp [logicalOperator?, hkind], by simp [hkind],
      by simp [hkind]⟩, .of_fits hfits (by rw [hkind]; rfl)⟩

theorem elements (hr : r.KeepsSites src M) (ha : t.Arranged .expression a) (hcomposite : IsComposite src t)
    (h : r.elements t = .ok ns) : sitesAmong M ns = (t.parts.map (childSites M a)).sum := by
  have hfits := Tree.fits_iff.2 ⟨a, ha⟩
  unfold Reading.elements at h
  split at h
  · next hdeclaration =>
    have hdeclared := (arranged_of_isDeclaration src hfits hdeclaration).2
    obtain rfl : a = .list .declarator := Option.some.inj (ha.arrangement.symm.trans hdeclared.arrangement)
    rw [hr.initializers hdeclared h, List.map_congr_left fun c hc => childSites_of_mem_parts hc rfl]
  · next hdeclaration =>
    have hparts := fun c hc => fits_part_of_isComposite hr.kept ha hcomposite (by simpa using hdeclaration) (c := c) hc
    rw [hr.expressions (fun c hc => (hparts c hc).1) h, List.map_congr_left fun c hc => (hparts c hc).2]

theorem composite (hr : r.KeepsSites src M) (hfits : t.fits .expression = true) (hcomposite : IsComposite src t)
    {keep : Bool} {o : Option Node} (h : r.composite src t keep = .ok o) :
    sitesAmong M o.toList = sites M .expression t := by
  obtain ⟨ns, hns, h⟩ := bind_eq_ok_iff.1 h
  cases h
  obtain ⟨a, ha⟩ := Tree.fits_iff.1 hfits
  have hmethod : t.kind ≠ "method_definition" := by
    intro hkind
    have hform := hcomposite.notFunction
    simp [functionForm?, hkind] at hform
  rw [sites_of_parts hr.kept ha hmethod, hr.kept.composite hfits hcomposite, zero_add, ← hr.elements ha hcomposite hns]
  exact sitesAmong_composite hr.kept (fun hempty => List.isEmpty_iff.1 (Bool.and_eq_true_iff.1 hempty).1) _ _

theorem readExpression (hr : r.KeepsSites src M) (hfits : t.fits .expression = true) {keep : Bool} {o : Option Node}
    (h : r.readExpression src keep t = .ok o) : sitesAmong M o.toList = sites M .expression t := by
  obtain ⟨a, ha⟩ := Tree.fits_iff.1 hfits
  have hpart := ha.isPart.resolve_left (by decide)
  rcases r.readExpression_cases src t keep h with
    ⟨hcomment, -⟩ | ⟨form, m, hform, hm, rfl⟩ | ⟨hkind, hm⟩ | ⟨operator, -, hm⟩ | ⟨hkind, m, hm, rfl⟩ |
      ⟨hkind, m, hm, rfl⟩ | ⟨hcomposite, hm⟩
  · simp [Tree.isPart, hcomment] at hpart
  · obtain ⟨method, rfl, hmethod⟩ : ∃ method, a = .function method ∧ (method = true → t.kind = "method_definition") := by
      have harrangement : Tree.expressionArrangement? t.kind = some a := ha.arrangement
      unfold functionForm? at hform
      split at hform <;> simp_all [Tree.expressionArrangement?]
    simpa using hr.function ha hmethod (by decide) hform hm
  · exact hr.conditional hfits hkind hm
  · exact hr.logical hfits hm
  · have ha : t.Arranged .expression (.fields [("body", .block)]) := .of_fits hfits (by rw [hkind]; rfl)
    rw [sites_fields_of_plain hr.kept ha (by decide) (by rw [hkind]; decide), Option.toList_some, Node.sitesAmong_cons,
      sites_of_plainNode hr.kept rfl rfl rfl, Node.children, Node.sitesAmong_cons,
      hr.blockField ha (by decide) rfl hm]
    simp
  · have ha : t.Arranged .expression (.list .statement) := .of_fits hfits (by rw [hkind]; rfl)
    simpa using hr.block ha (by rw [hkind]; decide) hm
  · exact hr.composite hfits hcomposite hm

end Reading.KeepsSites

end Lowering

end Turnstile
