/-
Lowered programs in source order.

The parts of a typed node come from fields and from lists with pieces left out, and the nodes between are skipped. They still
stand where the trees stood that they are read from.
- `IsOrdered`, `Ordered`: a node whose parts are in order, and a node with such nodes all the way down;
- `InPlaceOf`: nodes that stand wherever some trees stand, one behind the other if the trees are; `InPlaceOf.append`,
  `InPlaceOf.within` and `InPlaceOf.node` put them together;
- `Reading.KeepsOrder`: a reading that gives ordered nodes in place of trees. One level of lowering keeps this, one lemma for
  each reading;
- `program_keeps_source_order`: the program of an orderly tree is ordered all the way down.
-/
import Turnstile.Proofs.Concrete.SourceOrder
import Turnstile.Proofs.Emit.Spans
import Turnstile.Proofs.Program.Chains

namespace Turnstile

/-! ## Ordered nodes -/

namespace Node

/-- the parts of a node are inside it, not empty and one behind the other, and a clause has its colon behind its test and in
front of its statements -/
structure IsOrdered (n : Node) : Prop where
  inside : ∀ c ∈ n.children,
    n.span.start ≤ c.span.start ∧ c.span.start < c.span.stop ∧ c.span.stop ≤ n.span.stop
  apart : n.children.Pairwise fun c d => c.span.stop ≤ d.span.start
  colon : ∀ span test body offset, n = .switchCase span test body offset →
    (∀ c ∈ test, c.span.stop ≤ offset) ∧ ∀ c ∈ body, offset ≤ c.span.start

/-- a node with ordered nodes all the way down -/
inductive Ordered : Node → Prop where
  | mk {n : Node} : n.IsOrdered → (∀ c ∈ n.children, Ordered c) → Ordered n

variable {n : Node}

theorem IsOrdered.of_inOrder (h : InOrder n.span.stop n.span.start n.children) (hclause : n.isClause = false) :
    n.IsOrdered := by
  refine ⟨fun c hc => h.of_mem hc, h.pairwise, ?_⟩
  rintro span test body offset rfl
  cases hclause

theorem IsOrdered.of_none (h : n.children = []) (hclause : n.isClause = false) : n.IsOrdered := by
  refine ⟨by simp [h], by simp [h], ?_⟩
  rintro span test body offset rfl
  cases hclause

theorem Ordered.of_mem_preorder {a : Address} {p : Address × Node} (h : n.Ordered) (hp : p ∈ n.preorder a) :
    p.2.IsOrdered := by
  induction n using Node.inductionOn generalizing a with
  | step n ih =>
    obtain ⟨hnode, hchildren⟩ := h
    rw [preorder_eq, List.mem_cons, List.mem_flatMap] at hp
    rcases hp with rfl | ⟨q, hq, hp⟩
    · exact hnode
    · have hc : q.2 ∈ n.children := mem_of_mem_placedFrom hq
      exact ih q.2 hc (hchildren q.2 hc) hp

end Node

theorem InOrder.append {lo mid hi : ℕ} {ms ns : List Node} (hms : InOrder mid lo ms) (hns : InOrder hi mid ns) :
    InOrder hi lo (ms ++ ns) := by
  induction ms generalizing lo with
  | nil => exact hns.mono hms le_rfl
  | cons m ms ih => exact ⟨hms.1, hms.2.1, ih hms.2.2⟩

namespace Lowering

/-! ## Nodes in place of trees -/

/-- ordered nodes that stand one behind the other wherever the trees do -/
def InPlaceOf (ts : List Tree) (ns : List Node) : Prop :=
  ∀ lo hi, lo ≤ hi → Tree.Row lo hi ts → InOrder hi lo ns ∧ ∀ n ∈ ns, n.Ordered

variable {r : Reading} {src : SourceText} {t : Tree} {ts us : List Tree} {n : Node} {ms ns : List Node}
  {o : Option Node}

namespace InPlaceOf

theorem nil : InPlaceOf [] [] := fun _ _ hle _ => ⟨hle, by simp⟩

theorem append (hms : InPlaceOf ts ms) (hns : InPlaceOf us ns) : InPlaceOf (ts ++ us) (ms ++ ns) := by
  intro lo hi hle h
  obtain ⟨mid, hlo, hhi, hts, hus⟩ := h.split hle
  obtain ⟨hfront, hmsOrdered⟩ := hms lo mid hlo hts
  obtain ⟨hback, hnsOrdered⟩ := hns mid hi hhi hus
  exact ⟨hfront.append hback, List.forall_mem_append.2 ⟨hmsOrdered, hnsOrdered⟩⟩

/-- nodes in place of trees that stand inside another tree -/
theorem within (h : InPlaceOf ts ns) (hrow : Tree.Row t.start t.stop ts) : InPlaceOf [t] ns := by
  intro lo hi _ ht
  obtain ⟨hlo, hlt, hhi⟩ := ht.inside t List.mem_cons_self
  obtain ⟨horder, hordered⟩ := h t.start t.stop hlt.le hrow
  exact ⟨horder.mono hlo hhi, hordered⟩

/-- an ordered node in place of a tree -/
theorem of_ordered (hspan : n.span = spanOf src t) (h : t.start < t.stop → n.Ordered) : InPlaceOf [t] [n] := by
  intro lo hi _ ht
  obtain ⟨hlo, hlt, hhi⟩ := ht.inside t List.mem_cons_self
  refine ⟨⟨?_, ?_, ?_⟩, by simpa using h hlt⟩
  · rwa [hspan]
  · rwa [hspan]
  · rwa [hspan]

/-- a node in place of a tree if its parts are -/
theorem node (hspan : n.span = spanOf src t) (hclause : n.isClause = false) (h : InPlaceOf [t] n.children) :
    InPlaceOf [t] [n] := by
  refine of_ordered hspan fun hlt => ?_
  have hself : Tree.Row t.start t.stop [t] := ⟨by simpa using hlt, List.pairwise_singleton _ t⟩
  obtain ⟨horder, hordered⟩ := h _ _ hlt.le hself
  refine .mk (.of_inOrder ?_ hclause) hordered
  rwa [hspan]

/-- a clause of which the test stands in front of the colon and the statements behind it -/
theorem clause {test : Option Node} {body : List Node} {offset : ℕ} (htest : InPlaceOf ts test.toList)
    (hbody : InPlaceOf us body) (hts : Tree.Row t.start offset ts) (hus : Tree.Row offset t.stop us)
    (hoffset : t.start < t.stop → t.start ≤ offset ∧ offset ≤ t.stop) :
    InPlaceOf [t] [.switchCase (spanOf src t) test body offset] := by
  refine of_ordered rfl fun hlt => ?_
  obtain ⟨hlo, hhi⟩ := hoffset hlt
  obtain ⟨hfront, htestOrdered⟩ := htest t.start offset hlo hts
  obtain ⟨hback, hbodyOrdered⟩ := hbody offset t.stop hhi hus
  have horder : InOrder t.stop t.start (test.toList ++ body) := hfront.append hback
  refine .mk ⟨fun c hc => horder.of_mem hc, horder.pairwise, ?_⟩
    (List.forall_mem_append.2 ⟨htestOrdered, hbodyOrdered⟩)
  rintro _ _ _ _ ⟨⟩
  exact ⟨fun c hc => (hfront.of_mem (Option.mem_toList.2 hc)).2.2, fun c hc => (hback.of_mem hc).1⟩

/-- trees read one by one -/
theorem of_mapM {β : Type} {f : Tree → Result β} {g : β → List Node} {bs : List β}
    (hf : ∀ t ∈ ts, ∀ b, f t = .ok b → InPlaceOf [t] (g b)) (h : ts.mapM f = .ok bs) : InPlaceOf ts (bs.flatMap g) := by
  induction ts generalizing bs with
  | nil =>
    cases h
    exact nil
  | cons t ts ih =>
    rw [List.mapM_cons, bind_eq_ok_iff] at h
    obtain ⟨b, hb, h⟩ := h
    obtain ⟨cs, hcs, h⟩ := bind_eq_ok_iff.1 h
    cases h
    exact (hf t List.mem_cons_self b hb).append (ih (fun u hu => hf u (List.mem_cons_of_mem _ hu)) hcs)

/-- trees read one by one, those with nothing inside left out -/
theorem of_filterMap {f : Tree → Result (Option Node)}
    (hf : ∀ t ∈ ts, ∀ o, f t = .ok o → InPlaceOf [t] o.toList) (h : (List.filterMap id) <$> ts.mapM f = .ok ns) :
    InPlaceOf ts ns := by
  obtain ⟨os, hos, rfl⟩ := map_eq_ok_iff.1 h
  rw [List.filterMap_eq_flatMap_toList]
  exact of_mapM hf hos

theorem optionally {field : String} {read : Tree → Result Node}
    (hread : ∀ c n, t.child? field = some c → read c = .ok n → InPlaceOf [c] [n])
    (ho : Reading.optionally t field read = .ok o) : InPlaceOf (t.child? field).toList o.toList := by
  unfold Reading.optionally at ho
  split at ho
  · next c hc =>
    obtain ⟨m, hm, rfl⟩ := map_eq_ok_iff.1 ho
    rw [hc]
    exact hread c m hc hm
  · next hc =>
    cases ho
    rw [hc]
    exact nil

/-- what is read of the fields of a node in the order of the grammar -/
theorem of_fields (ht : t.Orderly) (fields : List String) (hfields : Tree.fieldOrder t.kind = fields)
    (h : InPlaceOf (t.inFields fields) ns) : InPlaceOf [t] ns :=
  h.within (ht.node.row_fields hfields)

end InPlaceOf

/-! ## One level of lowering -/

/-- a reading that gives ordered nodes in place of the trees they are read from -/
structure Reading.KeepsOrder (r : Reading) : Prop where
  expression : ∀ {keep t o}, t.Orderly → r.expression keep t = .ok o → InPlaceOf [t] o.toList
  statement : ∀ {t n}, t.Orderly → r.statement t = .ok n → InPlaceOf [t] [n]

namespace Reading.KeepsOrder

variable (hr : r.KeepsOrder)

include hr

/-! ### Fields and lists -/

theorem field (ht : t.Orderly) {keep : Bool} {field : String} (ho : r.field keep t field = .ok o) :
    InPlaceOf (t.child? field).toList o.toList := by
  unfold Reading.field at ho
  split at ho
  · next c hc =>
    rw [hc]
    exact hr.expression (ht.child hc) ho
  · next hc =>
    cases ho
    rw [hc]
    exact .nil

theorem statementField (ht : t.Orderly) {field : String} (hn : r.statementField t field = .ok n) :
    InPlaceOf (t.child? field).toList [n] := by
  obtain ⟨c, hc, hn⟩ := bind_eq_ok_iff.1 hn
  have hc := required_eq_ok_iff.1 hc
  rw [hc]
  exact hr.statement (ht.child hc) hn

theorem firstPart (ht : t.Orderly) (ho : r.firstPart t = .ok o) : InPlaceOf [t] o.toList := by
  unfold Reading.firstPart at ho
  split at ho
  · next c cs hcs =>
    have hfirst : List.Sublist [c] t.parts := by simp [hcs]
    exact (hr.expression (ht.part (hfirst.subset List.mem_cons_self)) ho).within (ht.node.row_parts.sublist hfirst)
  · cases ho
    exact InPlaceOf.nil.within .nil

theorem expressions (hts : ∀ t ∈ ts, t.Orderly) (hns : r.expressions ts = .ok ns) : InPlaceOf ts ns :=
  .of_filterMap (fun t ht _ ho => hr.expression (hts t ht) ho) hns

theorem subexpressions (ht : t.Orderly) (hns : r.subexpressions t = .ok ns) : InPlaceOf [t] ns :=
  (hr.expressions (fun _ hc => ht.part hc) hns).within ht.node.row_parts

theorem statements (hts : ∀ t ∈ ts, t.Orderly) (hns : ts.mapM r.statement = .ok ns) : InPlaceOf ts ns := by
  simpa using InPlaceOf.of_mapM (g := fun n => [n]) (fun t ht _ hn => hr.statement (hts t ht) hn) hns

theorem initializers (ht : t.Orderly) (hns : r.initializers t = .ok ns) : InPlaceOf [t] ns := by
  refine InPlaceOf.within (hr.expressions (fun c hc => ?_) hns) ?_
  · obtain ⟨d, hd, hc⟩ := List.mem_flatMap.1 hc
    have hd : d.Orderly := ht.part (List.mem_filter.1 hd).1
    rcases List.mem_append.1 hc with hc | hc
    · exact hd.child (Option.mem_toList.1 hc)
    · exact hd.child (Option.mem_toList.1 hc)
  · simpa [Tree.inFields] using ht.node.row_initializers fun d hd => (ht.part hd).node

/-! ### Declarations and blocks -/

theorem declaration (ht : t.Orderly) {keyword : String} (hn : r.declaration src t keyword = .ok n) :
    InPlaceOf [t] [n] := by
  obtain ⟨initializers, hi, hn⟩ := bind_eq_ok_iff.1 hn
  obtain ⟨declarators, -, hn⟩ := bind_eq_ok_iff.1 hn
  cases hn
  exact .node rfl rfl (hr.initializers ht hi)

theorem block (ht : t.Orderly) (hn : r.block src t = .ok n) : InPlaceOf [t] [n] := by
  obtain ⟨body, hb, hn⟩ := bind_eq_ok_iff.1 hn
  cases hn
  exact .node rfl rfl ((hr.statements (fun _ hc => ht.part hc) hb).within ht.node.row_parts)

theorem blockField (ht : t.Orderly) {field : String} (hn : r.blockField src t field = .ok n) :
    InPlaceOf (t.child? field).toList [n] := by
  obtain ⟨c, hc, hn⟩ := bind_eq_ok_iff.1 hn
  have hc := required_eq_ok_iff.1 hc
  rw [hc]
  exact hr.block (ht.child hc) hn

/-- directives first, then statements -/
theorem prologue (hts : ∀ t ∈ ts, t.Orderly) (hns : r.prologue src ts = .ok ns) : InPlaceOf ts ns := by
  induction ts generalizing ns with
  | nil =>
    cases hns
    exact .nil
  | cons t ts ih =>
    rw [Reading.prologue, bind_eq_ok_iff] at hns
    obtain ⟨value, -, hns⟩ := hns
    cases value with
    | some value =>
      obtain ⟨rest, hrest, hns⟩ := bind_eq_ok_iff.1 hns
      cases hns
      have hdirective : InPlaceOf [t] [.directive (spanOf src t) value] :=
        .node rfl rfl (InPlaceOf.nil.within .nil)
      exact hdirective.append (ih (fun u hu => hts u (List.mem_cons_of_mem _ hu)) hrest)
    | none => exact hr.statements hts hns

/-! ### Functions -/

theorem functionBlock (ht : t.Orderly) (hn : r.functionBlock src t = .ok n) : InPlaceOf [t] [n] := by
  obtain ⟨body, hb, hn⟩ := bind_eq_ok_iff.1 hn
  cases hn
  exact .node rfl rfl ((hr.prologue (fun _ hc => ht.part hc) hb).within ht.node.row_parts)

theorem parameters (ht : t.Orderly) (hns : r.parameters t = .ok ns) : InPlaceOf (t.child? "parameters").toList ns := by
  unfold Reading.parameters at hns
  split at hns
  · next p hp =>
    rw [hp]
    exact hr.subexpressions (ht.child hp) hns
  · next hp =>
    cases hns
    rw [hp]
    exact .nil

theorem functionBody (ht : t.Orderly) (ho : r.functionBody src t = .ok o) : InPlaceOf [t] o.toList := by
  unfold Reading.functionBody at ho
  split at ho
  · obtain ⟨m, hm, rfl⟩ := map_eq_ok_iff.1 ho
    exact hr.functionBlock ht hm
  · exact hr.expression ht ho

theorem function (ht : t.Orderly) (hkind : Tree.fieldOrder t.kind = ["parameters", "body"]) {form : FunctionForm}
    (hn : r.function src t form = .ok n) : InPlaceOf [t] [n] := by
  rw [Reading.function_eq] at hn
  obtain ⟨parameters, hp, hn⟩ := bind_eq_ok_iff.1 hn
  obtain ⟨b, hb, hn⟩ := bind_eq_ok_iff.1 hn
  obtain ⟨body, hbody, hn⟩ := bind_eq_ok_iff.1 hn
  obtain ⟨name, -, hn⟩ := bind_eq_ok_iff.1 hn
  cases hn
  have hb := required_eq_ok_iff.1 hb
  have hbody := hr.functionBody (ht.child hb) hbody
  refine .node rfl rfl (.of_fields ht _ hkind ?_)
  simpa [Tree.inFields, Node.children, hb] using (hr.parameters ht hp).append hbody

/-! ### Expressions -/

theorem conditional (ht : t.Orderly) (hkind : t.kind = "ternary_expression") (ho : r.conditional src t = .ok o) :
    InPlaceOf [t] o.toList := by
  obtain ⟨test, htest, ho⟩ := bind_eq_ok_iff.1 ho
  obtain ⟨consequent, hconsequent, ho⟩ := bind_eq_ok_iff.1 ho
  obtain ⟨alternate, halternate, ho⟩ := bind_eq_ok_iff.1 ho
  cases ho
  have hparts := ((hr.field ht htest).append (hr.field ht hconsequent)).append (hr.field ht halternate)
  refine .node rfl rfl (.of_fields ht ["condition", "consequence", "alternative"] (by rw [hkind]; rfl) ?_)
  simpa [Tree.inFields, Node.children] using hparts

/-- a chain of short-circuit operators, from the inside out -/
theorem logical (ht : t.Orderly) (ho : r.logical src t = .ok o) : InPlaceOf [t] o.toList := by
  -- along the left operands
  induction t using Tree.inductionOn generalizing o with
  | step t ih =>
    cases hoperator : logicalOperator? src t with
    | error e =>
      rw [Reading.logical_of_error hoperator] at ho
      cases ho
    | ok operator =>
      cases operator with
      | none =>
        rw [Reading.logical_of_operand hoperator] at ho
        exact hr.expression ht ho
      | some operator =>
        rw [Reading.logical_of_operator hoperator] at ho
        obtain ⟨left, hleft, ho⟩ := bind_eq_ok_iff.1 ho
        obtain ⟨right, hright, ho⟩ := bind_eq_ok_iff.1 ho
        cases ho
        have hleft : InPlaceOf (t.child? "left").toList left.toList := by
          unfold Reading.chainLeft at hleft
          split at hleft
          · next c hc =>
            rw [hc]
            exact ih c (Tree.mem_children_of_child? hc) (ht.child hc) hleft
          · next hc =>
            cases hleft
            rw [hc]
            exact .nil
        have hkind := kind_of_logicalOperator? hoperator
        refine .node rfl rfl (.of_fields ht ["left", "right"] (by rw [hkind]; rfl) ?_)
        simpa [Tree.inFields, Node.children] using hleft.append (hr.field ht hright)

theorem composite (ht : t.Orderly) {keep : Bool} (ho : r.composite src t keep = .ok o) : InPlaceOf [t] o.toList := by
  obtain ⟨elements, helements, ho⟩ := bind_eq_ok_iff.1 ho
  have helements : InPlaceOf [t] elements := by
    unfold Reading.elements at helements
    split at helements
    · exact hr.initializers ht helements
    · exact hr.subexpressions ht helements
  cases ho
  split
  · exact InPlaceOf.nil.within .nil
  · exact .node rfl rfl helements

theorem readExpression (ht : t.Orderly) {keep : Bool} (ho : r.readExpression src keep t = .ok o) :
    InPlaceOf [t] o.toList := by
  rcases r.readExpression_cases src t keep ho with
    ⟨-, rfl⟩ | ⟨form, m, hform, hm, rfl⟩ | ⟨hkind, hm⟩ | ⟨operator, -, hm⟩ | ⟨-, m, hm, rfl⟩ | ⟨-, m, hm, rfl⟩ | ⟨-, hm⟩
  · exact InPlaceOf.nil.within .nil
  · exact hr.function ht (Tree.fieldOrder_of_function _ (kind_of_functionForm? hform)) hm
  · exact hr.conditional ht hkind hm
  · exact hr.logical ht hm
  · exact .node rfl rfl ((hr.blockField ht hm).within (ht.node.row_child _))
  · exact hr.block ht hm
  · exact hr.composite ht hm

/-! ### Loops and clauses -/

theorem loopPart (ht : t.Orderly) (ho : r.loopPart src t = .ok o) : InPlaceOf [t] o.toList := by
  unfold Reading.loopPart at ho
  split at ho
  · obtain ⟨initializers, hi, ho⟩ := bind_eq_ok_iff.1 ho
    cases ho
    split
    · exact InPlaceOf.nil.within .nil
    · exact .node rfl rfl (hr.initializers ht hi)
  · split at ho
    · exact hr.firstPart ht ho
    · exact hr.expression ht ho

/-- the head of a loop and its body -/
theorem loop (ht : t.Orderly) (hkind : t.kind = "for_statement" ∨ t.kind = "for_in_statement") {header : List Node}
    (hheader : r.loopHeader src t = .ok header) (hn : r.statementField t "body" = .ok n) :
    InPlaceOf [t] (header ++ [n]) := by
  have hbody := hr.statementField ht hn
  obtain ⟨b, hb, hn⟩ := bind_eq_ok_iff.1 hn
  have hb := required_eq_ok_iff.1 hb
  rw [hb] at hbody
  have hheader : InPlaceOf (loopParts t) header := by
    refine .of_filterMap (fun c hc o ho => hr.loopPart (ht.inside ?_) ho) hheader
    exact List.eraseP_subset (List.mem_filter.1 hc).1
  exact (hheader.append hbody).within (ht.node.row_loop hkind hb)

/-- a clause with its test in front of the colon and its statements behind it -/
theorem switchCase (ht : t.Orderly) (hcase : isSwitchCase t = true) (hn : r.switchCase src t = .ok n) :
    InPlaceOf [t] [n] := by
  obtain ⟨test, htest, hn⟩ := bind_eq_ok_iff.1 hn
  obtain ⟨body, hbody, hn⟩ := bind_eq_ok_iff.1 hn
  cases hn
  have htest := hr.field ht htest
  cases hcolon : t.children.dropWhile fun c => c.kind ≠ ":" with
  | nil =>
    rw [hcolon] at hbody
    cases hbody
    exact htest.clause .nil (ht.node.row_child "value") .nil fun hlt => ⟨hlt.le, le_rfl⟩
  | cons colon behind =>
    rw [hcolon] at hbody
    have hmem : colon ∈ t.children := (List.dropWhile_sublist _).subset (hcolon ▸ List.mem_cons_self)
    obtain ⟨hstart, hlt, hstop⟩ := ht.node.children.inside colon hmem
    obtain ⟨hfront, hback⟩ := ht.node.rows_clause hcase hcolon
    have hbehind : ∀ c ∈ behind.filter Tree.isPart, c.Orderly := fun c hc =>
      ht.inside ((List.dropWhile_sublist _).subset (hcolon ▸ List.mem_cons_of_mem _ (List.mem_filter.1 hc).1))
    exact htest.clause (hr.statements hbehind hbody) hfront hback fun _ => ⟨hstart.trans hlt.le, hstop⟩

theorem catchClause (ht : t.Orderly) (horder : t.Precedes "parameter" "body") (hn : r.catchClause src t = .ok n) :
    InPlaceOf [t] [n] := by
  obtain ⟨parameter, hp, hn⟩ := bind_eq_ok_iff.1 hn
  obtain ⟨b, hb, hn⟩ := bind_eq_ok_iff.1 hn
  obtain ⟨body, hbody, hn⟩ := bind_eq_ok_iff.1 hn
  cases hn
  have hb := required_eq_ok_iff.1 hb
  have hrow := Tree.row_inFields ht.node.children (List.pairwise_pair.2 horder)
  refine .node rfl rfl (InPlaceOf.within ?_ hrow)
  simpa [Tree.inFields, Node.children, hb] using (hr.field ht hp).append (hr.block (ht.child hb) hbody)

theorem elseClause (ht : t.Orderly) (hn : r.elseClause t = .ok n) : InPlaceOf [t] [n] := by
  unfold Reading.elseClause at hn
  split at hn
  · next c cs hcs =>
    have hfirst : List.Sublist [c] t.parts := by simp [hcs]
    exact (hr.statement (ht.part (hfirst.subset List.mem_cons_self)) hn).within (ht.node.row_parts.sublist hfirst)
  · cases hn

/-! ### Statements -/

theorem ifStatement (ht : t.Orderly) (hkind : t.kind = "if_statement") (hn : r.ifStatement src t = .ok n) :
    InPlaceOf [t] [n] := by
  rw [Reading.ifStatement_eq] at hn
  obtain ⟨alternate, halternate, hn⟩ := bind_eq_ok_iff.1 hn
  obtain ⟨test, htest, hn⟩ := bind_eq_ok_iff.1 hn
  obtain ⟨consequent, hconsequent, hn⟩ := bind_eq_ok_iff.1 hn
  cases hn
  have hparts := ((hr.field ht htest).append (hr.statementField ht hconsequent)).append
    (.optionally (fun c _ hc hn => hr.elseClause (ht.child hc) hn) halternate)
  refine .node rfl rfl (.of_fields ht ["condition", "consequence", "alternative"] (by rw [hkind]; rfl) ?_)
  simpa [Tree.inFields, Node.children] using hparts

theorem switchStatement (ht : t.Orderly) (hkind : t.kind = "switch_statement") (hn : r.switchStatement src t = .ok n) :
    InPlaceOf [t] [n] := by
  obtain ⟨body, hbody, hn⟩ := bind_eq_ok_iff.1 hn
  obtain ⟨cases, hcases, hn⟩ := bind_eq_ok_iff.1 hn
  obtain ⟨discriminant, hdiscriminant, hn⟩ := bind_eq_ok_iff.1 hn
  cases hn
  have hbody := required_eq_ok_iff.1 hbody
  have hcases : InPlaceOf [body] cases := by
    have hclauses : InPlaceOf (body.parts.filter isSwitchCase) (cases.flatMap fun c => [c]) := by
      refine .of_mapM (fun c hc m hm => ?_) hcases
      obtain ⟨hc, hcase⟩ := List.mem_filter.1 hc
      exact hr.switchCase ((ht.child hbody).part hc) hcase hm
    simpa using hclauses.within ((ht.child hbody).node.row_parts.sublist List.filter_sublist)
  refine .node rfl rfl (.of_fields ht ["value", "body"] (by rw [hkind]; rfl) ?_)
  simpa [Tree.inFields, Node.children, hbody] using (hr.field ht hdiscriminant).append hcases

theorem tryStatement (ht : t.Orderly) (hkind : t.kind = "try_statement") (hn : r.tryStatement src t = .ok n) :
    InPlaceOf [t] [n] := by
  rw [Reading.tryStatement_eq] at hn
  obtain ⟨handler, hhandler, hn⟩ := bind_eq_ok_iff.1 hn
  obtain ⟨block, hblock, hn⟩ := bind_eq_ok_iff.1 hn
  obtain ⟨finalizer, hfinalizer, hn⟩ := bind_eq_ok_iff.1 hn
  cases hn
  have hhandler := InPlaceOf.optionally (fun c _ hc hn =>
    hr.catchClause (ht.child hc) (ht.node.handler hkind c hc) hn) hhandler
  have hfinalizer := InPlaceOf.optionally (fun c _ hc hn =>
    (hr.blockField (ht.child hc) hn).within ((ht.child hc).node.row_child _)) hfinalizer
  have hparts := ((hr.blockField ht hblock).append hhandler).append hfinalizer
  refine .node rfl rfl (.of_fields ht ["body", "handler", "finalizer"] (by rw [hkind]; rfl) ?_)
  simpa [Tree.inFields, Node.children] using hparts

theorem readStatement (ht : t.Orderly) (hn : r.readStatement src t = .ok n) : InPlaceOf [t] [n] := by
  unfold Reading.readStatement at hn
  dsimp only at hn
  split at hn
  case h_1 | h_17 | h_18 =>
    obtain ⟨part, hpart, hn⟩ := bind_eq_ok_iff.1 hn
    cases hn
    exact .node rfl rfl (hr.firstPart ht hpart)
  case h_2 => exact hr.declaration ht hn
  case h_3 | h_4 =>
    obtain ⟨keyword, -, hn⟩ := bind_eq_ok_iff.1 hn
    exact hr.declaration ht hn
  case h_5 hkind | h_6 hkind =>
    obtain ⟨f, hf, hn⟩ := bind_eq_ok_iff.1 hn
    cases hn
    exact .node rfl rfl (hr.function ht (by rw [hkind]; rfl) hf)
  case h_7 =>
    obtain ⟨name, -, hn⟩ := bind_eq_ok_iff.1 hn
    obtain ⟨members, hm, hn⟩ := bind_eq_ok_iff.1 hn
    cases hn
    exact .node rfl rfl (hr.subexpressions ht hm)
  case h_8 => exact hr.block ht hn
  case h_9 | h_10 =>
    cases hn
    exact .node rfl rfl (InPlaceOf.nil.within .nil)
  case h_11 hkind => exact hr.ifStatement ht hkind hn
  case h_12 hkind => exact hr.switchStatement ht hkind hn
  case h_13 hkind =>
    obtain ⟨test, htest, hn⟩ := bind_eq_ok_iff.1 hn
    obtain ⟨body, hb, hn⟩ := bind_eq_ok_iff.1 hn
    cases hn
    refine .node rfl rfl (.of_fields ht ["condition", "body"] (by rw [hkind]; rfl) ?_)
    simpa [Tree.inFields, Node.children] using (hr.field ht htest).append (hr.statementField ht hb)
  case h_14 hkind =>
    obtain ⟨body, hb, hn⟩ := bind_eq_ok_iff.1 hn
    obtain ⟨test, htest, hn⟩ := bind_eq_ok_iff.1 hn
    cases hn
    refine .node rfl rfl (.of_fields ht ["body", "condition"] (by rw [hkind]; rfl) ?_)
    simpa [Tree.inFields, Node.children] using (hr.statementField ht hb).append (hr.field ht htest)
  case h_15 hkind =>
    obtain ⟨header, hh, hn⟩ := bind_eq_ok_iff.1 hn
    obtain ⟨body, hb, hn⟩ := bind_eq_ok_iff.1 hn
    cases hn
    exact .node rfl rfl (hr.loop ht (.inl hkind) hh hb)
  case h_16 hkind =>
    obtain ⟨operator, -, hn⟩ := bind_eq_ok_iff.1 hn
    obtain ⟨header, hh, hn⟩ := bind_eq_ok_iff.1 hn
    obtain ⟨body, hb, hn⟩ := bind_eq_ok_iff.1 hn
    cases hn
    exact .node rfl rfl (hr.loop ht (.inr hkind) hh hb)
  case h_19 | h_20 =>
    obtain ⟨label, -, hn⟩ := bind_eq_ok_iff.1 hn
    cases hn
    exact .node rfl rfl (InPlaceOf.nil.within .nil)
  case h_21 =>
    obtain ⟨label, -, hn⟩ := bind_eq_ok_iff.1 hn
    obtain ⟨body, hb, hn⟩ := bind_eq_ok_iff.1 hn
    cases hn
    exact .node rfl rfl ((hr.statementField ht hb).within (ht.node.row_child _))
  case h_22 hkind => exact hr.tryStatement ht hkind hn
  case h_23 hkind =>
    obtain ⟨object, ho, hn⟩ := bind_eq_ok_iff.1 hn
    obtain ⟨body, hb, hn⟩ := bind_eq_ok_iff.1 hn
    cases hn
    refine .node rfl rfl (.of_fields ht ["object", "body"] (by rw [hkind]; rfl) ?_)
    simpa [Tree.inFields, Node.children] using (hr.field ht ho).append (hr.statementField ht hb)
  case h_24 | h_25 =>
    obtain ⟨expressions, he, hn⟩ := bind_eq_ok_iff.1 hn
    cases hn
    exact .node rfl rfl (hr.subexpressions ht he)
  case h_26 =>
    obtain ⟨elements, he, hn⟩ := bind_eq_ok_iff.1 hn
    cases hn
    have hpart : InPlaceOf [t] [.composite (spanOf src t) t.kind elements] := .node rfl rfl (hr.subexpressions ht he)
    exact .node rfl rfl hpart

end Reading.KeepsOrder

/-! ## Whole programs -/

/-- **Every level of lowering keeps the order.** -/
theorem reading_keepsOrder (src : SourceText) (depth : ℕ) : (reading src depth).KeepsOrder := by
  induction depth with
  | zero =>
    constructor
    · intro keep t o _ ho
      cases ho
    · intro t n _ hn
      cases hn
  | succ depth ih => exact ⟨fun ht ho => ih.readExpression ht ho, fun ht hn => ih.readStatement ht hn⟩

/-- statements read at any level make up an ordered program -/
theorem ordered_of_prologue {root : Tree} {body : List Node} {depth : ℕ} (hroot : root.Orderly)
    (hb : (reading src depth).prologue src root.parts = .ok body) : (Node.program (spanOf src root) body).Ordered := by
  have hbody := (reading_keepsOrder src depth).prologue (fun _ hc => hroot.part hc) hb
  cases hparts : root.parts with
  | nil =>
    -- a root without parts may be empty
    rw [hparts] at hb
    cases hb
    exact .mk (.of_none rfl rfl) (by simp [Node.children])
  | cons c cs =>
    obtain ⟨hstart, hlt, hstop⟩ := hroot.node.row_parts.inside c (by simp [hparts])
    obtain ⟨horder, hordered⟩ := hbody root.start root.stop (by omega) hroot.node.row_parts
    exact .mk (.of_inOrder horder rfl) hordered

/-- **Lowering keeps source order and nesting.** Take any concrete tree in which the children of every node are listed in
source order, disjoint, not empty and inside the node, and the fields of every node are in the order of the grammar. In every
node of its program the parts are in source order, disjoint, not empty and inside the node, and every clause of a switch has
its colon behind its test and in front of its statements. -/
theorem program_keeps_source_order {depth : ℕ} {root : Tree} {program : Node} (hroot : root.Orderly)
    (hprogram : Lowering.program depth src root = .ok program) : ∀ p ∈ program.preorder .root, p.2.IsOrdered := by
  obtain ⟨body, hb, hprogram⟩ := bind_eq_ok_iff.1 hprogram
  cases hprogram
  exact fun p hp => (ordered_of_prologue hroot hb).of_mem_preorder hp

def switchOverLoop : String := "switch (x) \x7bcase p ? q : r: do f; while (s ? t : u);\x7d"

/-- the tree of `switchOverLoop` -/
def switchOverLoopTree : Tree :=
  .node "program" 0 53 [.node "switch_statement" 0 53 [
    (Tree.node "parenthesized_expression" 7 10 [.leaf "identifier" 8 9]).inField "value",
    (Tree.node "switch_body" 11 53 [.node "switch_case" 12 52 [
      (Tree.node "ternary_expression" 17 26 [(Tree.leaf "identifier" 17 18).inField "condition",
        (Tree.leaf "identifier" 21 22).inField "consequence",
        (Tree.leaf "identifier" 25 26).inField "alternative"]).inField "value",
      .token ":" 26 27,
      (Tree.node "do_statement" 28 52 [
        (Tree.node "expression_statement" 31 33 [.leaf "identifier" 31 32]).inField "body",
        (Tree.node "parenthesized_expression" 40 51 [.node "ternary_expression" 41 50 [
          (Tree.leaf "identifier" 41 42).inField "condition", (Tree.leaf "identifier" 45 46).inField "consequence",
          (Tree.leaf "identifier" 49 50).inField "alternative"]]).inField "condition"]).inField "body"]]).inField "body"]]

theorem switchOverLoop_in_order : ∃ program, switchOverLoopTree.Orderly ∧
    Lowering.program Lowering.usualDepth (.ofString switchOverLoop) switchOverLoopTree = .ok program ∧
    (program.preorder .root).length = 12 ∧ ∀ p ∈ program.preorder .root, p.2.IsOrdered := by
  have horderly : switchOverLoopTree.Orderly := by decide +kernel
  have hok : ((Lowering.program Lowering.usualDepth (.ofString switchOverLoop) switchOverLoopTree).toOption.map fun program =>
      (program.preorder .root).length) = some 12 := by decide +kernel
  obtain ⟨program, hprogram, hlength⟩ := Option.map_eq_some_iff.1 hok
  have hprogram := ok_of_toOption hprogram
  exact ⟨program, horderly, hprogram, hlength, program_keeps_source_order horderly hprogram⟩

end Lowering

end Turnstile
