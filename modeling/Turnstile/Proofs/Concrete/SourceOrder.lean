/-
Concrete trees in source order.

The children of a node stand one behind the other inside it, and those in fields stand in the order of the grammar.
- `Row`: trees one behind the other in a range of bytes, none of them empty;
- `fieldOrder`, `IsOrderly`, `Orderly`: the fields of a node in the order of the grammar, a node whose children are in
  order, and a tree of such nodes;
- `IsOrderly.row_fields`, `IsOrderly.row_initializers`, `IsOrderly.row_loop`, `IsOrderly.rows_clause`: what lowering reads of
  such a node is a row: what is in its fields, the names and values of a declaration, the head of a loop with its body, and
  what stands on either side of the colon of a clause.
-/
import Mathlib.Data.List.TakeWhile
import Turnstile.Proofs.Concrete.Sites

namespace Turnstile

namespace Tree

/-! ## Rows -/

/-- trees one behind the other between two offsets, none of them empty -/
structure Row (lo hi : ℕ) (ts : List Tree) : Prop where
  inside : ∀ t ∈ ts, lo ≤ t.start ∧ t.start < t.stop ∧ t.stop ≤ hi
  apart : ts.Pairwise fun t u => t.stop ≤ u.start

namespace Row

variable {lo hi : ℕ} {t : Tree} {ts us : List Tree}

theorem nil : Row lo hi [] := ⟨by simp, .nil⟩

theorem sublist (h : Row lo hi ts) (hsub : us.Sublist ts) : Row lo hi us :=
  ⟨fun u hu => h.inside u (hsub.subset hu), h.apart.sublist hsub⟩

/-- what stands in a row inside the trees of a row is a row -/
theorem flatMap (h : Row lo hi ts) {g : Tree → List Tree} (hg : ∀ t ∈ ts, Row t.start t.stop (g t)) :
    Row lo hi (ts.flatMap g) := by
  constructor
  · intro u hu
    obtain ⟨t, ht, hu⟩ := List.mem_flatMap.1 hu
    obtain ⟨hstart, -, hstop⟩ := h.inside t ht
    obtain ⟨hstart', hlt, hstop'⟩ := (hg t ht).inside u hu
    exact ⟨hstart.trans hstart', hlt, hstop'.trans hstop⟩
  · refine List.pairwise_flatMap.2 ⟨fun t ht => (hg t ht).apart, h.apart.imp_of_mem fun {t u} ht hu htu => ?_⟩
    intro x hx y hy
    exact ((hg t ht).inside x hx).2.2.trans (htu.trans ((hg u hu).inside y hy).1)

/-- a row is divided somewhere between its trees -/
theorem split (hle : lo ≤ hi) (h : Row lo hi (ts ++ us)) :
    ∃ mid, lo ≤ mid ∧ mid ≤ hi ∧ Row lo mid ts ∧ Row mid hi us := by
  induction ts generalizing lo with
  | nil => exact ⟨lo, le_rfl, hle, nil, h⟩
  | cons t ts ih =>
    obtain ⟨hstart, hlt, hstop⟩ := h.inside t List.mem_cons_self
    obtain ⟨hfirst, hrest⟩ := List.pairwise_cons.1 h.apart
    have hbehind : Row t.stop hi (ts ++ us) :=
      ⟨fun u hu => ⟨hfirst u hu, (h.inside u (List.mem_cons_of_mem _ hu)).2⟩, hrest⟩
    obtain ⟨mid, hlo, hmid, hts, hus⟩ := ih hstop hbehind
    refine ⟨mid, by omega, hmid, ⟨?_, ?_⟩, hus⟩
    · refine List.forall_mem_cons.2 ⟨⟨hstart, hlt, hlo⟩, fun u hu => ?_⟩
      obtain ⟨hu1, hu2⟩ := hts.inside u hu
      exact ⟨by omega, hu2⟩
    · exact List.pairwise_cons.2 ⟨fun u hu => (hts.inside u hu).1, hts.apart⟩

/-- trees on both sides of one in a row -/
theorem around (h : Row lo hi (ts ++ t :: us)) : Row lo t.start ts ∧ Row t.stop hi us := by
  obtain ⟨hts, htus, hacross⟩ := List.pairwise_append.1 h.apart
  obtain ⟨htu, hus⟩ := List.pairwise_cons.1 htus
  refine ⟨⟨fun u hu => ?_, hts⟩, ⟨fun u hu => ?_, hus⟩⟩
  · obtain ⟨hstart, hlt, -⟩ := h.inside u (by simp [hu])
    exact ⟨hstart, hlt, hacross u hu t List.mem_cons_self⟩
  · obtain ⟨-, hlt, hstop⟩ := h.inside u (by simp [hu])
    exact ⟨htu u hu, hlt, hstop⟩

end Row

/-! ## Orderly trees -/

/-- the fields of a node that lowering reads, in the order in which the grammar has them -/
def fieldOrder (kind : String) : List String :=
  match kind with
  | "if_statement" | "ternary_expression" => ["condition", "consequence", "alternative"]
  | "switch_statement" => ["value", "body"]
  | "while_statement" => ["condition", "body"]
  | "do_statement" => ["body", "condition"]
  | "try_statement" => ["body", "handler", "finalizer"]
  | "with_statement" => ["object", "body"]
  | "binary_expression" => ["left", "right"]
  | "variable_declarator" => ["name", "value"]
  | kind => if kind ∈ functionKinds then ["parameters", "body"] else []

theorem fieldOrder_of_function : ∀ kind ∈ functionKinds, fieldOrder kind = ["parameters", "body"] := by decide

/-- what is in some fields of a node -/
def inFields (t : Tree) (fields : List String) : List Tree := fields.flatMap fun f => (t.child? f).toList

/-- what is in one field ends before what is in the other begins -/
def Precedes (t : Tree) (f g : String) : Prop := ∀ c ∈ t.child? f, ∀ d ∈ t.child? g, c.stop ≤ d.start

instance (t : Tree) (f g : String) : Decidable (t.Precedes f g) :=
  inferInstanceAs (Decidable (∀ c ∈ t.child? f, ∀ d ∈ t.child? g, c.stop ≤ d.start))

/-- The children of a node are listed in source order, disjoint, not empty and inside the node, and its fields are in the
order of the grammar. In the clause that handles what is thrown the parameter is in front of the body, in a clause of a switch
the value in front of the colon, and in a loop with a head no part is behind the body. -/
structure IsOrderly (t : Tree) : Prop where
  children : Row t.start t.stop t.children
  fields : (fieldOrder t.kind).Pairwise t.Precedes
  handler : t.kind = "try_statement" → ∀ h ∈ t.child? "handler", h.Precedes "parameter" "body"
  clause : Lowering.isSwitchCase t = true →
    ∀ v ∈ t.child? "value", ∀ colon ∈ t.children.find? fun c => c.kind = ":", v.stop ≤ colon.start
  loop : t.kind = "for_statement" ∨ t.kind = "for_in_statement" →
    ∀ b ∈ t.child? "body", ∀ c ∈ t.parts, c.stop ≤ b.stop

instance (lo hi : ℕ) (ts : List Tree) : Decidable (Row lo hi ts) :=
  decidable_of_iff ((∀ t ∈ ts, lo ≤ t.start ∧ t.start < t.stop ∧ t.stop ≤ hi) ∧ ts.Pairwise fun t u => t.stop ≤ u.start)
    ⟨fun h => ⟨h.1, h.2⟩, fun h => ⟨h.1, h.2⟩⟩

instance (t : Tree) : Decidable t.IsOrderly :=
  decidable_of_iff (Row t.start t.stop t.children ∧ (fieldOrder t.kind).Pairwise t.Precedes ∧
      (t.kind = "try_statement" → ∀ h ∈ t.child? "handler", h.Precedes "parameter" "body") ∧
      (Lowering.isSwitchCase t = true →
        ∀ v ∈ t.child? "value", ∀ colon ∈ t.children.find? fun c => c.kind = ":", v.stop ≤ colon.start) ∧
      (t.kind = "for_statement" ∨ t.kind = "for_in_statement" →
        ∀ b ∈ t.child? "body", ∀ c ∈ t.parts, c.stop ≤ b.stop))
    ⟨fun ⟨children, fields, handler, clause, loop⟩ => ⟨children, fields, handler, clause, loop⟩,
      fun h => ⟨h.children, h.fields, h.handler, h.clause, h.loop⟩⟩

/-- a tree of such nodes -/
def Orderly (t : Tree) : Prop := ∀ d ∈ t.nodes, d.IsOrderly

instance (t : Tree) : Decidable t.Orderly := inferInstanceAs (Decidable (∀ d ∈ t.nodes, d.IsOrderly))

namespace Orderly

variable {t c : Tree}

theorem node (h : t.Orderly) : t.IsOrderly := h t t.self_mem_nodes

theorem inside (h : t.Orderly) (hc : c ∈ t.children) : c.Orderly := fun d hd => h d (mem_nodes_of_mem_children hc hd)

theorem part (h : t.Orderly) (hc : c ∈ t.parts) : c.Orderly := h.inside (mem_children_of_mem_parts hc)

theorem child {field : String} (h : t.Orderly) (hc : t.child? field = some c) : c.Orderly :=
  h.inside (mem_children_of_child? hc)

end Orderly

/-! ## What is read of an orderly node -/

theorem row_inFields {t : Tree} (h : Row t.start t.stop t.children) {fields : List String}
    (hfields : fields.Pairwise t.Precedes) : Row t.start t.stop (t.inFields fields) := by
  constructor
  · intro c hc
    obtain ⟨f, -, hc⟩ := List.mem_flatMap.1 hc
    exact h.inside c (mem_children_of_child? (Option.mem_toList.1 hc))
  · refine List.pairwise_flatMap.2 ⟨fun f _ => ?_, hfields.imp fun {f g} hfg => ?_⟩
    · cases t.child? f <;> simp
    · exact fun c hc d hd => hfg c (Option.mem_toList.1 hc) d (Option.mem_toList.1 hd)

namespace IsOrderly

variable {t : Tree} (h : t.IsOrderly)

include h

theorem row_parts : Row t.start t.stop t.parts := h.children.sublist List.filter_sublist

/-- what is in the fields of a node is in a row -/
theorem row_fields {fields : List String} (hfields : fieldOrder t.kind = fields) :
    Row t.start t.stop (t.inFields fields) :=
  row_inFields h.children (hfields ▸ h.fields)

theorem row_child (field : String) : Row t.start t.stop (t.child? field).toList := by
  simpa [inFields] using row_inFields h.children (List.pairwise_singleton _ field)

/-- the names and the values of a declaration are in a row -/
theorem row_initializers (hparts : ∀ d ∈ t.parts, d.IsOrderly) :
    Row t.start t.stop ((Lowering.declaratorsOf t).flatMap fun d => d.inFields ["name", "value"]) := by
  refine (h.row_parts.sublist List.filter_sublist).flatMap fun d hd => ?_
  obtain ⟨hd, hkind⟩ := List.mem_filter.1 hd
  exact (hparts d hd).row_fields (by rw [of_decide_eq_true hkind]; rfl)

/-- the head of a loop is in a row with its body -/
theorem row_loop (hkind : t.kind = "for_statement" ∨ t.kind = "for_in_statement") {b : Tree}
    (hb : t.child? "body" = some b) : Row t.start t.stop (Lowering.loopParts t ++ [b]) := by
  obtain ⟨hfield, front, behind, hchildren, hfront⟩ := List.find?_eq_some_iff_append.1 hb
  have hrow := h.children
  rw [hchildren] at hrow
  -- a part behind the body would start where the body stops, and no part stops later than the body
  have hnone : behind.filter isPart = [] := by
    refine List.filter_eq_nil_iff.2 fun c hc hpart => ?_
    have hlast := h.loop hkind b hb c (List.mem_filter.2 ⟨by simp [hchildren, hc], hpart⟩)
    obtain ⟨hstart, hlt, -⟩ := hrow.around.2.inside c hc
    omega
  have hparts : Lowering.loopParts t = front.filter isPart := by
    have herase : (t.children.eraseP fun c => c.field == some "body") = front ++ behind := by
      rw [hchildren, List.eraseP_append_right _ (by simpa using hfront)]
      exact congrArg (front ++ ·) (List.eraseP_cons_of_pos hfield)
    show ((t.children.eraseP fun c => c.field == some "body").filter isPart) = _
    rw [herase, List.filter_append, hnone, List.append_nil]
  rw [hparts]
  refine hrow.sublist (List.Sublist.append List.filter_sublist ?_)
  exact List.singleton_sublist.2 List.mem_cons_self

/-- the value of a clause is in front of its colon, and what follows the colon is behind it -/
theorem rows_clause (hcase : Lowering.isSwitchCase t = true) {colon : Tree} {behind : List Tree}
    (hcolon : (t.children.dropWhile fun c => c.kind ≠ ":") = colon :: behind) :
    Row t.start colon.stop (t.child? "value").toList ∧ Row colon.stop t.stop (behind.filter isPart) := by
  have hfind : (t.children.find? fun c => c.kind = ":") = some colon := by
    rw [List.find?_eq_head?_dropWhile_not]
    simpa using congrArg List.head? hcolon
  constructor
  · refine ⟨fun v hv => ?_, by cases t.child? "value" <;> simp⟩
    have hv := Option.mem_toList.1 hv
    obtain ⟨hstart, hlt, -⟩ := h.children.inside v (mem_children_of_child? hv)
    have hbefore := h.clause hcase v hv colon hfind
    obtain ⟨-, hltColon, -⟩ := h.children.inside colon (List.mem_of_find?_eq_some hfind)
    exact ⟨hstart, hlt, by omega⟩
  · have hrow := h.children
    rw [← List.takeWhile_append_dropWhile (p := fun c : Tree => decide (c.kind ≠ ":")) (l := t.children), hcolon] at hrow
    exact hrow.around.2.sublist List.filter_sublist

end IsOrderly

end Tree

end Turnstile
