/-
The insertions for a node, from those for its parts.

`edits` goes over a chain of short-circuit operators in a loop. `edits_eq` is the recursion without the loop, the same for
all nodes: what a node needs by itself, then part by part what the part needs for its role and what is inside it. Every part
has a role (`length_roles`).
-/
import Turnstile.Emit.Generate
import Turnstile.Proofs.Program.Preorder

namespace Turnstile

theorem flatMap_attach_zip {α β γ : Type} (l : List α) (m : List β) (f : α × β → List γ) :
    ((l.attach.zip m).flatMap fun x => f (x.1.1, x.2)) = (l.zip m).flatMap f := by
  have hzip : l.zip m = (l.attach.zip m).map (Prod.map Subtype.val id) := by
    rw [← List.zip_map_left, List.attach_map_subtype_val]
  rw [hzip, List.flatMap_map]
  rfl

namespace Node

/-- what a node needs by itself, a chain of operators taken one operator at a time -/
def localEdits (data : ByteArray) (hoist : Option ℕ) (a : Address) (n : Node) : List Edit :=
  if n.isLogical then operatorEdits (a, n) else n.ownEdits data hoist a

/-- what a part of the node at address `a` needs, with what is inside it -/
def partEdits (data : ByteArray) (hoist : Option ℕ) (a : Address) (n : Node) (part : (Address × Node) × Role) :
    List Edit :=
  roleEdits a part.2 part.1.2 ++ part.1.2.edits data (n.partHoist hoist part.1.2) part.1.1

theorem length_placedFrom (a : Address) (i : ℕ) (ns : List Node) : (placedFrom a i ns).length = ns.length := by
  rw [← List.length_map Prod.snd, map_snd_placedFrom]

/-- every part has a role -/
theorem length_roles (n : Node) : n.roles.length = n.children.length := by
  cases n <;> simp [roles, children]

/-- operands that follow a chain follow its own -/
theorem operandsOnto_eq (rest : List (Address × Option Node)) (a : Address) (n : Node) :
    operandsOnto rest a n = operands a n ++ rest := by
  rw [operands]
  generalize hnil : ([] : List (Address × Option Node)) = before
  have happend : operandsOnto (before ++ rest) a n = operandsOnto before a n ++ rest := by
    clear hnil
    fun_induction operandsOnto before a n with
    | case1 before a span operator left right ih => rw [operandsOnto, ← ih, List.cons_append]
    | case2 before a span operator right => simp [operandsOnto]
    | case3 before a n hsome hnone => rw [operandsOnto.eq_3 _ _ _ hsome hnone, List.cons_append]
  rw [← happend, ← hnil, List.nil_append]

theorem edits_of_not_isLogical {n : Node} (data : ByteArray) (hoist : Option ℕ) (a : Address)
    (h : ¬ n.isLogical = true) : n.edits data hoist a =
      n.ownEdits data hoist a ++ ((n.placed a).zip n.roles).flatMap (n.partEdits data hoist a) := by
  rw [edits, dif_neg h, ← flatMap_attach_zip (n.placed a)]
  rfl

theorem edits_of_isLogical {n : Node} (data : ByteArray) (hoist : Option ℕ) (a : Address) (h : n.isLogical = true) :
    n.edits data hoist a = (n.operators a).flatMap operatorEdits ++
      (n.operands a).flatMap (inOperand fun b m => m.edits data none b) := by
  have hown : n.ownEdits data hoist a = (n.operators a).flatMap operatorEdits := by
    cases n <;> first | rfl | simp [isLogical] at h
  rw [edits, dif_pos h, hown, ← flatMap_attach (n.operands a)]
  refine congrArg _ (List.flatMap_congr ?_)
  rintro ⟨⟨b, _ | m⟩, hp⟩ - <;> rfl

/-- the operators and operands of a part that may be a chain are what the part needs -/
theorem edits_spine (data : ByteArray) (a : Address) (n : Node) :
    (n.operators a).flatMap operatorEdits ++ (n.operands a).flatMap (inOperand fun b m => m.edits data none b) =
      n.edits data none a := by
  by_cases h : n.isLogical = true
  · exact (edits_of_isLogical data none a h).symm
  · have hoperators : n.operators a = [] := by
      cases n <;> first | rfl | simp [isLogical] at h
    have hoperands : n.operands a = [(a, some n)] := by
      cases n <;> first | rfl | simp [isLogical] at h
    simp [hoperators, hoperands, inOperand]

/-- **Insertions by plain recursion.** What a node needs by itself stands in front of what its parts need, one after the
other. -/
theorem edits_eq (data : ByteArray) (hoist : Option ℕ) (a : Address) (n : Node) : n.edits data hoist a =
    n.localEdits data hoist a ++ ((n.placed a).zip n.roles).flatMap (n.partEdits data hoist a) := by
  by_cases h : n.isLogical = true
  · obtain ⟨span, operator, left, right, rfl⟩ : ∃ span operator left right, n = .logical span operator left right := by
      cases n <;> first | exact ⟨_, _, _, _, rfl⟩ | simp [isLogical] at h
    rw [edits_of_isLogical data hoist a h, localEdits, if_pos h]
    have hright : ∀ i, ((placedFrom a i right.toList).zip (right.toList.map fun _ => Role.plain)).flatMap
        ((logical span operator left right).partEdits data hoist a) =
          inOperand (fun b m => m.edits data none b) (a.child i, right) := by
      intro i
      cases right <;> simp [placedFrom, partEdits, roleEdits, partHoist, inOperand]
    cases left with
    | none =>
      simpa [operators, operands, operandsOnto, placed, children, roles, inOperand] using (hright 0).symm
    | some left =>
      have hspine := edits_spine data (a.child 0) left
      have hoperands : (logical span operator (some left) right).operands a =
          left.operands (a.child 0) ++ [(a.child 1, right)] := by
        rw [operands, operandsOnto, operandsOnto_eq]
      have hparts : (((logical span operator (some left) right).placed a).zip
          (logical span operator (some left) right).roles).flatMap
            ((logical span operator (some left) right).partEdits data hoist a) =
          left.edits data none (a.child 0) ++ inOperand (fun b m => m.edits data none b) (a.child 1, right) := by
        rw [← hright 1]
        simp [placed, children, placedFrom, roles, partEdits, roleEdits, partHoist]
      rw [hparts, operators, hoperands, List.flatMap_cons, List.flatMap_append, ← hspine]
      simp
  · rw [edits_of_not_isLogical data hoist a h, localEdits, if_neg h]

end Node

end Turnstile
