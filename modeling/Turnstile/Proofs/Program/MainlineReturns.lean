/-
The first return outside every function.

The search stops at the first return, stays out of functions and goes over a chain of short-circuit operators in a loop; a
chain with an absent operand it cannot go over.
- `Whole`: no operator lacks an operand;
- `mainlineReturns`: all returns outside functions, by a walk that does none of this;
- `mainlineReturn_eq_head?`: in a whole program the search finds the first of them;
- `mainlineReturn_eq_find?`: this is the first node in pre-order that is a return and has no function around it.
-/
import Turnstile.Proofs.Program.JumpTargets

namespace Turnstile

namespace Node

def isReturn : Node → Bool
  | returnStatement .. => true
  | _ => false

/-! ## Operands that are there -/

/-- not a short-circuit operator without one of its operands -/
def hasOperands : Node → Bool
  | logical _ _ left right => left.isSome && right.isSome
  | _ => true

/-- no operator in a part of a program lacks an operand -/
inductive Whole : Node → Prop where
  | mk {n : Node} (own : n.hasOperands = true) (parts : ∀ c ∈ n.children, Whole c) : Whole n

theorem Whole.own {n : Node} (h : n.Whole) : n.hasOperands = true := by
  cases h with
  | mk own parts => exact own

theorem Whole.parts {n : Node} (h : n.Whole) : ∀ c ∈ n.children, c.Whole := by
  cases h with
  | mk own parts => exact parts

/-- the operands of a whole chain, behind operands that are there -/
theorem Whole.exists_of_mem_operandsOnto {rest : List (Address × Option Node)} {a : Address} {n : Node}
    (hrest : ∀ p ∈ rest, ∃ m, p.2 = some m ∧ m.Whole) (h : n.Whole) :
    ∀ p ∈ operandsOnto rest a n, ∃ m, p.2 = some m ∧ m.Whole := by
  fun_induction operandsOnto rest a n with
  | case1 rest a span operator left right ih =>
    obtain ⟨right, rfl⟩ : ∃ m, right = some m := Option.isSome_iff_exists.1 (by simpa [hasOperands] using h.own)
    have hright : right.Whole := h.parts _ (by simp [children])
    exact ih (List.forall_mem_cons.2 ⟨⟨right, rfl, hright⟩, hrest⟩) (h.parts _ (by simp [children]))
  | case2 rest a span operator right => exact absurd h.own (by simp [hasOperands])
  | case3 n rest a => exact List.forall_mem_cons.2 ⟨⟨n, rfl, h⟩, hrest⟩

/-- a whole chain has operands only that are there and whole -/
theorem Whole.exists_of_mem_operands {n : Node} (h : n.Whole) {a : Address} {p : Address × Option Node}
    (hp : p ∈ n.operands a) : ∃ m, p.2 = some m ∧ m.Whole :=
  h.exists_of_mem_operandsOnto (by simp) p hp

/-! ## All returns outside functions -/

/-- the returns in a part of a program that are not inside a function of the part, in pre-order -/
def mainlineReturns (n : Node) : List Node :=
  if n.isFunction then []
  else (if n.isReturn then [n] else []) ++ n.children.attach.flatMap fun ⟨c, _⟩ => c.mainlineReturns
termination_by sizeOf n
decreasing_by exact sizeOf_lt_of_mem_children ‹_›

theorem mainlineReturns_eq (n : Node) : n.mainlineReturns =
    if n.isFunction then [] else (if n.isReturn then [n] else []) ++ n.children.flatMap mainlineReturns := by
  rw [mainlineReturns]
  congr 2
  exact flatMap_attach n.children mainlineReturns

/-- a chain of operators is no return and no function -/
theorem mainlineReturns_of_isLogical (a : Address) {n : Node} (h : n.isLogical = true) :
    n.mainlineReturns = (n.placed a).flatMap fun p => p.2.mainlineReturns := by
  rw [mainlineReturns_eq, placed, flatMap_placedFrom]
  cases n with
  | logical span operator left right => rfl
  | _ => simp [isLogical] at h

/-! ## The search -/

/-- a search among parts, if it finds the first in each of them -/
theorem firstFound_eq_head? {α β ε : Type} {f : α → Except ε (Option β)} {g : α → List β} {l : List α}
    (h : ∀ x ∈ l, f x = .ok (g x).head?) : firstFound f l = .ok (l.flatMap g).head? := by
  induction l with
  | nil => rfl
  | cons x l ih =>
    rw [firstFound, h x List.mem_cons_self, List.flatMap_cons, List.head?_append]
    cases (g x).head? with
    | none => exact ih fun y hy => h y (List.mem_cons_of_mem _ hy)
    | some b => rfl

theorem isReturn_eq_false {n : Node} (h : ∀ span argument, n ≠ returnStatement span argument) : n.isReturn = false := by
  cases n with
  | returnStatement span argument => exact absurd rfl (h span argument)
  | _ => rfl

theorem isFunction_eq_false {n : Node}
    (h : ∀ span form name parameters body, n ≠ function span form name parameters body) : n.isFunction = false := by
  cases n with
  | function span form name parameters body => exact absurd rfl (h span form name parameters body)
  | _ => rfl

/-- **The search finds the first return outside functions.** -/
theorem mainlineReturn_eq_head? {n : Node} (h : n.Whole) : n.mainlineReturn = .ok n.mainlineReturns.head? := by
  induction hsize : sizeOf n using Nat.strong_induction_on generalizing n with
  | _ size ih =>
    subst hsize
    fun_cases mainlineReturn n with
    | case1 span argument =>
      rw [mainlineReturns_eq]
      rfl
    | case2 span form name parameters body =>
      rw [mainlineReturns_eq]
      rfl
    | case3 n hreturn hfunction hlogical =>
      have hspine := flatMap_spine (fun _ m => m.mainlineReturns) (fun _ => [])
        (fun a m hm => mainlineReturns_of_isLogical a hm) .root n
      have hown : ((n.operators .root).flatMap fun _ => ([] : List Node)) = [] :=
        List.flatMap_eq_nil_iff.2 fun _ _ => rfl
      rw [← hspine, hown, List.nil_append, ← flatMap_attach]
      refine firstFound_eq_head? ?_
      rintro ⟨⟨b, o⟩, hp⟩ -
      obtain ⟨m, rfl, hm⟩ := h.exists_of_mem_operands hp
      exact ih _ (operand_lt hlogical hp) hm rfl
    | case4 n hreturn hfunction hlogical =>
      rw [mainlineReturns_eq, isReturn_eq_false hreturn, isFunction_eq_false hfunction, ← flatMap_attach]
      refine firstFound_eq_head? ?_
      rintro ⟨c, hc⟩ -
      exact ih _ (sizeOf_lt_of_mem_children hc) (h.parts c hc) rfl

end Node

/-! ## Returns among the nodes around them -/

/-- a return with no function around it -/
def Occurrence.isMainlineReturn (o : Occurrence) : Bool := o.node.isReturn && o.ancestors.all fun m => !m.isFunction

namespace Node

/-- inside a function nothing is outside functions -/
theorem isMainlineReturn_eq_false {ancestors : List Node} {n m : Node} (hm : m ∈ ancestors) (hf : m.isFunction = true)
    {o : Occurrence} (ho : o ∈ n.occurrences ancestors) : o.isMainlineReturn = false := by
  induction n using inductionOn generalizing ancestors with
  | step n ih =>
    rw [occurrences_eq] at ho
    rcases List.mem_cons.1 ho with rfl | ho
    · have hall : (ancestors.all fun m => !m.isFunction) = false :=
        List.all_eq_false.2 ⟨m, hm, by simp [hf]⟩
      rw [Occurrence.isMainlineReturn, hall, Bool.and_false]
    · obtain ⟨c, hc, ho⟩ := List.mem_flatMap.1 ho
      exact ih c hc (List.mem_cons_of_mem _ hm) ho

theorem mainlineReturns_eq_filter {ancestors : List Node} (h : ∀ m ∈ ancestors, m.isFunction = false) (n : Node) :
    n.mainlineReturns = ((n.occurrences ancestors).filter Occurrence.isMainlineReturn).map Occurrence.node := by
  induction n using inductionOn generalizing ancestors with
  | step n ih =>
    have hown : (Occurrence.mk ancestors n).isMainlineReturn = n.isReturn := by
      have hall : (ancestors.all fun m => !m.isFunction) = true := List.all_eq_true.2 fun m hm => by simp [h m hm]
      rw [Occurrence.isMainlineReturn, hall, Bool.and_true]
    rw [mainlineReturns_eq, occurrences_eq, List.filter_cons, hown, List.filter_flatMap]
    cases hf : n.isFunction with
    | true =>
      have hreturn : n.isReturn = false := by
        cases n <;> first | rfl | cases hf
      have hnone : (n.children.flatMap fun c =>
          (c.occurrences (n :: ancestors)).filter Occurrence.isMainlineReturn) = [] := by
        refine List.flatMap_eq_nil_iff.2 fun c _ => List.filter_eq_nil_iff.2 fun o ho => ?_
        simp [isMainlineReturn_eq_false List.mem_cons_self hf ho]
      rw [hnone, hreturn]
      rfl
    | false =>
      have hparts : n.children.flatMap mainlineReturns = (n.children.flatMap fun c =>
          (c.occurrences (n :: ancestors)).filter Occurrence.isMainlineReturn).map Occurrence.node := by
        rw [List.map_flatMap]
        exact List.flatMap_congr fun c hc => ih c hc (List.forall_mem_cons.2 ⟨hf, h⟩)
      rw [hparts]
      cases n.isReturn <;> rfl

/-- **The search finds the first node in pre-order that is a return outside every function.** -/
theorem mainlineReturn_eq_find? {program : Node} (h : program.Whole) : program.mainlineReturn =
    .ok (((program.occurrences []).find? Occurrence.isMainlineReturn).map Occurrence.node) := by
  have hall : ∀ m ∈ ([] : List Node), m.isFunction = false := by simp
  rw [mainlineReturn_eq_head? h, mainlineReturns_eq_filter hall, List.head?_map, List.head?_filter]

end Node

end Turnstile
