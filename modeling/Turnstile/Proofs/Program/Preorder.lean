/-
Programs in pre-order.

`preorder` is a part of a program flattened along `children`, each node with its address. It is what every walk is
measured against:
- `nodup_preorder`: no address occurs twice, so an address names one node;
- `flatMap_spine`: going over a chain of short-circuit operators in a loop, operators first and operands behind them, is
  the same as going into the left operand and then into the right one;
- `visits_eq_preorder`: the visits of the numbering walk are the pre-order.
-/
import Mathlib.Tactic
import Turnstile.Coverage.Index

namespace Turnstile

namespace Node

/-- induction along the parts of a node -/
theorem inductionOn {motive : Node → Prop} (n : Node)
    (step : ∀ n, (∀ c ∈ n.children, motive c) → motive n) : motive n :=
  step n fun c _ => inductionOn c step
termination_by sizeOf n
decreasing_by exact sizeOf_lt_of_mem_children ‹_›

/-- a walk that carries along that its parts are parts -/
theorem flatMap_attach {α β : Type} (l : List α) (f : α → List β) : (l.attach.flatMap fun x => f x.1) = l.flatMap f := by
  conv_rhs => rw [← List.attach_map_subtype_val l, List.flatMap_map]

/-! ## Kinds of nodes -/

/-- the constructs that choose between alternatives -/
def isBranch : Node → Bool
  | ifStatement .. | switchStatement .. | conditional .. | logical .. => true
  | _ => false

def isFunction : Node → Bool
  | function .. => true
  | _ => false

/-! ## Places of the parts -/

theorem flatMap_placedFrom {β : Type} (f : Node → List β) (a : Address) (i : ℕ) (ns : List Node) :
    ((placedFrom a i ns).flatMap fun p => f p.2) = ns.flatMap f := by
  induction ns generalizing i with
  | nil => rfl
  | cons n ns ih => simp [placedFrom, ih]

theorem placedFrom_append (a : Address) (i : ℕ) (ms ns : List Node) :
    placedFrom a i (ms ++ ns) = placedFrom a i ms ++ placedFrom a (i + ms.length) ns := by
  induction ms generalizing i with
  | nil => simp [placedFrom]
  | cons m ms ih => simp [placedFrom, ih, Nat.add_assoc, Nat.add_comm 1]

theorem map_snd_placedFrom (a : Address) (i : ℕ) (ns : List Node) : (placedFrom a i ns).map Prod.snd = ns := by
  induction ns generalizing i with
  | nil => rfl
  | cons n ns ih => simp [placedFrom, ih]

/-- every part has an address -/
theorem exists_mem_placed {c n : Node} (a : Address) (hc : c ∈ n.children) : ∃ p ∈ n.placed a, p.2 = c := by
  rw [← map_snd_placedFrom a 0 n.children] at hc
  exact List.mem_map.1 hc

theorem placed_function (a : Address) (span : Span) (form : FunctionForm) (name : Option String)
    (parameters : List Node) (body : Node) : (function span form name parameters (some body)).placed a =
      placedFrom a 0 parameters ++ [(a.child parameters.length, body)] := by
  simp [placed, children, placedFrom_append, placedFrom]

theorem zip_placedFrom {α : Type} (a : Address) (i : ℕ) (ns : List Node) (x : α) :
    (placedFrom a i ns).zip (ns.map fun _ => x) = (placedFrom a i ns).map fun p => (p, x) := by
  induction ns generalizing i with
  | nil => rfl
  | cons n ns ih => simpa [placedFrom] using ih (i + 1)

theorem mem_placedFrom {a : Address} {i : ℕ} {ns : List Node} {p : Address × Node} (h : p ∈ placedFrom a i ns) :
    ∃ j, i ≤ j ∧ p.1 = a.child j := by
  induction ns generalizing i with
  | nil => simp [placedFrom] at h
  | cons n ns ih =>
    rcases List.mem_cons.1 h with rfl | h
    · exact ⟨i, le_rfl, rfl⟩
    · obtain ⟨j, hj, hp⟩ := ih h
      exact ⟨j, by omega, hp⟩

/-! ## The pre-order -/

/-- a part of a program and all that is inside it, in pre-order -/
def preorder (a : Address) (n : Node) : List (Address × Node) :=
  (a, n) :: (n.placed a).attach.flatMap fun ⟨(b, c), _⟩ => c.preorder b
termination_by sizeOf n
decreasing_by exact sizeOf_lt_of_mem_placed ‹_›

theorem preorder_eq (a : Address) (n : Node) :
    n.preorder a = (a, n) :: (n.placed a).flatMap fun p => p.2.preorder p.1 := by
  rw [preorder]
  exact congrArg _ (flatMap_attach (n.placed a) fun p => p.2.preorder p.1)

theorem self_mem_preorder (a : Address) (n : Node) : (a, n) ∈ n.preorder a := by
  rw [preorder_eq]
  exact List.mem_cons_self

/-- nodes of a part are nodes of the whole -/
theorem mem_preorder_of_mem_placed {a : Address} {n : Node} {p q : Address × Node} (hp : p ∈ n.placed a)
    (hq : q ∈ p.2.preorder p.1) : q ∈ n.preorder a := by
  rw [preorder_eq]
  exact List.mem_cons_of_mem _ (List.mem_flatMap.2 ⟨p, hp, hq⟩)

/-- every node of a part lies below the address of the part -/
theorem path_suffix_of_mem_preorder {a : Address} {n : Node} {p : Address × Node} (h : p ∈ n.preorder a) :
    a.path <:+ p.1.path := by
  induction n using inductionOn generalizing a with
  | step n ih =>
    rw [preorder_eq] at h
    rcases List.mem_cons.1 h with rfl | h
    · exact List.suffix_refl _
    · obtain ⟨q, hq, hp⟩ := List.mem_flatMap.1 h
      obtain ⟨j, -, hj⟩ := mem_placedFrom hq
      have hs := ih q.2 (mem_of_mem_placedFrom hq) hp
      rw [hj] at hs
      exact (List.suffix_cons j a.path).trans hs

/-- two suffixes of one list that start differently do not have the same length -/
theorem eq_of_cons_suffix {i j : ℕ} {l m : List ℕ} (hi : i :: l <:+ m) (hj : j :: l <:+ m) : i = j := by
  obtain ⟨r, hr⟩ := hi
  obtain ⟨s, hs⟩ := hj
  have h := List.append_inj' (hr.trans hs.symm) rfl
  exact (List.cons.injEq .. ▸ h.2).1

/-- nodes among parts at consecutive positions lie below one of these positions -/
theorem exists_child_suffix_of_mem_flatMap {a : Address} {i : ℕ} {ns : List Node} {p : Address × Node}
    (h : p ∈ (placedFrom a i ns).flatMap fun q => q.2.preorder q.1) : ∃ j, i ≤ j ∧ j :: a.path <:+ p.1.path := by
  obtain ⟨q, hq, hp⟩ := List.mem_flatMap.1 h
  obtain ⟨j, hj, hqj⟩ := mem_placedFrom hq
  have hs := path_suffix_of_mem_preorder hp
  rw [hqj] at hs
  exact ⟨j, hj, hs⟩

theorem nodup_flatMap_placedFrom {a : Address} {i : ℕ} {ns : List Node}
    (h : ∀ n ∈ ns, ∀ b, ((n.preorder b).map Prod.fst).Nodup) :
    (((placedFrom a i ns).flatMap fun q => q.2.preorder q.1).map Prod.fst).Nodup := by
  induction ns generalizing i with
  | nil => simp [placedFrom]
  | cons n ns ih =>
    simp only [placedFrom, List.flatMap_cons, List.map_append]
    refine List.nodup_append.2 ⟨h n List.mem_cons_self _, ih fun m hm => h m (List.mem_cons_of_mem _ hm), ?_⟩
    intro b hb c hc hbc
    obtain ⟨p, hp, rfl⟩ := List.mem_map.1 hb
    obtain ⟨q, hq, rfl⟩ := List.mem_map.1 hc
    obtain ⟨j, hj, hs⟩ := exists_child_suffix_of_mem_flatMap hq
    have hi : i :: a.path <:+ q.1.path := hbc ▸ path_suffix_of_mem_preorder hp
    have := eq_of_cons_suffix hi hs
    omega

/-- **An address names one node.** -/
theorem nodup_preorder (a : Address) (n : Node) : ((n.preorder a).map Prod.fst).Nodup := by
  induction n using inductionOn generalizing a with
  | step n ih =>
    rw [preorder_eq, List.map_cons]
    refine List.nodup_cons.2 ⟨fun h => ?_, nodup_flatMap_placedFrom fun c hc b => ih c hc b⟩
    obtain ⟨p, hp, hpa⟩ := List.mem_map.1 h
    obtain ⟨j, -, hs⟩ := exists_child_suffix_of_mem_flatMap hp
    have hlen := hs.length_le
    rw [hpa] at hlen
    simp at hlen

/-! ## Chains of short-circuit operators -/

/-- a walk over an operand that may be absent -/
def inOperand {β : Type} (walk : Address → Node → List β) (p : Address × Option Node) : List β :=
  match p.2 with
  | some m => walk p.1 m
  | none => []

/-- a chain in a loop, with more operands to come -/
theorem flatMap_operandsOnto {β : Type} (walk : Address → Node → List β) (own : Address × Node → List β)
    (hwalk : ∀ a n, n.isLogical = true → walk a n = own (a, n) ++ (n.placed a).flatMap fun p => walk p.1 p.2)
    (rest : List (Address × Option Node)) (a : Address) (n : Node) :
    (n.operators a).flatMap own ++ (operandsOnto rest a n).flatMap (inOperand walk) =
      walk a n ++ rest.flatMap (inOperand walk) := by
  fun_induction operandsOnto rest a n with
  | case1 rest a span operator left right ih =>
    have hright : inOperand walk (a.child 1, right) =
        (placedFrom a 1 right.toList).flatMap fun p => walk p.1 p.2 := by
      cases right <;> simp [inOperand, placedFrom]
    rw [operators, hwalk a _ rfl, List.flatMap_cons, List.append_assoc, ih, List.flatMap_cons, hright]
    simp [placed, children, placedFrom]
  | case2 rest a span operator right =>
    rw [hwalk a _ rfl]
    cases right <;> simp [operators, inOperand, placed, children, placedFrom]
  | case3 n rest a hsome hnone =>
    have hops : n.operators a = [] := by
      cases n with
      | logical span operator left right =>
        cases left with
        | some left => exact absurd rfl (hsome span operator left right)
        | none => exact absurd rfl (hnone span operator right)
      | _ => rfl
    simp [hops, inOperand]

/-- **A chain in a loop.** What is done at the operators of a chain and then in its operands is what a walk does that goes
from each operator into its left operand and then into its right one. -/
theorem flatMap_spine {β : Type} (walk : Address → Node → List β) (own : Address × Node → List β)
    (hwalk : ∀ a n, n.isLogical = true → walk a n = own (a, n) ++ (n.placed a).flatMap fun p => walk p.1 p.2)
    (a : Address) (n : Node) :
    (n.operators a).flatMap own ++ (n.operands a).flatMap (inOperand walk) = walk a n := by
  rw [operands, flatMap_operandsOnto walk own hwalk, List.flatMap_nil, List.append_nil]

/-- the operators of a chain start with the chain itself -/
theorem operators_eq_cons {n : Node} (a : Address) (h : n.isLogical = true) :
    n.operators a = (a, n) :: (n.operators a).drop 1 := by
  cases n with
  | logical span operator left right => cases left <;> rfl
  | _ => simp [isLogical] at h

theorem visits_of_isLogical {n : Node} (depth : ℕ) (a : Address) (h : n.isLogical = true) :
    n.visits depth a = ⟨depth, a, n⟩ :: ((n.operators a).drop 1).map (fun p => ⟨depth + 1, p.1, p.2⟩)
      ++ (n.operands a).flatMap (inOperand fun b m => m.visits (depth + 1) b) := by
  rw [visits, dif_pos h, ← flatMap_attach (n.operands a)]
  refine congrArg _ (List.flatMap_congr ?_)
  rintro ⟨⟨b, _ | m⟩, hp⟩ - <;> rfl

theorem visits_of_not_isLogical {n : Node} (depth : ℕ) (a : Address) (h : ¬ n.isLogical = true) :
    n.visits depth a = ⟨depth, a, n⟩ :: (n.placed a).flatMap fun p => p.2.visits (depth + 1) p.1 := by
  rw [visits, dif_neg h]
  exact congrArg _ (flatMap_attach (n.placed a) fun p => p.2.visits (depth + 1) p.1)

/-- **The numbering walk goes through a program in pre-order.** -/
theorem visits_eq_preorder (depth : ℕ) (a : Address) (n : Node) :
    ((n.visits depth a).map fun v => (v.address, v.node)) = n.preorder a := by
  induction h : sizeOf n using Nat.strong_induction_on generalizing n depth a with
  | _ size ih =>
    subst h
    by_cases hn : n.isLogical = true
    · have hin : ∀ p ∈ n.operands a,
          ((inOperand (fun b m => m.visits (depth + 1) b) p).map fun v => (v.address, v.node)) =
            inOperand (fun b m => m.preorder b) p := by
        rintro ⟨b, _ | m⟩ hp
        · rfl
        · exact ih _ (operand_lt hn hp) (depth + 1) b m rfl
      have hspine := flatMap_spine (fun b m => m.preorder b) (fun p => [p]) (fun b m _ => preorder_eq b m) a n
      rw [visits_of_isLogical depth a hn, List.map_append, List.map_cons, List.map_map, List.map_flatMap]
      rw [List.flatMap_congr hin]
      rw [← hspine, List.flatMap_singleton', operators_eq_cons a hn]
      simp [Function.comp_def]
    · rw [visits_of_not_isLogical depth a hn, preorder_eq, List.map_cons, List.map_flatMap]
      exact congrArg _ (List.flatMap_congr fun p hp => ih _ (sizeOf_lt_of_mem_placed hp) _ _ _ rfl)

end Node

end Turnstile
