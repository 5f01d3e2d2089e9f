/-
Spans that nest.

- `InOrder.afterDirectives`: the offset behind the directives divides the statements of a block;
- `PartsInOrder.inside`, `PartsInOrder.pairwise`: the parts of a node are inside it and follow each other;
- `PartsInOrder.split`: the top of a block or a clause divides its parts.
-/
import Turnstile.Proofs.Emit.Rendering
import Turnstile.Proofs.Program.Shape

namespace Turnstile

/-! ## Nodes in order -/

namespace InOrder

variable {lo lo' hi hi' : ℕ} {ns ms : List Node}

theorem le (h : InOrder hi lo ns) : lo ≤ hi := by
  induction ns generalizing lo with
  | nil => exact h
  | cons n ns ih => exact h.1.trans (h.2.1.le.trans (ih h.2.2))

theorem mono (h : InOrder hi lo ns) (hlo : lo' ≤ lo) (hhi : hi ≤ hi') : InOrder hi' lo' ns := by
  induction ns generalizing lo lo' with
  | nil => exact hlo.trans (le_trans h hhi)
  | cons n ns ih => exact ⟨hlo.trans h.1, h.2.1, ih h.2.2 le_rfl⟩

theorem of_mem (h : InOrder hi lo ns) {n : Node} (hn : n ∈ ns) :
    lo ≤ n.span.start ∧ n.span.start < n.span.stop ∧ n.span.stop ≤ hi := by
  induction ns generalizing lo with
  | nil => simp at hn
  | cons m ns ih =>
    rcases List.mem_cons.1 hn with rfl | hn
    · exact ⟨h.1, h.2.1, h.2.2.le⟩
    · obtain ⟨h1, h2, h3⟩ := ih h.2.2 hn
      exact ⟨(h.1.trans h.2.1.le).trans h1, h2, h3⟩

/-- nodes further on start where nodes before them have ended -/
theorem pairwise (h : InOrder hi lo ns) : ns.Pairwise fun m n => m.span.stop ≤ n.span.start := by
  induction ns generalizing lo with
  | nil => exact .nil
  | cons n ns ih => exact List.pairwise_cons.2 ⟨fun m hm => (of_mem h.2.2 hm).1, ih h.2.2⟩

/-- directives stand in front of the offset behind them, and the other statements behind it -/
theorem afterDirectives (data : ByteArray) (h : InOrder hi lo ns) :
    InOrder (Node.afterDirectives data ns lo).1 lo (ns.take (ns.takeWhile Node.isDirective).length) ∧
    InOrder hi (Node.afterDirectives data ns lo).1 (ns.drop (ns.takeWhile Node.isDirective).length) ∧
    ((Node.afterDirectives data ns lo).1 = lo ∨ ∃ d ∈ ns, (Node.afterDirectives data ns lo).1 = d.span.stop) := by
  induction ns generalizing lo with
  | nil => exact ⟨le_rfl, h, Or.inl rfl⟩
  | cons n ns ih =>
    cases hn : n.isDirective with
    | false =>
      have hnone : (n :: ns).takeWhile Node.isDirective = [] := List.takeWhile_cons_of_neg (by simp [hn])
      have hoffset : (Node.afterDirectives data (n :: ns) lo).1 = lo := by simp [Node.afterDirectives, hnone]
      rw [hoffset, hnone]
      exact ⟨le_rfl, h, Or.inl rfl⟩
    | true =>
      have hoffset : (Node.afterDirectives data (n :: ns) lo).1 = (Node.afterDirectives data ns n.span.stop).1 := by
        simp only [Node.afterDirectives, List.takeWhile_cons_of_pos hn, List.getLast?_cons]
        cases (ns.takeWhile Node.isDirective).getLast? <;> rfl
      obtain ⟨h1, h2, h3⟩ := ih h.2.2
      rw [hoffset, List.takeWhile_cons_of_pos hn]
      refine ⟨⟨h.1, h.2.1, h1⟩, h2, Or.inr ?_⟩
      rcases h3 with h3 | ⟨d, hd, h3⟩
      · exact ⟨n, List.mem_cons_self, h3⟩
      · exact ⟨d, List.mem_cons_of_mem _ hd, h3⟩

end InOrder

namespace Node

variable {text : String} {data : ByteArray} {a : Address} {n : Node}

/-! ## Nested spans -/

/-- a part is inside its node, and not empty -/
theorem PartsInOrder.inside (h : n.PartsInOrder) {c : Node} (hc : c ∈ n.children) :
    n.span.start ≤ c.span.start ∧ c.span.start < c.span.stop ∧ c.span.stop ≤ n.span.stop := by
  cases n with
  | block span body =>
    obtain ⟨h1, h2, h3⟩ := InOrder.of_mem h hc
    exact ⟨Nat.le_of_succ_le h1, h2, h3.trans (Nat.sub_le _ _)⟩
  | switchCase span test body offset =>
    rcases List.mem_append.1 hc with hc | hc
    · obtain ⟨h1, h2, h3⟩ := InOrder.of_mem h.1 hc
      exact ⟨h1, h2, h3.trans h.2.le⟩
    · obtain ⟨h1, h2, h3⟩ := InOrder.of_mem h.2 hc
      exact ⟨h.1.le.trans h1, h2, h3⟩
  | switchStatement span discriminant cases => exact InOrder.of_mem h.1 hc
  | _ => exact InOrder.of_mem h hc

/-- nodes without a top have their parts in order from end to end -/
theorem PartsInOrder.inOrder (h : n.PartsInOrder) (htop : n.top? data = none) :
    InOrder n.span.stop n.span.start n.children := by
  cases n with
  | block => cases htop
  | switchCase => cases htop
  | switchStatement => exact h.1
  | _ => exact h

theorem PartsInOrder.pairwise (h : n.PartsInOrder) : n.children.Pairwise fun m m' => m.span.stop ≤ m'.span.start := by
  cases n with
  | block => exact InOrder.pairwise h
  | switchCase span test body offset =>
    refine List.pairwise_append.2 ⟨h.1.pairwise, h.2.pairwise, fun m hm m' hm' => ?_⟩
    exact (h.1.of_mem hm).2.2.trans (h.2.of_mem hm').1
  | switchStatement => exact h.1.pairwise
  | _ => exact InOrder.pairwise h

theorem PartsInOrder.countsBefore (h : n.PartsInOrder) {c : Node} (hc : c ∈ n.clauses) : c.CountsBefore n.span.stop := by
  cases n with
  | switchStatement => exact h.2 c hc
  | _ => simp [clauses] at hc

/-- the top of a node splits its parts: those in front of it end there, the others start behind it -/
theorem PartsInOrder.split (h : n.PartsInOrder) (hoffsets : ∀ o ∈ n.offsets, Boundary text o)
    (hstops : ∀ c ∈ n.children, Boundary text c.span.stop) {k offset : ℕ} (htop : n.top? data = some (k, offset)) :
    InOrder offset n.span.start (n.children.take k) ∧ InOrder n.span.stop offset (n.children.drop k) ∧
      Boundary text offset := by
  cases n with
  | block span body =>
    obtain ⟨rfl, rfl⟩ := Prod.mk.inj (Option.some.inj htop)
    obtain ⟨hfront, hback, hplace⟩ := InOrder.afterDirectives data h
    refine ⟨hfront.mono (Nat.le_succ _) le_rfl, hback.mono le_rfl (Nat.sub_le _ _), ?_⟩
    rcases hplace with hplace | ⟨d, hd, hplace⟩
    · rw [hplace]
      exact hoffsets _ (by simp [offsets])
    · rw [hplace]
      exact hstops d hd
  | switchCase span test body colon =>
    obtain ⟨rfl, rfl⟩ := Prod.mk.inj (Option.some.inj htop)
    refine ⟨?_, ?_, hoffsets _ (by simp [offsets])⟩
    · simpa [children, Node.span] using h.1
    · simpa [children, Node.span] using h.2
  | _ => cases htop

theorem start_mem_offsets (n : Node) : n.span.start ∈ n.offsets := by
  cases n <;> simp [offsets, Node.span]

theorem stop_mem_offsets (n : Node) : n.span.stop ∈ n.offsets := by
  cases n <;> simp [offsets, Node.span]

theorem Laminar.of_mem_placed {p : Address × Node} (h : n.Laminar text a) (hp : p ∈ n.placed a) :
    p.2.Laminar text p.1 :=
  ⟨fun q hq => h.inOrder q (mem_preorder_of_mem_placed hp hq), fun q hq =>
    h.boundary q (mem_preorder_of_mem_placed hp hq)⟩

theorem Laminar.boundary_stop {c : Node} (h : n.Laminar text a) (hc : c ∈ n.children) : Boundary text c.span.stop := by
  obtain ⟨p, hp, rfl⟩ := exists_mem_placed a hc
  exact (h.of_mem_placed hp).boundary _ (self_mem_preorder p.1 p.2) _ (stop_mem_offsets p.2)

end Node

end Turnstile
