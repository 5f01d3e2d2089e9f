/-
Early errors, said without a walk.

The check goes through a program with a scope that it changes on the way: labels wait in front of the statement they belong
to, loops and switches are remembered, functions start afresh. Here a node is illegal because of the nodes around it alone.
- `Occurrence.Illegal`: the rule for each kind of node, in terms of what is visible from it.
- `Agrees`: what a scope has to do with the nodes around a place. The labels of a scope, waiting ones first, are the labels
  around the place, each with whether its chain of bodies ends in a loop; `Agrees.within` is the step, one level inward.
- `head?_faults`: on both sides of the step the first fault of the walk is at the first illegal node.
- `earlyError_iff_illegal`: the check fails exactly if some node is illegal, at the first one in pre-order.
-/
import Turnstile.Program.EarlyError
import Turnstile.Proofs.Program.Preorder

namespace Turnstile

open EarlyError

/-! ## Nodes among the nodes around them -/

namespace Node

def isLoop : Node → Bool
  | whileLoop .. | doWhileLoop .. | forLoop .. | forInLoop .. => true
  | _ => false

def isSwitch : Node → Bool
  | switchStatement .. => true
  | _ => false

/-- functions and static blocks: jumps do not see what is around them -/
def startsAfresh : Node → Bool
  | function .. | staticBlock .. => true
  | _ => false

/-- a loop, or labels in front of one -/
def endsInLoop : Node → Bool
  | labeled _ _ body => body.endsInLoop
  | n => n.isLoop

/-- not a label in front of something that is no statement -/
def labelsStatement : Node → Bool
  | labeled _ _ body => body.isStatement
  | _ => true

/-- a label of some name -/
def isLabel (name : Option String) : Node → Bool
  | labeled _ label _ => label == name
  | _ => false

/-- the label that a node is, as a scope keeps it -/
def label? : Node → Option Label
  | labeled _ name body => some ⟨name, body.endsInLoop⟩
  | _ => none

theorem label?_eq_some_iff {m : Node} {l : Label} :
    m.label? = some l ↔ m.isLabel l.name = true ∧ m.endsInLoop = l.onLoop := by
  obtain ⟨name, onLoop⟩ := l
  cases m <;> simp [label?, isLabel, endsInLoop]

end Node

/-- a node of a program with the nodes around it, innermost first -/
structure Occurrence where
  ancestors : List Node
  node : Node

/-- the nodes of a part of a program in pre-order, each with the nodes around it -/
def Node.occurrences (ancestors : List Node) (n : Node) : List Occurrence :=
  ⟨ancestors, n⟩ :: n.children.attach.flatMap fun ⟨c, _⟩ => c.occurrences (n :: ancestors)
termination_by sizeOf n
decreasing_by exact Node.sizeOf_lt_of_mem_children ‹_›

namespace Occurrence

/-- the nodes around a place, up to the innermost function or static block -/
def visible (ancestors : List Node) : List Node := ancestors.takeWhile fun m => !m.startsAfresh

/-- a node that must not stand where it stands -/
def Illegal (o : Occurrence) : Prop :=
  match o.node with
  | .breakStatement _ none => ¬ ∃ m ∈ visible o.ancestors, m.isLoop = true ∨ m.isSwitch = true
  | .continueStatement _ none => ¬ ∃ m ∈ visible o.ancestors, m.isLoop = true
  | .breakStatement _ (some name) => ¬ ∃ m ∈ visible o.ancestors, m.isLabel (some name) = true
  | .continueStatement _ (some name) =>
    ¬ ∃ m ∈ visible o.ancestors, m.isLabel (some name) = true ∧ m.endsInLoop = true
  | .labeled _ name _ => ∃ m ∈ visible o.ancestors, m.isLabel name = true
  | .variableDeclaration _ keyword _ declarators =>
    (keyword = "let" ∨ keyword = "const") ∧ (∃ d ∈ declarators, d.name = some "let") ∨
      keyword = "const" ∧ ∃ d ∈ declarators, d.initialized = false
  | _ => False

instance (o : Occurrence) : Decidable o.Illegal := by
  unfold Illegal
  split <;> infer_instance

end Occurrence

/-- the bodies of labels are statements -/
def Node.LabelsStatements (n : Node) : Prop := ∀ o ∈ n.occurrences [], o.node.labelsStatement = true

instance (n : Node) : Decidable n.LabelsStatements := List.decidableBAll _ _

theorem Node.occurrences_eq (ancestors : List Node) (n : Node) :
    n.occurrences ancestors = ⟨ancestors, n⟩ :: n.children.flatMap fun c => c.occurrences (n :: ancestors) := by
  rw [occurrences]
  exact congrArg _ (flatMap_attach n.children fun c => c.occurrences (n :: ancestors))

/-! ## The check as the first of all faults -/

/-- all faults that a walk from a scope meets -/
def faults (s : EarlyError.Scope) (n : Node) : List EarlyError :=
  ((causeAt? s n).map (⟨·, n.span.location⟩)).toList ++ n.children.attach.flatMap fun ⟨c, _⟩ => faults (s.within n) c
termination_by sizeOf n
decreasing_by exact Node.sizeOf_lt_of_mem_children ‹_›

theorem faults_eq (s : EarlyError.Scope) (n : Node) : faults s n =
    ((causeAt? s n).map (⟨·, n.span.location⟩)).toList ++ n.children.flatMap (faults (s.within n)) := by
  rw [faults]
  exact congrArg _ (Node.flatMap_attach n.children (faults (s.within n)))

/-- fails with the first fault if there is one -/
def failFirst : List EarlyError → Except EarlyError Unit
  | [] => .ok ()
  | e :: _ => .error e

theorem failFirst_append (xs ys : List EarlyError) : failFirst (xs ++ ys) = (do failFirst xs; failFirst ys) := by
  cases xs <;> rfl

theorem forM_eq_failFirst {α : Type} {f : α → Except EarlyError Unit} {g : α → List EarlyError} {l : List α}
    (h : ∀ x ∈ l, f x = failFirst (g x)) : l.forM f = failFirst (l.flatMap g) := by
  induction l with
  | nil => rfl
  | cons x l ih =>
    have hcons : (x :: l).forM f = (do f x; l.forM f) := rfl
    rw [hcons, h x List.mem_cons_self, ih fun y hy => h y (List.mem_cons_of_mem _ hy), List.flatMap_cons,
      failFirst_append]

/-- a chain of operators has no faults but those of its operands -/
theorem faults_of_isLogical (s : EarlyError.Scope) (a : Address) {n : Node} (h : n.isLogical = true) :
    faults s n = (n.placed a).flatMap fun p => faults s p.2 := by
  rw [faults_eq, Node.placed, Node.flatMap_placedFrom]
  cases n with
  | logical span operator left right => rfl
  | _ => simp [Node.isLogical] at h

theorem check_eq_failFirst (s : EarlyError.Scope) (n : Node) : check s n = failFirst (faults s n) := by
  induction h : sizeOf n using Nat.strong_induction_on generalizing n s with
  | _ size ih =>
    subst h
    rw [check, faults_eq]
    cases hc : causeAt? s n with
    | some cause => rfl
    | none =>
      by_cases hn : n.isLogical = true
      · have hspine := Node.flatMap_spine (fun _ m => faults s m) (fun _ => [])
          (fun a m hm => faults_of_isLogical s a hm) .root n
        have hown : ((n.operators .root).flatMap fun _ => ([] : List EarlyError)) = [] :=
          List.flatMap_eq_nil_iff.2 fun _ _ => rfl
        rw [hown, List.nil_append, faults_eq, hc] at hspine
        simp only [dif_pos hn]
        rw [← hspine, ← Node.flatMap_attach]
        refine forM_eq_failFirst ?_
        rintro ⟨⟨b, _ | m⟩, hm⟩ -
        · rfl
        · exact ih _ (Node.operand_lt hn hm) s m rfl
      · simp only [dif_neg hn]
        rw [Option.map_none, Option.toList_none, List.nil_append, ← Node.flatMap_attach]
        refine forM_eq_failFirst ?_
        rintro ⟨c, hm⟩ -
        exact ih _ (Node.sizeOf_lt_of_mem_children hm) (s.within n) c rfl

/-! ## Scopes and the nodes around a place -/

theorem visible_cons (n : Node) (ancestors : List Node) : Occurrence.visible (n :: ancestors) =
    if n.startsAfresh then [] else n :: Occurrence.visible ancestors := by
  rw [Occurrence.visible, List.takeWhile_cons]
  cases n.startsAfresh <;> rfl

/-- the labels that are visible from a place, innermost first -/
def visibleLabels (ancestors : List Node) : List Label := (Occurrence.visible ancestors).filterMap Node.label?

/-- a scope is that of a node with some nodes around it. The labels that wait belong to the node, so they are on a loop
exactly if the node ends in one. -/
structure Agrees (s : EarlyError.Scope) (ancestors : List Node) (n : Node) : Prop where
  inBreakable : s.inBreakable = (Occurrence.visible ancestors).any fun m => m.isLoop || m.isSwitch
  inLoop : s.inLoop = (Occurrence.visible ancestors).any Node.isLoop
  labels : s.pending.map (⟨·, n.endsInLoop⟩) ++ s.labels = visibleLabels ancestors
  nodup : ((visibleLabels ancestors).map Label.name).Nodup
  pending : s.pending ≠ [] → n.isStatement = true

theorem agrees_top (n : Node) : Agrees EarlyError.Scope.top [] n := ⟨rfl, rfl, rfl, List.nodup_nil, fun h => absurd rfl h⟩

theorem agrees_top_of_startsAfresh {n : Node} (h : n.startsAfresh = true) (ancestors : List Node) (c : Node) :
    Agrees EarlyError.Scope.top (n :: ancestors) c := by
  have hv : Occurrence.visible (n :: ancestors) = [] := by rw [visible_cons, if_pos h]
  refine ⟨by rw [hv]; rfl, by rw [hv]; rfl, ?_, ?_, fun h => absurd rfl h⟩ <;> rw [visibleLabels, hv]
  · rfl
  · exact List.nodup_nil

/-- how a node changes the scope of its parts: a function starts afresh, a label waits, any other statement takes the
labels that wait, and nothing else changes anything -/
theorem within_cases (s : EarlyError.Scope) (n : Node) :
    n.startsAfresh = true ∧ s.within n = EarlyError.Scope.top ∨
    (∃ span name body, n = .labeled span name body ∧ s.within n = { s with pending := name :: s.pending }) ∨
    n.isStatement = true ∧ n.startsAfresh = false ∧ n.label? = none ∧ n.endsInLoop = n.isLoop ∧
      s.within n = s.enter n.isLoop (n.isLoop || n.isSwitch) ∨
    n.isStatement = false ∧ n.startsAfresh = false ∧ n.label? = none ∧ n.isLoop = false ∧ n.isSwitch = false ∧
      s.within n = s := by
  cases n with
  | function => exact Or.inl ⟨rfl, rfl⟩
  | staticBlock => exact Or.inl ⟨rfl, rfl⟩
  | labeled span name body => exact Or.inr (Or.inl ⟨span, name, body, rfl, rfl⟩)
  | program | switchCase | catchClause | conditional | logical | composite =>
    exact Or.inr (Or.inr (Or.inr ⟨rfl, rfl, rfl, rfl, rfl, rfl⟩))
  | _ => exact Or.inr (Or.inr (Or.inl ⟨rfl, rfl, rfl, rfl, rfl⟩))

/-- the scope inside a node that is legal where it stands -/
theorem Agrees.within {s : EarlyError.Scope} {ancestors : List Node} {n c : Node} (h : Agrees s ancestors n)
    (hlegal : ¬ (Occurrence.mk ancestors n).Illegal) (hc : c ∈ n.children) (hbody : n.labelsStatement = true) :
    Agrees (s.within n) (n :: ancestors) c := by
  rcases within_cases s n with ⟨hf, hw⟩ | ⟨span, name, body, rfl, hw⟩ | ⟨hs, hf, hl, he, hw⟩ | ⟨hs, hf, hl, hi, hsw, hw⟩
  · rw [hw]
    exact agrees_top_of_startsAfresh hf ancestors c
  · obtain rfl : c = body := by simpa [Node.children] using hc
    have hlabels : visibleLabels (.labeled span name c :: ancestors) = ⟨name, c.endsInLoop⟩ :: visibleLabels ancestors := by
      simp [visibleLabels, visible_cons, Node.startsAfresh, Node.label?]
    have hends : (Node.labeled span name c).endsInLoop = c.endsInLoop := rfl
    rw [hw]
    refine ⟨?_, ?_, ?_, ?_, fun _ => hbody⟩
    · simp [visible_cons, Node.startsAfresh, Node.isLoop, Node.isSwitch, h.inBreakable]
    · simp [visible_cons, Node.startsAfresh, Node.isLoop, h.inLoop]
    · rw [hlabels, ← h.labels, hends]
      rfl
    · rw [hlabels, List.map_cons]
      refine List.nodup_cons.2 ⟨fun hm => hlegal ?_, h.nodup⟩
      obtain ⟨l, hl, rfl⟩ := List.mem_map.1 hm
      obtain ⟨m, hm, hml⟩ := List.mem_filterMap.1 hl
      exact ⟨m, hm, (Node.label?_eq_some_iff.1 hml).1⟩
  · have hlabels : visibleLabels (n :: ancestors) = visibleLabels ancestors := by
      simp [visibleLabels, visible_cons, hf, hl]
    rw [hw]
    refine ⟨?_, ?_, ?_, by rw [hlabels]; exact h.nodup, fun h => absurd rfl h⟩
    · simp [EarlyError.Scope.enter, visible_cons, hf, h.inBreakable, Bool.or_comm]
    · simp [EarlyError.Scope.enter, visible_cons, hf, h.inLoop, Bool.or_comm]
    · rw [hlabels, ← h.labels, he]
      rfl
  · have hpending : s.pending = [] := by
      by_contra hp
      rw [h.pending hp] at hs
      cases hs
    have hlabels : visibleLabels (n :: ancestors) = visibleLabels ancestors := by
      simp [visibleLabels, visible_cons, hf, hl]
    rw [hw]
    refine ⟨?_, ?_, ?_, by rw [hlabels]; exact h.nodup, fun hp => absurd hpending hp⟩
    · simp [visible_cons, hf, hi, hsw, h.inBreakable]
    · simp [visible_cons, hf, hi, h.inLoop]
    · rw [hlabels, ← h.labels, hpending]
      rfl

/-! ## The rule at one node -/

theorem mem_names_iff {ancestors : List Node} {name : Option String} :
    name ∈ (visibleLabels ancestors).map Label.name ↔
      ∃ m ∈ Occurrence.visible ancestors, m.isLabel name = true := by
  simp only [visibleLabels, List.mem_map, List.mem_filterMap, Node.label?_eq_some_iff]
  constructor
  · rintro ⟨l, ⟨m, hm, hl, -⟩, rfl⟩
    exact ⟨m, hm, hl⟩
  · rintro ⟨m, hm, hl⟩
    exact ⟨⟨name, m.endsInLoop⟩, ⟨m, hm, hl, rfl⟩, rfl⟩

theorem find?_isSome_iff (s : EarlyError.Scope) (name : Option String) :
    (s.find? name).isSome = true ↔ name ∈ s.labels.map Label.name := by
  simp [EarlyError.Scope.find?, List.mem_map]

theorem Agrees.known_iff {s : EarlyError.Scope} {ancestors : List Node} {n : Node} (h : Agrees s ancestors n)
    (name : Option String) : s.pending.contains name = true ∨ (s.find? name).isSome = true ↔
      ∃ m ∈ Occurrence.visible ancestors, m.isLabel name = true := by
  rw [← mem_names_iff, ← h.labels, find?_isSome_iff, List.map_append, List.mem_append, List.map_map]
  simp [Function.comp_def]

/-- among labels of different names, the first of a name is the only one -/
theorem find?_name_eq_some {labels : List Label} (h : (labels.map Label.name).Nodup) {l : Label} (hl : l ∈ labels) :
    (labels.find? fun k => k.name == l.name) = some l := by
  induction labels with
  | nil => simp at hl
  | cons k labels ih =>
    rw [List.map_cons, List.nodup_cons] at h
    rcases List.mem_cons.1 hl with rfl | hl
    · simp
    · have hne : (k.name == l.name) = false := by
        have : k.name ≠ l.name := fun e => h.1 (e ▸ List.mem_map_of_mem hl)
        simpa using this
      rw [List.find?_cons, hne]
      exact ih h.2 hl

/-- at a node that does not end in a loop, a label is found on a loop exactly if it is visible and on one -/
theorem Agrees.find?_eq_some_true_iff {s : EarlyError.Scope} {ancestors : List Node} {n : Node} (h : Agrees s ancestors n)
    (hn : n.endsInLoop = false) (name : Option String) : s.find? name = some true ↔
      ∃ m ∈ Occurrence.visible ancestors, m.isLabel name = true ∧ m.endsInLoop = true := by
  have hlabels := h.labels
  rw [hn] at hlabels
  have hnodup : (s.labels.map Label.name).Nodup := by
    have hn' := h.nodup
    rw [← hlabels, List.map_append] at hn'
    exact (List.nodup_append.1 hn').2.1
  have hmem : ∀ l : Label, l.onLoop = true → (l ∈ s.labels ↔ l ∈ visibleLabels ancestors) := by
    intro l hl
    rw [← hlabels, List.mem_append]
    refine ⟨Or.inr, fun hm => hm.resolve_left fun hp => ?_⟩
    obtain ⟨p, -, rfl⟩ := List.mem_map.1 hp
    cases hl
  constructor
  · intro hf
    rw [EarlyError.Scope.find?, Option.map_eq_some_iff] at hf
    obtain ⟨l, hl, hloop⟩ := hf
    obtain ⟨m, hm, hml⟩ := List.mem_filterMap.1 ((hmem l hloop).1 (List.mem_of_find?_eq_some hl))
    obtain ⟨hname, hends⟩ := Node.label?_eq_some_iff.1 hml
    have hln : l.name = name := by simpa using List.find?_some hl
    exact ⟨m, hm, hln ▸ hname, hends.trans hloop⟩
  · rintro ⟨m, hm, hname, hends⟩
    have hl : ⟨name, true⟩ ∈ s.labels :=
      (hmem ⟨name, true⟩ rfl).2 (List.mem_filterMap.2 ⟨m, hm, Node.label?_eq_some_iff.2 ⟨hname, hends⟩⟩)
    rw [EarlyError.Scope.find?, find?_name_eq_some hnodup hl, Option.map_some]

theorem findSome?_declaratorCause?_isSome_iff (keyword : String) (declarators : List Declarator) :
    (declarators.findSome? (declaratorCause? keyword)).isSome = true ↔
      (∃ d ∈ declarators, d.name = some "let") ∨ keyword = "const" ∧ ∃ d ∈ declarators, d.initialized = false := by
  have hone : ∀ d : Declarator, (declaratorCause? keyword d).isSome = true ↔
      d.name = some "let" ∨ keyword = "const" ∧ d.initialized = false := by
    intro d
    unfold declaratorCause?
    split_ifs with h1 h2
    · simp [h1]
    · simp at h2
      simp [h2]
    · simp at h2
      simpa [h1] using h2
  rw [List.findSome?_isSome_iff]
  constructor
  · rintro ⟨d, hd, hc⟩
    rcases (hone d).1 hc with h | ⟨hk, h⟩
    · exact Or.inl ⟨d, hd, h⟩
    · exact Or.inr ⟨hk, d, hd, h⟩
  · rintro (⟨d, hd, h⟩ | ⟨hk, d, hd, h⟩)
    · exact ⟨d, hd, (hone d).2 (Or.inl h)⟩
    · exact ⟨d, hd, (hone d).2 (Or.inr ⟨hk, h⟩)⟩

theorem isSome_unless {α : Type} {p : Prop} [Decidable p] (x : α) :
    (if p then none else some x : Option α).isSome = true ↔ ¬ p := by
  split_ifs with h <;> simp [h]

/-- **One node.** In a scope that agrees with the nodes around a node, the check finds fault with the node exactly if it is
illegal. -/
theorem causeAt?_isSome_iff {s : EarlyError.Scope} {ancestors : List Node} {n : Node} (h : Agrees s ancestors n) :
    (causeAt? s n).isSome = true ↔ (Occurrence.mk ancestors n).Illegal := by
  cases n with
  | labeled span name body =>
    show (if _ then _ else _ : Option EarlyErrorCause).isSome = true ↔ _
    rw [Option.isSome_ite, Bool.or_eq_true]
    exact h.known_iff name
  | breakStatement span label =>
    cases label with
    | none =>
      refine (isSome_unless _).trans (not_congr ?_)
      rw [h.inBreakable, List.any_eq_true]
      simp only [Bool.or_eq_true]
    | some name =>
      refine (isSome_unless _).trans (not_congr ?_)
      rw [← h.known_iff (some name), Bool.or_eq_true, Or.comm]
  | continueStatement span label =>
    cases label with
    | none =>
      refine (isSome_unless _).trans (not_congr ?_)
      rw [h.inLoop, List.any_eq_true]
    | some name =>
      refine Iff.trans ?_ (not_congr (h.find?_eq_some_true_iff rfl (some name)))
      rw [causeAt?]
      rcases s.find? (some name) with _ | _ | _ <;> simp
  | variableDeclaration span keyword initializers declarators =>
    show Option.isSome (if _ then _ else none : Option EarlyErrorCause) = true ↔ (_ ∧ _ ∨ _ ∧ _)
    split_ifs with hk
    · simp at hk
      rw [findSome?_declaratorCause?_isSome_iff]
      simp [hk]
    · simp at hk
      simp [hk]
  | _ => exact iff_of_false (by simp [causeAt?]) id

/-! ## A whole program -/

theorem findSome?_congr {α β : Type} {f g : α → Option β} {l : List α} (h : ∀ x ∈ l, f x = g x) :
    l.findSome? f = l.findSome? g := by
  induction l with
  | nil => rfl
  | cons x l ih =>
    rw [List.findSome?_cons, List.findSome?_cons, h x List.mem_cons_self, ih fun y hy => h y (List.mem_cons_of_mem _ hy)]

theorem failFirst_eq_error_iff {es : List EarlyError} {e : EarlyError} :
    failFirst es = .error e ↔ es.head? = some e := by
  cases es <;> simp [failFirst]

/-- **The first fault is at the first illegal node.** -/
theorem head?_faults {s : EarlyError.Scope} {ancestors : List Node} {n : Node} (h : Agrees s ancestors n)
    (hbody : ∀ o ∈ n.occurrences ancestors, o.node.labelsStatement = true) :
    (faults s n).head?.map EarlyError.location =
      ((n.occurrences ancestors).find? fun o => o.Illegal).map fun o => o.node.span.location := by
  induction n using Node.inductionOn generalizing s ancestors with
  | step n ih =>
    have hnode := causeAt?_isSome_iff h
    rw [faults_eq]
    rw [Node.occurrences_eq] at hbody ⊢
    cases hc : causeAt? s n with
    | some cause =>
      have hill : (Occurrence.mk ancestors n).Illegal := hnode.1 (by rw [hc]; rfl)
      rw [List.find?_cons_of_pos (by simpa using hill)]
      rfl
    | none =>
      have hlegal : ¬ (Occurrence.mk ancestors n).Illegal := fun hill => by
        have := hnode.2 hill
        rw [hc] at this
        cases this
      -- nothing is wrong at the node itself, so the search goes on in its parts
      rw [List.find?_cons_of_neg (by simpa using hlegal), List.find?_flatMap, Option.map_none, Option.toList_none,
        List.nil_append, List.head?_flatMap, List.map_findSome?, List.map_findSome?]
      refine findSome?_congr fun c hm => ?_
      exact ih c hm (h.within hlegal hm (hbody _ List.mem_cons_self)) fun o ho =>
        hbody o (List.mem_cons_of_mem _ (List.mem_flatMap.2 ⟨c, hm, ho⟩))

/-- **Early errors are illegal nodes.** In a program whose labels are in front of statements, the check fails exactly if
some node must not stand where it stands, and it fails at the start of the first such node in pre-order. -/
theorem earlyError_iff_illegal (program : Node) (hlabels : program.LabelsStatements) :
    ((∃ e, program.earlyError = .error e) ↔ ∃ o ∈ program.occurrences [], o.Illegal) ∧
    ∀ e, program.earlyError = .error e → ∃ before o after, program.occurrences [] = before ++ o :: after ∧
      (∀ b ∈ before, ¬ b.Illegal) ∧ o.Illegal ∧ e.location = o.node.span.location := by
  have hfirst := head?_faults (agrees_top program) hlabels
  have herror : ∀ e, program.earlyError = .error e ↔ (faults EarlyError.Scope.top program).head? = some e := by
    intro e
    rw [Node.earlyError, check_eq_failFirst, failFirst_eq_error_iff]
  refine ⟨⟨?_, ?_⟩, fun e he => ?_⟩
  · rintro ⟨e, he⟩
    rw [(herror e).1 he] at hfirst
    obtain ⟨o, ho, -⟩ := Option.map_eq_some_iff.1 hfirst.symm
    exact ⟨o, List.mem_of_find?_eq_some ho, by simpa using List.find?_some ho⟩
  · rintro ⟨o, ho, hill⟩
    have hsome : ((program.occurrences []).find? fun o => o.Illegal).isSome = true :=
      List.find?_isSome.2 ⟨o, ho, by simpa using hill⟩
    obtain ⟨o', ho'⟩ := Option.isSome_iff_exists.1 hsome
    rw [ho'] at hfirst
    obtain ⟨e, he, -⟩ := Option.map_eq_some_iff.1 hfirst
    exact ⟨e, (herror e).2 he⟩
  · rw [(herror e).1 he] at hfirst
    obtain ⟨o, ho, hloc⟩ := Option.map_eq_some_iff.1 hfirst.symm
    obtain ⟨hill, before, after, hsplit, hbefore⟩ := List.find?_eq_some_iff_append.1 ho
    exact ⟨before, o, after, hsplit, fun b hb => by simpa using hbefore b hb, by simpa using hill, hloc.symm⟩

/-- `a: { b: while (c) continue a; }`: the label `a` is visible, but its body is a block -/
def continueToBlock : Node :=
  .program ⟨0, 33, ⟨1, 0, 1, 33⟩⟩ [.labeled ⟨0, 33, ⟨1, 0, 1, 33⟩⟩ (some "a") (.block ⟨3, 33, ⟨1, 3, 1, 33⟩⟩
    [.labeled ⟨5, 31, ⟨1, 5, 1, 31⟩⟩ (some "b") (.whileLoop ⟨8, 31, ⟨1, 8, 1, 31⟩⟩ none
      (.continueStatement ⟨18, 31, ⟨1, 18, 1, 31⟩⟩ (some "a")))])]

theorem continueToBlock_illegal : continueToBlock.LabelsStatements ∧
    (∃ o ∈ continueToBlock.occurrences [], o.Illegal) ∧ ∃ e, continueToBlock.earlyError = .error e := by
  have hlabels : continueToBlock.LabelsStatements := by decide +kernel
  have hill : ∃ o ∈ continueToBlock.occurrences [], o.Illegal := by decide +kernel
  exact ⟨hlabels, hill, (earlyError_iff_illegal continueToBlock hlabels).1.2 hill⟩

end Turnstile
