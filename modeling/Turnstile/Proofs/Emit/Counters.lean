/-
Every counter is incremented in one place.

Insertions are listed by one walk over a program and counters are numbered by another. Here the first walk is counted:
- `counters`, `allCounters`: the counters that a node and a whole part should have;
- `own_perm_counters`: what a node inserts by itself and for the roles of its parts increments its own counters;
- `balanced_of_wellPlaced`: a part increments each of its counters once, by induction over the shape of lowered programs.
  Directives are the exception that the induction carries along: they insert nothing, and the program or the block that
  begins with them counts them;
- `programEdits_perm_allCounters`: the insertions for a whole program increment its counters once each.
-/
import Turnstile.Proofs.Coverage.Numbering
import Turnstile.Proofs.Emit.Recursion
import Turnstile.Proofs.Program.Shape

namespace Turnstile

/-! ## The counters of a node -/

/-- what a counter refers to -/
def Counter.ref {ρ : Type} : Counter ρ → ρ
  | statement ref | function ref | branch ref _ => ref

/-- the counters that some insertions increment, in the order of the insertions -/
def countersOf {ρ : Type} (es : List (Insertion (Snippet ρ))) : List (Counter ρ) :=
  es.filterMap fun e => e.payload.counter

theorem countersOf_append {ρ : Type} (es fs : List (Insertion (Snippet ρ))) :
    countersOf (es ++ fs) = countersOf es ++ countersOf fs := List.filterMap_append

theorem countersOf_flatMap {ρ α : Type} (l : List α) (f : α → List (Insertion (Snippet ρ))) :
    countersOf (l.flatMap f) = l.flatMap fun x => countersOf (f x) := by
  induction l with
  | nil => rfl
  | cons x l ih => rw [List.flatMap_cons, countersOf_append, ih, List.flatMap_cons]

namespace Node

/-- the counters of the node at address `a`: one as a statement, one for each alternative, one as a function -/
def counters (a : Address) (n : Node) : List (Counter Address) :=
  (if n.isCounted then [.statement a] else []) ++ (List.range n.alternatives.length).map (.branch a)
    ++ if n.isFunction then [.function a] else []

/-- the counters of a part of a program -/
def allCounters (a : Address) (n : Node) : List (Counter Address) := (n.preorder a).flatMap fun p => p.2.counters p.1

/-- the counters of the directives that the parts of the node at address `a` start with -/
def prologueCounters (a : Address) (parts : List Node) : List (Counter Address) :=
  ((placedFrom a 0 parts).takeWhile fun p => p.2.isDirective).flatMap fun p => p.2.counters p.1

/-- the counter of a part that is a directive -/
def directiveCounters (p : Address × Node) : List (Counter Address) :=
  if p.2.isDirective then p.2.counters p.1 else []

end Node

/-- what a part in this role counts for the node at address `a` -/
def Role.counters (a : Address) : Role → List (Counter Address)
  | .plain => []
  | .arm slot => slot.toList.map (.branch a)
  | .clause slot _ => [.branch a slot]

namespace Node

theorem allCounters_eq (a : Address) (n : Node) :
    n.allCounters a = n.counters a ++ (n.placed a).flatMap fun p => p.2.allCounters p.1 := by
  rw [allCounters, preorder_eq, List.flatMap_cons, List.flatMap_assoc]
  rfl

/-! ## What a node inserts by itself -/

theorem countersOf_armEdits (counter : Option (Counter Address)) (part : Node) :
    countersOf (armEdits counter part) = counter.toList := by
  unfold armEdits
  split
  · cases counter <;> rfl
  · cases counter <;> split <;> first | rfl | simp_all

theorem countersOf_roleEdits (a : Address) (role : Role) (part : Node) :
    countersOf (roleEdits a role part) = role.counters a := by
  cases role with
  | plain => rfl
  | arm slot =>
    rw [roleEdits, countersOf_armEdits]
    cases slot <;> rfl
  | clause slot offset => rfl

/-- what the parts of a node count for it is said by their roles -/
theorem countersOf_flatMap_roleEdits (a : Address) (n : Node) :
    countersOf (((n.placed a).zip n.roles).flatMap fun x => roleEdits a x.2 x.1.2) =
      n.roles.flatMap (Role.counters a) := by
  have hlength : n.roles.length ≤ (n.placed a).length := by rw [placed, length_placedFrom, length_roles]
  rw [countersOf_flatMap]
  simp only [countersOf_roleEdits]
  conv_rhs => rw [← List.map_snd_zip hlength, List.flatMap_map]

theorem countersOf_countEdits (hoist : Option ℕ) (a : Address) (n : Node) :
    countersOf (countEdits hoist a n) = if n.isCounted then [.statement a] else [] := by
  unfold countEdits
  split <;> rfl

theorem flatMap_counters_plain {α : Type} (a : Address) (l : List α) :
    (l.map fun _ => Role.plain).flatMap (Role.counters a) = [] := by
  induction l with
  | nil => rfl
  | cons x l ih => exact ih

/-- the clauses of a switch count its slots in order -/
theorem flatMap_counters_switch (a : Address) (span : Span) (discriminant : Option Node) (cases : List Node)
    (h : ∀ c ∈ cases, c.isClause = true) :
    (switchStatement span discriminant cases).roles.flatMap (Role.counters a) =
      (List.range cases.length).map (.branch a) := by
  rw [roles, List.flatMap_append, flatMap_counters_plain, List.nil_append, List.range_eq_range']
  generalize 0 = i
  induction cases generalizing i with
  | nil => rfl
  | cons c cases ih =>
    cases c with
    | switchCase span test body offset =>
      have := ih (fun c hc => h c (List.mem_cons_of_mem _ hc)) (i + 1)
      simpa [Role.counters, List.range'_succ] using this
    | _ => simp [isClause] at h

/-- a complete node that is no directive and no function increments its counters -/
theorem own_perm_counters {n : Node} (data : ByteArray) (hoist : Option ℕ) (a : Address)
    (hd : n.isDirective = false) (hf : n.isFunction = false) (hclauses : ∀ c ∈ n.clauses, c.isClause = true)
    (hcomplete : n.isComplete = true) :
    (countersOf (n.localEdits data hoist a) ++ n.roles.flatMap (Role.counters a)).Perm (n.counters a) := by
  cases n with
  | directive => simp [isDirective] at hd
  | function => simp [isFunction] at hf
  | ifStatement span test consequent alternate =>
    have hroles : (ifStatement span test consequent alternate).roles.flatMap (Role.counters a) =
        .branch a 0 :: alternate.toList.map fun _ => .branch a 1 := by
      rw [roles, List.flatMap_append, flatMap_counters_plain]
      cases alternate <;> rfl
    rw [hroles]
    cases alternate with
    | none => exact .cons _ (.swap _ _ _)
    | some alternate => exact .refl _
  | switchStatement span discriminant cases =>
    rw [flatMap_counters_switch a span discriminant cases hclauses]
    simp [localEdits, isLogical, ownEdits, countersOf_countEdits, counters, alternatives, isFunction]
  | conditional span test consequent alternate =>
    obtain ⟨⟨c, rfl⟩, ⟨d, rfl⟩⟩ := by simpa [isComplete, Option.isSome_iff_exists] using hcomplete
    cases test <;> exact .refl _
  | logical span operator left right =>
    obtain ⟨⟨c, rfl⟩, ⟨d, rfl⟩⟩ := by simpa [isComplete, Option.isSome_iff_exists] using hcomplete
    exact .refl _
  | _ =>
    simp [localEdits, isLogical, ownEdits, countersOf_countEdits, counters, alternatives, isFunction, roles,
      flatMap_counters_plain, Role.counters, -List.map_const']

/-! ## Functions and their directives -/

theorem countersOf_directiveEdits (a : Address) (parts : List Node) (offset : ℕ) :
    countersOf (directiveEdits a parts offset) = prologueCounters a parts := by
  unfold directiveEdits prologueCounters
  generalize placedFrom a 0 parts = places
  induction places with
  | nil => rfl
  | cons p places ih =>
    obtain ⟨b, c⟩ := p
    cases c with
    | directive span value =>
      have hcounters : (directive span value).counters b =
          if (directive span value).isCounted then [.statement b] else [] := by
        simp [counters, alternatives, isFunction]
      rw [List.takeWhile_cons_of_pos (by rfl), List.flatMap_cons, ← ih, hcounters]
      by_cases hv : (directive span value).isCounted = true
      · rw [if_pos hv, List.filter_cons_of_pos (by exact hv)]
        rfl
      · rw [if_neg hv, List.filter_cons_of_neg (by exact hv)]
        rfl
    | _ => rfl

/-- parts that start with directives and have none behind them -/
theorem prologueCounters_eq (a : Address) (parts : List Node)
    (h : ∀ c ∈ parts.dropWhile isDirective, c.isDirective = false) :
    prologueCounters a parts = (placedFrom a 0 parts).flatMap directiveCounters := by
  unfold prologueCounters
  generalize 0 = i
  induction parts generalizing i with
  | nil => rfl
  | cons c parts ih =>
    cases hc : c.isDirective with
    | true =>
      rw [List.dropWhile_cons_of_pos hc] at h
      simp only [placedFrom, List.takeWhile_cons, hc, if_true, List.flatMap_cons, ih h, directiveCounters]
    | false =>
      rw [List.dropWhile_cons_of_neg (by simp [hc])] at h
      simp only [placedFrom, List.takeWhile_cons, hc, Bool.false_eq_true, if_false, List.flatMap_nil]
      rw [eq_comm, List.flatMap_eq_nil_iff]
      intro p hp
      exact if_neg (by simp [h p.2 (mem_of_mem_placedFrom hp)])

/-- a complete function increments its counter, and those of the directives of its block -/
theorem countersOf_function (data : ByteArray) (hoist : Option ℕ) (a : Address) (span : Span) (form : FunctionForm)
    (name : Option String) (parameters : List Node) (body : Node) :
    countersOf ((function span form name parameters (some body)).localEdits data hoist a) =
      .function a :: if body.isBlock then prologueCounters (a.child parameters.length) body.children else [] := by
  rw [localEdits, if_neg (by simp [isLogical]), ownEdits]
  cases body with
  | block span statements =>
    exact congrArg (_ :: ·) (countersOf_directiveEdits _ _ _)
  | _ => rfl

/-! ## A whole part -/

theorem count_flatMap_append {α β : Type} [DecidableEq β] (l : List α) (f g : α → List β) (b : β) :
    (l.flatMap fun x => f x ++ g x).count b = (l.flatMap f).count b + (l.flatMap g).count b := by
  rw [← (List.flatMap_append_perm l f g).count_eq, List.count_append]

theorem count_flatMap_congr {α β : Type} [DecidableEq β] {l : List α} {f g : α → List β} {b : β}
    (h : ∀ x ∈ l, (f x).count b = (g x).count b) : (l.flatMap f).count b = (l.flatMap g).count b := by
  rw [List.count_flatMap, List.count_flatMap]
  exact congrArg List.sum (List.map_congr_left h)

/-- what a node increments by itself, and what its parts increment -/
theorem count_edits_eq (data : ByteArray) (hoist : Option ℕ) (a : Address) (n : Node) (c : Counter Address) :
    (countersOf (n.edits data hoist a)).count c =
      (countersOf (n.localEdits data hoist a) ++ n.roles.flatMap (Role.counters a)).count c +
        ((n.placed a).flatMap fun p => countersOf (p.2.edits data (n.partHoist hoist p.2) p.1)).count c := by
  have hlength : (n.placed a).length ≤ n.roles.length := by rw [placed, length_placedFrom, length_roles]
  have hparts : countersOf (((n.placed a).zip n.roles).flatMap (n.partEdits data hoist a)) =
      ((n.placed a).zip n.roles).flatMap fun x => countersOf (roleEdits a x.2 x.1.2) ++
        countersOf (x.1.2.edits data (n.partHoist hoist x.1.2) x.1.1) := by
    rw [countersOf_flatMap]
    exact List.flatMap_congr fun x _ => countersOf_append _ _
  have hinside : (((n.placed a).zip n.roles).flatMap fun x =>
      countersOf (x.1.2.edits data (n.partHoist hoist x.1.2) x.1.1)) =
        (n.placed a).flatMap fun p => countersOf (p.2.edits data (n.partHoist hoist p.2) p.1) := by
    conv_rhs => rw [← List.map_fst_zip hlength, List.flatMap_map]
  rw [edits_eq, countersOf_append, hparts, List.count_append, count_flatMap_append, hinside, ← countersOf_flatMap,
    countersOf_flatMap_roleEdits, List.count_append]
  omega

theorem count_flatMap_add {α β : Type} [DecidableEq β] {l : List α} {f g h : α → List β} {b : β}
    (hadd : ∀ x ∈ l, (f x).count b + (g x).count b = (h x).count b) :
    (l.flatMap f).count b + (l.flatMap g).count b = (l.flatMap h).count b := by
  rw [← count_flatMap_append]
  exact count_flatMap_congr fun x hx => by rw [List.count_append, hadd x hx]

theorem directiveCounters_of_plain {ns : List Node} (h : ∀ n ∈ ns, n.isDirective = false) (a : Address) (i : ℕ) :
    (placedFrom a i ns).flatMap directiveCounters = [] := by
  refine List.flatMap_eq_nil_iff.2 fun p hp => if_neg ?_
  rw [h p.2 (mem_of_mem_placedFrom hp)]
  exact Bool.false_ne_true

theorem exists_of_isDirective {n : Node} (h : n.isDirective = true) : ∃ span value, n = directive span value := by
  cases n <;> first | exact ⟨_, _, rfl⟩ | cases h

/-- a part increments a counter as often as it has it, directives apart: a directive is counted where it begins something,
and a program or the block of a function is counted with the directives that it begins with -/
def Balanced (data : ByteArray) (c : Counter Address) (begins : Bool) (hoist : Option ℕ) (a : Address) (n : Node) : Prop :=
  (countersOf (n.edits data hoist a)).count c + (directiveCounters (a, n)).count c +
    (if begins then (prologueCounters a n.children).count c else 0) = (n.allCounters a).count c

theorem Balanced.of_other {begins : Bool} {n : Node} {data : ByteArray} {hoist : Option ℕ} {a : Address}
    {c : Counter Address} (hf : n.isFunction = false) (hplain : ∀ m ∈ n.behindPrologue begins, m.isDirective = false)
    (hclauses : ∀ m ∈ n.clauses, m.isClause = true) (hcomplete : n.isComplete = true)
    (hparts : ∀ p ∈ n.placed a, Balanced data c false (n.partHoist hoist p.2) p.1 p.2) :
    Balanced data c begins hoist a n := by
  unfold Balanced at *
  by_cases hd : n.isDirective = true
  · obtain ⟨span, value, rfl⟩ := exists_of_isDirective hd
    rw [edits_eq, allCounters_eq]
    simp [localEdits, isLogical, ownEdits, countersOf, placed, children, placedFrom, prologueCounters,
      directiveCounters, isDirective]
  have hself : directiveCounters (a, n) = [] := if_neg hd
  have hown := (own_perm_counters data hoist a (by simpa using hd) hf hclauses hcomplete).count_eq c
  have hdirectives : ((n.placed a).flatMap directiveCounters).count c =
      if begins then (prologueCounters a n.children).count c else 0 := by
    cases begins with
    | false =>
      have hnone : (n.placed a).flatMap directiveCounters = [] := directiveCounters_of_plain hplain a 0
      rw [hnone]
      rfl
    | true => rw [if_pos rfl, prologueCounters_eq a n.children hplain, placed]
  have hinside : ((n.placed a).flatMap fun p => countersOf (p.2.edits data (n.partHoist hoist p.2) p.1)).count c +
      ((n.placed a).flatMap directiveCounters).count c =
        ((n.placed a).flatMap fun p => p.2.allCounters p.1).count c :=
    count_flatMap_add fun p hp => by simpa using hparts p hp
  rw [count_edits_eq, hown, allCounters_eq, List.count_append, ← hinside, hdirectives, hself, List.count_nil]
  omega

theorem Balanced.of_function {begins : Bool} {data : ByteArray} {hoist : Option ℕ} {a : Address} {c : Counter Address}
    {span : Span} {form : FunctionForm} {name : Option String} {parameters : List Node} {body : Node}
    (hparametersPlain : ∀ p ∈ parameters, p.isDirective = false) (hbodyPlain : body.isDirective = false)
    (hparameters : ∀ p ∈ placedFrom a 0 parameters, Balanced data c false none p.1 p.2)
    (hbody : Balanced data c body.isBlock none (a.child parameters.length) body) :
    Balanced data c begins hoist a (.function span form name parameters (some body)) := by
  unfold Balanced at *
  have hplain : ∀ m ∈ (function span form name parameters (some body)).children, m.isDirective = false := by
    simpa [children, or_imp, forall_and] using ⟨hparametersPlain, hbodyPlain⟩
  have hprologue : prologueCounters a (function span form name parameters (some body)).children = [] := by
    rw [prologueCounters_eq _ _ fun m hm => hplain m (List.dropWhile_subset _ hm), directiveCounters_of_plain hplain]
  have hinside : ((placedFrom a 0 parameters).flatMap fun p => countersOf (p.2.edits data none p.1)).count c =
      ((placedFrom a 0 parameters).flatMap fun p => p.2.allCounters p.1).count c := by
    refine count_flatMap_congr fun p hp => ?_
    have hself : directiveCounters p = [] := if_neg (by simp [hparametersPlain p.2 (mem_of_mem_placedFrom hp)])
    simpa [hself] using hparameters p hp
  have hself : directiveCounters (a.child parameters.length, body) = [] := if_neg (by simp [hbodyPlain])
  have hcounters : (function span form name parameters (some body)).counters a = [.function a] := by
    simp [counters, isCounted, isStatement, alternatives, isFunction]
  have hfunction : directiveCounters (a, function span form name parameters (some body)) = [] := rfl
  rw [hself] at hbody
  rw [hfunction, count_edits_eq, countersOf_function, allCounters_eq, hcounters, hprologue, placed_function]
  simp only [List.flatMap_append, List.flatMap_cons, List.flatMap_nil, List.count_append, partHoist, roles,
    flatMap_counters_plain, List.count_cons, List.count_nil, hinside, ← hbody]
  cases body.isBlock <;> simp only [Bool.false_eq_true, if_true, if_false, ite_self, List.count_nil] <;> omega

/-- **Every counter of a part is incremented once.** -/
theorem balanced_of_wellPlaced {begins : Bool} {n : Node} (hw : WellPlaced begins n) (data : ByteArray)
    (hoist : Option ℕ) (a : Address) (hcomplete : ∀ p ∈ n.preorder a, p.2.isComplete = true) (c : Counter Address) :
    Balanced data c begins hoist a n := by
  induction hw generalizing hoist a with
  | other notFunction plain clauses placed ih =>
    refine .of_other notFunction plain clauses (hcomplete _ (self_mem_preorder a _)) fun p hp => ?_
    exact ih p.2 (mem_of_mem_placedFrom hp) _ p.1 fun q hq => hcomplete q (mem_preorder_of_mem_placed hp hq)
  | @function begins span form name parameters body parametersPlain parametersPlaced bodyPlain bodyPlaced ihp ihb =>
    cases body with
    | none => exact absurd (hcomplete _ (self_mem_preorder a _)) (by simp [isComplete])
    | some body =>
      have hplaced := placed_function a span form name parameters body
      have hmem : (a.child parameters.length, body) ∈
          (function span form name parameters (some body)).placed a := by simp [hplaced]
      refine .of_function parametersPlain (bodyPlain body rfl) (fun p hp => ?_) ?_
      · exact ihp p.2 (mem_of_mem_placedFrom hp) none p.1
          fun q hq => hcomplete q (mem_preorder_of_mem_placed (by simp [hplaced, hp]) hq)
      · exact ihb body rfl none _ fun q hq => hcomplete q (mem_preorder_of_mem_placed hmem hq)

/-! ## Which counters a part has -/

theorem mem_allCounters_iff {a : Address} {n : Node} {c : Counter Address} :
    c ∈ n.allCounters a ↔ ∃ p ∈ n.preorder a, c ∈ p.2.counters p.1 := List.mem_flatMap

theorem ref_of_mem_counters {a : Address} {n : Node} {c : Counter Address} (h : c ∈ n.counters a) : c.ref = a := by
  simp only [counters, List.mem_append, List.mem_map, List.mem_ite_nil_right, List.mem_singleton] at h
  rcases h with (⟨-, rfl⟩ | ⟨i, -, rfl⟩) | ⟨-, rfl⟩ <;> rfl

theorem statement_mem_counters_iff {a b : Address} {n : Node} :
    .statement b ∈ n.counters a ↔ b = a ∧ n.isCounted = true := by
  simp [counters, and_comm]

theorem function_mem_counters_iff {a b : Address} {n : Node} :
    .function b ∈ n.counters a ↔ b = a ∧ n.isFunction = true := by
  simp [counters, and_comm]

theorem branch_mem_counters_iff {a b : Address} {n : Node} {slot : ℕ} :
    .branch b slot ∈ n.counters a ↔ b = a ∧ slot < n.alternatives.length := by
  constructor
  · intro h
    obtain rfl : b = a := ref_of_mem_counters h
    exact ⟨rfl, by simpa [counters] using h⟩
  · rintro ⟨rfl, hslot⟩
    simpa [counters] using hslot

theorem nodup_counters (a : Address) (n : Node) : (n.counters a).Nodup := by
  have hbranch : ((List.range n.alternatives.length).map (Counter.branch a)).Nodup :=
    List.nodup_range.map fun i j hij => by injection hij
  unfold counters
  split_ifs <;> simp [List.nodup_append, hbranch]

/-- no counter is listed twice -/
theorem nodup_allCounters (a : Address) (n : Node) : (n.allCounters a).Nodup := by
  refine List.nodup_flatMap.2 ⟨fun p _ => nodup_counters _ _, ?_⟩
  refine (List.pairwise_map.1 (nodup_preorder a n)).imp fun {p q} hpq => ?_
  intro c hp hq
  exact hpq ((ref_of_mem_counters hp).symm.trans (ref_of_mem_counters hq))

end Node

/-! ## A whole program -/

/-- **The insertions for a program increment each of its counters once, and nothing else.** -/
theorem programEdits_perm_allCounters (style : EmitStyle) (src : SourceText) {program : Node} (map : CoverageMap)
    (key : String) (hbody : program.children = program.programBody) (hw : WellPlaced true program)
    (hcomplete : ∀ p ∈ program.preorder .root, p.2.isComplete = true) (hd : program.isDirective = false) :
    (countersOf (programEdits style src program map key)).Perm (program.allCounters .root) := by
  refine List.perm_iff_count.2 fun c => ?_
  have hbalanced := Node.balanced_of_wellPlaced hw src.data none .root hcomplete c
  have hself : Node.directiveCounters (.root, program) = [] := if_neg (by simp [hd])
  rw [Node.Balanced, hself, if_pos rfl, hbody] at hbalanced
  have hinsertions : countersOf (programEdits style src program map key) =
      Node.prologueCounters .root program.programBody ++ countersOf (program.edits src.data none .root) := by
    rw [← Node.countersOf_directiveEdits _ _ (Node.afterDirectives src.data program.programBody 0).1,
      ← countersOf_append]
    rfl
  rw [hinsertions, List.count_append]
  simp only [List.count_nil] at hbalanced
  omega

end Turnstile
