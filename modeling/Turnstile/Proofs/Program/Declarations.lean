/-
Ill-formed declarations.

A constant needs a value, and `let` is no lexically bound name. Lowering keeps a declaration only where it is a statement; in
the head of a loop, behind `export` and in the name of a method nothing is left of it but the expressions inside.
- `isIllFormed`, `Node.isIllFormed`: ill-formed declarations of concrete trees and of typed programs;
- `kept_illFormedDeclarations`, `illFormed_of_program`: the ill-formed declarations of a typed program are those of its
  concrete tree that are statements, outside of the names and decorators of methods;
- `earlyError_of_illFormed`, `illFormed_of_earlyError`: the check finds ill-formed declarations, and no others at fault;
- `illFormed_statements_refused`: so a text is refused for its ill-formed declarations exactly as far as they are statements.
-/
import Turnstile.Program.Parsed
import Turnstile.Proofs.Program.IntactTrees
import Turnstile.Proofs.Program.JumpTargets
import Turnstile.Proofs.Program.StatementSites

namespace Turnstile

/-! ## Ill-formed declarations -/

namespace Lowering

/-- the keyword of a lexical declaration, as the text has it -/
def keyword? (src : SourceText) (t : Tree) : Option String :=
  match t.child? "kind" with
  | some c => src.slice? c.start c.stop
  | none => some "let"

/-- a declarator of the name `let` -/
def namesLet (src : SourceText) (d : Tree) : Bool :=
  (d.child? "name").any fun c => c.kind = "identifier" && src.slice? c.start c.stop = some "let"

/-- declarators that declare `let`, or a constant without a value -/
def isIllFormedAs (src : SourceText) (keyword : String) (ds : List Tree) : Bool :=
  (keyword = "let" || keyword = "const") && ds.any (namesLet src)
    || keyword = "const" && ds.any fun d => (d.child? "value").isNone

/-- a declaration other than of `var` that declares `let`, or a constant without a value -/
def isIllFormed (src : SourceText) (t : Tree) : Bool :=
  t.isPart && (t.kind = "lexical_declaration" || t.kind = "using_declaration")
    && (keyword? src t).any fun keyword => isIllFormedAs src keyword (declaratorsOf t)

end Lowering

/-- a declaration that declares `let`, or a constant without a value -/
def Node.isIllFormed : Node → Bool
  | variableDeclaration _ keyword _ declarators =>
    (keyword = "let" || keyword = "const") && declarators.any (fun d => d.name = some "let")
      || keyword = "const" && declarators.any fun d => !d.initialized
  | _ => false

namespace Lowering

/-- the ill-formed declarations that are statements -/
def illFormedDeclarations (src : SourceText) : Marking :=
  ⟨fun k t => if k = .statement ∧ isIllFormed src t = true then {(spanOf src t).location} else 0,
    fun n => if n.isIllFormed then {n.span.location} else 0⟩

variable {src : SourceText} {t d : Tree} {n : Node} {k : Tree.Category}

/-! ## What lowering keeps of a declaration -/

theorem isIllFormed_eq_false (h : t.kind ≠ "lexical_declaration" ∧ t.kind ≠ "using_declaration") :
    isIllFormed src t = false := by
  simp [isIllFormed, h]

theorem ofTree_eq_zero (h : isIllFormed src t = false) : (illFormedDeclarations src).ofTree k t = 0 :=
  if_neg fun hill => by simp [h] at hill

theorem ofTree_of_ne (hk : k ≠ .statement) (t : Tree) : (illFormedDeclarations src).ofTree k t = 0 :=
  if_neg fun hill => hk hill.1

theorem ofNode_eq_zero (h : n.isVariableDeclaration = false) : (illFormedDeclarations src).ofNode n = 0 := by
  refine if_neg ?_
  cases n <;> simp_all [Node.isIllFormed, Node.isVariableDeclaration]

/-- a declarator is read with its name and with whether it has a value -/
theorem of_declarator {e : Declarator} (h : declarator src d = .ok e) :
    e.initialized = (d.child? "value").isSome ∧ decide (e.name = some "let") = namesLet src d := by
  unfold declarator at h
  unfold namesLet
  split at h
  · next c hc =>
    rw [hc, Option.any_some]
    split at h
    · next hkind =>
      obtain ⟨name, hname, h⟩ := bind_eq_ok_iff.1 h
      cases h
      obtain ⟨text, htext, rfl⟩ := map_eq_ok_iff.1 hname
      unfold textOf at htext
      split at htext
      · next s hs =>
        cases htext
        simp [hkind, hs]
      · cases htext
    · next hkind =>
      cases h
      simp [hkind]
  · next hc =>
    cases h
    simp [hc]

theorem any_of_declarators {ds : List Tree} {es : List Declarator} (h : ds.mapM (declarator src) = .ok es)
    {p : Declarator → Bool} {q : Tree → Bool} (hpq : ∀ d e, declarator src d = .ok e → p e = q d) : es.any p = ds.any q := by
  have hread := forall₂_of_mapM h
  clear h
  induction hread with
  | nil => rfl
  | cons hde _ ih => rw [List.any_cons, List.any_cons, hpq _ _ hde, ih]

/-- the keyword of a declaration that is not `var` -/
theorem keyword?_of_declarationKeyword {keyword : String} (hvar : t.kind ≠ "variable_declaration")
    (h : Reading.declarationKeyword src t = .ok keyword) : keyword? src t = some keyword := by
  rw [Reading.declarationKeyword, if_neg hvar] at h
  obtain ⟨o, ho, rfl⟩ := map_eq_ok_iff.1 h
  unfold keyword?
  cases hc : t.child? "kind" with
  | none =>
    rw [hc] at ho
    cases ho
    rfl
  | some c =>
    rw [hc] at ho
    obtain ⟨text, htext, rfl⟩ := map_eq_ok_iff.1 ho
    unfold textOf at htext
    split at htext
    · next s hs =>
      cases htext
      exact hs
    · cases htext

/-- what is read of a declaration is as ill-formed as the declaration -/
theorem isIllFormed_of_declaration {keyword : String} {declarators : List Declarator} (hpart : t.isPart = true)
    (hdeclaration : isDeclaration t = true) (hkeyword : Reading.declarationKeyword src t = .ok keyword)
    (hdeclarators : (declaratorsOf t).mapM (declarator src) = .ok declarators) (span : Span) (initializers : List Node) :
    (Node.variableDeclaration span keyword initializers declarators).isIllFormed = isIllFormed src t := by
  have hnames : (declarators.any fun d => d.name = some "let") = (declaratorsOf t).any (namesLet src) :=
    any_of_declarators hdeclarators fun d e h => (of_declarator h).2
  have hvalues : (declarators.any fun d => !d.initialized) = (declaratorsOf t).any fun d => (d.child? "value").isNone :=
    any_of_declarators hdeclarators fun d e h => by rw [(of_declarator h).1, Option.not_isSome]
  by_cases hvar : t.kind = "variable_declaration"
  · rw [isIllFormed_eq_false (by simp [hvar])]
    rw [Reading.declarationKeyword, if_pos hvar] at hkeyword
    cases hkeyword
    rfl
  · have hlexical : t.kind = "lexical_declaration" ∨ t.kind = "using_declaration" := by
      simpa [isDeclaration, hvar] using hdeclaration
    rw [Node.isIllFormed, hnames, hvalues, isIllFormed, keyword?_of_declarationKeyword hvar hkeyword, Option.any_some,
      isIllFormedAs, hpart]
    simp [hlexical]

/-- **Lowering keeps the ill-formed declarations that are statements.** -/
theorem kept_illFormedDeclarations (src : SourceText) : (illFormedDeclarations src).Kept src where
  notPart h := ofTree_eq_zero (by simp [isIllFormed, h])
  plain h := ofTree_eq_zero (isIllFormed_eq_false ⟨fun hkind => h (by simp [markedKinds, hkind]),
    fun hkind => h (by simp [markedKinds, hkind])⟩)
  plainNode _ _ h := ofNode_eq_zero h
  composite _ _ := ofTree_of_ne (by decide) _
  loopPart := (ofTree_of_ne (by decide) _).trans (ofTree_of_ne (by decide) _).symm
  branch {k t n} ht _ hbranch _ := by
    have hkind : t.kind ≠ "lexical_declaration" ∧ t.kind ≠ "using_declaration" := by
      constructor <;> intro hkind <;> simp [isBranchSite, isShortCircuitNode, hkind] at ht
    have hdeclaration : n.isVariableDeclaration = false := by
      cases n <;> simp_all [Node.isBranch, Node.isVariableDeclaration]
    rw [ofNode_eq_zero hdeclaration, ofTree_eq_zero (isIllFormed_eq_false hkind)]
  function {k t form n} _ hform _ _ hfunction := by
    have hkind : t.kind ≠ "lexical_declaration" ∧ t.kind ≠ "using_declaration" := by
      constructor <;> intro hkind <;> simp [functionForm?, hkind] at hform
    have hdeclaration : n.isVariableDeclaration = false := by
      cases n <;> simp_all [Node.isFunction, Node.isVariableDeclaration]
    rw [ofNode_eq_zero hdeclaration, ofTree_eq_zero (isIllFormed_eq_false hkind)]
  declaration hpart hdeclaration hkeyword hdeclarators := by
    have hill := isIllFormed_of_declaration hpart hdeclaration hkeyword hdeclarators
    simp only [illFormedDeclarations, hill, true_and]
    rfl

/-! ## The declarations of a program -/

/-- the ill-formed declarations of a tree that stand as statements, outside of the names and decorators of methods -/
def illFormedStatements (src : SourceText) (root : Tree) : List Tree :=
  ((root.places .program).filter fun p => p.1 = .statement && isIllFormed src p.2).map Prod.snd

theorem mem_illFormedStatements {root : Tree} :
    d ∈ illFormedStatements src root ↔ (.statement, d) ∈ root.places .program ∧ isIllFormed src d = true := by
  simp [illFormedStatements]

/-- **The ill-formed declarations of a program** are those of its tree that stand as statements, each once and at its
place. -/
theorem illFormed_of_program {depth : ℕ} {root : Tree} {program : Node} (hfits : root.fits .program = true)
    (hprogram : Lowering.program depth src root = .ok program) :
    (((program.preorder .root).filter fun p => p.2.isIllFormed).map fun p => p.2.span.location).Perm
      ((illFormedStatements src root).map fun d => (spanOf src d).location) := by
  have hnodes : program.sites (illFormedDeclarations src) =
      ↑(((program.preorder .root).filter fun p => p.2.isIllFormed).map fun p => p.2.span.location) :=
    sum_ite_singleton (fun p : Address × Node => p.2.isIllFormed) (fun p => p.2.span.location) _
  have htrees : sites (illFormedDeclarations src) .program root =
      ↑((illFormedStatements src root).map fun d => (spanOf src d).location) := by
    rw [illFormedStatements, List.map_map]
    refine Eq.trans (congrArg List.sum (List.map_congr_left fun p _ => ?_)) (sum_ite_singleton
      (fun p : Tree.Category × Tree => p.1 = .statement && isIllFormed src p.2) (fun p => (spanOf src p.2).location) _)
    simp [illFormedDeclarations]
  rw [← Multiset.coe_eq_coe, ← hnodes, ← htrees]
  exact sites_of_program (kept_illFormedDeclarations src) hfits hprogram

theorem exists_illFormed_node {depth : ℕ} {root : Tree} {program : Node} (hfits : root.fits .program = true)
    (hprogram : Lowering.program depth src root = .ok program) (hd : d ∈ illFormedStatements src root) :
    ∃ p ∈ program.preorder .root, p.2.isIllFormed = true := by
  have hmem := (illFormed_of_program hfits hprogram).mem_iff.2 (List.mem_map_of_mem hd)
  obtain ⟨p, hp, -⟩ := List.mem_map.1 hmem
  exact ⟨p, List.mem_filter.1 hp⟩

theorem exists_illFormed_statement {depth : ℕ} {root : Tree} {program : Node} (hfits : root.fits .program = true)
    (hprogram : Lowering.program depth src root = .ok program) {p : Address × Node} (hp : p ∈ program.preorder .root)
    (h : p.2.isIllFormed = true) : ∃ d ∈ illFormedStatements src root, (spanOf src d).location = p.2.span.location :=
  List.mem_map.1 ((illFormed_of_program hfits hprogram).mem_iff.1 (List.mem_map_of_mem (List.mem_filter.2 ⟨hp, h⟩)))

end Lowering

/-! ## The check finds them -/

/-- what the check says of declarations -/
def EarlyErrorCause.isOfDeclaration : EarlyErrorCause → Bool
  | letAsName | constWithoutValue => true
  | _ => false

section Check

open EarlyError

variable {s : EarlyError.Scope} {program n : Node} {cause : EarlyErrorCause} {e : EarlyError}

/-- whatever is around a declaration, something is wrong with it exactly if it is ill-formed -/
theorem isIllFormed_iff (s : EarlyError.Scope) (n : Node) :
    n.isIllFormed = true ↔ n.isVariableDeclaration = true ∧ (causeAt? s n).isSome = true := by
  cases n with
  | variableDeclaration span keyword initializers declarators =>
    rw [causeAt?, Node.isIllFormed]
    split_ifs with hkeyword
    · rw [findSome?_declaratorCause?_isSome_iff]
      simp [Node.isVariableDeclaration, hkeyword]
    · simp only [Bool.or_eq_true, decide_eq_true_eq, not_or] at hkeyword
      simp [hkeyword]
  | _ => simp [Node.isIllFormed, Node.isVariableDeclaration]

theorem isOfDeclaration_of_declaratorCause? {keyword : String} {d : Declarator}
    (h : declaratorCause? keyword d = some cause) : cause.isOfDeclaration = true := by
  unfold declaratorCause? at h
  split_ifs at h <;> cases h <;> rfl

theorem isOfDeclaration_of_causeAt? (h : causeAt? s n = some cause) : cause.isOfDeclaration = n.isVariableDeclaration := by
  cases n with
  | variableDeclaration span keyword initializers declarators =>
    rw [causeAt?] at h
    split_ifs at h
    obtain ⟨d, -, hd⟩ := List.exists_of_findSome?_eq_some h
    exact isOfDeclaration_of_declaratorCause? hd
  | labeled | breakStatement | continueStatement =>
    unfold causeAt? at h
    grind [EarlyErrorCause.isOfDeclaration, Node.isVariableDeclaration]
  | _ => cases h

/-- the faults that a walk meets are faults of the nodes that it goes to -/
theorem exists_of_mem_faults (a : Address) (h : e ∈ faults s n) :
    ∃ s', ∃ p ∈ n.preorder a, causeAt? s' p.2 = some e.cause ∧ p.2.span.location = e.location := by
  induction n using Node.inductionOn generalizing s a with
  | step n ih =>
    rw [faults_eq] at h
    rcases List.mem_append.1 h with h | h
    · obtain ⟨cause, hcause, rfl⟩ := Option.map_eq_some_iff.1 (Option.mem_toList.1 h)
      exact ⟨s, (a, n), Node.self_mem_preorder a n, hcause, rfl⟩
    · obtain ⟨c, hc, h⟩ := List.mem_flatMap.1 h
      obtain ⟨q, hq, rfl⟩ := Node.exists_mem_placed a hc
      obtain ⟨s', p, hp, hfault⟩ := ih q.2 hc q.1 h
      exact ⟨s', p, Node.mem_preorder_of_mem_placed hq hp, hfault⟩

theorem faults_ne_nil {a : Address} {p : Address × Node} (hp : p ∈ n.preorder a) (h : p.2.isIllFormed = true) :
    faults s n ≠ [] := by
  induction n using Node.inductionOn generalizing s a with
  | step n ih =>
    rw [Node.preorder_eq] at hp
    rw [faults_eq]
    rcases List.mem_cons.1 hp with rfl | hp
    · obtain ⟨cause, hcause⟩ := Option.isSome_iff_exists.1 ((isIllFormed_iff s n).1 h).2
      simp [hcause]
    · obtain ⟨q, hq, hp⟩ := List.mem_flatMap.1 hp
      have hchild := Node.mem_of_mem_placedFrom hq
      exact List.append_ne_nil_of_right_ne_nil _ fun hnil => ih q.2 hchild hp (List.flatMap_eq_nil_iff.1 hnil q.2 hchild)

/-- **No program with an ill-formed declaration passes the check.** -/
theorem earlyError_of_illFormed {p : Address × Node} (hp : p ∈ program.preorder .root) (h : p.2.isIllFormed = true) :
    ∃ e, program.earlyError = .error e := by
  rw [Node.earlyError, check_eq_failFirst]
  cases hfaults : faults EarlyError.Scope.top program with
  | nil => exact absurd hfaults (faults_ne_nil hp h)
  | cons e es => exact ⟨e, rfl⟩

/-- what the check says of a declaration is said of an ill-formed one -/
theorem illFormed_of_earlyError (h : program.earlyError = .error e) (hcause : e.cause.isOfDeclaration = true) :
    ∃ p ∈ program.preorder .root, p.2.isIllFormed = true ∧ p.2.span.location = e.location := by
  rw [Node.earlyError, check_eq_failFirst, failFirst_eq_error_iff] at h
  obtain ⟨s, p, hp, hfault, hlocation⟩ := exists_of_mem_faults .root (List.mem_of_head? h)
  have hdeclaration := isOfDeclaration_of_causeAt? hfault
  exact ⟨p, hp, (isIllFormed_iff s p.2).2 ⟨hdeclaration ▸ hcause, by rw [hfault]; rfl⟩, hlocation⟩

end Check

/-! ## Texts with ill-formed declarations -/

open Lowering

/-- **Ill-formed declarations are refused where they are statements, and nowhere else.** In a text whose tree is one of the
grammar and has no errors, an ill-formed declaration that is a statement, outside of the names and decorators of methods, is
an error in the source; and what is said of a declaration is said of one that stands there. -/
theorem illFormed_statements_refused {read : TreeReader} {src : SourceText} {file : Option String} {root : Tree}
    (hread : read src = .ok root) (herror : root.hasError = false) (hfits : root.fits .program = true)
    (hintact : Intact src root) :
    (∀ d, (.statement, d) ∈ root.places .program → isIllFormed src d = true →
      ∃ e, parseUnit read src file = .error (.source e)) ∧
    ∀ e cause, parseUnit read src file = .error (.source e) → e.cause = .early cause → cause.isOfDeclaration = true →
      ∃ d, (.statement, d) ∈ root.places .program ∧ isIllFormed src d = true ∧
        e.place = .position (spanOf src d).location.startLine (spanOf src d).location.startColumn := by
  cases hprogram : Lowering.program read.depth src root with
  | error fault =>
    obtain rfl := program_onlyTooDeep read.depth hintact fault hprogram
    have hparse : parseUnit read src file = .error (.source ⟨.tooDeep, .unknown, file⟩) := by
      simp [parseUnit, hread, herror, hprogram, LoweringFault.failure]
    refine ⟨fun d _ _ => ⟨_, hparse⟩, fun e cause he hcause => ?_⟩
    obtain rfl := Failure.source.inj (Except.error.inj (hparse.symm.trans he))
    cases hcause
  | ok program =>
    cases hearly : program.earlyError with
    | ok _ =>
      have hparse : parseUnit read src file = .ok program := by
        simp [parseUnit, hread, herror, hprogram, hearly]
      -- the check passes, but an ill-formed statement is in the typed program and would be found there
      refine ⟨fun d hd hill => ?_, fun e cause he => ?_⟩
      · obtain ⟨p, hp, hnode⟩ := exists_illFormed_node hfits hprogram (mem_illFormedStatements.2 ⟨hd, hill⟩)
        obtain ⟨e, he⟩ := earlyError_of_illFormed hp hnode
        rw [hearly] at he
        cases he
      · rw [hparse] at he
        cases he
    | error early =>
      have hparse : parseUnit read src file = .error (early.failure file) := by
        simp [parseUnit, hread, herror, hprogram, hearly]
      refine ⟨fun d _ _ => ⟨_, hparse⟩, fun e cause he hcause hof => ?_⟩
      obtain rfl := Failure.source.inj (Except.error.inj (hparse.symm.trans he))
      obtain rfl := ParseCause.early.inj hcause
      obtain ⟨p, hp, hnode, hlocation⟩ := illFormed_of_earlyError hearly hof
      obtain ⟨d, hd, hplace⟩ := exists_illFormed_statement hfits hprogram hp hnode
      obtain ⟨hd, hill⟩ := mem_illFormedStatements.1 hd
      exact ⟨d, hd, hill, by rw [hplace, hlocation]⟩

/-! ### A constant without a value -/

/-- `const x;` -/
def bareConstant : Tree :=
  .node "lexical_declaration" 0 8 [(Tree.token "const" 0 5).inField "kind",
    .node "variable_declarator" 6 7 [(Tree.leaf "identifier" 6 7).inField "name"], .token ";" 7 8]

def bareConstantTree : Tree := .node "program" 0 8 [bareConstant]

/-- reads one tree, whatever the text is -/
def onlyReader (root : Tree) : TreeReader := ⟨fun _ => .ok root, usualDepth⟩

theorem bareConstant_refused : bareConstantTree.hasError = false ∧ bareConstantTree.fits .program = true ∧
    Intact (.ofString "const x;") bareConstantTree ∧ (.statement, bareConstant) ∈ bareConstantTree.places .program ∧
    isIllFormed (.ofString "const x;") bareConstant = true ∧
    ∃ e, parseUnit (onlyReader bareConstantTree) (.ofString "const x;") none = .error (.source e) := by
  have hfits : bareConstantTree.fits .program = true := by decide +kernel
  have hintact : Intact (.ofString "const x;") bareConstantTree := by decide +kernel
  have hill : isIllFormed (.ofString "const x;") bareConstant = true := by decide +kernel
  have hplace : (.statement, bareConstant) ∈ bareConstantTree.places .program :=
    Tree.mem_places_of_child List.mem_cons_self (by decide +kernel)
  have hread : (onlyReader bareConstantTree) (.ofString "const x;") = .ok bareConstantTree := rfl
  exact ⟨rfl, hfits, hintact, hplace, hill,
    (illFormed_statements_refused hread rfl hfits hintact).1 bareConstant hplace hill⟩

/-- `for (const x; ;) y;` -/
def loopConstantTree : Tree :=
  .node "program" 0 19 [.node "for_statement" 0 19 [.token "for" 0 3, .token "(" 4 5,
    (Tree.node "lexical_declaration" 5 13 [(Tree.token "const" 5 10).inField "kind",
      .node "variable_declarator" 11 12 [(Tree.leaf "identifier" 11 12).inField "name"],
      .token ";" 12 13]).inField "initializer",
    (Tree.token ";" 14 15).inField "condition", .token ")" 15 16,
    (Tree.node "expression_statement" 17 19 [.leaf "identifier" 17 18, .token ";" 18 19]).inField "body"]]

/-- the same declaration in the head of a loop: the text has a program -/
theorem loopConstant_not_refused : loopConstantTree.hasError = false ∧ loopConstantTree.fits .program = true ∧
    Intact (.ofString "for (const x; ;) y;") loopConstantTree ∧
    (∃ d ∈ loopConstantTree.nodes, d.kind = "lexical_declaration" ∧
      isIllFormed (.ofString "for (const x; ;) y;") d = true) ∧
    ∃ program, parseUnit (onlyReader loopConstantTree) (.ofString "for (const x; ;) y;") none = .ok program := by
  have hparse : (parseUnit (onlyReader loopConstantTree) (.ofString "for (const x; ;) y;") none).toOption.isSome = true := by
    decide +kernel
  obtain ⟨program, hprogram⟩ := Option.isSome_iff_exists.1 hparse
  exact ⟨rfl, by decide +kernel, by decide +kernel, by decide +kernel, program, ok_of_toOption hprogram⟩

end Turnstile
