/-
What it changes that units are not wrapped.

Units may be taken as bodies of functions or as scripts. As scripts they must not have a return outside every function, and
nothing else depends on it.
- `SourceUnit.made`: what a unit yields, returns left alone;
- `Phase.bind_congr`, `result_phases`: the phases of a unit, their results in one chain;
- `wrapping_decides_acceptance`: two runs that differ in this option only.
-/
import Turnstile.Proofs.Emit.Product
import Turnstile.Proofs.Program.Operands

namespace Turnstile

/-! ## Chains of phases -/

namespace Phase

variable {α β : Type}

/-- what follows a phase matters only on what the phase gives -/
theorem bind_congr {p : Phase α} {next next' : α → Phase β} (h : ∀ a, p.result = .ok a → next a = next' a) :
    p >>= next = p >>= next' := by
  change p.andThen next = p.andThen next'
  rw [andThen, andThen]
  cases hp : p.result with
  | error e => rfl
  | ok a => simp only [h a hp]

end Phase

/-! ## What a unit yields -/

/-- the program of a unit -/
def SourceUnit.parsed (u : SourceUnit) (read : TreeReader) : Except Failure Node :=
  parseUnit read (.ofString u.code) (some u.key)

/-- what a program yields -/
def SourceUnit.productOf (u : SourceUnit) (o : Options) (program : Node) : Except Failure Product := do
  let index ← (CoverageIndex.ofProgram program).mapError IndexFault.failure
  let generated ← (generate? o.style (.ofString u.code) program index u.key).mapError GenerateFault.failure
  return ⟨generated.text, index.map, Trace.initial index.map (o.style.code (.ofString u.code))⟩

/-- what a unit yields, returns left alone -/
def SourceUnit.made (u : SourceUnit) (read : TreeReader) (o : Options) : Except Failure Product := do
  u.productOf o (← u.parsed read)

theorem result_parsePhase (read : TreeReader) (src : SourceText) (key : String) :
    (parsePhase read src key).result = parseUnit read src (some key) := by
  rw [parsePhase]
  split <;> next h => rw [h]

theorem result_indexPhase (walkDebug : Bool) (program : Node) : (indexPhase walkDebug program).result =
    (CoverageIndex.ofProgram program).mapError IndexFault.failure := rfl

theorem result_generatePhase (style : EmitStyle) (src : SourceText) (program : Node) (index : CoverageIndex) (key : String) :
    (generatePhase style src program index key).result =
      Generated.text <$> (generate? style src program index key).mapError GenerateFault.failure := by
  rw [generatePhase]
  split <;> next h => rw [h]; rfl

variable {read : TreeReader} {o : Options} {u : SourceUnit} {program : Node}

/-- **The result of a unit**: its program, the check, and what the program yields. -/
theorem result_phases : (u.phases read o).result = (do
    let program ← u.parsed read
    checkWrapping o.noAutoWrap program u.key
    u.productOf o program) := by
  simp only [SourceUnit.phases, textPhases, Phase.result_bind_eq, Phase.result_inScope, result_parsePhase,
    result_indexPhase, result_generatePhase, Phase.result_pure, Phase.result_ofResult, Phase.result_ofSteps, bind_assoc,
    pure_bind, bind_map_left, SourceUnit.parsed, SourceUnit.productOf]

/-! ## Two runs -/

/-- what is refused of a script: a return outside every function -/
def SourceUnit.illegalReturn (u : SourceUnit) (n : Node) : Failure :=
  .source ⟨.illegalReturn, .position n.span.location.startLine n.span.location.startColumn, some u.key⟩

/-- a script is refused for its first return outside functions -/
theorem checkWrapping_script (h : program.Whole) : checkWrapping true program u.key =
    match (program.occurrences []).find? Occurrence.isMainlineReturn with
    | some r => .error (u.illegalReturn r.node)
    | none => .ok () := by
  rw [checkWrapping, if_pos rfl, Node.mainlineReturn_eq_find? h]
  cases (program.occurrences []).find? Occurrence.isMainlineReturn <;> rfl

/-- a check that passes leaves no trace -/
theorem phases_script_eq (h : ∀ program, u.parsed read = .ok program → checkWrapping true program u.key = .ok ()) :
    u.phases read { o with noAutoWrap := true } = u.phases read { o with noAutoWrap := false } := by
  have htext : textPhases read { o with noAutoWrap := true } (.ofString u.code) u.key =
      textPhases read { o with noAutoWrap := false } (.ofString u.code) u.key := by
    refine congrArg (Phase.inScope o.debug u.key) (Phase.bind_congr fun program hprogram => ?_)
    rw [Phase.result_inScope, result_parsePhase] at hprogram
    rw [h program hprogram]
    rfl
  rw [SourceUnit.phases, htext]
  rfl

/-- **Wrapping only decides whether a unit is accepted.** A unit that is wrapped yields what it yields with all returns left
alone. A unit that does not parse, or whose program has no return outside every function, is treated alike as a script: same
text, map and trace, or same failure, and the same on the console. Any other script is refused, for its first such return in
pre-order. -/
theorem wrapping_decides_acceptance (hread : read.GivesOperands) (o : Options) (u : SourceUnit) :
    (u.phases read { o with noAutoWrap := false }).result = u.made read o ∧
    ((∀ program, u.parsed read = .ok program → ∀ r ∈ program.occurrences [], r.isMainlineReturn = false) →
      u.phases read { o with noAutoWrap := true } = u.phases read { o with noAutoWrap := false }) ∧
    ∀ program before r after, u.parsed read = .ok program → program.occurrences [] = before ++ r :: after →
      (∀ b ∈ before, b.isMainlineReturn = false) → r.isMainlineReturn = true →
      (u.phases read { o with noAutoWrap := true }).result = .error (u.illegalReturn r.node) := by
  refine ⟨?_, fun hnone => phases_script_eq fun program hprogram => ?_, ?_⟩
  · rw [result_phases]
    rfl
  · have hfind : (program.occurrences []).find? Occurrence.isMainlineReturn = none :=
      List.find?_eq_none.2 fun r hr => by simp [hnone program hprogram r hr]
    rw [checkWrapping_script (whole_of_parseUnit hread hprogram), hfind]
  · intro program before r after hprogram hsplit hbefore hr
    have hfind : (program.occurrences []).find? Occurrence.isMainlineReturn = some r :=
      List.find?_eq_some_iff_append.2 ⟨hr, before, after, hsplit, fun b hb => by simp [hbefore b hb]⟩
    rw [result_phases, hprogram]
    change (checkWrapping true program u.key >>= fun _ => _) = _
    rw [checkWrapping_script (whole_of_parseUnit hread hprogram), hfind]
    rfl

/-! ## A script with two returns -/

/-- a return in a function, behind a short-circuit operator -/
def innerReturn : String := "a || function () { return 1; };"

/-- the same, and a return outside -/
def outerReturn : String := "a || function () { return 1; };\nreturn 2;"

def innerReturnStatement : Tree :=
  .node "expression_statement" 0 31 [.node "binary_expression" 0 30 [(Tree.leaf "identifier" 0 1).inField "left",
    (Tree.token "||" 2 4).inField "operator", (Tree.node "function_expression" 5 30 [
      (Tree.leaf "formal_parameters" 14 16).inField "parameters", (Tree.node "statement_block" 17 30 [
        .node "return_statement" 19 28 [.leaf "number" 26 27]]).inField "body"]).inField "right"]]

def innerReturnTree : Tree := .node "program" 0 31 [innerReturnStatement]

def outerReturnTree : Tree :=
  .node "program" 0 41 [innerReturnStatement, .node "return_statement" 32 41 [.leaf "number" 39 40]]

/-- the trees of both texts -/
def returnTree (src : SourceText) : Except ReadFault Tree :=
  if src.text = innerReturn then .ok innerReturnTree
  else if src.text = outerReturn then .ok outerReturnTree
  else .error .unreadable

def returnReader : TreeReader := ⟨returnTree, Lowering.usualDepth⟩

theorem returnReader_givesOperands : returnReader.GivesOperands := by
  intro src root hroot _
  change returnTree src = .ok root at hroot
  rw [returnTree] at hroot
  split_ifs at hroot
  · cases hroot
    decide +kernel
  · cases hroot
    decide +kernel

def innerReturnUnit : SourceUnit := ⟨innerReturn, some "inner.js"⟩

def outerReturnUnit : SourceUnit := ⟨outerReturn, some "outer.js"⟩

def plainOptions : Options := ⟨"__cov", false, false, false, false, false⟩

/-- the return in the function is accepted in a script, the one behind it is not -/
theorem outerReturn_refused : returnReader.GivesOperands ∧
    (∃ program, innerReturnUnit.parsed returnReader = .ok program ∧
      ∀ r ∈ program.occurrences [], r.isMainlineReturn = false) ∧
    innerReturnUnit.phases returnReader { plainOptions with noAutoWrap := true } =
      innerReturnUnit.phases returnReader { plainOptions with noAutoWrap := false } ∧
    (outerReturnUnit.phases returnReader { plainOptions with noAutoWrap := true }).result =
      .error (.source ⟨.illegalReturn, .position 2 0, some "outer.js"⟩) ∧
    (outerReturnUnit.phases returnReader { plainOptions with noAutoWrap := false }).result =
      outerReturnUnit.made returnReader plainOptions := by
  have hread := returnReader_givesOperands
  obtain ⟨-, hsame, -⟩ := wrapping_decides_acceptance hread plainOptions innerReturnUnit
  obtain ⟨hmade, -, hrefused⟩ := wrapping_decides_acceptance hread plainOptions outerReturnUnit
  have hinner : ((innerReturnUnit.parsed returnReader).toOption.map fun program =>
      (program.occurrences []).all fun r => !r.isMainlineReturn) = some true := by decide +kernel
  obtain ⟨program, hprogram, hall⟩ := Option.map_eq_some_iff.1 hinner
  have hnone : ∀ r ∈ program.occurrences [], r.isMainlineReturn = false := by simpa using hall
  have hparsed := ok_of_toOption hprogram
  have houter : ((outerReturnUnit.parsed returnReader).toOption.bind fun program =>
      ((program.occurrences []).find? Occurrence.isMainlineReturn).map fun r =>
        (r.node.span.location.startLine, r.node.span.location.startColumn)) = some (2, 0) := by decide +kernel
  obtain ⟨script, hscript, hfound⟩ := Option.bind_eq_some_iff.1 houter
  obtain ⟨r, hr, hplace⟩ := Option.map_eq_some_iff.1 hfound
  obtain ⟨hreturn, before, after, hsplit, hbefore⟩ := List.find?_eq_some_iff_append.1 hr
  obtain ⟨hline, hcolumn⟩ := Prod.mk.inj hplace
  refine ⟨hread, ⟨program, hparsed, hnone⟩, hsame fun p hp => ?_, ?_, hmade⟩
  · cases hparsed.symm.trans hp
    exact hnone
  · rw [hrefused script before r after (ok_of_toOption hscript) hsplit (fun b hb => by simpa using hbefore b hb) hreturn,
      SourceUnit.illegalReturn, hline, hcolumn]
    rfl

end Turnstile
