/-
The marks that programs keep.

- `KeepsSites.readStatement`: one level of lowering keeps the sites of statements;
- `reading_keepsSites`: every level does;
- `sites_of_program`: a whole program has the sites of its tree, outside of the names and decorators of methods.
-/
import Turnstile.Proofs.Program.Sites

namespace Turnstile

namespace Lowering

open Node (sitesAmong)

variable {r : Reading} {src : SourceText} {M : Marking} {t : Tree} {n : Node} {ns : List Node}
  {k : Tree.Category} {a : Tree.Arrangement}

namespace Reading.KeepsSites

/-! ## Parts of statements -/

theorem optionally (ha : t.Arranged k a) {field : String} (hf : field ∈ a.fieldNames) {kc : Tree.Category}
    (hk : a.category? (some field) = some kc) {read : Tree → Result Node}
    (hread : ∀ c n, c.fits kc = true → read c = .ok n → n.sites M = sites M kc c) {o : Option Node}
    (h : Reading.optionally t field read = .ok o) : sitesAmong M o.toList = fieldSites M kc t field := by
  unfold Reading.optionally at h
  split at h
  · next c hc =>
    obtain ⟨m, hm, rfl⟩ := map_eq_ok_iff.1 h
    rw [fieldSites_of_some hc]
    simpa using hread c m (ha.fits_child hf hc hk) hm
  · next hc =>
    cases h
    rw [fieldSites_of_none hc]
    rfl

theorem elseClause (hr : r.KeepsSites src M) (hfits : t.fits .elseClause = true) (h : r.elseClause t = .ok n) :
    n.sites M = sites M .elseClause t := by
  obtain ⟨hkind, ha⟩ := Tree.Arranged.of_soleType rfl hfits
  rw [sites_of_plain hr.kept ha (by rw [hkind]; decide) fun _ => rfl]
  unfold Reading.elseClause at h
  rcases ha.parts_atMostOne with hparts | ⟨c, hparts⟩
  · rw [hparts] at h
    cases h
  · have hc := ha.fits_part (c := c) (by simp [hparts]) rfl
    rw [hparts] at h ⊢
    simpa using hr.statement hc h

theorem ifStatement (hr : r.KeepsSites src M) (hfits : t.fits .statement = true) (hkind : t.kind = "if_statement")
    (h : r.ifStatement src t = .ok n) : n.sites M = sites M .statement t := by
  have ha : t.Arranged .statement
      (.fields [("condition", .expression), ("consequence", .statement), ("alternative", .elseClause)]) :=
    .of_fits hfits (by rw [hkind]; rfl)
  have hbranch : isBranchSite src t = true := by simp [isBranchSite, ha.named (by decide), hkind]
  rw [ifStatement_eq] at h
  obtain ⟨alternate, hal, h⟩ := bind_eq_ok_iff.1 h
  obtain ⟨test, ht, h⟩ := bind_eq_ok_iff.1 h
  obtain ⟨consequent, hc, h⟩ := bind_eq_ok_iff.1 h
  cases h
  rw [Node.sites_eq, hr.kept.branch hbranch rfl rfl rfl, sites_fields hr.kept ha (by decide) (by rw [hkind]; decide)]
  simp only [Node.children, Node.sitesAmong_append, Node.sitesAmong_cons, List.map_cons, List.map_nil, List.sum_cons,
    List.sum_nil, add_zero]
  rw [hr.field ha (by decide) rfl ht, hr.statementField ha (by decide) rfl hc,
    optionally ha (by decide) rfl (fun _ _ hfits h => hr.elseClause hfits h) hal]

theorem switchCase (hr : r.KeepsSites src M) (hfits : t.fits .clause = true) (h : r.switchCase src t = .ok n) :
    n.sites M = sites M .clause t := by
  obtain ⟨hclause, ha⟩ := Tree.Arranged.of_clause hfits
  have hkind : t.kind ∉ markedKinds := by rcases hclause with hkind | hkind <;> rw [hkind] <;> decide
  obtain ⟨test, ht, h⟩ := bind_eq_ok_iff.1 h
  obtain ⟨body, hb, h⟩ := bind_eq_ok_iff.1 h
  cases h
  rw [sites_of_plainNode hr.kept rfl rfl rfl, sites_clause hr.kept ha fun hm => hkind (hm ▸ by decide),
    hr.kept.plain hkind, zero_add, Node.children, Node.sitesAmong_append, hr.field ha (by decide) rfl ht,
    hr.statements (fun c hc => ha.fits_behind_colon hc) hb]

theorem switchStatement (hr : r.KeepsSites src M) (hfits : t.fits .statement = true)
    (hkind : t.kind = "switch_statement") (h : r.switchStatement src t = .ok n) :
    n.sites M = sites M .statement t := by
  have ha : t.Arranged .statement (.fields [("value", .expression), ("body", .switchBody)]) :=
    .of_fits hfits (by rw [hkind]; rfl)
  have hbranch : isBranchSite src t = true := by simp [isBranchSite, ha.named (by decide), hkind]
  obtain ⟨body, hbody, h⟩ := bind_eq_ok_iff.1 h
  obtain ⟨cases, hcases, h⟩ := bind_eq_ok_iff.1 h
  obtain ⟨discriminant, hd, h⟩ := bind_eq_ok_iff.1 h
  cases h
  have hbody := required_eq_ok_iff.1 hbody
  obtain ⟨hbodyKind, hb⟩ := Tree.Arranged.of_soleType rfl (ha.fits_child (by decide) hbody rfl)
  have hall : body.parts.filter isSwitchCase = body.parts :=
    List.filter_eq_self.2 fun c hc => by
      simpa [isSwitchCase] using (Tree.Arranged.of_clause (hb.fits_part hc rfl)).1
  rw [hall] at hcases
  have hclauses : sitesAmong M cases = (body.parts.map (sites M .clause)).sum :=
    sum_of_mapM (fun c hc _ hn => hr.switchCase (hb.fits_part hc rfl) hn) hcases
  rw [Node.sites_eq, hr.kept.branch hbranch rfl rfl rfl, sites_fields hr.kept ha (by decide) (by rw [hkind]; decide)]
  simp only [Node.children, Node.sitesAmong_append, List.map_cons, List.map_nil, List.sum_cons, List.sum_nil, add_zero]
  rw [hr.field ha (by decide) rfl hd, hclauses, fieldSites_of_some hbody,
    sites_of_plain hr.kept hb (by rw [hbodyKind]; decide) fun _ => rfl]

theorem catchClause (hr : r.KeepsSites src M) (hfits : t.fits .catchClause = true)
    (h : r.catchClause src t = .ok n) : n.sites M = sites M .catchClause t := by
  obtain ⟨hkind, ha⟩ := Tree.Arranged.of_soleType rfl hfits
  obtain ⟨parameter, hp, h⟩ := bind_eq_ok_iff.1 h
  obtain ⟨b, hb, h⟩ := bind_eq_ok_iff.1 h
  obtain ⟨body, hbody, h⟩ := bind_eq_ok_iff.1 h
  cases h
  rw [sites_of_plainNode hr.kept rfl rfl rfl, sites_fields_of_plain hr.kept ha (by decide) (by rw [hkind]; decide),
    Node.children, Node.sitesAmong_append, Node.sitesAmong_cons, hr.field ha (by decide) rfl hp,
    hr.blockField ha (by decide) rfl (bind_eq_ok_iff.2 ⟨b, hb, hbody⟩)]
  simp

theorem finallyClause (hr : r.KeepsSites src M) (hfits : t.fits .finallyClause = true)
    (h : r.blockField src t "body" = .ok n) : n.sites M = sites M .finallyClause t := by
  obtain ⟨hkind, ha⟩ := Tree.Arranged.of_soleType rfl hfits
  rw [sites_fields_of_plain hr.kept ha (by decide) (by rw [hkind]; decide), hr.blockField ha (by decide) rfl h]
  simp

theorem tryStatement (hr : r.KeepsSites src M) (hfits : t.fits .statement = true)
    (hkind : t.kind = "try_statement") (h : r.tryStatement src t = .ok n) : n.sites M = sites M .statement t := by
  have ha : t.Arranged .statement
      (.fields [("body", .block), ("handler", .catchClause), ("finalizer", .finallyClause)]) :=
    .of_fits hfits (by rw [hkind]; rfl)
  rw [tryStatement_eq] at h
  obtain ⟨handler, hh, h⟩ := bind_eq_ok_iff.1 h
  obtain ⟨block, hb, h⟩ := bind_eq_ok_iff.1 h
  obtain ⟨finalizer, hf, h⟩ := bind_eq_ok_iff.1 h
  cases h
  rw [sites_of_plainNode hr.kept rfl rfl rfl, sites_fields_of_plain hr.kept ha (by decide) (by rw [hkind]; decide),
    Node.children, Node.sitesAmong_append, Node.sitesAmong_cons, hr.blockField ha (by decide) rfl hb,
    optionally ha (by decide) rfl (fun _ _ hfits h => hr.catchClause hfits h) hh,
    optionally ha (by decide) rfl (fun _ _ hfits h => hr.finallyClause hfits h) hf]
  simp [add_assoc]

/-! ## Loops -/

/-- what stands in the head of a loop is a statement around an expression, or is like an expression -/
theorem sites_loopPart (hM : M.Kept src) (hfits : t.fits .loopPart = true) (hkind : t.kind ≠ "expression_statement") :
    t.fits .expression = true ∧ sites M .loopPart t = sites M .expression t := by
  obtain ⟨a, ha⟩ := Tree.fits_iff.1 hfits
  have harrangement := ha.arrangement
  rw [Tree.arrangement?, if_neg hkind] at harrangement
  have hexpression : t.Arranged .expression a := ha.recategorize (by decide) harrangement
  refine ⟨Tree.fits_iff.2 ⟨a, hexpression⟩, ?_⟩
  rw [sites_eq ha, sites_eq hexpression, hM.loopPart]

theorem loopPart (hr : r.KeepsSites src M) (hfits : t.fits .loopPart = true) {o : Option Node}
    (h : r.loopPart src t = .ok o) : sitesAmong M o.toList = sites M .loopPart t := by
  unfold Reading.loopPart at h
  -- a declaration, a statement around an expression, or a bare expression
  split_ifs at h with hdeclaration hstatement
  · have hne : t.kind ≠ "expression_statement" := by
      intro hkind
      simp [isDeclaration, hkind] at hdeclaration
    obtain ⟨hexpression, hsame⟩ := sites_loopPart hr.kept hfits hne
    obtain ⟨hcomposite, ha⟩ := arranged_of_isDeclaration src hexpression hdeclaration
    have hmethod : t.kind ≠ "method_definition" := by
      intro hkind
      simp [isDeclaration, hkind] at hdeclaration
    obtain ⟨parts, hp, h⟩ := bind_eq_ok_iff.1 h
    cases h
    rw [hsame, sites_list hr.kept ha hmethod fun _ => rfl, hr.kept.composite hexpression hcomposite, zero_add,
      ← hr.initializers ha hp]
    exact sitesAmong_composite hr.kept List.isEmpty_iff.1 _ _
  · have ha : t.Arranged .loopPart (.atMostOne .expression) := .of_fits hfits (by rw [hstatement]; rfl)
    rw [sites_of_plain hr.kept ha (by rw [hstatement]; decide) fun _ => rfl]
    exact hr.firstPart ha h
  · obtain ⟨hexpression, hsame⟩ := sites_loopPart hr.kept hfits hstatement
    rw [hsame]
    exact hr.expression hexpression h

theorem loopHeader (hr : r.KeepsSites src M) (ha : t.Arranged k .loop) (h : r.loopHeader src t = .ok ns) :
    sitesAmong M ns = ((loopParts t).map (sites M .loopPart)).sum :=
  sitesAmong_of_mapM (fun _ hc _ ho => hr.loopPart (ha.fits_loopPart hc) ho) h

/-- a loop over what its head gives -/
theorem loop (hr : r.KeepsSites src M) (ha : t.Arranged k .loop) (hkind : t.kind ∉ markedKinds)
    {header : List Node} {body : Node} (hheader : r.loopHeader src t = .ok header)
    (hbody : r.statementField t "body" = .ok body) :
    sitesAmong M (header ++ [body]) = sites M k t := by
  rw [sites_loop hr.kept ha fun hm => hkind (hm ▸ by decide), hr.kept.plain hkind, zero_add, Node.sitesAmong_append,
    Node.sitesAmong_singleton, hr.loopHeader ha hheader, hr.statementField ha (by decide) rfl hbody]

/-- an expression in a field, and a body -/
theorem guarded (hr : r.KeepsSites src M) {field : String}
    (ha : t.Arranged k (.fields [(field, .expression), ("body", .statement)])) (hfield : field ≠ "body")
    (hkind : t.kind ∉ markedKinds) {guard : Option Node} {body : Node} (hguard : r.field false t field = .ok guard)
    (hbody : r.statementField t "body" = .ok body) :
    sitesAmong M (guard.toList ++ [body]) = sites M k t := by
  have hlookup : ([(field, Tree.Category.expression), ("body", .statement)]).lookup "body" = some .statement := by
    simp [List.lookup_cons, beq_eq_false_iff_ne.2 hfield.symm]
  rw [sites_fields_of_plain hr.kept ha (by simp [hfield]) hkind, Node.sitesAmong_append, Node.sitesAmong_singleton,
    hr.field ha (by simp [Tree.Arrangement.fieldNames]) (by simp [Tree.Arrangement.category?]) hguard,
    hr.statementField ha (by simp [Tree.Arrangement.fieldNames]) hlookup hbody]
  simp

/-! ## All statements -/

/-- a declaration has the sites of its names and values, and its own -/
theorem declaration (hr : r.KeepsSites src M) (hfits : t.fits .statement = true) (hdeclaration : isDeclaration t = true)
    (h : r.readStatement src t = .ok n) : n.sites M = sites M .statement t := by
  have ha : t.Arranged .statement (.list .declarator) ∧ t.kind ≠ "method_definition" := by
    simp only [isDeclaration, Bool.or_eq_true, decide_eq_true_eq] at hdeclaration
    rcases hdeclaration with (hkind | hkind) | hkind <;>
      exact ⟨.of_fits hfits (by rw [hkind]; rfl), by rw [hkind]; decide⟩
  rw [readStatement_declaration r src t hdeclaration] at h
  obtain ⟨keyword, hkeyword, h⟩ := bind_eq_ok_iff.1 h
  obtain ⟨initializers, hi, h⟩ := bind_eq_ok_iff.1 h
  obtain ⟨declarators, hd, h⟩ := bind_eq_ok_iff.1 h
  cases h
  have hpart := ha.1.isPart.resolve_left (by decide)
  rw [Node.sites_eq, hr.kept.declaration hpart hdeclaration hkeyword hd, sites_list hr.kept ha.1 ha.2 fun _ => rfl]
  exact congrArg _ (hr.initializers ha.1 hi)

/-- a statement that is kept for the expressions inside it -/
theorem expressionsInside (hr : r.KeepsSites src M) (ha : t.Arranged k (.list .expression))
    (hkind : t.kind ∉ markedKinds) (h : r.subexpressions t = .ok ns) :
    sitesAmong M ns = sites M k t := by
  rw [sites_of_plain hr.kept ha hkind fun _ => rfl]
  exact hr.expressions (fun c hc => ha.fits_part hc rfl) h

theorem readStatement (hr : r.KeepsSites src M) (hfits : t.fits .statement = true)
    (h : r.readStatement src t = .ok n) : n.sites M = sites M .statement t := by
  have hread := h
  unfold Reading.readStatement at h
  dsimp only at h
  split at h
  case h_1 | h_17 | h_18 =>
    next hkind =>
    have ha : t.Arranged .statement (.atMostOne .expression) := .of_fits hfits (by rw [hkind]; rfl)
    obtain ⟨part, hpart, h⟩ := bind_eq_ok_iff.1 h
    cases h
    rw [sites_of_plainNode hr.kept rfl rfl rfl, sites_of_plain hr.kept ha (by rw [hkind]; decide) fun _ => rfl]
    exact hr.firstPart ha hpart
  case h_2 | h_3 | h_4 =>
    next hkind => exact hr.declaration hfits (by simp [isDeclaration, hkind]) hread
  case h_5 | h_6 =>
    next hkind =>
    have ha : t.Arranged .statement (.function false) := .of_fits hfits (by rw [hkind]; rfl)
    obtain ⟨f, hf, h⟩ := bind_eq_ok_iff.1 h
    cases h
    rw [sites_of_plainNode hr.kept rfl rfl rfl, Node.children, Node.sitesAmong_singleton]
    exact hr.function ha (by simp) (by decide) (by simp [functionForm?, hkind]) hf
  case h_7 hkind =>
    obtain ⟨name, -, h⟩ := bind_eq_ok_iff.1 h
    obtain ⟨members, hm, h⟩ := bind_eq_ok_iff.1 h
    cases h
    rw [sites_of_plainNode hr.kept rfl rfl rfl]
    exact hr.expressionsInside (.of_fits hfits (by rw [hkind]; rfl)) (by rw [hkind]; decide) hm
  case h_8 hkind => exact hr.block (.of_fits hfits (by rw [hkind]; rfl)) (by rw [hkind]; decide) h
  case h_9 | h_10 =>
    next hkind =>
    have ha : t.Arranged .statement (.fields []) := .of_fits hfits (by rw [hkind]; rfl)
    cases h
    rw [sites_of_plainNode hr.kept rfl rfl rfl, sites_fields_of_plain hr.kept ha (by decide) (by rw [hkind]; decide)]
    rfl
  case h_11 hkind => exact hr.ifStatement hfits hkind h
  case h_12 hkind => exact hr.switchStatement hfits hkind h
  case h_13 | h_23 =>
    next hkind =>
    obtain ⟨test, ht, h⟩ := bind_eq_ok_iff.1 h
    obtain ⟨body, hb, h⟩ := bind_eq_ok_iff.1 h
    cases h
    rw [sites_of_plainNode hr.kept rfl rfl rfl]
    exact hr.guarded (.of_fits hfits (by rw [hkind]; rfl)) (by decide) (by rw [hkind]; decide) ht hb
  case h_14 hkind =>
    obtain ⟨body, hb, h⟩ := bind_eq_ok_iff.1 h
    obtain ⟨test, ht, h⟩ := bind_eq_ok_iff.1 h
    cases h
    rw [sites_of_plainNode hr.kept rfl rfl rfl,
      ← hr.guarded (.of_fits hfits (by rw [hkind]; rfl)) (by decide) (by rw [hkind]; decide) ht hb]
    simp [Node.children, add_comm]
  case h_15 hkind =>
    obtain ⟨header, hh, h⟩ := bind_eq_ok_iff.1 h
    obtain ⟨body, hb, h⟩ := bind_eq_ok_iff.1 h
    cases h
    rw [sites_of_plainNode hr.kept rfl rfl rfl]
    exact hr.loop (.of_fits hfits (by rw [hkind]; rfl)) (by rw [hkind]; decide) hh hb
  case h_16 hkind =>
    obtain ⟨operator, -, h⟩ := bind_eq_ok_iff.1 h
    obtain ⟨header, hh, h⟩ := bind_eq_ok_iff.1 h
    obtain ⟨body, hb, h⟩ := bind_eq_ok_iff.1 h
    cases h
    rw [sites_of_plainNode hr.kept rfl rfl rfl]
    exact hr.loop (.of_fits hfits (by rw [hkind]; rfl)) (by rw [hkind]; decide) hh hb
  case h_19 | h_20 =>
    next hkind =>
    have ha : t.Arranged .statement (.fields [("label", .word)]) := .of_fits hfits (by rw [hkind]; rfl)
    obtain ⟨label, -, h⟩ := bind_eq_ok_iff.1 h
    cases h
    rw [sites_of_plainNode hr.kept rfl rfl rfl, sites_fields_of_plain hr.kept ha (by decide) (by rw [hkind]; decide)]
    simp [Node.children, fieldSites_of_word hr.kept ha (f := "label") (by decide) rfl]
  case h_21 hkind =>
    have ha : t.Arranged .statement (.fields [("label", .word), ("body", .statement)]) :=
      .of_fits hfits (by rw [hkind]; rfl)
    obtain ⟨label, -, h⟩ := bind_eq_ok_iff.1 h
    obtain ⟨body, hb, h⟩ := bind_eq_ok_iff.1 h
    cases h
    rw [sites_of_plainNode hr.kept rfl rfl rfl, sites_fields_of_plain hr.kept ha (by decide) (by rw [hkind]; decide)]
    simp [Node.children, fieldSites_of_word hr.kept ha (f := "label") (by decide) rfl, hr.statementField ha (by decide) rfl hb]
  case h_22 hkind => exact hr.tryStatement hfits hkind h
  case h_24 | h_25 =>
    next hkind =>
    obtain ⟨parts, hp, h⟩ := bind_eq_ok_iff.1 h
    cases h
    rw [sites_of_plainNode hr.kept rfl rfl rfl]
    exact hr.expressionsInside (.of_fits hfits (by rw [hkind]; rfl)) (by rw [hkind]; decide) hp
  case h_26 =>
    -- no type of its own: not one of those that have counters, so only the parts matter
    obtain ⟨a, ha⟩ := Tree.fits_iff.1 hfits
    have harrangement : Tree.statementArrangement? t.kind = some a := ha.arrangement
    unfold Tree.statementArrangement? at harrangement
    obtain ⟨hkind, rfl⟩ : t.kind ∉ markedKinds ∧ a = .list .expression := by
      split at harrangement <;> simp_all [markedKinds]
    obtain ⟨parts, hp, h⟩ := bind_eq_ok_iff.1 h
    cases h
    rw [sites_of_plainNode hr.kept rfl rfl rfl, Node.children, Option.toList_some, Node.sitesAmong_singleton,
      sites_of_plainNode hr.kept rfl rfl rfl]
    exact hr.expressionsInside ha hkind hp

end Reading.KeepsSites

/-! ## Whole programs -/

/-- **Every level of lowering keeps the sites.** -/
theorem reading_keepsSites (hM : M.Kept src) (depth : ℕ) :
    (reading src depth).KeepsSites src M := by
  induction depth with
  | zero =>
    constructor
    case kept => exact hM
    case expression =>
      intro keep t o _ h
      cases h
    case statement =>
      intro t n _ h
      cases h
  | succ depth ih => exact ⟨hM, fun hfits h => ih.readExpression hfits h, fun hfits h => ih.readStatement hfits h⟩

/-- **A lowered program has the sites of its tree.** -/
theorem sites_of_program (hM : M.Kept src) {depth : ℕ} {root : Tree} {program : Node} (hfits : root.fits .program = true)
    (h : Lowering.program depth src root = .ok program) : program.sites M = sites M .program root := by
  obtain ⟨hkind, ha⟩ := Tree.Arranged.of_soleType rfl hfits
  obtain ⟨body, hb, h⟩ := bind_eq_ok_iff.1 h
  cases h
  rw [sites_of_plainNode hM rfl rfl rfl, sites_of_plain hM ha (by rw [hkind]; decide) fun _ => rfl]
  exact (reading_keepsSites hM depth).prologue (fun c hc => ha.fits_part hc rfl) hb

end Lowering

end Turnstile
