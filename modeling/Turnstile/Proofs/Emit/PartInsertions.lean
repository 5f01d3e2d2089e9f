/-
Insertions for the parts of a node.

A node lists the counters in front of it first; where they stand, a label may decide. Behind them stands what it inserts for
its parts.
- `edits_eq_leading`: the counters in front of a node, then everything else (`inner`), which no label changes;
- `roleEdits_eq`: what a part receives for its role is what the rendering adds to it;
- `inner_eq_of_roles`, `inner_eq_of_early`: everything else, part by part. Choices, operators and functions insert the
  brackets of all their parts before they go into the first one.
-/
import Turnstile.Proofs.Coverage.Numbering
import Turnstile.Proofs.Emit.Recursion
import Turnstile.Proofs.Emit.Rendering
import Turnstile.Proofs.Program.Shape

namespace Turnstile

/-! ## Insertions behind the leading counters -/

namespace Node

/-- what is inserted for a node behind the counters in front of it -/
def inner (data : ByteArray) (a : Address) (n : Node) : List Edit := (n.edits data none a).drop (n.leading a).length

theorem leading_of_not_isCounted {n : Node} (a : Address) (h : n.isCounted = false) : n.leading a = [] := by
  cases n with
  | labeled => simp [isCounted, isStatement] at h
  | directive => simp [leading]
  | _ => simp_all [leading]

/-- what an `if` without an else inserts behind itself -/
def elseEdits (a : Address) : Node → List Edit
  | ifStatement span _ _ none => [.close span.stop (.elseBlock (.branch a 1))]
  | _ => []

/-- what a node inserts around or inside its parts before it goes into any of them -/
def earlyEdits (data : ByteArray) (a : Address) : Node → List Edit
  | conditional _ _ consequent alternate => alternativeEdits a 0 consequent ++ alternativeEdits a 1 alternate
  | logical _ _ left right => alternativeEdits a 0 left ++ alternativeEdits a 1 right
  | function _ _ _ parameters (some body) => bodyEdits data a (a.child parameters.length) body
  | _ => []

def isLabeled : Node → Bool
  | labeled .. => true
  | _ => false

/-- what a node other than a label inserts by itself, behind its leading counters -/
theorem localEdits_eq {n : Node} (data : ByteArray) (hoist : Option ℕ) (a : Address) (h : n.isLabeled = false) :
    n.localEdits data hoist a =
      (n.leading a).map (Insertion.opening (counterOffset hoist n : ℤ)) ++ (n.elseEdits a ++ n.earlyEdits data a) := by
  have hcount : ∀ m : Node, countEdits hoist a m =
      (if m.isCounted then [Snippet.count (.statement a)] else []).map (Insertion.opening (counterOffset hoist m : ℤ)) := by
    intro m
    unfold countEdits
    split <;> rfl
  cases n with
  | labeled => cases h
  | directive => rfl
  | ifStatement span test consequent alternate => cases alternate <;> rfl
  | function span form name parameters body => cases body <;> rfl
  | conditional | logical => rfl
  | _ => simpa [localEdits, isLogical, ownEdits, elseEdits, earlyEdits, operatorEdits, leading] using hcount _

theorem partHoist_eq_none {n : Node} (hoist : Option ℕ) (part : Node) (h : n.isLabeled = false) :
    n.partHoist hoist part = none := by
  cases n <;> first | rfl | cases h

theorem edits_of_not_isLabeled {n : Node} (data : ByteArray) (hoist : Option ℕ) (a : Address) (h : n.isLabeled = false) :
    n.edits data hoist a = (n.leading a).map (Insertion.opening (counterOffset hoist n : ℤ)) ++
      (n.elseEdits a ++ n.earlyEdits data a ++ ((n.placed a).zip n.roles).flatMap fun x =>
        roleEdits a x.2 x.1.2 ++ x.1.2.edits data none x.1.1) := by
  rw [edits_eq, localEdits_eq data hoist a h, List.append_assoc]
  refine congrArg _ (congrArg _ (List.flatMap_congr fun x _ => ?_))
  rw [partEdits, partHoist_eq_none hoist _ h]

theorem edits_labeled (data : ByteArray) (hoist : Option ℕ) (a : Address) (span : Span) (label : Option String)
    (body : Node) : (labeled span label body).edits data hoist a =
      .opening (counterOffset hoist (labeled span label body) : ℤ) (.count (.statement a)) ::
        body.edits data ((labeled span label body).partHoist hoist body) (a.child 0) := by
  rw [edits_eq]
  simp [localEdits, isLogical, ownEdits, countEdits, isCounted, isStatement, placed, children, placedFrom, roles,
    partEdits, roleEdits]

/-- a label puts the counters in front of what it labels in front of itself -/
theorem edits_labeled_of {data : ByteArray} {a : Address} {body : Node} {rest : List Edit}
    (h : ∀ hoist, body.edits data hoist (a.child 0) =
      (body.leading (a.child 0)).map (Insertion.opening (counterOffset hoist body : ℤ)) ++ rest)
    (hoist : Option ℕ) (span : Span) (label : Option String) : (labeled span label body).edits data hoist a =
      ((labeled span label body).leading a).map
        (Insertion.opening (counterOffset hoist (labeled span label body) : ℤ)) ++ rest := by
  rw [edits_labeled, h, leading, List.map_cons, List.cons_append]
  by_cases hcounted : body.isCounted = true
  · have hoffset : counterOffset ((labeled span label body).partHoist hoist body) body =
        counterOffset hoist (labeled span label body) := by
      rw [partHoist, if_pos hcounted]
      rfl
    rw [hoffset]
  · rw [leading_of_not_isCounted _ (by simpa using hcounted)]
    rfl

theorem exists_of_isLabeled {n : Node} (h : n.isLabeled = true) : ∃ span label body, n = labeled span label body := by
  cases n <;> first | exact ⟨_, _, _, rfl⟩ | cases h

theorem exists_edits_eq (data : ByteArray) (a : Address) (n : Node) : ∃ rest, ∀ hoist, n.edits data hoist a =
    (n.leading a).map (Insertion.opening (counterOffset hoist n : ℤ)) ++ rest := by
  induction n using inductionOn generalizing a with
  | step n ih =>
    cases hlabel : n.isLabeled with
    | false => exact ⟨_, fun hoist => edits_of_not_isLabeled data hoist a hlabel⟩
    | true =>
      obtain ⟨span, label, body, rfl⟩ := exists_of_isLabeled hlabel
      obtain ⟨rest, hrest⟩ := ih body (by simp [children]) (a.child 0)
      exact ⟨rest, fun hoist => edits_labeled_of hrest hoist span label⟩

/-- **The counters in front of a node come first.** Where they stand is all that a label decides. -/
theorem edits_eq_leading (data : ByteArray) (hoist : Option ℕ) (a : Address) (n : Node) : n.edits data hoist a =
    (n.leading a).map (Insertion.opening (counterOffset hoist n : ℤ)) ++ n.inner data a := by
  obtain ⟨rest, hrest⟩ := exists_edits_eq data a n
  have hinner : n.inner data a = rest := by
    rw [inner, hrest none]
    exact List.drop_left' (by simp)
  rw [hinner, hrest hoist]

theorem inner_of_edits_eq {data : ByteArray} {a : Address} {n : Node} {hoist : Option ℕ} {rest : List Edit}
    (h : n.edits data hoist a = (n.leading a).map (Insertion.opening (counterOffset hoist n : ℤ)) ++ rest) :
    n.inner data a = rest := List.append_cancel_left ((edits_eq_leading data hoist a n).symm.trans h)

theorem inner_labeled (data : ByteArray) (a : Address) (span : Span) (label : Option String) (body : Node) :
    (labeled span label body).inner data a = body.inner data (a.child 0) :=
  inner_of_edits_eq (edits_labeled_of (fun hoist => edits_eq_leading data hoist _ body) none span label)

theorem inner_eq {n : Node} (data : ByteArray) (a : Address) (h : n.isLabeled = false) : n.inner data a =
    n.elseEdits a ++ n.earlyEdits data a ++ ((n.placed a).zip n.roles).flatMap fun x =>
      roleEdits a x.2 x.1.2 ++ x.1.2.edits data none x.1.1 := inner_of_edits_eq (edits_of_not_isLabeled data none a h)

/-! ## Insertions for a part -/

theorem directiveEdits_eq (a : Address) (statements : List Node) (offset : ℕ) :
    directiveEdits a statements offset = (directiveCounts a statements).map (Insertion.opening (offset : ℤ)) := by
  rw [directiveCounts, List.map_map]
  rfl

/-- the offset of the top of a node -/
def topOffset (data : ByteArray) (n : Node) : ℕ := ((n.top? data).map Prod.snd).getD 0

end Node

namespace Setting

/-- what is inserted around a part, or at its top -/
def edits (data : ByteArray) (p : Address × Node) : Setting → List Edit
  | around opener _ closer => opener.toList.map (Insertion.opening (p.2.span.start : ℤ)) ++
      closer.toList.map (Insertion.close (p.2.span.stop : ℤ))
  | atTop code => code.map (Insertion.opening (p.2.topOffset data : ℤ))

/-- what is inserted for a part between its brackets -/
def insideEdits (data : ByteArray) (p : Address × Node) : Setting → List Edit
  | around _ counters _ => counters.map (Insertion.opening (p.2.span.start : ℤ)) ++ p.2.inner data p.1
  | atTop _ => p.2.inner data p.1

variable (data : ByteArray) (p : Address × Node)

theorem insideEdits_bare : (bare p).insideEdits data p = p.2.edits data none p.1 :=
  (Node.edits_eq_leading data none p.1 p.2).symm

theorem insideEdits_enclosed (opener closer : Snippet Address) :
    (enclosed opener closer p).insideEdits data p = p.2.edits data none p.1 :=
  (Node.edits_eq_leading data none p.1 p.2).symm

theorem insideEdits_atTop (code : List (Snippet Address)) (h : p.2.isCounted = false) :
    (atTop code).insideEdits data p = p.2.edits data none p.1 := by
  rw [Node.edits_eq_leading, Node.leading_of_not_isCounted _ h]
  rfl

theorem insideEdits_arm (counter : Option (Counter Address)) :
    (arm counter p).insideEdits data p = p.2.edits data none p.1 := by
  unfold arm
  split
  · next hblock => exact insideEdits_atTop data p _ (by rw [hblock]; rfl)
  · split
    · exact insideEdits_enclosed data p _ _
    · exact insideEdits_bare data p

theorem edits_bare : (bare p).edits data p = [] := rfl

theorem edits_counting (a : Address) (slot : ℕ) :
    (counting (.branch a slot) p).edits data p = Node.alternativeEdits a slot (some p.2) := rfl

theorem insideEdits_counting (counter : Counter Address) :
    (counting counter p).insideEdits data p = p.2.edits data none p.1 := insideEdits_enclosed data p _ _

theorem edits_body (a : Address) : (body data (.function a) p).edits data p = Node.bodyEdits data a p.1 p.2 := by
  obtain ⟨b, n⟩ := p
  cases n with
  | block span statements =>
    simp [body, Setting.edits, Node.bodyEdits, Node.topOffset, Node.top?, Node.directiveEdits_eq]
  | _ => rfl

theorem insideEdits_body (counter : Counter Address) :
    (body data counter p).insideEdits data p = p.2.edits data none p.1 := by
  unfold body
  split
  · next hblock => exact insideEdits_atTop data p _ (by rw [hblock]; rfl)
  · exact insideEdits_enclosed data p _ _

end Setting

/-! ## Roles -/

/-- what is added to a part in this role for the node at address `a` -/
def Role.setting (a : Address) : Role → Address × Node → Setting
  | .plain => .bare
  | .arm slot => .arm (slot.map (.branch a))
  | .clause slot _ => .clause (.branch a slot)

namespace Node

/-- a block that has no directives -/
def StartsPlain : Node → Prop
  | block _ body => body.takeWhile isDirective = []
  | _ => True

/-- a part that can have a role for the node `n` -/
def Fits (n part : Node) : Role → Prop
  | .plain => True
  | .arm _ => part.StartsPlain
  | .clause _ offset => part ∈ n.clauses ∧ ∃ span test body, part = switchCase span test body offset

variable {n part : Node} {role : Role} (data : ByteArray) (a b : Address)

theorem topOffset_of_startsPlain {span : Span} {body : List Node} (h : (block span body).StartsPlain) :
    (block span body).topOffset data = span.start + 1 := by
  have hnone : body.takeWhile isDirective = [] := h
  simp [topOffset, top?, afterDirectives, hnone]

theorem armEdits_eq (counter : Option (Counter Address)) (h : part.StartsPlain) :
    armEdits counter part = (Setting.arm counter (b, part)).edits data (b, part) := by
  cases part with
  | block span body =>
    have htop := topOffset_of_startsPlain data h
    cases counter <;> simp [armEdits, Setting.arm, Setting.edits, htop]
  | _ =>
    simp only [armEdits, Setting.arm]
    split_ifs <;> rfl

theorem roleEdits_eq (h : n.Fits part role) : roleEdits a role part = (role.setting a (b, part)).edits data (b, part) := by
  cases role with
  | plain => rfl
  | arm slot => exact armEdits_eq data b _ h
  | clause slot offset =>
    obtain ⟨-, span, test, body, rfl⟩ := h
    rfl

theorem insideEdits_setting (h : n.Fits part role) :
    (role.setting a (b, part)).insideEdits data (b, part) = part.edits data none b := by
  cases role with
  | plain => exact Setting.insideEdits_bare data (b, part)
  | arm slot => exact Setting.insideEdits_arm data (b, part) _
  | clause slot offset =>
    obtain ⟨-, span, test, body, rfl⟩ := h
    exact Setting.insideEdits_atTop data (b, _) _ rfl

/-- the nodes whose brackets are inserted before anything inside their parts -/
def bracketsEarly : Node → Bool
  | conditional .. | logical .. | function .. => true
  | _ => false

theorem fits_plain (n : Node) (l : List Node) : List.Forall₂ n.Fits l (l.map fun _ => .plain) :=
  List.forall₂_map_right_iff.2 (List.forall₂_same.2 fun _ _ => trivial)

theorem fits_clauses (n : Node) (span : Span) (discriminant : Option Node) (cases : List Node)
    (hn : ∀ c ∈ cases, c ∈ n.clauses) (hclauses : ∀ c ∈ cases, c.isClause = true) :
    List.Forall₂ n.Fits (discriminant.toList ++ cases) (switchStatement span discriminant cases).roles := by
  rw [roles]
  refine List.rel_append (fits_plain n _) ?_
  generalize 0 = i
  induction cases generalizing i with
  | nil => exact .nil
  | cons c cases ih =>
    have hrest := ih (fun c hc => hn c (List.mem_cons_of_mem _ hc))
      (fun c hc => hclauses c (List.mem_cons_of_mem _ hc)) (i + 1)
    cases c with
    | switchCase span test body offset => exact .cons ⟨hn _ List.mem_cons_self, span, test, body, rfl⟩ hrest
    | _ => simp [isClause] at hclauses

/-- every part can have its role -/
theorem fits_roles (hclauses : ∀ c ∈ n.clauses, c.isClause = true) (hready : ∀ c ∈ n.children, c.StartsPlain) :
    List.Forall₂ n.Fits n.children n.roles := by
  cases n with
  | ifStatement span test consequent alternate =>
    refine List.rel_append (fits_plain _ _) (.cons (hready consequent (by simp [children])) ?_)
    exact List.forall₂_map_right_iff.2 (List.forall₂_same.2 fun c hc => hready c (by simp_all [children]))
  | whileLoop span test body =>
    exact List.rel_append (fits_plain _ _) (.cons (hready body (by simp [children])) .nil)
  | doWhileLoop span body test => exact .cons (hready body (by simp [children])) (fits_plain _ _)
  | forLoop span header body =>
    exact List.rel_append (fits_plain _ _) (.cons (hready body (by simp [children])) .nil)
  | forInLoop span operator header body =>
    exact List.rel_append (fits_plain _ _) (.cons (hready body (by simp [children])) .nil)
  | withStatement span object body =>
    exact List.rel_append (fits_plain _ _) (.cons (hready body (by simp [children])) .nil)
  | switchStatement span discriminant cases =>
    exact fits_clauses _ span discriminant cases (fun c hc => hc) hclauses
  | _ => exact fits_plain _ _

theorem settings_switch (span : Span) (discriminant : Option Node) (cases : List Node)
    (hclauses : ∀ c ∈ cases, c.isClause = true) : (switchStatement span discriminant cases).settings data a =
      (switchStatement span discriminant cases).roles.map (Role.setting a) := by
  rw [settings, roles, List.map_append, List.map_map, List.range_eq_range']
  refine congrArg _ ?_
  generalize 0 = i
  induction cases generalizing i with
  | nil => rfl
  | cons c cases ih =>
    cases c with
    | switchCase span test body offset =>
      have hrest := ih (fun c hc => hclauses c (List.mem_cons_of_mem _ hc)) (i + 1)
      rw [List.zipIdx_cons, List.map_cons, List.map_cons, List.length_cons, List.range'_succ, List.map_cons, hrest]
      rfl
    | _ => simp [isClause] at hclauses

/-- what is added to a part follows from its role, but where brackets come early -/
theorem settings_eq_roles (hlabel : n.isLabeled = false) (hearly : n.bracketsEarly = false)
    (hclauses : ∀ c ∈ n.clauses, c.isClause = true) : n.settings data a = n.roles.map (Role.setting a) := by
  cases n with
  | labeled => cases hlabel
  | conditional | logical | function => cases hearly
  | switchStatement span discriminant cases => exact settings_switch data a span discriminant cases hclauses
  | _ => simp [settings, roles, Role.setting, Function.comp_def, -List.map_const']

theorem fits_of_mem_zip (hclauses : ∀ c ∈ n.clauses, c.isClause = true) (hready : ∀ c ∈ n.children, c.StartsPlain)
    {x : (Address × Node) × Role} (hx : x ∈ (n.placed a).zip n.roles) : n.Fits x.1.2 x.2 := by
  have hall := fits_roles hclauses hready
  rw [← map_snd_placedFrom a 0 n.children, List.forall₂_map_left_iff] at hall
  exact List.forall₂_iff_zip.1 hall |>.2 hx

/-! ## Insertions for a node, part by part -/

/-- what is inserted for a part: what is added to it, and what is inside -/
def partInsertions (data : ByteArray) (x : (Address × Node) × Setting) : List Edit :=
  x.2.edits data x.1 ++ x.2.insideEdits data x.1

theorem parts_eq_of_roles (hlabel : n.isLabeled = false) (hearly : n.bracketsEarly = false)
    (hclauses : ∀ c ∈ n.clauses, c.isClause = true) :
    n.parts data a = ((n.placed a).zip n.roles).map fun x => (x.1, x.2.setting a x.1) := by
  rw [parts, settings_eq_roles data a hlabel hearly hclauses, List.zip_map_right, List.map_map]
  rfl

theorem inner_eq_of_roles (hlabel : n.isLabeled = false) (hearly : n.bracketsEarly = false)
    (hclauses : ∀ c ∈ n.clauses, c.isClause = true) (hready : ∀ c ∈ n.children, c.StartsPlain) :
    n.inner data a = n.elseEdits a ++ (n.parts data a).flatMap (partInsertions data) := by
  have hnone : n.earlyEdits data a = [] := by
    cases n <;> first | rfl | cases hearly
  rw [inner_eq data a hlabel, hnone, List.append_nil, parts_eq_of_roles data a hlabel hearly hclauses, List.flatMap_map]
  refine congrArg _ (List.flatMap_congr fun x hx => ?_)
  have hfits := fits_of_mem_zip a hclauses hready hx
  rw [roleEdits_eq data a x.1.1 hfits, partInsertions, insideEdits_setting data a x.1.1 hfits]

/-- brackets that come early stand in front of all that is inside the parts -/
theorem inner_eq_of_early (hearly : n.bracketsEarly = true) (hcomplete : n.isComplete = true) : n.inner data a =
    ((n.parts data a).flatMap fun x => x.2.edits data x.1) ++
      (n.parts data a).flatMap fun x => x.2.insideEdits data x.1 := by
  have hlabel : n.isLabeled = false := by
    cases n <;> first | rfl | cases hearly
  rw [inner_eq data a hlabel]
  cases n with
  | conditional span test consequent alternate =>
    obtain ⟨⟨c, rfl⟩, ⟨d, rfl⟩⟩ := by simpa [isComplete, Option.isSome_iff_exists] using hcomplete
    cases test <;> simp [elseEdits, earlyEdits, parts, placed, children, placedFrom, settings, roles, roleEdits,
      Setting.edits_bare, Setting.edits_counting, Setting.insideEdits_bare, Setting.insideEdits_counting]
  | logical span operator left right =>
    obtain ⟨⟨c, rfl⟩, ⟨d, rfl⟩⟩ := by simpa [isComplete, Option.isSome_iff_exists] using hcomplete
    simp [elseEdits, earlyEdits, parts, placed, children, placedFrom, settings, roles, roleEdits,
      Setting.edits_counting, Setting.insideEdits_counting]
  | function span form name parameters body =>
    obtain ⟨b, rfl⟩ := by simpa [isComplete, Option.isSome_iff_exists] using hcomplete
    have hparts : (function span form name parameters (some b)).parts data a =
        (placedFrom a 0 parameters).map (fun p => (p, Setting.bare p)) ++
          [((a.child parameters.length, b), .body data (.function a) (a.child parameters.length, b))] := by
      simp [parts, placed_function, settings, List.zip_append, length_placedFrom, zip_placedFrom, -List.map_const']
    have hroles : ((function span form name parameters (some b)).placed a).zip
        (function span form name parameters (some b)).roles =
          ((placedFrom a 0 parameters).map fun p => (p, Role.plain)) ++ [((a.child parameters.length, b), .plain)] := by
      simp [placed_function, roles, children, List.zip_append, length_placedFrom, zip_placedFrom, -List.map_const']
    rw [hparts, hroles]
    simp [elseEdits, earlyEdits, roleEdits, List.flatMap_map, Setting.edits_bare, Setting.edits_body,
      Setting.insideEdits_bare, Setting.insideEdits_body]
  | _ => cases hearly

theorem length_settings (data : ByteArray) (a : Address) (n : Node) : (n.settings data a).length = n.children.length := by
  cases n <;> simp [settings, children]

theorem map_parts (data : ByteArray) (a : Address) (n : Node) : (n.parts data a).map (fun x => x.1) = n.placed a := by
  have hlength : (n.placed a).length ≤ (n.settings data a).length := by
    rw [placed, length_placedFrom, length_settings]
  rw [parts, List.map_map]
  exact List.map_fst_zip hlength

theorem map_node_parts (data : ByteArray) (a : Address) (n : Node) :
    (n.parts data a).map (fun x => x.1.2) = n.children := by
  rw [← map_snd_placedFrom a 0 n.children, ← placed, ← map_parts data a n, List.map_map]
  rfl

variable {data a} in
theorem mem_placed_of_mem_parts {x : (Address × Node) × Setting} (hx : x ∈ n.parts data a) : x.1 ∈ n.placed a := by
  rw [← map_parts data a n]
  exact List.mem_map_of_mem hx

end Node

end Turnstile
