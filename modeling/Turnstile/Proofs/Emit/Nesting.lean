/-
Sorting realizes nesting.

Insertions are recorded in walk order and sorted by offset; the rendering of a node writes them where they belong. Both lead
to the same text:
- `LaidItems.stitch`, `laid_insertCode`: parts that are laid out are laid out side by side, with code between them;
- `Setting.laid`: brackets stand around a part and its leading counters, or code stands at its top;
- `inner_sameOrder`: a node that inserts the brackets of all its parts first might have gone part by part;
- `renders_of_parts`: a node is laid out if its parts are;
- `renders_of_wellPlaced`: every node of a lowered program is, by induction over the shape of lowered programs.
-/
import Turnstile.Proofs.Emit.PartInsertions
import Turnstile.Proofs.Emit.Spans

namespace Turnstile

/-! ## Items side by side -/

/-- items in order from an offset to `hi`, each with insertions that are laid out as its pieces -/
def LaidItems (text : String) (lim hi : ℕ) : ℕ → List (List Edit × Item) → Prop
  | lo, [] => lo ≤ hi ∧ Boundary text hi
  | lo, x :: xs => lo ≤ x.2.start ∧ Boundary text x.2.start ∧
    (∃ l, l ≤ lim ∧ l ≤ x.2.stop + 1 ∧ Laid text x.2.start x.2.stop l x.1 x.2.pieces) ∧ LaidItems text lim hi x.2.stop xs

namespace LaidItems

variable {text : String} {lim lo mid hi : ℕ} {xs ys : List (List Edit × Item)}

/-- source text with the items in it -/
theorem stitch (h : LaidItems text lim hi lo xs) :
    Laid text lo hi lim (xs.flatMap Prod.fst) (Turnstile.stitch hi lo (xs.map Prod.snd)) := by
  induction xs generalizing lo with
  | nil => exact .source h.1 h.2
  | cons x xs ih =>
    obtain ⟨hlo, hboundary, ⟨l, hlim, hstop, hitem⟩, hrest⟩ := h
    have hgap : Laid text lo x.2.start 0 ([] : List Edit) [.source lo x.2.start] := .source hlo hboundary
    have hbehind := hitem.append (ih hrest) hstop hlim
    exact hgap.append hbehind (Nat.zero_le _) (Nat.zero_le _)

/-- code between items -/
theorem insertCode {offset : ℕ} {code : List (Snippet Address)} (h : LaidItems text lim offset lo xs)
    (h' : LaidItems text lim hi offset ys) (hlim : code = [] ∨ offset < lim) :
    LaidItems text lim hi lo (xs ++ (code.map (Insertion.opening (offset : ℤ)), Item.code offset code) :: ys) := by
  induction xs generalizing lo with
  | nil =>
    refine ⟨h.1, h.2, ?_, h'⟩
    rcases hlim with rfl | hlim
    · exact ⟨0, Nat.zero_le _, Nat.zero_le _, .nil⟩
    · have hnone : Laid text offset offset (offset + 1) ([] : List Edit) [] := .nil
      have hcode := hnone.openings code (Nat.lt_succ_self offset)
      exact ⟨offset + 1, hlim, le_rfl, by simpa [Item.code] using hcode⟩
  | cons x xs ih =>
    obtain ⟨hlo, hboundary, hitem, hrest⟩ := h
    exact ⟨hlo, hboundary, hitem, ih hrest⟩

end LaidItems

/-! ## Parts laid out -/

namespace Node

/-- how far what opens in a node may stand, with code at its top -/
def openLimit (data : ByteArray) (code : List (Snippet Address)) (n : Node) : ℕ :=
  if code = [] then n.span.stop else max n.span.stop (n.topOffset data + 1)

/-- the insertions for a node, with code at its top, are laid out as its rendering -/
def Renders (text : String) (data : ByteArray) (a : Address) (n : Node) : Prop :=
  ∀ code, (code = [] ∨ (n.top? data).isSome = true) → Laid text n.span.start n.span.stop (n.openLimit data code)
    (code.map (Insertion.opening (n.topOffset data : ℤ)) ++ n.inner data a) (n.render data a code)

/-- a part as it is written -/
def item (data : ByteArray) (x : (Address × Node) × Setting) : Item :=
  x.2.item (fun code => x.1.2.render data x.1.1 code) x.1.2

theorem render_eq (data : ByteArray) (a : Address) (n : Node) (code : List (Snippet Address)) : n.render data a code =
    stitch n.span.stop n.span.start (match n.top? data with
      | some (k, offset) => insertCode k offset code ((n.parts data a).map (item data))
      | none => (n.parts data a).map (item data)) ++ (n.missingElse a).toList.map .inserted := by
  have hitems : (n.parts data a).map (item data) = ((n.placed a).attach.zip (n.settings data a)).map fun
      y => (y.2 y.1.val).item (fun code => y.1.val.2.render data y.1.val.1 code) y.1.val.2 := by
    rw [parts, List.map_map]
    conv_lhs => rw [← List.attach_map_subtype_val (n.placed a), List.zip_map_left, List.map_map]
    rfl
  rw [hitems]
  exact render.eq_1 data a n code

end Node

namespace Setting

/-- a part has code at its top only if it has a top -/
def Suits (data : ByteArray) (n : Node) : Setting → Prop
  | around .. => True
  | atTop code => code = [] ∨ (n.top? data).isSome = true

/-- how far what opens in a part may stand -/
def openLimit (data : ByteArray) (n : Node) : Setting → ℕ
  | around .. => n.span.stop
  | atTop code => n.openLimit data code

variable {text : String} {data : ByteArray} {a : Address} {n : Node}

/-- **A part is laid out with what is added to it.** -/
theorem laid (setting : Setting) (hn : n.Renders text data a) (hlt : n.span.start < n.span.stop)
    (hsuits : setting.Suits data n) : Laid text n.span.start n.span.stop (setting.openLimit data n)
      (Node.partInsertions data ((a, n), setting)) (Node.item data ((a, n), setting)).pieces := by
  cases setting with
  | atTop code => exact hn code hsuits
  | around opener counters closer =>
    have hinner : Laid text n.span.start n.span.stop n.span.stop (n.inner data a) (n.render data a []) := by
      simpa [Node.openLimit] using hn [] (Or.inl rfl)
    have hcloser : Laid text n.span.start n.span.stop n.span.stop
        (closer.toList.map (Insertion.close (n.span.stop : ℤ)) ++ n.inner data a)
        (n.render data a [] ++ closer.toList.map .inserted) := by
      cases closer with
      | none => simpa using hinner
      | some closer => exact hinner.closing closer hlt le_rfl
    have hopeners := hcloser.openings (opener.toList ++ counters) hlt
    -- a bracket is recorded when it is opened and closed at once, the counters after that
    have hswap : SameOrder (counters.map (Insertion.opening (n.span.start : ℤ)) ++
        closer.toList.map (Insertion.close (n.span.stop : ℤ)))
          (closer.toList.map (Insertion.close (n.span.stop : ℤ)) ++
            counters.map (Insertion.opening (n.span.start : ℤ))) := by
      refine (SameOrder.swap_closings fun e he => ?_).symm
      obtain ⟨c, -, rfl⟩ := List.mem_map.1 he
      rfl
    have horder := ((SameOrder.refl (opener.toList.map (Insertion.opening (n.span.start : ℤ)))).append hswap).append
      (.refl (n.inner data a))
    have hlaid := hopeners.congr (by simpa [List.append_assoc] using horder)
    simpa [Node.item, Setting.item, Node.partInsertions, edits, insideEdits, openLimit, List.append_assoc] using hlaid

end Setting

namespace Node

/-- all that is needed of a part to lay it out among others: nothing in it opens at or behind `lim` -/
structure Ready (text : String) (data : ByteArray) (lim : ℕ) (x : (Address × Node) × Setting) : Prop where
  boundary : Boundary text x.1.2.span.start
  renders : x.1.2.Renders text data x.1.1
  suits : x.2.Suits data x.1.2
  limit : x.2.openLimit data x.1.2 ≤ lim
  limit_stop : x.2.openLimit data x.1.2 ≤ x.1.2.span.stop + 1

variable {text : String} {data : ByteArray} {lim lo hi : ℕ} {xs : List ((Address × Node) × Setting)}

theorem item_start (x : (Address × Node) × Setting) : (item data x).start = x.1.2.span.start := by
  obtain ⟨p, setting⟩ := x
  cases setting <;> rfl

theorem item_stop (x : (Address × Node) × Setting) : (item data x).stop = x.1.2.span.stop := by
  obtain ⟨p, setting⟩ := x
  cases setting <;> rfl

theorem laidItems_parts (h : InOrder hi lo (xs.map fun x => x.1.2)) (hhi : Boundary text hi)
    (hready : ∀ x ∈ xs, Ready text data lim x) :
    LaidItems text lim hi lo (xs.map fun x => (partInsertions data x, item data x)) := by
  induction xs generalizing lo with
  | nil => exact ⟨h, hhi⟩
  | cons x xs ih =>
    obtain ⟨hboundary, hrenders, hsuits, hlimit, hstop⟩ := hready x List.mem_cons_self
    refine ⟨?_, ?_, ⟨x.2.openLimit data x.1.2, hlimit, ?_, ?_⟩, ?_⟩
    · rw [item_start]
      exact h.1
    · rwa [item_start]
    · rwa [item_stop]
    · rw [item_start, item_stop]
      exact x.2.laid hrenders h.2.1 hsuits
    · rw [item_stop]
      exact ih h.2.2 fun y hy => hready y (List.mem_cons_of_mem _ hy)

/-- parts in order, with the source between them -/
theorem laid_parts (h : InOrder hi lo (xs.map fun x => x.1.2)) (hhi : Boundary text hi)
    (hready : ∀ x ∈ xs, Ready text data lim x) :
    Laid text lo hi lim (xs.flatMap (partInsertions data)) (stitch hi lo (xs.map (item data))) := by
  have hlaid := (laidItems_parts h hhi hready).stitch
  rwa [List.flatMap_map, List.map_map] at hlaid

/-- parts in order, with code behind the first `k` of them that was recorded before them -/
theorem laid_insertCode {k offset : ℕ} {code : List (Snippet Address)}
    (h : InOrder offset lo ((xs.take k).map fun x => x.1.2)) (h' : InOrder hi offset ((xs.drop k).map fun x => x.1.2))
    (hoffset : Boundary text offset) (hhi : Boundary text hi) (hcode : code = [] ∨ offset < lim)
    (hready : ∀ x ∈ xs, Ready text data lim x) (hbare : ∀ x ∈ xs, x.2.openLimit data x.1.2 ≤ x.1.2.span.stop) :
    Laid text lo hi lim (code.map (Insertion.opening (offset : ℤ)) ++ xs.flatMap (partInsertions data))
      (stitch hi lo (insertCode k offset code (xs.map (item data)))) := by
  have htake : ∀ x ∈ xs.take k, x ∈ xs := fun x hx => List.mem_of_mem_take hx
  have hdrop : ∀ x ∈ xs.drop k, x ∈ xs := fun x hx => List.mem_of_mem_drop hx
  have hfront : ∀ x ∈ xs.take k, Ready text data offset x := fun x hx => by
    obtain ⟨hboundary, hrenders, hsuits, -, hstop⟩ := hready x (htake x hx)
    have hend := (h.of_mem (List.mem_map_of_mem hx)).2.2
    exact ⟨hboundary, hrenders, hsuits, (hbare x (htake x hx)).trans hend, hstop⟩
  have hwithin := (laid_parts h hoffset hfront).within
  have hlaid := ((laidItems_parts h hoffset fun x hx => hready x (htake x hx)).insertCode
    (laidItems_parts h' hhi fun x hx => hready x (hdrop x hx)) hcode).stitch
  -- the code was recorded before the parts in front of it, but does not meet their insertions
  have hcodes : Within offset offset (offset + 1) (code.map (Insertion.opening (offset : ℤ))) :=
    .of_openings code le_rfl (Nat.lt_succ_self offset)
  have horder := (hwithin.swap hcodes le_rfl le_rfl).append (.refl ((xs.drop k).flatMap (partInsertions data)))
  have hpieces : insertCode k offset code (xs.map (item data)) =
      (xs.take k).map (item data) ++ Item.code offset code :: (xs.drop k).map (item data) := by
    rw [insertCode, List.map_take, List.map_drop]
  simp only [List.flatMap_append, List.flatMap_cons, List.flatMap_map, List.map_append, List.map_cons, List.map_map] at hlaid
  rw [← List.append_assoc] at hlaid
  have hall := hlaid.congr horder
  rw [List.append_assoc, ← List.flatMap_append, List.take_append_drop] at hall
  rw [hpieces]
  exact hall

end Node

/-! ## What is added to the parts of a node -/

namespace Setting

/-- brackets around a part -/
def IsAround : Setting → Prop
  | around .. => True
  | atTop _ => False

variable (data : ByteArray) (p : Address × Node) (counter : Counter Address)

variable {data} in
theorem IsAround.suits {n : Node} {s : Setting} (h : s.IsAround) : s.Suits data n := by
  cases s with
  | around => trivial
  | atTop => cases h

variable {data} in
theorem IsAround.openLimit_eq {n : Node} {s : Setting} (h : s.IsAround) : s.openLimit data n = n.span.stop := by
  cases s with
  | around => rfl
  | atTop => cases h

variable {data} in
theorem suits_of_top? {n : Node} (s : Setting) (h : (n.top? data).isSome = true) : s.Suits data n := by
  cases s with
  | around => trivial
  | atTop => exact Or.inr h

variable {data} in
theorem openLimit_le {n : Node} (s : Setting) {limit : ℕ} (h : n.span.stop ≤ limit)
    (hcode : ∀ code, n.openLimit data code ≤ limit) : s.openLimit data n ≤ limit := by
  cases s with
  | around => exact h
  | atTop code => exact hcode code

theorem isAround_arm_or (counter : Option (Counter Address)) : (arm counter p).IsAround ∨ p.2.isBlock = true := by
  unfold arm
  split
  · next hblock => exact Or.inr (by rw [hblock]; rfl)
  · split <;> exact Or.inl trivial

theorem isAround_body_or : (body data counter p).IsAround ∨ p.2.isBlock = true := by
  unfold body
  split
  · next hblock => exact Or.inr (by rw [hblock]; rfl)
  · exact Or.inl trivial

end Setting

namespace Node

variable {text : String} {data : ByteArray} {a : Address} {n : Node}

theorem isAround_or_of_early (hearly : n.bracketsEarly = true) {s : Address × Node → Setting}
    (hs : s ∈ n.settings data a) (p : Address × Node) : (s p).IsAround ∨ p.2.isBlock = true := by
  cases n with
  | conditional span test consequent alternate =>
    simp only [settings, List.mem_append, List.mem_map] at hs
    rcases hs with (⟨_, -, rfl⟩ | ⟨_, -, rfl⟩) | ⟨_, -, rfl⟩ <;> exact Or.inl trivial
  | logical span operator left right =>
    simp only [settings, List.mem_append, List.mem_map] at hs
    rcases hs with ⟨_, -, rfl⟩ | ⟨_, -, rfl⟩ <;> exact Or.inl trivial
  | function span form name parameters body =>
    simp only [settings, List.mem_append, List.mem_map] at hs
    rcases hs with ⟨_, -, rfl⟩ | ⟨_, -, rfl⟩
    · exact Or.inl trivial
    · exact Setting.isAround_body_or data p _
  | _ => cases hearly

/-- code stands at the top of blocks and of the clauses of a switch only -/
theorem isAround_or {x : (Address × Node) × Setting} (hx : x ∈ n.parts data a)
    (hclauses : ∀ c ∈ n.clauses, c.isClause = true) (hready : n.isFunction = false → ∀ c ∈ n.children, c.StartsPlain) :
    x.2.IsAround ∨ x.1.2.isBlock = true ∨ x.1.2 ∈ n.clauses ∧ x.1.2.isClause = true := by
  cases hlabel : n.isLabeled with
  | true =>
    obtain ⟨span, label, body, rfl⟩ := exists_of_isLabeled hlabel
    obtain rfl : x = ((a.child 0, body), .around none [] none) := by
      simpa [parts, placed, children, placedFrom, settings] using hx
    exact Or.inl trivial
  | false =>
    cases hearly : n.bracketsEarly with
    | true =>
      obtain ⟨y, hy, rfl⟩ := List.mem_map.1 hx
      exact (isAround_or_of_early hearly (List.of_mem_zip hy).2 y.1).imp_right Or.inl
    | false =>
      have hfunction : n.isFunction = false := by
        cases n <;> first | rfl | cases hearly
      rw [parts_eq_of_roles data a hlabel hearly hclauses] at hx
      obtain ⟨⟨p, role⟩, hy, rfl⟩ := List.mem_map.1 hx
      have hfits := fits_of_mem_zip a hclauses (hready hfunction) hy
      cases role with
      | plain => exact Or.inl trivial
      | arm slot => exact (Setting.isAround_arm_or p _).imp_right Or.inl
      | clause slot offset => exact Or.inr (Or.inr ⟨hfits.1, hclauses _ hfits.1⟩)

theorem openLimit_of_isBlock (hn : n.isBlock = true) (h : n.PartsInOrder) (code : List (Snippet Address)) :
    n.openLimit data code = n.span.stop := by
  cases n with
  | block span body =>
    have hoffset := (InOrder.afterDirectives data h).2.1.le
    have htop : (block span body).topOffset data = (afterDirectives data body (span.start + 1)).1 := rfl
    have hstart := InOrder.le h
    have hlt : (block span body).topOffset data + 1 ≤ span.stop := by rw [htop]; omega
    unfold openLimit
    split
    · rfl
    · exact max_eq_left hlt
  | _ => cases hn

theorem openLimit_of_isClause {hi : ℕ} (hn : n.isClause = true) (h : n.PartsInOrder) (hcounts : n.CountsBefore hi)
    (hstop : n.span.stop ≤ hi) (code : List (Snippet Address)) :
    n.openLimit data code ≤ hi ∧ n.openLimit data code ≤ n.span.stop + 1 := by
  cases n with
  | switchCase span test body offset =>
    have hoffset := h.2.le
    have htop : (switchCase span test body offset).topOffset data = offset := rfl
    have hlt : offset < hi := hcounts
    have hspan : (switchCase span test body offset).span = span := rfl
    rw [hspan] at hstop
    unfold openLimit
    rw [htop, hspan]
    split <;> omega
  | _ => cases hn

/-- what the induction knows of a part -/
structure PartKnown (text : String) (data : ByteArray) (p : Address × Node) : Prop where
  renders : p.2.Renders text data p.1
  inOrder : p.2.PartsInOrder
  boundary : Boundary text p.2.span.start
  boundary_stop : Boundary text p.2.span.stop

theorem ready_of_mem_parts {x : (Address × Node) × Setting} (hx : x ∈ n.parts data a)
    (hclauses : ∀ c ∈ n.clauses, c.isClause = true) (hready : n.isFunction = false → ∀ c ∈ n.children, c.StartsPlain)
    (horder : n.PartsInOrder) (hknown : PartKnown text data x.1) : Ready text data n.span.stop x := by
  obtain ⟨hrenders, hinside, hboundary, -⟩ := hknown
  obtain ⟨-, -, hstop⟩ := horder.inside (mem_of_mem_placedFrom (mem_placed_of_mem_parts hx))
  rcases isAround_or hx hclauses hready with haround | hblock | ⟨hmem, hclause⟩
  · have hlimit : x.2.openLimit data x.1.2 = x.1.2.span.stop := haround.openLimit_eq
    exact ⟨hboundary, hrenders, haround.suits, by omega, by omega⟩
  · have hlimit : ∀ code, x.1.2.openLimit data code = x.1.2.span.stop := openLimit_of_isBlock hblock hinside
    have htop : (x.1.2.top? data).isSome = true := by
      cases hx2 : x.1.2 <;> first | rfl | simp [hx2, isBlock] at hblock
    exact ⟨hboundary, hrenders, x.2.suits_of_top? htop, x.2.openLimit_le hstop fun code => by rw [hlimit]; exact hstop,
      x.2.openLimit_le (Nat.le_succ _) fun code => by rw [hlimit]; exact Nat.le_succ _⟩
  · have hlimit : ∀ code, x.1.2.openLimit data code ≤ n.span.stop ∧ x.1.2.openLimit data code ≤ x.1.2.span.stop + 1 :=
      openLimit_of_isClause hclause hinside (horder.countsBefore hmem) hstop
    have htop : (x.1.2.top? data).isSome = true := by
      cases hx2 : x.1.2 <;> first | rfl | simp [hx2, isClause] at hclause
    exact ⟨hboundary, hrenders, x.2.suits_of_top? htop, x.2.openLimit_le hstop fun code => (hlimit code).1,
      x.2.openLimit_le (Nat.le_succ _) fun code => (hlimit code).2⟩

theorem Ready.mono {lim lim' : ℕ} {x : (Address × Node) × Setting} (h : Ready text data lim x) (hlim : lim ≤ lim') :
    Ready text data lim' x := ⟨h.boundary, h.renders, h.suits, h.limit.trans hlim, h.limit_stop⟩

/-! ## A node with its parts -/

theorem elseEdits_of_bracketsEarly (a : Address) (h : n.bracketsEarly = true) : n.elseEdits a = [] := by
  cases n <;> first | rfl | cases h

theorem openLimit_of_early {x : (Address × Node) × Setting} (hx : x ∈ n.parts data a) (hearly : n.bracketsEarly = true)
    (hknown : PartKnown text data x.1) : x.2.openLimit data x.1.2 ≤ x.1.2.span.stop := by
  obtain ⟨y, hy, rfl⟩ := List.mem_map.1 hx
  rcases isAround_or_of_early hearly (List.of_mem_zip hy).2 y.1 with haround | hblock
  · exact haround.openLimit_eq.le
  · exact Setting.openLimit_le _ le_rfl fun code => (openLimit_of_isBlock hblock hknown.inOrder code).le

/-- **Recorded in any pass, the insertions for a node stand part by part.** -/
theorem inner_sameOrder (hclauses : ∀ c ∈ n.clauses, c.isClause = true)
    (hready : n.isFunction = false → ∀ c ∈ n.children, c.StartsPlain) (hcomplete : n.isComplete = true)
    (horder : n.PartsInOrder) (hknown : ∀ p ∈ n.placed a, PartKnown text data p) :
    SameOrder (n.inner data a) (n.elseEdits a ++ (n.parts data a).flatMap (partInsertions data)) := by
  cases hlabel : n.isLabeled with
  | true =>
    obtain ⟨span, label, body, rfl⟩ := exists_of_isLabeled hlabel
    rw [inner_labeled]
    have hparts : (labeled span label body).parts data a = [((a.child 0, body), .around none [] none)] := rfl
    rw [hparts]
    simpa [elseEdits, partInsertions, Setting.edits, Setting.insideEdits] using SameOrder.refl _
  | false =>
    cases hearly : n.bracketsEarly with
    | false =>
      have hfunction : n.isFunction = false := by
        cases n <;> first | rfl | cases hearly
      rw [inner_eq_of_roles data a hlabel hearly hclauses (hready hfunction)]
      exact .refl _
    | true =>
      rw [inner_eq_of_early data a hearly hcomplete, elseEdits_of_bracketsEarly a hearly, List.nil_append]
      -- the brackets of a part were recorded before what is inside the parts in front of it
      refine .interleave ?_
      have hpairwise := horder.pairwise
      rw [← map_node_parts data a n, List.pairwise_map] at hpairwise
      refine hpairwise.imp_of_mem fun {x y} hx hy hxy e he e' he' => ?_
      have hlaid : ∀ z ∈ n.parts data a, Laid text z.1.2.span.start z.1.2.span.stop (z.2.openLimit data z.1.2)
          (partInsertions data z) (item data z).pieces := by
        intro z hz
        have hmem := mem_placed_of_mem_parts hz
        have hlt := (horder.inside (mem_of_mem_placedFrom hmem)).2.1
        exact z.2.laid (hknown z.1 hmem).renders hlt (ready_of_mem_parts hz hclauses hready horder (hknown z.1 hmem)).suits
      have hlimit := openLimit_of_early hx hearly (hknown x.1 (mem_placed_of_mem_parts hx))
      exact (hlaid x hx).within.key_ne (hlaid y hy).within hxy (hlimit.trans hxy) e (List.mem_append_right _ he)
        e' (List.mem_append_left _ he')

/-- what follows an `if` without an else is what it inserts behind itself -/
theorem missingElse_cases (a : Address) (n : Node) : n.elseEdits a = [] ∧ n.missingElse a = none ∨
    ∃ s c, n.elseEdits a = [.close n.span.stop s] ∧ n.missingElse a = some s ∧ c ∈ n.children := by
  cases n with
  | ifStatement span test consequent alternate =>
    cases alternate with
    | none => exact Or.inr ⟨_, consequent, rfl, rfl, by simp [children]⟩
    | some => exact Or.inl ⟨rfl, rfl⟩
  | _ => exact Or.inl ⟨rfl, rfl⟩

theorem isAround_of_top? {x : (Address × Node) × Setting} (hx : x ∈ n.parts data a)
    (htop : (n.top? data).isSome = true) : x.2.IsAround := by
  obtain ⟨y, hy, rfl⟩ := List.mem_map.1 hx
  have hs := (List.of_mem_zip hy).2
  cases n with
  | block | switchCase =>
    obtain ⟨_, -, hbare⟩ := List.mem_map.1 hs
    rw [← hbare]
    trivial
  | _ => cases htop

/-- a node without a top: its parts, and what follows an `if` without an else -/
theorem laid_of_no_top (htop : n.top? data = none) (horder : n.PartsInOrder) (hstop : Boundary text n.span.stop)
    (hparts : ∀ x ∈ n.parts data a, Ready text data n.span.stop x) :
    Laid text n.span.start n.span.stop n.span.stop (n.elseEdits a ++ (n.parts data a).flatMap (partInsertions data))
      (stitch n.span.stop n.span.start ((n.parts data a).map (item data)) ++
        (n.missingElse a).toList.map .inserted) := by
  have hinOrder := horder.inOrder htop
  rw [← map_node_parts data a n] at hinOrder
  have hlaid := laid_parts hinOrder hstop hparts
  rcases missingElse_cases a n with ⟨helse, hmissing⟩ | ⟨s, c, helse, hmissing, hc⟩
  · rw [helse, hmissing]
    simpa using hlaid
  · obtain ⟨h1, h2, h3⟩ := horder.inside hc
    rw [helse, hmissing]
    simpa using hlaid.closing s (by omega) le_rfl

/-- a node with a top: code between the parts in front of it and those behind it -/
theorem laid_of_top {k offset : ℕ} (htop : n.top? data = some (k, offset)) (horder : n.PartsInOrder)
    (hoffsets : ∀ o ∈ n.offsets, Boundary text o) (hknown : ∀ p ∈ n.placed a, PartKnown text data p)
    (hparts : ∀ x ∈ n.parts data a, Ready text data n.span.stop x) (code : List (Snippet Address)) :
    Laid text n.span.start n.span.stop (n.openLimit data code)
      (code.map (Insertion.opening (offset : ℤ)) ++ (n.parts data a).flatMap (partInsertions data))
      (stitch n.span.stop n.span.start (insertCode k offset code ((n.parts data a).map (item data)))) := by
  have hstops : ∀ c ∈ n.children, Boundary text c.span.stop := by
    intro c hc
    obtain ⟨p, hp, rfl⟩ := exists_mem_placed a hc
    exact (hknown p hp).boundary_stop
  obtain ⟨hfront, hback, hboundary⟩ := horder.split hoffsets hstops htop
  rw [← map_node_parts data a n, ← List.map_take] at hfront
  rw [← map_node_parts data a n, ← List.map_drop] at hback
  have hlimit : n.span.stop ≤ n.openLimit data code := by
    unfold openLimit
    split
    · exact le_rfl
    · exact le_max_left _ _
  have hcode : code = [] ∨ offset < n.openLimit data code := by
    by_cases hnone : code = []
    · exact Or.inl hnone
    · have htopOffset : n.topOffset data = offset := by simp [topOffset, htop]
      rw [openLimit, if_neg hnone, htopOffset]
      exact Or.inr (lt_of_lt_of_le (Nat.lt_succ_self _) (le_max_right _ _))
  refine laid_insertCode hfront hback hboundary (hoffsets _ (stop_mem_offsets n)) hcode (fun x hx => ?_) fun x hx => ?_
  · exact (hparts x hx).mono hlimit
  · exact (isAround_of_top? hx (by simp [htop])).openLimit_eq.le

/-- **A node is laid out if its parts are.** -/
theorem renders_of_parts (hclauses : ∀ c ∈ n.clauses, c.isClause = true)
    (hready : n.isFunction = false → ∀ c ∈ n.children, c.StartsPlain) (hcomplete : n.isComplete = true)
    (horder : n.PartsInOrder) (hoffsets : ∀ o ∈ n.offsets, Boundary text o)
    (hknown : ∀ p ∈ n.placed a, PartKnown text data p) : n.Renders text data a := by
  intro code hcode
  have hsame := inner_sameOrder hclauses hready hcomplete horder hknown
  have hparts : ∀ x ∈ n.parts data a, Ready text data n.span.stop x := fun x hx =>
    ready_of_mem_parts hx hclauses hready horder (hknown x.1 (mem_placed_of_mem_parts hx))
  refine Laid.congr ?_ ((SameOrder.refl (code.map _)).append hsame.symm)
  rw [render_eq]
  cases htop : n.top? data with
  | none =>
    obtain rfl : code = [] := hcode.resolve_right (by simp [htop])
    have hlimit : n.openLimit data [] = n.span.stop := if_pos rfl
    rw [hlimit]
    exact laid_of_no_top htop horder (hoffsets _ (stop_mem_offsets n)) hparts
  | some top =>
    obtain ⟨k, offset⟩ := top
    have htopOffset : n.topOffset data = offset := by simp [topOffset, htop]
    obtain ⟨helse, hmissing⟩ : n.elseEdits a = [] ∧ n.missingElse a = none := by
      cases n <;> first | exact ⟨rfl, rfl⟩ | cases htop
    rw [helse, hmissing, htopOffset]
    simpa using laid_of_top htop horder hoffsets hknown hparts code

/-! ## Programs -/

theorem startsPlain_of_wellPlaced (h : WellPlaced false n) : n.StartsPlain := by
  cases h with
  | function => trivial
  | other notFunction plain clauses placed =>
    cases n with
    | block span body =>
      cases body with
      | nil => rfl
      | cons d body => exact List.takeWhile_cons_of_neg (by simp [plain d List.mem_cons_self])
    | _ => trivial

theorem Laminar.partKnown {p : Address × Node} (h : n.Laminar text a) (hp : p ∈ n.placed a)
    (hrenders : p.2.Renders text data p.1) : PartKnown text data p :=
  have hmem := mem_preorder_of_mem_placed hp (self_mem_preorder p.1 p.2)
  ⟨hrenders, h.inOrder p hmem, h.boundary p hmem _ (start_mem_offsets p.2), h.boundary p hmem _ (stop_mem_offsets p.2)⟩

/-- **Sorting realizes nesting.** In a well placed program whose nodes are complete and nest, every node's insertions, put
in text order, lead through the rendering of the node. -/
theorem renders_of_wellPlaced {begins : Bool} (hw : WellPlaced begins n) (a : Address)
    (hlaminar : n.Laminar text a) (hcomplete : ∀ p ∈ n.preorder a, p.2.isComplete = true) : n.Renders text data a := by
  induction hw generalizing a with
  | other notFunction plain clauses placed ih =>
    refine renders_of_parts clauses (fun _ c hc => startsPlain_of_wellPlaced (placed c hc))
      (hcomplete _ (self_mem_preorder a _)) (hlaminar.inOrder _ (self_mem_preorder a _))
      (hlaminar.boundary _ (self_mem_preorder a _)) fun p hp => hlaminar.partKnown hp ?_
    exact ih p.2 (mem_of_mem_placedFrom hp) p.1 (hlaminar.of_mem_placed hp)
      fun q hq => hcomplete q (mem_preorder_of_mem_placed hp hq)
  | @function begins span form name parameters body parametersPlain parametersPlaced bodyPlain bodyPlaced ihp ihb =>
    refine renders_of_parts (by simp [clauses]) (by simp [isFunction]) (hcomplete _ (self_mem_preorder a _))
      (hlaminar.inOrder _ (self_mem_preorder a _)) (hlaminar.boundary _ (self_mem_preorder a _))
      fun p hp => hlaminar.partKnown hp ?_
    have hinside : ∀ q ∈ p.2.preorder p.1, q.2.isComplete = true :=
      fun q hq => hcomplete q (mem_preorder_of_mem_placed hp hq)
    rcases List.mem_append.1 (mem_of_mem_placedFrom hp) with hmem | hmem
    · exact ihp p.2 hmem p.1 (hlaminar.of_mem_placed hp) hinside
    · exact ihb p.2 (Option.mem_toList.1 hmem) p.1 (hlaminar.of_mem_placed hp) hinside

end Node

end Turnstile
