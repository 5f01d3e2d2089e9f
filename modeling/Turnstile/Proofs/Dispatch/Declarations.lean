/-
Handlers by what is declared.

A walker has the handlers it declares and, for all other keys, those of the walkers it extends. The handler for a class is
that of the nearest class of its ancestry that a handler is declared for, or else the default.
- `declaredFor`, `handlerFor`, `entryFor`: the handlers that some layers of declarations give a key, a class and calls;
- `get?_declared?`, `get?_extendAll`, `entry_extendAll`: what the table of a new walker holds, and what calls of it run;
- `Reaches`, `handlerFor_append`, `handlerFor_of_suffix`: what a choice comes to, and layers and classes that make no
  difference for it;
- `nodeHierarchy`: the classes of nodes, each of which derives from one other at most.
-/
import Mathlib.Tactic
import Turnstile.Dispatch
import Turnstile.Proofs.Coverage.Tables
import Turnstile.Proofs.Program.Reading

namespace Turnstile

variable {η : Type}

/-! ## What is declared -/

def HandlerDeclaration.declares (d : HandlerDeclaration) (k : HandlerKey) : Bool :=
  match d.keys with
  | .ok ks => ks.contains k
  | .error _ => false

/-- the handlers that one walker declares -/
abbrev Layer (η : Type) := List (HandlerMethod η)

def Layer.handler? (layer : Layer η) (k : HandlerKey) : Option η :=
  (layer.find? fun m => m.declaration.declares k).map (·.handler)

/-- the handler that the nearest walker declares for a key -/
def declaredFor (layers : List (Layer η)) (k : HandlerKey) : Option η := layers.findSome? fun l => Layer.handler? l k

/-- the handler that the nearest walker puts in place of a choice -/
def entryFor (layers : List (Layer η)) : Option η := layers.findSome? Walker.entryOf

/-- classes of values, each with those it derives from, nearest first -/
structure Hierarchy where
  ancestry : NodeClass → List NodeClass
  head?_ancestry : ∀ c, (ancestry c).head? = some c
  nodup_ancestry : ∀ c, (ancestry c).Nodup

/-- every class derives from one other at most -/
def Hierarchy.Single (H : Hierarchy) : Prop := ∀ c, ∀ a ∈ H.ancestry c, H.ancestry a <:+ H.ancestry c

/-- the handler for a class by what is declared: that of the nearest class with one, or else the default -/
def handlerFor (H : Hierarchy) (layers : List (Layer η)) (c : NodeClass) : Option η :=
  ((H.ancestry c).findSome? fun a => declaredFor layers (.cls a)).or (declaredFor layers .default)

/-- what a choice for a class looks at, in order: the classes of its ancestry, then the default -/
def Hierarchy.keys (H : Hierarchy) (c : NodeClass) : List HandlerKey := (H.ancestry c).map .cls ++ [.default]

/-- a choice for a class comes to a key: no handler is declared for anything nearer -/
def Reaches (H : Hierarchy) (layers : List (Layer η)) (c : NodeClass) (k : HandlerKey) : Prop :=
  ∃ front back, H.keys c = front ++ k :: back ∧ ∀ j ∈ front, declaredFor layers j = none

/-! ## The table of a new walker -/

theorem contains_iff {ν : Type} {t : OrderedMap HandlerKey ν} {k : HandlerKey} :
    t.contains k = true ↔ ∃ v, t.get? k = some v := by
  rw [OrderedMap.contains, List.contains_iff_mem, OrderedMap.mem_keys_iff]

theorem get?_addMissing (es : List (HandlerKey × η)) (t : OrderedMap HandlerKey η) (k : HandlerKey) :
    (es.foldl (fun t e => if t.contains e.1 then t else t.put e.1 e.2) t).get? k =
      (t.get? k).or ((es.find? fun e => e.1 = k).map (·.2)) := by
  induction es generalizing t with
  | nil => rw [List.foldl_nil, List.find?_nil, Option.map_none, Option.or_none]
  | cons e es ih =>
    rw [List.foldl_cons, ih]
    by_cases hk : e.1 = k
    · subst hk
      rw [List.find?_cons_of_pos (by simp)]
      split
      · next hmem =>
        obtain ⟨v, hv⟩ := contains_iff.1 hmem
        rw [hv, Option.some_or, Option.some_or]
      · next hmem =>
        have hnone : t.get? e.1 = none := by
          rw [Option.eq_none_iff_forall_ne_some]
          exact fun v hv => hmem (contains_iff.2 ⟨v, hv⟩)
        rw [OrderedMap.get?_put, if_pos rfl, hnone, Option.some_or, Option.none_or, Option.map_some]
    · rw [List.find?_cons_of_neg (by simpa using hk)]
      split
      · rfl
      · rw [OrderedMap.get?_put, if_neg (Ne.symm hk)]

namespace Walker

variable {name : String} {layer : Layer η} {w base : Walker η} {own : OrderedMap HandlerKey η}

theorem get?_inherit (w base : Walker η) (k : HandlerKey) :
    (w.inherit base).table.get? k = (w.table.get? k).or (base.table.get? k) :=
  get?_addMissing base.table.entries w.table k

/-- what a walker does not have itself, it has from the nearest of those it extends -/
theorem get?_foldl_inherit (w : Walker η) (bases : List (Walker η)) (k : HandlerKey) :
    (bases.foldl inherit w).table.get? k = (w.table.get? k).or (bases.findSome? fun b => b.table.get? k) := by
  induction bases generalizing w with
  | nil => rw [List.foldl_nil, List.findSome?_nil, Option.or_none]
  | cons b bases ih =>
    rw [List.foldl_cons, ih, get?_inherit, Option.or_assoc, List.findSome?_cons]
    cases b.table.get? k <;> rfl

/-- what calls run comes from the nearest walker that says so -/
theorem entry_foldl_inherit (w : Walker η) (bases : List (Walker η)) :
    (bases.foldl inherit w).entry = w.entry.or (bases.findSome? Walker.entry) := by
  induction bases generalizing w with
  | nil => rw [List.foldl_nil, List.findSome?_nil, Option.or_none]
  | cons b bases ih =>
    have hinherit : (w.inherit b).entry = w.entry.or b.entry := rfl
    rw [List.foldl_cons, ih, hinherit, Option.or_assoc, List.findSome?_cons]
    cases b.entry <;> rfl

/-- handlers are entered in their order, each under a key of its own -/
theorem entries_foldlM_addHandler {es : List (HandlerKey × η)} {t own : OrderedMap HandlerKey η}
    (h : es.foldlM (addHandler name) t = .ok own) : own.entries = t.entries ++ es := by
  induction es generalizing t with
  | nil =>
    cases h
    rw [List.append_nil]
  | cons e es ih =>
    rw [List.foldlM_cons, bind_eq_ok_iff] at h
    obtain ⟨next, hnext, h⟩ := h
    unfold addHandler at hnext
    split at hnext
    · cases hnext
    · next hnew =>
      cases hnext
      have hnot : e.1 ∉ t.entries.map (·.1) := fun hmem => hnew (List.contains_iff_mem.2 hmem)
      have hput : (t.put e.1 e.2).entries = t.entries ++ [e] := OrderedMap.putEntry_of_not_mem hnot
      rw [ih h, hput, List.append_assoc, List.singleton_append]

theorem find?_map_mk (ks : List HandlerKey) (v : η) (k : HandlerKey) :
    ((ks.map (·, v)).find? fun e => e.1 = k).map (·.2) = if ks.contains k then some v else none := by
  induction ks with
  | nil => rfl
  | cons key ks ih =>
    by_cases hkey : key = k
    · simp [hkey]
    · have hne : k ≠ key := Ne.symm hkey
      simpa [hkey, hne] using ih

theorem find?_keyed {m : HandlerMethod η} {es : List (HandlerKey × η)} (h : keyed m = .ok es) (k : HandlerKey) :
    (es.find? fun e => e.1 = k).map (·.2) = if m.declaration.declares k then some m.handler else none := by
  obtain ⟨ks, hkeys, h⟩ := bind_eq_ok_iff.1 h
  cases h
  rw [HandlerDeclaration.declares, hkeys, find?_map_mk]

theorem find?_flatten_keyed {entries : List (List (HandlerKey × η))}
    (h : List.Forall₂ (fun m es => keyed m = .ok es) layer entries) (k : HandlerKey) :
    (entries.flatten.find? fun e => e.1 = k).map (·.2) = layer.handler? k := by
  induction h with
  | nil => rfl
  | @cons m es layer entries hm _ ih =>
    rw [List.flatten_cons, List.find?_append, Option.map_or, find?_keyed hm, ih, Layer.handler?, Layer.handler?,
      List.find?_cons]
    cases m.declaration.declares k <;> rfl

/-- **The handlers that a walker declares itself** are those of its declarations. -/
theorem get?_declared? (h : declared? name layer = .ok own) (k : HandlerKey) : own.get? k = layer.handler? k := by
  obtain ⟨entries, hentries, h⟩ := bind_eq_ok_iff.1 h
  rw [OrderedMap.get?, entries_foldlM_addHandler h]
  exact find?_flatten_keyed (forall₂_of_mapM hentries) k

/-- a new walker has what it declares, and else what the nearest walker has that it extends -/
theorem get?_extendAll {bases : List (Walker η)} (h : extendAll bases name layer = .ok w) (k : HandlerKey) :
    w.table.get? k = (layer.handler? k).or (bases.findSome? fun b => b.table.get? k) := by
  obtain ⟨own, hown, h⟩ := bind_eq_ok_iff.1 h
  cases h
  rw [get?_foldl_inherit, get?_declared? hown]

theorem entry_extendAll {bases : List (Walker η)} (h : extendAll bases name layer = .ok w) :
    w.entry = (entryOf layer).or (bases.findSome? Walker.entry) := by
  obtain ⟨own, -, h⟩ := bind_eq_ok_iff.1 h
  cases h
  exact entry_foldl_inherit _ _

end Walker

/-! ## What is declared decides -/

section Declared

variable {H : Hierarchy} {layer : Layer η} {later layers : List (Layer η)} {a c : NodeClass} {k : HandlerKey} {h : η}

theorem declaredFor_append : declaredFor (later ++ layers) k = (declaredFor later k).or (declaredFor layers k) :=
  List.findSome?_append

theorem declaredFor_cons : declaredFor (layer :: layers) k = (layer.handler? k).or (declaredFor layers k) := by
  rw [declaredFor, List.findSome?_cons]
  cases layer.handler? k <;> rfl

theorem entryFor_cons : entryFor (layer :: layers) = (Walker.entryOf layer).or (entryFor layers) := by
  rw [entryFor, List.findSome?_cons]
  cases Walker.entryOf layer <;> rfl

theorem entryFor_of_suffix (hsuffix : layers <:+ later) (h : entryFor later = none) : entryFor layers = none :=
  List.findSome?_eq_none_iff.2 fun l hl => List.findSome?_eq_none_iff.1 h l (hsuffix.subset hl)

/-- what a walker does not declare anew is declared as above it -/
theorem declaredFor_of_above (h : declaredFor (later ++ layers) k = none) : declaredFor layers k = none :=
  (Option.or_eq_none_iff.1 (declaredFor_append.symm.trans h)).2

theorem reaches_self (H : Hierarchy) (layers : List (Layer η)) (c : NodeClass) : Reaches H layers c (.cls c) := by
  obtain ⟨above, habove⟩ := List.head?_eq_some_iff.1 (H.head?_ancestry c)
  exact ⟨[], above.map .cls ++ [.default], by rw [Hierarchy.keys, habove]; rfl, by simp⟩

theorem reaches_of_ancestry {front back : List NodeClass} (hancestry : H.ancestry c = front ++ a :: back)
    (hfront : ∀ b ∈ front, declaredFor layers (.cls b) = none) : Reaches H layers c (.cls a) :=
  ⟨front.map .cls, back.map .cls ++ [.default], by simp [Hierarchy.keys, hancestry], by simpa using hfront⟩

theorem Reaches.mem_ancestry (h : Reaches H layers c (.cls a)) : a ∈ H.ancestry c := by
  obtain ⟨front, back, hkeys, -⟩ := h
  have hmem : HandlerKey.cls a ∈ H.keys c := by simp [hkeys]
  simpa [Hierarchy.keys] using hmem

/-- a choice comes to what the choice for a class comes to that it came to -/
theorem Reaches.of_suffix {front : List NodeClass} (hancestry : H.ancestry c = front ++ H.ancestry a)
    (hfront : ∀ b ∈ front, declaredFor layers (.cls b) = none) (h : Reaches H layers a k) : Reaches H layers c k := by
  obtain ⟨front', back, hkeys, hfront'⟩ := h
  refine ⟨front.map .cls ++ front', back, ?_, ?_⟩
  · rw [Hierarchy.keys, hancestry, List.map_append, List.append_assoc, List.append_assoc, ← hkeys]
    rfl
  · simpa [or_imp, forall_and] using ⟨hfront, hfront'⟩

/-- a choice comes to what it would come to with further declarations -/
theorem Reaches.of_append (h : Reaches H (later ++ layers) c k) : Reaches H layers c k := by
  obtain ⟨front, back, hkeys, hfront⟩ := h
  exact ⟨front, back, hkeys, fun j hj => declaredFor_of_above (hfront j hj)⟩

/-- declarations for nothing that a choice comes to -/
theorem Reaches.append (hlater : ∀ j, Reaches H layers c j → declaredFor later j = none) (h : Reaches H layers c k) :
    Reaches H (later ++ layers) c k := by
  obtain ⟨front, back, hkeys, hfront⟩ := h
  refine ⟨front, back, hkeys, fun j hj => ?_⟩
  obtain ⟨front', back', rfl⟩ := List.append_of_mem hj
  have hj' : Reaches H layers c j :=
    ⟨front', back' ++ k :: back, by rw [hkeys, List.append_assoc, List.cons_append], fun i hi =>
      hfront i (List.mem_append_left _ hi)⟩
  rw [declaredFor_append, hlater j hj', Option.none_or, hfront j hj]

/-- a choice does not go past a key that a handler is declared for -/
theorem Reaches.mem_of_declared (h : Reaches H layers c k) {front back : List HandlerKey} {d : HandlerKey}
    (hkeys : H.keys c = front ++ d :: back) (hd : declaredFor layers d ≠ none) : k ∈ front ++ [d] := by
  obtain ⟨front', back', hkeys', hfront⟩ := h
  rcases List.append_eq_append_iff.1 (hkeys'.symm.trans hkeys) with ⟨between, rfl, hrest⟩ | ⟨between, rfl, hrest⟩
  · cases between with
    | nil => simp [(List.cons.inj hrest).1]
    | cons j between => simp [(List.cons.inj hrest).1]
  · cases between with
    | nil => simp [(List.cons.inj hrest).1]
    | cons j between =>
      obtain ⟨rfl, -⟩ := List.cons.inj hrest
      exact absurd (hfront d (by simp)) hd

theorem handlerFor_eq_findSome? : handlerFor H layers c = (H.keys c).findSome? (declaredFor layers) := by
  rw [handlerFor, Hierarchy.keys, List.findSome?_append, List.findSome?_map, List.findSome?_singleton]
  rfl

/-- **Declarations that a choice does not come to** make no difference for it. -/
theorem handlerFor_append (hlater : ∀ k, Reaches H layers c k → declaredFor later k = none) :
    handlerFor H (later ++ layers) c = handlerFor H layers c := by
  have hrest : ∀ front rest, H.keys c = front ++ rest → (∀ k ∈ front, declaredFor layers k = none) →
      rest.findSome? (declaredFor (later ++ layers)) = rest.findSome? (declaredFor layers) := by
    intro front rest
    induction rest generalizing front with
    | nil => exact fun _ _ => rfl
    | cons k rest ih =>
      intro hkeys hfront
      have hk : declaredFor (later ++ layers) k = declaredFor layers k := by
        rw [declaredFor_append, hlater k ⟨front, rest, hkeys, hfront⟩, Option.none_or]
      rw [List.findSome?_cons, List.findSome?_cons, hk]
      cases hdeclared : declaredFor layers k with
      | some h => rfl
      | none =>
        refine ih (front ++ [k]) (by rw [hkeys, List.append_assoc, List.singleton_append]) fun j hj => ?_
        rcases List.mem_append.1 hj with hj | hj
        · exact hfront j hj
        · rw [List.mem_singleton.1 hj, hdeclared]
  rw [handlerFor_eq_findSome?, handlerFor_eq_findSome?]
  exact hrest [] _ rfl (by simp)

theorem handlerFor_of_declared (hc : declaredFor layers (.cls c) = some h) : handlerFor H layers c = some h := by
  obtain ⟨above, habove⟩ := List.head?_eq_some_iff.1 (H.head?_ancestry c)
  rw [handlerFor, habove, List.findSome?_cons, hc]
  rfl

/-- a class that no nearer class declares anything for has the handler of the class it derives from -/
theorem handlerFor_of_suffix {front : List NodeClass} (hancestry : H.ancestry c = front ++ H.ancestry a)
    (hfront : ∀ b ∈ front, declaredFor layers (.cls b) = none) : handlerFor H layers c = handlerFor H layers a := by
  rw [handlerFor, handlerFor, hancestry, List.findSome?_append, List.findSome?_eq_none_iff.2 hfront, Option.none_or]

end Declared

/-! ## Ancestries -/

namespace Hierarchy

variable {H : Hierarchy} {a b c : NodeClass}

theorem ancestry_eq_cons (H : Hierarchy) (c : NodeClass) : ∃ above, H.ancestry c = c :: above :=
  List.head?_eq_some_iff.1 (H.head?_ancestry c)

/-- behind a class that derives from no more than one other stand those that it derives from -/
theorem cons_eq_ancestry {front back : List NodeClass} (hc : H.ancestry c = front ++ a :: back)
    (ha : H.ancestry a <:+ H.ancestry c) : a :: back = H.ancestry a := by
  obtain ⟨front', hfront⟩ := ha
  obtain ⟨above, habove⟩ := H.ancestry_eq_cons a
  have hnodup := H.nodup_ancestry c
  rw [hc, List.nodup_append, List.nodup_cons] at hnodup
  have hnot : a ∉ front := fun h => hnodup.2.2 a h a List.mem_cons_self rfl
  rw [habove, hc] at hfront
  obtain ⟨-, -, hback⟩ := (List.append_cons_inj_of_notMem hnot hnodup.2.1.1).1 hfront.symm
  rw [habove, hback]

/-- of two classes whose ancestries end one ancestry, one derives from the other -/
theorem suffix_of_mem (ha : H.ancestry a <:+ H.ancestry c) (hb : H.ancestry b <:+ H.ancestry c)
    (hmem : b ∈ H.ancestry a) : H.ancestry b <:+ H.ancestry a := by
  rcases List.suffix_or_suffix_of_suffix hb ha with h | ⟨front, hfront⟩
  · exact h
  · have hnodup := H.nodup_ancestry b
    obtain ⟨above, habove⟩ := H.ancestry_eq_cons b
    rw [← hfront] at hnodup habove
    cases front with
    | nil => exact ⟨[], hfront.symm⟩
    | cons d front =>
      obtain ⟨rfl, -⟩ := List.cons.inj habove
      exact absurd (List.mem_append_right _ hmem) (List.nodup_cons.1 hnodup).1

end Hierarchy

/-! ## The classes of nodes -/

/-- the classes of nodes with those they derive from -/
def nodeHierarchy : Hierarchy where
  ancestry := NodeClass.ancestry
  head?_ancestry c := by
    unfold NodeClass.ancestry
    split_ifs <;> rfl
  nodup_ancestry c := by
    have hne : ∀ name, c.name ≠ name → c ≠ ⟨name⟩ := fun name hname h => hname (congrArg NodeClass.name h)
    unfold NodeClass.ancestry
    split_ifs with hstatement hexpression htop
    · have h1 := hne "Statement" fun h => absurd (h ▸ hstatement) (by decide)
      have h2 := hne "JSNode" fun h => absurd (h ▸ hstatement) (by decide)
      simp [h1, h2]
    · have h1 := hne "Expression" fun h => absurd (h ▸ hexpression) (by decide)
      have h2 := hne "JSNode" fun h => absurd (h ▸ hexpression) (by decide)
      simp [h1, h2]
    · simp
    · simp [hne "JSNode" htop]

theorem single_nodeHierarchy : nodeHierarchy.Single := by
  intro c a ha
  have hcases : NodeClass.ancestry c = [c, ⟨"Statement"⟩, ⟨"JSNode"⟩] ∨ NodeClass.ancestry c = [c, ⟨"Expression"⟩, ⟨"JSNode"⟩] ∨
      NodeClass.ancestry c = [c] ∨ NodeClass.ancestry c = [c, ⟨"JSNode"⟩] := by
    unfold NodeClass.ancestry
    split_ifs <;> simp
  change a ∈ NodeClass.ancestry c at ha
  change NodeClass.ancestry a <:+ NodeClass.ancestry c
  rcases hcases with h | h | h | h <;> rw [h] at ha ⊢ <;> simp only [List.mem_cons, List.not_mem_nil, or_false] at ha
  · obtain rfl | rfl | rfl := ha
    · rw [h]
    · exact List.suffix_cons _ _
    · exact ⟨[c, ⟨"Statement"⟩], rfl⟩
  · obtain rfl | rfl | rfl := ha
    · rw [h]
    · exact List.suffix_cons _ _
    · exact ⟨[c, ⟨"Expression"⟩], rfl⟩
  · rw [ha, h]
  · obtain rfl | rfl := ha
    · rw [h]
    · exact List.suffix_cons _ _

end Turnstile
