/-
Handlers and what was asked before.

A family of walkers grows by declarations, and its walkers are asked for handlers in between. Declarations alone should decide
on a handler, but the table of a walker also holds the choices that were made so far, and walkers declared later start from it.
- `Sound`: the invariant of one walker. Declared handlers are in its table, whatever else is there is a choice that was made,
  by it or above it, and the choice is right unless it was disturbed (`Member.Undisturbed`);
- `sound_history`: every walker of every history is sound;
- `handler_chosen`: the handler that a call runs, in any history;
- `handler_chosen_of_declared_first`, `node_handler_chosen`: declarations alone decide where all walkers are declared before
  any is asked, and every class derives from one other at most.
-/
import Turnstile.Proofs.Dispatch.Declarations

namespace Turnstile

variable {η : Type}

/-! ## Histories -/

/-- a choice that is remembered: its class, and the layers of the walker that was asked -/
structure Remembered (η : Type) where
  cls : NodeClass
  layers : List (Layer η)

/-- a walker of a family -/
structure Member (η : Type) where
  walker : Walker η
  /-- the places of the walkers that it extends, nearest first -/
  line : List ℕ
  /-- what it declares, then what the walkers declare that it extends -/
  layers : List (Layer η)
  /-- the choices in its table, those included that it started from -/
  remembered : List (Remembered η)

/-- the walker that all others extend -/
def Member.root (refusal : η) : Member η := ⟨.refusing refusal, [], [[⟨"exceptionDefault", refusal, .default⟩]], []⟩

/-- a walker after it was asked for a handler -/
def Member.ask (H : Hierarchy) (m : Member η) (c : NodeClass) : Member η :=
  { m with
    walker := (m.walker.callIn H.ancestry c).2
    remembered := if m.walker.entry.isSome || (m.walker.table.get? (.cls c)).isSome then m.remembered
      else ⟨c, m.layers⟩ :: m.remembered }

/-- what happens to a family -/
inductive Event (η : Type) where
  /-- a walker is declared that extends the one at a place -/
  | declare (base : ℕ) (name : String) (layer : Layer η)
  /-- the walker at a place is asked for the handler for a class -/
  | ask (place : ℕ) (c : NodeClass)

/-- a walker and those it extends -/
def lineage (ms : List (Member η)) (m : Member η) : List (Member η) := m :: m.line.filterMap (ms[·]?)

/-- a walker that extends the one at a place -/
def Member.extend? (ms : List (Member η)) (base : ℕ) (m : Member η) (name : String) (layer : Layer η) :
    Except WalkerFault (Member η) := do
  let w ← Walker.extendAll ((lineage ms m).map (·.walker)) name layer
  return ⟨w, base :: m.line, layer :: m.layers, (lineage ms m).flatMap (·.remembered)⟩

/-- a declaration that fails leaves the family as it is -/
def Event.apply (H : Hierarchy) (ms : List (Member η)) : Event η → List (Member η)
  | declare base name layer =>
    match ms[base]? with
    | none => ms
    | some m => ms ++ (m.extend? ms base name layer).toOption.toList
  | ask place c => ms.modify place (·.ask H c)

/-- the family after some events -/
def history (H : Hierarchy) (refusal : η) (events : List (Event η)) : List (Member η) :=
  events.foldl (Event.apply H) [.root refusal]

/-! ## One walker -/

/-- Nothing remembered is in the way of a class. If a choice for the class comes to one that another choice is remembered for,
and no handler is declared for that one, then it derives from no more than one other, and since that choice nothing was declared
as near as what it came to. -/
def Member.Undisturbed (H : Hierarchy) (m : Member η) (c : NodeClass) : Prop :=
  ∀ r ∈ m.remembered, Reaches H m.layers c (.cls r.cls) → declaredFor m.layers (.cls r.cls) = none →
    H.ancestry r.cls <:+ H.ancestry c ∧
      ∀ later, m.layers = later ++ r.layers → ∀ k, Reaches H r.layers r.cls k → declaredFor later k = none

/-- what is true of a walker at any time -/
structure Sound (H : Hierarchy) (m : Member η) : Prop where
  /-- what is declared is in its table -/
  declared : ∀ {k h}, declaredFor m.layers k = some h → m.walker.table.get? k = some h
  /-- there is a default -/
  default : ∃ h, declaredFor m.layers .default = some h
  /-- calls run what is declared for them -/
  entry : m.walker.entry = entryFor m.layers
  /-- what else is in its table is remembered, and right unless it was disturbed -/
  remembered : ∀ {c h}, m.walker.table.get? (.cls c) = some h → declaredFor m.layers (.cls c) = none →
    (∃ r ∈ m.remembered, r.cls = c) ∧ (m.Undisturbed H c → handlerFor H m.layers c = some h)
  /-- only walkers that it extends were asked for what it remembers -/
  above : ∀ r ∈ m.remembered, r.layers <:+ m.layers

section Members

variable {H : Hierarchy} {m : Member η} {a c : NodeClass} {k : HandlerKey} {h : η}

theorem Member.Undisturbed.of_suffix (hc : m.Undisturbed H c) {front : List NodeClass}
    (hancestry : H.ancestry c = front ++ H.ancestry a) (hfront : ∀ b ∈ front, declaredFor m.layers (.cls b) = none) :
    m.Undisturbed H a := fun r hr hreaches hnone => by
  obtain ⟨hsuffix, hlater⟩ := hc r hr (hreaches.of_suffix hancestry hfront) hnone
  exact ⟨Hierarchy.suffix_of_mem ⟨front, hancestry.symm⟩ hsuffix hreaches.mem_ancestry, hlater⟩

theorem sound_root (refusal : η) : Sound H (.root refusal) where
  declared {k h} hk := by
    cases k with
    | cls c => cases hk
    | default => exact hk
  default := ⟨refusal, rfl⟩
  entry := rfl
  remembered hget _ := by cases hget
  above r hr := by cases hr

namespace Sound

theorem declaredFor_eq_none (hm : Sound H m) (hget : m.walker.table.get? k = none) : declaredFor m.layers k = none := by
  by_contra hne
  obtain ⟨h, hh⟩ := Option.ne_none_iff_exists'.1 hne
  rw [hm.declared hh] at hget
  cases hget

/-- **A walker that does not remember a class finds the declared handler**, unless it was disturbed. -/
theorem nearest?_eq (hm : Sound H m) (hc : m.Undisturbed H c) : ∃ h,
    m.walker.nearest? (H.ancestry c) = some h ∧ handlerFor H m.layers c = some h := by
  obtain ⟨d, hd⟩ := hm.default
  rw [Walker.nearest?]
  cases hfind : (H.ancestry c).findSome? fun a => m.walker.table.get? (.cls a) with
  | none =>
    have hnone : ∀ a ∈ H.ancestry c, declaredFor m.layers (.cls a) = none := fun a ha =>
      hm.declaredFor_eq_none (List.findSome?_eq_none_iff.1 hfind a ha)
    refine ⟨d, ?_, ?_⟩
    · rw [Option.none_or, hm.declared hd]
    · rw [handlerFor, List.findSome?_eq_none_iff.2 hnone, Option.none_or, hd]
  | some h =>
    obtain ⟨front, a, back, hancestry, hget, hfront⟩ := List.findSome?_eq_some_iff.1 hfind
    have hnone : ∀ b ∈ front, declaredFor m.layers (.cls b) = none := fun b hb =>
      hm.declaredFor_eq_none (hfront b hb)
    refine ⟨h, Option.some_or, ?_⟩
    cases hdeclared : declaredFor m.layers (.cls a) with
    | some g =>
      have hg : g = h := Option.some.inj ((hm.declared hdeclared).symm.trans hget)
      rw [handlerFor, hancestry, List.findSome?_append, List.findSome?_eq_none_iff.2 hnone, List.findSome?_cons, hdeclared, hg]
      rfl
    | none =>
      -- a choice that was made before, for a class that this one derives from
      obtain ⟨⟨r, hr, rfl⟩, hright⟩ := hm.remembered hget hdeclared
      have hsuffix := (hc r hr (reaches_of_ancestry hancestry hnone) hdeclared).1
      have hwhole : H.ancestry c = front ++ H.ancestry r.cls :=
        hancestry.trans (congrArg _ (Hierarchy.cons_eq_ancestry hancestry hsuffix))
      rw [handlerFor_of_suffix hwhole hnone]
      exact hright (hc.of_suffix hwhole hnone)

/-- **A walker chooses the declared handler**, unless it was disturbed. -/
theorem chooseIn_eq (hm : Sound H m) (hc : m.Undisturbed H c) : ∃ h,
    handlerFor H m.layers c = some h ∧ (m.walker.chooseIn H.ancestry c).1 = some h := by
  obtain ⟨h, hnearest, hhandler⟩ := hm.nearest?_eq hc
  refine ⟨h, hhandler, ?_⟩
  rw [Walker.chooseIn]
  cases hget : m.walker.table.get? (.cls c) with
  | none => rw [hnearest]
  | some g =>
    cases hdeclared : declaredFor m.layers (.cls c) with
    | none => exact ((hm.remembered hget hdeclared).2 hc).symm.trans hhandler
    | some d =>
      rw [handlerFor_of_declared hdeclared] at hhandler
      exact hget.symm.trans ((hm.declared hdeclared).trans hhandler)

/-- **What a call runs**, unless what was asked before is in the way. -/
theorem callIn_eq (hm : Sound H m) (c : NodeClass) :
    (entryFor m.layers = none → m.Undisturbed H c → ∃ h,
      handlerFor H m.layers c = some h ∧ (m.walker.callIn H.ancestry c).1 = some h) ∧
    ∀ h, entryFor m.layers = some h → (m.walker.callIn H.ancestry c).1 = some h := by
  rw [Walker.callIn, hm.entry]
  constructor
  · intro hentry hc
    rw [hentry]
    exact hm.chooseIn_eq hc
  · intro h hentry
    rw [hentry]

end Sound

theorem Member.Undisturbed.of_remembered {m' : Member η} (hc : m'.Undisturbed H c) (hlayers : m'.layers = m.layers)
    (hremembered : m.remembered ⊆ m'.remembered) : m.Undisturbed H c :=
  fun r hr => hlayers ▸ hc r (hremembered hr)

/-- a walker that finds a handler remembers it -/
theorem Member.ask_of_none (hentry : m.walker.entry = none) (hget : m.walker.table.get? (.cls c) = none)
    (hnearest : m.walker.nearest? (H.ancestry c) = some h) : m.ask H c = { m with
      walker := { m.walker with table := m.walker.table.put (.cls c) h }
      remembered := ⟨c, m.layers⟩ :: m.remembered } := by
  rw [Member.ask, Walker.callIn, hentry, hget]
  dsimp only
  rw [Walker.chooseIn, hget, hnearest]
  rfl

theorem Member.ask_of_entry (hentry : m.walker.entry = some h) : m.ask H c = m := by
  rw [Member.ask, Walker.callIn, hentry]
  rfl

theorem Member.ask_of_some (hget : m.walker.table.get? (.cls c) = some h) : m.ask H c = m := by
  cases hentry : m.walker.entry with
  | some g => exact Member.ask_of_entry hentry
  | none =>
    rw [Member.ask, Walker.callIn, hentry, hget]
    dsimp only
    rw [Walker.chooseIn, hget]
    rfl

theorem Sound.exists_nearest? (hm : Sound H m) (c : NodeClass) : ∃ h, m.walker.nearest? (H.ancestry c) = some h := by
  obtain ⟨d, hd⟩ := hm.default
  rw [Walker.nearest?, hm.declared hd]
  cases (H.ancestry c).findSome? fun a => m.walker.table.get? (.cls a) with
  | none => exact ⟨d, rfl⟩
  | some h => exact ⟨h, rfl⟩

/-- a choice is right when it is made, if it is undisturbed then -/
theorem Sound.ask (hm : Sound H m) (c : NodeClass) : Sound H (m.ask H c) := by
  cases hentry : m.walker.entry with
  | some h => rwa [Member.ask_of_entry hentry]
  | none =>
  cases hget : m.walker.table.get? (.cls c) with
  | some h => rwa [Member.ask_of_some hget]
  | none =>
    obtain ⟨h, hnearest⟩ := hm.exists_nearest? c
    rw [Member.ask_of_none hentry hget hnearest]
    constructor
    case declared =>
      intro k d hd
      have hne : k ≠ .cls c := by
        rintro rfl
        rw [hm.declaredFor_eq_none hget] at hd
        cases hd
      exact (OrderedMap.get?_put _ _ _ _).trans ((if_neg hne).trans (hm.declared hd))
    case default => exact hm.default
    case entry => exact hm.entry
    case remembered =>
      intro a g hg hdeclared
      rw [OrderedMap.get?_put] at hg
      split at hg
      · next heq =>
        cases heq
        cases hg
        refine ⟨⟨_, List.mem_cons_self, rfl⟩, fun hundisturbed => ?_⟩
        obtain ⟨g, hg, hhandler⟩ := hm.nearest?_eq (hundisturbed.of_remembered rfl (List.subset_cons_self _ _))
        rw [hhandler, ← hg, hnearest]
      · obtain ⟨⟨r, hr, hcls⟩, hright⟩ := hm.remembered hg hdeclared
        exact ⟨⟨r, List.mem_cons_of_mem _ hr, hcls⟩, fun hundisturbed =>
          hright (hundisturbed.of_remembered rfl (List.subset_cons_self _ _))⟩
    case above =>
      intro r hr
      rcases List.mem_cons.1 hr with rfl | hr
      · exact List.suffix_refl _
      · exact hm.above r hr

/-- a choice that a walker starts from is right for it too, unless it was disturbed: nothing that could change it was declared
since -/
theorem Sound.remembered_below {b : Member η} {later : List (Layer η)} (hb : Sound H b) (hlayers : m.layers = later ++ b.layers)
    (hremembered : b.remembered ⊆ m.remembered) (hget : b.walker.table.get? (.cls c) = some h)
    (hdeclared : declaredFor m.layers (.cls c) = none) :
    (∃ r ∈ m.remembered, r.cls = c) ∧ (m.Undisturbed H c → handlerFor H m.layers c = some h) := by
  obtain ⟨⟨r, hr, rfl⟩, hright⟩ := hb.remembered hget (declaredFor_of_above (hlayers ▸ hdeclared))
  refine ⟨⟨r, hremembered hr, rfl⟩, fun hundisturbed => ?_⟩
  obtain ⟨between, hbetween⟩ := hb.above r hr
  have hwhole : m.layers = (later ++ between) ++ r.layers := by rw [hlayers, ← hbetween, List.append_assoc]
  -- nothing that the remembered choice came to was declared between it and the walker it was taken from, or since
  have hsince : ∀ k, Reaches H r.layers r.cls k → declaredFor (later ++ between) k = none :=
    (hundisturbed r (hremembered hr) (reaches_self H _ _) hdeclared).2 _ hwhole
  have hbefore : ∀ k, Reaches H r.layers r.cls k → declaredFor between k = none := fun k hk =>
    declaredFor_of_above (hsince k hk)
  have hsame : handlerFor H m.layers r.cls = handlerFor H b.layers r.cls := by
    rw [hwhole, handlerFor_append hsince, ← hbetween, handlerFor_append hbefore]
  have hundisturbed' : b.Undisturbed H r.cls := fun r' hr' hreaches hnone => by
    rw [← hbetween] at hreaches hnone
    have hreached := hreaches.of_append
    have hnew : declaredFor m.layers (.cls r'.cls) = none := by
      rw [hwhole, declaredFor_append, hsince _ hreached, declaredFor_of_above hnone, Option.none_or]
    obtain ⟨hsuffix, hlate⟩ := hundisturbed r' (hremembered hr') (hwhole ▸ hreached.append hsince) hnew
    refine ⟨hsuffix, fun later' heq k hk => ?_⟩
    exact declaredFor_of_above (hlate (later ++ later') (by rw [hlayers, heq, List.append_assoc]) k hk)
  rw [hsame]
  exact hright hundisturbed'

/-- **A walker that is declared is sound** if those it extends are. -/
theorem Sound.extend {bases : List (Member η)} {w : Walker η} {name : String} {layer : Layer η} {line : List ℕ}
    (hm : Sound H m) (hbases : ∀ b ∈ bases, Sound H b ∧ b.layers <:+ m.layers)
    (h : Walker.extendAll ((m :: bases).map (·.walker)) name layer = .ok w) :
    Sound H ⟨w, line, layer :: m.layers, (m :: bases).flatMap (·.remembered)⟩ := by
  have hall : ∀ b ∈ m :: bases, Sound H b ∧ b.layers <:+ m.layers := by
    rintro b (_ | ⟨_, hb⟩)
    · exact ⟨hm, List.suffix_refl _⟩
    · exact hbases b hb
  constructor
  case declared =>
    intro k g hg
    rw [declaredFor_cons] at hg
    rw [Walker.get?_extendAll h]
    cases hown : layer.handler? k with
    | some d => rwa [hown] at hg
    | none =>
      rw [hown, Option.none_or] at hg
      rw [Option.none_or, List.map_cons, List.findSome?_cons, hm.declared hg]
  case default =>
    obtain ⟨d, hd⟩ := hm.default
    rw [declaredFor_cons, hd]
    cases layer.handler? .default with
    | some g => exact ⟨g, rfl⟩
    | none => exact ⟨d, rfl⟩
  case entry =>
    rw [Walker.entry_extendAll h, entryFor_cons, List.map_cons, List.findSome?_cons, hm.entry]
    cases hentry : entryFor m.layers with
    | some g => rfl
    | none =>
      have hbelow : (bases.map (·.walker)).findSome? Walker.entry = none := List.findSome?_eq_none_iff.2 fun w' hw' => by
        obtain ⟨b, hb, rfl⟩ := List.mem_map.1 hw'
        exact (hbases b hb).1.entry.trans (entryFor_of_suffix (hbases b hb).2 hentry)
      exact congrArg _ hbelow
  case remembered =>
    intro c g hg hdeclared
    have hown : layer.handler? (.cls c) = none := (Option.or_eq_none_iff.1 (declaredFor_cons.symm.trans hdeclared)).1
    rw [Walker.get?_extendAll h, hown, Option.none_or] at hg
    obtain ⟨w', hw', hget⟩ := List.exists_of_findSome?_eq_some hg
    obtain ⟨b, hb, rfl⟩ := List.mem_map.1 hw'
    obtain ⟨hsound, habove⟩ := hall b hb
    obtain ⟨later, hlater⟩ : b.layers <:+ layer :: m.layers := habove.trans (List.suffix_cons _ _)
    exact hsound.remembered_below hlater.symm (fun r hr => List.mem_flatMap.2 ⟨b, hb, hr⟩) hget hdeclared
  case above =>
    intro r hr
    obtain ⟨b, hb, hr⟩ := List.mem_flatMap.1 hr
    obtain ⟨hsound, habove⟩ := hall b hb
    exact (hsound.above r hr).trans (habove.trans (List.suffix_cons _ _))

end Members

/-! ## Families -/

/-- what is true of a family at any time -/
structure SoundFamily (H : Hierarchy) (ms : List (Member η)) : Prop where
  sound : ∀ m ∈ ms, Sound H m
  /-- a walker has the layers of those it extends -/
  line : ∀ m ∈ ms, ∀ place ∈ m.line, ∃ b, ms[place]? = some b ∧ b.layers <:+ m.layers

section Families

variable {H : Hierarchy} {ms : List (Member η)} {m : Member η} {c : NodeClass} {refusal : η} {events : List (Event η)}

theorem soundFamily_root (refusal : η) : SoundFamily H [.root refusal] where
  sound m hm := by
    rw [List.mem_singleton.1 hm]
    exact sound_root refusal
  line m hm place hplace := by
    rw [List.mem_singleton.1 hm] at hplace
    cases hplace

theorem SoundFamily.append (hms : SoundFamily H ms) (hm : Sound H m)
    (hline : ∀ place ∈ m.line, ∃ b, ms[place]? = some b ∧ b.layers <:+ m.layers) : SoundFamily H (ms ++ [m]) := by
  have hgrow : ∀ {place b}, ms[place]? = some b → (ms ++ [m])[place]? = some b := fun h => by
    rw [List.getElem?_append_left (List.getElem?_eq_some_iff.1 h).1, h]
  constructor
  case sound =>
    intro m' hm'
    rcases List.mem_append.1 hm' with hm' | hm'
    · exact hms.sound m' hm'
    · rwa [List.mem_singleton.1 hm']
  case line =>
    intro m' hm' place hplace
    rcases List.mem_append.1 hm' with hm' | hm'
    · obtain ⟨b, hb, hlayers⟩ := hms.line m' hm' place hplace
      exact ⟨b, hgrow hb, hlayers⟩
    · rw [List.mem_singleton.1 hm'] at hplace ⊢
      obtain ⟨b, hb, hlayers⟩ := hline place hplace
      exact ⟨b, hgrow hb, hlayers⟩

theorem SoundFamily.declare (hms : SoundFamily H ms) {base : ℕ} (hbase : ms[base]? = some m) {name : String}
    {layer : Layer η} {m' : Member η} (h : m.extend? ms base name layer = .ok m') : SoundFamily H (ms ++ [m']) := by
  obtain ⟨w, hw, h⟩ := bind_eq_ok_iff.1 h
  cases h
  have hm : m ∈ ms := List.mem_of_getElem? hbase
  have hbases : ∀ b ∈ m.line.filterMap (ms[·]?), Sound H b ∧ b.layers <:+ m.layers := fun b hb => by
    obtain ⟨place, hplace, hget⟩ := List.mem_filterMap.1 hb
    obtain ⟨b', hget', hlayers⟩ := hms.line m hm place hplace
    cases hget.symm.trans hget'
    exact ⟨hms.sound b (List.mem_of_getElem? hget), hlayers⟩
  refine hms.append ((hms.sound m hm).extend hbases hw) fun place hplace => ?_
  rcases List.mem_cons.1 hplace with rfl | hplace
  · exact ⟨m, hbase, List.suffix_cons _ _⟩
  · obtain ⟨b, hget, hlayers⟩ := hms.line m hm place hplace
    exact ⟨b, hget, hlayers.trans (List.suffix_cons _ _)⟩

theorem mem_modify {α : Type} {xs : List α} {f : α → α} {place : ℕ} {y : α} (hy : y ∈ xs.modify place f) :
    ∃ x ∈ xs, y = f x ∨ y = x := by
  obtain ⟨i, hi⟩ := List.mem_iff_getElem?.1 hy
  rw [List.getElem?_modify] at hi
  obtain ⟨x, hx, rfl⟩ := Option.map_eq_some_iff.1 hi
  refine ⟨x, List.mem_of_getElem? hx, ?_⟩
  by_cases hplace : place = i
  · exact Or.inl (if_pos hplace)
  · exact Or.inr (if_neg hplace)

/-- to ask changes no layers -/
theorem SoundFamily.ask (hms : SoundFamily H ms) (place : ℕ) (c : NodeClass) :
    SoundFamily H (ms.modify place (·.ask H c)) := by
  constructor
  case sound =>
    intro m' hm'
    obtain ⟨m, hm, rfl | rfl⟩ := mem_modify hm'
    · exact (hms.sound m hm).ask c
    · exact hms.sound _ hm
  case line =>
    intro m' hm' i hi
    obtain ⟨m, hm, hsame⟩ := mem_modify hm'
    have hlines : m'.line = m.line ∧ m'.layers = m.layers := by
      rcases hsame with rfl | rfl <;> exact ⟨rfl, rfl⟩
    rw [hlines.1] at hi
    rw [hlines.2]
    obtain ⟨b, hb, hlayers⟩ := hms.line m hm i hi
    rw [List.getElem?_modify, hb]
    refine ⟨_, rfl, ?_⟩
    split
    · exact hlayers
    · exact hlayers

/-- **What one event preserves.** -/
theorem SoundFamily.apply (hms : SoundFamily H ms) (e : Event η) : SoundFamily H (e.apply H ms) := by
  cases e with
  | declare base name layer =>
    rw [Event.apply]
    split
    · exact hms
    · next m hbase =>
      cases h : m.extend? ms base name layer with
      | error e =>
        change SoundFamily H (ms ++ [])
        rwa [List.append_nil]
      | ok m' => exact hms.declare hbase h
  | ask place c => exact hms.ask place c

/-- **What a whole history preserves.** -/
theorem sound_history (H : Hierarchy) (refusal : η) (events : List (Event η)) : SoundFamily H (history H refusal events) :=
  List.foldlRecOn events _ (soundFamily_root refusal) fun _ hms e _ => hms.apply e

/-- **The handler that a call of a walker runs, in any history**, is the one for the nearest class that it or a walker that it
extends declares a handler for, or else the nearest default, unless what was asked before is in the way. But if the walker or
one that it extends declares a handler by the name of calls, then the nearest of these. -/
theorem handler_chosen (H : Hierarchy) (refusal : η) (events : List (Event η)) {m : Member η}
    (hm : m ∈ history H refusal events) (c : NodeClass) :
    (entryFor m.layers = none → m.Undisturbed H c → ∃ h,
      handlerFor H m.layers c = some h ∧ (m.walker.callIn H.ancestry c).1 = some h) ∧
    ∀ h, entryFor m.layers = some h → (m.walker.callIn H.ancestry c).1 = some h :=
  ((sound_history H refusal events).sound m hm).callIn_eq c

/-- a handler for one class, known by its name -/
def handlerOf (name cls : String) : HandlerMethod String := ⟨name, name, .handler [.cls ⟨cls⟩]⟩

/-- a walker with one handler is asked about a class, then one with a handler of its own is declared that extends it -/
def askedBetween (first second : String × String) (asked : String) : List (Event String) :=
  [.declare 0 "Walker1" [handlerOf first.1 first.2], .ask 1 ⟨asked⟩, .declare 1 "Walker2" [handlerOf second.1 second.2]]

/-- the later handler is for the class of all nodes, and what the walker was asked about has a nearer one -/
theorem handler_chosen_below_asked :
    ∃ m ∈ history nodeHierarchy "refused" (askedBetween ("statement", "Statement") ("node", "JSNode") "If"),
      entryFor m.layers = none ∧ m.Undisturbed nodeHierarchy ⟨"If"⟩ ∧ m.remembered.length = 1 ∧
        (m.walker.callIn nodeHierarchy.ancestry ⟨"If"⟩).1 = some "statement" ∧
        declaredFor m.layers (.cls ⟨"JSNode"⟩) = some "node" := by
  obtain ⟨m, hm⟩ : ∃ m, (history nodeHierarchy "refused"
      (askedBetween ("statement", "Statement") ("node", "JSNode") "If"))[2]? = some m := ⟨_, rfl⟩
  have hlayers : m.layers = [handlerOf "node" "JSNode"] ::
      [[handlerOf "statement" "Statement"], [⟨"exceptionDefault", "refused", .default⟩]] := by
    cases hm
    rfl
  have hremembered : m.remembered =
      [⟨⟨"If"⟩, [[handlerOf "statement" "Statement"], [⟨"exceptionDefault", "refused", .default⟩]]⟩] := by
    cases hm
    rfl
  have hentry : entryFor m.layers = none := by
    rw [hlayers]
    rfl
  have hundisturbed : m.Undisturbed nodeHierarchy ⟨"If"⟩ := fun r hr _ _ => by
    rw [hremembered, List.mem_singleton] at hr
    subst hr
    refine ⟨List.suffix_refl _, fun later hlater k hk => ?_⟩
    rw [hlayers, ← List.singleton_append, List.append_cancel_right_eq] at hlater
    rw [← hlater]
    -- the choice found the handler for statements, so it came no further
    have hkeys : nodeHierarchy.keys ⟨"If"⟩ =
        [.cls ⟨"If"⟩] ++ .cls ⟨"Statement"⟩ :: [.cls ⟨"JSNode"⟩, .default] := rfl
    have hnear := hk.mem_of_declared hkeys (by decide)
    rw [List.singleton_append, List.mem_pair] at hnear
    rcases hnear with rfl | rfl <;> rfl
  obtain ⟨h, hhandler, hchosen⟩ :=
    (handler_chosen nodeHierarchy "refused" _ (List.mem_of_getElem? hm) ⟨"If"⟩).1 hentry hundisturbed
  refine ⟨m, List.mem_of_getElem? hm, hentry, hundisturbed, by rw [hremembered]; rfl,
    hchosen.trans (hhandler.symm.trans ?_), by rw [hlayers]; rfl⟩
  rw [hlayers]
  rfl

/-- the later handler is for a class that the walker was asked about, and comes too late for it -/
theorem handler_declared_too_late :
    ∃ m ∈ history nodeHierarchy "refused" (askedBetween ("old", "Expression") ("new", "Expression") "Conditional"),
      handlerFor nodeHierarchy m.layers ⟨"Conditional"⟩ = some "new" ∧
        (m.walker.callIn nodeHierarchy.ancestry ⟨"Conditional"⟩).1 = some "old" := by
  obtain ⟨m, hm⟩ : ∃ m, (history nodeHierarchy "refused"
      (askedBetween ("old", "Expression") ("new", "Expression") "Conditional"))[2]? = some m := ⟨_, rfl⟩
  refine ⟨m, List.mem_of_getElem? hm, ?_⟩
  cases hm
  exact ⟨rfl, rfl⟩

/-- a handler by the name of calls is run for all nodes -/
example : ∃ m ∈ history nodeHierarchy "refused" [.declare 0 "Walker1" [handlerOf "__call__" "If"]],
    handlerFor nodeHierarchy m.layers ⟨"While"⟩ = some "refused" ∧
      (m.walker.callIn nodeHierarchy.ancestry ⟨"While"⟩).1 = some "__call__" := by
  obtain ⟨m, hm⟩ : ∃ m, (history nodeHierarchy "refused"
      [.declare 0 "Walker1" [handlerOf "__call__" "If"]])[1]? = some m := ⟨_, rfl⟩
  refine ⟨m, List.mem_of_getElem? hm, ?_⟩
  cases hm
  exact ⟨rfl, rfl⟩

/-- a class that derives from two others -/
def diamond : Hierarchy where
  ancestry c :=
    if c = ⟨"Both"⟩ then [c, ⟨"Left"⟩, ⟨"Right"⟩, ⟨"Top"⟩] else if c = ⟨"Top"⟩ then [c] else [c, ⟨"Top"⟩]
  head?_ancestry c := by split_ifs <;> rfl
  nodup_ancestry c := by
    split_ifs with hboth htop
    · rw [hboth]
      decide
    · simp
    · simp [htop]

/-- what a walker was asked about one of two classes is in the way of the other one -/
example : ∃ m ∈ history diamond "refused"
        [.declare 0 "Walker1" [handlerOf "right" "Right", handlerOf "top" "Top"], .ask 1 ⟨"Left"⟩],
      handlerFor diamond m.layers ⟨"Both"⟩ = some "right" ∧
        (m.walker.callIn diamond.ancestry ⟨"Both"⟩).1 = some "top" := by
  obtain ⟨m, hm⟩ : ∃ m, (history diamond "refused"
      [.declare 0 "Walker1" [handlerOf "right" "Right", handlerOf "top" "Top"], .ask 1 ⟨"Left"⟩])[1]? = some m := ⟨_, rfl⟩
  refine ⟨m, List.mem_of_getElem? hm, ?_⟩
  cases hm
  exact ⟨rfl, rfl⟩

/-! ## Walkers that are declared before any is asked -/

def Event.isDeclaration : Event η → Bool
  | declare .. => true
  | ask .. => false

theorem mem_of_mem_lineage {b : Member η} (hm : m ∈ ms) (hb : b ∈ lineage ms m) : b ∈ ms := by
  rcases List.mem_cons.1 hb with rfl | hb
  · exact hm
  · obtain ⟨place, -, hplace⟩ := List.mem_filterMap.1 hb
    exact List.mem_of_getElem? hplace

/-- a family of which no walker was asked remembers nothing -/
theorem remembered_of_declarations (hevents : ∀ e ∈ events, e.isDeclaration = true) :
    ∀ m ∈ history H refusal events, m.remembered = [] := by
  refine List.foldlRecOn (motive := fun ms : List (Member η) => ∀ m ∈ ms, m.remembered = []) events _ (fun m hm => ?_)
    fun ms hms e he => ?_
  · rw [List.mem_singleton.1 hm]
    rfl
  cases e with
  | ask place c => cases hevents _ he
  | declare base name layer =>
    rw [Event.apply]
    split
    · exact hms
    · next b hbase =>
      intro m hm
      rcases List.mem_append.1 hm with hm | hm
      · exact hms m hm
      · obtain ⟨w, -, h⟩ := bind_eq_ok_iff.1 (ok_of_toOption (Option.mem_toList.1 hm))
        cases h
        exact List.flatMap_eq_nil_iff.2 fun b' hb' => hms b' (mem_of_mem_lineage (List.mem_of_getElem? hbase) hb')

theorem layers_of_ask (hown : ∀ r ∈ m.remembered, r.layers = m.layers) (c : NodeClass) :
    ∀ r ∈ (m.ask H c).remembered, r.layers = (m.ask H c).layers := by
  intro r hr
  rw [Member.ask] at hr
  dsimp only at hr
  split at hr
  · exact hown r hr
  · rcases List.mem_cons.1 hr with rfl | hr
    · rfl
    · exact hown r hr

/-- walkers that are only asked remember their own choices -/
theorem layers_of_asks {asks : List (Event η)} (hasks : ∀ e ∈ asks, e.isDeclaration = false)
    (hms : ∀ m ∈ ms, ∀ r ∈ m.remembered, r.layers = m.layers) :
    ∀ m ∈ asks.foldl (Event.apply H) ms, ∀ r ∈ m.remembered, r.layers = m.layers := by
  refine List.foldlRecOn (motive := fun ms : List (Member η) => ∀ m ∈ ms, ∀ r ∈ m.remembered, r.layers = m.layers) asks _ hms
    fun ms hms e he => ?_
  cases e with
  | declare base name layer => cases hasks _ he
  | ask place c =>
    intro m' hm'
    obtain ⟨m, hm, rfl | rfl⟩ := mem_modify hm'
    · exact layers_of_ask (hms m hm) c
    · exact hms _ hm

/-- **Where walkers are declared before any is asked**, and each class derives from one other at most, declarations alone
decide on every handler. -/
theorem handler_chosen_of_declared_first (hsingle : H.Single) {declarations asks : List (Event η)}
    (hdeclarations : ∀ e ∈ declarations, e.isDeclaration = true) (hasks : ∀ e ∈ asks, e.isDeclaration = false)
    (hm : m ∈ history H refusal (declarations ++ asks)) (hentry : entryFor m.layers = none) (c : NodeClass) : ∃ h,
      handlerFor H m.layers c = some h ∧ (m.walker.callIn H.ancestry c).1 = some h := by
  have hown : ∀ r ∈ m.remembered, r.layers = m.layers := by
    rw [history, List.foldl_append] at hm
    refine layers_of_asks hasks (fun m' hm' r hr => ?_) m hm
    rw [remembered_of_declarations hdeclarations m' hm'] at hr
    cases hr
  refine (((sound_history H refusal _).sound m hm).callIn_eq c).1 hentry fun r hr hreaches _ =>
    ⟨hsingle c _ hreaches.mem_ancestry, fun later hlater k _ => ?_⟩
  have hnil : later = [] := by
    rw [hown r hr] at hlater
    exact List.self_eq_append_left.1 hlater
  rw [hnil]
  rfl

/-- the handlers of nodes -/
theorem node_handler_chosen {declarations asks : List (Event η)} (hdeclarations : ∀ e ∈ declarations, e.isDeclaration = true)
    (hasks : ∀ e ∈ asks, e.isDeclaration = false) (hm : m ∈ history nodeHierarchy refusal (declarations ++ asks))
    (hentry : entryFor m.layers = none) (c : NodeClass) : ∃ h,
      handlerFor nodeHierarchy m.layers c = some h ∧ (m.walker.call c).1 = some h :=
  handler_chosen_of_declared_first single_nodeHierarchy hdeclarations hasks hm hentry c

end Families

end Turnstile
