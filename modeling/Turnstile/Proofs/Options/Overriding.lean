/-
Which value an option gets.

Entries apply from left to right, and keywords apply after the options they are put over. A keyword in the spelling that
options are written back in takes the place of what was written back, so it applies before all other keywords, and its null
brings the default back.
- `lastSet`: the value that an option gets from entries in a row, whatever their spelling;
- `value_of_ofMapping?`: options from a mapping;
- `lastSet_overlay`: options written back, with keywords put over them;
- `keywords_override`: options that are given, with keywords.
-/
import Turnstile.Options
import Turnstile.Proofs.Coverage.Tables
import Turnstile.Proofs.Program.Reading

namespace Turnstile

def Json.isNull : Json → Bool
  | null => true
  | _ => false

namespace OptionName

/-- the spelling that an option is written back in -/
def key : OptionName → String
  | traceVariable => "trace_variable"
  | embedSource => "embed_source"
  | noAutoWrap => "no_auto_wrap"
  | noCompact => "no_compact"
  | debug => "debug"
  | walkDebug => "walk_debug"

/-- a value as an option takes it: all options but the first are set or not -/
def take (name : OptionName) (v : Json) : Json := if name = traceVariable then v else .bool v.isSet

/-- the options in the order they are written back in -/
def all : List OptionName := [traceVariable, embedSource, noAutoWrap, noCompact, debug, walkDebug]

theorem ofKey?_key (name : OptionName) : ofKey? name.key = some name := by
  cases name <;> rfl

theorem mem_all (name : OptionName) : name ∈ all := by
  cases name <;> decide

end OptionName

namespace Options

def Draft.value (d : Draft) : OptionName → Json
  | .traceVariable => d.traceVariable
  | .embedSource => .bool d.embedSource
  | .noAutoWrap => .bool d.noAutoWrap
  | .noCompact => .bool d.noCompact
  | .debug => .bool d.debug
  | .walkDebug => .bool d.walkDebug

def value (o : Options) : OptionName → Json
  | .traceVariable => .string o.traceVariable
  | .embedSource => .bool o.embedSource
  | .noAutoWrap => .bool o.noAutoWrap
  | .noCompact => .bool o.noCompact
  | .debug => .bool o.debug
  | .walkDebug => .bool o.walkDebug

/-- an entry that sets an option, in whatever spelling; a null sets none -/
def sets (name : OptionName) (e : String × Json) : Bool := OptionName.ofKey? e.1 = some name && !e.2.isNull

/-- the value that an option gets from some entries: that of the last one that sets it -/
def lastSet (name : OptionName) (es : List (String × Json)) : Option Json :=
  (es.filter (sets name)).getLast?.map fun e => name.take e.2

/-- what an instrumenter is given options as, entry by entry -/
def Given.entries : Given → List (String × Json)
  | .nothing => []
  | .mapping m => m.entries
  | .built o => o.toMapping.entries

variable {name : OptionName} {es fs : List (String × Json)} {e : String × Json} {d d' : Draft} {o r : Options}
  {keywords : Mapping} {given : Given}

/-! ## Entries in a row -/

theorem lastSet_append : lastSet name (es ++ fs) = (lastSet name fs).or (lastSet name es) := by
  rw [lastSet, List.filter_append, List.getLast?_append, Option.map_or]
  rfl

theorem lastSet_cons_of_sets (h : sets name e = true) :
    lastSet name (e :: es) = some ((lastSet name es).getD (name.take e.2)) := by
  rw [lastSet, List.filter_cons_of_pos h, List.getLast?_cons, lastSet]
  cases (es.filter (sets name)).getLast? <;> rfl

theorem lastSet_cons_of_not_sets (h : sets name e = false) : lastSet name (e :: es) = lastSet name es := by
  rw [lastSet, List.filter_cons_of_neg (by simp [h]), lastSet]

theorem lastSet_eq_none_iff : lastSet name es = none ↔ ∀ e ∈ es, sets name e = false := by
  simp [lastSet]

/-- only the entries that set an option matter to it -/
theorem lastSet_filter_congr {p q : String × Json → Bool} (h : ∀ e, sets name e = true → p e = q e) :
    lastSet name (es.filter p) = lastSet name (es.filter q) := by
  have hfilter : (es.filter p).filter (sets name) = (es.filter q).filter (sets name) := by
    rw [List.filter_filter, List.filter_filter]
    refine List.filter_congr fun e _ => ?_
    cases hsets : sets name e with
    | false => rfl
    | true => rw [Bool.true_and, Bool.true_and, h e hsets]
  rw [lastSet, lastSet, hfilter]

theorem value_set (d : Draft) (other : OptionName) (v : Json) :
    (d.set other v).value name = if name = other then name.take v else d.value name := by
  cases other <;> cases name <;> rfl

/-- one entry sets its option, or nothing -/
theorem value_of_apply (h : d.apply e = .ok d') :
    d'.value name = if sets name e then name.take e.2 else d.value name := by
  unfold Draft.apply at h
  split at h
  · cases h
  · next other hother =>
    split at h
    · next hnull =>
      cases h
      simp [sets, hnull, Json.isNull]
    · next hset =>
      cases h
      have hnull : e.2.isNull = false := by
        unfold Json.isNull
        split
        · next hnull => exact absurd hnull hset
        · rfl
      rw [value_set, sets, hother, hnull]
      simp [eq_comm]

theorem value_of_foldlM (h : es.foldlM Draft.apply d = .ok d') :
    d'.value name = (lastSet name es).getD (d.value name) := by
  induction es generalizing d with
  | nil =>
    cases h
    rfl
  | cons e es ih =>
    rw [List.foldlM_cons, bind_eq_ok_iff] at h
    obtain ⟨next, hnext, h⟩ := h
    rw [ih h, value_of_apply hnext]
    cases hsets : sets name e with
    | true => simp [lastSet_cons_of_sets hsets]
    | false => simp [lastSet_cons_of_not_sets hsets]

theorem value_of_check (h : d.check = .ok o) : o.value name = d.value name := by
  unfold Draft.check at h
  split at h
  · next s hs =>
    split at h
    · cases h
      cases name <;> simp [value, Draft.value, hs]
    · cases h
  · cases h

/-- **Options from a mapping have the value set last, or the default.** -/
theorem value_of_ofMapping? {m : Mapping} (h : ofMapping? m = .ok o) :
    o.value name = (lastSet name m.entries).getD (Draft.default.value name) := by
  obtain ⟨d, hd, h⟩ := bind_eq_ok_iff.1 h
  rw [value_of_check h, value_of_foldlM hd]

/-! ## Options written back -/

theorem entries_toMapping (o : Options) : o.toMapping.entries = OptionName.all.map fun n => (n.key, o.value n) := by
  have hnodup : ((OptionName.all.map fun n => (n.key, o.value n)).map (·.1)).Nodup := by
    simp [OptionName.all, OptionName.key]
  exact OrderedMap.entries_ofList hnodup

theorem keys_toMapping (o : Options) : o.toMapping.keys = OptionName.all.map OptionName.key := by
  rw [OrderedMap.keys, entries_toMapping, List.map_map]
  rfl

theorem get?_toMapping (o : Options) (name : OptionName) : o.toMapping.get? name.key = some (o.value name) := by
  rw [OrderedMap.get?_eq_some_iff, entries_toMapping]
  exact List.mem_map_of_mem (f := fun n => (n.key, o.value n)) name.mem_all

theorem isNull_value (o : Options) (name : OptionName) : (o.value name).isNull = false := by
  cases name <;> rfl

theorem take_value (o : Options) (name : OptionName) : name.take (o.value name) = o.value name := by
  cases name <;> rfl

theorem sets_key (n : OptionName) (v : Json) : sets name (n.key, v) = (decide (n = name) && !v.isNull) := by
  simp [sets, OptionName.ofKey?_key]

/-- each option once, in the spelling it is written back in -/
theorem lastSet_all (f : OptionName → Json) :
    lastSet name (OptionName.all.map fun n => (n.key, f n)) = lastSet name [(name.key, f name)] := by
  cases name <;> simp [lastSet, OptionName.all, sets_key, List.filter_cons]

/-- options written back keep their values -/
theorem lastSet_toMapping (o : Options) : lastSet name o.toMapping.entries = some (o.value name) := by
  have hset : sets name (name.key, o.value name) = true := by
    simp [sets_key, isNull_value]
  rw [entries_toMapping, lastSet_all, lastSet_cons_of_sets hset]
  simp [lastSet, take_value]

/-- options written back, with keywords put over them -/
def overlay (o : Options) (keywords : Mapping) : Mapping := OrderedMap.absorb (fun _ v => v) o.toMapping keywords

theorem keys_overlay (o : Options) (keywords : Mapping) : (o.overlay keywords).keys =
    OptionName.all.map OptionName.key ++ keywords.keys.filter fun k => k ∉ OptionName.all.map OptionName.key := by
  rw [overlay, OrderedMap.keys_absorb, keys_toMapping]

theorem get?_overlay (o : Options) (keywords : Mapping) (k : String) :
    (o.overlay keywords).get? k = (keywords.get? k).or (o.toMapping.get? k) := by
  rw [overlay, OrderedMap.get?_absorb]
  cases keywords.get? k <;> rfl

/-- each option stands where it was written back, keywords in other spellings come last -/
theorem entries_overlay (o : Options) (keywords : Mapping) :
    (o.overlay keywords).entries =
      (OptionName.all.map fun n => (n.key, (keywords.get? n.key).getD (o.value n))) ++
        keywords.entries.filter fun e => e.1 ∉ OptionName.all.map OptionName.key := by
  have hback : ∀ n : OptionName, ((o.overlay keywords).get? n.key).map (n.key, ·) =
      some (n.key, (keywords.get? n.key).getD (o.value n)) := fun n => by
    rw [get?_overlay, get?_toMapping, Option.or_some, Option.map_some]
  have hother : ∀ e ∈ keywords.entries.filter (fun e => e.1 ∉ OptionName.all.map OptionName.key),
      ((o.overlay keywords).get? e.1).map (e.1, ·) = some e := fun e he => by
    rw [get?_overlay, OrderedMap.get?_eq_some_iff.2 (List.mem_of_mem_filter he), Option.some_or, Option.map_some]
  rw [OrderedMap.entries_eq, keys_overlay, List.filterMap_append, List.filterMap_map, OrderedMap.keys, List.filter_map,
    List.filterMap_map]
  refine congrArg₂ (· ++ ·) ?_ ((List.filterMap_congr hother).trans List.filterMap_some)
  exact (List.filterMap_congr fun n _ => hback n).trans (congrFun List.filterMap_eq_map' _)

theorem eq_key_of_sets (hsets : sets name e = true) (hmem : e.1 ∈ OptionName.all.map OptionName.key) : e.1 = name.key := by
  obtain ⟨n, -, hn⟩ := List.mem_map.1 hmem
  rw [sets, ← hn, OptionName.ofKey?_key] at hsets
  rw [← hn, Option.some.inj (of_decide_eq_true (Bool.and_eq_true_iff.1 hsets).1)]

/-- **A keyword in the spelling that an option is written back in applies first**, the others apply behind it. -/
theorem lastSet_overlay (o : Options) (keywords : Mapping) :
    lastSet name (o.overlay keywords).entries =
      lastSet name ((name.key, (keywords.get? name.key).getD (o.value name)) ::
        keywords.entries.filter fun e => e.1 ≠ name.key) := by
  have hothers : lastSet name (keywords.entries.filter fun e => e.1 ∉ OptionName.all.map OptionName.key) =
      lastSet name (keywords.entries.filter fun e => e.1 ≠ name.key) := by
    refine lastSet_filter_congr fun e hsets => ?_
    have hiff : e.1 ∈ OptionName.all.map OptionName.key ↔ e.1 = name.key :=
      ⟨eq_key_of_sets hsets, fun h => h ▸ List.mem_map_of_mem name.mem_all⟩
    simp only [hiff, ne_eq]
  rw [entries_overlay, lastSet_append, lastSet_all, hothers, ← lastSet_append, List.singleton_append]

/-- keywords are put over options that were written back, even if there are none -/
theorem value_of_withKeywords? (h : o.withKeywords? keywords = .ok r) :
    r.value name = (lastSet name (o.overlay keywords).entries).getD (Draft.default.value name) := by
  unfold withKeywords? at h
  split at h
  · next hempty =>
    have hnone : o.overlay keywords = o.toMapping := by
      rw [overlay, OrderedMap.absorb, List.isEmpty_iff.1 hempty, List.foldl_nil]
    cases h
    rw [hnone, lastSet_toMapping, Option.getD_some]
  · exact value_of_ofMapping? h

theorem value_of_given (h : given.read? = .ok o) :
    o.value name = (lastSet name given.entries).getD (Draft.default.value name) := by
  cases given with
  | nothing => exact value_of_ofMapping? h
  | mapping m => exact value_of_ofMapping? h
  | built o' =>
    cases h
    exact (congrArg (Option.getD · _) (lastSet_toMapping o)).symm

/-- the entries that decide on an option: a keyword in the spelling that options are written back in stands in front of all
others, and nothing that was given is left in front of it -/
def inEffect (name : OptionName) (given : Given) (keywords : Mapping) : List (String × Json) :=
  match keywords.get? name.key with
  | some v => (name.key, v) :: keywords.entries.filter fun e => e.1 ≠ name.key
  | none => given.entries ++ keywords.entries

/-- written back with keywords put over them, options get their values from the entries in effect -/
theorem getD_lastSet_overlay (h : given.read? = .ok o) :
    (lastSet name (o.overlay keywords).entries).getD (Draft.default.value name) =
      (lastSet name (inEffect name given keywords)).getD (Draft.default.value name) := by
  rw [lastSet_overlay, inEffect]
  cases hkey : keywords.get? name.key with
  | some v => rw [Option.getD_some]
  | none =>
    have hset : sets name (name.key, o.value name) = true := by
      simp [sets_key, isNull_value]
    have hall : keywords.entries.filter (fun e => e.1 ≠ name.key) = keywords.entries :=
      List.filter_eq_self.2 fun e he => by
        have hne : e.1 ≠ name.key := fun h =>
          OrderedMap.get?_eq_none_iff.1 hkey (h ▸ List.mem_map_of_mem he)
        simpa using hne
    rw [Option.getD_none, lastSet_cons_of_sets hset, hall, take_value, lastSet_append, value_of_given h]
    cases lastSet name keywords.entries <;> rfl

theorem value_of_construct? (h : construct? given keywords = .ok r) :
    r.value name = (lastSet name (inEffect name given keywords)).getD (Draft.default.value name) := by
  obtain ⟨o, hgiven, h⟩ := bind_eq_ok_iff.1 h
  rw [value_of_withKeywords? h, getD_lastSet_overlay hgiven]

/-- a keyword that sets an option first, in whatever spelling the later ones are, leaves the order as it was given -/
theorem lastSet_inEffect {v : Json} {before after : List (String × Json)}
    (hentries : keywords.entries = before ++ (name.key, v) :: after) (hnull : v.isNull = false)
    (hbefore : lastSet name before = none) :
    lastSet name (inEffect name given keywords) = lastSet name (given.entries ++ keywords.entries) := by
  have hkey : keywords.get? name.key = some v := by
    rw [OrderedMap.get?_eq_some_iff, hentries]
    exact List.mem_append_right _ List.mem_cons_self
  have hset : sets name (name.key, v) = true := by
    simp [sets_key, hnull]
  have hfront : lastSet name (before.filter fun e => e.1 ≠ name.key) = none :=
    lastSet_eq_none_iff.2 fun e he => lastSet_eq_none_iff.1 hbefore e (List.mem_of_mem_filter he)
  have hbehind : after.filter (fun e => e.1 ≠ name.key) = after := by
    have hnodup := keywords.nodup_keys
    rw [hentries, List.map_append, List.map_cons] at hnodup
    have hnot := (List.nodup_cons.1 (List.nodup_append.1 hnodup).2.1).1
    refine List.filter_eq_self.2 fun e he => ?_
    have hmem : e.1 ∈ after.map (·.1) := List.mem_map_of_mem he
    have hne : e.1 ≠ name.key := fun h => hnot (h ▸ hmem)
    simpa using hne
  have hothers : lastSet name (keywords.entries.filter fun e => e.1 ≠ name.key) = lastSet name after := by
    rw [hentries, List.filter_append, lastSet_append, hfront, List.filter_cons_of_neg (by simp), hbehind, Option.or_none]
  simp only [inEffect, hkey]
  rw [lastSet_cons_of_sets hset, hothers, hentries, lastSet_append, lastSet_append, lastSet_cons_of_sets hset,
    Option.some_or, Option.some_or]

/-- **Options that are given and keywords over them.** An option gets the value that is set last by the entries in effect, or
its default. This is overriding from left to right, unless a keyword in the spelling that options are written back in is
null or stands behind another keyword that sets the option. -/
theorem keywords_override (h : construct? given keywords = .ok r) (name : OptionName) :
    r.value name = (lastSet name (inEffect name given keywords)).getD (Draft.default.value name) ∧
      ((∀ before v after, keywords.entries = before ++ (name.key, v) :: after →
          v.isNull = false ∧ lastSet name before = none) →
        r.value name = (lastSet name (given.entries ++ keywords.entries)).getD (Draft.default.value name)) := by
  refine ⟨value_of_construct? h, fun hfirst => ?_⟩
  rw [value_of_construct? h]
  cases hkey : keywords.get? name.key with
  | none => rw [inEffect, hkey]
  | some v =>
    obtain ⟨before, after, hentries⟩ := List.append_of_mem (OrderedMap.get?_eq_some_iff.1 hkey)
    obtain ⟨hnull, hbefore⟩ := hfirst before v after hentries
    rw [lastSet_inEffect hentries hnull hbefore]

/-- two keywords for the trace variable, of which the later one applies; a null in another spelling does nothing -/
theorem later_keyword_applies :
    ∃ r, construct? (.mapping (.ofList [("traceVariable", .string "x"), ("embed_source", .bool true)]))
        (.ofList [("trace_variable", .string "y"), ("embedSource", .null), ("coverageVariable", .string "z")]) = .ok r ∧
      r.value .traceVariable = .string "z" := by
  have hbuilt : construct? (.mapping (.ofList [("traceVariable", .string "x"), ("embed_source", .bool true)]))
      (.ofList [("trace_variable", .string "y"), ("embedSource", .null), ("coverageVariable", .string "z")]) =
        .ok ⟨"z", true, false, false, false, false⟩ := by
    rfl
  refine ⟨_, hbuilt, ((keywords_override hbuilt .traceVariable).2 fun before v after h => ?_).trans rfl⟩
  have hentries : [("trace_variable", Json.string "y"), ("embedSource", Json.null), ("coverageVariable", Json.string "z")] =
      before ++ (OptionName.traceVariable.key, v) :: after := h
  simp only [OptionName.key, List.cons_eq_append_iff] at hentries
  obtain ⟨rfl, rfl, -⟩ : before = [] ∧ v = .string "y" ∧ _ := by
    simpa using hentries
  exact ⟨rfl, rfl⟩

/-- a null keyword in the spelling that is written back brings the default back, the value that was given is lost -/
theorem null_keyword_resets :
    ∃ r, construct? (.mapping (.ofList [("traceVariable", .string "x")])) (.ofList [("trace_variable", .null)]) = .ok r ∧
      r.value .traceVariable = .string "__trace__" ∧
      lastSet .traceVariable [("traceVariable", .string "x"), ("trace_variable", .null)] = some (.string "x") :=
  ⟨⟨"__trace__", false, false, false, false, false⟩, rfl, rfl, rfl⟩

end Options

end Turnstile
