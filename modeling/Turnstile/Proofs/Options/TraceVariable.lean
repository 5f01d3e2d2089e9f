/-
Which names the trace variable may have.

However options come about, the trace variable in effect is checked last. It has to be a name of ASCII letters, digits, `_` and
`$` that no digit begins; but a newline behind the name is let through.
- `isIdentifier_iff`: the names that pass the check;
- `Made`: options that come into existence, by whatever steps;
- `Route`: one way to build options, and `Route.Asks`: the trace variable that it asks for;
- `traceVariable_accepted`: exactly the names that pass exist, and each route accepts exactly these;
- `newline_accepted`: a name with a newline behind it, which is none, is accepted.
-/
import Turnstile.Proofs.Options.Overriding

namespace Turnstile

/-! ## Names -/

def IsNameStart (c : Char) : Prop := ('A' ≤ c ∧ c ≤ 'Z') ∨ ('a' ≤ c ∧ c ≤ 'z') ∨ c = '_' ∨ c = '$'

def IsNameRest (c : Char) : Prop := IsNameStart c ∨ ('0' ≤ c ∧ c ≤ '9')

/-- a letter, `_` or `$`, and only such characters and digits behind it -/
def IsName (s : String) : Prop := ∃ c cs, s.toList = c :: cs ∧ IsNameStart c ∧ ∀ d ∈ cs, IsNameRest d

/-- a name, or a name with a newline behind it -/
def IsAccepted (s : String) : Prop := IsName s ∨ ∃ t, IsName t ∧ s = t ++ "\n"

/-- a range that is tested bound by bound, as for digits and small letters (for capitals it is one test) -/
theorem between_iff {a b c : Char} : (decide (a ≤ c) && decide (c ≤ b)) = true ↔ a ≤ c ∧ c ≤ b := by
  rw [Bool.and_eq_true, decide_eq_true_iff, decide_eq_true_iff]

theorem isAlpha_iff {c : Char} : c.isAlpha = true ↔ ('A' ≤ c ∧ c ≤ 'Z') ∨ ('a' ≤ c ∧ c ≤ 'z') := by
  have hupper : c.isUpper = true ↔ 'A' ≤ c ∧ c ≤ 'Z' := decide_eq_true_iff
  have hlower : c.isLower = true ↔ 'a' ≤ c ∧ c ≤ 'z' := between_iff
  exact Bool.or_eq_true_iff.trans (or_congr hupper hlower)

theorem isIdentifierStart_iff {c : Char} : isIdentifierStart c = true ↔ IsNameStart c := by
  simp [isIdentifierStart, IsNameStart, isAlpha_iff, or_assoc]

theorem isIdentifierRest_iff {c : Char} : isIdentifierRest c = true ↔ IsNameRest c := by
  have hdigit : c.isDigit = true ↔ '0' ≤ c ∧ c ≤ '9' := between_iff
  simp [isIdentifierRest, IsNameRest, isIdentifierStart_iff, hdigit]

/-- **What passes the check**: a name, with or without a newline behind it. -/
theorem isIdentifier_iff {s : String} : isIdentifier s = true ↔ IsAccepted s := by
  cases hs : s.toList with
  | nil =>
    have hfails : isIdentifier s = false := by simp [isIdentifier, hs]
    rw [hfails]
    refine iff_of_false (by simp) ?_
    rintro (⟨c, cs, hname, -⟩ | ⟨t, -, rfl⟩)
    · rw [hs] at hname
      cases hname
    · simp at hs
  | cons c cs =>
    have hcheck : isIdentifier s = true ↔ IsNameStart c ∧
        ((∀ d ∈ cs, IsNameRest d) ∨ cs.getLast? = some '\n' ∧ ∀ d ∈ cs.dropLast, IsNameRest d) := by
      simp [isIdentifier, hs, isIdentifierStart_iff, isIdentifierRest_iff]
    rw [hcheck]
    constructor
    · rintro ⟨hc, hcs | ⟨hlast, hcs⟩⟩
      · exact Or.inl ⟨c, cs, hs, hc, hcs⟩
      · refine Or.inr ⟨String.ofList (c :: cs.dropLast), ⟨c, cs.dropLast, by simp, hc, hcs⟩, ?_⟩
        have hsplit : cs = cs.dropLast ++ ['\n'] := (List.dropLast_append_getLast? _ hlast).symm
        apply String.toList_injective
        rw [hs, hsplit]
        simp
    · rintro (⟨c', cs', hname, hc, hcs⟩ | ⟨t, ⟨c', cs', hname, hc, hcs⟩, rfl⟩)
      · obtain ⟨rfl, rfl⟩ := List.cons.inj (hs.symm.trans hname)
        exact ⟨hc, Or.inl hcs⟩
      · rw [String.toList_append, hname] at hs
        obtain ⟨rfl, rfl⟩ := List.cons.inj hs
        exact ⟨hc, Or.inr ⟨by simp, by simpa using hcs⟩⟩

namespace Options

/-! ## Ways to build options -/

/-- options that come into existence: from single values, from a mapping, or with keywords over options that exist -/
inductive Made : Options → Prop where
  | direct {d : Draft} {o : Options} (built : d.check = .ok o) : Made o
  | mapping {m : Mapping} {o : Options} (built : ofMapping? m = .ok o) : Made o
  | keywords {o r : Options} {keywords : Mapping} (base : Made o) (built : o.withKeywords? keywords = .ok r) : Made r

/-- one way to build options -/
inductive Route where
  /-- from a value for each option -/
  | direct (d : Draft)
  | mapping (m : Mapping)
  /-- from what an instrumenter is given, and keywords over it -/
  | keywords (given : Given) (keywords : Mapping)

def Route.build? : Route → Except Misuse Options
  | .direct d => d.check
  | .mapping m => ofMapping? m
  | .keywords given ks => construct? given ks

/-- all keys of a mapping are spellings of options -/
def Known (m : Mapping) : Prop := ∀ k ∈ m.keys, (OptionName.ofKey? k).isSome = true

instance (m : Mapping) : Decidable (Known m) :=
  inferInstanceAs (Decidable (∀ k ∈ m.keys, (OptionName.ofKey? k).isSome = true))

/-- the trace variable that is set last by some entries, or the default -/
def traceVariableOf (es : List (String × Json)) : Json :=
  (lastSet .traceVariable es).getD (Draft.default.value .traceVariable)

/-- the trace variable in effect is the text `s`, and nothing else is to be refused -/
inductive Route.Asks : Route → String → Prop where
  | direct {d : Draft} {s : String} (inEffect : d.traceVariable = .string s) : Asks (.direct d) s
  | mapping {m : Mapping} {s : String} (known : Known m) (inEffect : traceVariableOf m.entries = .string s) :
      Asks (.mapping m) s
  | keywords {given : Given} {keywords : Mapping} {s : String} (base : ∃ o, Made o ∧ given.read? = .ok o)
      (known : Known keywords) (inEffect : traceVariableOf (inEffect .traceVariable given keywords) = .string s) :
      Asks (.keywords given keywords) s

variable {d : Draft} {m keywords : Mapping} {o r : Options} {given : Given} {s : String} {es : List (String × Json)}

/-! ## The check at the end of each route -/

theorem check_of_isIdentifier (hd : d.traceVariable = .string s) (hs : isIdentifier s = true) :
    ∃ o, d.check = .ok o ∧ o.traceVariable = s := by
  simp [Draft.check, hd, hs]

theorem check_of_not_isIdentifier (hd : d.traceVariable = .string s) (hs : isIdentifier s = false) :
    d.check = .error (.traceVariable (Text.quoted s)) := by
  simp [Draft.check, hd, hs]

theorem isIdentifier_of_check (h : d.check = .ok o) : isIdentifier o.traceVariable = true := by
  unfold Draft.check at h
  split at h
  · split at h
    · next hs =>
      cases h
      exact hs
    · cases h
  · cases h

/-- entries under known keys can all be applied -/
theorem exists_foldlM_apply (h : ∀ e ∈ es, (OptionName.ofKey? e.1).isSome = true) (d : Draft) :
    ∃ d', es.foldlM Draft.apply d = .ok d' := by
  induction es generalizing d with
  | nil => exact ⟨d, rfl⟩
  | cons e es ih =>
    obtain ⟨he, hes⟩ := List.forall_mem_cons.1 h
    obtain ⟨name, hname⟩ := Option.isSome_iff_exists.1 he
    obtain ⟨next, hnext⟩ : ∃ next, d.apply e = .ok next := by
      rw [Draft.apply, hname]
      cases e.2 <;> exact ⟨_, rfl⟩
    rw [List.foldlM_cons, hnext]
    exact ih hes next

/-- a mapping with known keys comes down to the check of the trace variable in effect -/
theorem ofMapping?_eq_check (hknown : Known m) :
    ∃ d : Draft, d.traceVariable = traceVariableOf m.entries ∧ ofMapping? m = d.check := by
  have hentries : ∀ e ∈ m.entries, (OptionName.ofKey? e.1).isSome = true := fun e he => hknown e.1 (List.mem_map_of_mem he)
  obtain ⟨d, hd⟩ := exists_foldlM_apply hentries .default
  have hvalue : d.value .traceVariable = traceVariableOf m.entries := value_of_foldlM hd
  refine ⟨d, hvalue, ?_⟩
  rw [ofMapping?, hd]
  rfl

theorem known_overlay (o : Options) (hknown : Known keywords) : Known (o.overlay keywords) := by
  intro k hk
  rw [keys_overlay, List.mem_append] at hk
  rcases hk with hk | hk
  · obtain ⟨name, -, rfl⟩ := List.mem_map.1 hk
    rw [OptionName.ofKey?_key]
    rfl
  · exact hknown k (List.mem_of_mem_filter hk)

theorem withKeywords?_of_ne (h : keywords.entries ≠ []) : o.withKeywords? keywords = ofMapping? (o.overlay keywords) :=
  if_neg (by simpa using h)

/-- keywords over options that exist come down to the check of the trace variable in effect, if there are any -/
theorem construct?_eq_check (hgiven : given.read? = .ok o) (hne : keywords.entries ≠ []) (hknown : Known keywords) :
    ∃ d : Draft, d.traceVariable = traceVariableOf (inEffect .traceVariable given keywords) ∧
      construct? given keywords = d.check := by
  obtain ⟨d, hd, hcheck⟩ := ofMapping?_eq_check (known_overlay o hknown)
  refine ⟨d, ?_, ?_⟩
  · rw [hd, traceVariableOf, traceVariableOf, getD_lastSet_overlay hgiven]
  · rw [construct?, hgiven, ← hcheck, ← withKeywords?_of_ne hne]
    rfl

/-! ## What is accepted -/

theorem Made.isIdentifier (h : Made o) : isIdentifier o.traceVariable = true := by
  induction h with
  | direct built => exact isIdentifier_of_check built
  | mapping built =>
    obtain ⟨d, -, hcheck⟩ := bind_eq_ok_iff.1 built
    exact isIdentifier_of_check hcheck
  | keywords base built ih =>
    unfold withKeywords? at built
    split at built
    · cases built
      exact ih
    · obtain ⟨d, -, hcheck⟩ := bind_eq_ok_iff.1 built
      exact isIdentifier_of_check hcheck

/-- a route that asks for a trace variable checks it, or hands on options that were checked before -/
theorem Route.Asks.cases_check {route : Route} (h : route.Asks s) :
    (∃ d : Draft, d.traceVariable = .string s ∧ route.build? = d.check) ∨
      ∃ o, Made o ∧ o.traceVariable = s ∧ route.build? = .ok o := by
  cases h with
  | @direct d s hd => exact Or.inl ⟨d, hd, rfl⟩
  | @mapping m s known hm =>
    obtain ⟨d, hd, hcheck⟩ := ofMapping?_eq_check known
    exact Or.inl ⟨d, hd.trans hm, hcheck⟩
  | @keywords given keywords s base known hs =>
    obtain ⟨o, ho, hgiven⟩ := base
    by_cases hne : keywords.entries = []
    · have hsame : construct? given keywords = .ok o := by
        rw [construct?, hgiven]
        exact if_pos (by simp [hne])
      have hvalue : o.value .traceVariable = .string s := (value_of_construct? hsame).trans hs
      exact Or.inr ⟨o, ho, Json.string.inj hvalue, hsame⟩
    · obtain ⟨d, hd, hcheck⟩ := construct?_eq_check hgiven hne known
      exact Or.inl ⟨d, hd.trans hs, hcheck⟩

/-- **Which trace variables are accepted.** Options with a trace variable exist exactly if it is a name, or a name with a
newline behind it. Each route that asks for such a trace variable builds options with it, and each route that asks for
another one is refused. -/
theorem traceVariable_accepted (s : String) :
    ((∃ o, Made o ∧ o.traceVariable = s) ↔ IsAccepted s) ∧
    ∀ route : Route, route.Asks s →
      ((∃ o, route.build? = .ok o ∧ o.traceVariable = s) ↔ IsAccepted s) ∧
      (¬ IsAccepted s → route.build? = .error (.traceVariable (Text.quoted s))) := by
  simp only [← isIdentifier_iff]
  refine ⟨⟨?_, fun hs => ?_⟩, fun route hasks => ?_⟩
  · rintro ⟨o, ho, rfl⟩
    exact ho.isIdentifier
  · obtain ⟨o, ho, rfl⟩ := check_of_isIdentifier (d := { Draft.default with traceVariable := .string s }) rfl hs
    exact ⟨o, .direct ho, rfl⟩
  · rcases hasks.cases_check with ⟨d, hd, hbuild⟩ | ⟨o, ho, rfl, hbuild⟩
    · rw [hbuild]
      refine ⟨⟨?_, check_of_isIdentifier hd⟩, fun hs => check_of_not_isIdentifier hd (by simpa using hs)⟩
      rintro ⟨o, ho, rfl⟩
      exact isIdentifier_of_check ho
    · exact ⟨⟨fun _ => ho.isIdentifier, fun _ => ⟨o, hbuild, rfl⟩⟩, fun hs => absurd ho.isIdentifier hs⟩

/-- a mapping with a name, to put keywords over -/
def namedOptions : Mapping := .ofList [("traceVariable", .string "x")]

/-- a keyword that is no name is refused, whatever name it is put over -/
theorem accentedKeyword_refused :
    Route.Asks (.keywords (.mapping namedOptions) (.ofList [("coverageVariable", .string "é")])) "é" ∧
    construct? (.mapping namedOptions) (.ofList [("coverageVariable", .string "é")]) = .error (.traceVariable "'é'") := by
  have hnamed : ofMapping? namedOptions = .ok ⟨"x", false, false, false, false, false⟩ := rfl
  have hasks : Route.Asks (.keywords (.mapping namedOptions) (.ofList [("coverageVariable", .string "é")])) "é" :=
    .keywords ⟨_, .mapping hnamed, hnamed⟩ (by decide) rfl
  have hfails : ¬ IsAccepted "é" := by
    rw [← isIdentifier_iff]
    decide
  have hquoted : Text.quoted "é" = "'é'" := by decide +kernel
  rw [← hquoted]
  exact ⟨hasks, ((traceVariable_accepted "é").2 _ hasks).2 hfails⟩

/-- a newline behind a name is let through, though the text is no name -/
theorem newline_accepted : ¬ IsName "x\n" ∧
    ∃ o, ofMapping? (.ofList [("traceVariable", .string "x\n")]) = .ok o ∧ o.traceVariable = "x\n" := by
  refine ⟨?_, ⟨"x\n", false, false, false, false, false⟩, rfl, rfl⟩
  rintro ⟨c, cs, hname, -, hcs⟩
  obtain ⟨rfl, rfl⟩ : 'x' = c ∧ ['\n'] = cs := by simpa using hname
  have hnewline : IsNameRest '\n' := hcs '\n' List.mem_cons_self
  rw [← isIdentifierRest_iff] at hnewline
  cases hnewline

end Options

end Turnstile
