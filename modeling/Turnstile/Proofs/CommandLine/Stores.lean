/-
Texts that are stored.

- `FileSystem.store`: a text written below directories that are made for it. `exists_store_iff` says when this can be done,
  `entry?_store` what is different then;
- `FileSystem.storeAll`: several texts one after the other. By `grown_of_storeAll` files stay files and directories stay
  directories, and by `entry?_storeAll` texts with different places are all there in the end;
- `FileSystem.textAt?`: the text of a file, whatever way leads to it;
- `FileSystem.Readable`: a file that can be read, and by `Readable.grown` still can after texts were stored.
-/
import Turnstile.Proofs.CommandLine.Places
import Turnstile.Proofs.Program.Reading

namespace Turnstile

namespace FileSystem

open Turnstile.Path

variable {fs fs' : FileSystem} {p : Path} {q : List String}

/-! ## Storing a text -/

/-- writes a text below directories that are made for it -/
def store (fs : FileSystem) (target : Path) (text : String) : Except FileFault FileSystem := do
  (← fs.makeDirectories target.parent).writeText target text

/-- the places of the directories that are made for a file -/
def above (fs : FileSystem) (target : Path) : List (List String) := trail (fs.origin target) target.parent.parts

/-- a text can be written at the place: nothing is there, or a file -/
def TakesText (fs : FileSystem) (q : List String) : Prop := fs.entry? q ≠ some .directory ∧ fs.entry? q ≠ some .loop

theorem writeText_eq_ok_iff {text : String} : fs.writeText p text = .ok fs' ↔
    ∃ place, fs.find p = .ok place ∧ fs.TakesText place ∧ fs' = fs.put place (.file text.toUTF8.toList) := by
  rw [writeText, bind_eq_ok_iff]
  refine exists_congr fun place => and_congr_right fun _ => ?_
  split
  · next h => simp [TakesText, h]
  · next h => simp [TakesText, h]
  · next hdirectory hloop =>
    exact ⟨fun he => ⟨⟨hdirectory, hloop⟩, (Except.ok.inj he).symm⟩, fun ⟨_, he⟩ => he ▸ rfl⟩

/-- the trail of a path ends with the place of the path, behind the places above it -/
theorem dropLast_trail (fs : FileSystem) (target : Path) : ∀ d ∈ (fs.origin target :: trail (fs.origin target)
    target.parts).dropLast, d = fs.origin target ∨ d ∈ fs.above target := by
  intro d hd
  rcases List.eq_nil_or_concat target.parts with hnil | ⟨front, last, hparts⟩
  · rw [hnil] at hd
    simp [trail] at hd
  · have habove : fs.above target = trail (fs.origin target) front := by simp [above, Path.parent, hparts]
    rw [habove]
    rw [hparts, List.concat_eq_append, trail_append, ← List.cons_append] at hd
    change d ∈ (_ ++ [_]).dropLast at hd
    rw [List.dropLast_concat, List.mem_cons] at hd
    exact hd

/-- directories that are made for a file lead to it -/
theorem find_of_makeDirectories {target : Path} (h : fs.makeDirectories target.parent = .ok fs') :
    fs'.find target = .ok (resolve fs.workingDirectory target) := by
  obtain ⟨hwd, habove, -⟩ := entry?_makeDirectoriesFrom h
  have horigin : fs'.origin target = fs.origin target := by rw [origin, origin, hwd]
  rw [find, horigin]
  refine walk_eq_ok_iff.2 ⟨rfl, fun d hd => ?_⟩
  rcases dropLast_trail fs target d hd with rfl | hd
  · exact entry?_of_isPrefix (hwd ▸ origin_isPrefix fs target)
  · exact habove d hd

theorem store_eq_ok_iff {target : Path} {text : String} : fs.store target text = .ok fs' ↔
    ∃ made, fs.makeDirectories target.parent = .ok made ∧
      made.TakesText (resolve fs.workingDirectory target) ∧
      fs' = made.put (resolve fs.workingDirectory target) (.file text.toUTF8.toList) := by
  rw [store, bind_eq_ok_iff]
  refine exists_congr fun made => and_congr_right fun hmade => ?_
  rw [writeText_eq_ok_iff, find_of_makeDirectories hmade]
  simp

/-- **When a text can be stored**: nothing but directories is above its place, and no directory is at it or will be. -/
theorem exists_store_iff {target : Path} {text : String} : (∃ fs', fs.store target text = .ok fs') ↔
    (∀ d ∈ fs.above target, ¬ fs.IsBlocked d) ∧ resolve fs.workingDirectory target ∉ fs.above target ∧
      fs.TakesText (resolve fs.workingDirectory target) := by
  constructor
  · rintro ⟨fs', h⟩
    obtain ⟨made, hmade, hplace, -⟩ := store_eq_ok_iff.1 h
    obtain ⟨-, habove, hentry⟩ := entry?_makeDirectoriesFrom hmade
    have hmem : resolve fs.workingDirectory target ∉ fs.above target := fun hmem => hplace.1 (habove _ hmem)
    refine ⟨exists_makeDirectoriesFrom_iff.1 ⟨made, hmade⟩, hmem, ?_⟩
    rwa [TakesText, hentry, if_neg fun h => hmem h.1] at hplace
  · rintro ⟨hfree, hmem, hplace⟩
    obtain ⟨made, hmade⟩ := exists_makeDirectoriesFrom_iff.2 hfree
    obtain ⟨-, -, hentry⟩ := entry?_makeDirectoriesFrom hmade
    refine ⟨_, store_eq_ok_iff.2 ⟨made, hmade, ?_, rfl⟩⟩
    rw [TakesText, hentry, if_neg fun h => hmem h.1]
    exact hplace

/-- **What storing a text does**: the text is at its place, and what is new besides are directories above it. -/
theorem entry?_store {target : Path} {text : String} (h : fs.store target text = .ok fs') :
    fs'.workingDirectory = fs.workingDirectory ∧
      ∀ q, fs'.entry? q =
        if q = resolve fs.workingDirectory target then some (.file text.toUTF8.toList)
        else if q ∈ fs.above target ∧ fs.entry? q = none then some .directory
        else fs.entry? q := by
  obtain ⟨made, hmade, hplace, rfl⟩ := store_eq_ok_iff.1 h
  obtain ⟨hwd, -, hentry⟩ := entry?_makeDirectoriesFrom hmade
  refine ⟨hwd, fun q => ?_⟩
  rw [entry?_put hplace.1, hentry]
  rfl

/-! ## Storing several texts -/

/-- writes texts one after the other -/
def storeAll (fs : FileSystem) (writes : List (Path × String)) : Except FileFault FileSystem :=
  writes.foldlM (fun fs w => fs.store w.1 w.2) fs

theorem storeAll_singleton {w : Path × String} : fs.storeAll [w] = .ok fs' ↔ fs.store w.1 w.2 = .ok fs' := by
  simp [storeAll]

theorem storeAll_append {as bs : List (Path × String)} :
    fs.storeAll (as ++ bs) = .ok fs' ↔ ∃ mid, fs.storeAll as = .ok mid ∧ mid.storeAll bs = .ok fs' := by
  rw [storeAll, List.foldlM_append, bind_eq_ok_iff]
  rfl

/-- what some writes leave: everything that was there is still there and of its kind, and what is new is a text that was
written or a directory above one -/
structure Grown (fs : FileSystem) (writes : List (Path × String)) (fs' : FileSystem) : Prop where
  workingDirectory : fs'.workingDirectory = fs.workingDirectory
  directory : ∀ {q}, fs.entry? q = some .directory → fs'.entry? q = some .directory
  file : ∀ {q}, fs.HoldsFile q → fs'.HoldsFile q
  ofDirectory : ∀ {q}, fs'.entry? q = some .directory → fs.entry? q = some .directory ∨ ∃ w ∈ writes, q ∈ fs.above w.1
  ofFile : ∀ {q bytes}, fs'.entry? q = some (.file bytes) → fs.entry? q = some (.file bytes) ∨
    ∃ w ∈ writes, q = resolve fs.workingDirectory w.1 ∧ bytes = w.2.toUTF8.toList
  ofLoop : ∀ {q}, fs'.entry? q = some .loop → fs.entry? q = some .loop

theorem Grown.refl (fs : FileSystem) : Grown fs [] fs := ⟨rfl, id, id, Or.inl, Or.inl, id⟩

theorem above_of_workingDirectory (h : fs'.workingDirectory = fs.workingDirectory) (target : Path) :
    fs'.above target = fs.above target := by
  rw [above, origin, h]
  rfl

theorem Grown.store {writes : List (Path × String)} {mid : FileSystem} {w : Path × String} (h : Grown fs writes mid)
    (hstore : mid.store w.1 w.2 = .ok fs') : Grown fs (writes ++ [w]) fs' := by
  obtain ⟨-, -, hplace⟩ := exists_store_iff.1 ⟨fs', hstore⟩
  obtain ⟨hwd, hentry⟩ := entry?_store hstore
  rw [h.workingDirectory] at hplace hentry
  rw [above_of_workingDirectory h.workingDirectory] at hentry
  refine ⟨hwd.trans h.workingDirectory, fun {q} hq => ?_, fun {q} hq => ?_, fun {q} hq => ?_, fun {q bytes} hq => ?_,
    fun {q} hq => ?_⟩
  · have hmid := h.directory hq
    have hdirectory := hplace.1
    rw [hentry]
    grind
  · obtain ⟨bytes, hbytes⟩ := h.file hq
    rw [HoldsFile, hentry]
    grind
  · rw [hentry] at hq
    split_ifs at hq with hself hnew
    · cases hq
    · exact Or.inr ⟨w, by simp, hnew.1⟩
    · obtain hold | ⟨v, hv, habove⟩ := h.ofDirectory hq
      · exact Or.inl hold
      · exact Or.inr ⟨v, by simp [hv], habove⟩
  · rw [hentry] at hq
    split_ifs at hq with hself hnew
    · cases hq
      exact Or.inr ⟨w, by simp, hself, rfl⟩
    · cases hq
    · obtain hold | ⟨v, hv, hbytes⟩ := h.ofFile hq
      · exact Or.inl hold
      · exact Or.inr ⟨v, by simp [hv], hbytes⟩
  · rw [hentry] at hq
    split_ifs at hq
    · cases hq
    · cases hq
    · exact h.ofLoop hq

/-- **Files stay files and directories stay directories.** -/
theorem grown_of_storeAll {writes : List (Path × String)} (h : fs.storeAll writes = .ok fs') : Grown fs writes fs' := by
  induction writes using List.reverseRecOn generalizing fs' with
  | nil =>
    cases h
    exact Grown.refl fs
  | append_singleton writes w ih =>
    obtain ⟨mid, hmid, hstore⟩ := storeAll_append.1 h
    rw [storeAll_singleton] at hstore
    exact (ih hmid).store hstore

/-- texts written to different places are all there in the end -/
theorem entry?_storeAll {writes : List (Path × String)}
    (hnodup : (writes.map fun w => resolve fs.workingDirectory w.1).Nodup) (h : fs.storeAll writes = .ok fs') :
    ∀ w ∈ writes, fs'.entry? (resolve fs.workingDirectory w.1) = some (.file w.2.toUTF8.toList) := by
  induction writes using List.reverseRecOn generalizing fs' with
  | nil => simp
  | append_singleton writes w ih =>
    obtain ⟨mid, hmid, hstore⟩ := storeAll_append.1 h
    rw [storeAll_singleton] at hstore
    obtain ⟨-, hentry⟩ := entry?_store hstore
    rw [(grown_of_storeAll hmid).workingDirectory] at hentry
    rw [List.map_append, List.nodup_append] at hnodup
    intro v hv
    rw [hentry]
    rcases List.mem_append.1 hv with hv | hv
    · have hold := ih hnodup.1 hmid v hv
      have hne : resolve fs.workingDirectory v.1 ≠ resolve fs.workingDirectory w.1 :=
        hnodup.2.2 _ (List.mem_map_of_mem hv) _ (by simp)
      rw [if_neg hne, if_neg (by simp [hold]), hold]
    · rw [List.mem_singleton.1 hv, if_pos rfl]

/-! ## The text of a file -/

/-- the text of the file at a place -/
def textAt? (fs : FileSystem) (place : List String) : Option String :=
  match fs.entry? place with
  | some (.file bytes) => (Text.Utf8.decode bytes).toOption.map fun cs => String.ofList (unifyLineEnds cs)
  | _ => none

theorem textAt?_congr (h : fs'.entry? q = fs.entry? q) : fs'.textAt? q = fs.textAt? q := by
  rw [textAt?, h, textAt?]

/-- what is read of a path is the text at the place that it leads to -/
theorem readText_eq_ok {text : String} (h : fs.readText p = .ok text) :
    fs.find p = .ok (resolve fs.workingDirectory p) ∧ fs.HoldsFile (resolve fs.workingDirectory p) ∧
      fs.textAt? (resolve fs.workingDirectory p) = some text := by
  rw [readText] at h
  split at h
  · cases h
  next bytes hbytes =>
  split at h
  · cases h
  next cs hcs =>
  cases h
  obtain ⟨place, hfind, hbytes⟩ := bind_eq_ok_iff.1 hbytes
  obtain ⟨rfl, -⟩ := find_above hfind
  split at hbytes
  · next bytes' hentry =>
    cases hbytes
    refine ⟨hfind, ⟨bytes, hentry⟩, ?_⟩
    rw [textAt?, hentry]
    simp [hcs, Except.toOption]
  · cases hbytes
  · cases hbytes
  · cases hbytes

/-! ## Files that can be read -/

/-- what reading a file takes: it is there, below directories only -/
structure Readable (fs : FileSystem) (place : List String) : Prop where
  file : fs.HoldsFile place
  above : ∀ d, d <+: place → d ≠ place → fs.entry? d = some .directory

theorem readable_of_readText {p : Path} {text : String} (h : fs.readText p = .ok text) :
    fs.Readable (Path.resolve fs.workingDirectory p) := by
  obtain ⟨hfind, hfile, -⟩ := readText_eq_ok h
  exact ⟨hfile, (find_above hfind).2⟩

theorem Readable.ne_nil (h : fs.Readable q) : q ≠ [] := by
  rintro rfl
  obtain ⟨bytes, hbytes⟩ := h.file
  rw [entry?_of_isPrefix List.nil_prefix] at hbytes
  cases hbytes

/-- writing keeps files where they can be read -/
theorem Readable.grown {writes : List (Path × String)} (h : fs.Readable q) (hgrown : Grown fs writes fs') :
    fs'.Readable q :=
  ⟨hgrown.file h.file, fun d hd hne => hgrown.directory (h.above d hd hne)⟩

end FileSystem

end Turnstile
