/-
Where outputs go.

The files of a command, if each has a place (`targets?_eq_ok_iff`), keep the layout below an output directory that they have
below the deepest directory that holds them all. So two files share an output exactly if they are at one place
(`targetOf_eq_iff`), and above an output there are the directories of the output directory and those that mirror directories
of the files (`mem_above_targetOf_iff`).
`exists_laidOut` says of all outputs of some files together that there are such and where they are.
-/
import Turnstile.CommandLine.Run
import Turnstile.Proofs.CommandLine.Stores

namespace Turnstile

/-! ## The deepest common directory -/

namespace Path

theorem foldl_commonPair_prefix (init : List String) (ps : List (List String)) :
    ps.foldl commonPair init <+: init ∧ ∀ p ∈ ps, ps.foldl commonPair init <+: p := by
  induction ps generalizing init with
  | nil => simp
  | cons p ps ih =>
    obtain ⟨hinit, hps⟩ := ih (commonPair init p)
    exact ⟨hinit.trans (commonPair_prefix_left init p),
      List.forall_mem_cons.2 ⟨hinit.trans (commonPair_prefix_right init p), hps⟩⟩

/-- the deepest directory that holds all of some places is above each of them -/
theorem commonDirectory_prefix {places : List (List String)} {place : List String} (h : place ∈ places) :
    commonDirectory places <+: place.dropLast := by
  cases places with
  | nil => simp at h
  | cons p ps =>
    obtain ⟨hp, hps⟩ := foldl_commonPair_prefix p.dropLast (ps.map List.dropLast)
    rcases List.mem_cons.1 h with rfl | h
    · exact hp
    · exact hps _ (List.mem_map_of_mem h)

theorem prefix_commonPair {d a b : List String} (ha : d <+: a) (hb : d <+: b) : d <+: commonPair a b := by
  induction d generalizing a b with
  | nil => exact List.nil_prefix
  | cons x d ih =>
    obtain ⟨a, rfl⟩ := ha
    obtain ⟨b, rfl⟩ := hb
    simp only [List.cons_append, commonPair, if_true]
    exact List.cons_prefix_cons.2 ⟨rfl, ih (List.prefix_append d a) (List.prefix_append d b)⟩

theorem prefix_foldl_commonPair {d init : List String} {ps : List (List String)} (hinit : d <+: init)
    (hps : ∀ p ∈ ps, d <+: p) : d <+: ps.foldl commonPair init := by
  induction ps generalizing init with
  | nil => exact hinit
  | cons p ps ih =>
    obtain ⟨hp, hps⟩ := List.forall_mem_cons.1 hps
    exact ih (prefix_commonPair hinit hp) hps

/-- **The deepest common directory**: the directories that hold all of some places are those above it. -/
theorem prefix_commonDirectory_iff {places : List (List String)} (hne : places ≠ []) {d : List String} :
    d <+: commonDirectory places ↔ ∀ place ∈ places, d <+: place.dropLast := by
  constructor
  · exact fun h place hplace => h.trans <| commonDirectory_prefix hplace
  · intro h
    obtain ⟨p, ps, rfl⟩ := List.exists_cons_of_ne_nil hne
    obtain ⟨hp, hps⟩ := List.forall_mem_cons.1 h
    refine prefix_foldl_commonPair hp fun q hq => ?_
    obtain ⟨place, hplace, rfl⟩ := List.mem_map.1 hq
    exact hps place hplace

theorem relativeTo?_of_isPrefix {directory place : List String} (h : directory <+: place) :
    relativeTo? directory place = some (place.drop directory.length) :=
  if_pos (List.isPrefixOf_iff_prefix.2 h)

end Path

/-! ## Outputs -/

namespace InstrumentCommand

open Turnstile.Path

variable (c : InstrumentCommand) (wd : List String) (output : Path)

/-- the deepest directory that holds all files of a command -/
def root : List String := commonDirectory (c.files.map (resolve wd))

/-- the way from that directory to a file -/
def below (file : Path) : List String := (resolve wd file).drop (c.root wd).length

/-- where the output of a file goes -/
def targetOf (file : Path) : Path := output.append (c.below wd file)

variable {c wd output} {file other : Path}

theorem root_isPrefix (wd : List String) (h : file ∈ c.files) : c.root wd <+: (resolve wd file).dropLast :=
  commonDirectory_prefix (List.mem_map_of_mem h)

theorem root_isPrefix_resolve (wd : List String) (h : file ∈ c.files) : c.root wd <+: resolve wd file :=
  (root_isPrefix wd h).trans (List.dropLast_prefix _)

theorem mapM_eq_some_map {α β : Type} {f : α → Option β} {g : α → β} {xs : List α} (h : ∀ x ∈ xs, f x = some (g x)) :
    xs.mapM f = some (xs.map g) := by
  induction xs with
  | nil => rfl
  | cons x xs ih =>
    obtain ⟨hx, hxs⟩ := List.forall_mem_cons.1 h
    rw [List.mapM_cons, hx, ih hxs]
    rfl

/-- **Some files always have outputs.** -/
theorem outputPaths?_eq (hfiles : c.files ≠ []) :
    outputPaths? wd output c.files = some (c.files.map (c.targetOf wd output)) := by
  have hplaces : (c.files.map (resolve wd)).isEmpty = false := by simpa using hfiles
  have hway : ∀ file ∈ c.files, (relativeTo? (c.root wd) (resolve wd file)).map output.append =
      some (c.targetOf wd output file) := fun file hfile => by
    rw [relativeTo?_of_isPrefix (root_isPrefix_resolve wd hfile)]
    rfl
  rw [outputPaths?]
  simp only [hplaces, Bool.false_eq_true, if_false]
  rw [List.mapM_map]
  exact mapM_eq_some_map hway

theorem exists_mapM_iff {ε α β : Type} {f : α → Except ε β} {xs : List α} :
    (∃ ys, xs.mapM f = .ok ys) ↔ ∀ x ∈ xs, ∃ y, f x = .ok y := by
  constructor
  · rintro ⟨ys, h⟩ x hx
    obtain ⟨y, -, hy⟩ := exists_right_of_forall₂ (forall₂_of_mapM h) hx
    exact ⟨y, hy⟩
  · intro h
    induction xs with
    | nil => exact ⟨[], rfl⟩
    | cons x xs ih =>
      obtain ⟨hx, hxs⟩ := List.forall_mem_cons.1 h
      obtain ⟨y, hy⟩ := hx
      obtain ⟨ys, hys⟩ := ih hxs
      exact ⟨y :: ys, by rw [List.mapM_cons, hy, hys]; rfl⟩

/-- there are files, and each of them has a place -/
def Placed (c : InstrumentCommand) (fs : FileSystem) : Prop :=
  c.files ≠ [] ∧ ∀ file ∈ c.files, ∃ place, fs.resolve? file = .ok place

/-- a file that has a place has no null character in its path -/
theorem Placed.hasNull_eq_false {fs : FileSystem} (h : c.Placed fs) (hfile : file ∈ c.files) : file.hasNull = false := by
  obtain ⟨place, hplace⟩ := h.2 file hfile
  by_contra hnull
  rw [FileSystem.resolve?, if_pos (by simpa using hnull)] at hplace
  cases hplace

/-- **When files are sent to outputs at all**: there are some, and all of them have places. -/
theorem targets?_eq_ok_iff {fs : FileSystem} (h : c.output = some output) {units : List (Path × Option Path)} :
    c.targets? fs = .ok units ↔ c.Placed fs ∧
      units = c.files.map fun file => (file, some (c.targetOf fs.workingDirectory output file)) := by
  have hzip : c.files.zip ((c.files.map (c.targetOf fs.workingDirectory output)).map some) =
      c.files.map fun file => (file, some (c.targetOf fs.workingDirectory output file)) := by
    rw [List.map_map]
    exact List.map_prod_left_eq_zip.symm
  rw [targets?, h]
  dsimp only
  rw [bind_eq_ok_iff]
  simp only [mapError_eq_ok_iff]
  rw [exists_and_right, exists_mapM_iff, Placed]
  by_cases hfiles : c.files = []
  · simp [hfiles, outputPaths?]
  · rw [outputPaths?_eq hfiles, and_iff_right hfiles, ← hzip]
    exact and_congr_right fun _ => ⟨fun he => (Except.ok.inj he).symm, fun he => he ▸ rfl⟩

theorem resolve_eq_append (h : file ∈ c.files) : resolve wd file = c.root wd ++ c.below wd file := by
  rw [below, List.prefix_iff_eq_append.1 (root_isPrefix_resolve wd h)]

/-- the way to a file has a last part -/
theorem below_ne_nil (h : file ∈ c.files) (hplace : resolve wd file ≠ []) : c.below wd file ≠ [] := by
  intro hnil
  have hlength := (root_isPrefix wd h).length_le
  have hroot : resolve wd file = c.root wd := by rw [resolve_eq_append h, hnil, List.append_nil]
  rw [← hroot, List.length_dropLast] at hlength
  have hpos := List.length_pos_iff.2 hplace
  omega

/-- **Two files share an output exactly if they are at one place.** -/
theorem targetOf_eq_iff (hfile : file ∈ c.files) (hother : other ∈ c.files) :
    c.targetOf wd output file = c.targetOf wd output other ↔ resolve wd file = resolve wd other := by
  rw [resolve_eq_append hfile, resolve_eq_append hother]
  simp [targetOf, Path.append]

/-- double dots do not occur on the way to a file -/
theorem dots_not_mem_below (hdots : ".." ∉ wd) : ".." ∉ c.below wd file := by
  intro hmem
  have horigin : ".." ∉ if file.root = "" then wd else [] := by split_ifs <;> simp [hdots]
  exact dots_not_mem_follow horigin (List.drop_subset _ _ hmem)

theorem resolve_targetOf (hdots : ".." ∉ wd) :
    resolve wd (c.targetOf wd output file) = resolve wd output ++ c.below wd file := by
  change follow _ (output.parts ++ _) = _
  rw [follow_append, follow_of_plain (dots_not_mem_below hdots)]
  rfl

/-- **What is above an output**: what leads to the output directory, and what mirrors the directories of the file. -/
theorem mem_above_targetOf_iff {fs : FileSystem} (hwd : fs.workingDirectory = wd) (hdots : ".." ∉ wd)
    (hbelow : c.below wd file ≠ []) {q : List String} : q ∈ fs.above (c.targetOf wd output file) ↔
      q ∈ trail (fs.origin output) output.parts ∨
      ∃ m, m ≠ [] ∧ m <+: (c.below wd file).dropLast ∧ q = resolve wd output ++ m := by
  have hparent : (c.targetOf wd output file).parent.parts = output.parts ++ (c.below wd file).dropLast :=
    List.dropLast_append_of_ne_nil hbelow
  have hplain : ".." ∉ (c.below wd file).dropLast := fun hmem => dots_not_mem_below hdots (List.dropLast_subset _ hmem)
  rw [FileSystem.above, hparent, trail_append, List.mem_append, mem_trail_of_plain hplain, ← hwd]
  rfl

/-! ## The outputs of some files -/

/-- outputs of files that keep their layout: `root` is the deepest directory that holds all files -/
structure LaidOut (wd : List String) (output : Path) (files targets : List Path) (root : List String) : Prop where
  deepest : ∀ directory, directory <+: root ↔ ∀ file ∈ files, directory <+: (resolve wd file).dropLast
  /-- one output for each file, in their order -/
  each : targets.length = files.length
  /-- an output is strictly below the output directory, as far as its file is below the shared directory -/
  below : ∀ u ∈ files.zip targets, ∃ way, way ≠ [] ∧ resolve wd u.1 = root ++ way ∧ u.2 = output.append way ∧
    (".." ∉ wd → resolve wd u.2 = resolve wd output ++ way)
  /-- an output has the name of its file -/
  name : ∀ u ∈ files.zip targets, u.2.parts.getLast? = (resolve wd u.1).getLast?
  shared : ∀ u ∈ files.zip targets, ∀ v ∈ files.zip targets, u.2 = v.2 ↔ resolve wd u.1 = resolve wd v.1

/-- **Some files always have outputs that keep their layout**, whatever directory they go to, unless a file is at the root of
all places. -/
theorem exists_laidOut (c : InstrumentCommand) (wd : List String) (output : Path) (hfiles : c.files ≠ [])
    (hplaces : ∀ file ∈ c.files, resolve wd file ≠ []) :
    ∃ targets, outputPaths? wd output c.files = some targets ∧ LaidOut wd output c.files targets (c.root wd) := by
  have hunit : ∀ u ∈ c.files.zip (c.files.map (c.targetOf wd output)), u.1 ∈ c.files ∧ u.2 = c.targetOf wd output u.1 := by
    intro u hu
    rw [← List.map_prod_left_eq_zip] at hu
    obtain ⟨file, hfile, rfl⟩ := List.mem_map.1 hu
    exact ⟨hfile, rfl⟩
  refine ⟨_, outputPaths?_eq hfiles, ?_, List.length_map _, ?_, ?_, ?_⟩
  · intro directory
    rw [root, prefix_commonDirectory_iff (by simpa using hfiles), List.forall_mem_map]
  · intro u hu
    obtain ⟨hfile, htarget⟩ := hunit u hu
    refine ⟨c.below wd u.1, below_ne_nil hfile (hplaces _ hfile), resolve_eq_append hfile, htarget, fun hdots => ?_⟩
    rw [htarget, resolve_targetOf hdots]
  · intro u hu
    obtain ⟨hfile, htarget⟩ := hunit u hu
    have hbelow := below_ne_nil hfile (hplaces _ hfile)
    rw [htarget, resolve_eq_append hfile]
    calc (output.parts ++ c.below wd u.1).getLast? = (c.below wd u.1).getLast? := List.getLast?_append_of_ne_nil _ hbelow
      _ = (c.root wd ++ c.below wd u.1).getLast? := (List.getLast?_append_of_ne_nil _ hbelow).symm
  · intro u hu v hv
    obtain ⟨hfile, htarget⟩ := hunit u hu
    obtain ⟨hother, htarget'⟩ := hunit v hv
    rw [htarget, htarget', targetOf_eq_iff hfile hother]

/-- files at different depths, one of them written in two ways, and one in a directory above -/
def nestedFiles : InstrumentCommand :=
  ⟨[⟨"", ["a", "b", "index.js"]⟩, ⟨"", ["a", "index.js"]⟩, ⟨"/", ["w", "a", "b", "..", "index.js"]⟩], none, none, false, false,
    false, false, false⟩

theorem nestedFiles_laidOut :
    nestedFiles.files ≠ [] ∧ (∀ file ∈ nestedFiles.files, resolve ["w"] file ≠ []) ∧
    LaidOut ["w"] ⟨"", ["..", "out"]⟩ nestedFiles.files
      [⟨"", ["..", "out", "b", "index.js"]⟩, ⟨"", ["..", "out", "index.js"]⟩, ⟨"", ["..", "out", "index.js"]⟩] ["w", "a"] := by
  have hfiles : nestedFiles.files ≠ [] := by decide
  have hplaces : ∀ file ∈ nestedFiles.files, resolve ["w"] file ≠ [] := by decide
  refine ⟨hfiles, hplaces, ?_⟩
  obtain ⟨targets, htargets, hlaidOut⟩ := exists_laidOut nestedFiles ["w"] ⟨"", ["..", "out"]⟩ hfiles hplaces
  cases htargets
  exact hlaidOut

end InstrumentCommand

end Turnstile
