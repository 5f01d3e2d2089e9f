/-
Outputs that do not stand in each other's way.

- `InstrumentCommand.Begins.progress`: what the steps in front of a file have left behind, by files and outputs;
- `nodup_places`: outputs that were written are at different places;
- `exists_store`: an output that could be stored in front of the first file can be stored behind its own file, too. Files do
  not become directories nor directories files, and one output would have to be above another one only if its file were
  above the other file.
-/
import Turnstile.Proofs.CommandLine.Handling
import Turnstile.Proofs.CommandLine.Layout

namespace Turnstile

open Handled

/-- these files were handled for a command, each with its own output -/
def InstrumentCommand.Covers (c : InstrumentCommand) (wd : List String) (output : Path) (hs : List Handled) : Prop :=
  ∀ h ∈ hs, h.file ∈ c.files ∧ h.target = c.targetOf wd output h.file

/-- the output of each file could be stored -/
def InstrumentCommand.Storable (c : InstrumentCommand) (output : Path) (prepared : FileSystem) : Prop :=
  ∀ file ∈ c.files, ∃ stored, prepared.store (c.targetOf prepared.workingDirectory output file) "" = .ok stored

namespace InstrumentCommand

variable {c : InstrumentCommand} {read : TreeReader} {fs prepared : FileSystem} {output : Path} {options : Options}
  {clock : Nat → Float} {hs : List Handled} {w : Work} {file other : Path}

/-! ## In front of a file -/

theorem Begins.workingDirectory (hbegins : c.Begins fs output options prepared) :
    prepared.workingDirectory = fs.workingDirectory :=
  (FileSystem.entry?_makeDirectoriesFrom hbegins.directoryMade).1

/-- where the files go, once the output directory is there -/
theorem Begins.targets?_eq_ok_iff (hbegins : c.Begins fs output options prepared) {units : List (Path × Option Path)} :
    c.targets? prepared = .ok units ↔
      c.Placed prepared ∧ units = c.files.map fun file => (file, some (c.targetOf fs.workingDirectory output file)) := by
  rw [InstrumentCommand.targets?_eq_ok_iff hbegins.outputGiven, hbegins.workingDirectory]

/-- **The steps in front of a file**, by files and outputs. -/
theorem Begins.progress (hbegins : c.Begins fs output options prepared) {before after : List (Path × Option Path)}
    (htargets : c.targets? prepared = .ok (before ++ after))
    (hbefore : before.foldlM (Work.step read) (Work.start options clock prepared) = .ok w) :
    ∃ hs, hs.map (fun h => (h.file, some h.target)) = before ∧ c.Covers fs.workingDirectory output hs ∧
      Work.Progress read (Work.start options clock prepared) hs w := by
  have hunits := (hbegins.targets?_eq_ok_iff.1 htargets).2.symm
  obtain ⟨front, back, hfiles, rfl, -⟩ := List.map_eq_append_iff.1 hunits
  have hfront : (front.map fun file => (file, some (c.targetOf fs.workingDirectory output file))) =
      (front.map fun file => (file, c.targetOf fs.workingDirectory output file)).map fun u => (u.1, some u.2) := by
    simp
  rw [hfront] at hbefore ⊢
  obtain ⟨hs, hhs, hprogress⟩ := Work.progress_of_foldlM rfl hbefore
  refine ⟨hs, ?_, fun h hh => ?_, hprogress⟩
  · rw [← hhs]
    simp
  · have hmem : (h.file, h.target) ∈ front.map fun file => (file, c.targetOf fs.workingDirectory output file) :=
      hhs ▸ List.mem_map_of_mem hh
    obtain ⟨file, hfile, heq⟩ := List.mem_map.1 hmem
    obtain ⟨rfl, htarget⟩ := Prod.mk.inj heq
    exact ⟨hfiles ▸ List.mem_append_left back hfile, htarget.symm⟩

/-! ## Different places -/

/-- what was written is the output of a file -/
theorem Covers.of_mem_writes {wd : List String} (hcovers : c.Covers wd output hs) {v : Path × String}
    (hv : v ∈ writes hs) : ∃ h ∈ hs, h.file ∈ c.files ∧ h.isWritten = true ∧ v.1 = c.targetOf wd output h.file := by
  obtain ⟨h, hh, hwrite⟩ := List.mem_filterMap.1 hv
  obtain ⟨hfile, htarget⟩ := hcovers h hh
  refine ⟨h, hh, hfile, ?_, ?_⟩
  · rw [isWritten, hwrite]
    rfl
  · rw [← (write?_eq_some_iff.1 hwrite).1, htarget]

/-- different outputs are at different places -/
theorem targetOf_inj {wd : List String} (hdots : ".." ∉ wd)
    (h : Path.resolve wd (c.targetOf wd output file) = Path.resolve wd (c.targetOf wd output other)) :
    c.targetOf wd output file = c.targetOf wd output other := by
  rw [resolve_targetOf hdots, resolve_targetOf hdots, List.append_cancel_left_eq] at h
  rw [targetOf, targetOf, h]

/-- **What was written is at different places.** -/
theorem nodup_places {wd : List String} (hdots : ".." ∉ wd) (hcovers : c.Covers wd output hs)
    (hdistinct : ((writes hs).map Prod.fst).Nodup) : ((writes hs).map fun v => Path.resolve wd v.1).Nodup := by
  rw [show (fun v : Path × String => Path.resolve wd v.1) = Path.resolve wd ∘ Prod.fst from rfl, ← List.map_map]
  refine hdistinct.map_on fun target htarget target' htarget' heq => ?_
  obtain ⟨v, hv, rfl⟩ := List.mem_map.1 htarget
  obtain ⟨v', hv', rfl⟩ := List.mem_map.1 htarget'
  obtain ⟨h, -, -, -, hv⟩ := hcovers.of_mem_writes hv
  obtain ⟨h', -, -, -, hv'⟩ := hcovers.of_mem_writes hv'
  rw [hv, hv'] at heq ⊢
  exact targetOf_inj hdots heq

/-! ## Outputs that can be stored -/

/-- the output of one file is not above that of another, if both files can be read -/
theorem Begins.targetOf_not_mem_above (hbegins : c.Begins fs output options prepared) (hdots : ".." ∉ fs.workingDirectory)
    (hstorable : c.Storable output prepared) {files : FileSystem} (hfile : file ∈ c.files) (hother : other ∈ c.files)
    (hreadable : files.HoldsFile (Path.resolve fs.workingDirectory file))
    (hreadable' : files.Readable (Path.resolve fs.workingDirectory other)) :
    Path.resolve fs.workingDirectory (c.targetOf fs.workingDirectory output file) ∉
      prepared.above (c.targetOf fs.workingDirectory output other) := by
  have hbelow : c.below fs.workingDirectory other ≠ [] := below_ne_nil hother hreadable'.ne_nil
  rw [FileSystem.above_of_workingDirectory hbegins.workingDirectory, mem_above_targetOf_iff rfl hdots hbelow]
  rintro (htrail | ⟨m, -, hm, heq⟩)
  · -- what leads to the output directory is a directory, so nothing could be stored there
    obtain ⟨stored, hstored⟩ := hstorable file hfile
    obtain ⟨-, -, hplace⟩ := FileSystem.exists_store_iff.1 ⟨stored, hstored⟩
    rw [hbegins.workingDirectory] at hplace
    exact hplace.1 ((FileSystem.entry?_makeDirectoriesFrom hbegins.directoryMade).2.1 _ htrail)
  · -- otherwise the one file would be a directory above the other file
    rw [resolve_targetOf hdots, List.append_cancel_left_eq] at heq
    have habove : Path.resolve fs.workingDirectory file <+: (Path.resolve fs.workingDirectory other).dropLast := by
      rw [resolve_eq_append hfile, resolve_eq_append hother, List.dropLast_append_of_ne_nil hbelow, heq]
      exact (List.prefix_append_right_inj _).2 hm
    have hne : Path.resolve fs.workingDirectory file ≠ Path.resolve fs.workingDirectory other := by
      intro hsame
      have hlength := habove.length_le
      have hpos := List.length_pos_iff.2 hreadable'.ne_nil
      rw [hsame, List.length_dropLast] at hlength
      omega
    obtain ⟨bytes, hbytes⟩ := hreadable
    rw [hreadable'.above _ (habove.trans (List.dropLast_prefix _)) hne] at hbytes
    cases hbytes

/-- the file of an output that was written is still there -/
theorem readable_of_isWritten {start : Work} (hprogress : Work.Progress read start hs w) {h : Handled} (hh : h ∈ hs)
    (hwritten : h.isWritten = true) : w.files.Readable (Path.resolve start.files.workingDirectory h.file) := by
  obtain ⟨before, after, rfl⟩ := List.append_of_mem hh
  obtain ⟨files, hfiles, hfits⟩ := hprogress.fits before h after rfl
  obtain ⟨-, code, -, hread, -⟩ := hfits.of_isWritten hwritten
  have hrest : ∃ mid, start.files.storeAll (writes before) = .ok mid ∧
      mid.storeAll (writes (h :: after)) = .ok w.files := by
    rw [← FileSystem.storeAll_append, writes, writes, ← List.filterMap_append]
    exact hprogress.files
  obtain ⟨mid, hmid, hrest⟩ := hrest
  obtain rfl : files = mid := Except.ok.inj (hfiles.symm.trans hmid)
  have hreadable := FileSystem.readable_of_readText hread
  rw [(FileSystem.grown_of_storeAll hfiles).workingDirectory] at hreadable
  exact hreadable.grown (FileSystem.grown_of_storeAll hrest)

/-- **An output can be stored when its file could be read**, if each could be stored in front of the first file. -/
theorem Begins.exists_store (hbegins : c.Begins fs output options prepared) (hdots : ".." ∉ fs.workingDirectory)
    (hstorable : c.Storable output prepared) (hcovers : c.Covers fs.workingDirectory output hs)
    (hprogress : Work.Progress read (Work.start options clock prepared) hs w) (hfile : file ∈ c.files) {code : String}
    (hread : w.files.readText file = .ok code) (text : String) :
    ∃ files, w.files.store (c.targetOf fs.workingDirectory output file) text = .ok files := by
  have hgrown : FileSystem.Grown prepared (writes hs) w.files := FileSystem.grown_of_storeAll hprogress.files
  have hwd : w.files.workingDirectory = fs.workingDirectory := hgrown.workingDirectory.trans hbegins.workingDirectory
  have hreadable := FileSystem.readable_of_readText hread
  rw [hwd] at hreadable
  have hsource : ∀ v ∈ writes hs, ∃ other ∈ c.files, v.1 = c.targetOf fs.workingDirectory output other ∧
      w.files.Readable (Path.resolve fs.workingDirectory other) := by
    intro v hv
    obtain ⟨h, hh, hfile, hwritten, htarget⟩ := hcovers.of_mem_writes hv
    have hreadable := readable_of_isWritten hprogress hh hwritten
    exact ⟨h.file, hfile, htarget, hbegins.workingDirectory ▸ hreadable⟩
  obtain ⟨stored, hstored⟩ := hstorable file hfile
  obtain ⟨hfiles, hself, hplace⟩ := FileSystem.exists_store_iff.1 ⟨stored, hstored⟩
  rw [hbegins.workingDirectory] at hfiles hself hplace
  rw [FileSystem.exists_store_iff, FileSystem.above_of_workingDirectory hgrown.workingDirectory, hwd]
  refine ⟨?_, hself, ?_, fun hloop => hplace.2 (hgrown.ofLoop hloop)⟩
  · intro d hd hblocked
    rcases FileSystem.isBlocked_iff.1 hblocked with ⟨bytes, hbytes⟩ | hloop
    · obtain hold | ⟨v, hv, rfl, -⟩ := hgrown.ofFile hbytes
      · exact hfiles d hd (FileSystem.isBlocked_iff.2 (Or.inl ⟨bytes, hold⟩))
      · obtain ⟨other, hother, htarget, hreadable'⟩ := hsource v hv
        rw [hbegins.workingDirectory, htarget] at hd
        exact hbegins.targetOf_not_mem_above hdots hstorable hother hfile hreadable'.file hreadable hd
    · exact hfiles d hd (FileSystem.isBlocked_iff.2 (Or.inr (hgrown.ofLoop hloop)))
  · intro hdirectory
    obtain hold | ⟨v, hv, habove⟩ := hgrown.ofDirectory hdirectory
    · exact hplace.1 hold
    · obtain ⟨other, hother, htarget, hreadable'⟩ := hsource v hv
      rw [htarget] at habove
      exact hbegins.targetOf_not_mem_above hdots hstorable hfile hother hreadable.file hreadable' habove

/-! ### Commands without further options -/

/-- instruments files into a directory -/
def into (output : Path) (files : List Path) : InstrumentCommand :=
  ⟨files, some output, none, false, false, false, false, false⟩

def usualOptions : Options := ⟨"__trace__", false, false, false, false, false⟩

theorem begins_into (files : List Path) (hnull : output.hasNull = false) (h : fs.makeDirectories output = .ok prepared) :
    (into output files).Begins fs output usualOptions prepared where
  outputGiven := rfl
  optionsValid := by
    have hmapping : (into output files).mapping = (into ⟨"", []⟩ []).mapping := rfl
    rw [hmapping]
    decide +kernel
  directoryNamed := hnull
  directoryMade := h

end InstrumentCommand

/-! ### An empty file -/

def aFile : Path := ⟨"", ["a.js"]⟩

def bFile : Path := ⟨"", ["b.js"]⟩

def outDirectory : Path := ⟨"", ["out"]⟩

def oneFile : FileSystem := (FileSystem.empty ["w"]).put ["w", "a.js"] (.file [])

/-- the empty file, and the directory for outputs -/
def preparedFile : FileSystem := oneFile.put ["w", "out"] .directory

theorem begins_into_outDirectory (files : List Path) : (InstrumentCommand.into outDirectory files).Begins oneFile outDirectory
    InstrumentCommand.usualOptions preparedFile :=
  InstrumentCommand.begins_into files (by decide) rfl

/-- in front of the first file -/
def usualStart (prepared : FileSystem) : Work := Work.start InstrumentCommand.usualOptions Float.ofNat prepared

end Turnstile
