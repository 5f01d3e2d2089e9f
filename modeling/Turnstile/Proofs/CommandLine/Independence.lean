/-
Files that do not depend on each other.

An output is made of the text that its file has when its turn comes. As long as no output was written to the place of a file,
this is the text that the file had in the beginning (`written_of_original_text`), and then nothing else in the command
matters for it. Files outside the output directory are never written to (`outputs_apart`). A file in the output directory may
be: then what is read is the output of another file, not what was there before (`output_at_place`).
-/
import Turnstile.Proofs.CommandLine.Outputs

namespace Turnstile

open Handled

variable {read : TreeReader} {c : InstrumentCommand} {fs prepared : FileSystem} {output : Path} {options : Options}
  {clock : Nat → Float} {before after : List (Path × Option Path)} {w : Work}

/-! ## The text of a file when its turn comes -/

/-- a file of which nothing was written at its place has the text it had in the beginning -/
theorem textAt?_of_apart {hs : List Handled} (hbegins : c.Begins fs output options prepared)
    (hprogress : Work.Progress read (Work.start options clock prepared) hs w) {place : List String}
    (hapart : ∀ earlier, (w.written.get? earlier).isSome = true → Path.resolve fs.workingDirectory earlier ≠ place)
    (hfile : w.files.HoldsFile place) : fs.textAt? place = w.files.textAt? place := by
  have hgrown := FileSystem.grown_of_storeAll hprogress.files
  obtain ⟨bytes, hbytes⟩ := hfile
  have hold : prepared.entry? place = some (.file bytes) := by
    refine (hgrown.ofFile hbytes).resolve_right ?_
    rintro ⟨v, hv, hplace, -⟩
    refine hapart v.1 ?_ (hbegins.workingDirectory ▸ hplace.symm)
    rw [hprogress.written]
    exact isSome_writer?_of_mem_writes hv
  exact FileSystem.textAt?_congr ((FileSystem.entry?_of_makeDirectories hbegins.directoryMade hold).trans hbytes.symm)

/-- **An output is made of the original text of its file**, unless an output was written to the place of the file before.
Whatever the other files are and however they are ordered, the text that is written for a file is what its unit yields
for the text that was at its place before the command began. -/
theorem written_of_original_text (hbegins : c.Begins fs output options prepared) {file target : Path}
    (htargets : c.targets? prepared = .ok (before ++ (file, some target) :: after)) {w' : Work}
    (hbefore : before.foldlM (Work.step read) (Work.start options clock prepared) = .ok w)
    (hstep : Work.step read w (file, some target) = .ok w') (hfree : w.written.get? target = none)
    (hwritten : w'.written.get? target = some file)
    (hapart : ∀ earlier, (w.written.get? earlier).isSome = true →
      Path.resolve fs.workingDirectory earlier ≠ Path.resolve fs.workingDirectory file) :
    ∃ code p, fs.textAt? (Path.resolve fs.workingDirectory file) = some code ∧
      unitResult read options file code = .ok p ∧
      w'.files.entry? (Path.resolve fs.workingDirectory target) = some (.file p.text.toUTF8.toList) := by
  obtain ⟨hs, -, -, hprogress⟩ := hbegins.progress htargets hbefore
  obtain ⟨h, rfl, rfl, hadvances⟩ := Work.advances_of_step hstep
  have hwd : w.files.workingDirectory = fs.workingDirectory :=
    (FileSystem.grown_of_storeAll hprogress.files).workingDirectory.trans hbegins.workingDirectory
  have hisWritten : h.isWritten = true := by
    by_contra hno
    rw [hadvances.written, if_neg hno, hfree] at hwritten
    cases hwritten
  have hoptions : w.instrumenter.options = options := hprogress.options
  obtain ⟨-, code, p, htext, hproduct, hwrite⟩ := hadvances.fits.of_isWritten hisWritten
  obtain ⟨-, hfile, htextAt⟩ := FileSystem.readText_eq_ok htext
  rw [hwd] at hfile htextAt
  refine ⟨code, p, ?_, hoptions ▸ hproduct, ?_⟩
  · rw [textAt?_of_apart hbegins hprogress hapart hfile, htextAt]
  · have hfiles := hadvances.files
    rw [hwrite] at hfiles
    obtain ⟨-, hentry⟩ := FileSystem.entry?_store (FileSystem.storeAll_singleton.1 hfiles)
    rw [hentry, hwd, if_pos rfl]

/-! ### A file behind another one whose output was written -/

/-- reads either of two comments -/
def commentReader : TreeReader :=
  ⟨fun src =>
    if src.text = "// a" ∨ src.text = "// b" then .ok (.node "program" 0 4 [.leaf "comment" 0 4]) else .error .unreadable,
    Lowering.usualDepth⟩

/-- two files with different texts -/
def commentFiles : FileSystem :=
  ((FileSystem.empty ["w"]).put ["w", "a.js"] (.file "// a".toUTF8.toList)).put ["w", "b.js"] (.file "// b".toUTF8.toList)

/-- these files, and the directory for outputs -/
def preparedComments : FileSystem := commentFiles.put ["w", "out"] .directory

theorem begins_into_commentFiles (files : List Path) : (InstrumentCommand.into outDirectory files).Begins commentFiles
    outDirectory InstrumentCommand.usualOptions preparedComments :=
  InstrumentCommand.begins_into files (by decide) rfl

/-- the output of the first file is written, and then that of the second, of the text it had in the beginning -/
theorem secondComment_written : ∃ w w' p,
    (InstrumentCommand.into outDirectory [bFile, aFile]).targets? preparedComments =
      .ok ([(bFile, some (outDirectory.append ["b.js"]))] ++ [(aFile, some (outDirectory.append ["a.js"]))]) ∧
    [(bFile, some (outDirectory.append ["b.js"]))].foldlM (Work.step commentReader) (usualStart preparedComments) = .ok w ∧
    w.written.entries = [(outDirectory.append ["b.js"], bFile)] ∧
    Work.step commentReader w (aFile, some (outDirectory.append ["a.js"])) = .ok w' ∧
    w'.written.get? (outDirectory.append ["a.js"]) = some aFile ∧
    unitResult commentReader InstrumentCommand.usualOptions aFile "// a" = .ok p ∧
    w'.files.entry? ["w", "out", "a.js"] = some (.file p.text.toUTF8.toList) := by
  have htargets : (InstrumentCommand.into outDirectory [bFile, aFile]).targets? preparedComments =
      .ok ([(bFile, some (outDirectory.append ["b.js"]))] ++ [(aFile, some (outDirectory.append ["a.js"]))]) := by
    decide +kernel
  have hfirst : ([(bFile, some (outDirectory.append ["b.js"]))].foldlM (Work.step commentReader)
      (usualStart preparedComments)).toOption.map (fun w => w.written.entries) =
        some [(outDirectory.append ["b.js"], bFile)] := by decide +kernel
  obtain ⟨w, hw, hentries⟩ := Option.map_eq_some_iff.1 hfirst
  have hw := ok_of_toOption hw
  have hsecond : ([(bFile, some (outDirectory.append ["b.js"]))].foldlM (Work.step commentReader)
      (usualStart preparedComments) >>= fun w => Work.step commentReader w (aFile, some (outDirectory.append ["a.js"]))
        ).toOption.map (fun w' => w'.written.get? (outDirectory.append ["a.js"])) = some (some aFile) := by decide +kernel
  rw [hw] at hsecond
  obtain ⟨w', hw', hwritten⟩ := Option.map_eq_some_iff.1 hsecond
  have hstep : Work.step commentReader w (aFile, some (outDirectory.append ["a.js"])) = .ok w' := ok_of_toOption hw'
  have hget : ∀ target, (w.written.get? target).isSome = true ↔ outDirectory.append ["b.js"] = target := by
    intro target
    simp [OrderedMap.get?, hentries, List.find?_singleton]
  obtain ⟨code, p, htext, hproduct, hentry⟩ := written_of_original_text (begins_into_commentFiles [bFile, aFile]) htargets
    hw hstep (by rw [← Option.not_isSome_iff_eq_none, hget]; decide) hwritten
    (fun earlier h => by rw [← (hget earlier).1 h]; decide)
  obtain rfl : code = "// a" := by
    have hcomment : commentFiles.textAt? ["w", "a.js"] = some "// a" := by decide +kernel
    exact Option.some.inj (htext.symm.trans hcomment)
  exact ⟨w, w', p, htargets, hw, hentries, hstep, hwritten, hproduct, hentry⟩

/-! ## Outputs at the places of files -/

/-- **Outside the output directory nothing is written**, so files there are always read as they were. -/
theorem outputs_apart (hbegins : c.Begins fs output options prepared) (hdots : ".." ∉ fs.workingDirectory)
    (htargets : c.targets? prepared = .ok (before ++ after))
    (hbefore : before.foldlM (Work.step read) (Work.start options clock prepared) = .ok w) {place : List String}
    (houtside : ¬ Path.resolve fs.workingDirectory output <+: place) :
    ∀ earlier, (w.written.get? earlier).isSome = true → Path.resolve fs.workingDirectory earlier ≠ place := by
  obtain ⟨hs, -, hcovers, hprogress⟩ := hbegins.progress htargets hbefore
  rintro earlier hearlier rfl
  rw [hprogress.written] at hearlier
  obtain ⟨source, hsource⟩ := Option.isSome_iff_exists.1 hearlier
  obtain ⟨h, hh, -, rfl, -⟩ := exists_of_writer? hsource
  refine houtside ?_
  rw [(hcovers h hh).2, InstrumentCommand.resolve_targetOf hdots]
  exact List.prefix_append _ _

/-- **An output at the place of a file is all that is left there**: when the turn of the file comes, what its unit is made of
is the text written for another file. -/
theorem output_at_place (hbegins : c.Begins fs output options prepared) (hdots : ".." ∉ fs.workingDirectory)
    (htargets : c.targets? prepared = .ok (before ++ after))
    (hbefore : before.foldlM (Work.step read) (Work.start options clock prepared) = .ok w) {earlier source : Path}
    (hearlier : w.written.get? earlier = some source) : ∃ code p, unitResult read options source code = .ok p ∧
      w.files.entry? (Path.resolve fs.workingDirectory earlier) = some (.file p.text.toUTF8.toList) := by
  obtain ⟨hs, -, hcovers, hprogress⟩ := hbegins.progress htargets hbefore
  rw [hprogress.written] at hearlier
  obtain ⟨h, hh, rfl, rfl, hwritten⟩ := exists_of_writer? hearlier
  obtain ⟨front, back, hsplit⟩ := List.append_of_mem hh
  obtain ⟨files, -, hfits⟩ := hprogress.fits front h back hsplit
  obtain ⟨-, code, p, -, hproduct, hwrite⟩ := hfits.of_isWritten hwritten
  refine ⟨code, p, hproduct, ?_⟩
  have hplaces := InstrumentCommand.nodup_places hdots hcovers hprogress.distinct
  have hwd : prepared.workingDirectory = fs.workingDirectory := hbegins.workingDirectory
  rw [← hwd] at hplaces ⊢
  exact FileSystem.entry?_storeAll hplaces hprogress.files _ (List.mem_filterMap.2 ⟨h, hh, hwrite⟩)

/-- an empty file, and another one where its output goes -/
def preparedFiles : FileSystem := preparedFile.put ["w", "out", "a.js"] (.file [])

-- behind the first file the second is not empty any more, and its turn is still to come
example : (Work.step emptyReader (usualStart preparedFiles) (aFile, some (outDirectory.append ["a.js"]))).toOption.map
    (fun w => (w.written.get? (outDirectory.append ["a.js"]), decide (w.files.entry? ["w", "out", "a.js"] = some (.file [])))) =
      some (some aFile, false) := by decide +kernel

end Turnstile
