/-
Places of a file system.

A path leads through places, one for each of its parts; they are its trail. A walk goes along the trail of a path, and it
goes on from directories only.
- `walk_eq_ok_iff`, `find_above`: walks that arrive, and what is above the place they arrive at;
- `exists_makeDirectoriesFrom_iff`, `entry?_makeDirectoriesFrom`: directories can be made unless something else is on the trail,
  and then all that is new are directories on the trail.
-/
import Mathlib.Tactic
import Turnstile.CommandLine.FileSystem

namespace Turnstile

/-! ## Trails -/

namespace Path

/-- the place that one part leads to from another place -/
def enter (place : List String) (name : String) : List String := if name = ".." then place.dropLast else place ++ [name]

/-- the places that parts lead through -/
def trail (place : List String) : List String → List (List String)
  | [] => []
  | name :: names => enter place name :: trail (enter place name) names

variable {place : List String} {names : List String}

theorem follow_cons (name : String) : follow place (name :: names) = follow (enter place name) names := rfl

theorem follow_append (place as bs : List String) : follow place (as ++ bs) = follow (follow place as) bs :=
  List.foldl_append ..

theorem trail_append (place as bs : List String) :
    trail place (as ++ bs) = trail place as ++ trail (follow place as) bs := by
  induction as generalizing place with
  | nil => rfl
  | cons a as ih => simp [trail, ih, follow_cons]

theorem enter_of_ne {name : String} (h : name ≠ "..") : enter place name = place ++ [name] := if_neg h

/-- no double dots come into a place -/
theorem dots_not_mem_follow (h : ".." ∉ place) : ".." ∉ follow place names := by
  induction names generalizing place with
  | nil => exact h
  | cons name names ih =>
    refine ih ?_
    change ".." ∉ enter place name
    rw [enter]
    split
    · exact fun hmem => h (List.dropLast_subset _ hmem)
    · next hname => simpa [h] using fun heq => hname heq.symm

theorem follow_of_plain (h : ".." ∉ names) : follow place names = place ++ names := by
  induction names generalizing place with
  | nil => simp [follow]
  | cons name names ih =>
    rw [List.mem_cons, not_or] at h
    rw [follow_cons, enter_of_ne (Ne.symm h.1), ih h.2]
    simp

/-- without double dots the trail goes straight down -/
theorem mem_trail_of_plain (h : ".." ∉ names) {q : List String} :
    q ∈ trail place names ↔ ∃ m, m ≠ [] ∧ m <+: names ∧ q = place ++ m := by
  induction names generalizing place with
  | nil => simp [trail]
  | cons name names ih =>
    rw [List.mem_cons, not_or] at h
    rw [trail, enter_of_ne (Ne.symm h.1), List.mem_cons, ih h.2]
    constructor
    · rintro (rfl | ⟨m, hne, hm, rfl⟩)
      · exact ⟨[name], by simp, by simp, rfl⟩
      · exact ⟨name :: m, by simp, by simpa using hm, by simp⟩
    · rintro ⟨m, hne, hm, rfl⟩
      cases m with
      | nil => exact absurd rfl hne
      | cons x m =>
        obtain ⟨rfl, hrest⟩ := List.cons_prefix_cons.1 hm
        cases m with
        | nil => exact Or.inl rfl
        | cons y m => exact Or.inr ⟨y :: m, by simp, hrest, by simp⟩

end Path

namespace FileSystem

open Turnstile.Path

variable {fs fs' : FileSystem} {p : Path} {place q : List String} {names : List String}

/-! ## Entries -/

theorem entry?_of_isPrefix (h : q <+: fs.workingDirectory) : fs.entry? q = some .directory := if_pos h

/-- an entry put where no directory is -/
theorem entry?_put (h : fs.entry? place ≠ some .directory) (e : FileEntry) (q : List String) :
    entry? (fs.put place e) q = if q = place then some e else fs.entry? q := by
  have hplace : ¬ place <+: fs.workingDirectory := fun hprefix => h (entry?_of_isPrefix hprefix)
  simp only [ entry?, put, OrderedMap.get?_put]
  split_ifs with hq heq heq
  · exact absurd (heq ▸ hq) hplace
  · rfl
  · rfl
  · rfl

theorem entry?_put_of_none (h : fs.entry? place = none) (e : FileEntry) (q : List String) :
    entry? (fs.put place e) q = if q = place then some e else fs.entry? q :=
  entry?_put (by rw [h]; exact nofun) e q

theorem origin_isPrefix (fs : FileSystem) (p : Path) : fs.origin p <+: fs.workingDirectory := by
  rw [origin]
  split_ifs
  · exact List.prefix_refl _
  · exact List.nil_prefix

/-! ## Walks -/

/-- **A walk arrives where its names lead to**, through directories only. -/
theorem walk_eq_ok_iff : fs.walk place names = .ok q ↔
    q = follow place names ∧ ∀ d ∈ (place :: trail place names).dropLast, fs.entry? d = some .directory := by
  induction names generalizing place with
  | nil => simp [walk, trail, follow, eq_comm]
  | cons name names ih =>
    rw [walk, trail, List.dropLast_cons_of_ne_nil (List.cons_ne_nil _ _), List.forall_mem_cons]
    split
    · next h =>
      rw [follow_cons]
      exact ih.trans ⟨fun ⟨hq, hd⟩ => ⟨hq, h, hd⟩, fun ⟨hq, _, hd⟩ => ⟨hq, hd⟩⟩
    · next h => simp [h]
    · next h => simp [h]
    · next h => simp [h]

/-- above a place that a walk arrives at there are directories -/
theorem walk_above (hplace : ∀ d, d <+: place → d ≠ place → fs.entry? d = some .directory)
    (h : fs.walk place names = .ok q) : ∀ d, d <+: q → d ≠ q → fs.entry? d = some .directory := by
  induction names generalizing place with
  | nil =>
    cases h
    exact hplace
  | cons name names ih =>
    rw [walk] at h
    split at h
    · next hdirectory =>
      refine ih (fun d hd hne => ?_) h
      have habove : d <+: place := by
        split_ifs at hd hne
        · exact hd.trans (List.dropLast_prefix place)
        · exact (List.prefix_concat_iff.1 hd).resolve_left hne
      by_cases heq : d = place
      · rw [heq, hdirectory]
      · exact hplace d habove heq
    · cases h
    · cases h
    · cases h

/-- **Where a path leads, and what is above it.** -/
theorem find_above (h : fs.find p = .ok q) :
    q = resolve fs.workingDirectory p ∧ ∀ d, d <+: q → d ≠ q → fs.entry? d = some .directory :=
  ⟨(walk_eq_ok_iff.1 h).1, walk_above (fun _ hd _ => entry?_of_isPrefix (hd.trans (origin_isPrefix fs p))) h⟩

/-! ## Making directories -/

theorem makeDirectoriesFrom_cons (name : String) : fs.makeDirectoriesFrom place (name :: names) =
    match fs.entry? (enter place name) with
    | some .directory => fs.makeDirectoriesFrom (enter place name) names
    | some (.file _) => .error (if names.isEmpty then .occupied else .notDirectory)
    | some .loop => .error (if names.isEmpty then .occupied else .loop)
    | none => (fs.put (enter place name) .directory).makeDirectoriesFrom (enter place name) names := rfl

/-- a file is at the place -/
def HoldsFile (fs : FileSystem) (q : List String) : Prop := ∃ bytes, fs.entry? q = some (.file bytes)

/-- at the place is something that is no directory -/
def IsBlocked (fs : FileSystem) (q : List String) : Prop := ∃ e, fs.entry? q = some e ∧ e ≠ .directory

theorem isBlocked_iff : fs.IsBlocked q ↔ fs.HoldsFile q ∨ fs.entry? q = some .loop := by
  constructor
  · rintro ⟨e, he, hne⟩
    cases e with
    | file bytes => exact .inl ⟨bytes, he⟩
    | directory => exact absurd rfl hne
    | loop => exact .inr he
  · rintro (⟨bytes, hbytes⟩ | hloop)
    · exact ⟨_, hbytes, nofun⟩
    · exact ⟨_, hloop, nofun⟩

/-- **What making directories does**: whatever was there stays, and what is new are directories on the trail. -/
theorem entry?_makeDirectoriesFrom (h : fs.makeDirectoriesFrom place names = .ok fs') :
    fs'.workingDirectory = fs.workingDirectory ∧ (∀ d ∈ trail place names, fs'.entry? d = some .directory) ∧
      ∀ q, fs'.entry? q = if q ∈ trail place names ∧ fs.entry? q = none then some .directory else fs.entry? q := by
  induction names generalizing fs place with
  | nil =>
    cases h
    simp [trail]
  | cons name names ih =>
    rw [makeDirectoriesFrom_cons] at h
    split at h
    · next hdirectory =>
      obtain ⟨hwd, htrail, hentry⟩ := ih h
      refine ⟨hwd, List.forall_mem_cons.2 ⟨?_, htrail⟩, fun q => ?_⟩
      · rw [hentry, hdirectory]
        simp
      · rw [hentry]
        grind [trail]
    · cases h
    · cases h
    · next hnone =>
      have hput := entry?_put_of_none hnone .directory
      obtain ⟨hwd, htrail, hentry⟩ := ih h
      refine ⟨hwd, List.forall_mem_cons.2 ⟨?_, htrail⟩, fun q => ?_⟩
      · rw [hentry, hput]
        simp
      · rw [hentry, hput]
        grind [trail]

/-- directories that are made change no file -/
theorem entry?_of_makeDirectories (h : fs.makeDirectories p = .ok fs') {bytes : List UInt8}
    (hq : fs'.entry? q = some (.file bytes)) : fs.entry? q = some (.file bytes) := by
  obtain ⟨-, -, hentry⟩ := entry?_makeDirectoriesFrom h
  rw [hentry] at hq
  split_ifs at hq
  · cases hq
  · exact hq

/-- **When directories can be made**: nothing but directories is on the trail. -/
theorem exists_makeDirectoriesFrom_iff :
    (∃ fs', fs.makeDirectoriesFrom place names = .ok fs') ↔ ∀ d ∈ trail place names, ¬ fs.IsBlocked d := by
  induction names generalizing fs place with
  | nil => simp [makeDirectoriesFrom, trail]
  | cons name names ih =>
    rw [makeDirectoriesFrom_cons, trail, List.forall_mem_cons]
    split
    · next hdirectory =>
      have hfree : ¬ fs.IsBlocked (enter place name) := by simp [IsBlocked, hdirectory]
      simp only [hfree, not_false_eq_true, true_and]
      exact ih
    · next bytes hbytes =>
      have hblocked : fs.IsBlocked (enter place name) := isBlocked_iff.2 (.inl ⟨bytes, hbytes⟩)
      simp [hblocked]
    · next hloop =>
      have hblocked : fs.IsBlocked (enter place name) := isBlocked_iff.2 (.inr hloop)
      simp [hblocked]
    · next hnone =>
      have hfree : ¬ fs.IsBlocked (enter place name) := by simp [IsBlocked, hnone]
      simp only [hfree, not_false_eq_true, true_and]
      refine ih.trans (forall₂_congr fun d _ => not_congr ?_)
      have hput := entry?_put_of_none hnone .directory d
      rw [IsBlocked, IsBlocked, hput]
      split_ifs with heq
      · simp [heq, hnone]
      · rfl

end FileSystem

end Turnstile
