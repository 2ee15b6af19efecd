import KannadaScript.Proofs.Steps
import KannadaScript.Storage.Folder

/-!
# Writing to a file twice

What is written to a path is read back from it, and replaces what was written there before. Where a
path leads is a matter of the folders alone, once it leads anywhere, and writing to a file changes
no folder.

A path is walked segment by segment, and a segment leads into a folder, stays or goes up
(`enter_with_files`). Files come in only where the walk fails, to tell a missing folder from a file
that stands in its place; so a walk that succeeds succeeds with any other files too, and ends at the
same place (`locate_with_files`). Whether a file can be written there is asked of the folders as
well (`Folder.Writable`).

This is all that is needed of a folder elsewhere. A run of the command creates its output file and
writes to it later; it never matters what the folder is made of, only that the second write goes
where the first went and that what is written last counts.

Main statements: `Folder.read_of_write` and `Folder.write_of_write`.
-/

namespace KannadaScript.Folder

variable {f g : Folder}

/-! ### Where paths lead -/

section Files

variable (files : List (Location × List UInt8))

/-- A segment that leads into a folder does so whatever the files are. -/
theorem enter_with_files {place next : Location} {segment : String}
    (h : f.enter place segment = .ok next) :
    ({ f with files } : Folder).enter place segment = .ok next := by
  rw [enter] at h ⊢
  by_cases hstay : segment = "" ∨ segment = "."
  · rwa [if_pos hstay] at h ⊢
  rw [if_neg hstay] at h ⊢
  by_cases hup : segment = ".."
  · rwa [if_pos hup] at h ⊢
  rw [if_neg hup] at h ⊢
  by_cases hdown : f.isFolder (place ++ [segment]) = true
  · rw [if_pos hdown] at h
    exact (if_pos hdown).trans h
  · -- files only tell how the walk fails
    rw [if_neg hdown] at h
    split at h <;> cases h

/-- Segments that lead into a folder, one after another, do so whatever the files are. -/
theorem foldlM_enter_with_files {segments : List String} {place last : Location}
    (h : segments.foldlM f.enter place = .ok last) :
    segments.foldlM ({ f with files } : Folder).enter place = .ok last := by
  induction segments generalizing place with
  | nil => exact h
  | cons segment segments ih =>
    rw [List.foldlM_cons, Step.except_bind_eq_ok_iff] at h ⊢
    obtain ⟨next, hstep, hrest⟩ := h
    exact ⟨next, enter_with_files files hstep, ih hrest⟩

/-- A path that leads somewhere leads there whatever the files are. -/
theorem locate_with_files {path : String} {t : Target} (h : f.locate path = .ok t) :
    ({ f with files } : Folder).locate path = .ok t := by
  obtain ⟨parent, hwalk, hparent⟩ := Step.except_bind_eq_ok_iff.1 h
  exact Step.except_bind_eq_ok_iff.2 ⟨parent, foldlM_enter_with_files files hwalk, hparent⟩

end Files

/-! ### Files -/

/-- Of two writes to one place the second counts. -/
theorem put_put (place : Location) (bytes bytes' : List UInt8)
    (files : List (Location × List UInt8)) :
    put place bytes' (put place bytes files) = put place bytes' files := by
  induction files with
  | nil => rw [put, put, put, if_pos rfl]
  | cons file files ih =>
    obtain ⟨p, b⟩ := file
    by_cases h : p = place
    · rw [put, if_pos h, put, if_pos h, put, if_pos h]
    · rw [put, if_neg h, put, if_neg h, put, if_neg h, ih]

/-- What was put somewhere is found there. -/
theorem find?_put (place : Location) (bytes : List UInt8) (files : List (Location × List UInt8)) :
    ((put place bytes files).find? (·.1 == place)).map (·.2) = some bytes := by
  induction files with
  | nil => simp [put]
  | cons file files ih =>
    obtain ⟨p, b⟩ := file
    by_cases h : p = place
    · rw [put, if_pos h, List.find?_cons_of_pos (by simpa using h)]
      rfl
    · rw [put, if_neg h, List.find?_cons_of_neg (by simpa using h), ih]

/-- The target can be a file. -/
def Writable (f : Folder) (t : Target) : Prop :=
  ¬ (t.slashed ∨ t.segment = "" ∨ isDots t.segment ∨ f.isFolder t.place)

/-- A file is written where the path leads, if it leads to what can be a file. -/
theorem write_eq_ok_iff {path : String} {bytes : List UInt8} :
    f.write path bytes = .ok g ↔ ∃ t, f.locate path = .ok t ∧ f.Writable t ∧
      g = { f with files := put t.place bytes f.files } := by
  rw [write, Step.except_bind_eq_ok_iff]
  refine exists_congr fun t ↦ and_congr_right fun _ ↦ ?_
  rw [Writable]
  split
  case isTrue h => exact ⟨by rintro ⟨⟩, fun hnot ↦ absurd h hnot.1⟩
  case isFalse h => exact ⟨by rintro ⟨⟩; exact ⟨h, rfl⟩, by rintro ⟨-, rfl⟩; rfl⟩

/-- **Overwriting.** A path that was written to can be written to again, and what is written last
is what counts. -/
theorem write_of_write {path : String} {bytes : List UInt8} (h : f.write path bytes = .ok g)
    (bytes' : List UInt8) :
    ∃ g', f.write path bytes' = .ok g' ∧ g.write path bytes' = .ok g' := by
  obtain ⟨t, hlocate, hwritable, rfl⟩ := write_eq_ok_iff.1 h
  refine ⟨_, write_eq_ok_iff.2 ⟨t, hlocate, hwritable, rfl⟩, write_eq_ok_iff.2 ⟨t, ?_⟩⟩
  exact ⟨locate_with_files _ hlocate, hwritable, by rw [put_put]⟩

/-- What was written is read back. -/
theorem read_of_write {path : String} {bytes : List UInt8} (h : f.write path bytes = .ok g) :
    g.read path = .ok bytes := by
  obtain ⟨t, hlocate, hwritable, rfl⟩ := write_eq_ok_iff.1 h
  rw [Writable, not_or, not_or, not_or] at hwritable
  obtain ⟨hslashed, hsegment, hdots, hfolder⟩ := hwritable
  refine Step.except_bind_eq_ok_iff.2 ⟨t, locate_with_files _ hlocate, ?_⟩
  rw [if_neg (by rintro (h | h | h); exacts [hsegment h, hdots h, hfolder h]), file?,
    find?_put]
  exact if_neg hslashed

end KannadaScript.Folder
