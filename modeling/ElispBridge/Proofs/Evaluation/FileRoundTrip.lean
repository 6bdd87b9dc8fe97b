import ElispBridge.Evaluation.Files
import ElispBridge.Evaluation.Path
/-!
The bytes of a text are read back as that text, and what is written to a file is read back from it.
-/

namespace ElispBridge

theorem Path.text?_eq_some_iff {p : Path} {s : String} : p.text? = some s ↔ p = .ofString s := by
  constructor
  · intro h
    unfold Path.text? String.fromUTF8? at h
    split at h
    · cases h
      rfl
    · cases h
  · rintro rfl
    exact Path.text?_ofString s

theorem Path.ofString_injective {s t : String} (h : Path.ofString s = .ofString t) : s = t := by
  have texts := congrArg Path.text? h
  simpa only [Path.text?_ofString, Option.some.injEq] using texts

theorem Path.text?_eq_none_iff {p : Path} : p.text? = none ↔ ∀ s, p ≠ .ofString s := by
  simp only [Option.eq_none_iff_forall_ne_some, ne_eq, Path.text?_eq_some_iff]

namespace Files

theorem walk_of_directories {files after : Files} (same : after.directories = files.directories)
    {names : List String} {place target : Place} (h : files.walk place names = .ok target) :
    after.walk place names = .ok target := by
  induction names generalizing place with
  | nil => exact h
  | cons name rest ih =>
    rw [walk] at h ⊢
    rw [same]
    split at h
    · rename_i directory
      rw [if_pos directory]
      split at h
      · rename_i stay
        rw [if_pos stay]
        exact ih h
      rename_i stay
      rw [if_neg stay]
      split at h
      · rename_i up
        rw [if_pos up]
        exact ih h
      rename_i up
      rw [if_neg up]
      split at h
      · cases h
      · rename_i short
        rw [if_neg short]
        exact ih h
    -- contents only decide which failure it is
    · split at h <;> cases h

theorem resolve_of_directories {files after : Files} (same : after.directories = files.directories)
    (working : after.working = files.working) {path : String} {place : Place}
    (h : files.resolve path = .ok place) : after.resolve path = .ok place := by
  unfold resolve at h ⊢
  split at h
  · cases h
  rename_i text
  rw [if_neg text]
  split at h
  · cases h
  rename_i named
  rw [if_neg named]
  split at h
  · cases h
  rename_i short
  rw [if_neg short, working]
  exact walk_of_directories same h

theorem write_cases {files after : Files} {path : String} {bytes : ByteArray}
    (h : files.write path bytes = .ok after) :
    ∃ place, files.resolve path = .ok place ∧ place ∉ files.directories ∧
      namesDirectory path = false ∧
      after = { files with contents := (place, bytes) :: (files.forget place).contents } := by
  unfold write at h
  split at h
  · cases h
  rename_i place found
  split at h
  · cases h
  rename_i file
  rcases not_or.mp file with ⟨notDirectory, plainName⟩
  cases h
  exact ⟨place, found, notDirectory, eq_false_of_ne_true plainName, rfl⟩

theorem read_write {files after : Files} {path : String} {bytes : ByteArray}
    (h : files.write path bytes = .ok after) : after.read path = .ok bytes := by
  rcases write_cases h with ⟨place, found, file, plainName, shape⟩
  have directories : after.directories = files.directories := by rw [shape]
  have working : after.working = files.working := by rw [shape]
  have stored : after.contents.lookup place = some bytes := by rw [shape, List.lookup_cons_self]
  rw [read, resolve_of_directories directories working found]
  simp only [directories, file, stored, plainName, Bool.false_eq_true, ↓reduceIte]

/-- Where a file was written, another text can be written over it. -/
theorem exists_write {files after : Files} {path : String} {bytes : ByteArray}
    (h : files.write path bytes = .ok after) (more : ByteArray) :
    ∃ last, after.write path more = .ok last := by
  rcases write_cases h with ⟨place, found, file, plainName, shape⟩
  have directories : after.directories = files.directories := by rw [shape]
  have working : after.working = files.working := by rw [shape]
  rw [write, resolve_of_directories directories working found]
  simp only [directories, file, plainName, Bool.false_eq_true, or_self, ↓reduceIte]
  exact ⟨_, rfl⟩

theorem readText_eq_ok_iff {files : Files} {path text : String} :
    files.readText path = .ok text ↔ files.read path = .ok text.toUTF8 := by
  unfold readText
  cases read : files.read path with
  | error error => simp only [reduceCtorEq]
  | ok bytes =>
    have decoded : String.fromUTF8? bytes = some text ↔ bytes = text.toUTF8 := by
      simpa only [Path.text?, Path.ofString, Path.mk.injEq] using Path.text?_eq_some_iff (p := ⟨bytes⟩)
    simp only [Except.ok.injEq, ← decoded]
    cases String.fromUTF8? bytes <;> simp only [Except.ok.injEq, Option.some.injEq, reduceCtorEq]

theorem readText_write {files after : Files} {path text : String}
    (h : files.write path text.toUTF8 = .ok after) : after.readText path = .ok text :=
  readText_eq_ok_iff.mpr (read_write h)

end Files

end ElispBridge
