import KubeSchema.Files
import KubeSchema.Proofs.Outcome
import Mathlib.Data.List.Basic
import Mathlib.Data.List.Infix

/-!
# Directory trees that change

What becomes of a tree when files are written and taken away.

* `resolve_mono`: a path that leads somewhere still does so in a tree with more files and directories.
* `write_error`: if a file cannot be written, no file has changed, though directories may have been made.
* `write_ok`: if it can, it holds what was written, and no other file has changed.
-/

namespace KubeSchema.Files

variable {fs fs' : Files} {path content : String} {place : Place}

/-! ## Contents -/

/-- No file is created or taken away, and none has another content. -/
def Unchanged (before after : Files) : Prop := ∀ place, after.content? place = before.content? place

/-- A place holds a content, and no other file is created, taken away or changed. -/
structure ChangedAt (before after : Files) (place : Place) (content : String) : Prop where
  content : after.content? place = some content
  others : ∀ other, other ≠ place → after.content? other = before.content? other

theorem lookup_cons_ite (entries : List (Place × String)) (k place : Place) (content : String) :
    ((k, content) :: entries).lookup place = if place = k then some content else entries.lookup place := by
  rw [List.lookup_cons]
  by_cases h : place = k
  · rw [h, beq_self_eq_true, if_pos rfl]
  · rw [beq_false_of_ne h, if_neg h]

theorem lookup_put (entries : List (Place × String)) (place other : Place) (content : String) :
    (put entries place content).lookup other = if other = place then some content else entries.lookup other := by
  induction entries with
  | nil => rw [put, lookup_cons_ite]
  | cons e entries ih =>
    obtain ⟨k, old⟩ := e
    rw [put]
    by_cases hk : k = place
    · subst hk
      rw [if_pos rfl, lookup_cons_ite, lookup_cons_ite]
      split <;> rfl
    · rw [if_neg hk, lookup_cons_ite, lookup_cons_ite, ih]
      by_cases ho : other = k
      · rw [if_pos ho, if_neg (ho ▸ hk), if_pos ho]
      · rw [if_neg ho, if_neg ho]

/-- A place is a file if there is an entry for it. -/
theorem isFile_iff_mem : fs.isFile place = true ↔ ∃ e ∈ fs.entries, e.1 = place := by
  unfold isFile content?
  induction fs.entries with
  | nil => simp
  | cons e entries ih =>
    obtain ⟨k, old⟩ := e
    rw [lookup_cons_ite]
    by_cases h : place = k
    · simp [h]
    · rw [if_neg h, ih]
      simp [Ne.symm h]

/-- A place is a directory if it is the current one or above, if it is listed, or if a file is below it. -/
theorem isDirectory_iff : fs.isDirectory place = true ↔
    place.isAbove = true ∨ place ∈ fs.directories ∨ ∃ file, fs.isFile file = true ∧ place <+: file ∧ place ≠ file := by
  simp only [isDirectory, Bool.or_eq_true, decide_eq_true_eq, List.any_eq_true, Bool.and_eq_true,
    List.isPrefixOf_iff_prefix, or_assoc, isFile_iff_mem]
  refine or_congr_right (or_congr_right ⟨?_, ?_⟩)
  · rintro ⟨e, he, hp⟩
    exact ⟨e.1, ⟨e, he, rfl⟩, hp⟩
  · rintro ⟨_, ⟨e, he, rfl⟩, hp⟩
    exact ⟨e, he, hp⟩

/-! ## Larger trees -/

/-- Whatever is a file or a listed directory in one tree is so in the other. -/
structure Within (fs fs' : Files) : Prop where
  isFile : ∀ place, fs.isFile place = true → fs'.isFile place = true
  directories : ∀ place ∈ fs.directories, place ∈ fs'.directories

theorem Within.refl (fs : Files) : Within fs fs := ⟨fun _ h => h, fun _ h => h⟩

theorem Within.trans {fs'' : Files} (h : Within fs fs') (h' : Within fs' fs'') : Within fs fs'' :=
  ⟨fun place hp => h'.isFile place (h.isFile place hp), fun place hp => h'.directories place (h.directories place hp)⟩

theorem Within.isDirectory (h : Within fs fs') (hd : fs.isDirectory place = true) : fs'.isDirectory place = true := by
  refine isDirectory_iff.2 ((isDirectory_iff.1 hd).imp id (Or.imp (h.directories place) ?_))
  rintro ⟨file, hfile, hp⟩
  exact ⟨file, h.isFile file hfile, hp⟩

/-! ## Paths -/

theorem walk_cons_eq_ok {p : List Char} {ps : List (List Char)} {q : Place} :
    fs.walk path place (p :: ps) = .ok q ↔
      fs.isDirectory place = true ∧ Path.isLongPart p = false ∧ fs.walk path (Path.step place p) ps = .ok q := by
  rw [walk]
  cases fs.isDirectory place <;> cases fs.isFile place <;> cases Path.isLongPart p <;> simp

/-- Where a path leads does not depend on the tree. -/
theorem walk_eq_foldl {ps : List (List Char)} {q : Place} (h : fs.walk path place ps = .ok q) :
    q = ps.foldl Path.step place := by
  induction ps generalizing place with
  | nil => cases h; rfl
  | cons p ps ih => exact ih (walk_cons_eq_ok.1 h).2.2

theorem walk_mono (hdirectory : ∀ place, fs.isDirectory place = true → fs'.isDirectory place = true)
    {ps : List (List Char)} {q : Place} (h : fs.walk path place ps = .ok q) : fs'.walk path place ps = .ok q := by
  induction ps generalizing place with
  | nil => exact h
  | cons p ps ih =>
    obtain ⟨hd, hlong, h⟩ := walk_cons_eq_ok.1 h
    exact walk_cons_eq_ok.2 ⟨hdirectory place hd, hlong, ih h⟩

theorem resolve_eq_ok {q : Place} :
    fs.resolve path = .ok q ↔
      ('\x00' ∉ path.toList ∧ path ≠ "" ∧ Path.isLong path = false) ∧
        fs.walk path (Path.origin path) (Path.parts path.toList) = .ok q := by
  unfold resolve
  by_cases hnull : '\x00' ∈ path.toList
  · simp [hnull]
  · by_cases hempty : path = ""
    · simp [hempty]
    · cases hlong : Path.isLong path <;> simp [hnull, hempty]

theorem place_of_resolve {q : Place} (h : fs.resolve path = .ok q) : q = Path.place path :=
  walk_eq_foldl (resolve_eq_ok.1 h).2

/-- A path that leads somewhere still does so in a tree with more directories. -/
theorem resolve_mono (hdirectory : ∀ place, fs.isDirectory place = true → fs'.isDirectory place = true) {q : Place}
    (h : fs.resolve path = .ok q) : fs'.resolve path = .ok q := by
  obtain ⟨hpath, h⟩ := resolve_eq_ok.1 h
  exact resolve_eq_ok.2 ⟨hpath, walk_mono hdirectory h⟩

theorem read_eq_ok :
    fs.read path = .ok content ↔
      fs.resolve path = .ok (Path.place path) ∧ fs.content? (Path.place path) = some content := by
  unfold read
  rw [bind_eq_ok]
  constructor
  · rintro ⟨q, hq, h⟩
    cases place_of_resolve hq
    cases hc : fs.content? (Path.place path) with
    | some c =>
      rw [hc] at h
      cases h
      exact ⟨hq, rfl⟩
    | none =>
      rw [hc] at h
      dsimp only at h
      split at h <;> cases h
  · rintro ⟨hq, hc⟩
    refine ⟨_, hq, ?_⟩
    rw [hc]
    rfl

/-! ## Making directories -/

/-- Directories are made, and no file is touched. -/
structure Grows (fs fs' : Files) : Prop where
  entries : fs'.entries = fs.entries
  directories : ∀ place ∈ fs.directories, place ∈ fs'.directories

theorem Grows.refl (fs : Files) : Grows fs fs := ⟨rfl, fun _ h => h⟩

theorem Grows.trans {fs'' : Files} (h : Grows fs fs') (h' : Grows fs' fs'') : Grows fs fs'' :=
  ⟨h'.entries.trans h.entries, fun place hp => h'.directories place (h.directories place hp)⟩

theorem Grows.content? (h : Grows fs fs') (place : Place) : fs'.content? place = fs.content? place := by
  rw [Files.content?, h.entries, Files.content?]

theorem Grows.within (h : Grows fs fs') : Within fs fs' :=
  ⟨fun place hp => by rwa [isFile, h.content?], h.directories⟩

theorem grows_makeDirectory (fs : Files) (path : String) : Grows fs (fs.makeDirectory path).1 := by
  unfold makeDirectory
  split
  · exact .refl fs
  · split
    · exact .refl fs
    · split
      · exact .refl fs
      · exact ⟨rfl, fun _ h => List.mem_cons_of_mem _ h⟩

theorem grows_makeDirectories (fs : Files) (ps : List (List Char)) : Grows fs (fs.makeDirectories ps).1 := by
  induction ps with
  | nil => exact .refl fs
  | cons p above ih =>
    rw [makeDirectories]
    split
    · exact ih
    · dsimp only
      split
      · exact grows_makeDirectory fs _
      · revert ih
        generalize fs.makeDirectories above = made
        intro ih
        split
        · split
          · exact ih
          · exact ih.trans (grows_makeDirectory _ _)
        · split
          · exact ih
          · exact ih.trans (grows_makeDirectory _ _)
        · exact ih

/-! ## Writing -/

/-- If a file cannot be written, none is touched. -/
theorem write_error {e : FileError} (h : fs.write path content = (fs', some e)) : Grows fs fs' := by
  have hgrows := grows_makeDirectories fs (Path.parentParts path).reverse
  unfold write at h
  generalize fs.makeDirectories (Path.parentParts path).reverse = made at hgrows h
  obtain ⟨fs₁, _ | e'⟩ := made
  · dsimp only at h
    split at h
    · cases h
      exact hgrows
    · split at h
      · cases h
        exact hgrows
      · cases h
  · cases h
    exact hgrows

/-- A file that can be written is put at its place, after directories were made. -/
theorem exists_put_of_write (h : fs.write path content = (fs', none)) :
    ∃ fs₁, Grows fs fs₁ ∧ fs₁.resolve path = .ok (Path.place path) ∧
      fs' = { fs₁ with entries := put fs₁.entries (Path.place path) content } := by
  have hgrows := grows_makeDirectories fs (Path.parentParts path).reverse
  unfold write at h
  generalize fs.makeDirectories (Path.parentParts path).reverse = made at hgrows h
  obtain ⟨fs₁, _ | e'⟩ := made
  · dsimp only at h
    split at h
    · cases h
    · next q hq =>
      cases place_of_resolve hq
      split at h
      · cases h
      · cases h
        exact ⟨fs₁, hgrows, hq, rfl⟩
  · cases h

theorem content?_put (fs : Files) (place other : Place) (content : String) :
    Files.content? { fs with entries := put fs.entries place content } other =
      if other = place then some content else fs.content? other := lookup_put fs.entries place other content

theorem within_put (fs : Files) (place : Place) (content : String) :
    Within fs { fs with entries := put fs.entries place content } := by
  refine ⟨fun other h => ?_, fun _ h => h⟩
  rw [isFile, content?_put]
  split
  · rfl
  · exact h

theorem within_write (h : fs.write path content = (fs', none)) : Within fs fs' := by
  obtain ⟨fs₁, hgrows, -, rfl⟩ := exists_put_of_write h
  exact hgrows.within.trans (within_put fs₁ _ _)

/-- What was written can be read, and no other file has changed. -/
theorem write_ok (h : fs.write path content = (fs', none)) :
    fs'.read path = .ok content ∧ fs.ChangedAt fs' (Path.place path) content := by
  obtain ⟨fs₁, hgrows, hresolve, rfl⟩ := exists_put_of_write h
  have hcontent : Files.content? { fs₁ with entries := put fs₁.entries (Path.place path) content } (Path.place path) =
      some content := by
    rw [content?_put, if_pos rfl]
  refine ⟨read_eq_ok.2 ⟨?_, hcontent⟩, hcontent, fun other hother => ?_⟩
  · exact resolve_mono (fun _ hd => (within_put fs₁ _ _).isDirectory hd) hresolve
  · rw [content?_put, if_neg hother, hgrows.content?]

end KubeSchema.Files
