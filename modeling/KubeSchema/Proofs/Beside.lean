import KubeSchema.Proofs.Files

/-!
# Files beside the others

Files that are put where nothing was, and taken away again. Their directories being there already, the files around them
look the same with them (`Beside.read_putAll`) and without them (`Beside.read_remove`, `Beside.unchanged_remove`).
-/

namespace KubeSchema

namespace Files

variable {fs : Files} {contents : List (Place × String)} {places : List Place} {place q : Place}
  {path content : String}

/-! ## Putting files and taking them away -/

theorem putAll_cons (fs : Files) (place : Place) (content : String) (contents : List (Place × String)) :
    fs.putAll ((place, content) :: contents) =
      putAll { fs with entries := put fs.entries place content } contents := rfl

theorem content?_putAll_of_not_mem (h : place ∉ contents.map Prod.fst) :
    (fs.putAll contents).content? place = fs.content? place := by
  induction contents generalizing fs with
  | nil => rfl
  | cons c contents ih =>
    obtain ⟨k, content⟩ := c
    rw [List.map_cons, List.mem_cons, not_or] at h
    rw [putAll_cons, ih h.2, content?_put, if_neg h.1]

theorem content?_putAll_of_mem (hplaces : (contents.map Prod.fst).Nodup) (h : (place, content) ∈ contents) :
    (fs.putAll contents).content? place = some content := by
  induction contents generalizing fs with
  | nil => cases h
  | cons c contents ih =>
    obtain ⟨k, old⟩ := c
    rw [List.map_cons, List.nodup_cons] at hplaces
    rw [putAll_cons]
    rcases List.mem_cons.1 h with heq | h
    · cases heq
      rw [content?_putAll_of_not_mem hplaces.1, content?_put, if_pos rfl]
    · exact ih hplaces.2 h

theorem within_putAll (fs : Files) (contents : List (Place × String)) : Within fs (fs.putAll contents) := by
  induction contents generalizing fs with
  | nil => exact .refl fs
  | cons c contents ih => exact (within_put fs c.1 c.2).trans (ih _)

theorem isFile_putAll (h : (fs.putAll contents).isFile q = true) :
    fs.isFile q = true ∨ q ∈ contents.map Prod.fst := by
  by_cases hq : q ∈ contents.map Prod.fst
  · exact .inr hq
  · rw [isFile, content?_putAll_of_not_mem hq] at h
    exact .inl h

theorem content?_remove (fs : Files) (places : List Place) (place : Place) :
    (fs.remove places).content? place = if place ∈ places then none else fs.content? place := by
  unfold remove content?
  dsimp only
  induction fs.entries with
  | nil => simp
  | cons e entries ih =>
    obtain ⟨k, content⟩ := e
    rw [List.filter_cons, lookup_cons_ite]
    by_cases hk : k ∈ places
    · rw [if_neg (by simpa using hk), ih]
      by_cases hplace : place = k
      · rw [if_pos (hplace ▸ hk), if_pos (hplace ▸ hk)]
      · rw [if_neg hplace]
    · rw [if_pos (by simpa using hk), lookup_cons_ite, ih]
      by_cases hplace : place = k
      · rw [if_pos hplace, if_pos hplace, if_neg (hplace ▸ hk)]
      · rw [if_neg hplace, if_neg hplace]

/-! ## Files beside the others -/

/-- Files put at places where nothing is, in directories that are there. -/
def Beside (fs : Files) (places : List Place) : Prop :=
  ∀ place ∈ places, fs.isFile place = false ∧ fs.isDirectory place = false ∧
    ∀ q, q <+: place → q ≠ place → fs.isDirectory q = true

/-- Files beside the others make no directories. -/
theorem Beside.isDirectory_putAll (h : fs.Beside (contents.map Prod.fst))
    (hq : (fs.putAll contents).isDirectory q = true) : fs.isDirectory q = true := by
  obtain habove | hlisted | ⟨file, hfile, hprefix, hne⟩ := isDirectory_iff.1 hq
  · exact isDirectory_iff.2 (.inl habove)
  · exact isDirectory_iff.2 (.inr (.inl hlisted))
  · obtain hfile | hfile := isFile_putAll hfile
    · exact isDirectory_iff.2 (.inr (.inr ⟨file, hfile, hprefix, hne⟩))
    · exact (h file hfile).2.2 q hprefix hne

/-- Files beside the others do not matter when those are read. -/
theorem Beside.read_putAll (h : fs.Beside (contents.map Prod.fst)) (hpath : Path.place path ∉ contents.map Prod.fst) :
    (fs.putAll contents).read path = .ok content ↔ fs.read path = .ok content := by
  rw [read_eq_ok, read_eq_ok, content?_putAll_of_not_mem hpath]
  refine and_congr_left' ⟨resolve_mono fun _ => h.isDirectory_putAll, resolve_mono fun _ => ?_⟩
  exact (within_putAll fs contents).isDirectory

/-- Files beside the others can be taken away, and the others stay. -/
theorem Beside.isDirectory_remove {after : Files} (h : fs.Beside places) (hwithin : Within fs after)
    (hq : after.isDirectory q = true) : (after.remove places).isDirectory q = true := by
  have hfile : ∀ file, file ∉ places → after.isFile file = true → (after.remove places).isFile file = true := by
    intro file hfile hafter
    rw [isFile, content?_remove, if_neg hfile]
    exact hafter
  have hkept : Within fs (after.remove places) := by
    refine ⟨fun file hbefore => hfile file ?_ (hwithin.isFile file hbefore), hwithin.directories⟩
    intro hmem
    rw [(h file hmem).1] at hbefore
    cases hbefore
  obtain habove | hlisted | ⟨file, hafter, hprefix, hne⟩ := isDirectory_iff.1 hq
  · exact isDirectory_iff.2 (.inl habove)
  · exact isDirectory_iff.2 (.inr (.inl hlisted))
  · by_cases hmem : file ∈ places
    · exact hkept.isDirectory ((h file hmem).2.2 q hprefix hne)
    · exact isDirectory_iff.2 (.inr (.inr ⟨file, hfile file hmem hafter, hprefix, hne⟩))

theorem Beside.read_remove {after : Files} (h : fs.Beside places) (hwithin : Within fs after)
    (hpath : Path.place path ∉ places) (hread : after.read path = .ok content) :
    (after.remove places).read path = .ok content := by
  obtain ⟨hresolve, hcontent⟩ := read_eq_ok.1 hread
  refine read_eq_ok.2 ⟨resolve_mono (fun _ => h.isDirectory_remove hwithin) hresolve, ?_⟩
  rw [content?_remove, if_neg hpath, hcontent]

/-- Once they are taken away, the other files are as they were if nothing else was changed. -/
theorem Beside.unchanged_remove {after : Files} (h : fs.Beside (contents.map Prod.fst))
    (hafter : ∀ place, place ∉ contents.map Prod.fst →
      after.content? place = (fs.putAll contents).content? place) :
    fs.Unchanged (after.remove (contents.map Prod.fst)) := by
  intro place
  rw [content?_remove]
  split
  · next hmem =>
    have hnone : (fs.content? place).isNone := Option.isSome_eq_false_iff.1 (h place hmem).1
    rw [Option.isNone_iff_eq_none.1 hnone]
  · next hmem => rw [hafter place hmem, content?_putAll_of_not_mem hmem]

end Files

end KubeSchema
