import KubeSchema.Proofs.Files
import Mathlib.Data.List.Basic

/-!
# Paths into directories that are there

A path that leads somewhere leads through directories. So nothing has to be made before a file is written there
(`makeDirectories_of_resolve`), and what is above its place is a directory (`isDirectory_of_prefix`).

* `Path.parts_eq_splitOn`: the parts of a path are what stands between its slashes.
* `Files.write_eq_none`: a path that leads to no directory can be written.
-/

namespace KubeSchema

/-! ## Parts of paths -/

namespace Path

theorem parts_eq_splitOn (l : List Char) : parts l = l.splitOn '/' := by
  induction l with
  | nil => rfl
  | cons c l ih =>
    rw [parts, ih, List.splitOn_eq_splitOnP, List.splitOn_eq_splitOnP, List.splitOnP_cons_eq_if_modifyHead]
    by_cases h : c = '/'
    · simp [h]
    · simp only [h, beq_iff_eq, if_false]
      cases hl : List.splitOnP (· == '/') l with
      | nil => exact absurd hl (List.splitOnP_ne_nil _ l)
      | cons p ps => rfl

theorem intercalate_parts (l : List Char) : List.intercalate ['/'] (parts l) = l := by
  rw [parts_eq_splitOn, List.intercalate_splitOn]

theorem parts_ne_nil (l : List Char) : parts l ≠ [] := by
  intro h
  cases l with
  | nil => simp [parts] at h
  | cons c l =>
    rw [parts] at h
    split at h
    · cases h
    · split at h <;> cases h

theorem slash_not_mem_of_mem_parts {l p : List Char} (hp : p ∈ parts l) : '/' ∉ p := by
  induction l generalizing p with
  | nil =>
    rw [parts, List.mem_singleton] at hp
    simp [hp]
  | cons c l ih =>
    rw [parts] at hp
    split at hp
    · rcases List.mem_cons.1 hp with rfl | hp
      · simp
      · exact ih hp
    · next hc =>
      split at hp
      · next hnil => exact absurd hnil (parts_ne_nil l)
      · next q qs hparts =>
        rcases List.mem_cons.1 hp with rfl | hp
        · have hq : '/' ∉ q := ih (hparts ▸ List.mem_cons_self)
          simpa [Ne.symm hc] using hq
        · exact ih (hparts ▸ List.mem_cons_of_mem _ hp)

theorem intercalate_append {ps rest : List (List Char)} (hps : ps ≠ []) (hrest : rest ≠ []) :
    List.intercalate ['/'] (ps ++ rest) = List.intercalate ['/'] ps ++ '/' :: List.intercalate ['/'] rest := by
  induction ps with
  | nil => exact absurd rfl hps
  | cons p ps ih =>
    by_cases h : ps = []
    · subst h
      simp [List.intercalate_cons_of_ne_nil hrest]
    · rw [List.cons_append, List.intercalate_cons_of_ne_nil (by simp [h]), ih h, List.intercalate_cons_of_ne_nil h]
      simp

/-- Some parts of a path from its start on are those of a path that it goes on from. -/
theorem parts_joinParts {path : String} {ps rest : List (List Char)} (hparts : parts path.toList = ps ++ rest)
    (hps : ps ≠ []) : parts (joinParts ps).toList = ps := by
  rw [joinParts, String.toList_ofList, parts_eq_splitOn]
  refine List.splitOn_intercalate _ (fun p hp => ?_) hps
  exact slash_not_mem_of_mem_parts (l := path.toList) (hparts ▸ List.mem_append_left _ hp)

theorem toList_eq_append {path : String} {ps rest : List (List Char)} (hparts : parts path.toList = ps ++ rest)
    (hps : ps ≠ []) (hrest : rest ≠ []) :
    path.toList = (joinParts ps).toList ++ '/' :: List.intercalate ['/'] rest := by
  rw [joinParts, String.toList_ofList, ← intercalate_append hps hrest, ← hparts, intercalate_parts]

theorem intercalate_ne_nil {ps : List (List Char)} {p : List Char} (hp : p ∈ ps) (hne : p ≠ []) :
    List.intercalate ['/'] ps ≠ [] := by
  induction ps with
  | nil => cases hp
  | cons q ps ih =>
    by_cases h : ps = []
    · subst h
      rw [List.intercalate_singleton]
      exact List.mem_singleton.1 hp ▸ hne
    · rw [List.intercalate_cons_of_ne_nil h]
      simp

theorem joinParts_ne_empty {ps : List (List Char)} {p : List Char} (hp : p ∈ ps) (hne : p ≠ []) :
    joinParts ps ≠ "" := by
  intro h
  exact intercalate_ne_nil hp hne (String.ofList_eq_empty_iff.1 h)

/-- A step stays, goes down, or goes up. -/
theorem step_cases (place : Place) (part : List Char) :
    step place part = place ∨ (∃ name, step place part = place ++ [name]) ∨ step place part = place.dropLast := by
  unfold step above
  split
  · exact .inl rfl
  · split
    · split
      · exact .inr (.inl ⟨_, rfl⟩)
      · exact .inr (.inl ⟨_, rfl⟩)
      · exact .inl rfl
      · exact .inr (.inr rfl)
    · exact .inr (.inl ⟨_, rfl⟩)

end Path

namespace Files

variable {fs : Files} {path : String} {place q : Place}

/-! ## The way to a place -/

/-- A walk through some parts and then others stops in between, in a directory unless there are no others. -/
theorem walk_append {ps rest : List (List Char)} (h : fs.walk path place (ps ++ rest) = .ok q) :
    fs.walk path place ps = .ok (ps.foldl Path.step place) ∧
      (rest ≠ [] → fs.isDirectory (ps.foldl Path.step place) = true) := by
  induction ps generalizing place with
  | nil =>
    refine ⟨rfl, fun hrest => ?_⟩
    obtain ⟨p, rest, rfl⟩ := List.exists_cons_of_ne_nil hrest
    exact (walk_cons_eq_ok.1 h).1
  | cons p ps ih =>
    obtain ⟨hd, hlong, h⟩ := walk_cons_eq_ok.1 h
    obtain ⟨hwalk, hrest⟩ := ih h
    exact ⟨walk_cons_eq_ok.2 ⟨hd, hlong, hwalk⟩, hrest⟩

/-- The path that a walk is for matters for its errors only. -/
theorem walk_path {ps : List (List Char)} (other : String) (h : fs.walk path place ps = .ok q) :
    fs.walk other place ps = .ok q := by
  induction ps generalizing place with
  | nil => exact h
  | cons p ps ih =>
    obtain ⟨hd, hlong, h⟩ := walk_cons_eq_ok.1 h
    exact walk_cons_eq_ok.2 ⟨hd, hlong, ih h⟩

/-- A path that leads somewhere leads through directories. -/
theorem resolve_joinParts {ps rest : List (List Char)} (h : fs.resolve path = .ok q)
    (hparts : Path.parts path.toList = ps ++ rest) (hrest : rest ≠ []) (hps : Path.joinParts ps ≠ "") :
    fs.resolve (Path.joinParts ps) = .ok (ps.foldl Path.step (Path.origin path)) ∧
      fs.isDirectory (ps.foldl Path.step (Path.origin path)) = true := by
  obtain ⟨⟨hnull, -, hlong⟩, hwalk⟩ := resolve_eq_ok.1 h
  have hne : ps ≠ [] := by
    rintro rfl
    exact hps rfl
  have htoList := Path.toList_eq_append hparts hne hrest
  rw [hparts] at hwalk
  obtain ⟨hwalk, hdirectory⟩ := walk_append hwalk
  have horigin : Path.origin (Path.joinParts ps) = Path.origin path := by
    unfold Path.origin
    rw [htoList, List.head?_append_of_ne_nil]
    intro hnil
    exact hps (String.toList_eq_nil_iff.1 hnil)
  refine ⟨resolve_eq_ok.2 ⟨⟨?_, hps, ?_⟩, ?_⟩, hdirectory hrest⟩
  · intro hmem
    exact hnull (htoList ▸ List.mem_append_left _ hmem)
  · have hpath : path = Path.joinParts ps ++ String.ofList ('/' :: List.intercalate ['/'] rest) := by
      rw [← String.toList_inj, String.toList_append, String.toList_ofList, htoList]
    rw [Path.isLong, decide_eq_false_iff_not] at hlong ⊢
    rw [hpath, String.utf8ByteSize_append] at hlong
    omega
  · rw [horigin, Path.parts_joinParts hparts hne]
    exact walk_path _ hwalk

/-- A step from a directory below directories leads to a place below directories. -/
theorem isDirectory_of_prefix_step {part : List Char} (hplace : fs.isDirectory place = true)
    (habove : ∀ q, q <+: place → q ≠ place → fs.isDirectory q = true) (hq : q <+: Path.step place part)
    (hne : q ≠ Path.step place part) : fs.isDirectory q = true := by
  obtain hstep | ⟨name, hstep⟩ | hstep := Path.step_cases place part
  · exact habove q (hstep ▸ hq) (hstep ▸ hne)
  · rw [hstep] at hq hne
    have hq : q <+: place := (List.prefix_concat_iff.1 hq).resolve_left hne
    by_cases heq : q = place
    · exact heq ▸ hplace
    · exact habove q hq heq
  · rw [hstep] at hq hne
    refine habove q (hq.trans (List.dropLast_prefix place)) ?_
    rintro rfl
    exact hne (hq.eq_of_length_le (by simp))

theorem isDirectory_of_prefix_walk {ps : List (List Char)} (h : fs.walk path place ps = .ok q)
    (habove : ∀ r, r <+: place → r ≠ place → fs.isDirectory r = true) {r : Place} (hr : r <+: q) (hne : r ≠ q) :
    fs.isDirectory r = true := by
  induction ps generalizing place with
  | nil =>
    cases h
    exact habove r hr hne
  | cons p ps ih =>
    obtain ⟨hd, -, h⟩ := walk_cons_eq_ok.1 h
    exact ih h (fun r => isDirectory_of_prefix_step hd habove)

/-- What is above the place of a path that leads somewhere is a directory. -/
theorem isDirectory_of_prefix (h : fs.resolve path = .ok place) (hq : q <+: place) (hne : q ≠ place) :
    fs.isDirectory q = true := by
  refine isDirectory_of_prefix_walk (resolve_eq_ok.1 h).2 (fun r hr hrne => ?_) hq hne
  have hnil : r = [] := by
    unfold Path.origin at hr hrne
    split at hr
    · next hroot =>
      rw [if_pos hroot] at hrne
      rw [← List.nil_append ["/"], List.prefix_concat_iff] at hr
      exact List.prefix_nil.1 (hr.resolve_left hrne)
    · exact List.prefix_nil.1 hr
  rw [hnil]
  rfl

/-! ## Writing where nothing has to be made -/

/-- On the way to where a path leads, no directory has to be made. -/
theorem makeDirectories_of_resolve (h : fs.resolve path = .ok place)
    (hfile : ∀ ps rest, Path.parts path.toList = ps ++ rest → rest ≠ [] →
      fs.isFile (ps.foldl Path.step (Path.origin path)) = false)
    {above rest : List (List Char)} (hparts : Path.parts path.toList = above.reverse ++ rest) (hrest : rest ≠ []) :
    fs.makeDirectories above = (fs, none) := by
  induction above generalizing rest with
  | nil => rfl
  | cons p above ih =>
    rw [makeDirectories]
    split
    · have hbefore : Path.parts path.toList = above.reverse ++ p :: rest := by simp [hparts]
      exact ih hbefore (List.cons_ne_nil _ _)
    · next hp =>
      have hjoin : Path.joinParts (p :: above).reverse ≠ "" := Path.joinParts_ne_empty (by simp) hp
      obtain ⟨hresolve, hdirectory⟩ := resolve_joinParts h hparts hrest hjoin
      have hfile := hfile _ _ hparts hrest
      have hmade : fs.makeDirectory (Path.joinParts (p :: above).reverse) = (fs, none) := by
        rw [makeDirectory, hresolve]
        dsimp only
        rw [hfile, hdirectory]
        rfl
      dsimp only
      rw [if_pos, hmade]
      by_cases hparent : above.dropWhile (· = []) = []
      · exact .inl hparent
      · right
        obtain ⟨q, parent, hq⟩ := List.exists_cons_of_ne_nil hparent
        have hne : q ≠ [] := by
          have hhead := List.head_dropWhile_not (· = []) hparent
          simp only [hq, List.head_cons, decide_eq_false_iff_not] at hhead
          exact hhead
        have hparts : Path.parts path.toList =
            (above.dropWhile (· = [])).reverse ++ ((above.takeWhile (· = [])).reverse ++ p :: rest) := by
          rw [← List.append_assoc, ← List.reverse_append, List.takeWhile_append_dropWhile, hparts]
          simp
        have hjoin : Path.joinParts (above.dropWhile (· = [])).reverse ≠ "" :=
          Path.joinParts_ne_empty (by simp [hq]) hne
        obtain ⟨hresolve, hdirectory⟩ := resolve_joinParts h hparts (by simp) hjoin
        rw [existsAt, hresolve]
        dsimp only
        rw [hdirectory, Bool.or_true]

/-- A file can be written where a path leads to, unless there is a directory. -/
theorem write_eq_none (h : fs.resolve path = .ok (Path.place path))
    (hfile : ∀ ps rest, Path.parts path.toList = ps ++ rest → rest ≠ [] →
      fs.isFile (ps.foldl Path.step (Path.origin path)) = false)
    (hdirectory : fs.isDirectory (Path.place path) = false) (content : String) :
    (fs.write path content).2 = none := by
  have hparts : Path.parts path.toList =
      (Path.parentParts path).reverse.reverse ++ [(Path.parts path.toList).getLast (Path.parts_ne_nil _)] := by
    rw [List.reverse_reverse, Path.parentParts, List.dropLast_append_getLast]
  have hmade := makeDirectories_of_resolve h hfile hparts (by simp)
  rw [write, hmade]
  dsimp only
  rw [h]
  dsimp only
  rw [hdirectory]
  rfl

end Files

end KubeSchema
