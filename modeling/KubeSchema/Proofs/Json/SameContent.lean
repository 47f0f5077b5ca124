import KubeSchema.Proofs.Alike.Members
import KubeSchema.Proofs.Json.Canonical

/-!
# Equality of values

Two values are the same if nothing but the order of the members of objects sets them apart, at any depth
(`Json.SameContent`); those of different kinds never are (`SameContent.kind_eq`). That is what having the same sorted
form means (`sameContent_iff`), and what having the same canonical text means (`canonical_eq_iff`).
-/

namespace KubeSchema

theorem Members.like_iff {ρ : Json → Json → Prop} {ms ms' : Members Json} :
    Like ρ ms ms' ↔ Distinct ms ∧ Distinct ms' ∧ (∀ name, has ms name = has ms' name) ∧
      ∀ name x y, get? ms name = some x → get? ms' name = some y → ρ x y := by
  constructor
  · refine fun h => ⟨h.left, h.right, h.has_eq, fun name x y hx hy => ?_⟩
    obtain ⟨y', hy', hxy⟩ := h.exists_right hx
    cases hy.symm.trans hy'
    exact hxy
  · rintro ⟨h, h', hhas, hvalues⟩
    refine ⟨h, h', fun name => ?_⟩
    have hsome := hhas name
    unfold has at hsome
    cases hx : get? ms name <;> cases hy : get? ms' name <;> rw [hx, hy] at hsome
    · exact .none
    · cases hsome
    · cases hsome
    · exact .some (hvalues name _ _ hx hy)

namespace Json

variable {a b : Json} {d : Double}

/-- Equal but for the order of the members of objects. Lists are so item by item; in objects the same names, each of
them once, lead to values that are. -/
inductive SameContent : Json → Json → Prop
  | null : SameContent null null
  | bool (b : Bool) : SameContent (bool b) (bool b)
  | int (n : Int) : SameContent (int n) (int n)
  | double (d : Double) : SameContent (double d) (double d)
  | str (s : String) : SameContent (str s) (str s)
  | arr {xs ys : List Json} (hlength : xs.length = ys.length)
    (hitems : ∀ (i : Nat) x y, xs[i]? = some x → ys[i]? = some y → SameContent x y) : SameContent (arr xs) (arr ys)
  | obj {ms ms' : Members Json} (hms : Members.Distinct ms) (hms' : Members.Distinct ms')
    (hnames : ∀ name, Members.has ms name = Members.has ms' name)
    (hvalues : ∀ name x y, Members.get? ms name = some x → Members.get? ms' name = some y → SameContent x y) :
    SameContent (obj ms) (obj ms')

/-- Values that are the same are of one kind, so that no two of `1`, `1.0` and `true` are. -/
theorem SameContent.kind_eq (h : a.SameContent b) : a.kind = b.kind := by
  cases h <;> rfl

/-! ## Values inside others -/

/-- The items of a list and the values of the members of an object. -/
def parts : Json → List Json
  | arr xs => xs
  | obj ms => ms.map Prod.snd
  | _ => []

theorem sizeOf_part {v x : Json} (h : x ∈ v.parts) : sizeOf x < sizeOf v := by
  cases v with
  | arr xs =>
    have hlt := List.sizeOf_lt_of_mem (show x ∈ xs from h)
    rw [arr.sizeOf_spec]
    omega
  | obj ms =>
    obtain ⟨m, hm, rfl⟩ := List.mem_map.1 h
    have hlt := List.sizeOf_lt_of_mem hm
    obtain ⟨name, x⟩ := m
    rw [Prod.mk.sizeOf_spec] at hlt
    rw [obj.sizeOf_spec]
    dsimp only
    omega
  | _ => cases h

/-- What holds of a value if it holds of its parts holds of every value. -/
theorem parts_induction {P : Json → Prop} (h : ∀ v, (∀ x ∈ v.parts, P x) → P v) (v : Json) : P v :=
  h v fun x hx =>
    have : sizeOf x < sizeOf v := sizeOf_part hx
    parts_induction h x
  termination_by sizeOf v

theorem hasDistinctNames_part {v x : Json} (hv : v.hasDistinctNames = true) (hx : x ∈ v.parts) :
    x.hasDistinctNames = true := by
  cases v with
  | arr xs => exact hasDistinctNames_arr.1 hv x hx
  | obj ms =>
    obtain ⟨m, hm, rfl⟩ := List.mem_map.1 hx
    exact (hasDistinctNames_obj.1 hv).2 m hm
  | _ => cases hx

theorem mem_parts_of_getElem? {xs : List Json} {i : Nat} {x : Json} (h : xs[i]? = some x) : x ∈ (arr xs).parts :=
  List.mem_of_getElem? h

theorem mem_parts_of_get? {ms : Members Json} {name : String} {x : Json} (h : Members.get? ms name = some x) :
    x ∈ (obj ms).parts := List.mem_map.2 ⟨_, Members.mem_of_get? h, rfl⟩

/-! ## The sorted form -/

theorem alike_of_sameContent (h : a.SameContent b) : a.Alike b := by
  induction h with
  | @arr xs ys hlength _ ih =>
    refine alike_arr.2 (List.forall₂_iff_get.2 ⟨hlength, fun i hi hi' => ?_⟩)
    exact ih i _ _ (List.getElem?_eq_getElem hi) (List.getElem?_eq_getElem hi')
  | obj hms hms' hnames _ ih => exact (alike_obj hms hms').2 (Members.like_iff.2 ⟨hms, hms', hnames, ih⟩)
  | _ => rfl

theorem SameContent.refl {v : Json} (hv : v.hasDistinctNames = true) : v.SameContent v := by
  induction v using parts_induction with
  | h v ih =>
    cases v with
    | null => exact .null
    | bool b => exact .bool b
    | int n => exact .int n
    | double d => exact .double d
    | str s => exact .str s
    | arr xs =>
      refine .arr rfl fun i x y hx hy => ?_
      cases hx.symm.trans hy
      exact ih x (mem_parts_of_getElem? hx) (hasDistinctNames_part hv (mem_parts_of_getElem? hx))
    | obj ms =>
      have hdistinct := (hasDistinctNames_obj.1 hv).1
      refine .obj hdistinct hdistinct (fun _ => rfl) fun name x y hx hy => ?_
      cases hx.symm.trans hy
      exact ih x (mem_parts_of_get? hx) (hasDistinctNames_part hv (mem_parts_of_get? hx))

/-- Values without repeated names have the same sorted form if they are the same. -/
theorem sameContent_iff (ha : a.hasDistinctNames = true) (hb : b.hasDistinctNames = true) :
    a.SameContent b ↔ a.Alike b := by
  refine ⟨alike_of_sameContent, fun h => ?_⟩
  induction a using parts_induction generalizing b with
  | h a ih =>
    have part {x y : Json} (hx : x ∈ a.parts) (hy : y ∈ b.parts) (hxy : x.Alike y) : x.SameContent y :=
      ih x hx (hasDistinctNames_part ha hx) (hasDistinctNames_part hb hy) hxy
    rcases h.cases with ⟨xs, ys, rfl, rfl⟩ | ⟨ms, ms', rfl, rfl⟩ | rfl
    · have hitems := alike_arr.1 h
      refine .arr hitems.length_eq fun i x y hx hy => ?_
      obtain ⟨x', hx', hxy⟩ := exists_of_getElem?_right hitems hy
      cases hx.symm.trans hx'
      exact part (mem_parts_of_getElem? hx) (mem_parts_of_getElem? hy) hxy
    · obtain ⟨hms, hms', hnames, hvalues⟩ :=
        Members.like_iff.1 ((alike_obj (hasDistinctNames_obj.1 ha).1 (hasDistinctNames_obj.1 hb).1).1 h)
      refine .obj hms hms' hnames fun name x y hx hy => ?_
      exact part (mem_parts_of_get? hx) (mem_parts_of_get? hy) (hvalues name x y hx hy)
    · exact .refl ha

/-! ## Doubles -/

theorem mem_itemDoubles {xs : List Json} : d ∈ itemDoubles xs ↔ ∃ x ∈ xs, d ∈ x.doubles := by
  induction xs with
  | nil => simp [itemDoubles]
  | cons x xs ih => simp [itemDoubles, ih]

theorem mem_memberDoubles {ms : Members Json} :
    d ∈ memberDoubles ms ↔ ∃ x ∈ ms.map Prod.snd, d ∈ x.doubles := by
  induction ms with
  | nil => simp [memberDoubles]
  | cons m ms ih => simp [memberDoubles, ih]

theorem mem_doubles {v : Json} : d ∈ v.doubles ↔ v = double d ∨ ∃ x ∈ v.parts, d ∈ x.doubles := by
  cases v with
  | double e => simp [doubles, parts, eq_comm]
  | arr xs => simp [doubles, parts, mem_itemDoubles]
  | obj ms => simp [doubles, parts, mem_memberDoubles]
  | _ => simp [doubles, parts]

theorem perm_parts_sorted (v : Json) : v.sorted.parts.Perm (v.parts.map sorted) := by
  cases v with
  | arr xs => simp [sorted, parts, sortedItems_eq_map]
  | obj ms =>
    refine ((Members.perm_sortByName (sortedMembers ms)).map Prod.snd).trans ?_
    simp [parts, sortedMembers_eq_map, Function.comp_def]
  | _ => exact .refl _

theorem mem_doubles_sorted {v : Json} : d ∈ v.sorted.doubles ↔ d ∈ v.doubles := by
  induction v using parts_induction with
  | h v ih =>
    have hself : v.sorted = double d ↔ v = double d := by cases v <;> simp [sorted]
    rw [mem_doubles, mem_doubles (v := v), hself]
    refine or_congr_right ⟨?_, ?_⟩
    · rintro ⟨y, hy, hd⟩
      obtain ⟨x, hx, rfl⟩ := List.mem_map.1 ((perm_parts_sorted v).mem_iff.1 hy)
      exact ⟨x, hx, (ih x hx).1 hd⟩
    · rintro ⟨x, hx, hd⟩
      exact ⟨x.sorted, (perm_parts_sorted v).mem_iff.2 (List.mem_map_of_mem hx), (ih x hx).2 hd⟩

/-- Values that are alike contain the same doubles. -/
theorem Alike.mem_doubles_iff (h : a.Alike b) : d ∈ a.doubles ↔ d ∈ b.doubles := by
  rw [← mem_doubles_sorted, show a.sorted = b.sorted from h, mem_doubles_sorted]

/-! ## Canonical texts -/

/-- Values have the same canonical text exactly if they are alike. -/
theorem canonical_eq_iff_alike (hdoubles : Double.ToldApart a.doubles b.doubles) :
    a.canonical = b.canonical ↔ a.Alike b := by
  constructor
  · intro h
    have hsorted : Double.ToldApart a.sorted.doubles b.sorted.doubles :=
      hdoubles.mono (fun _ => mem_doubles_sorted.1) (fun _ => mem_doubles_sorted.1)
    exact render_injective hsorted (String.ofList_injective h)
  · intro h
    rw [canonical, show a.sorted = b.sorted from h]
    rfl

theorem canonical_eq_iff (ha : a.hasDistinctNames = true) (hb : b.hasDistinctNames = true)
    (hdoubles : Double.ToldApart a.doubles b.doubles) : a.canonical = b.canonical ↔ a.SameContent b := by
  rw [canonical_eq_iff_alike hdoubles, sameContent_iff ha hb]

end Json

end KubeSchema
