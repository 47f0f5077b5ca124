import KubeSchema.Proofs.Frame
import KubeSchema.Proofs.Json.SameContent
import KubeSchema.Proofs.Schema.Normal

/-!
# Schemas compared by what is written for them

Two schemas that were read compare as equal exactly if the values that they were read from are the same in normal form
(`isAlike_iff_normal`): the order of keywords, which alone may set apart what is written for a schema from the normal
form, does not matter to the canonical text.

* `alike_sortKeywords`: sorting the keywords changes the order of members only.
* `mem_doubles_normal`: the normal form brings in no number.
* `exists_encode_alike`: what is written for a schema that was read is alike to the normal form.
-/

namespace KubeSchema

variable {v w : Json} {d : Double}

/-! ## Values in slots -/

theorem alike_of_maps {s : Option Slot} (h : Slot.Maps Json.Alike s v w) (hv : v.hasDistinctNames = true) :
    v.Alike w := by
  cases h with
  | schema h | item _ _ h => exact h
  | list h | items h => exact Json.alike_arr.2 h
  | map h =>
    have hdistinct := (Json.hasDistinctNames_obj.1 hv).1
    have hlike := Members.Like.of_rel h hdistinct
    exact (Json.alike_obj hdistinct hlike.right).2 hlike
  | noList | noMap | noSlot => rfl

theorem mem_doubles_of_maps {s : Option Slot} (h : Slot.Maps (fun c c' => d ∈ c'.doubles → d ∈ c.doubles) s v w)
    (hd : d ∈ w.doubles) : d ∈ v.doubles := by
  cases h with
  | schema h | item _ _ h => exact h hd
  | list h | items h =>
    obtain ⟨y, hy, hd⟩ := Json.mem_itemDoubles.1 hd
    obtain ⟨x, hx, hxy⟩ := exists_of_mem_right h hy
    exact Json.mem_itemDoubles.2 ⟨x, hx, hxy hd⟩
  | map h =>
    obtain ⟨y, hy, hd⟩ := Json.mem_memberDoubles.1 hd
    obtain ⟨m', hm', rfl⟩ := List.mem_map.1 hy
    obtain ⟨m, hm, -, hxy⟩ := exists_of_mem_right h hm'
    exact Json.mem_memberDoubles.2 ⟨m.2, List.mem_map_of_mem hm, hxy hd⟩
  | noList | noMap | noSlot => exact hd

/-! ## The order of keywords -/

theorem alike_sortKeywords (hv : v.hasDistinctNames = true) : v.sortKeywords.Alike v := by
  induction v using Json.induction with
  | h v ih =>
    cases v with
    | obj ms =>
      obtain ⟨hms, hvalues⟩ := Json.hasDistinctNames_obj.1 hv
      have hslots := distinct_mapSlots (f := Members.sortByName).2 hms
      have hperm := Members.perm_sortByName (mapSlots Members.sortByName ms)
      have hsorted : Members.Distinct (Members.sortByName (mapSlots Members.sortByName ms)) :=
        (hperm.map Prod.fst).nodup_iff.2 hslots
      refine (Json.alike_obj hsorted hms).2 ⟨hsorted, hms, fun name => ?_⟩
      rw [Members.get?_eq_of_perm hperm hsorted, get?_mapSlots]
      cases hx : Members.get? ms name with
      | none => exact .none
      | some x =>
        have hmem := Members.mem_of_get? hx
        have hmaps : Slot.Maps Json.Alike (modeledSlot? name) x
            (Slot.mapValues Json.sortKeywords (modeledSlot? name) x) := by
          refine (maps_mapValues _ x).imp fun c hc c' e => ?_
          have hchild := Json.mem_children_of_modeledSlot hmem hc
          exact e ▸ (ih c hchild (Json.hasDistinctNames_child hv hchild)).symm
        exact .some (alike_of_maps hmaps (hvalues _ hmem)).symm
    | _ => rfl

/-- Schemas that are the same up to the order of keywords are alike. -/
theorem alike_of_sameKeywords (hv : v.hasDistinctNames = true) (hw : w.hasDistinctNames = true)
    (h : v.SameKeywords w) : v.Alike w := by
  have hsorted : v.sortKeywords.Alike w.sortKeywords := congrArg Json.sorted h
  exact (alike_sortKeywords hv).symm.trans (hsorted.trans (alike_sortKeywords hw))

/-! ## The normal form -/

/-- The value under a name stays, or is a list of names. -/
theorem eq_of_normalValue? {name : String} (h : normalValue? name v = some w) :
    w = v ∨ ∃ names : List String, w = .arr (names.map .str) := by
  unfold normalValue? at h
  split at h
  · unfold Keyword.normal? at h
    split at h <;> cases h <;> first | exact .inl rfl | exact .inr ⟨_, rfl⟩
  · cases h
    exact .inl rfl

theorem mem_normal {ms : Members Json} {m : String × Json} (h : m ∈ Members.normal ms) :
    m ∈ ms ∨ ∃ names : List String, m.2 = .arr (names.map .str) := by
  obtain ⟨m', hm', h⟩ := List.mem_filterMap.1 h
  obtain ⟨w, hw, rfl⟩ := Option.map_eq_some_iff.1 h
  exact (eq_of_normalValue? hw).imp_left fun e => by rwa [e]

theorem hasDistinctNames_normal (hv : v.hasDistinctNames = true) : v.normal.hasDistinctNames = true := by
  refine Json.hasDistinctNames_mapSchemas (fun ms hms => ?_) v hv
  obtain ⟨hnames, hvalues⟩ := Json.hasDistinctNames_obj.1 hms
  have hnormal : Members.Distinct (Members.normal ms) := (Members.names_filterMap normalValue? ms).nodup hnames
  refine Json.hasDistinctNames_obj.2 ⟨hnormal, fun m hm => ?_⟩
  rcases mem_normal hm with hm | ⟨names, e⟩
  · exact hvalues m hm
  · rw [e, Json.hasDistinctNames_arr]
    intro x hx
    obtain ⟨name, -, rfl⟩ := List.mem_map.1 hx
    rfl

theorem mem_doubles_normal (h : d ∈ v.normal.doubles) : d ∈ v.doubles := by
  induction v using Json.induction with
  | h v ih =>
    cases v with
    | obj ms =>
      obtain ⟨x, hx, hd⟩ := Json.mem_memberDoubles.1 h
      obtain ⟨m', hm', rfl⟩ := List.mem_map.1 hx
      rcases mem_normal hm' with hm' | ⟨names, e⟩
      · rw [mapSlots_eq_map] at hm'
        obtain ⟨m, hm, rfl⟩ := List.mem_map.1 hm'
        have hmaps : Slot.Maps (fun c c' => d ∈ c'.doubles → d ∈ c.doubles) (modeledSlot? m.1) m.2
            (Slot.mapValues Json.normal (modeledSlot? m.1) m.2) :=
          (maps_mapValues _ m.2).imp fun c hc _ e => e ▸ ih c (Json.mem_children_of_modeledSlot hm hc)
        exact Json.mem_memberDoubles.2 ⟨m.2, List.mem_map_of_mem hm, mem_doubles_of_maps hmaps hd⟩
      · -- There are no numbers in a list of names.
        rw [e] at hd
        obtain ⟨x, hx, hd⟩ := Json.mem_itemDoubles.1 hd
        obtain ⟨name, -, rfl⟩ := List.mem_map.1 hx
        cases hd
    | _ => exact h

/-! ## What is written -/

/-- A schema that was read can be written, as the normal form up to the order of members. -/
theorem exists_encode_alike {s : Schema} (hv : v.hasDistinctNames = true) (h : Schema.decode v = .ok s) :
    ∃ x, s.encode = .ok x ∧ x.Alike v.normal := by
  have hregular : s.Regular := by
    rcases Schema.decode_eq_ok.1 h with ⟨b, rfl, rfl⟩ | ⟨ms, n, rfl, hn, rfl⟩
    · exact .bool b
    · exact regular_of_decode hv hn
  obtain ⟨x, hx, -, hdistinct⟩ := exists_encode hregular
  exact ⟨x, hx, alike_of_sameKeywords hdistinct (hasDistinctNames_normal hv) (writesNormal hv s x h hx)⟩

/-! ## Comparison -/

section

variable {a b : Json}

/-- **Canonical texts are equal exactly if the values are the same.** Hence schemas that were read compare as equal,
by the canonical texts of what is written for them, exactly if the values they were read from are the same in normal
form. -/
theorem canonical_compares (ha : a.hasDistinctNames = true) (hb : b.hasDistinctNames = true)
    (hdoubles : Double.ToldApart a.doubles b.doubles) :
    (a.canonical = b.canonical ↔ a.SameContent b) ∧ (a.SameContent b → a.kind = b.kind) ∧
      ∀ s t, Schema.decode a = .ok s → Schema.decode b = .ok t →
        ∃ x y, s.encode = .ok x ∧ t.encode = .ok y ∧ s.isAlike t = .ok (decide (x.canonical = y.canonical)) ∧
          (s.isAlike t = .ok true ↔ a.normal.SameContent b.normal) := by
  refine ⟨Json.canonical_eq_iff ha hb hdoubles, Json.SameContent.kind_eq, fun s t hs ht => ?_⟩
  obtain ⟨x, hx, hxa⟩ := exists_encode_alike ha hs
  obtain ⟨y, hy, hyb⟩ := exists_encode_alike hb ht
  have hwritten : Double.ToldApart x.doubles y.doubles :=
    hdoubles.mono (fun _ hd => mem_doubles_normal (hxa.mem_doubles_iff.1 hd))
      (fun _ hd => mem_doubles_normal (hyb.mem_doubles_iff.1 hd))
  have hcanonical : x.canonical = y.canonical ↔ x.Alike y := Json.canonical_eq_iff_alike hwritten
  have hcompare : s.isAlike t = .ok (decide (x.canonical = y.canonical)) := by
    simp only [hcanonical]
    rw [Schema.isAlike, hx, hy]
    rfl
  refine ⟨x, y, hx, hy, hcompare, ?_⟩
  calc
    s.isAlike t = .ok true ↔ x.canonical = y.canonical := by simp [hcompare]
    _ ↔ a.normal.Alike b.normal := hcanonical.trans (hxa.congr hyb)
    _ ↔ a.normal.SameContent b.normal :=
      (Json.sameContent_iff (hasDistinctNames_normal ha) (hasDistinctNames_normal hb)).symm

/-- A schema, and one with its keywords in another order, some of which say nothing, and a name required twice. -/
theorem canonical_compares_reordered :
    let a : Json := .obj [
      ("default", .obj [("size", .double (.finite false 15 (-1))), ("limits", .arr [.int 1, .bool true])]),
      ("required", .arr [.str "b", .str "a", .str "b"]),
      ("properties", .obj [("a", .obj [("maxItems", .null), ("enum", .arr [.double (.finite false 1 0)])])])]
    let b : Json := .obj [
      ("properties", .obj [("a", .obj [("enum", .arr [.double (.finite false 1 0)]), ("required", .arr [])])]),
      ("required", .arr [.str "a", .str "b"]),
      ("default", .obj [("limits", .arr [.int 1, .bool true]), ("size", .double (.finite false 15 (-1)))])]
    a.hasDistinctNames = true ∧ b.hasDistinctNames = true ∧ Double.ToldApart a.doubles b.doubles ∧ ¬a.SameContent b ∧
      ∃ s t, Schema.decode a = .ok s ∧ Schema.decode b = .ok t ∧ s.isAlike t = .ok true := by
  intro a b
  have ha : a.hasDistinctNames = true := by decide
  have hb : b.hasDistinctNames = true := by decide
  have hdoubles : Double.ToldApart a.doubles b.doubles :=
    Json.toldApart_of_readsBack (by decide +kernel) (by decide +kernel)
  obtain ⟨hcanonical, -, hcompare⟩ := canonical_compares ha hb hdoubles
  have hdifferent : ¬a.SameContent b := fun h => absurd (hcanonical.2 h) (by decide +kernel)
  obtain ⟨s, t, hs, ht⟩ : ∃ s t, Schema.decode a = .ok s ∧ Schema.decode b = .ok t := ⟨_, _, rfl, rfl⟩
  obtain ⟨x, y, hx, hy, -, hsame⟩ := hcompare s t hs ht
  have hnormal : a.normal.SameContent b.normal :=
    (Json.sameContent_iff (by decide +kernel) (by decide +kernel)).2 (by decide +kernel)
  exact ⟨ha, hb, hdoubles, hdifferent, s, t, hs, ht, hsame.2 hnormal⟩

end

end KubeSchema
