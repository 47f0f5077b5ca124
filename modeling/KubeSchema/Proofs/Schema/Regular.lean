import KubeSchema.Proofs.Schema.Reading

/-!
# Regular schemas

A schema object is regular (`Node.Regular`) if its vendor keywords are a vendor's, its other keywords are neither that
nor modeled, no name occurs twice, and its counts are in range; a schema is regular if all schema objects in it are.
What is read from a document is regular (`regular_of_decode`).
-/

namespace KubeSchema

/-! ## Vendor keywords are not modeled -/

theorem isModeled_of_isVendor {name : String} (h : isVendor name = true) : isModeled name = false := by
  rw [isModeled, Keyword.ofName?, Option.isSome_eq_false_iff, Option.isNone_iff_eq_none, List.find?_eq_none]
  rintro k - hk
  rw [← of_decide_eq_true hk] at h
  revert h
  cases k <;> decide

theorem isModeled_of_isOther {name : String} (h : isOther name = true) : isModeled name = false := by
  simp only [isOther, Bool.and_eq_true, Bool.not_eq_true'] at h
  exact h.1

/-! ## Regularity -/

/-- What the value of a keyword has to be, beside its type. -/
def Keyword.Fits : (k : Keyword) → k.Value → Prop
  | .default, (v : Option Json) => ∀ x ∈ v, x.hasDistinctNames = true
  | .enum, (v : Option (List Json)) => ∀ l ∈ v, ∀ x ∈ l, x.hasDistinctNames = true
  | .maxItems, (v : Option Int) => ∀ c ∈ v, 0 ≤ c ∧ c ≤ Json.maxCount
  | .minItems, (v : Option Int) => ∀ c ∈ v, 0 ≤ c ∧ c ≤ Json.maxCount
  | .maxProperties, (v : Option Int) => ∀ c ∈ v, 0 ≤ c ∧ c ≤ Json.maxCount
  | .minProperties, (v : Option Int) => ∀ c ∈ v, 0 ≤ c ∧ c ≤ Json.maxCount
  | .properties, (v : List (String × Schema)) => Members.Distinct v
  | .patternProperties, (v : List (String × Schema)) => Members.Distinct v
  | _, _ => True

/-- A schema object with vendor keywords for extensions, and others that are neither a vendor's nor modeled. -/
structure Node.Separated (n : ObjectSchema) : Prop where
  extensions : ∀ m ∈ n.extensions, isVendor m.1 = true
  other : ∀ m ∈ n.other, isOther m.1 = true

/-- A schema object with keywords of the right kind, counts in range and distinct names. -/
structure Node.Regular (n : ObjectSchema) : Prop where
  extensions : ∀ m ∈ n.extensions, isVendor m.1 = true
  other : ∀ m ∈ n.other, isOther m.1 = true
  distinct : Members.Distinct (n.extensions ++ n.other)
  values : ∀ m ∈ n.extensions ++ n.other, m.2.hasDistinctNames = true
  fits : ∀ k : Keyword, k.Fits (n.field k)

/-- A schema all of whose schema objects are regular. -/
abbrev Schema.Regular (s : Schema) : Prop := s.Everywhere Node.Regular

theorem Node.Regular.separated {n : ObjectSchema} (h : n.Regular) : n.Separated := ⟨h.extensions, h.other⟩

theorem Node.Separated.isModeled {n : ObjectSchema} (h : n.Separated) :
    ∀ m ∈ n.extensions ++ n.other, isModeled m.1 = false := fun m hm =>
  (List.mem_append.1 hm).elim (fun hm => isModeled_of_isVendor (h.extensions m hm))
    (fun hm => isModeled_of_isOther (h.other m hm))

theorem Node.Regular.isModeled {n : ObjectSchema} (h : n.Regular) :
    ∀ m ∈ n.extensions ++ n.other, isModeled m.1 = false := h.separated.isModeled

theorem Node.Regular.distinct_parts {n : ObjectSchema} (h : n.Regular) :
    Members.Distinct n.extensions ∧ Members.Distinct n.other := by
  have hd := h.distinct
  rw [Members.Distinct, Members.names_append] at hd
  exact ⟨(List.nodup_append'.1 hd).1, (List.nodup_append'.1 hd).2.1⟩

/-- Vendor keywords and others, each without repetitions, are distinct together. -/
theorem distinct_append {extensions other : Members Json} (he : ∀ m ∈ extensions, isVendor m.1 = true)
    (ho : ∀ m ∈ other, isOther m.1 = true) (hde : Members.Distinct extensions) (hdo : Members.Distinct other) :
    Members.Distinct (extensions ++ other) := by
  rw [Members.Distinct, Members.names_append]
  refine List.nodup_append'.2 ⟨hde, hdo, fun name h₁ h₂ => ?_⟩
  obtain ⟨m, hm, rfl⟩ := List.mem_map.1 h₁
  obtain ⟨p, hp, e⟩ := List.mem_map.1 h₂
  have := ho p hp
  simp [isOther, e, he m hm] at this

/-- A schema object is regular if it has the fields of a regular one, or others that fit. -/
theorem Node.Regular.of_fields {n m : ObjectSchema} (hn : n.Regular) (he : m.extensions = n.extensions)
    (ho : m.other = n.other) (hf : ∀ k : Keyword, m.field k = n.field k ∨ k.Fits (m.field k)) : m.Regular := by
  refine ⟨he ▸ hn.extensions, ho ▸ hn.other, he ▸ ho ▸ hn.distinct, he ▸ ho ▸ hn.values, fun k => ?_⟩
  rcases hf k with hk | hk
  · rw [hk]
    exact hn.fits k
  · exact hk

/-! ## Reading -/

theorem asCount_eq_ok {k : Keyword} {v : Json} {c : Int} (h : Json.asCount k v = .ok c) :
    0 ≤ c ∧ c ≤ Json.maxCount := by
  cases v with
  | int n =>
    rw [Json.asCount] at h
    split at h
    · cases h; assumption
    · cases h
  | _ => cases h

theorem fits_of_readField {k : Keyword} {v : Option Json} {a : k.Value} (h : k.readField v = .ok a)
    (hv : ∀ x ∈ v, x.hasDistinctNames = true) : k.Fits a := by
  have count {k : Keyword} {a : Option Int} (h : optional (Json.asCount k) v = .ok a) :
      ∀ c ∈ a, 0 ≤ c ∧ c ≤ Json.maxCount := by
    rintro c ⟨⟩
    rcases optional_eq_ok.1 h with ⟨-, h⟩ | ⟨w, b, -, -, hb, h⟩
    · cases h
    · cases hb; exact asCount_eq_ok h
  have map {k : Keyword} {a : List (String × Schema)} (h : (·.getD []) <$> optional (Schema.decodeMap k) v = .ok a) :
      Members.Distinct a := by
    rcases readMap_eq_ok.1 h with ⟨-, rfl⟩ | ⟨ms, rfl, hr⟩
    · exact List.nodup_nil
    · rw [Members.Distinct, hr.names]
      exact (Json.hasDistinctNames_obj.1 (hv _ rfl)).1
  cases k
  case default => cases h; exact hv
  case enum =>
    rcases optional_eq_ok.1 h with ⟨-, rfl⟩ | ⟨w, l, rfl, -, rfl, hw⟩
    · intro _ hl
      cases hl
    · cases w with
      | arr xs =>
        cases hw
        rintro _ ⟨⟩ x hx
        exact Json.hasDistinctNames_arr.1 (hv _ rfl) x hx
      | _ => cases hw
  case maxItems | minItems | maxProperties | minProperties => exact count h
  case properties | patternProperties => exact map h
  all_goals trivial

theorem regular_of_decode_obj {ms : Members Json} (hd : (Json.obj ms).hasDistinctNames = true) {n : ObjectSchema}
    (h : Node.decode (.obj ms) = .ok n) : n.Regular := by
  obtain ⟨hf, he, ho⟩ := decode_eq_ok.1 h
  obtain ⟨hn, hv⟩ := Json.hasDistinctNames_obj.1 hd
  have hve : ∀ m ∈ n.extensions, m ∈ ms ∧ isVendor m.1 = true := by
    rw [he]; intro m hm; simp only [List.mem_filter, Bool.and_eq_true] at hm; exact ⟨hm.1, hm.2.2⟩
  have hvo : ∀ m ∈ n.other, m ∈ ms ∧ isOther m.1 = true := by
    rw [ho]; intro m hm; exact List.mem_filter.1 hm
  refine ⟨fun m hm => (hve m hm).2, fun m hm => (hvo m hm).2, ?_, fun m hm => ?_, fun k => ?_⟩
  · refine distinct_append (fun m hm => (hve m hm).2) (fun m hm => (hvo m hm).2) ?_ ?_
    · rw [he]; exact hn.sublist (List.filter_sublist.map _)
    · rw [ho]; exact hn.sublist (List.filter_sublist.map _)
  · rcases List.mem_append.1 hm with hm | hm
    · exact hv m (hve m hm).1
    · exact hv m (hvo m hm).1
  · exact fits_of_readField (hf k) (fun x hx => hv _ (Members.mem_of_get? hx))

/-- What is read from a document is regular. -/
theorem regular_of_decode {v : Json} {n : ObjectSchema} (hd : v.hasDistinctNames = true)
    (h : Node.decode v = .ok n) : (Schema.object n).Regular := by
  induction v using Json.induction generalizing n with
  | h v ih =>
    have hn : n.Regular := by
      obtain ⟨ms, rfl⟩ := Node.exists_obj_of_decode h
      exact regular_of_decode_obj hd h
    refine .object hn fun c hc => ?_
    obtain ⟨x, hx, hxc⟩ := exists_value_of_node_child h hc
    cases c with
    | bool b => exact .bool b
    | object m => exact ih x hx (Json.hasDistinctNames_child hd hx) (Schema.decode_object hxc)

end KubeSchema
