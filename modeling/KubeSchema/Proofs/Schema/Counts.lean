import KubeSchema.Proofs.Schema.Writing

/-!
# Reading what was written

Writing a schema checks that its counts are not negative, reading one also that they are at most `Json.maxCount`. So
what was written reads as the schema if no count in it is larger, and does not read at all otherwise.

* `readField_written_iff`: the field of a keyword.
* `decode_written_iff`: a schema object.
-/

namespace KubeSchema

/-! ## Counts -/

/-- Whether a field is small enough to be read again, if it is a count. -/
def Keyword.IsSmall : (k : Keyword) → k.Value → Prop
  | .maxItems, (v : Option Int) => ∀ c ∈ v, c ≤ Json.maxCount
  | .minItems, (v : Option Int) => ∀ c ∈ v, c ≤ Json.maxCount
  | .maxProperties, (v : Option Int) => ∀ c ∈ v, c ≤ Json.maxCount
  | .minProperties, (v : Option Int) => ∀ c ∈ v, c ≤ Json.maxCount
  | _, _ => True

/-- Whether the counts of a schema object are small enough to be read again. -/
def Node.HasSmallCounts (n : ObjectSchema) : Prop := ∀ k : Keyword, k.IsSmall (n.field k)

/-- A schema all of whose schema objects have small counts. -/
abbrev Schema.HasSmallCounts (s : Schema) : Prop := s.Everywhere Node.HasSmallCounts

/-- What is written for a schema reads as nothing else, and reads exactly if the counts are small. -/
def Schema.ReadsBack (s : Schema) : Prop :=
  ∀ x, s.encode = .ok x → ∀ s', Schema.decode x = .ok s' ↔ s' = s ∧ s.HasSmallCounts

/-! ## Lists and members -/

theorem decodeItems_written_iff {l r : List Schema} {xs : List Json}
    (h : List.Forall₂ (fun s x => s.encode = .ok x) l xs) (hl : ∀ c ∈ l, c.ReadsBack) :
    List.Forall₂ (fun x s => Schema.decode x = .ok s) xs r ↔ r = l ∧ ∀ c ∈ l, c.HasSmallCounts := by
  induction h generalizing r with
  | nil => simp
  | @cons s x l xs hx _ ih =>
    obtain ⟨hs, hl⟩ := List.forall_mem_cons.1 hl
    rw [List.forall₂_cons_left_iff, List.forall_mem_cons]
    have hs := hs x hx
    have ih {t} := ih (r := t) hl
    constructor
    · rintro ⟨s', t, hs', ht, rfl⟩
      obtain ⟨rfl, hsmall⟩ := (hs s').1 hs'
      obtain ⟨rfl, ht⟩ := ih.1 ht
      exact ⟨rfl, hsmall, ht⟩
    · rintro ⟨rfl, hsmall, ht⟩
      exact ⟨s, l, (hs s).2 ⟨rfl, hsmall⟩, ih.2 ⟨rfl, ht⟩, rfl⟩

theorem decodeMembers_written_iff {l r : List (String × Schema)} {ms : Members Json}
    (h : Members.Rel (fun s x => s.encode = .ok x) l ms) (hl : ∀ c ∈ l.map Prod.snd, c.ReadsBack) :
    Members.Rel (fun x s => Schema.decode x = .ok s) ms r ↔
      r = l ∧ ∀ c ∈ l.map Prod.snd, c.HasSmallCounts := by
  induction h generalizing r with
  | nil => simp [Members.Rel]
  | @cons p m l ms hm _ ih =>
    obtain ⟨name, s⟩ := p
    obtain ⟨_, x⟩ := m
    obtain ⟨rfl, hx⟩ := hm
    obtain ⟨hs, hl⟩ := List.forall_mem_cons.1 hl
    rw [Members.Rel, List.forall₂_cons_left_iff, List.map_cons, List.forall_mem_cons]
    have hs := hs x hx
    have ih {t} := ih (r := t) hl
    constructor
    · rintro ⟨⟨_, s'⟩, t, ⟨rfl, hs'⟩, ht, rfl⟩
      obtain ⟨rfl, hsmall⟩ := (hs s').1 hs'
      obtain ⟨rfl, ht⟩ := ih.1 ht
      exact ⟨rfl, hsmall, ht⟩
    · rintro ⟨rfl, hsmall, ht⟩
      exact ⟨(name, s), l, ⟨rfl, (hs s).2 ⟨rfl, hsmall⟩⟩, ih.2 ⟨rfl, ht⟩, rfl⟩

/-! ## Fields -/

theorem readCount_written_iff {k : Keyword} {a b : Option Int} {v : Option Json} (h : encodeCount k a = .ok v) :
    optional (Json.asCount k) v = .ok b ↔ b = a ∧ ∀ c ∈ a, c ≤ Json.maxCount := by
  cases a with
  | none => cases h; simp [optional, eq_comm]
  | some c =>
    rw [encodeCount] at h
    split at h
    · next hc =>
      cases h
      simp only [optional, Json.asCount, hc, true_and, map_eq_ok]
      split <;> simp_all [eq_comm]
    · cases h

theorem readSchema_written_iff {k : Keyword} {a b : Option Schema} {v : Option Json} (h : encodeSchema a = .ok v)
    (hc : ∀ c ∈ a.toList, c.ReadsBack) :
    optional (fun v => (Schema.decode v).mapError (.within k none)) v = .ok b ↔
      b = a ∧ ∀ c ∈ a.toList, c.HasSmallCounts := by
  cases a with
  | none => cases h; simp [optional, eq_comm]
  | some s =>
    obtain ⟨x, hx, rfl⟩ := map_eq_ok.1 h
    have hs := hc s (List.mem_singleton.2 rfl) x hx
    rw [readSchema_eq_ok]
    constructor
    · rintro (⟨e | e, -⟩ | ⟨w, s', e, rfl, hw⟩) <;> cases e
      · exact absurd rfl (ne_null_of_encode hx)
      · obtain ⟨rfl, hsmall⟩ := (hs s').1 hw
        exact ⟨rfl, by simpa using hsmall⟩
    · rintro ⟨rfl, hsmall⟩
      exact .inr ⟨x, s, rfl, rfl, (hs s).2 ⟨rfl, hsmall s (List.mem_singleton.2 rfl)⟩⟩

theorem readList_written_iff {k : Keyword} {a b : Option (List Schema)} {v : Option Json}
    (h : encodeSchemas a = .ok v) (hc : ∀ c ∈ a.getD [], c.ReadsBack) :
    optional (Schema.decodeList k) v = .ok b ↔ b = a ∧ ∀ c ∈ a.getD [], c.HasSmallCounts := by
  cases a with
  | none => cases h; simp [optional, eq_comm]
  | some l =>
    obtain ⟨xs, hxs, rfl⟩ := map_eq_ok.1 h
    have hl {r} := decodeItems_written_iff (r := r) (encodeItems_eq_ok.1 hxs) hc
    rw [readList_eq_ok]
    constructor
    · rintro (⟨e | e, -⟩ | ⟨ys, l', e, rfl, hys⟩) <;> cases e
      obtain ⟨rfl, hsmall⟩ := hl.1 hys
      exact ⟨rfl, hsmall⟩
    · rintro ⟨rfl, hsmall⟩
      exact .inr ⟨xs, l, rfl, rfl, hl.2 ⟨rfl, hsmall⟩⟩

theorem readOneOrList_written_iff {k : Keyword} {a b : Option (OneOrMany Schema)} {v : Option Json}
    (h : encodeSchemaOrList a = .ok v) (hc : ∀ c ∈ a.elim [] OneOrMany.toList, c.ReadsBack) :
    optional (Schema.decodeOneOrList k) v = .ok b ↔
      b = a ∧ ∀ c ∈ a.elim [] OneOrMany.toList, c.HasSmallCounts := by
  rw [readOneOrList_eq_ok]
  rcases a with _ | s | l
  · cases h; simp [Json.IsMissing]
  · obtain ⟨x, hx, rfl⟩ := map_eq_ok.1 h
    have hs := hc s (List.mem_singleton.2 rfl) x hx
    constructor
    · rintro (⟨e | e, -⟩ | ⟨w, s', e, rfl, hw⟩ | ⟨xs, l, e, -⟩) <;> cases e
      · exact absurd rfl (ne_null_of_encode hx)
      · obtain ⟨rfl, hsmall⟩ := (hs s').1 hw
        exact ⟨rfl, by simpa [OneOrMany.toList] using hsmall⟩
      · -- A schema is not written as a list, so it does not read as one under `items` either.
        exact absurd rfl (ne_arr_of_encode hx xs)
    · rintro ⟨rfl, hsmall⟩
      exact .inr (.inl ⟨x, s, rfl, rfl, (hs s).2 ⟨rfl, hsmall s (List.mem_singleton.2 rfl)⟩⟩)
  · obtain ⟨xs, hxs, rfl⟩ := map_eq_ok.1 h
    have hl {r} := decodeItems_written_iff (r := r) (encodeItems_eq_ok.1 hxs) hc
    constructor
    · rintro (⟨e | e, -⟩ | ⟨w, s', e, rfl, hw⟩ | ⟨ys, l', e, rfl, hys⟩) <;> cases e
      · cases hw
      · obtain ⟨rfl, hsmall⟩ := hl.1 hys
        exact ⟨rfl, hsmall⟩
    · rintro ⟨rfl, hsmall⟩
      exact .inr (.inr ⟨xs, l, rfl, rfl, hl.2 ⟨rfl, hsmall⟩⟩)

theorem readMap_written_iff {k : Keyword} {a b : List (String × Schema)} {v : Option Json}
    (h : encodeMap <$> encodeMembers a = .ok v) (hc : ∀ c ∈ a.map Prod.snd, c.ReadsBack) :
    (·.getD []) <$> optional (Schema.decodeMap k) v = .ok b ↔ b = a ∧ ∀ c ∈ a.map Prod.snd, c.HasSmallCounts := by
  obtain ⟨ms, hms, rfl⟩ := map_eq_ok.1 h
  have hrel := encodeMembers_eq_ok.1 hms
  rw [readMap_eq_ok]
  cases hrel with
  | nil => simp [encodeMap, Json.IsMissing]
  | cons hm hr =>
    have hl {r} := decodeMembers_written_iff (r := r) (.cons hm hr) hc
    constructor
    · rintro (⟨e | e, -⟩ | ⟨ms', e, hb⟩) <;> cases e
      exact hl.1 hb
    · intro hb
      exact .inr ⟨_, rfl, hl.2 hb⟩

/-- A written field reads as the field, if it and the schemas in it have small counts, and does not read otherwise. -/
theorem readField_written_iff {k : Keyword} {a b : k.Value} {v : Option Json} (h : k.writeField a = .ok v)
    (hc : ∀ c ∈ k.children a, c.ReadsBack) :
    k.readField v = .ok b ↔ b = a ∧ k.IsSmall a ∧ ∀ c ∈ k.children a, c.HasSmallCounts := by
  have plain (hr : k.readField v = .ok a) (hsmall : k.IsSmall a) (hnone : k.children a = []) :
      k.readField v = .ok b ↔ b = a ∧ k.IsSmall a ∧ ∀ c ∈ k.children a, c.HasSmallCounts := by
    rw [hr, hnone, Except.ok.injEq]
    exact ⟨fun e => ⟨e.symm, hsmall, nofun⟩, fun e => e.1.symm⟩
  have nested {P : Prop} (h : k.readField v = .ok b ↔ b = a ∧ P) (hsmall : k.IsSmall a) :
      k.readField v = .ok b ↔ b = a ∧ k.IsSmall a ∧ P := by
    rw [h, and_iff_right hsmall]
  cases k
  case maxItems | minItems | maxProperties | minProperties =>
    exact (readCount_written_iff h).trans (and_congr_right fun _ => (and_iff_left nofun).symm)
  case anyOf | oneOf => exact nested (readList_written_iff h hc) trivial
  case items => exact nested (readOneOrList_written_iff h hc) trivial
  case additionalItems | contains | additionalProperties | propertyNames =>
    exact nested (readSchema_written_iff h hc) trivial
  case properties | patternProperties => exact nested (readMap_written_iff h hc) trivial
  case required =>
    cases h
    obtain ⟨v, e, hr, -⟩ := exists_encodeNames (k := .required) a
    cases e
    exact plain hr trivial rfl
  case type =>
    cases h
    refine plain ?_ trivial rfl
    obtain _ | t := (a : Option (OneOrMany PrimitiveType))
    · rfl
    · exact optional_eq_ok.2 (.inr ⟨_, t, rfl, by cases t <;> nofun, rfl, asTypes_encodeTypes t⟩)
  case default => exact plain (by cases h; rfl) trivial rfl
  case description | format =>
    cases h
    exact plain (by obtain _ | s := (a : Option String) <;> rfl) trivial rfl
  case enum =>
    cases h
    exact plain (by obtain _ | l := (a : Option (List Json)) <;> rfl) trivial rfl
  case uniqueItems =>
    cases h
    exact plain (by obtain _ | b := (a : Option Bool) <;> rfl) trivial rfl

/-! ## Schema objects -/

theorem decode_encoded_iff {n : ObjectSchema} (hn : n.Separated) (hc : ∀ c ∈ n.children, c.ReadsBack)
    {ms : Members Json} (h : n.encode = .ok ms) (m : ObjectSchema) :
    Node.decode (.obj ms) = .ok m ↔ m = n ∧ (Schema.object n).HasSmallCounts := by
  obtain ⟨vals, hw, rfl, -⟩ := encode_eq_ok.1 h
  have hfield (k : Keyword) := readField_written_iff (b := m.field k) (hw k)
    fun c h => hc c (Node.mem_children.2 ⟨k, h⟩)
  rw [decode_eq_ok, (filter_written hn vals).1, (filter_written hn vals).2]
  simp only [get?_written_of_other hn.isModeled, hfield]
  constructor
  · rintro ⟨hf, he, ho⟩
    obtain rfl : m = n := Node.ext_field (fun k => (hf k).1) he ho
    refine ⟨rfl, .object (fun k => (hf k).2.1) fun c h => ?_⟩
    obtain ⟨k, hk⟩ := Node.mem_children.1 h
    exact (hf k).2.2 c hk
  · rintro ⟨rfl, hsmall⟩
    exact ⟨fun k => ⟨rfl, hsmall.here k, fun c h => hsmall.child c (Node.mem_children.2 ⟨k, h⟩)⟩, rfl, rfl⟩

theorem Schema.readsBack {s : Schema} (h : s.Everywhere Node.Separated) : s.ReadsBack := by
  induction h with
  | bool b =>
    intro x hx s'
    cases hx
    rw [Schema.decode_eq_ok]
    constructor
    · rintro (⟨_, e, rfl⟩ | ⟨_, _, e, -⟩) <;> cases e
      exact ⟨rfl, .bool b⟩
    · rintro ⟨rfl, -⟩
      exact .inl ⟨b, rfl, rfl⟩
  | @object n hn _ ih =>
    intro x hx s'
    obtain ⟨ms, hms, rfl⟩ := map_eq_ok.1 hx
    rw [Schema.decode_eq_ok]
    constructor
    · rintro (⟨_, e, -⟩ | ⟨_, m, -, hm, rfl⟩)
      · cases e
      · obtain ⟨rfl, hsmall⟩ := (decode_encoded_iff hn ih hms m).1 hm
        exact ⟨rfl, hsmall⟩
    · rintro ⟨rfl, hsmall⟩
      exact .inr ⟨ms, n, rfl, (decode_encoded_iff hn ih hms n).2 ⟨rfl, hsmall⟩, rfl⟩

/-- What is written for a schema object reads as that object if the counts in it are small, and does not read
otherwise. -/
theorem decode_written_iff {n : ObjectSchema} (hn : (Schema.object n).Everywhere Node.Separated) {v : Json}
    (hv : n.toJson = .ok v) (m : ObjectSchema) :
    Node.decode v = .ok m ↔ m = n ∧ (Schema.object n).HasSmallCounts := by
  obtain ⟨ms, hms, rfl⟩ := map_eq_ok.1 hv
  exact decode_encoded_iff hn.here (fun c hc => Schema.readsBack (hn.child c hc)) hms m

/-- A schema with a count below a property and keywords beside the modeled ones. -/
theorem decode_written_of_small_count :
    let child : ObjectSchema := { maxItems := some 4294967295 }
    let n : ObjectSchema :=
      { properties := [("a", .object child)], extensions := [("nullable", .bool true)], other := [("title", .str "A")] }
    let v : Json := .obj [
      ("properties", .obj [("a", .obj [("maxItems", .int 4294967295)])]),
      ("nullable", .bool true),
      ("title", .str "A")]
    (Schema.object n).Everywhere Node.Separated ∧ n.toJson = .ok v ∧ Node.decode v = .ok n := by
  intro child n v
  have everywhere {P : ObjectSchema → Prop} (hc : P child) (hn : P n) : (Schema.object n).Everywhere P := by
    refine .object hn fun c h => ?_
    cases List.mem_singleton.1 (show c ∈ [Schema.object child] from h)
    exact .object hc nofun
  have hchild : Node.HasSmallCounts child := by
    intro k
    cases k
    case maxItems => rintro c ⟨⟩; decide
    all_goals first | trivial | nofun
  have hnode : Node.HasSmallCounts n := by
    intro k
    cases k <;> first | trivial | nofun
  have hn : (Schema.object n).Everywhere Node.Separated := everywhere ⟨nofun, nofun⟩ ⟨by decide, by decide⟩
  have hv : n.toJson = .ok v := rfl
  exact ⟨hn, hv, (decode_written_iff hn hv n).2 ⟨rfl, everywhere hchild hnode⟩⟩

/-- A larger count is written, and does not read. -/
theorem large_count_written :
    let n : ObjectSchema := { maxItems := some 4294967296 }
    let v : Json := .obj [("maxItems", .int 4294967296)]
    (Schema.object n).Everywhere Node.Separated ∧ n.toJson = .ok v ∧
      Node.decode v = .error (.misshapen .maxItems .count (.int 4294967296)) :=
  ⟨.object ⟨nofun, nofun⟩ nofun, rfl, rfl⟩

end KubeSchema
