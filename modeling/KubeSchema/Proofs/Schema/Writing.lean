import KubeSchema.Proofs.Schema.Regular

/-!
# What writing gives

A regular schema can be written, and reads as itself (`exists_encode`). Field by field: what a field is written as
reads as the field (`exists_writeField`), so the members of the whole do.
-/

namespace KubeSchema

/-! ## Lists and members -/

theorem encodeItems_eq_ok {l : List Schema} {xs : List Json} :
    encodeItems l = .ok xs ↔ List.Forall₂ (fun s x => s.encode = .ok x) l xs := by
  induction l generalizing xs with
  | nil => simp [encodeItems]
  | cons s l ih =>
    simp only [encodeItems, bind_eq_ok, pure_eq_ok, ih, List.forall₂_cons_left_iff]
    constructor
    · rintro ⟨x, hx, r, hr, rfl⟩; exact ⟨x, r, hx, hr, rfl⟩
    · rintro ⟨x, r, hx, hr, rfl⟩; exact ⟨x, hx, r, hr, rfl⟩

theorem encodeMembers_eq_ok {l : List (String × Schema)} {ms : Members Json} :
    encodeMembers l = .ok ms ↔ Members.Rel (fun s x => s.encode = .ok x) l ms := by
  induction l generalizing ms with
  | nil => simp [encodeMembers, Members.Rel]
  | cons p l ih =>
    obtain ⟨name, s⟩ := p
    simp only [Members.Rel] at ih
    simp only [encodeMembers, bind_eq_ok, pure_eq_ok, ih, Members.Rel, List.forall₂_cons_left_iff]
    constructor
    · rintro ⟨x, hx, r, hr, rfl⟩; exact ⟨(name, x), r, ⟨rfl, hx⟩, hr, rfl⟩
    · rintro ⟨⟨_, x⟩, r, ⟨rfl, hx⟩, hr, rfl⟩; exact ⟨x, hx, r, hr, rfl⟩

theorem Schema.encode_eq_ok {s : Schema} {x : Json} :
    s.encode = .ok x ↔
      (∃ b, s = .bool b ∧ x = .bool b) ∨ ∃ n ms, s = .object n ∧ Node.encode n = .ok ms ∧ x = .obj ms := by
  cases s with
  | bool b => simp [Schema.encode, eq_comm]
  | object n => simp [Schema.encode_object, Node.toJson, map_eq_ok, @eq_comm _ x]

theorem ne_null_of_encode {s : Schema} {x : Json} (h : s.encode = .ok x) : x ≠ .null := by
  rcases Schema.encode_eq_ok.1 h with ⟨_, -, rfl⟩ | ⟨_, _, -, -, rfl⟩ <;> nofun

theorem ne_arr_of_encode {s : Schema} {x : Json} (h : s.encode = .ok x) : ∀ xs, x ≠ .arr xs := by
  rcases Schema.encode_eq_ok.1 h with ⟨_, -, rfl⟩ | ⟨_, _, -, -, rfl⟩ <;> nofun

/-- A schema can be written, and what is written reads as it. -/
def Schema.RoundTrips (s : Schema) : Prop :=
  ∃ x, s.encode = .ok x ∧ Schema.decode x = .ok s ∧ x.hasDistinctNames = true

theorem exists_encodeItems {l : List Schema} (h : ∀ s ∈ l, s.RoundTrips) :
    ∃ xs, encodeItems l = .ok xs ∧ List.Forall₂ (fun x s => Schema.decode x = .ok s) xs l ∧
      (Json.arr xs).hasDistinctNames = true := by
  induction l with
  | nil => exact ⟨[], rfl, .nil, rfl⟩
  | cons s l ih =>
    obtain ⟨⟨x, he, hd, hn⟩, hl⟩ := List.forall_mem_cons.1 h
    obtain ⟨xs, hes, hds, hns⟩ := ih hl
    refine ⟨x :: xs, encodeItems_eq_ok.2 (.cons he (encodeItems_eq_ok.1 hes)), .cons hd hds, ?_⟩
    exact Json.hasDistinctNames_arr.2 (List.forall_mem_cons.2 ⟨hn, Json.hasDistinctNames_arr.1 hns⟩)

theorem exists_encodeMembers {l : List (String × Schema)} (hl : Members.Distinct l)
    (h : ∀ s ∈ l.map Prod.snd, s.RoundTrips) :
    ∃ ms, encodeMembers l = .ok ms ∧ Members.Rel (fun x s => Schema.decode x = .ok s) ms l ∧
      (Json.obj ms).hasDistinctNames = true := by
  have hr : ∃ ms, encodeMembers l = .ok ms ∧ Members.Rel (fun x s => Schema.decode x = .ok s) ms l ∧
      ∀ m ∈ ms, m.2.hasDistinctNames = true := by
    clear hl
    induction l with
    | nil => exact ⟨[], rfl, .nil, by simp⟩
    | cons p l ih =>
      obtain ⟨name, s⟩ := p
      obtain ⟨⟨x, he, hd, hn⟩, hl⟩ := List.forall_mem_cons.1 h
      obtain ⟨ms, hes, hds, hns⟩ := ih hl
      exact ⟨(name, x) :: ms, encodeMembers_eq_ok.2 (.cons ⟨rfl, he⟩ (encodeMembers_eq_ok.1 hes)),
        .cons ⟨rfl, hd⟩ hds, List.forall_mem_cons.2 ⟨hn, hns⟩⟩
  obtain ⟨ms, he, hd, hn⟩ := hr
  refine ⟨ms, he, hd, Json.hasDistinctNames_obj.2 ⟨?_, hn⟩⟩
  rwa [Members.Distinct, ← hd.names]

/-! ## Fields -/

theorem asTypes_encodeTypes (t : OneOrMany PrimitiveType) : Json.asTypes (encodeTypes t) = .ok t := by
  have one (t : PrimitiveType) : Json.asType t.encode = .ok t := by
    simp [PrimitiveType.encode, Json.asType, PrimitiveType.ofName?_name]
  cases t with
  | one t => exact congrArg (Functor.map OneOrMany.one) (one t)
  | many ts =>
    have all : (ts.map PrimitiveType.encode).mapM Json.asType = .ok ts := by
      induction ts with
      | nil => rfl
      | cons t ts ih => simp [List.mapM_cons, one, ih, bind, Except.bind, pure, Except.pure]
    exact congrArg (Functor.map OneOrMany.many) all

theorem NameSet.ext {s t : NameSet} (h : s.names = t.names) : s = t := by
  cases s; cases t; cases h; rfl

theorem NameSet.ofList_names (s : NameSet) : NameSet.ofList s.names = s := by
  obtain ⟨l, hl⟩ := s
  have h : (NameSet.ofList l).names = l := by
    induction l with
    | nil => rfl
    | cons k r ih =>
      obtain ⟨hk, hr⟩ := List.pairwise_cons.1 hl
      show NameSet.insertName k (NameSet.ofList r).names = k :: r
      rw [ih hr]
      cases r with
      | nil => rfl
      | cons j r => simp [NameSet.insertName, hk j List.mem_cons_self]
  exact NameSet.ext h

theorem texts?_map_str (l : List String) : Json.texts? (l.map .str) = some l := by
  induction l with
  | nil => rfl
  | cons s l ih => simp_all [Json.texts?, Json.text?]

theorem exists_encodeSchema {k : Keyword} {a : Option Schema} (h : ∀ c ∈ a.toList, c.RoundTrips) :
    ∃ v, encodeSchema a = .ok v ∧ optional (fun v => (Schema.decode v).mapError (.within k none)) v = .ok a ∧
      ∀ x ∈ v, x.hasDistinctNames = true := by
  cases a with
  | none => exact ⟨none, rfl, rfl, nofun⟩
  | some s =>
    obtain ⟨x, he, hd, hn⟩ := h s (List.mem_singleton.2 rfl)
    exact ⟨some x, map_eq_ok.2 ⟨x, he, rfl⟩, readSchema_eq_ok.2 (.inr ⟨x, s, rfl, rfl, hd⟩), by rintro _ ⟨⟩; exact hn⟩

theorem exists_encodeSchemas {k : Keyword} {a : Option (List Schema)} (h : ∀ c ∈ a.getD [], c.RoundTrips) :
    ∃ v, encodeSchemas a = .ok v ∧ optional (Schema.decodeList k) v = .ok a ∧ ∀ x ∈ v, x.hasDistinctNames = true := by
  cases a with
  | none => exact ⟨none, rfl, rfl, nofun⟩
  | some l =>
    obtain ⟨xs, he, hd, hn⟩ := exists_encodeItems h
    exact ⟨some (.arr xs), map_eq_ok.2 ⟨xs, he, rfl⟩, readList_eq_ok.2 (.inr ⟨xs, l, rfl, rfl, hd⟩),
      by rintro _ ⟨⟩; exact hn⟩

theorem exists_encodeSchemaOrList {k : Keyword} {a : Option (OneOrMany Schema)}
    (h : ∀ c ∈ a.elim [] OneOrMany.toList, c.RoundTrips) :
    ∃ v, encodeSchemaOrList a = .ok v ∧ optional (Schema.decodeOneOrList k) v = .ok a ∧
      ∀ x ∈ v, x.hasDistinctNames = true := by
  rcases a with _ | s | l
  · exact ⟨none, rfl, rfl, nofun⟩
  · obtain ⟨x, he, hd, hn⟩ := h s (List.mem_singleton.2 rfl)
    exact ⟨some x, map_eq_ok.2 ⟨x, he, rfl⟩, readOneOrList_eq_ok.2 (.inr (.inl ⟨x, s, rfl, rfl, hd⟩)),
      by rintro _ ⟨⟩; exact hn⟩
  · obtain ⟨xs, he, hd, hn⟩ := exists_encodeItems h
    exact ⟨some (.arr xs), map_eq_ok.2 ⟨xs, he, rfl⟩, readOneOrList_eq_ok.2 (.inr (.inr ⟨xs, l, rfl, rfl, hd⟩)),
      by rintro _ ⟨⟩; exact hn⟩

theorem exists_encodeMap {k : Keyword} {a : List (String × Schema)} (hd : Members.Distinct a)
    (h : ∀ c ∈ a.map Prod.snd, c.RoundTrips) :
    ∃ v, encodeMap <$> encodeMembers a = .ok v ∧ (·.getD []) <$> optional (Schema.decodeMap k) v = .ok a ∧
      ∀ x ∈ v, x.hasDistinctNames = true := by
  obtain ⟨ms, he, hr, hn⟩ := exists_encodeMembers hd h
  refine ⟨encodeMap ms, map_eq_ok.2 ⟨ms, he, rfl⟩, readMap_eq_ok.2 ?_, ?_⟩
  · cases hr with
    | nil => exact .inl ⟨.inl rfl, rfl⟩
    | cons hm hr => exact .inr ⟨_, rfl, .cons hm hr⟩
  · intro x hx
    rw [encodeMap] at hx
    split at hx <;> cases hx
    exact hn

theorem exists_encodeCount {k : Keyword} {a : Option Int} (h : ∀ c ∈ a, 0 ≤ c ∧ c ≤ Json.maxCount) :
    ∃ v, encodeCount k a = .ok v ∧ optional (Json.asCount k) v = .ok a ∧ ∀ x ∈ v, x.hasDistinctNames = true := by
  cases a with
  | none => exact ⟨none, rfl, rfl, nofun⟩
  | some c =>
    have hc := h c rfl
    refine ⟨some (.int c), by simp [encodeCount, hc.1], ?_, by rintro _ ⟨⟩; rfl⟩
    exact optional_eq_ok.2 (.inr ⟨_, c, rfl, nofun, rfl, by simp [Json.asCount, hc]⟩)

theorem exists_encodeNames {k : Keyword} (s : NameSet) :
    ∃ v, (.ok s.encode : Except EncodeError _) = .ok v ∧ (·.getD .empty) <$> optional (Json.asNames k) v = .ok s ∧
      ∀ x ∈ v, x.hasDistinctNames = true := by
  refine ⟨s.encode, rfl, map_eq_ok.2 ?_, fun x hx => ?_⟩
  · rw [NameSet.encode]
    split
    · next he => exact ⟨none, rfl, NameSet.ext (List.isEmpty_iff.1 he).symm⟩
    · refine ⟨some s, optional_eq_ok.2 (.inr ⟨_, s, rfl, nofun, rfl, ?_⟩), rfl⟩
      simp [Json.asNames, texts?_map_str, NameSet.ofList_names]
  · rw [NameSet.encode] at hx
    split at hx <;> cases hx
    refine Json.hasDistinctNames_arr.2 fun x hx => ?_
    obtain ⟨name, -, rfl⟩ := List.mem_map.1 hx
    rfl

/-- What a field is written as reads as the field. -/
theorem exists_writeField {k : Keyword} {a : k.Value} (hf : k.Fits a) (h : ∀ c ∈ k.children a, c.RoundTrips) :
    ∃ v, k.writeField a = .ok v ∧ k.readField v = .ok a ∧ ∀ x ∈ v, x.hasDistinctNames = true := by
  cases k
  case description | format =>
    obtain _ | s := (a : Option String)
    · exact ⟨none, rfl, rfl, nofun⟩
    · exact ⟨some (.str s), rfl, rfl, by rintro _ ⟨⟩; rfl⟩
  case default => exact ⟨a, rfl, rfl, hf⟩
  case type =>
    obtain _ | t := (a : Option (OneOrMany PrimitiveType))
    · exact ⟨none, rfl, rfl, nofun⟩
    · refine ⟨some (encodeTypes t), rfl, ?_, ?_⟩
      · refine optional_eq_ok.2 (.inr ⟨_, t, rfl, ?_, rfl, asTypes_encodeTypes t⟩)
        cases t <;> nofun
      · rintro _ ⟨⟩
        cases t with
        | one t => rfl
        | many ts =>
          refine Json.hasDistinctNames_arr.2 fun x hx => ?_
          obtain ⟨t, -, rfl⟩ := List.mem_map.1 hx
          rfl
  case enum =>
    obtain _ | l := (a : Option (List Json))
    · exact ⟨none, rfl, rfl, nofun⟩
    · exact ⟨some (.arr l), rfl, rfl, by rintro _ ⟨⟩; exact Json.hasDistinctNames_arr.2 (hf l rfl)⟩
  case uniqueItems =>
    obtain _ | b := (a : Option Bool)
    · exact ⟨none, rfl, rfl, nofun⟩
    · exact ⟨some (.bool b), rfl, rfl, by rintro _ ⟨⟩; rfl⟩
  case required => exact exists_encodeNames a
  case anyOf | oneOf => exact exists_encodeSchemas h
  case items => exact exists_encodeSchemaOrList h
  case additionalItems | contains | additionalProperties | propertyNames => exact exists_encodeSchema h
  case maxItems | minItems | maxProperties | minProperties => exact exists_encodeCount hf
  case properties | patternProperties => exact exists_encodeMap hf h

/-! ## Schema objects -/

theorem isModeled_of_mem_fieldMembers {vals : Keyword → Option Json} {m : String × Json}
    (h : m ∈ fieldMembers vals Keyword.all) : isModeled m.1 = true := by
  obtain ⟨k, hk, -⟩ := mem_fieldMembers.1 h
  rw [hk, isModeled, Keyword.ofName?_name]
  rfl

/-- The vendor keywords are found again behind the modeled ones, and so are the others. -/
theorem filter_written {n : ObjectSchema} (hn : n.Separated) (vals : Keyword → Option Json) :
    (fieldMembers vals Keyword.all ++ (n.extensions ++ n.other)).filter (fun m => !isModeled m.1 && isVendor m.1) =
        n.extensions ∧
      (fieldMembers vals Keyword.all ++ (n.extensions ++ n.other)).filter (fun m => isOther m.1) = n.other := by
  have hk : ∀ m ∈ fieldMembers vals Keyword.all, isModeled m.1 = true := fun m => isModeled_of_mem_fieldMembers
  have he : ∀ m ∈ n.extensions, isModeled m.1 = false ∧ isVendor m.1 = true := fun m hm =>
    ⟨isModeled_of_isVendor (hn.extensions m hm), hn.extensions m hm⟩
  have ho : ∀ m ∈ n.other, isModeled m.1 = false ∧ isVendor m.1 = false := fun m hm => by
    simpa [isOther] using hn.other m hm
  simp only [List.filter_append]
  constructor
  · rw [List.filter_eq_nil_iff.2 (fun m hm => by simp [hk m hm]),
      List.filter_eq_self.2 (fun m hm => by simp [he m hm]),
      List.filter_eq_nil_iff.2 (fun m hm => by simp [ho m hm]), List.nil_append, List.append_nil]
  · rw [List.filter_eq_nil_iff.2 (fun m hm => by simp [isOther, hk m hm]),
      List.filter_eq_nil_iff.2 (fun m hm => by simp [isOther, he m hm]),
      List.filter_eq_self.2 (fun m hm => by simp [isOther, ho m hm]), List.nil_append, List.nil_append]

/-- The members that are not modeled are found again where a schema object is written. -/
theorem filter_encode {n : ObjectSchema} (hn : n.Separated) {ms : Members Json} (h : n.encode = .ok ms) :
    ms.filter (fun m => !isModeled m.1 && isVendor m.1) = n.extensions ∧
      ms.filter (fun m => isOther m.1) = n.other := by
  obtain ⟨vals, -, rfl, -⟩ := encode_eq_ok.1 h
  exact filter_written hn vals

/-- Objects with the same vendor keywords and the same others agree on what is not modeled. -/
theorem get?_eq_of_not_modeled {ms ms' : Members Json}
    (hvendor : ms.filter (fun m => !isModeled m.1 && isVendor m.1) =
      ms'.filter (fun m => !isModeled m.1 && isVendor m.1))
    (hother : ms.filter (fun m => isOther m.1) = ms'.filter (fun m => isOther m.1)) {name : String}
    (h : isModeled name = false) : Members.get? ms name = Members.get? ms' name := by
  cases hv : isVendor name with
  | true =>
    exact Members.get?_eq_of_filter_eq (p := fun name => !isModeled name && isVendor name) hvendor (by simp [h, hv])
  | false => exact Members.get?_eq_of_filter_eq (p := isOther) hother (by simp [isOther, h, hv])

theorem hasDistinctNames_written {vals : Keyword → Option Json} {rest : Members Json}
    (hv : ∀ k, ∀ x ∈ vals k, x.hasDistinctNames = true) (hr : ∀ m ∈ rest, m.2.hasDistinctNames = true)
    (hd : Members.Distinct rest) (hnames : ∀ m ∈ rest, m.1 ∉ Members.names (fieldMembers vals Keyword.all)) :
    (Json.obj (fieldMembers vals Keyword.all ++ rest)).hasDistinctNames = true := by
  refine Json.hasDistinctNames_obj.2 ⟨distinct_written hd hnames, fun m hm => ?_⟩
  rcases List.mem_append.1 hm with hm | hm
  · obtain ⟨k, -, hk⟩ := mem_fieldMembers.1 hm
    exact hv k _ hk
  · exact hr m hm

/-- A regular schema object with children that round-trip does so. -/
theorem exists_encode_object {n : ObjectSchema} (hn : n.Regular) (h : ∀ c ∈ n.children, c.RoundTrips) :
    ∃ ms, n.encode = .ok ms ∧ Node.decode (.obj ms) = .ok n ∧ (Json.obj ms).hasDistinctNames = true := by
  have hk (k : Keyword) := exists_writeField (hn.fits k) (fun c hc => h c (Node.mem_children.2 ⟨k, hc⟩))
  choose vals hw hr hv using hk
  have hnames : ∀ m ∈ n.extensions ++ n.other, m.1 ∉ Members.names (fieldMembers vals Keyword.all) := by
    intro m hm hmem
    obtain ⟨p, hp, he⟩ := List.mem_map.1 hmem
    have := isModeled_of_mem_fieldMembers hp
    rw [he, hn.isModeled m hm] at this
    cases this
  refine ⟨_, encode_eq_ok.2 ⟨vals, hw, rfl, hn.distinct, hnames⟩, decode_eq_ok.2 ⟨fun k => ?_, ?_, ?_⟩,
    hasDistinctNames_written hv hn.values hn.distinct hnames⟩
  · rw [get?_written_of_other hn.isModeled]
    exact hr k
  · exact (filter_written hn.separated vals).1.symm
  · exact (filter_written hn.separated vals).2.symm

/-- A regular schema can be written, and reads as itself. -/
theorem exists_encode {s : Schema} (h : s.Regular) : s.RoundTrips := by
  induction h with
  | bool b => exact ⟨.bool b, rfl, rfl, rfl⟩
  | object hn _ ih =>
    obtain ⟨ms, he, hd, hv⟩ := exists_encode_object hn ih
    exact ⟨.obj ms, map_eq_ok.2 ⟨ms, he, rfl⟩, Schema.decode_of_node hd, hv⟩

/-- The value that a field is written as holds its children, as they are written. -/
theorem exists_child_of_written {k : Keyword} {a : k.Value} {v y : Json} (h : k.writeField a = .ok (some v))
    (hy : y ∈ Slot.values (Slot.ofKeyword? k.name) v) : ∃ c ∈ k.children a, c.encode = .ok y := by
  cases k
  case anyOf | oneOf =>
    rcases (a : Option (List Schema)) with _ | l
    · cases h
    · obtain ⟨xs, hxs, e⟩ := map_eq_ok.1 h
      cases e
      obtain ⟨c, hc, hcy⟩ := exists_of_mem_right (encodeItems_eq_ok.1 hxs) hy
      exact ⟨c, hc, hcy⟩
  case items =>
    rcases (a : Option (OneOrMany Schema)) with _ | s | l
    · cases h
    · obtain ⟨x, hx, e⟩ := map_eq_ok.1 h
      cases e
      have hv : ∀ xs, v ≠ .arr xs := by
        rintro xs rfl
        cases s with
        | bool b => cases hx
        | object n =>
          obtain ⟨_, -, e⟩ := map_eq_ok.1 hx
          cases e
      have hy : y ∈ Slot.values (some .schemaOrList) v := hy
      rw [Slot.values_schemaOrList hv] at hy
      cases List.mem_singleton.1 hy
      exact ⟨s, List.mem_singleton.2 rfl, hx⟩
    · obtain ⟨xs, hxs, e⟩ := map_eq_ok.1 h
      cases e
      obtain ⟨c, hc, hcy⟩ := exists_of_mem_right (encodeItems_eq_ok.1 hxs) hy
      exact ⟨c, hc, hcy⟩
  case additionalItems | contains | additionalProperties | propertyNames =>
    rcases (a : Option Schema) with _ | s
    · cases h
    · obtain ⟨x, hx, e⟩ := map_eq_ok.1 h
      cases e
      cases List.mem_singleton.1 hy
      exact ⟨s, List.mem_singleton.2 rfl, hx⟩
  case properties | patternProperties =>
    obtain ⟨ms, hms, e⟩ := map_eq_ok.1 h
    unfold encodeMap at e
    split at e <;> cases e
    obtain ⟨m, hm, rfl⟩ := List.mem_map.1 hy
    obtain ⟨p, hp, -, hpm⟩ := exists_of_mem_right (encodeMembers_eq_ok.1 hms) hm
    exact ⟨p.2, List.mem_map_of_mem hp, hpm⟩
  all_goals cases hy

/-- The values in the slots of what is written: the children, and what stands below keywords that are not modeled. -/
theorem exists_child_of_encode {n : ObjectSchema} (hn : n.Regular) {ms : Members Json} (h : n.encode = .ok ms)
    {y : Json} (hy : y ∈ Members.children ms) :
    (∃ c ∈ n.children, c.encode = .ok y) ∨ y ∈ Members.children n.other := by
  obtain ⟨vals, hw, rfl, -⟩ := encode_eq_ok.1 h
  obtain ⟨m, hm, hy⟩ := List.mem_flatMap.1 hy
  rcases List.mem_append.1 hm with hm | hm
  · obtain ⟨k, hk, hv⟩ := mem_fieldMembers.1 hm
    rw [hk] at hy
    obtain ⟨c, hc, hcy⟩ := exists_child_of_written ((hw k).trans (congrArg _ hv)) hy
    exact .inl ⟨c, Node.mem_children.2 ⟨k, hc⟩, hcy⟩
  · rcases List.mem_append.1 hm with hm | hm
    · rw [ofKeyword?_of_isVendor (hn.extensions m hm)] at hy
      cases hy
    · exact .inr (List.mem_flatMap.2 ⟨m, hm, hy⟩)

/-- What is written names no member twice, if that goes for the values in it. -/
theorem hasDistinctNames_of_encode {n : ObjectSchema} {ms : Members Json} (hf : ∀ k : Keyword, k.Fits (n.field k))
    (hc : ∀ c ∈ n.children, c.Regular) (hv : ∀ m ∈ n.extensions ++ n.other, m.2.hasDistinctNames = true)
    (h : n.encode = .ok ms) : (Json.obj ms).hasDistinctNames = true := by
  obtain ⟨vals, hw, rfl, hd, hnames⟩ := encode_eq_ok.1 h
  refine hasDistinctNames_written (fun k x hx => ?_) hv hd hnames
  obtain ⟨v, hv, -, hd⟩ := exists_writeField (hf k) (fun c h => exists_encode (hc c (Node.mem_children.2 ⟨k, h⟩)))
  cases (hw k).symm.trans hv
  exact hd x hx

end KubeSchema
