import KubeSchema.Proofs.Schema.Writing
import KubeSchema.Union.Optional

/-!
# What hoisting an optional does

A successful hoisting without its checks: the keywords of the entry are laid over those of the parent
(`Node.overlay`), field by field.

* `hoistOptional_eq_ok`: the parent after a hoisting that succeeds, or why there is nothing to do.
* `Node.Agree`: where both state a keyword, they agree.
-/

namespace KubeSchema

namespace Members

variable {α : Type}

theorem filter_set (p : String → Bool) (ms : Members α) (name : String) (a : α) :
    (set ms name a).filter (fun m => p m.1) =
      if p name then set (ms.filter (fun m => p m.1)) name a else ms.filter (fun m => p m.1) := by
  induction ms with
  | nil => cases hp : p name <;> simp [set, hp]
  | cons m r ih =>
    obtain ⟨k, b⟩ := m
    by_cases hk : k = name
    · subst hk
      cases hp : p k <;> simp [set, hp]
    · cases hp : p name <;> cases hq : p k <;> simp_all [set]

theorem filter_setAll (p : String → Bool) (ms l : Members α) :
    (setAll ms l).filter (fun m => p m.1) = setAll (ms.filter (fun m => p m.1)) (l.filter (fun m => p m.1)) := by
  induction l generalizing ms with
  | nil => rfl
  | cons m l ih =>
    rw [setAll_cons, ih, filter_set, List.filter_cons]
    split <;> rfl

/-- Of members of which only those set last count, these remain. -/
theorem filter_setAll_of_distinct {p : String → Bool} {ms l : Members α} (hms : ∀ m ∈ ms, p m.1 = false)
    (hl : Distinct l) :
    (setAll ms l).filter (fun m => p m.1) = l.filter (fun m => p m.1) := by
  have hfiltered : Distinct (l.filter (fun m => p m.1)) :=
    List.Nodup.sublist (List.Sublist.map _ List.filter_sublist) hl
  rw [filter_setAll, List.filter_eq_nil_iff.2 fun m hm => Bool.eq_false_iff.1 (hms m hm)]
  exact setAll_of_distinct hfiltered

end Members

/-! ## Laying one schema object over another -/

/-- A field, or another one where it is missing. -/
def Keyword.over : (k : Keyword) → k.Value → k.Value → k.Value
  | .description, (a : Option String), (b : Option String) => a.or b
  | .default, (a : Option Json), (b : Option Json) => a.or b
  | .type, (a : Option (OneOrMany PrimitiveType)), (b : Option (OneOrMany PrimitiveType)) => a.or b
  | .format, (a : Option String), (b : Option String) => a.or b
  | .enum, (a : Option (List Json)), (b : Option (List Json)) => a.or b
  | .anyOf, (a : Option (List Schema)), (b : Option (List Schema)) => a.or b
  | .oneOf, (a : Option (List Schema)), (b : Option (List Schema)) => a.or b
  | .items, (a : Option (OneOrMany Schema)), (b : Option (OneOrMany Schema)) => a.or b
  | .additionalItems, (a : Option Schema), (b : Option Schema) => a.or b
  | .maxItems, (a : Option Int), (b : Option Int) => a.or b
  | .minItems, (a : Option Int), (b : Option Int) => a.or b
  | .uniqueItems, (a : Option Bool), (b : Option Bool) => a.or b
  | .contains, (a : Option Schema), (b : Option Schema) => a.or b
  | .maxProperties, (a : Option Int), (b : Option Int) => a.or b
  | .minProperties, (a : Option Int), (b : Option Int) => a.or b
  | .required, (a : NameSet), (b : NameSet) => if a.isEmpty then b else a
  | .properties, (a : List (String × Schema)), (b : List (String × Schema)) => if a.isEmpty then b else a
  | .patternProperties, (a : List (String × Schema)), (b : List (String × Schema)) => if a.isEmpty then b else a
  | .additionalProperties, (a : Option Schema), (b : Option Schema) => a.or b
  | .propertyNames, (a : Option Schema), (b : Option Schema) => a.or b

theorem Keyword.over_eq_or (k : Keyword) (a b : k.Value) : k.over a b = a ∨ k.over a b = b := by
  have or_eq {α : Type} (a b : Option α) : a.or b = a ∨ a.or b = b := by cases a <;> simp
  cases k
  case required | properties | patternProperties =>
    simp only [Keyword.over]
    split
    · exact .inr rfl
    · exact .inl rfl
  all_goals exact or_eq _ _

/-- Over a field that is missing, a field stays. -/
theorem Keyword.over_missing (k : Keyword) (v : k.Value) : k.over v (({} : ObjectSchema).field k) = v := by
  cases k
  case required =>
    rcases (v : NameSet) with ⟨_ | ⟨name, names⟩, h⟩ <;> rfl
  case properties | patternProperties =>
    rcases (v : List (String × Schema)) with _ | ⟨p, l⟩ <;> rfl
  all_goals exact Option.or_none

theorem Keyword.over_eq {k : Keyword} {a b : k.Value} {v : Option Json} (h : k.writeField a = .ok v) :
    k.over a b = if v.isSome then a else b := by
  cases k
  case anyOf | oneOf =>
    rcases (a : Option (List Schema)) with _ | l
    · cases h; rfl
    · obtain ⟨xs, -, rfl⟩ := map_eq_ok.1 h; rfl
  case items =>
    rcases (a : Option (OneOrMany Schema)) with _ | s | l
    · cases h; rfl
    · obtain ⟨xs, -, rfl⟩ := map_eq_ok.1 h; rfl
    · obtain ⟨xs, -, rfl⟩ := map_eq_ok.1 h; rfl
  case additionalItems | contains | additionalProperties | propertyNames =>
    rcases (a : Option Schema) with _ | s
    · cases h; rfl
    · obtain ⟨xs, -, rfl⟩ := map_eq_ok.1 h; rfl
  case maxItems | minItems | maxProperties | minProperties =>
    rcases (a : Option Int) with _ | c
    · cases h; rfl
    · simp only [writeField, encodeCount] at h
      split at h <;> cases h
      rfl
  case required =>
    cases h
    simp only [Keyword.over, NameSet.encode]
    split <;> rfl
  case properties | patternProperties =>
    obtain ⟨ms, hms, rfl⟩ := map_eq_ok.1 h
    cases encodeMembers_eq_ok.1 hms <;> rfl
  case description =>
    cases h
    cases (a : Option String) <;> rfl
  case format =>
    cases h
    cases (a : Option String) <;> rfl
  case default =>
    rcases (a : Option Json) with _ | v <;> cases h <;> rfl
  case type =>
    cases h
    cases (a : Option (OneOrMany PrimitiveType)) <;> rfl
  case enum =>
    cases h
    cases (a : Option (List Json)) <;> rfl
  case uniqueItems =>
    cases h
    cases (a : Option Bool) <;> rfl

namespace Node

/-- The entry of an optional laid over its parent. -/
def overlay (n e : ObjectSchema) : ObjectSchema :=
  { ofFields (fun k => k.over (e.field k) (n.field k))
      (Members.set (Members.setAll n.extensions e.extensions) nullableKeyword (.bool true))
      (Members.setAll n.other e.other) with
    description := e.description
    types := e.types
    enum := e.enum }

theorem field_overlay {n e : ObjectSchema} {k : Keyword} (hk : k.name ∉ replacedKeywords) :
    k.over (e.field k) (n.field k) = (overlay n e).field k := by
  cases k <;> first | rfl | exact absurd (by decide) hk

/-- Two schema objects write the keywords that both state alike, apart from those that one takes from the other. -/
def Agree (n e : ObjectSchema) : Prop :=
  ∀ k : Keyword, k.name ∉ replacedKeywords → ∀ x y, k.writeField (n.field k) = .ok (some x) →
    k.writeField (e.field k) = .ok (some y) → x.Alike y

/-! ## Merging -/

theorem readField_of_writeField {k : Keyword} {n : ObjectSchema} (hn : (Schema.object n).Regular) {v : Option Json}
    (h : k.writeField (n.field k) = .ok v) : k.readField v = .ok (n.field k) := by
  obtain ⟨w, hw, hr, -⟩ := exists_writeField (hn.here.fits k)
    (fun c hc => exists_encode (hn.child c (mem_children.2 ⟨k, hc⟩)))
  cases h.symm.trans hw
  exact hr

theorem mergeKeyword_eq_ok {path : Pointer} {ms r : Members Json} {m : String × Json}
    (h : (mergeKeyword path ms m).outcome = .ok r) :
    r = Members.set ms m.1 m.2 ∧ ∀ existing, Members.get? ms m.1 = some existing → existing.Alike m.2 := by
  unfold mergeKeyword at h
  split at h
  · next existing hg =>
    split at h
    · next ha =>
      cases h
      exact ⟨rfl, fun x hx => by cases hg.symm.trans hx; exact ha⟩
    · cases h
  · next hg =>
    cases h
    exact ⟨rfl, fun x hx => by cases hg.symm.trans hx⟩

theorem foldlM_mergeKeyword_eq_ok {path : Pointer} {ms l r : Members Json} (hd : Members.Distinct l)
    (h : (l.foldlM (mergeKeyword path) ms).outcome = .ok r) :
    r = Members.setAll ms l ∧ ∀ m ∈ l, ∀ existing, Members.get? ms m.1 = some existing → existing.Alike m.2 := by
  induction l generalizing ms with
  | nil => cases h; exact ⟨rfl, nofun⟩
  | cons m l ih =>
    rw [List.foldlM_cons, Traced.bind_eq_ok] at h
    obtain ⟨_, hm, h⟩ := h
    obtain ⟨rfl, ha⟩ := mergeKeyword_eq_ok hm
    obtain ⟨hnot, hl⟩ := List.nodup_cons.1 hd
    obtain ⟨rfl, hal⟩ := ih hl h
    refine ⟨rfl, List.forall_mem_cons.2 ⟨ha, fun p hp x hx => hal p hp x ?_⟩⟩
    have hne : m.1 ≠ p.1 := fun e => hnot (e ▸ List.mem_map_of_mem hp)
    rwa [Members.get?_set, if_neg hne]

/-- The keywords of an entry that the parent has to agree with. -/
theorem get?_keywords {e : ObjectSchema} (he : e.Regular) {ms : Members Json} (hms : e.encode = .ok ms)
    (k : Keyword) :
    ∃ v, k.writeField (e.field k) = .ok v ∧
      Members.get? (Members.eraseAll ms replacedKeywords) k.name = if k.name ∈ replacedKeywords then none else v := by
  obtain ⟨vals, hw, rfl, -⟩ := encode_eq_ok.1 hms
  exact ⟨vals k, hw k, by rw [Members.get?_eraseAll, get?_written_of_other he.isModeled]⟩

theorem filter_keywords {e : ObjectSchema} (he : e.Regular) {ms : Members Json} (hms : e.encode = .ok ms) :
    (Members.eraseAll ms replacedKeywords).filter (fun m => !isModeled m.1 && isVendor m.1) = e.extensions ∧
      (Members.eraseAll ms replacedKeywords).filter (fun m => isOther m.1) = e.other := by
  have hr : ∀ name ∈ replacedKeywords, isModeled name = true := by decide
  have hv : (Members.eraseAll ms replacedKeywords).filter (fun m => !isModeled m.1 && isVendor m.1) =
      ms.filter (fun m => !isModeled m.1 && isVendor m.1) := by
    rw [Members.eraseAll, List.filter_filter]
    exact List.filter_congr fun m _ => by by_cases hm : m.1 ∈ replacedKeywords <;> simp [hm, hr]
  have ho : (Members.eraseAll ms replacedKeywords).filter (fun m => isOther m.1) =
      ms.filter (fun m => isOther m.1) := by
    rw [Members.eraseAll, List.filter_filter]
    exact List.filter_congr fun m _ => by by_cases hm : m.1 ∈ replacedKeywords <;> simp [hm, hr, isOther]
  exact ⟨hv.trans (filter_encode he.separated hms).1, ho.trans (filter_encode he.separated hms).2⟩

/-- A regular schema object is written with distinct names. -/
theorem hasDistinctNames_written_node {e : ObjectSchema} (he : (Schema.object e).Regular) {ms : Members Json}
    (hms : e.encode = .ok ms) : (Json.obj ms).hasDistinctNames = true := by
  obtain ⟨x, hx, -, hnames⟩ := exists_encode he
  obtain ⟨_, hms', rfl⟩ := map_eq_ok.1 hx
  cases hms.symm.trans hms'
  exact hnames

/-- Reading the members of a parent with the keywords of an entry among them: each field of the entry, or the parent's
where it is missing. -/
theorem readField_merged {n e : ObjectSchema} (hn : (Schema.object n).Regular) (he : (Schema.object e).Regular)
    {own ms : Members Json} (hown : n.encode = .ok own) (hms : e.encode = .ok ms) (k : Keyword) :
    k.readField (Members.get? (Members.setAll own (Members.eraseAll ms replacedKeywords)) k.name) =
      .ok (if k.name ∈ replacedKeywords then n.field k else k.over (e.field k) (n.field k)) := by
  obtain ⟨vals, hw, rfl, -⟩ := encode_eq_ok.1 hown
  obtain ⟨v, hv, hkey⟩ := get?_keywords he.here hms k
  rw [Members.get?_setAll ((distinct_of_encode hms).eraseAll _), hkey, get?_written_of_other hn.here.isModeled]
  split
  · exact readField_of_writeField hn (hw k)
  · rw [Keyword.over_eq hv]
    cases v with
    | none => exact readField_of_writeField hn (hw k)
    | some y => exact readField_of_writeField he hv

/-- What merging the keywords of an entry gives. -/
theorem mergeKeywords_eq_ok {path : Pointer} {n e m : ObjectSchema} {ms : Members Json}
    (hn : (Schema.object n).Regular) (he : (Schema.object e).Regular) (hms : e.encode = .ok ms)
    (h : (mergeKeywords path n (Members.eraseAll ms replacedKeywords)).outcome = .ok m) :
    ((∀ k : Keyword, k.name ∉ replacedKeywords → m.field k = k.over (e.field k) (n.field k)) ∧
      m.extensions = Members.setAll n.extensions e.extensions ∧ m.other = Members.setAll n.other e.other) ∧
      Agree n e := by
  unfold mergeKeywords at h
  simp only [Traced.bind_eq_ok, Run.encoded_eq_ok, Run.decoded_eq_ok] at h
  obtain ⟨own, hown, merged, hm, h⟩ := h
  obtain ⟨rfl, ha⟩ := foldlM_mergeKeyword_eq_ok ((distinct_of_encode hms).eraseAll _) hm
  obtain ⟨vals, hw, hmembers, -⟩ := encode_eq_ok.1 hown
  obtain ⟨hfields, hext, hother⟩ := decode_eq_ok.1 h
  refine ⟨⟨fun k hk => ?_, ?_, ?_⟩, fun k hk x y hx hy => ?_⟩
  · have hf := (hfields k).symm.trans (readField_merged hn he hown hms k)
    rw [if_neg hk] at hf
    exact Except.ok.inj hf
  · rw [hext, Members.filter_setAll (fun name => !isModeled name && isVendor name), (filter_keywords he.here hms).1,
      hmembers, (filter_written hn.here.separated vals).1]
  · rw [hother, Members.filter_setAll isOther, (filter_keywords he.here hms).2, hmembers,
      (filter_written hn.here.separated vals).2]
  · obtain ⟨v, hv, hkey⟩ := get?_keywords he.here hms k
    cases hy.symm.trans hv
    rw [if_neg hk] at hkey
    apply ha _ (Members.mem_of_get? hkey) x
    rw [hmembers, get?_written_of_other hn.here.isModeled]
    exact Except.ok.inj ((hw k).symm.trans hx)

/-- An entry without keywords to merge leaves the parent's. -/
theorem merge_nothing {n e : ObjectSchema} {ms : Members Json} (he : e.Regular) (hms : e.encode = .ok ms)
    (h : Members.eraseAll ms replacedKeywords = []) :
    ((∀ k : Keyword, k.name ∉ replacedKeywords → n.field k = k.over (e.field k) (n.field k)) ∧
      n.extensions = Members.setAll n.extensions e.extensions ∧ n.other = Members.setAll n.other e.other) ∧
      Agree n e := by
  have hnone (k : Keyword) (hk : k.name ∉ replacedKeywords) : k.writeField (e.field k) = .ok none := by
    obtain ⟨v, hv, hkey⟩ := get?_keywords he hms k
    rw [h, if_neg hk] at hkey
    exact hv.trans (congrArg _ hkey.symm)
  obtain ⟨hext, hother⟩ := filter_keywords he hms
  rw [h] at hext hother
  refine ⟨⟨fun k hk => ?_, by rw [← hext]; rfl, by rw [← hother]; rfl⟩, fun k hk x y hx hy => ?_⟩
  · rw [Keyword.over_eq (hnone k hk)]
    rfl
  · cases (hnone k hk).symm.trans hy

/-! ## The entry of an optional -/

theorem regular_without_anyOf {n : ObjectSchema} (hn : (Schema.object n).Regular) :
    (Schema.object { n with anyOf := none }).Regular := by
  refine .object (hn.here.of_fields rfl rfl fun k => ?_) fun c hc => hn.child c ?_
  · cases k <;> first | exact .inl rfl | exact .inr trivial
  · obtain ⟨k, hk⟩ := mem_children.1 hc
    refine mem_children.2 ⟨k, ?_⟩
    cases k <;> first | exact hk | cases hk

/-- An object with the fields of an entry, or the parent's where they are missing, becomes the overlay. -/
theorem overlay_of_fields {n e m : ObjectSchema}
    (hf : ∀ k : Keyword, k.name ∉ replacedKeywords → m.field k = k.over (e.field k) (n.field k))
    (he : m.extensions = Members.setAll n.extensions e.extensions) (ho : m.other = Members.setAll n.other e.other) :
    { m with
      description := e.description
      types := e.types
      enum := e.enum
      extensions := Members.set m.extensions nullableKeyword (.bool true) } = overlay n e := by
  refine ext_field (fun k => ?_) ?_ ho
  · by_cases hk : k.name ∈ replacedKeywords
    · have hk : k = .description ∨ k = .type ∨ k = .enum := by revert hk; cases k <;> decide
      rcases hk with rfl | rfl | rfl <;> rfl
    · rw [← field_overlay hk, ← hf k hk]
      cases k <;> first | rfl | exact absurd (by decide) hk
  · exact congrArg (Members.set · nullableKeyword (.bool true)) he

theorem hoistEntry_eq_ok {path : Pointer} {n : ObjectSchema} (hn : (Schema.object n).Regular) {index : Nat}
    {entry : Schema} (hentry : entry.Regular) {r : Optional} (h : (hoistEntry path n index entry).outcome = .ok r) :
    ∃ e, entry = .object e ∧ r.node = overlay { n with anyOf := none } e ∧ Agree { n with anyOf := none } e := by
  cases entry with
  | bool b => cases h
  | object e =>
    obtain ⟨ms, hms, h⟩ := Traced.bind_eq_ok.1 h
    have hms : e.encode = .ok ms := Run.encoded_eq_ok.1 hms
    refine ⟨e, rfl, ?_⟩
    dsimp only at h
    split at h
    · next hempty =>
      simp only [pure_bind, Traced.bind_eq_ok, Traced.pure_eq_ok] at h
      obtain ⟨-, -, rfl⟩ := h
      obtain ⟨⟨hf, he, ho⟩, ha⟩ := merge_nothing (n := { n with anyOf := none }) hentry.here hms
        (List.isEmpty_iff.1 hempty)
      exact ⟨overlay_of_fields hf he ho, ha⟩
    · simp only [Traced.bind_eq_ok, Traced.pure_eq_ok] at h
      obtain ⟨merged, hm, -, -, rfl⟩ := h
      obtain ⟨⟨hf, he, ho⟩, ha⟩ := mergeKeywords_eq_ok (regular_without_anyOf hn) hentry hms hm
      exact ⟨overlay_of_fields hf he ho, ha⟩

theorem exists_isNullEntry {s : Schema} (hs : s.Regular) : ∃ b, s.isNullEntry = .ok b := by
  obtain ⟨x, hx, -⟩ := exists_encode hs
  exact ⟨_, bind_eq_ok.2 ⟨x, hx, rfl⟩⟩

/-- One of two entries of the `anyOf` only admits `null`, and the other one is a schema object that does not. -/
structure IsOptional (n e : ObjectSchema) : Prop where
  entries : ∃ a b, n.anyOf = some [a, b] ∧
    (a.isNullEntry = .ok true ∧ b = .object e ∨ a = .object e ∧ b.isNullEntry = .ok true)
  entry : (Schema.object e).isNullEntry = .ok false

theorem IsOptional.mem {n e : ObjectSchema} (h : IsOptional n e) : .object e ∈ n.anyOf.getD [] := by
  obtain ⟨a, b, hab, ⟨-, rfl⟩ | ⟨rfl, -⟩⟩ := h.entries <;> simp [hab]

theorem IsOptional.eq {n e e' : ObjectSchema} (h : IsOptional n e) (h' : IsOptional n e') : e = e' := by
  obtain ⟨a, b, hab, hentry⟩ := h.entries
  obtain ⟨a', b', hab', hentry'⟩ := h'.entries
  cases hab.symm.trans hab'
  have hno := h.entry
  have hno' := h'.entry
  rcases hentry with ⟨ha, rfl⟩ | ⟨rfl, hb⟩
  · rcases hentry' with ⟨-, he⟩ | ⟨rfl, -⟩
    · exact Schema.object.inj he
    · cases ha.symm.trans hno'
  · rcases hentry' with ⟨ha', -⟩ | ⟨he, -⟩
    · cases ha'.symm.trans hno
    · exact Schema.object.inj he

theorem not_isOptional {n e : ObjectSchema}
    (hpair : ∀ a b, n.anyOf = some [a, b] → a.isNullEntry = .ok false ∧ b.isNullEntry = .ok false) :
    ¬IsOptional n e := by
  intro he
  obtain ⟨a, b, hab, hentry⟩ := he.entries
  obtain ⟨ha, hb⟩ := hpair a b hab
  rcases hentry with ⟨htrue, -⟩ | ⟨-, htrue⟩
  · cases ha.symm.trans htrue
  · cases hb.symm.trans htrue

/-- A pair is an optional if one of its entries only admits `null`. -/
theorem hoistOptional_pair {path : Pointer} {n : ObjectSchema} {a b : Schema} {p q : Bool}
    (hab : n.anyOf = some [a, b]) (ha : a.isNullEntry = .ok p) (hb : b.isNullEntry = .ok q) :
    hoistOptional path n =
      match p, q with
      | true, true => Run.violate .contradictoryNullable (path ++ [Union.anyOf.name])
      | true, false => some <$> hoistEntry path n 1 b
      | false, true => some <$> hoistEntry path n 0 a
      | false, false => pure none := by
  unfold hoistOptional
  rw [hab]
  simp only [ha, hb]
  cases p <;> cases q <;> rfl

/-- Either no entry of a pair only admits `null`, or the other one is laid over the parent. -/
theorem hoistOptional_eq_ok {path : Pointer} {n : ObjectSchema} (hn : (Schema.object n).Regular) {r : Option Optional}
    (h : (hoistOptional path n).outcome = .ok r) :
    (r = none ∧ ∀ a b, n.anyOf = some [a, b] → a.isNullEntry = .ok false ∧ b.isNullEntry = .ok false) ∨
      ∃ e carried, IsOptional n e ∧ Agree { n with anyOf := none } e ∧
        r = some ⟨overlay { n with anyOf := none } e, carried⟩ := by
  unfold hoistOptional at h
  split at h
  · next a b hab =>
    have hentries : ∀ s ∈ [a, b], s.Regular := fun s hs =>
      hn.child s (mem_children.2 ⟨.anyOf, by simpa [Keyword.children, field, hab] using hs⟩)
    simp only [Traced.bind_eq_ok, Run.encoded_eq_ok] at h
    obtain ⟨x, hx, y, hy, h⟩ := h
    cases x <;> cases y
    case true.true => cases h
    case true.false =>
      obtain ⟨r, hr, rfl⟩ := Traced.map_eq_ok.1 h
      obtain ⟨e, rfl, hnode, ha⟩ := hoistEntry_eq_ok hn (hentries b (by simp)) hr
      exact .inr ⟨e, r.carried, ⟨⟨a, _, hab, .inl ⟨hx, rfl⟩⟩, hy⟩, ha, by rw [← hnode]⟩
    case false.true =>
      obtain ⟨r, hr, rfl⟩ := Traced.map_eq_ok.1 h
      obtain ⟨e, rfl, hnode, ha⟩ := hoistEntry_eq_ok hn (hentries a (by simp)) hr
      exact .inr ⟨e, r.carried, ⟨⟨_, b, hab, .inr ⟨rfl, hy⟩⟩, hx⟩, ha, by rw [← hnode]⟩
    case false.false =>
      cases h
      exact .inl ⟨rfl, fun c d hcd => by cases hab.symm.trans hcd; exact ⟨hx, hy⟩⟩
  · next hpair =>
    cases h
    exact .inl ⟨rfl, fun a b hab => absurd hab (hpair a b)⟩

end Node

end KubeSchema
