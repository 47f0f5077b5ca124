import KubeSchema.Proofs.Alike.Members
import KubeSchema.Proofs.Settle.Drained
import KubeSchema.Proofs.Union.Merging

/-!
# What settling leaves alone

Settling states the type, the enum and the unions of a schema object anew and adds properties. Whatever else it does has
a reason: an optional takes over the annotations of its entry, properties beside additional ones of any kind need the
vendor keyword for unknown fields, and `uniqueItems` is taken out if asked for. All other keywords stay, and none comes
from nowhere (`Options.Frame`).

* `Widens`: what hoisting does to the fields, without an optional.
* `UnionFrame`: what settling the unions leaves alone.
* `settle_frame`: what settling leaves alone.
-/

namespace KubeSchema

/-! ## Members -/

namespace Members

variable {ms ms' ms'' : Members Json} {name : String}

/-- What stands under a name stays, up to the order of members in it. -/
def Keeps (ms ms' : Members Json) (name : String) : Prop :=
  ∀ x, get? ms name = some x → ∃ y, get? ms' name = some y ∧ x.Alike y

theorem Keeps.of_eq (h : get? ms' name = get? ms name) : Keeps ms ms' name := fun x hx => ⟨x, h.trans hx, rfl⟩

theorem Keeps.trans (h : Keeps ms ms' name) (h' : Keeps ms' ms'' name) : Keeps ms ms'' name := by
  intro x hx
  obtain ⟨y, hy, hxy⟩ := h x hx
  obtain ⟨z, hz, hyz⟩ := h' y hy
  exact ⟨z, hz, hxy.trans hyz⟩

/-- The properties stay, each with a schema like the one before; others may come. -/
def KeepsProperties (ms ms' : Members Json) : Prop :=
  ∀ x, get? ms Keyword.properties.name = some x →
    ∃ ps ps', x = .obj ps ∧ get? ms' Keyword.properties.name = some (.obj ps') ∧ ∀ name, Keeps ps ps' name

theorem KeepsProperties.trans (h : KeepsProperties ms ms') (h' : KeepsProperties ms' ms'') :
    KeepsProperties ms ms'' := by
  intro x hx
  obtain ⟨ps, qs, rfl, hqs, hkeeps⟩ := h x hx
  obtain ⟨_, rs, e, hrs, hkeeps'⟩ := h' _ hqs
  cases e
  exact ⟨ps, rs, rfl, hrs, fun name => (hkeeps name).trans (hkeeps' name)⟩

theorem get?_eq_of_perm (h : ms.Perm ms') (hd : Distinct ms) : get? ms name = get? ms' name := by
  have hd' : Distinct ms' := (h.map Prod.fst).nodup_iff.1 hd
  refine Option.ext fun x => ?_
  exact ⟨fun hx => get?_of_mem hd' (h.mem_iff.1 (mem_of_get? hx)),
    fun hx => get?_of_mem hd (h.mem_iff.2 (mem_of_get? hx))⟩

theorem mem_names_of_get? {x : Json} (h : get? ms name = some x) : name ∈ names ms :=
  List.mem_map_of_mem (mem_of_get? h)

end Members

/-! ## Written members -/

namespace Node

variable {n u e : ObjectSchema} {ns us es : Members Json}

theorem writeField_of_encode (hn : n.Separated) (hns : n.encode = .ok ns) (k : Keyword) :
    k.writeField (n.field k) = .ok (Members.get? ns k.name) := by
  obtain ⟨vals, hw, rfl, -⟩ := encode_eq_ok.1 hns
  rw [get?_written_of_other hn.isModeled]
  exact hw k

theorem get?_encode_of_vendor (hn : n.Separated) (hns : n.encode = .ok ns) {name : String} (h : isVendor name = true) :
    Members.get? ns name = Members.get? n.extensions name := by
  rw [← (filter_encode hn hns).1, Members.get?_filter (fun name => !isModeled name && isVendor name),
    if_pos (by simp [isModeled_of_isVendor h, h])]

theorem get?_encode_of_other (hn : n.Separated) (hns : n.encode = .ok ns) {name : String} (h : isOther name = true) :
    Members.get? ns name = Members.get? n.other name := by
  rw [← (filter_encode hn hns).2, Members.get?_filter isOther, if_pos h]

theorem exists_properties (hn : n.Separated) (hns : n.encode = .ok ns) {x : Json}
    (hx : Members.get? ns Keyword.properties.name = some x) : ∃ ps, x = .obj ps := by
  obtain ⟨ps, -, e⟩ := map_eq_ok.1 (writeField_of_encode hn hns .properties)
  rw [hx, encodeMap] at e
  split at e <;> cases e
  exact ⟨ps, rfl⟩

theorem keepsProperties_of_eq (hn : n.Separated) (hns : n.encode = .ok ns)
    (h : Members.get? us Keyword.properties.name = Members.get? ns Keyword.properties.name) :
    ns.KeepsProperties us := by
  intro x hx
  obtain ⟨ps, rfl⟩ := exists_properties hn hns hx
  exact ⟨ps, ps, rfl, h.trans hx, fun _ => .of_eq rfl⟩

/-- A field that is the same is written the same. -/
theorem get?_encode_of_field (hn : n.Separated) (hu : u.Separated) (hns : n.encode = .ok ns) (hus : u.encode = .ok us)
    {k : Keyword} (h : u.field k = n.field k) : Members.get? us k.name = Members.get? ns k.name := by
  have hfield := writeField_of_encode hu hus k
  rw [h, writeField_of_encode hn hns k] at hfield
  exact (Except.ok.inj hfield).symm

/-- A union is written if it is there, with variants or without. -/
theorem mem_names_union (hn : n.Separated) (hns : n.encode = .ok ns) (v : Union) :
    v.name ∈ ns.names ↔ (n.variants v).isSome = true := by
  have hfield : encodeSchemas (n.variants v) = .ok (Members.get? ns v.name) := by
    cases v
    · exact writeField_of_encode hn hns .oneOf
    · exact writeField_of_encode hn hns .anyOf
  rw [← Members.has_iff_mem_names, Members.has]
  cases hv : n.variants v with
  | none =>
    rw [hv] at hfield
    rw [← Except.ok.inj hfield]
    exact Iff.rfl
  | some l =>
    rw [hv] at hfield
    obtain ⟨xs, -, e⟩ := map_eq_ok.1 hfield
    rw [← e]
    exact Iff.rfl

/-! ## Hoisting -/

/-- The keywords that hoisting states anew. -/
def hoistedKeywords : List Keyword := [.type, .enum, .anyOf, .oneOf, .properties]

/-- A schema object states its type, its enum and its unions in another way, and has more properties. -/
structure Widens (n u : ObjectSchema) : Prop where
  field : ∀ k ∉ hoistedKeywords, u.field k = n.field k
  extensions : u.extensions = n.extensions
  other : u.other = n.other
  properties : ∀ name s, Members.get? n.properties name = some s → Members.get? u.properties name = some s
  unions : ∀ v, (u.variants v).isSome = true → (n.variants v).isSome = true

theorem Widens.trans {w : ObjectSchema} (h : n.Widens u) (h' : u.Widens w) : n.Widens w where
  field k hk := (h'.field k hk).trans (h.field k hk)
  extensions := h'.extensions.trans h.extensions
  other := h'.other.trans h.other
  properties name s hs := h'.properties name s (h.properties name s hs)
  unions v hv := h.unions v (h'.unions v hv)

theorem widens_self (n : ObjectSchema) : n.Widens n := ⟨fun _ _ => rfl, rfl, rfl, fun _ _ h => h, fun _ h => h⟩

theorem widens_cleanEnum (o : Options) (n : ObjectSchema) : n.Widens (o.cleanEnum n) := by
  obtain ⟨l, hl⟩ := Options.cleanEnum_eq o n
  rw [hl]
  refine ⟨fun k hk => ?_, rfl, rfl, fun _ _ h => h, fun v h => by cases v <;> exact h⟩
  cases k <;> first | rfl | exact absurd (by decide) hk

theorem widens_enumerated (n : ObjectSchema) (t : OneOrMany PrimitiveType) (ws : List ObjectSchema) :
    n.Widens (n.enumerated t ws) := by
  refine ⟨fun k hk => ?_, rfl, rfl, fun _ _ h => h, fun v h => ?_⟩
  · cases k <;> first | rfl | exact absurd (by decide) hk
  · cases v
    · cases h
    · exact h

theorem widens_takenEnums (n : ObjectSchema) : n.Widens n.takenEnums := by
  refine ⟨fun k hk => ?_, rfl, rfl, fun _ _ h => h, fun v h => ?_⟩
  · cases k <;> first | rfl | exact absurd (by decide) hk
  · cases v
    · exact Option.isSome_map.symm.trans h
    · exact h

theorem widens_dropEmptyOneOf (n : ObjectSchema) : n.Widens n.dropEmptyOneOf := by
  unfold dropEmptyOneOf
  split
  · refine ⟨fun k hk => ?_, rfl, rfl, fun _ _ h => h, fun v h => ?_⟩
    · cases k <;> first | rfl | exact absurd (by decide) hk
    · cases v
      · cases h
      · exact h
  · exact widens_self n

theorem widens_hoisted (v : Union) (n : ObjectSchema) (ws : List ObjectSchema) : n.Widens (n.hoisted v ws) := by
  cases v
  all_goals
    refine ⟨fun k hk => ?_, rfl, rfl, fun _ _ h => get?_foldl_addProperty_of_some h _, fun u h => ?_⟩
    · cases k <;> first | rfl | exact absurd (by decide) hk
    · cases u <;> first | exact h | exact Option.isSome_map.symm.trans h

/-! ## Hoisting, as it is written -/

section

variable (hn : n.Separated) (hu : u.Separated) (hns : n.encode = .ok ns) (hus : u.encode = .ok us)
include hn hu hns hus

theorem Widens.get?_eq (h : n.Widens u) {name : String} (hname : name ∉ hoistedKeywords.map Keyword.name) :
    Members.get? us name = Members.get? ns name := by
  cases hmodeled : isModeled name with
  | true =>
    obtain ⟨k, hk⟩ := Option.isSome_iff_exists.1 hmodeled
    obtain rfl := Keyword.name_of_ofName? hk
    exact get?_encode_of_field hn hu hns hus (h.field k fun hmem => hname (List.mem_map_of_mem hmem))
  | false =>
    obtain ⟨hext, hother⟩ := filter_encode hn hns
    obtain ⟨hext', hother'⟩ := filter_encode hu hus
    exact get?_eq_of_not_modeled (hext'.trans (h.extensions.trans hext.symm))
      (hother'.trans (h.other.trans hother.symm)) hmodeled

theorem Widens.keepsProperties (h : n.Widens u) : ns.KeepsProperties us := by
  have written {n : ObjectSchema} {ns : Members Json} (hn : n.Separated) (hns : n.encode = .ok ns) :
      ∃ ps, Members.get? ns Keyword.properties.name = encodeMap ps ∧ ∀ name,
        Option.Rel (fun s x => Schema.encode s = .ok x) (Members.get? n.properties name) (Members.get? ps name) := by
    obtain ⟨ps, hps, e⟩ := map_eq_ok.1 (writeField_of_encode hn hns .properties)
    exact ⟨ps, e.symm, Members.get?_of_forall₂ (R := fun _ => _) (encodeMembers_eq_ok.1 hps)⟩
  obtain ⟨ps, hps, hrel⟩ := written hn hns
  obtain ⟨ps', hps', hrel'⟩ := written hu hus
  have hkeeps (name : String) : ps.Keeps ps' name := by
    intro y hy
    obtain ⟨s, hs, hsy⟩ := exists_of_rel_some (hy ▸ rel_flip (hrel name))
    obtain ⟨y', hy', hsy'⟩ := exists_of_rel_some (h.properties name s hs ▸ hrel' name)
    exact ⟨y', hy', by rw [Except.ok.inj (hsy.symm.trans hsy')]; rfl⟩
  intro x hx
  rw [hps, encodeMap] at hx
  cases ps with
  | nil => cases hx
  | cons m ms =>
    cases hx
    obtain ⟨y', hy', -⟩ := hkeeps m.1 m.2 (if_pos rfl)
    refine ⟨m :: ms, ps', rfl, ?_, hkeeps⟩
    rw [hps', encodeMap]
    cases ps' with
    | nil => cases hy'
    | cons => rfl

theorem Widens.mem_names (h : n.Widens u) {name : String} (hname : name ∈ us.names) :
    name ∈ ns.names ∨ name ∈ [Keyword.type.name, Keyword.enum.name, Keyword.properties.name] := by
  have union (v : Union) (hv : v.name ∈ us.names) : v.name ∈ ns.names :=
    (mem_names_union hn hns v).2 (h.unions v ((mem_names_union hu hus v).1 hv))
  by_cases hhoisted : name ∈ hoistedKeywords.map Keyword.name
  · obtain ⟨k, hk, rfl⟩ := List.mem_map.1 hhoisted
    cases k
    case oneOf => exact .inl (union .oneOf hname)
    case anyOf => exact .inl (union .anyOf hname)
    case type | enum | properties => exact .inr (by decide)
    all_goals exact absurd hk (by decide)
  · rw [← Members.has_iff_mem_names, Members.has, h.get?_eq hn hu hns hus hhoisted] at hname
    exact .inl ((Members.has_iff_mem_names _ _).1 hname)

end

/-! ## Unions -/

/-- What settling the unions of a schema object leaves alone, as it is written. -/
structure UnionFrame (n u : ObjectSchema) (ns us : Members Json) : Prop where
  others : ∀ name, name ∉ hoistedKeywords.map Keyword.name → name ≠ Keyword.description.name →
    name ≠ nullableKeyword → ns.Keeps us name
  properties : ns.KeepsProperties us
  annotations : (ns.Keeps us Keyword.description.name ∧ ns.Keeps us nullableKeyword) ∨ ∃ e, n.IsOptional e
  additional : u.additionalProperties = n.additionalProperties ∨
    ∃ e, n.IsOptional e ∧ u.additionalProperties = e.additionalProperties
  added : ∀ name ∈ us.names, name ∈ ns.names ∨
    name ∈ [Keyword.type.name, Keyword.enum.name, Keyword.properties.name, nullableKeyword] ∨
    ∃ e es, n.IsOptional e ∧ e.encode = .ok es ∧ name ∈ es.names

/-- What is stated in another way afterwards is left alone no less. -/
theorem UnionFrame.widen {w : ObjectSchema} {ws : Members Json} (h : UnionFrame n u ns us) (hw : u.Widens w)
    (hu : u.Separated) (hws : w.Separated) (hus : u.encode = .ok us) (hwrite : w.encode = .ok ws) :
    UnionFrame n w ns ws where
  others name hname hdescription hnullable :=
    (h.others name hname hdescription hnullable).trans (.of_eq (hw.get?_eq hu hws hus hwrite hname))
  properties := h.properties.trans (hw.keepsProperties hu hws hus hwrite)
  annotations := h.annotations.imp_left fun hkeeps =>
    ⟨hkeeps.1.trans (.of_eq (hw.get?_eq hu hws hus hwrite (by decide))),
      hkeeps.2.trans (.of_eq (hw.get?_eq hu hws hus hwrite (by decide)))⟩
  additional := by
    have hfield : w.additionalProperties = u.additionalProperties := hw.field .additionalProperties (by decide)
    rw [hfield]
    exact h.additional
  added name hname := by
    rcases hw.mem_names hu hws hus hwrite hname with hname | hname
    · exact h.added name hname
    · refine .inr (.inl ?_)
      simp only [List.mem_cons, List.not_mem_nil, or_false] at hname ⊢
      tauto

theorem unionFrame_of_widens (hn : n.Separated) (hu : u.Separated) (hns : n.encode = .ok ns) (hus : u.encode = .ok us)
    (h : n.Widens u) : UnionFrame n u ns us :=
  have hself : UnionFrame n n ns ns :=
    ⟨fun _ _ _ _ => .of_eq rfl, keepsProperties_of_eq hn hns rfl, .inl ⟨.of_eq rfl, .of_eq rfl⟩, .inl rfl,
      fun _ h => .inl h⟩
  hself.widen h hn hu hns hus

/-! ## The optional -/

section

variable {vs : Members Json} (hn : (Schema.object n).Regular) (he : n.IsOptional e) (hns : n.encode = .ok ns)
  (hes : e.encode = .ok es) (hvs : (overlay { n with anyOf := none } e).encode = .ok vs)
include hn he hns hes hvs

theorem get?_overlay (name : String) :
    Members.get? vs name =
      if nullableKeyword = name then some (.bool true)
      else (Members.get? es name).or
        (if name ∈ replacedKeywords ∨ name = Union.anyOf.name then none else Members.get? ns name) := by
  have hentry : (Schema.object e).Regular := hn.child _ (mem_children.2 ⟨.anyOf, he.mem⟩)
  have hown := regular_without_anyOf hn
  have hperm := perm_joined hown hentry (encode_without_anyOf hn.here hns) hes (regular_overlay hown hentry) hvs
  rw [Members.get?_eq_of_perm hperm (distinct_of_encode hvs), joined, Members.get?_set,
    Members.get?_setAll (distinct_of_encode hes), Members.get?_eraseAll, Members.get?_eraseAll]
  by_cases hreplaced : name ∈ replacedKeywords <;> simp [hreplaced]

theorem keeps_overlay (hno : ∀ keyword x y, ¬Contradict (Members.eraseAll ns [Union.anyOf.name]) es keyword x y)
    {name : String} (hreplaced : name ∉ replacedKeywords) (hany : name ≠ Union.anyOf.name)
    (hnullable : name ≠ nullableKeyword) : ns.Keeps vs name := by
  intro x hx
  rw [get?_overlay hn he hns hes hvs, if_neg hnullable.symm, if_neg (by simp [hreplaced, hany]), hx]
  cases hy : Members.get? es name with
  | none => exact ⟨x, rfl, rfl⟩
  | some y =>
    refine ⟨y, rfl, Classical.byContradiction fun hdiffer => hno name x y ⟨hreplaced, ?_, hy, hdiffer⟩⟩
    rw [Members.get?_eraseAll, if_neg (by simpa using hany), hx]

theorem keepsProperties_overlay
    (hno : ∀ keyword x y, ¬Contradict (Members.eraseAll ns [Union.anyOf.name]) es keyword x y) :
    ns.KeepsProperties vs := by
  intro x hx
  obtain ⟨y, hy, hxy⟩ := keeps_overlay hn he hns hes hvs hno (by decide) (by decide) (by decide) x hx
  have hentry : (Schema.object e).Regular := hn.child _ (mem_children.2 ⟨.anyOf, he.mem⟩)
  have hover := regular_overlay (regular_without_anyOf hn) hentry
  obtain ⟨ps, rfl⟩ := exists_properties hn.here.separated hns hx
  obtain ⟨ps', rfl⟩ := exists_properties hover.here.separated hvs hy
  have distinct {n : ObjectSchema} {ns ps : Members Json} (hn : (Schema.object n).Regular) (hns : n.encode = .ok ns)
      (hps : Members.get? ns Keyword.properties.name = some (.obj ps)) : ps.Distinct := by
    obtain ⟨-, hvalues⟩ := Json.hasDistinctNames_obj.1 (hasDistinctNames_written_node hn hns)
    exact (Json.hasDistinctNames_obj.1 (hvalues _ (Members.mem_of_get? hps))).1
  have hlike := (Json.alike_obj (distinct hn hns hx) (distinct hover hvs hy)).1 hxy
  exact ⟨ps, ps', rfl, hy, fun name z hz => hlike.exists_right hz⟩

/-- The entry of an optional takes over the annotations, and leaves alone everything else. -/
theorem unionFrame_overlay
    (hno : ∀ keyword x y, ¬Contradict (Members.eraseAll ns [Union.anyOf.name]) es keyword x y) :
    UnionFrame n (overlay { n with anyOf := none } e) ns vs where
  others name hname hdescription hnullable := by
    refine keeps_overlay hn he hns hes hvs hno (fun hmem => ?_) (fun h => ?_) hnullable
    · simp only [replacedKeywords, List.mem_cons, List.not_mem_nil, or_false] at hmem
      rcases hmem with h | h | h
      · exact hdescription h
      · exact hname (h ▸ by decide)
      · exact hname (h ▸ by decide)
    · exact hname (h ▸ by decide)
  properties := keepsProperties_overlay hn he hns hes hvs hno
  annotations := .inr ⟨e, he⟩
  additional := by
    have hover : (overlay { n with anyOf := none } e).additionalProperties =
        e.additionalProperties.or n.additionalProperties := rfl
    rw [hover]
    cases ha : e.additionalProperties with
    | none => exact .inl rfl
    | some s => exact .inr ⟨e, he, ha.symm⟩
  added name hname := by
    rw [← Members.has_iff_mem_names, Members.has, get?_overlay hn he hns hes hvs] at hname
    split at hname
    · next h => exact .inr (.inl (h ▸ by decide))
    · cases hes' : Members.get? es name with
      | some y => exact .inr (.inr ⟨e, es, he, hes, Members.mem_names_of_get? hes'⟩)
      | none =>
        rw [hes', Option.none_or] at hname
        split at hname
        · cases hname
        · exact .inl ((Members.has_iff_mem_names _ _).1 hname)

end

end Node

namespace Options

open Node

variable {o : Options} {path : Pointer} {n m u e : ObjectSchema} {ns ms us es : Members Json}

/-- The entry of an optional that is settled does not contradict it. -/
theorem not_contradict_of_settle (hn : (Schema.object n).Regular) (h : (o.settle path n).outcome = .ok m)
    (he : n.IsOptional e) (hns : n.encode = .ok ns) (hes : e.encode = .ok es) :
    ∀ keyword x y, ¬Contradict (Members.eraseAll ns [Union.anyOf.name]) es keyword x y := by
  unfold settle at h
  split at h
  · cases h
  · next hc =>
    have hone : n.oneOf.getD [] = [] :=
      (hasConflictingUnions_eq_false_iff.1 (Bool.eq_false_iff.2 hc)).resolve_right (List.ne_nil_of_mem he.mem)
    obtain ⟨u, hu, -⟩ := Traced.bind_eq_ok.1 h
    rw [settleUnions, hoistEnumVariants_of_objects (.inl hone), pure_bind] at hu
    obtain ⟨r, hr, -⟩ := Traced.bind_eq_ok.1 hu
    rcases he.outcome_hoistOptional hn hns hes path with ⟨hno, -⟩ | ⟨_, _, _, -, _, -, herror, -⟩
    · exact hno
    · cases herror.symm.trans hr

theorem unionFrame_of_settle (hn : (Schema.object n).Regular) (h : (o.settle path n).outcome = .ok m)
    (hu : o.SettlesUnions n u) (hns : n.encode = .ok ns) (hus : u.encode = .ok us) : UnionFrame n u ns us := by
  have hregular := regular_settlesUnions hn hu
  have widens := unionFrame_of_widens hn.here.separated hregular.separated hns hus
  cases hu with
  | enumerated => exact widens ((widens_enumerated n _ _).trans (widens_cleanEnum o _))
  | tagged =>
    exact widens ((((widens_cleanEnum o n).trans (widens_hoisted .oneOf _ _)).trans (widens_takenEnums _)).trans
      (widens_dropEmptyOneOf _))
  | untagged =>
    exact widens ((widens_cleanEnum o n).trans ((widens_dropEmptyOneOf _).trans (widens_hoisted .anyOf _ _)))
  | @optional e _ hone he hagree hresult =>
    -- The entry is laid over its parent first, and what comes out of that is stated anew.
    have hentry : (Schema.object e).Regular := hn.child _ (mem_children.2 ⟨.anyOf, he.mem⟩)
    have hover := regular_overlay (regular_without_anyOf hn) hentry
    obtain ⟨es, hes, -⟩ := exists_encode_node hentry
    obtain ⟨vs, hvs, -⟩ := exists_encode_node hover
    have hframe := unionFrame_overlay hn he hns hes hvs (not_contradict_of_settle hn h he hns hes)
    refine hframe.widen ?_ hover.here.separated hregular.separated hvs hus
    rcases hresult with rfl | rfl
    · exact widens_cleanEnum o _
    · exact (widens_cleanEnum o _).trans (widens_dropEmptyOneOf _)

/-! ## Unknown fields and repeated items -/

/-- The vendor keyword for unknown fields takes the place of additional properties of any kind beside properties. -/
theorem finish_cases (o : Options) (u : ObjectSchema) :
    ∃ items, (items = u.uniqueItems ∨ items = none ∧ o.dropUniqueItems = true) ∧
      (o.finish u = { u with uniqueItems := items } ∨
        u.properties ≠ [] ∧ u.additionalProperties = some (.bool true) ∧
          o.finish u = { u with
            additionalProperties := none
            extensions := Members.set u.extensions o.preserveKey (.bool true)
            uniqueItems := items }) := by
  refine ⟨if o.dropUniqueItems then none else u.uniqueItems, ?_, ?_⟩
  · split
    · next hdrop => exact .inr ⟨rfl, hdrop⟩
    · exact .inl rfl
  · rw [finish, cleanItems_eq]
    unfold preserveUnknownFields
    split
    · next hp ha => exact .inr ⟨by simp [hp], ha, rfl⟩
    · exact .inl rfl

section

variable (hu : u.Separated) (hm : (o.finish u).Separated) (hus : u.encode = .ok us)
  (hms : (o.finish u).encode = .ok ms)
include hu hm hus hms

theorem get?_finish {name : String} (hname : name ∉ [Keyword.additionalProperties.name, Keyword.uniqueItems.name])
    (hkey : name ≠ o.preserveKey) : Members.get? ms name = Members.get? us name := by
  cases hmodeled : isModeled name with
  | true =>
    obtain ⟨k, hk⟩ := Option.isSome_iff_exists.1 hmodeled
    obtain rfl := Keyword.name_of_ofName? hk
    refine get?_encode_of_field hu hm hus hms (field_finish ?_ ?_) <;> rintro rfl <;> exact hname (by decide)
  | false =>
    cases hvendor : isVendor name with
    | true =>
      rw [get?_encode_of_vendor hu hus hvendor, get?_encode_of_vendor hm hms hvendor]
      obtain ⟨items, -, h | ⟨-, -, h⟩⟩ := finish_cases o u
      · rw [h]
      · rw [h]
        exact (Members.get?_set _ _ _ _).trans (if_neg hkey.symm)
    | false =>
      have hother : isOther name = true := by simp [isOther, hmodeled, hvendor]
      rw [get?_encode_of_other hu hus hother, get?_encode_of_other hm hms hother, other_finish]

theorem get?_uniqueItems_finish :
    Members.get? ms Keyword.uniqueItems.name = Members.get? us Keyword.uniqueItems.name ∨
      Members.get? ms Keyword.uniqueItems.name = none ∧ o.dropUniqueItems = true := by
  obtain ⟨items, hitems | ⟨rfl, hdrop⟩, h⟩ := finish_cases o u
  · refine .inl (get?_encode_of_field hu hm hus hms ?_)
    rcases h with h | ⟨-, -, h⟩ <;> exact (congrArg Node.uniqueItems h).trans hitems
  · refine .inr ⟨?_, hdrop⟩
    have hnone : (o.finish u).uniqueItems = none := by rcases h with h | ⟨-, -, h⟩ <;> rw [h]
    have hwritten := writeField_of_encode hm hms .uniqueItems
    rw [show (o.finish u).field .uniqueItems = none from hnone] at hwritten
    exact (Except.ok.inj hwritten).symm

theorem get?_additionalProperties_finish (hkey : isVendor o.preserveKey = true) :
    (Members.get? ms Keyword.additionalProperties.name = Members.get? us Keyword.additionalProperties.name ∧
        Members.get? ms o.preserveKey = Members.get? us o.preserveKey) ∨
      Members.get? ms Keyword.additionalProperties.name = none ∧ Members.get? ms o.preserveKey = some (.bool true) ∧
        (o.finish u).properties ≠ [] ∧ u.additionalProperties = some (.bool true) := by
  obtain ⟨items, -, h | ⟨hproperties, hadditional, h⟩⟩ := finish_cases o u
  · refine .inl ⟨get?_encode_of_field hu hm hus hms (by rw [h]; rfl), ?_⟩
    rw [get?_encode_of_vendor hu hus hkey, get?_encode_of_vendor hm hms hkey, h]
  · refine .inr ⟨?_, ?_, ?_, hadditional⟩
    · have hwritten := writeField_of_encode hm hms .additionalProperties
      rw [show (o.finish u).field .additionalProperties = none by rw [h]; rfl] at hwritten
      exact (Except.ok.inj hwritten).symm
    · rw [get?_encode_of_vendor hm hms hkey, h]
      exact (Members.get?_set _ _ _ _).trans (if_pos rfl)
    · rw [h]
      exact hproperties

end

/-! ## Settling -/

/-- What settling a schema object leaves alone, as it is written. -/
structure Frame (o : Options) (n m : ObjectSchema) (ns ms : Members Json) : Prop where
  others : ∀ name, name ∉ hoistedKeywords.map Keyword.name →
    name ∉ [Keyword.description.name, Keyword.additionalProperties.name, Keyword.uniqueItems.name, nullableKeyword,
      o.preserveKey] → ns.Keeps ms name
  properties : ns.KeepsProperties ms
  annotations : (ns.Keeps ms Keyword.description.name ∧ ns.Keeps ms nullableKeyword) ∨ ∃ e, n.IsOptional e
  unknownFields : (ns.Keeps ms Keyword.additionalProperties.name ∧ ns.Keeps ms o.preserveKey) ∨
    Members.get? ms Keyword.additionalProperties.name = none ∧ Members.get? ms o.preserveKey = some (.bool true) ∧
      m.properties ≠ [] ∧ (n.additionalProperties = some (.bool true) ∨
        ∃ e, n.IsOptional e ∧ e.additionalProperties = some (.bool true))
  uniqueItems : ns.Keeps ms Keyword.uniqueItems.name ∨
    Members.get? ms Keyword.uniqueItems.name = none ∧ o.dropUniqueItems = true
  added : ∀ name ∈ ms.names, name ∈ ns.names ∨
    name ∈ [Keyword.type.name, Keyword.enum.name, Keyword.properties.name, nullableKeyword, o.preserveKey] ∨
    ∃ e es, n.IsOptional e ∧ e.encode = .ok es ∧ name ∈ es.names

theorem keyword_ne_of_isVendor {name : String} (h : isVendor name = true) (k : Keyword) : name ≠ k.name := by
  rintro rfl
  have hnot := isModeled_of_isVendor h
  rw [isModeled, Keyword.ofName?_name] at hnot
  cases hnot

/-- What is left alone while the unions are settled is left alone by the last changes, apart from the unknown fields
and the unique items. -/
theorem frame_finish (h : UnionFrame n u ns us) (hu : u.Separated) (hm : (o.finish u).Separated)
    (hus : u.encode = .ok us) (hms : (o.finish u).encode = .ok ms) (hkey : isVendor o.preserveKey = true)
    (hnullable : o.preserveKey ≠ nullableKeyword) : o.Frame n (o.finish u) ns ms := by
  have stays {name : String} (hname : name ∉ [Keyword.additionalProperties.name, Keyword.uniqueItems.name])
      (hkey : name ≠ o.preserveKey) : Members.get? ms name = Members.get? us name :=
    get?_finish hu hm hus hms hname hkey
  have hunknown := get?_additionalProperties_finish hu hm hus hms hkey
  have hitems := get?_uniqueItems_finish hu hm hus hms
  have modeled (k : Keyword) : k.name ≠ o.preserveKey := (keyword_ne_of_isVendor hkey k).symm
  have vendor : o.preserveKey ∉ hoistedKeywords.map Keyword.name := fun hmem => by
    obtain ⟨k, -, e⟩ := List.mem_map.1 hmem
    exact modeled k e
  constructor
  case others =>
    intro name hhoisted hname
    simp only [List.mem_cons, List.not_mem_nil, or_false, not_or] at hname
    obtain ⟨hdescription, hadditional, hunique, hnull, hpreserve⟩ := hname
    exact (h.others name hhoisted hdescription hnull).trans (.of_eq (stays (by simp [hadditional, hunique]) hpreserve))
  case properties => exact h.properties.trans (keepsProperties_of_eq hu hus (stays (by decide) (modeled .properties)))
  case annotations =>
    exact h.annotations.imp_left fun hkeeps =>
      ⟨hkeeps.1.trans (.of_eq (stays (by decide) (modeled .description))),
        hkeeps.2.trans (.of_eq (stays (by decide) hnullable.symm))⟩
  case unknownFields =>
    rcases hunknown with ⟨hadditional, hpreserve⟩ | ⟨hadditional, hpreserve, hproperties, htrue⟩
    · have hkept := h.others Keyword.additionalProperties.name (by decide) (by decide) (by decide)
      have hkept' := h.others o.preserveKey vendor (modeled .description).symm hnullable
      exact .inl ⟨hkept.trans (.of_eq hadditional), hkept'.trans (.of_eq hpreserve)⟩
    · refine .inr ⟨hadditional, hpreserve, hproperties, ?_⟩
      rcases h.additional with hown | ⟨e, he, hentry⟩
      · exact .inl (hown.symm.trans htrue)
      · exact .inr ⟨e, he, hentry.symm.trans htrue⟩
  case uniqueItems =>
    have hkept := h.others Keyword.uniqueItems.name (by decide) (by decide) (by decide)
    exact hitems.imp_left fun heq => hkept.trans (.of_eq heq)
  case added =>
    intro name hname
    by_cases hpreserve : name = o.preserveKey
    · exact .inr (.inl (by simp [hpreserve]))
    -- Apart from the vendor keyword, the last changes only take members out.
    have hbefore : name ∈ us.names := by
      rw [← Members.has_iff_mem_names, Members.has] at hname ⊢
      by_cases hadditional : name = Keyword.additionalProperties.name
      · subst hadditional
        rcases hunknown with ⟨heq, -⟩ | ⟨hnone, -⟩
        · rwa [← heq]
        · rw [hnone] at hname
          cases hname
      by_cases hunique : name = Keyword.uniqueItems.name
      · subst hunique
        rcases hitems with heq | ⟨hnone, -⟩
        · rwa [← heq]
        · rw [hnone] at hname
          cases hname
      rwa [← stays (by simp [hadditional, hunique]) hpreserve]
    refine (h.added name hbefore).imp_right (Or.imp_left fun hmem => ?_)
    exact List.mem_append_left [o.preserveKey] hmem

/-- The vendor keywords that start with a prefix of their own are no other keywords. -/
theorem isVendor_of_prefix {name : String} (h : ['x', '-'].isPrefixOf name.toList = true) :
    isVendor name = true ∧ name ≠ nullableKeyword := by
  refine ⟨by simp [isVendor, h], ?_⟩
  rintro rfl
  exact absurd h (by decide)

/-- Settling a schema object leaves alone everything that it has no reason to state anew, and adds no keyword from
nowhere. -/
theorem settle_frame {v : Json} (hkey : ['x', '-'].isPrefixOf o.preserveKey.toList = true)
    (hd : v.hasDistinctNames = true) (hn : Node.decode v = .ok n) (h : (o.settle path n).outcome = .ok m) :
    ∃ ns ms, n.encode = .ok ns ∧ m.encode = .ok ms ∧ o.Frame n m ns ms := by
  obtain ⟨hvendor, hnullable⟩ := isVendor_of_prefix hkey
  have hregular := regular_of_decode hd hn
  have hsettled := regular_of_settle hvendor hregular h
  obtain ⟨u, hu, rfl⟩ := settle_eq_ok hregular h
  have hunions := regular_object_settlesUnions hregular hu
  obtain ⟨ns, hns, -⟩ := exists_encode_node hregular
  obtain ⟨us, hus, -⟩ := exists_encode_node hunions
  obtain ⟨ms, hms, -⟩ := exists_encode_node hsettled
  have hframe := unionFrame_of_settle hregular h hu hns hus
  exact ⟨ns, ms, hns, hms, frame_finish hframe hunions.here.separated hsettled.here.separated hus hms hvendor hnullable⟩

/-- An optional with a title, whose entry has a property beside additional ones of any kind. -/
theorem settle_frame_of_optional :
    let o : Options := {}
    let v : Json := .obj [
      ("title", .str "T"),
      ("anyOf", .arr [
        .obj [
          ("properties", .obj [("a", .bool true)]),
          ("additionalProperties", .bool true),
          ("minProperties", .int 1)],
        nullEntry])]
    let e : ObjectSchema :=
      { properties := [("a", .bool true)], additionalProperties := some (.bool true), minProperties := some 1 }
    let n : ObjectSchema := { anyOf := some [.object e, .object nullNode], other := [("title", .str "T")] }
    let m : ObjectSchema :=
      { properties := [("a", .bool true)]
        minProperties := some 1
        extensions := [("nullable", .bool true), ("x-kubernetes-preserve-unknown-fields", .bool true)]
        other := [("title", .str "T")] }
    ['x', '-'].isPrefixOf o.preserveKey.toList = true ∧ v.hasDistinctNames = true ∧ Node.decode v = .ok n ∧
      (o.settle [] n).outcome = .ok m ∧ ∃ ns ms, n.encode = .ok ns ∧ m.encode = .ok ms ∧ o.Frame n m ns ms := by
  intro o v e n m
  have hkey : ['x', '-'].isPrefixOf o.preserveKey.toList = true := by decide
  have hd : v.hasDistinctNames = true := rfl
  have hn : Node.decode v = .ok n := rfl
  have h : (o.settle [] n).outcome = .ok m := rfl
  exact ⟨hkey, hd, hn, h, settle_frame hkey hd hn h⟩

end Options

end KubeSchema
