import KubeSchema.Proofs.Restructuring
import KubeSchema.Proofs.Union.NullEntry

/-!
# Properties are neither lost nor invented

The names that a schema object declares: those of its properties, and those that its variants declare at any depth
(`Node.Declares`). A result has exactly these properties.

* `mem_names_of_settle`: settling collects the properties of the variants.
* `Restructures.declares`: whatever the vendor keyword, a result has no other properties than those that are declared.
* `restructure_properties`: restructuring collects those that are declared at any depth.
-/

namespace KubeSchema

/-! ## Declared names -/

/-- A schema object, or one of its variants, has a property of a name. -/
inductive Node.Declares : ObjectSchema → String → Prop
  | own {n : ObjectSchema} {name : String} (h : name ∈ Members.names n.properties) : Declares n name
  | variant {n w : ObjectSchema} {name : String} (hw : .object w ∈ n.unionVariants) (h : Declares w name) :
      Declares n name

theorem Node.declares_iff {n : ObjectSchema} {name : String} : n.Declares name ↔
    name ∈ Members.names n.properties ∨ ∃ w, .object w ∈ n.unionVariants ∧ w.Declares name := by
  constructor
  · rintro (h | ⟨hw, h⟩)
    · exact .inl h
    · exact .inr ⟨_, hw, h⟩
  · rintro (h | ⟨w, hw, h⟩)
    · exact .own h
    · exact .variant hw h

/-- The names of the properties of a schema as it is written. -/
def Json.propertyNames : Json → List String
  | obj ms =>
    match Members.get? ms Keyword.properties.name with
    | some (obj properties) => Members.names properties
    | _ => []
  | _ => []

/-- A schema object has the properties that are written. -/
theorem propertyNames_of_decode {v : Json} {n : ObjectSchema} (h : Node.decode v = .ok n) :
    v.propertyNames = Members.names n.properties := by
  obtain ⟨ms, rfl⟩ := Node.exists_obj_of_decode h
  have hread : Keyword.properties.readField (Members.get? ms Keyword.properties.name) = .ok n.properties :=
    (decode_eq_ok.1 h).1 .properties
  rcases readMap_eq_ok.1 hread with ⟨hv | hv, hn⟩ | ⟨properties, hv, hr⟩
  · rw [Json.propertyNames, hv, hn]
    rfl
  · rw [Json.propertyNames, hv, hn]
    rfl
  · rw [Json.propertyNames, hv, hr.names]

/-! ## Settling -/

namespace Options

open Node

variable {o : Options} {path : Pointer} {n m u : ObjectSchema} {name : String}

/-- Properties are written under their names, and read again. -/
theorem exists_written_properties (hn : (Schema.object n).Regular) (hne : n.properties ≠ []) :
    ∃ ms : Members Json, Keyword.properties.writeField n.properties = .ok (some (.obj ms)) ∧
      Members.names ms = Members.names n.properties ∧
      Keyword.properties.readField (some (.obj ms)) = .ok n.properties := by
  obtain ⟨v, hv, hread, -⟩ := exists_writeField (hn.here.fits .properties)
    (fun c hc => exists_encode (hn.child c (mem_children.2 ⟨.properties, hc⟩)))
  obtain ⟨ms, hms, rfl⟩ := map_eq_ok.1 hv
  have hr : Members.Rel (fun s x => s.encode = .ok x) n.properties ms := encodeMembers_eq_ok.1 hms
  have hmap : encodeMap ms = some (.obj ms) := by
    cases hp : n.properties with
    | nil => exact absurd hp hne
    | cons p l =>
      rw [hp] at hr
      cases hr
      rfl
  rw [hmap] at hv hread
  exact ⟨ms, hv, hr.names, hread⟩

/-- The properties of an optional after its entry was laid over it are those of both. -/
theorem mem_names_overlay {e : ObjectSchema} (h : Agree n e) (hn : (Schema.object n).Regular)
    (he : (Schema.object e).Regular) :
    name ∈ Members.names (Node.overlay n e).properties ↔
      name ∈ Members.names n.properties ∨ name ∈ Members.names e.properties := by
  have hover : (Node.overlay n e).properties = if e.properties.isEmpty then n.properties else e.properties := rfl
  rw [hover]
  by_cases hep : e.properties = []
  · simp [hep, Members.names]
  · by_cases hnp : n.properties = []
    · simp [hnp, hep, Members.names]
    · obtain ⟨ms, hms, hnames, -⟩ := exists_written_properties hn hnp
      obtain ⟨ms', hms', hnames', -⟩ := exists_written_properties he hep
      have halike : (Json.obj ms).Alike (.obj ms') := h .properties (by decide) _ _ hms hms'
      have hiff : name ∈ Members.names n.properties ↔ name ∈ Members.names e.properties := by
        rw [← hnames, ← hnames']
        exact (Members.perm_of_alike halike).mem_iff
      rw [if_neg (by simpa using hep), hiff, or_self]

/-- The entry of an optional is the only variant with properties. -/
theorem names_of_isOptional {e : ObjectSchema} (hn : (Schema.object n).Regular) (hone : n.oneOf.getD [] = [])
    (he : n.IsOptional e) :
    (∃ w, .object w ∈ n.unionVariants ∧ name ∈ Members.names w.properties) ↔ name ∈ Members.names e.properties := by
  refine ⟨?_, fun h => ⟨e, List.mem_append_right _ he.mem, h⟩⟩
  rintro ⟨w, hw, h⟩
  rw [unionVariants, hone, List.nil_append] at hw
  rcases he.eq_of_mem hn hw with e' | e' <;> cases e'
  · exact h
  · cases h

/-- The variants of one union are those of both, if the other one is empty. -/
theorem names_of_variants {ws : List ObjectSchema} (h : n.unionVariants = ws.map .object) :
    (∃ w, .object w ∈ n.unionVariants ∧ name ∈ Members.names w.properties) ↔
      ∃ w ∈ ws, name ∈ Members.names w.properties := by
  have hmem (w : ObjectSchema) : Schema.object w ∈ n.unionVariants ↔ w ∈ ws := by simp [h]
  simp only [hmem]

/-- Settling collects the properties of the variants. -/
theorem mem_names_of_settlesUnions (hn : (Schema.object n).Regular) (h : o.SettlesUnions n u) :
    name ∈ Members.names u.properties ↔
      name ∈ Members.names n.properties ∨ ∃ w, .object w ∈ n.unionVariants ∧ name ∈ Members.names w.properties := by
  cases h with
  | @enumerated t ws hone hany hne henums =>
    have hp : (o.cleanEnum (n.enumerated t ws)).properties = n.properties := field_cleanEnum (k := .properties) (by decide)
    rw [hp]
    rw [names_of_variants (by rw [unionVariants, hone, hany, List.append_nil])]
    refine ⟨.inl, fun h => h.resolve_right ?_⟩
    rintro ⟨w, hw, hname⟩
    have habout := (henums w hw).1
    rw [isAboutObjects, Bool.or_eq_false_iff] at habout
    rw [properties_eq_nil habout.1] at hname
    cases hname
  | @optional e _ hone hany hagree hresult =>
    have he : (Schema.object e).Regular :=
      hn.child _ (unionVariants_subset_children (List.mem_append_right _ hany.mem))
    have hp : u.properties = (Node.overlay { n with anyOf := none } e).properties := by
      rcases hresult with rfl | rfl
      · exact field_cleanEnum (k := .properties) (by decide)
      · exact (field_dropEmptyOneOf (k := .properties) (by decide)).trans (field_cleanEnum (k := .properties) (by decide))
    rw [hp, mem_names_overlay hagree (regular_without_anyOf hn) he, names_of_isOptional hn hone hany]
  | @tagged ws hone hany hobjects htags =>
    have hp : (((o.cleanEnum n).hoisted .oneOf ws).takenEnums.dropEmptyOneOf).properties =
        received .oneOf n.properties ws := by
      have hclean : (o.cleanEnum n).properties = n.properties := field_cleanEnum (k := .properties) (by decide)
      exact (field_dropEmptyOneOf (k := .properties) (by decide)).trans (congrArg (received .oneOf · ws) hclean)
    rw [hp, mem_names_received, names_of_variants (by rw [unionVariants, hone, hany, List.append_nil])]
  | @untagged ws hone hany hpair =>
    have hp : ((o.cleanEnum n).dropEmptyOneOf.hoisted .anyOf ws).properties = received .anyOf n.properties ws := by
      have hclean : (o.cleanEnum n).dropEmptyOneOf.properties = n.properties :=
        (field_dropEmptyOneOf (k := .properties) (by decide)).trans (field_cleanEnum (k := .properties) (by decide))
      exact congrArg (received .anyOf · ws) hclean
    rw [hp, mem_names_received, names_of_variants (by rw [unionVariants, hone, hany, List.nil_append])]

theorem mem_names_of_settle (hn : (Schema.object n).Regular) (h : (o.settle path n).outcome = .ok m) :
    name ∈ Members.names m.properties ↔
      name ∈ Members.names n.properties ∨ ∃ w, .object w ∈ n.unionVariants ∧ name ∈ Members.names w.properties := by
  obtain ⟨u, hu, rfl⟩ := settle_eq_ok hn h
  have hp : (o.finish u).properties = u.properties := field_finish (k := .properties) nofun nofun
  rw [hp]
  exact mem_names_of_settlesUnions hn hu

/-- Without properties no vendor keyword is set. -/
theorem extensions_finish_of_nil (h : n.properties = []) : (o.finish n).extensions = n.extensions := by
  have hkeep : n.preserveUnknownFields o.preserveKey = none := by
    unfold preserveUnknownFields
    rw [h]
  rw [finish, hkeep, Option.getD_none]
  unfold cleanItems Node.dropUniqueItems
  split
  · split <;> rfl
  · rfl

/-- What is settled has the same properties when it is written and read, whatever the vendor keyword. -/
theorem properties_of_written {ms : Members Json} (hn : (Schema.object n).Regular)
    (hm : (o.settle path n).outcome = .ok m) (h : m.encode = .ok ms) {m' : ObjectSchema}
    (hdec : Node.decode (.obj ms) = .ok m') : m'.properties = m.properties := by
  obtain ⟨u, hu, rfl⟩ := exists_regular_of_settle hn hm
  have hp : (o.finish u).properties = u.properties := field_finish (k := .properties) nofun nofun
  obtain ⟨vals, hw, rfl, -⟩ := encode_eq_ok.1 h
  have hwrite : Keyword.properties.writeField (o.finish u).properties = .ok (vals .properties) := hw .properties
  have hread : Keyword.properties.readField (Members.get? _ Keyword.properties.name) = .ok m'.properties :=
    (decode_eq_ok.1 hdec).1 .properties
  rw [hp] at hwrite ⊢
  -- A vendor keyword may be called `properties`: it is set only beside properties, and these are written first.
  by_cases hne : u.properties = []
  · have hrest : ∀ m ∈ (o.finish u).extensions ++ (o.finish u).other, isModeled m.1 = false := by
      rw [extensions_finish_of_nil hne, other_finish]
      exact hu.here.isModeled
    rw [hne] at hwrite ⊢
    rw [get?_written_of_other hrest, ← Except.ok.inj hwrite] at hread
    exact (Except.ok.inj hread).symm
  · obtain ⟨ps, hps, -, hback⟩ := exists_written_properties hu hne
    rw [get?_written (Except.ok.inj (hwrite.symm.trans hps))] at hread
    exact Except.ok.inj (hread.symm.trans hback)

/-! ## Restructuring -/

/-- The result of restructuring a schema object has no properties but those that this one declares, whatever the vendor
keyword. -/
theorem Restructures.declares {v r : Json} (hd : v.hasDistinctNames = true) (hn : Node.decode v = .ok n)
    (h : o.Restructures v r) (hm : Node.decode r = .ok m) (hname : name ∈ Members.names m.properties) :
    n.Declares name := by
  induction v using Json.induction generalizing r n m with
  | h v ih =>
    obtain ⟨ms, rfl⟩ := Node.exists_obj_of_decode hn
    obtain ⟨path, ms', r', hslots, hmembers, rfl⟩ := h.slots
    obtain ⟨n', hn', hrel⟩ := exists_decode_of_slots hslots hn
    have hown : Members.names n'.properties = Members.names n.properties := (hrel .properties).names
    have hd' := hslots.hasDistinctNames hd (fun _ _ h => h.hasDistinctNames)
    rcases restructureMembers_eq_ok hmembers with ⟨e, he, rfl⟩ | ⟨n'', m', hn'', hsettle, hread | ⟨-, rfl⟩⟩
    · cases he.symm.trans hn'
    · cases hn''.symm.trans hn'
      have hreg := regular_of_decode hd' hn'
      rw [properties_of_written hreg hsettle (readable_eq_ok.1 hread).1 hm, mem_names_of_settle hreg hsettle] at hname
      rcases hname with hname | ⟨w', hw', hname⟩
      · exact .own (hown ▸ hname)
      · obtain ⟨s, hs, hρ⟩ := exists_of_mem_right (forall₂_unionVariants hrel) hw'
        rcases hρ.cases with ⟨b, -, e⟩ | ⟨x, hx, x', w, w'', hr, hw, hw'', rfl, e⟩
        · cases e
        · cases e
          exact .variant hs (ih x hx (Json.hasDistinctNames_child hd hx) hw hr hw'' hname)
    · cases hm.symm.trans hn'
      exact .own (hown ▸ hname)

/-- The result of restructuring a schema object has the properties that this one declares. -/
theorem Restructures.exists_properties {v r : Json} (hkey : isVendor o.preserveKey = true)
    (hd : v.hasDistinctNames = true) (hn : Node.decode v = .ok n) (h : o.Restructures v r) :
    ∃ m, Node.decode r = .ok m ∧ ∀ name, name ∈ Members.names m.properties ↔ n.Declares name := by
  induction v using Json.induction generalizing r n with
  | h v ih =>
    obtain ⟨ms, rfl⟩ := Node.exists_obj_of_decode hn
    obtain ⟨ms', hslots, hms, hr⟩ := h.of_obj hkey hd
    obtain ⟨n', hn', hrel⟩ := exists_decode_of_slots hslots hn
    rcases hr with ⟨e, he, rfl⟩ | ⟨path, _, m, hm', hm, -, hdec⟩
    · cases he.symm.trans hn'
    · cases hm'.symm.trans hn'
      refine ⟨m, hdec, fun name => ⟨h.declares hd hn hdec, fun hname => ?_⟩⟩
      rw [mem_names_of_settle (regular_of_decode hms hn') hm]
      rcases declares_iff.1 hname with hown | ⟨w, hw, hname⟩
      · have hprop : Members.names n'.properties = Members.names n.properties := (hrel .properties).names
        exact .inl (hprop ▸ hown)
      · obtain ⟨s', hs', hρ⟩ := exists_of_mem_left (forall₂_unionVariants hrel) hw
        rcases hρ.cases with ⟨b, e, -⟩ | ⟨x, hx, x', _, w', hr, hw, hw', e, rfl⟩
        · cases e
        · cases e
          obtain ⟨m, hm, hiff⟩ := ih x hx (Json.hasDistinctNames_child hd hx) hw hr
          cases hm.symm.trans hw'
          exact .inr ⟨w', hs', (hiff name).2 hname⟩

/-- The properties of a result are those that the schema object declares, itself or in variants at any depth. -/
theorem restructure_properties {v r : Json} (hkey : isVendor o.preserveKey = true) (hd : v.hasDistinctNames = true)
    (hn : Node.decode v = .ok n) (h : (o.restructure v).outcome = .ok r) :
    name ∈ r.propertyNames ↔ n.Declares name := by
  obtain ⟨m, hm, hiff⟩ := Restructures.exists_properties hkey hd hn ⟨[], h⟩
  rw [propertyNames_of_decode hm, hiff]

/-- A property moves up from a variant of a variant. -/
theorem properties_of_nested_variant :
    "a" ∈ Json.propertyNames (.obj [("type", .str "object"), ("anyOf", .arr [.obj [("anyOf", .arr [.obj []])]]),
        ("properties", .obj [("a", .obj [])])]) ↔
      Node.Declares ({ anyOf := some [.object { anyOf := some [.object { properties := [("a", .object {})] }] }] } :
        ObjectSchema) "a" :=
  restructure_properties (o := {})
    (v := .obj [("anyOf", .arr [.obj [("anyOf", .arr [.obj [("properties", .obj [("a", .obj [])])]])]])])
    rfl rfl rfl rfl

end Options

end KubeSchema
