import KubeSchema.Proofs.Outcome
import KubeSchema.Proofs.Members
import KubeSchema.Union.Properties

/-!
# What hoisting properties does

A successful hoisting without its checks: the parent takes in the properties of its variants (`Node.receive`) and each
variant is left without them (`Node.hoistedVariant`).

* `hoistProperties_eq_ok`: the parent after a hoisting that succeeds (`Node.hoisted`).
* `mem_received`: its properties are its own and those of variants, with the variant's description if tagged.
* `mem_names_received`: their names are those of both.
-/

namespace KubeSchema.Node

/-! ## Hoisting without its checks -/

/-- A variant after its properties have gone, or its type. -/
def hoistedVariant (v : ObjectSchema) : ObjectSchema :=
  if v.hasObjectKeywords then strippedVariant v else if v.isOnly .object then bareVariant v else v

/-- A tag with the description of its variant. -/
def describedTag (description : Option String) : Schema → Schema
  | .bool b => .bool b
  | .object tag => .object (match description with | some text => { tag with description := some text } | none => tag)

/-- The properties that a variant hands to the parent, if nothing is wrong with them. -/
def handed (u : Union) (v : ObjectSchema) : List (String × Schema) :=
  match u with
  | .oneOf => v.properties.map (fun p => (p.1, describedTag v.description p.2))
  | .anyOf => v.properties

/-- Puts a property last, unless there is one of its name. -/
def addProperty (properties : List (String × Schema)) (p : String × Schema) : List (String × Schema) :=
  if Members.has properties p.1 then properties else Members.set properties p.1 p.2

/-- The properties of a parent and those that its variants hand to it. -/
def received (u : Union) (properties : List (String × Schema)) (ws : List ObjectSchema) : List (String × Schema) :=
  (ws.flatMap (handed u)).foldl addProperty properties

/-- A parent that takes in what its variants hand to it. -/
def receive (u : Union) (n : ObjectSchema) (ws : List ObjectSchema) : ObjectSchema :=
  { n with
    properties := received u n.properties ws
    types := if ws.any hasObjectKeywords then some (.one .object) else n.types }

/-- A parent that takes in what the variants of a union hand to it, and the variants without it. -/
def hoisted (u : Union) (n : ObjectSchema) (ws : List ObjectSchema) : ObjectSchema :=
  (receive u n ws).setVariants u ((n.variants u).map (fun _ => ws.map (fun w => .object (hoistedVariant w))))

theorem hoistedVariant_of_isOnly {v : ObjectSchema} (hk : v.hasObjectKeywords = false)
    (ht : v.isOnly .object = true) :
    hoistedVariant v = bareVariant v := by
  simp [hoistedVariant, hk, ht]

theorem hoistedVariant_of_hasObjectKeywords {v : ObjectSchema} (hk : v.hasObjectKeywords = true) :
    hoistedVariant v = strippedVariant v := by
  simp [hoistedVariant, hk]

theorem hoistedVariant_self {v : ObjectSchema} (hk : v.hasObjectKeywords = false) (ht : v.isOnly .object = false) :
    hoistedVariant v = v := by
  simp [hoistedVariant, hk, ht]

/-- The keywords that hoisting takes from a variant. -/
theorem hoistedVariant_eq (w : ObjectSchema) : ∃ description default types properties additional,
    hoistedVariant w = { w with description, default, types, properties, additionalProperties := additional } := by
  unfold hoistedVariant
  split
  · exact ⟨_, _, _, _, _, rfl⟩
  · split
    · exact ⟨_, _, _, _, _, rfl⟩
    · exact ⟨w.description, w.default, w.types, w.properties, w.additionalProperties, rfl⟩

/-- A schema object without object keywords has no properties. -/
theorem properties_eq_nil {n : ObjectSchema} (h : n.hasObjectKeywords = false) : n.properties = [] := by
  simp only [hasObjectKeywords, Bool.or_eq_false_iff, Bool.not_eq_eq_eq_not, Bool.not_false] at h
  exact List.isEmpty_iff.1 h.1.1.1.2

theorem additionalProperties_eq_none {n : ObjectSchema} (h : n.hasObjectKeywords = false) :
    n.additionalProperties = none := by
  simp only [hasObjectKeywords, Bool.or_eq_false_iff, Option.isSome_eq_false_iff, Option.isNone_iff_eq_none] at h
  exact h.1.2

theorem properties_hoistedVariant (v : ObjectSchema) : (hoistedVariant v).properties = [] := by
  unfold hoistedVariant
  split
  · rfl
  · next hk =>
    have hp : v.properties = [] := properties_eq_nil (Bool.eq_false_iff.2 hk)
    split
    · exact hp
    · exact hp

theorem additionalProperties_hoistedVariant (v : ObjectSchema) : (hoistedVariant v).additionalProperties = none := by
  unfold hoistedVariant
  split
  · rfl
  · next hk =>
    have ha : v.additionalProperties = none := additionalProperties_eq_none (Bool.eq_false_iff.2 hk)
    split
    · exact ha
    · exact ha

/-! ## A hoisting that succeeds -/

theorem outcome_describeTag (place : Pointer) (description : Option String) (name : String) (s : Schema) :
    (describeTag place description name s).outcome = .ok (describedTag description s) := by
  cases description with
  | none => cases s <;> rfl
  | some text =>
    cases s with
    | bool b => rfl
    | object tag =>
      rw [describeTag]
      split <;> rfl

theorem handedProperties_eq_ok {u : Union} {place : Pointer} {v : ObjectSchema} {l : List (String × Schema)}
    (h : (handedProperties u place v).outcome = .ok l) :
    l = handed u v ∧ (u = .oneOf → v.properties.length ≤ 1) := by
  unfold handedProperties at h
  split at h
  · cases h; exact ⟨rfl, nofun⟩
  · next hp => cases h; simp [handed, hp]
  · next hp =>
    simp only [Traced.bind_eq_ok, Traced.pure_eq_ok] at h
    obtain ⟨s', hs, rfl⟩ := h
    rw [outcome_describeTag] at hs
    cases hs
    simp [handed, hp]
  · cases h

theorem mergeProperty_eq_ok {place : Pointer} {l l' : List (String × Schema)} {p : String × Schema}
    (h : (mergeProperty place l p).outcome = .ok l') : l' = addProperty l p := by
  unfold mergeProperty at h
  unfold addProperty Members.has
  split at h
  · next hg => cases h; simp [hg]
  · next hg =>
    simp only [Traced.bind_eq_ok] at h
    obtain ⟨_, -, _, -, h⟩ := h
    split at h
    · cases h; simp [hg]
    · cases h

theorem mergeProperties_eq_ok {place : Pointer} {l l' handed : List (String × Schema)}
    (h : (handed.foldlM (mergeProperty place) l).outcome = .ok l') : l' = handed.foldl addProperty l := by
  induction handed generalizing l with
  | nil => cases h; rfl
  | cons p handed ih =>
    rw [List.foldlM_cons, Traced.bind_eq_ok] at h
    obtain ⟨_, hp, h⟩ := h
    rw [List.foldl_cons, ← mergeProperty_eq_ok hp]
    exact ih h

theorem handed_of_not_hasObjectKeywords {u : Union} {v : ObjectSchema} (h : v.hasObjectKeywords = false) :
    handed u v = [] := by
  cases u <;> simp [handed, properties_eq_nil h]

/-- A parent takes in nothing from a variant without object keywords. -/
theorem receive_cons_of_not_hasObjectKeywords {u : Union} {n v : ObjectSchema} (h : v.hasObjectKeywords = false)
    (ws : List ObjectSchema) : receive u n (v :: ws) = receive u n ws := by
  simp [receive, received, handed_of_not_hasObjectKeywords h, h]

/-- Every variant is a schema object; the parent takes in their properties and each is left without them. -/
theorem hoistVariants_eq_ok {u : Union} {path : Pointer} {index : Nat} {n : ObjectSchema} {vs : List Schema}
    {h : Hoisted} (hr : (hoistVariants u path index n vs).outcome = .ok h) :
    ∃ ws : List ObjectSchema, vs = ws.map .object ∧ h.parent = receive u n ws ∧
      h.variants = ws.map (fun w => .object (hoistedVariant w)) ∧
      h.changed = ws.any (fun w => w.hasObjectKeywords || w.isOnly .object) ∧
      (u = .oneOf → ∀ w ∈ ws, w.properties.length ≤ 1) := by
  induction vs generalizing n index h with
  | nil => cases hr; exact ⟨[], rfl, rfl, rfl, rfl, by simp⟩
  | cons s vs ih =>
    cases s with
    | bool b => cases hr
    | object v =>
      rw [hoistVariants] at hr
      cases hk : v.hasObjectKeywords with
      | true =>
        simp only [hk, ↓reduceIte, Traced.bind_eq_ok, Traced.pure_eq_ok] at hr
        obtain ⟨handed, hh, properties, hm, rest, hr, rfl⟩ := hr
        obtain ⟨ws, rfl, hp, hv, hc, ht⟩ := ih hr
        obtain ⟨rfl, hone⟩ := handedProperties_eq_ok hh
        refine ⟨v :: ws, rfl, ?_, by simp [hv, hoistedVariant, hk], by simp [hk], fun hu => ?_⟩
        · rw [hp, mergeProperties_eq_ok hm]
          simp [receive, received, hk]
        · exact List.forall_mem_cons.2 ⟨hone hu, ht hu⟩
      | false =>
        have hone : v.properties.length ≤ 1 := by simp [properties_eq_nil hk]
        cases hb : v.isOnly .object <;>
          simp only [hk, hb, Bool.false_eq_true, ↓reduceIte, Traced.bind_eq_ok, Traced.pure_eq_ok] at hr
        all_goals
          obtain ⟨rest, hr, rfl⟩ := hr
          obtain ⟨ws, rfl, hp, hv, hc, ht⟩ := ih hr
          refine ⟨v :: ws, rfl, ?_, by simp [hv, hoistedVariant, hk, hb], by simp [hk, hb, hc],
            fun hu => List.forall_mem_cons.2 ⟨hone, ht hu⟩⟩
          rw [receive_cons_of_not_hasObjectKeywords hk]
          exact hp

/-- A schema object with the variants that it has. -/
theorem setVariants_self (u : Union) (n : ObjectSchema) :
    n.setVariants u ((n.variants u).map fun _ => (n.variants u).getD []) = n := by
  cases u
  · cases hu : n.oneOf <;> simp [variants, setVariants, hu] <;> rw [← hu]
  · cases hu : n.anyOf <;> simp [variants, setVariants, hu] <;> rw [← hu]

/-- If no variant is about objects, nothing is hoisted. -/
theorem hoisted_eq_self {u : Union} {n : ObjectSchema} {ws : List ObjectSchema}
    (hn : (n.variants u).getD [] = ws.map .object)
    (h : ∀ w ∈ ws, w.hasObjectKeywords = false ∧ w.isOnly .object = false) : hoisted u n ws = n := by
  have hr : receive u n ws = n := by
    clear hn
    induction ws with
    | nil => rfl
    | cons w ws ih =>
      obtain ⟨hw, hws⟩ := List.forall_mem_cons.1 h
      rw [receive_cons_of_not_hasObjectKeywords hw.1, ih hws]
  have hv : ws.map (fun w => Schema.object (hoistedVariant w)) = ws.map .object :=
    List.map_congr_left (fun w hw => by rw [hoistedVariant_self (h w hw).1 (h w hw).2])
  rw [hoisted, hr, hv, ← hn]
  exact setVariants_self u n

/-- A hoisting that succeeds, whether there is something to do or not. -/
theorem hoistProperties_eq_ok {u : Union} {path : Pointer} {n : ObjectSchema} {r : Option ObjectSchema}
    (h : (hoistProperties u path n).outcome = .ok r) :
    ∃ ws : List ObjectSchema, (n.variants u).getD [] = ws.map .object ∧ r.getD n = hoisted u n ws ∧
      (u = .oneOf → ∀ w ∈ ws, w.properties.length ≤ 1) := by
  unfold hoistProperties at h
  split at h
  · cases h
  · rw [Traced.bind_eq_ok] at h
    obtain ⟨hoist, hv, h⟩ := h
    obtain ⟨ws, hn, hp, hw, hc, ht⟩ := hoistVariants_eq_ok hv
    refine ⟨ws, hn, ?_, ht⟩
    split at h
    · next hch =>
      simp only [Traced.bind_eq_ok, Traced.pure_eq_ok] at h
      obtain ⟨-, -, rfl⟩ := h
      have hne : n.variants u ≠ none := by
        intro he
        have hws : ws = [] := by simpa [he] using hn.symm
        simp [hc, hws] at hch
      obtain ⟨l, hl⟩ := Option.ne_none_iff_exists'.1 hne
      simp [hoisted, hl, hp, hw]
    · next hch =>
      cases h
      rw [hc, Bool.not_eq_true, List.any_eq_false] at hch
      exact (hoisted_eq_self hn (fun w hw => by simpa [not_or] using hch w hw)).symm

theorem variants_hoisted {u : Union} {n : ObjectSchema} {ws : List ObjectSchema}
    (hn : (n.variants u).getD [] = ws.map .object) :
    ((hoisted u n ws).variants u).getD [] = ws.map (fun w => .object (hoistedVariant w)) := by
  have hv : (hoisted u n ws).variants u =
      (n.variants u).map (fun _ => ws.map (fun w => .object (hoistedVariant w))) := by
    cases u <;> rfl
  rw [hv]
  cases hu : n.variants u with
  | none =>
    rw [hu, Option.getD_none] at hn
    rw [List.map_eq_nil_iff.1 hn.symm]
    rfl
  | some l => rfl

/-! ## The properties of the parent -/

theorem mem_names_addProperty {l : List (String × Schema)} {p : String × Schema} {name : String} :
    name ∈ Members.names (addProperty l p) ↔ name ∈ Members.names l ∨ name = p.1 := by
  unfold addProperty
  split
  · next h =>
    rw [Members.has_iff_mem_names] at h
    exact ⟨.inl, fun h' => h'.elim id (fun e => e ▸ h)⟩
  · exact Members.mem_names_set

theorem mem_foldl_addProperty {l l' : List (String × Schema)} {p : String × Schema}
    (h : p ∈ l'.foldl addProperty l) : p ∈ l ∨ p ∈ l' := by
  induction l' generalizing l with
  | nil => exact .inl h
  | cons q l' ih =>
    rcases ih h with h | h
    · unfold addProperty at h
      split at h
      · exact .inl h
      · rcases Members.mem_set h with h | h
        · exact .inl h
        · exact .inr (h ▸ List.mem_cons_self)
    · exact .inr (List.mem_cons_of_mem _ h)

theorem mem_names_foldl_addProperty {l l' : List (String × Schema)} {name : String} :
    name ∈ Members.names (l'.foldl addProperty l) ↔ name ∈ Members.names l ∨ name ∈ Members.names l' := by
  induction l' generalizing l with
  | nil => simp [Members.names]
  | cons q l' ih => rw [List.foldl_cons, ih, mem_names_addProperty, or_assoc]; simp [Members.names]

theorem distinct_foldl_addProperty {l : List (String × Schema)} (h : Members.Distinct l)
    (l' : List (String × Schema)) : Members.Distinct (l'.foldl addProperty l) := by
  induction l' generalizing l with
  | nil => exact h
  | cons q l' ih =>
    apply ih
    unfold addProperty
    split
    · exact h
    · exact h.set q.1 q.2

theorem names_handed (u : Union) (v : ObjectSchema) : Members.names (handed u v) = Members.names v.properties := by
  cases u <;> simp [handed, Members.names, Function.comp_def]

/-- A property of the parent is its own, or a variant's with the description of the variant or without. -/
theorem mem_received {u : Union} {properties : List (String × Schema)} {ws : List ObjectSchema} {p : String × Schema}
    (h : p ∈ received u properties ws) :
    p ∈ properties ∨ ∃ w ∈ ws, ∃ q ∈ w.properties, ∃ description, p = (q.1, describedTag description q.2) := by
  refine (mem_foldl_addProperty h).imp id fun h => ?_
  obtain ⟨w, hw, hp⟩ := List.mem_flatMap.1 h
  refine ⟨w, hw, ?_⟩
  cases u with
  | oneOf =>
    obtain ⟨q, hq, rfl⟩ := List.mem_map.1 hp
    exact ⟨q, hq, _, rfl⟩
  | anyOf =>
    refine ⟨p, hp, none, ?_⟩
    obtain ⟨name, s⟩ := p
    cases s <;> rfl

/-- Variants that declare no properties hand nothing over. -/
theorem flatMap_handed_of_undeclaring {u : Union} {ws : List ObjectSchema} (h : ∀ w ∈ ws, w.properties = []) :
    ws.flatMap (handed u) = [] := by
  refine List.flatMap_eq_nil_iff.2 fun w hw => ?_
  cases u <;> simp [handed, h w hw]

theorem received_of_undeclaring {u : Union} {properties : List (String × Schema)} {ws : List ObjectSchema}
    (h : ∀ w ∈ ws, w.properties = []) : received u properties ws = properties := by
  rw [received, flatMap_handed_of_undeclaring h]
  rfl

/-- The parent declares what it declared before and what the variants did. -/
theorem mem_names_received {u : Union} {properties : List (String × Schema)} {ws : List ObjectSchema}
    {name : String} :
    name ∈ Members.names (received u properties ws) ↔
      name ∈ Members.names properties ∨ ∃ w ∈ ws, name ∈ Members.names w.properties := by
  rw [received, mem_names_foldl_addProperty]
  apply or_congr_right
  rw [Members.names, List.map_flatMap, List.mem_flatMap]
  exact exists_congr fun w => and_congr_right fun _ => by rw [← names_handed u w, Members.names]

end KubeSchema.Node
