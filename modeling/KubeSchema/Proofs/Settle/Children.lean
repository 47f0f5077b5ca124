import KubeSchema.Proofs.Settle.Ways

/-!
# Child schemas after settling

A settled schema object has the child schemas it had before, its variants after hoisting, and what those handed over
(`Node.Passed`).

* `passed_of_settle`: where the child schemas come from.
* `unions_of_settlesUnions`: what the unions and the type of a settled schema object are.
-/

namespace KubeSchema

/-! ## Fields that stay -/

namespace Options

open Node

variable {o : Options} {n u : ObjectSchema} {k : Keyword}

theorem field_cleanEnum (hk : k ≠ .enum) : (o.cleanEnum n).field k = n.field k := by
  obtain ⟨l, hl⟩ := cleanEnum_eq o n
  rw [hl]
  cases k <;> first | rfl | exact absurd rfl hk

theorem field_finish (ha : k ≠ .additionalProperties) (hu : k ≠ .uniqueItems) :
    (o.finish n).field k = n.field k := by
  obtain ⟨a, x, h, -⟩ := finish_eq o n
  rw [h]
  cases k <;> first | rfl | contradiction

end Options

namespace Node

variable {n e : ObjectSchema} {ws : List ObjectSchema} {v : Union} {k : Keyword}

theorem field_dropEmptyOneOf (hk : k ≠ .oneOf) : n.dropEmptyOneOf.field k = n.field k := by
  obtain ⟨l, hl, -⟩ := dropEmptyOneOf_eq n
  rw [hl]
  cases k <;> first | rfl | exact absurd rfl hk

theorem field_takenEnums (ht : k ≠ .type) (he : k ≠ .enum) (ho : k ≠ .oneOf) :
    n.takenEnums.field k = n.field k := by
  cases k <;> first | rfl | contradiction

theorem field_enumerated {t : OneOrMany PrimitiveType} (ht : k ≠ .type) (he : k ≠ .enum) (ho : k ≠ .oneOf) :
    (n.enumerated t ws).field k = n.field k := by
  cases k <;> first | rfl | contradiction

theorem field_hoisted (hv : k ≠ v.keyword) (ht : k ≠ .type) (hp : k ≠ .properties) :
    (n.hoisted v ws).field k = n.field k := by
  cases v <;> cases k <;> first | rfl | contradiction

/-! ## Child schemas -/

/-- The variants of both unions. -/
def unionVariants (n : ObjectSchema) : List Schema := n.oneOf.getD [] ++ n.anyOf.getD []

/-- A schema that settling leaves below a keyword: it was there before, or in a variant, or is a variant. -/
inductive Passed (n : ObjectSchema) : Keyword → Schema → Prop
  | own {k : Keyword} {c : Schema} (hone : k ≠ .oneOf) (hany : k ≠ .anyOf) (h : c ∈ k.children (n.field k)) :
      Passed n k c
  | variant (v : Union) {w : ObjectSchema} (hw : .object w ∈ n.unionVariants) :
      Passed n v.keyword (.object (hoistedVariant w))
  | tag {w : ObjectSchema} {q : String × Schema} (description : Option String) (hw : .object w ∈ n.unionVariants)
      (hq : q ∈ w.properties) : Passed n .properties (describedTag description q.2)
  | entry {k : Keyword} {w : ObjectSchema} {c : Schema} (hw : .object w ∈ n.unionVariants)
      (h : c ∈ k.children (w.field k)) : Passed n k c

/-- Corresponding schema objects have corresponding variants. -/
theorem forall₂_variants {ρ : Schema → Schema → Prop} {n n' : ObjectSchema}
    (h : ∀ k : Keyword, k.Rel ρ (n.field k) (n'.field k)) (v : Union) :
    List.Forall₂ ρ ((n.variants v).getD []) ((n'.variants v).getD []) := by
  have getD {a b : Option (List Schema)} (h : Option.Rel (List.Forall₂ ρ) a b) :
      List.Forall₂ ρ (a.getD []) (b.getD []) := by
    cases h with
    | none => exact .nil
    | some h => exact h
  cases v
  · exact getD (h .oneOf)
  · exact getD (h .anyOf)

theorem forall₂_unionVariants {ρ : Schema → Schema → Prop} {n n' : ObjectSchema}
    (h : ∀ k : Keyword, k.Rel ρ (n.field k) (n'.field k)) : List.Forall₂ ρ n.unionVariants n'.unionVariants :=
  List.rel_append (forall₂_variants h .oneOf) (forall₂_variants h .anyOf)

theorem unionVariants_subset_children {s : Schema} (h : s ∈ n.unionVariants) : s ∈ n.children :=
  mem_children.2 ((List.mem_append.1 h).elim (fun h => ⟨.oneOf, h⟩) (fun h => ⟨.anyOf, h⟩))

/-- What settling leaves is passed by a schema object with the same children, or more. -/
theorem Passed.of_subset {n' : ObjectSchema} {c : Schema} (h : n'.Passed k c)
    (hn : ∀ (k : Keyword), ∀ c ∈ k.children (n'.field k), c ∈ k.children (n.field k)) : n.Passed k c := by
  have hv {s : Schema} (hs : s ∈ n'.unionVariants) : s ∈ n.unionVariants :=
    List.mem_append.2 ((List.mem_append.1 hs).imp (hn .oneOf s) (hn .anyOf s))
  cases h with
  | own hone hany h => exact .own hone hany (hn _ _ h)
  | variant v hw => exact .variant v (hv hw)
  | tag description hw hq => exact .tag description (hv hw) hq
  | entry hw h => exact .entry (hv hw) h

theorem mem_children_dropEmptyOneOf {c : Schema} (h : c ∈ k.children (n.dropEmptyOneOf.field k)) :
    c ∈ k.children (n.field k) := by
  by_cases hk : k = .oneOf
  · subst hk
    obtain ⟨l, hl, hd, -⟩ := dropEmptyOneOf_eq n
    rw [hl] at h
    show c ∈ n.oneOf.getD []
    rw [← hd]
    exact h
  · rwa [field_dropEmptyOneOf hk] at h

theorem mem_children_takenEnums {c : Schema} (h : c ∈ k.children (n.takenEnums.field k)) :
    c ∈ k.children (n.field k) := by
  by_cases hk : k = .oneOf
  · subst hk
    cases ho : n.oneOf with
    | none => simp [takenEnums, field, Keyword.children, ho] at h
    | some l =>
      have h : c ∈ l.filter (fun s => !hasEnum s) := by simpa [takenEnums, field, Keyword.children, ho] using h
      simpa [field, Keyword.children, ho] using (List.mem_filter.1 h).1
  · by_cases ht : k = .type
    · subst ht; cases h
    · by_cases he : k = .enum
      · subst he; cases h
      · rwa [field_takenEnums ht he hk] at h

theorem mem_children_overlay {c : Schema} (h : c ∈ k.children ((n.overlay e).field k)) :
    c ∈ k.children (e.field k) ∨ c ∈ k.children (n.field k) := by
  by_cases hk : k.name ∈ replacedKeywords
  · have hk : k = .description ∨ k = .type ∨ k = .enum := by revert hk; cases k <;> decide
    rcases hk with rfl | rfl | rfl <;> cases h
  · rw [← field_overlay hk] at h
    rcases k.over_eq_or (e.field k) (n.field k) with ho | ho
    · exact .inl (ho ▸ h)
    · exact .inr (ho ▸ h)

/-- The children after hoisting: those from before, the hoisted variants, and what they handed over. -/
theorem mem_children_hoisted {c : Schema} (hws : (n.variants v).getD [] = ws.map .object)
    (h : c ∈ k.children ((n.hoisted v ws).field k)) :
    (k ≠ v.keyword ∧ c ∈ k.children (n.field k)) ∨ (k = v.keyword ∧ ∃ w ∈ ws, c = .object (hoistedVariant w)) ∨
      k = .properties ∧ ∃ w ∈ ws, ∃ q ∈ w.properties, ∃ description, c = describedTag description q.2 := by
  by_cases hk : k = v.keyword
  · subst hk
    have hc : c ∈ ((n.hoisted v ws).variants v).getD [] := by cases v <;> exact h
    rw [variants_hoisted hws] at hc
    obtain ⟨w, hw, rfl⟩ := List.mem_map.1 hc
    exact .inr (.inl ⟨rfl, w, hw, rfl⟩)
  by_cases ht : k = .type
  · subst ht; cases h
  by_cases hp : k = .properties
  · subst hp
    have hc : c ∈ (received v n.properties ws).map Prod.snd := by cases v <;> exact h
    obtain ⟨p, hp, rfl⟩ := List.mem_map.1 hc
    rcases mem_received hp with hp | ⟨w, hw, q, hq, description, rfl⟩
    · exact .inl ⟨hk, List.mem_map_of_mem hp⟩
    · exact .inr (.inr ⟨rfl, w, hw, q, hq, description, rfl⟩)
  rw [field_hoisted hk ht hp] at h
  exact .inl ⟨hk, h⟩

theorem mem_unionVariants {w : ObjectSchema} (hws : (n.variants v).getD [] = ws.map .object) (hw : w ∈ ws) :
    .object w ∈ n.unionVariants := by
  have hm : Schema.object w ∈ (n.variants v).getD [] := by rw [hws]; exact List.mem_map_of_mem hw
  cases v
  · exact List.mem_append_left _ hm
  · exact List.mem_append_right _ hm

/-- The variants of a union are those of both, if the other one is empty. -/
theorem unionVariants_eq (hws : (n.variants v).getD [] = ws.map .object)
    (hother : ∀ v', v' ≠ v → (n.variants v').getD [] = []) : n.unionVariants = ws.map .object := by
  cases v with
  | oneOf =>
    have hany : n.anyOf.getD [] = [] := hother .anyOf nofun
    rw [unionVariants, hany, List.append_nil]
    exact hws
  | anyOf =>
    have hone : n.oneOf.getD [] = [] := hother .oneOf nofun
    rw [unionVariants, hone, List.nil_append]
    exact hws

/-- The children after hoisting from a union, if the other one is empty. -/
theorem passed_hoisted {c : Schema} (hws : (n.variants v).getD [] = ws.map .object)
    (hother : ∀ v', v' ≠ v → (n.variants v').getD [] = []) (h : c ∈ k.children ((n.hoisted v ws).field k)) :
    n.Passed k c := by
  rcases mem_children_hoisted hws h with ⟨hk, hc⟩ | ⟨rfl, w, hw, rfl⟩ | ⟨rfl, w, hw, q, hq, description, rfl⟩
  · have hempty (v' : Union) : k ≠ v'.keyword := by
      rintro rfl
      have hn : (n.variants v').getD [] = [] := hother v' (fun e => hk (e ▸ rfl))
      have hmem : c ∈ (n.variants v').getD [] := by cases v' <;> exact hc
      rw [hn] at hmem
      cases hmem
    exact .own (hempty .oneOf) (hempty .anyOf) hc
  · exact .variant v (mem_unionVariants hws hw)
  · exact .tag description (mem_unionVariants hws hw) hq

end Node

namespace Options

open Node

variable {o : Options} {n m u : ObjectSchema} {k : Keyword} {c : Schema}

theorem mem_children_cleanEnum (h : c ∈ k.children ((o.cleanEnum n).field k)) : c ∈ k.children (n.field k) := by
  by_cases hk : k = .enum
  · subst hk; cases h
  · rwa [field_cleanEnum hk] at h

/-- The children of the overlay of an entry over its parent. -/
theorem passed_overlay {e : ObjectSchema} (hone : n.oneOf.getD [] = []) (he : n.IsOptional e)
    (h : c ∈ k.children ((Node.overlay { n with anyOf := none } e).field k)) : n.Passed k c := by
  rcases mem_children_overlay h with h | h
  · exact .entry (List.mem_append_right _ he.mem) h
  · by_cases hk : k = .oneOf
    · subst hk
      have h : c ∈ n.oneOf.getD [] := h
      rw [hone] at h
      cases h
    · by_cases hk' : k = .anyOf
      · subst hk'; cases h
      · refine .own hk hk' ?_
        cases k <;> first | exact h | contradiction

/-- Where the children come from that the settled unions leave. -/
theorem passed_of_settlesUnions (h : o.SettlesUnions n u) (hc : c ∈ k.children (u.field k)) : n.Passed k c := by
  cases h with
  | @enumerated t ws hone hany hne henums =>
    have hc := mem_children_cleanEnum hc
    by_cases ht : k = .type
    · subst ht; cases hc
    by_cases he : k = .enum
    · subst he; cases hc
    by_cases ho : k = .oneOf
    · subst ho; cases hc
    rw [field_enumerated ht he ho] at hc
    refine .own ho (fun e => ?_) hc
    subst e
    have hc : c ∈ n.anyOf.getD [] := hc
    rw [hany] at hc
    cases hc
  | @optional e _ hone hany hagree hresult =>
    apply passed_overlay hone hany
    rcases hresult with rfl | rfl
    · exact mem_children_cleanEnum hc
    · exact mem_children_cleanEnum (mem_children_dropEmptyOneOf hc)
  | @tagged ws hone hany hobjects htags =>
    have hp : (o.cleanEnum n).Passed k c := by
      refine passed_hoisted (by simpa [variants] using hone) (fun v hv => ?_)
        (mem_children_takenEnums (mem_children_dropEmptyOneOf hc))
      cases v
      · exact absurd rfl hv
      · simpa [variants] using hany
    exact hp.of_subset (fun _ _ => mem_children_cleanEnum)
  | @untagged ws hone hany hpair =>
    have hp : (o.cleanEnum n).dropEmptyOneOf.Passed k c := by
      refine passed_hoisted (by simpa [variants] using hany) (fun v hv => ?_) hc
      cases v
      · obtain ⟨l, hl, hd, -⟩ := dropEmptyOneOf_eq (o.cleanEnum n)
        rw [variants, hl, hd, oneOf_cleanEnum, hone]
      · exact absurd rfl hv
    exact hp.of_subset (fun _ _ hc => mem_children_cleanEnum (mem_children_dropEmptyOneOf hc))

theorem passed_of_finish (hc : c ∈ k.children ((o.finish n).field k)) : c ∈ k.children (n.field k) := by
  by_cases ha : k = .additionalProperties
  · subst ha
    obtain ⟨a, x, h, ⟨rfl, -⟩ | ⟨rfl, -⟩⟩ := finish_eq o n
    · rw [h] at hc
      exact hc
    · rw [h] at hc
      cases hc
  · by_cases hu : k = .uniqueItems
    · subst hu; cases hc
    · rwa [field_finish ha hu] at hc

/-- Where the children come from that settling leaves. -/
theorem passed_of_settle {path : Pointer} (hn : (Schema.object n).Regular) (h : (o.settle path n).outcome = .ok m)
    (hc : c ∈ k.children (m.field k)) : n.Passed k c := by
  obtain ⟨u, hu, rfl⟩ := settle_eq_ok hn h
  exact passed_of_settlesUnions hu (passed_of_finish hc)

end Options

/-! ## Variants -/

namespace Options

open Node

variable {o : Options} {n u : ObjectSchema}

theorem getD_filter_oneOf {n : ObjectSchema} {l : List Schema} (h : n.oneOf.getD [] = l) :
    n.takenEnums.dropEmptyOneOf.oneOf.getD [] = l.filter (fun s => !hasEnum s) := by
  obtain ⟨l', hl', hd, -⟩ := dropEmptyOneOf_eq n.takenEnums
  rw [hl', hd, ← h]
  cases ho : n.oneOf <;> simp [takenEnums, ho]

theorem types_cleanEnum : (o.cleanEnum n).types = n.types := field_cleanEnum (k := .type) nofun

theorem types_dropEmptyOneOf : n.dropEmptyOneOf.types = n.types := field_dropEmptyOneOf (k := .type) nofun

theorem types_finish : (o.finish n).types = n.types := field_finish (k := .type) nofun nofun

/-- A parent is about objects if it takes in what a variant with object keywords hands to it. -/
theorem types_hoisted {ws : List ObjectSchema} {v : Union} {w : ObjectSchema} (hw : w ∈ ws)
    (hk : w.hasObjectKeywords = true) : (n.hoisted v ws).types = some (.one .object) := by
  have hany : ws.any hasObjectKeywords = true := List.any_eq_true.2 ⟨w, hw, hk⟩
  have ht : (n.receive v ws).types = some (.one .object) := if_pos hany
  cases v <;> exact ht

/-- A type that is there stays when enums are taken. -/
theorem types_takenEnums {t : OneOrMany PrimitiveType} (h : n.types = some t) : n.takenEnums.types = some t := by
  show takenType n.types _ = some t
  rw [h, takenType_eq_or, Option.some_or]

/-- The unions of a settled schema object: none, those of the entry of an optional, or one with hoisted variants. The
type is that of the entry, or comes from a variant with object keywords. -/
theorem unions_of_settlesUnions (h : o.SettlesUnions n u) :
    (u.oneOf.getD [] = [] ∧ u.anyOf.getD [] = []) ∨
      (∃ e, n.IsOptional e ∧ u.types = e.types ∧ u.oneOf.getD [] = e.oneOf.getD [] ∧ u.anyOf = e.anyOf) ∨
      (∃ ws : List ObjectSchema, n.oneOf.getD [] = ws.map .object ∧
        (∀ w ∈ ws, w.hasObjectKeywords = true → u.types = some (.one .object)) ∧ u.anyOf.getD [] = [] ∧
        u.oneOf.getD [] = (ws.map (fun w => .object (hoistedVariant w))).filter (fun s => !hasEnum s)) ∨
      ∃ ws : List ObjectSchema, n.anyOf.getD [] = ws.map .object ∧
        (∀ w ∈ ws, w.hasObjectKeywords = true → u.types = some (.one .object)) ∧ u.oneOf.getD [] = [] ∧
        u.anyOf.getD [] = ws.map (fun w => .object (hoistedVariant w)) := by
  cases h with
  | enumerated hone hany =>
    refine .inl ⟨?_, ?_⟩
    · rw [oneOf_cleanEnum]
      rfl
    · rw [anyOf_cleanEnum]
      exact hany
  | @optional e _ hone hany hagree hresult =>
    have hover : (e.oneOf.or n.oneOf).getD [] = e.oneOf.getD [] := by cases e.oneOf <;> simp [hone]
    have hor : e.anyOf.or none = e.anyOf := by cases e.anyOf <;> rfl
    refine .inr (.inl ⟨e, hany, ?_⟩)
    rcases hresult with rfl | rfl
    · rw [oneOf_cleanEnum, anyOf_cleanEnum]
      exact ⟨types_cleanEnum, hover, hor⟩
    · obtain ⟨l, hl, hd, -⟩ := dropEmptyOneOf_eq (o.cleanEnum (Node.overlay { n with anyOf := none } e))
      rw [anyOf_dropEmptyOneOf, anyOf_cleanEnum, types_dropEmptyOneOf, hl, hd, oneOf_cleanEnum]
      exact ⟨types_cleanEnum, hover, hor⟩
  | @tagged ws hone hany =>
    refine .inr (.inr (.inl ⟨ws, hone, fun w hw hk => ?_, ?_, ?_⟩))
    · rw [types_dropEmptyOneOf]
      exact types_takenEnums (types_hoisted hw hk)
    · rw [anyOf_dropEmptyOneOf]
      show (o.cleanEnum n).anyOf.getD [] = []
      rw [anyOf_cleanEnum, hany]
    · exact getD_filter_oneOf (variants_hoisted (u := .oneOf) (by rw [variants, oneOf_cleanEnum, hone]))
  | @untagged ws hone hany =>
    refine .inr (.inr (.inr ⟨ws, hany, fun w hw hk => types_hoisted hw hk, ?_, ?_⟩))
    · obtain ⟨l, hl, hd, -⟩ := dropEmptyOneOf_eq (o.cleanEnum n)
      show (o.cleanEnum n).dropEmptyOneOf.oneOf.getD [] = []
      rw [hl, hd, oneOf_cleanEnum, hone]
    · exact variants_hoisted (u := .anyOf) (by rw [variants, anyOf_dropEmptyOneOf, anyOf_cleanEnum, hany])

end Options

/-! ## Properties of all schema objects -/

namespace Node

variable {P : ObjectSchema → Prop} {n w : ObjectSchema} {k : Keyword} {c : Schema}

theorem mem_children_hoistedVariant (h : c ∈ k.children ((hoistedVariant w).field k)) :
    c ∈ k.children (w.field k) := by
  unfold hoistedVariant at h
  split at h
  · cases k <;> first | exact h | cases h
  · split at h
    · cases k <;> exact h
    · exact h

theorem everywhere_hoistedVariant (hP : P (hoistedVariant w)) (h : (Schema.object w).Everywhere P) :
    (Schema.object (hoistedVariant w)).Everywhere P := by
  refine .object hP fun c hc => ?_
  obtain ⟨k, hk⟩ := mem_children.1 hc
  exact h.child c (mem_children.2 ⟨k, mem_children_hoistedVariant hk⟩)

theorem everywhere_describedTag {description : Option String} {s : Schema}
    (hP : ∀ (n : ObjectSchema) (text : String), P n → P { n with description := some text }) (h : s.Everywhere P) :
    (describedTag description s).Everywhere P := by
  cases s with
  | bool b => exact h
  | object n =>
    cases description with
    | none => exact h
    | some text =>
      refine .object (hP n text h.here) fun c hc => h.child c ?_
      obtain ⟨k, hk⟩ := mem_children.1 hc
      refine mem_children.2 ⟨k, ?_⟩
      cases k <;> exact hk

/-- A property that hoisting and describing keep holds throughout what settling leaves. -/
theorem Passed.everywhere (hvariant : ∀ w, P w → P (hoistedVariant w))
    (htag : ∀ (n : ObjectSchema) (text : String), P n → P { n with description := some text })
    (hn : ∀ c ∈ n.children, c.Everywhere P) (h : n.Passed k c) : c.Everywhere P := by
  have hw {w : ObjectSchema} (hw : .object w ∈ n.unionVariants) : (Schema.object w).Everywhere P :=
    hn _ (unionVariants_subset_children hw)
  cases h with
  | own hone hany h => exact hn c (mem_children.2 ⟨k, h⟩)
  | variant v h => exact everywhere_hoistedVariant (hvariant _ (hw h).here) (hw h)
  | tag description h hq =>
    exact everywhere_describedTag htag ((hw h).child _ (mem_children.2 ⟨.properties, List.mem_map_of_mem hq⟩))
  | entry h hc => exact (hw h).child c (mem_children.2 ⟨k, hc⟩)

end Node

end KubeSchema
