import KubeSchema.Proofs.Alike.Members
import KubeSchema.Proofs.Schema.Child
import KubeSchema.Cleanup

/-!
# Schemas up to the order of members

Two schemas are like each other (`Schema.Like`) if they have the same keywords with the same values, but for the order
of the members of objects, of the properties, and of the keywords that are not modeled.

* `Schema.Like.cases`: a boolean schema is only like itself, and a schema object is like one with like children.
* `Node.Like.of_fields`: schema objects that change alike stay like each other.
* `Node.Like.hasObjectKeywords_eq` and others: what does not depend on the order.
-/

namespace KubeSchema

variable {ρ σ τ : Schema → Schema → Prop}

/-! ## Fields -/

/-- Fields that are the same up to the order of members, with related child schemas. -/
def Keyword.Like (ρ : Schema → Schema → Prop) : (k : Keyword) → k.Value → k.Value → Prop
  | .default, (a : Option Json), (b : Option Json) => Option.Rel Json.Alike a b
  | .enum, (a : Option (List Json)), (b : Option (List Json)) => Option.Rel (List.Forall₂ Json.Alike) a b
  | .properties, (a : List (String × Schema)), (b : List (String × Schema)) => Members.Like ρ a b
  | .patternProperties, (a : List (String × Schema)), (b : List (String × Schema)) => Members.Like ρ a b
  | k, a, b => k.Rel ρ a b

theorem OneOrMany.Rel.imp {α β : Type} {ρ σ : α → β → Prop} {a : OneOrMany α} {b : OneOrMany β} (h : Rel ρ a b)
    (hρ : ∀ x y, ρ x y → σ x y) : Rel σ a b := by
  cases h with
  | one h => exact .one (hρ _ _ h)
  | many h => exact .many (h.imp hρ)

theorem OneOrMany.Rel.flip {α β : Type} {ρ : α → β → Prop} {a : OneOrMany α} {b : OneOrMany β} (h : Rel ρ a b) :
    Rel (fun y x => ρ x y) b a := by
  cases h with
  | one h => exact .one h
  | many h => exact .many h.flip

theorem OneOrMany.Rel.trans {α β γ : Type} {ρ : α → β → Prop} {σ : β → γ → Prop} {τ : α → γ → Prop}
    {a : OneOrMany α} {b : OneOrMany β} {c : OneOrMany γ} (h : Rel ρ a b) (h' : Rel σ b c)
    (hτ : ∀ x y z, ρ x y → σ y z → τ x z) : Rel τ a c := by
  cases h with
  | one h =>
    cases h' with
    | one h' => exact .one (hτ _ _ _ h h')
  | many h =>
    cases h' with
    | many h' => exact .many (forall₂_trans h h' hτ)

theorem Keyword.Like.imp {k : Keyword} {a b : k.Value} (h : k.Like ρ a b) (hρ : ∀ c c', ρ c c' → σ c c') :
    k.Like σ a b := by
  cases k
  case anyOf | oneOf => exact rel_imp h fun _ _ h => h.imp hρ
  case items => exact rel_imp h fun _ _ h => h.imp hρ
  case additionalItems | contains | additionalProperties | propertyNames => exact rel_imp h hρ
  case properties | patternProperties => exact Members.Like.imp h hρ
  all_goals exact h

theorem Keyword.Like.flip {k : Keyword} {a b : k.Value} (h : k.Like ρ a b) : k.Like (fun c' c => ρ c c') b a := by
  cases k
  case default => exact rel_imp (rel_flip h) fun _ _ h => h.symm
  case enum => exact rel_imp (rel_flip h) fun _ _ h => h.flip.imp fun _ _ h => h.symm
  case anyOf | oneOf => exact rel_imp (rel_flip h) fun _ _ h => h.flip
  case items => exact rel_imp (rel_flip h) fun _ _ h => h.flip
  case additionalItems | contains | additionalProperties | propertyNames => exact rel_flip h
  case properties | patternProperties => exact Members.Like.flip h
  all_goals exact Eq.symm h

theorem Keyword.Like.trans {k : Keyword} {a b c : k.Value} (h : k.Like ρ a b) (h' : k.Like σ b c)
    (hτ : ∀ x y z, ρ x y → σ y z → τ x z) : k.Like τ a c := by
  cases k
  case default => exact rel_trans h h' fun _ _ _ h h' => h.trans h'
  case enum => exact rel_trans h h' fun _ _ _ h h' => forall₂_trans h h' fun _ _ _ h h' => h.trans h'
  case anyOf | oneOf => exact rel_trans h h' fun _ _ _ h h' => forall₂_trans h h' hτ
  case items => exact rel_trans h h' fun _ _ _ h h' => h.trans h' hτ
  case additionalItems | contains | additionalProperties | propertyNames => exact rel_trans h h' hτ
  case properties | patternProperties => exact Members.Like.trans h h' hτ
  all_goals exact Eq.trans h h'

/-! ## Schema objects -/

/-- Schema objects that are the same up to the order of members, with related child schemas. -/
structure Node.Like (ρ : Schema → Schema → Prop) (n m : ObjectSchema) : Prop where
  fields : ∀ k : Keyword, k.Like ρ (n.field k) (m.field k)
  extensions : Members.Like Json.Alike n.extensions m.extensions
  other : Members.Like Json.Alike n.other m.other

namespace Node.Like

variable {n m n' m' : ObjectSchema}

theorem imp (h : n.Like ρ m) (hρ : ∀ c c', ρ c c' → σ c c') : n.Like σ m :=
  ⟨fun k => (h.fields k).imp hρ, h.extensions, h.other⟩

theorem flip (h : n.Like ρ m) : m.Like (fun c' c => ρ c c') n :=
  ⟨fun k => (h.fields k).flip, h.extensions.flip.imp fun _ _ h => h.symm, h.other.flip.imp fun _ _ h => h.symm⟩

theorem trans {k : ObjectSchema} (h : n.Like ρ m) (h' : m.Like σ k) (hτ : ∀ x y z, ρ x y → σ y z → τ x z) :
    n.Like τ k :=
  ⟨fun l => (h.fields l).trans (h'.fields l) hτ, h.extensions.trans h'.extensions fun _ _ _ h h' => h.trans h',
    h.other.trans h'.other fun _ _ _ h h' => h.trans h'⟩

/-- Schema objects stay like each other if their fields stay or become alike. -/
theorem of_fields (h : n.Like ρ m) (he : Members.Like Json.Alike n'.extensions m'.extensions)
    (ho : Members.Like Json.Alike n'.other m'.other)
    (hf : ∀ k : Keyword, (n'.field k = n.field k ∧ m'.field k = m.field k) ∨ k.Like ρ (n'.field k) (m'.field k)) :
    n'.Like ρ m' := by
  refine ⟨fun k => ?_, he, ho⟩
  rcases hf k with ⟨hn, hm⟩ | hk
  · rw [hn, hm]
    exact h.fields k
  · exact hk

theorem types_eq (h : n.Like ρ m) : n.types = m.types := h.fields .type

theorem description_eq (h : n.Like ρ m) : n.description = m.description := h.fields .description

theorem enum (h : n.Like ρ m) : Option.Rel (List.Forall₂ Json.Alike) n.enum m.enum := h.fields .enum

theorem variants (h : n.Like ρ m) (u : Union) : Option.Rel (List.Forall₂ ρ) (n.variants u) (m.variants u) := by
  cases u
  · exact h.fields .oneOf
  · exact h.fields .anyOf

theorem properties (h : n.Like ρ m) : Members.Like ρ n.properties m.properties := h.fields .properties

theorem additionalProperties (h : n.Like ρ m) : Option.Rel ρ n.additionalProperties m.additionalProperties :=
  h.fields .additionalProperties

/-! ## What does not depend on the order -/

theorem hasObjectKeywords_eq (h : n.Like ρ m) : n.hasObjectKeywords = m.hasObjectKeywords := by
  have hmax : n.maxProperties = m.maxProperties := h.fields .maxProperties
  have hmin : n.minProperties = m.minProperties := h.fields .minProperties
  have hrequired : n.required = m.required := h.fields .required
  have hpatterns : Members.Like ρ n.patternProperties m.patternProperties := h.fields .patternProperties
  have hnames : Option.Rel ρ n.propertyNames m.propertyNames := h.fields .propertyNames
  simp only [Node.hasObjectKeywords, hmax, hmin, hrequired, h.properties.isEmpty_eq, hpatterns.isEmpty_eq,
    isSome_eq_of_rel h.additionalProperties, isSome_eq_of_rel hnames]

theorem isOnly_eq (h : n.Like ρ m) (t : PrimitiveType) : n.isOnly t = m.isOnly t := by
  rw [Node.isOnly, Node.isOnly, h.types_eq]

theorem isAboutObjects_eq (h : n.Like ρ m) : n.isAboutObjects = m.isAboutObjects := by
  rw [Node.isAboutObjects, Node.isAboutObjects, h.hasObjectKeywords_eq, h.types_eq]

theorem getD_variants (h : n.Like ρ m) (u : Union) :
    List.Forall₂ ρ ((n.variants u).getD []) ((m.variants u).getD []) := forall₂_getD (h.variants u)

theorem hasVariants_eq (h : n.Like ρ m) (u : Union) : n.hasVariants u = m.hasVariants u :=
  congrArg Bool.not (isEmpty_eq_of_forall₂ (h.getD_variants u))

theorem hasConflictingUnions_eq (h : n.Like ρ m) : n.hasConflictingUnions = m.hasConflictingUnions := by
  rw [Node.hasConflictingUnions, Node.hasConflictingUnions, h.hasVariants_eq, h.hasVariants_eq]

theorem isNullable_eq (h : n.Like ρ m) : n.isNullable = m.isNullable := by
  unfold Node.isNullable
  exact decide_eq_decide.2 (Json.eq_bool_of_alike (h.extensions.values nullableKeyword) true)

end Node.Like

/-! ## Schemas -/

/-- Schemas that are the same up to the order of members. -/
inductive Schema.Like : Schema → Schema → Prop
  | bool (b : Bool) : Like (.bool b) (.bool b)
  /-- The child schemas are related by some relation of schemas that are like each other. -/
  | object {n m : ObjectSchema} (ρ : Schema → Schema → Prop) (hρ : ∀ c c', ρ c c' → Like c c') (h : n.Like ρ m) :
      Like (.object n) (.object m)

namespace Schema.Like

variable {n m : ObjectSchema} {s s' : Schema}

theorem of_node (h : n.Like Schema.Like m) : Schema.Like (.object n) (.object m) :=
  .object Schema.Like (fun _ _ h => h) h

theorem cases (h : s.Like s') :
    (∃ b, s = .bool b ∧ s' = .bool b) ∨
      ∃ n m : ObjectSchema, s = .object n ∧ s' = .object m ∧ n.Like Schema.Like m := by
  cases h with
  | bool b => exact .inl ⟨b, rfl, rfl⟩
  | object ρ hρ h => exact .inr ⟨_, _, rfl, rfl, h.imp hρ⟩

theorem symm (h : s.Like s') : s'.Like s := by
  induction h with
  | bool b => exact .bool b
  | object ρ _ h ih => exact .object (fun c' c => ρ c c') (fun c' c hc => ih c c' hc) h.flip

theorem trans {t : Schema} (h : s.Like s') (h' : s'.Like t) : s.Like t := by
  induction h generalizing t with
  | bool b => exact h'
  | object ρ _ h ih =>
    rcases h'.cases with ⟨b, e, -⟩ | ⟨m, k, e, rfl, hmk⟩
    · cases e
    · cases e
      exact .of_node (h.trans hmk fun x y _ hxy hyz => ih x y hxy hyz)

end Schema.Like

theorem Node.Like.symm {n m : ObjectSchema} (h : n.Like Schema.Like m) : m.Like Schema.Like n :=
  h.flip.imp fun _ _ h => h.symm

end KubeSchema
