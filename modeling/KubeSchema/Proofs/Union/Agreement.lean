import KubeSchema.Proofs.Alike.Members
import KubeSchema.Proofs.Union.Properties

/-!
# Declarations that agree

When hoisting properties succeeds, whoever declares a property declares it like the parent does afterwards: the two
schemas are the same, or written alike (`Schema.Agrees`).

* `foldlM_mergeProperty_eq_ok`: properties can be merged if those of one name are written alike (`Mergeable`).
* `hoistProperties_agrees`: each property of a variant agrees with that of the parent.
-/

namespace KubeSchema

/-- The same schema, or one that is written alike. -/
def Schema.Agrees (s s' : Schema) : Prop := s = s' ∨ s.isAlike s' = .ok true

theorem isAlike_eq_ok_true {s s' : Schema} :
    s.isAlike s' = .ok true ↔ ∃ a b, s.encode = .ok a ∧ s'.encode = .ok b ∧ a.Alike b := by
  simp only [Schema.isAlike, bind_eq_ok, pure_eq_ok, decide_eq_true_eq]
  constructor
  · rintro ⟨a, ha, b, hb, h⟩
    exact ⟨a, b, ha, hb, h⟩
  · rintro ⟨a, b, ha, hb, h⟩
    exact ⟨a, ha, b, hb, h⟩

theorem isAlike_symm {s s' : Schema} (h : s.isAlike s' = .ok true) : s'.isAlike s = .ok true := by
  obtain ⟨x, y, hx, hy, halike⟩ := isAlike_eq_ok_true.1 h
  exact isAlike_eq_ok_true.2 ⟨y, x, hy, hx, halike.symm⟩

theorem isAlike_trans {s s' s'' : Schema} (h : s.isAlike s' = .ok true) (h' : s'.isAlike s'' = .ok true) :
    s.isAlike s'' = .ok true := by
  obtain ⟨x, y, hx, hy, hxy⟩ := isAlike_eq_ok_true.1 h
  obtain ⟨y', z, hy', hz, hyz⟩ := isAlike_eq_ok_true.1 h'
  cases hy.symm.trans hy'
  exact isAlike_eq_ok_true.2 ⟨x, z, hx, hz, hxy.trans hyz⟩

namespace Node

variable {u : Union} {path place : Pointer} {n : ObjectSchema} {l l' ps ps' : List (String × Schema)}

/-! ## Merging -/

theorem get?_addProperty (l : List (String × Schema)) (p : String × Schema) (name : String) :
    Members.get? (addProperty l p) name = (Members.get? l name).or (if p.1 = name then some p.2 else none) := by
  unfold addProperty Members.has
  cases hl : Members.get? l name with
  | none =>
    split
    · next hp =>
      have hne : p.1 ≠ name := by
        rintro rfl
        rw [hl] at hp
        cases hp
      rw [hl, if_neg hne, Option.or_none]
    · rw [Members.get?_set, hl, Option.none_or]
  | some s =>
    split
    · rw [hl, Option.some_or]
    · next hp =>
      have hne : p.1 ≠ name := by
        rintro rfl
        rw [hl] at hp
        exact hp rfl
      rw [Members.get?_set, if_neg hne, hl, Option.some_or]

/-- The parent's own properties come first; of those handed over, the first one of a name it does not have. -/
theorem get?_foldl_addProperty (l ps : List (String × Schema)) (name : String) :
    Members.get? (ps.foldl addProperty l) name = (Members.get? l name).or (Members.get? ps name) := by
  induction ps generalizing l with
  | nil => simp
  | cons p ps ih =>
    obtain ⟨k, s⟩ := p
    rw [List.foldl_cons, ih, get?_addProperty, Members.get?_cons, Option.or_assoc]
    split
    · rw [Option.some_or]
    · rw [Option.none_or]

/-- A declared property keeps its schema. -/
theorem get?_foldl_addProperty_of_some {name : String} {s : Schema} (h : Members.get? l name = some s)
    (ps : List (String × Schema)) : Members.get? (ps.foldl addProperty l) name = some s := by
  rw [get?_foldl_addProperty, h, Option.some_or]

/-- A property is merged if the parent does not declare it, or declares it alike. -/
theorem mergeProperty_iff {p : String × Schema} : (mergeProperty place l p).outcome = .ok l' ↔
    l' = addProperty l p ∧ ∀ s, Members.get? l p.1 = some s → s.isAlike p.2 = .ok true := by
  unfold mergeProperty addProperty Members.has
  cases hg : Members.get? l p.1 with
  | none => simp [eq_comm]
  | some declared =>
    simp only [Traced.bind_eq_ok, Run.encoded_eq_ok, Option.isSome_some, ↓reduceIte, Option.some.injEq,
      forall_eq', isAlike_eq_ok_true]
    constructor
    · rintro ⟨x, hx, y, hy, h⟩
      split at h
      · next halike =>
        cases h
        exact ⟨rfl, x, y, hx, hy, halike⟩
      · cases h
    · rintro ⟨rfl, x, y, hx, hy, halike⟩
      exact ⟨x, hx, y, hy, by rw [if_pos halike]; rfl⟩

/-- Properties that can be merged with declared ones: those of one name are written alike. -/
structure Mergeable (l ps : List (String × Schema)) : Prop where
  declared : ∀ p ∈ ps, ∀ s, Members.get? l p.1 = some s → s.isAlike p.2 = .ok true
  pairwise : ps.Pairwise (fun p q => p.1 = q.1 → p.2.isAlike q.2 = .ok true)

theorem mergeable_nil : Mergeable l [] := ⟨nofun, .nil⟩

theorem mergeable_cons {p : String × Schema} :
    Mergeable l (p :: ps) ↔
      (∀ s, Members.get? l p.1 = some s → s.isAlike p.2 = .ok true) ∧ Mergeable (addProperty l p) ps := by
  constructor
  · intro h
    obtain ⟨hp, hrest⟩ := List.forall_mem_cons.1 h.declared
    obtain ⟨hhead, htail⟩ := List.pairwise_cons.1 h.pairwise
    refine ⟨hp, fun q hq s hs => ?_, htail⟩
    rw [get?_addProperty, Option.or_eq_some_iff] at hs
    rcases hs with hs | ⟨-, hs⟩
    · exact hrest q hq s hs
    · split at hs
      · next hname =>
        cases hs
        exact hhead q hq hname
      · cases hs
  · rintro ⟨hp, h⟩
    refine ⟨List.forall_mem_cons.2 ⟨hp, fun q hq s hs => h.declared q hq s ?_⟩,
      List.pairwise_cons.2 ⟨fun q hq hname => ?_, h.pairwise⟩⟩
    · rw [get?_addProperty, hs, Option.some_or]
    · -- Both are written like what is declared under their name after the first of them.
      have hq := h.declared q hq
      rw [get?_addProperty, ← hname, if_pos rfl] at hq
      cases hl : Members.get? l p.1 with
      | none => exact hq p.2 (by rw [hl, Option.none_or])
      | some s => exact isAlike_trans (isAlike_symm (hp s hl)) (hq s (by rw [hl, Option.some_or]))

theorem mergeable_append :
    Mergeable l (ps ++ ps') ↔ Mergeable l ps ∧ Mergeable (ps.foldl addProperty l) ps' := by
  induction ps generalizing l with
  | nil => simp [mergeable_nil]
  | cons p ps ih => simp only [List.cons_append, mergeable_cons, ih, List.foldl_cons, and_assoc]

theorem mergeable_iff_of_distinct (hd : Members.Distinct ps) :
    Mergeable l ps ↔ ∀ p ∈ ps, ∀ s, Members.get? l p.1 = some s → s.isAlike p.2 = .ok true :=
  ⟨Mergeable.declared, fun h => ⟨h, (List.pairwise_map.1 hd).imp fun hne hname => absurd hname hne⟩⟩

theorem foldlM_mergeProperty_eq_ok : (ps.foldlM (mergeProperty place) l).outcome = .ok l' ↔
    l' = ps.foldl addProperty l ∧ Mergeable l ps := by
  induction ps generalizing l with
  | nil => simp [mergeable_nil, eq_comm]
  | cons p ps ih =>
    simp only [List.foldlM_cons, Traced.bind_eq_ok, mergeProperty_iff, ih, List.foldl_cons, mergeable_cons]
    constructor
    · rintro ⟨_, ⟨rfl, hp⟩, rfl, h⟩
      exact ⟨rfl, hp, h⟩
    · rintro ⟨rfl, hp, h⟩
      exact ⟨_, ⟨rfl, hp⟩, rfl, h⟩

theorem mergeProperty_agrees {p : String × Schema} (h : (mergeProperty place l p).outcome = .ok l') :
    ∃ s, Members.get? l' p.1 = some s ∧ s.Agrees p.2 := by
  obtain ⟨rfl, hdeclared⟩ := mergeProperty_iff.1 h
  rw [get?_addProperty, if_pos rfl]
  cases hl : Members.get? l p.1 with
  | none => exact ⟨p.2, rfl, .inl rfl⟩
  | some s => exact ⟨s, rfl, .inr (hdeclared s hl)⟩

theorem mergeProperties_agree {handed : List (String × Schema)}
    (h : (handed.foldlM (mergeProperty place) l).outcome = .ok l') :
    ∀ p ∈ handed, ∃ s, Members.get? l' p.1 = some s ∧ s.Agrees p.2 := by
  induction handed generalizing l with
  | nil => nofun
  | cons p handed ih =>
    rw [List.foldlM_cons, Traced.bind_eq_ok] at h
    obtain ⟨l₁, hp, h⟩ := h
    refine List.forall_mem_cons.2 ⟨?_, ih h⟩
    obtain ⟨s, hs, hagrees⟩ := mergeProperty_agrees hp
    rw [mergeProperties_eq_ok h]
    exact ⟨s, get?_foldl_addProperty_of_some hs handed, hagrees⟩

/-! ## Hoisting -/

theorem hoistVariants_agree {index : Nat} {vs : List Schema} {r : Hoisted}
    (h : (hoistVariants u path index n vs).outcome = .ok r) :
    ∀ v, .object v ∈ vs → ∀ p ∈ handed u v, ∃ s, Members.get? r.parent.properties p.1 = some s ∧ s.Agrees p.2 := by
  intro v hv
  induction vs generalizing n index r with
  | nil => cases hv
  | cons s vs ih =>
    cases s with
    | bool b => cases h
    | object w =>
      rw [hoistVariants] at h
      cases hk : w.hasObjectKeywords with
      | true =>
        simp only [hk, ↓reduceIte, Traced.bind_eq_ok, Traced.pure_eq_ok] at h
        obtain ⟨l, hl, properties, hm, rest, hrest, rfl⟩ := h
        rcases List.mem_cons.1 hv with hv | hv
        · -- What the variant hands over is merged here, and what follows leaves it in its place.
          cases hv
          intro p hp
          obtain ⟨s, hs, hagrees⟩ := mergeProperties_agree hm p ((handedProperties_eq_ok hl).1 ▸ hp)
          obtain ⟨ws, -, hparent, -⟩ := hoistVariants_eq_ok hrest
          refine ⟨s, ?_, hagrees⟩
          show Members.get? rest.parent.properties p.1 = some s
          rw [hparent]
          exact get?_foldl_addProperty_of_some hs _
        · exact (ih hrest hv :)
      | false =>
        -- A variant without object keywords has nothing to hand over.
        have hnothing : handed u w = [] := handed_of_not_hasObjectKeywords hk
        cases hb : w.isOnly .object <;>
          simp only [hk, hb, Bool.false_eq_true, ↓reduceIte, Traced.bind_eq_ok, Traced.pure_eq_ok] at h
        all_goals
          obtain ⟨rest, hrest, rfl⟩ := h
          rcases List.mem_cons.1 hv with hv | hv
          · cases hv
            rw [hnothing]
            exact fun p hp => absurd hp List.not_mem_nil
          · exact (ih hrest hv :)

/-- Each property that a variant hands over agrees with the property of that name after the hoisting. -/
theorem hoistProperties_agrees {r : Option ObjectSchema} (h : (hoistProperties u path n).outcome = .ok r)
    {v : ObjectSchema} (hv : .object v ∈ (n.variants u).getD []) {p : String × Schema} (hp : p ∈ handed u v) :
    ∃ s, Members.get? (r.getD n).properties p.1 = some s ∧ s.Agrees p.2 := by
  unfold hoistProperties at h
  split at h
  · cases h
  · obtain ⟨hoist, hvariants, h⟩ := Traced.bind_eq_ok.1 h
    obtain ⟨s, hs, hagrees⟩ := hoistVariants_agree hvariants v hv p hp
    refine ⟨s, ?_, hagrees⟩
    split at h
    · obtain ⟨-, -, h⟩ := Traced.bind_eq_ok.1 h
      cases h
      cases u <;> exact hs
    · next hchanged =>
      obtain ⟨ws, hws, -, -, hc, -⟩ := hoistVariants_eq_ok hvariants
      rw [hws] at hv
      obtain ⟨w, hw, hwv⟩ := List.mem_map.1 hv
      cases hwv
      rw [hc, Bool.not_eq_true, List.any_eq_false] at hchanged
      have hk : v.hasObjectKeywords = false := by
        have := hchanged v hw
        rw [Bool.not_eq_true, Bool.or_eq_false_iff] at this
        exact this.1
      rw [handed_of_not_hasObjectKeywords hk] at hp
      cases hp

end Node

end KubeSchema
