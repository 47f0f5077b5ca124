import KubeSchema.Proofs.Restructuring
import KubeSchema.Proofs.Union.NullEntry

/-!
# Nested untagged unions

How deep untagged unions are nested in one another (`Node.Nests`): restructuring never makes them deeper, for an
optional loses a level to its parent. So a variant is not restructured as a schema object that has it as a variant.

* `Restructures.nests`: what is nested in a result was nested before.
* `not_mem_of_rewrites`: a variant does not come to be a variant of its own result.
-/

namespace KubeSchema

namespace Node

/-- Untagged unions are nested to a depth. -/
inductive Nests : Nat → ObjectSchema → Prop
  | zero (n : ObjectSchema) : Nests 0 n
  | succ {k : Nat} {n w : ObjectSchema} (hw : .object w ∈ n.anyOf.getD []) (h : Nests k w) : Nests (k + 1) n

variable {k : Nat} {n w : ObjectSchema}

theorem Nests.pred (h : Nests (k + 1) n) : Nests k n := by
  induction k generalizing n with
  | zero => exact .zero n
  | succ k ih =>
    cases h with
    | succ hw h => exact .succ hw (ih h)

theorem nests_hoistedVariant (h : Nests k (hoistedVariant w)) : Nests k w := by
  have hany : (hoistedVariant w).anyOf = w.anyOf := by
    obtain ⟨_, _, _, _, _, heq⟩ := hoistedVariant_eq w
    rw [heq]
  cases h with
  | zero => exact .zero w
  | succ hv h => exact .succ (hany ▸ hv) h

/-- No schema is nested deeper than it is large. -/
theorem Nests.le_sizeOf (h : Nests k n) : k ≤ sizeOf n := by
  induction h with
  | zero => exact Nat.zero_le _
  | @succ k n w hw _ ih =>
    have hsize : sizeOf (Schema.object w) < sizeOf n := sizeOf_child (mem_children.2 ⟨.anyOf, hw⟩)
    simp only [Schema.object.sizeOf_spec] at hsize
    omega

end Node

namespace Options

open Node

variable {o : Options} {n m e w : ObjectSchema} {k : Nat}

/-- Schema objects are nested no deeper after they were settled. -/
theorem nests_of_settlesUnions {u : ObjectSchema} (h : o.SettlesUnions n u) (hu : Nests (k + 1) u) :
    ∃ w, .object w ∈ n.anyOf.getD [] ∧ Nests k w := by
  cases hu with
  | @succ _ _ w hw hk =>
    rcases unions_of_settlesUnions h with
      ⟨-, hany⟩ | ⟨e, he, -, -, hany⟩ | ⟨ws, -, -, hany, -⟩ | ⟨ws, hws, -, -, hany⟩
    · rw [hany] at hw
      cases hw
    · rw [hany] at hw
      have hdeep : Nests (k + 1) e := .succ hw hk
      exact ⟨e, he.mem, hdeep.pred⟩
    · rw [hany] at hw
      cases hw
    · rw [hany] at hw
      obtain ⟨w', hw', e⟩ := List.mem_map.1 hw
      cases e
      exact ⟨w', by rw [hws]; exact List.mem_map_of_mem hw', nests_hoistedVariant hk⟩

/-- What is nested in a result was nested before. -/
theorem Restructures.nests {v r : Json} (hkey : isVendor o.preserveKey = true) (hd : v.hasDistinctNames = true)
    (h : o.Restructures v r) (hn : Node.decode v = .ok n) (hm : Node.decode r = .ok m) (hk : Nests k m) :
    Nests k n := by
  induction v using Json.induction generalizing r n m k with
  | h v ih =>
    cases k with
    | zero => exact .zero n
    | succ k =>
      obtain ⟨ms, rfl⟩ := exists_obj_of_decode hn
      obtain ⟨ms', hslots, hms, hr⟩ := h.of_obj hkey hd
      obtain ⟨n', hn', hrel⟩ := exists_decode_of_slots hslots hn
      rcases hr with ⟨e, he, rfl⟩ | ⟨path, n'', m', hn'', hsettle, -, hdec⟩
      · cases he.symm.trans hn'
      · cases hn''.symm.trans hn'
        cases hdec.symm.trans hm
        obtain ⟨u, hu, rfl⟩ := settle_eq_ok (regular_of_decode hms hn') hsettle
        have hany : (o.finish u).anyOf = u.anyOf := field_finish (k := .anyOf) nofun nofun
        have hku : Nests (k + 1) u := by
          cases hk with
          | succ hw hk => exact .succ (hany ▸ hw) hk
        obtain ⟨w', hw', hkw⟩ := nests_of_settlesUnions hu hku
        obtain ⟨s, hs, hρ⟩ := exists_of_mem_right (forall₂_variants hrel .anyOf) hw'
        rcases hρ.cases with ⟨b, -, e⟩ | ⟨x, hx, x', w, w'', hr, hw, hw'', rfl, e⟩
        · cases e
        · cases e
          exact .succ hs (ih x hx (Json.hasDistinctNames_child hd hx) hr hw hw'' hkw)

/-- A variant does not come to be a variant of its own result. -/
theorem not_mem_of_rewrites {ms : Members Json} (hkey : isVendor o.preserveKey = true)
    (hd : (Json.obj ms).hasDistinctNames = true) (h : o.Rewrites ms (.object w) (.object e)) :
    .object w ∉ e.anyOf.getD [] := by
  intro hmem
  have hdeeper (k : Nat) (hk : Nests k w) : Nests (k + 1) w := by
    obtain ⟨x, hx, x', hr, hw, he⟩ := h
    exact hr.nests hkey (Json.hasDistinctNames_child hd hx) (Schema.decode_object hw) (Schema.decode_object he)
      (.succ hmem hk)
  have hall (k : Nat) : Nests k w := by
    induction k with
    | zero => exact .zero w
    | succ k ih => exact hdeeper k ih
  have hle := (hall (sizeOf w + 1)).le_sizeOf
  omega

end Options

end KubeSchema
