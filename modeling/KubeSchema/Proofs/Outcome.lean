import KubeSchema.Traced

/-!
# Outcomes that are results

A sequence of computations gives a result exactly if each of them does; what is reported never matters. These
equivalences take a successful run apart (`bind_eq_ok`, `Traced.bind_eq_ok`), and `Traced.mem_log_bind` its report.
-/

namespace KubeSchema

variable {ε ε' α β : Type}

/-! ## Results and errors -/

theorem bind_eq_ok {x : Except ε α} {f : α → Except ε β} {b : β} :
    (x >>= f) = .ok b ↔ ∃ a, x = .ok a ∧ f a = .ok b := by
  cases x <;> simp [bind, Except.bind]

theorem map_eq_ok {x : Except ε α} {f : α → β} {b : β} : f <$> x = .ok b ↔ ∃ a, x = .ok a ∧ f a = b := by
  cases x <;> simp [Functor.map, Except.map]

theorem pure_eq_ok {a b : α} : (pure a : Except ε α) = .ok b ↔ a = b := by simp [pure, Except.pure]

theorem mapError_eq_ok {x : Except ε α} {f : ε → ε'} {a : α} : x.mapError f = .ok a ↔ x = .ok a := by
  cases x with
  | error e => constructor <;> intro h <;> cases h
  | ok b =>
    constructor
    · intro h
      cases h
      rfl
    · intro h
      cases h
      rfl

/-! ## Computations that report events -/

namespace Traced

theorem bind_eq_ok {x : Traced ε α} {f : α → Traced ε β} {b : β} :
    (x >>= f).outcome = .ok b ↔ ∃ a, x.outcome = .ok a ∧ (f a).outcome = .ok b := by
  rw [outcome_bind, KubeSchema.bind_eq_ok]

/-- A sequence gives a result if what follows a result does. -/
theorem exists_bind {x : Traced ε α} {f : α → Traced ε β} {a : α} (hx : x.outcome = .ok a)
    (hf : ∃ b, (f a).outcome = .ok b) : ∃ b, (x >>= f).outcome = .ok b := by
  obtain ⟨b, hb⟩ := hf
  exact ⟨b, bind_eq_ok.2 ⟨a, hx, hb⟩⟩

/-- What follows cannot fail. -/
theorem exists_bind_iff {x : Traced ε α} {f : α → Traced ε β} (hf : ∀ a, ∃ b, (f a).outcome = .ok b) :
    (∃ b, (x >>= f).outcome = .ok b) ↔ ∃ a, x.outcome = .ok a := by
  constructor
  · rintro ⟨b, hb⟩
    obtain ⟨a, ha, -⟩ := bind_eq_ok.1 hb
    exact ⟨a, ha⟩
  · rintro ⟨a, ha⟩
    exact exists_bind ha (hf a)

@[simp] theorem outcome_map (f : α → β) (x : Traced ε α) : (f <$> x).outcome = f <$> x.outcome := by
  rw [← bind_pure_comp, outcome_bind]
  cases x.outcome <;> rfl

theorem map_eq_ok {x : Traced ε α} {f : α → β} {b : β} :
    (f <$> x).outcome = .ok b ↔ ∃ a, x.outcome = .ok a ∧ f a = b := by
  rw [outcome_map, KubeSchema.map_eq_ok]

theorem pure_eq_ok {a b : α} : (pure a : Traced ε α).outcome = .ok b ↔ a = b := by simp

/-- A sequence reports what its first part does, and what follows a result of that. -/
theorem mem_log_bind {x : Traced ε α} {f : α → Traced ε β} {e : Event} :
    e ∈ (x >>= f).log ↔ e ∈ x.log ∨ ∃ a, x.outcome = .ok a ∧ e ∈ (f a).log := by
  simp only [bind]
  cases x.outcome <;> simp

end Traced

namespace Run

theorem encoded_eq_ok {x : Except EncodeError α} {a : α} : (encoded x).outcome = .ok a ↔ x = .ok a := mapError_eq_ok

theorem decoded_eq_ok {x : Except DecodeError α} {a : α} : (decoded x).outcome = .ok a ↔ x = .ok a := mapError_eq_ok

end Run

end KubeSchema
