import KubeSchema.Event

/-!
# Computations that report events

A computation has an outcome and the events it reported on the way, those of a failed one too. What is reported never
bears on the outcome: `outcome` commutes with sequencing (`outcome_bind`).
-/

namespace KubeSchema

/-- An outcome and the events reported on the way. -/
structure Traced (ε α : Type) where
  log : List Event
  outcome : Except ε α

/-- A computation that fails with a fault. -/
abbrev Run := Traced Fault

namespace Traced

variable {ε ε' α β : Type}

instance : Monad (Traced ε) where
  pure a := ⟨[], .ok a⟩
  bind x f :=
    match x.outcome with
    | .error e => ⟨x.log, .error e⟩
    | .ok a => let y := f a; ⟨x.log ++ y.log, y.outcome⟩

/-- Fails. -/
def fail (e : ε) : Traced ε α := ⟨[], .error e⟩

/-- An outcome that reports nothing. -/
def lift (x : Except ε α) : Traced ε α := ⟨[], x⟩

/-- Reports an event. -/
def report (e : Event) : Traced ε Unit := ⟨[e], .ok ()⟩

/-- The same computation with other errors. -/
def mapError (f : ε → ε') (x : Traced ε α) : Traced ε' α := ⟨x.log, x.outcome.mapError f⟩

@[simp] theorem outcome_pure (a : α) : (pure a : Traced ε α).outcome = .ok a := rfl

@[simp] theorem log_pure (a : α) : (pure a : Traced ε α).log = [] := rfl

@[simp] theorem outcome_bind (x : Traced ε α) (f : α → Traced ε β) :
    (x >>= f).outcome = x.outcome >>= fun a => (f a).outcome := by
  simp only [bind, Except.bind]
  cases x.outcome <;> rfl

@[simp] theorem outcome_fail (e : ε) : (fail e : Traced ε α).outcome = .error e := rfl

@[simp] theorem outcome_lift (x : Except ε α) : (lift x).outcome = x := rfl

@[simp] theorem outcome_report (e : Event) : (report e : Traced ε Unit).outcome = .ok () := rfl

@[simp] theorem outcome_mapError (f : ε → ε') (x : Traced ε α) :
    (x.mapError f).outcome = x.outcome.mapError f := rfl

instance : LawfulMonad (Traced ε) := LawfulMonad.mk' _
  (by
    intro α x
    obtain ⟨log, outcome⟩ := x
    cases outcome <;> simp [Functor.map])
  (by intro α β a f; rfl)
  (by
    intro α β γ x f g
    obtain ⟨log, outcome⟩ := x
    cases outcome with
    | error e => rfl
    | ok a =>
      simp only [bind]
      cases (f a).outcome <;> simp)

end Traced

namespace Run

variable {α : Type}

/-- Fails with a violation at a place. -/
def violate (cause : Violation) (path : Pointer) : Run α := .fail (.violation cause path)

/-- A schema as it is written. -/
def encoded (x : Except EncodeError α) : Run α := .lift (x.mapError (Fault.misfit ∘ .encode))

/-- A schema as it reads. -/
def decoded (x : Except DecodeError α) : Run α := .lift (x.mapError (Fault.misfit ∘ .decode))

end Run

end KubeSchema
