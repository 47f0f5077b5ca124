import KubeSchema.Document
import KubeSchema.Proofs.Json.DistinctNames
import KubeSchema.Proofs.Json.RoundTrip
import KubeSchema.Proofs.Relocation

/-!
# Documents as texts, both ways

A text is converted by reading it, restructuring its value and writing the result. Nothing is lost on the way: no object
of a value that was read names a member twice (`Json.parse_hasDistinctNames`), restructuring keeps it so, and such a
value is what is read where it is written (`Json.parse_indented`).

* `Options.convert_eq_ok`: a text is converted to what its restructured value is written as.
* `Options.convert_readsBack`: what is read from the result.
-/

namespace KubeSchema.Options

variable {o : Options} {text out : String}

theorem convert_eq_ok : (o.convert text).outcome = .ok out ↔
    ∃ v r, Json.parse text = .ok v ∧ (o.restructure v).outcome = .ok r ∧ r.indented = out := by
  unfold convert
  cases hparse : Json.parse text with
  | error e => simp
  | ok v => simp [map_eq_ok, mapError_eq_ok]

theorem convert_eq_error : (∃ e, (o.convert text).outcome = .error e) ↔
    (∃ e, Json.parse text = .error e) ∨ ∃ v e, Json.parse text = .ok v ∧ (o.restructure v).outcome = .error e := by
  unfold convert
  cases hparse : Json.parse text with
  | error e => simp
  | ok v => cases hr : (o.restructure v).outcome <;> simp [hr, Except.mapError]

/-- **Converting a text adds nothing and loses nothing.** It fails exactly if the text cannot be read or the value in it
cannot be restructured. Otherwise the result is ASCII, and what is read from it is the restructured value itself, in the
order of its members, if its doubles are what is read where they are written. -/
theorem convert_readsBack (o : Options) (text : String) :
    ((∃ e, (o.convert text).outcome = .error e) ↔
      (∃ e, Json.parse text = .error e) ∨ ∃ v e, Json.parse text = .ok v ∧ (o.restructure v).outcome = .error e) ∧
    ∀ out, (o.convert text).outcome = .ok out →
      ∃ v r, Json.parse text = .ok v ∧ (o.restructure v).outcome = .ok r ∧ (∀ c ∈ out.toList, c.toNat < 0x80) ∧
        ((∀ d ∈ r.doubles, d.ReadsBack) → Json.parse out = .ok r) := by
  refine ⟨convert_eq_error, fun out h => ?_⟩
  obtain ⟨v, r, hparse, hr, rfl⟩ := convert_eq_ok.1 h
  have hdistinct : r.hasDistinctNames = true :=
    (restructures_iff.2 hr).hasDistinctNames (Json.parse_hasDistinctNames hparse)
  exact ⟨v, r, hparse, hr, r.isAscii_indented, Json.parse_indented hdistinct⟩

/-- A default value with doubles, an integer beyond all of them, and characters that need escapes. -/
theorem convert_readsBack_default :
    let text := "\x7b\"type\": \"array\", \"uniqueItems\": true, \"default\": [1.50, -2E-7, 1e16, NaN, -Infinity, " ++
      "123456789012345678901234567890, \"\\ud83d\\ude00 \\u007f\\/\", \x7b\"b\": [], \"a\": \x7b\x7d, \"b\": 0\x7d]\x7d"
    let r : Json := .obj [("default", .arr
      [.double (.finite false 15 (-1)), .double (.finite true 2 (-7)), .double (.finite false 1 16), .double .nan,
        .double (.infinite true), .int 123456789012345678901234567890, .str "😀 \x7f/",
        .obj [("b", .int 0), ("a", .obj [])]]), ("type", .str "array")]
    ∃ out, (Options.convert {} text).outcome = .ok out ∧ Json.parse out = .ok r := by
  intro text r
  have hr : (Json.parse text).toOption.bind (fun v => (Options.restructure {} v).outcome.toOption) = some r := by
    decide +kernel
  cases hparse : Json.parse text with
  | error e =>
    rw [hparse] at hr
    cases hr
  | ok v =>
    rw [hparse, Except.toOption, Option.bind_some] at hr
    cases hrestructure : (Options.restructure {} v).outcome with
    | error e =>
      rw [hrestructure] at hr
      cases hr
    | ok r' =>
      rw [hrestructure] at hr
      cases hr
      have hout := convert_eq_ok.2 ⟨v, r, hparse, hrestructure, rfl⟩
      obtain ⟨v', r', hparse', hrestructure', -, hread⟩ := (convert_readsBack {} text).2 _ hout
      rw [hparse] at hparse'
      cases hparse'
      rw [hrestructure] at hrestructure'
      cases hrestructure'
      exact ⟨_, hout, hread (by decide +kernel)⟩

end KubeSchema.Options
