import KubeSchema.Conversion
import KubeSchema.Proofs.Files

/-!
# Conversions are all or nothing

A conversion reads a file, restructures its document and writes the result. Whatever goes wrong on the way, no file is
touched, since nothing is written before there is a text, and a file that cannot be opened is not written at all; only
directories may have been made. And what a conversion returns is what its output holds.

* `Conversion.run_cases`: how a conversion goes, one way for each of its results.
* `Conversion.run_eq_ok`: when it succeeds.
* `Conversion.run_allOrNothing`: what it leaves behind.
-/

namespace KubeSchema.Conversion

variable {c : Conversion} {files after : Files} {text : String}

/-! ## What is asked for -/

theorem filled_eq_some {s : Option String} {t : String} : filled s = some t ↔ s = some t ∧ t ≠ "" := by
  simp [filled, Option.filter_eq_some_iff]

theorem filled_eq_none {s : Option String} : filled s = none ↔ s = none ∨ s = some "" := by
  cases s <;> simp [filled]

/-- A missing or empty keyword stands for the usual one, and what is not to be kept is dropped. -/
theorem options_eq (c : Conversion) : c.options =
    { preserveKey := match c.preserveKey with
        | none | some "" => preserveKeyword
        | some key => key
      dropUniqueItems := !c.keepUniqueItems
      dropEnumNull := !c.keepEnumNull } := by
  have hkey : (filled c.preserveKey).getD preserveKeyword = match c.preserveKey with
      | none | some "" => preserveKeyword
      | some key => key := by
    split
    · next h => rw [filled_eq_none.2 (.inl h), Option.getD_none]
    · next h => rw [filled_eq_none.2 (.inr h), Option.getD_none]
    · next key hne h =>
      have hfilled : filled c.preserveKey = some key := filled_eq_some.2 ⟨h, hne⟩
      rw [hfilled, Option.getD_some]
  rw [options, hkey]

/-! ## Delivering the result -/

/-- What is left behind by a conversion that returns a text: the output holds the text, if there is one, and no other
file has changed. -/
def Delivered (c : Conversion) (files after : Files) (text : String) : Prop :=
  match c.output with
  | none | some "" => files.Unchanged after
  | some path => after.read path = .ok text ∧ files.ChangedAt after (Path.place path) text

theorem deliver_error {e : FileError} (h : c.deliver files text = (after, some e)) : files.Grows after := by
  unfold deliver at h
  split at h
  · cases h
  · exact Files.write_error h

theorem delivered_nothing (h : filled c.output = none) : c.Delivered files after text ↔ files.Unchanged after := by
  unfold Delivered
  obtain hnone | hempty := filled_eq_none.1 h
  · rw [hnone]
  · rw [hempty]
    exact Iff.rfl

theorem delivered_file {path : String} (h : filled c.output = some path) : c.Delivered files after text ↔
    after.read path = .ok text ∧ files.ChangedAt after (Path.place path) text := by
  unfold Delivered
  obtain ⟨houtput, hpath⟩ := filled_eq_some.1 h
  rw [houtput]
  split
  · next hnone => cases hnone
  · next hempty => exact absurd (Option.some.inj hempty) hpath
  · next other _ hother =>
    cases hother
    exact Iff.rfl

theorem deliver_ok (h : c.deliver files text = (after, none)) :
    c.Delivered files after text ∧ files.Within after := by
  unfold deliver at h
  split at h
  · next hfilled =>
    cases h
    exact ⟨(delivered_nothing hfilled).2 fun _ => rfl, .refl files⟩
  · next path hfilled => exact ⟨(delivered_file hfilled).2 (Files.write_ok h), Files.within_write h⟩

theorem deliver_eq_none : (c.deliver files text).2 = none ↔
    ∀ path, c.output = some path → path ≠ "" → (files.write path text).2 = none := by
  unfold deliver
  split
  · next hfilled =>
    refine ⟨fun _ path houtput hpath => ?_, fun _ => rfl⟩
    have hsome : filled c.output = some path := filled_eq_some.2 ⟨houtput, hpath⟩
    rw [hfilled] at hsome
    cases hsome
  · next path hfilled =>
    obtain ⟨houtput, hpath⟩ := filled_eq_some.1 hfilled
    constructor
    · intro h other hother _
      rw [houtput] at hother
      cases hother
      exact h
    · exact fun h => h path houtput hpath

/-! ## Runs -/

/-- A conversion fails before or while it writes, and no file is touched; or it has a text for the content of its input,
and delivers that. -/
theorem run_cases (c : Conversion) (files : Files) :
    (∃ e, (c.run files).result = .error e ∧ files.Grows (c.run files).files) ∨
      ∃ content text, files.read c.input = .ok content ∧ (c.options.convert content).outcome = .ok text ∧
        (c.run files).result = .ok text ∧ c.deliver files text = ((c.run files).files, none) := by
  unfold run
  cases hread : files.read c.input with
  | error e => exact .inl ⟨_, rfl, .refl files⟩
  | ok content =>
    dsimp only
    cases hconvert : (c.options.convert content).outcome with
    | error e => exact .inl ⟨_, rfl, .refl files⟩
    | ok text =>
      dsimp only
      cases hdeliver : c.deliver files text with
      | mk after failed =>
        cases failed with
        | some e => exact .inl ⟨_, rfl, deliver_error hdeliver⟩
        | none => exact .inr ⟨content, text, rfl, hconvert, rfl, hdeliver⟩

/-- A conversion succeeds if its input can be read, the document in it can be converted, and its output can be
written. -/
theorem run_eq_ok : (c.run files).result = .ok text ↔
    ∃ content, files.read c.input = .ok content ∧ (c.options.convert content).outcome = .ok text ∧
      ∀ path, c.output = some path → path ≠ "" → (files.write path text).2 = none := by
  constructor
  · intro h
    obtain ⟨e, herror, -⟩ | ⟨content, text', hread, hconvert, hresult, hdeliver⟩ := run_cases c files
    · rw [herror] at h
      cases h
    · rw [hresult] at h
      cases h
      refine ⟨content, hread, hconvert, deliver_eq_none.1 ?_⟩
      rw [hdeliver]
  · rintro ⟨content, hread, hconvert, hwrite⟩
    have hdeliver : (c.deliver files text).2 = none := deliver_eq_none.2 hwrite
    unfold run
    rw [hread]
    dsimp only
    rw [hconvert]
    dsimp only
    split
    · next hfailed =>
      rw [hfailed] at hdeliver
      cases hdeliver
    · rfl

/-- **A conversion is all or nothing.** If it fails, no file is created, taken away or changed. If it returns a text, that
is the text of the structural document for what its input held before, and its output, if it has one that is not empty,
holds that text and is the only file created or changed. It fails only if the input cannot be read, the document in it
cannot be converted, or the output cannot be written. -/
theorem run_allOrNothing (c : Conversion) (files : Files) :
    (∀ e, (c.run files).result = .error e → files.Unchanged (c.run files).files) ∧
      (∀ text, (c.run files).result = .ok text →
        ∃ content, files.read c.input = .ok content ∧
          (Options.convert
            { preserveKey := match c.preserveKey with
                | none | some "" => preserveKeyword
                | some key => key
              dropUniqueItems := !c.keepUniqueItems
              dropEnumNull := !c.keepEnumNull } content).outcome = .ok text ∧
          match c.output with
          | none | some "" => files.Unchanged (c.run files).files
          | some path =>
            (c.run files).files.read path = .ok text ∧ files.ChangedAt (c.run files).files (Path.place path) text) ∧
      ∀ text, (c.run files).result = .ok text ↔
        ∃ content, files.read c.input = .ok content ∧ (c.options.convert content).outcome = .ok text ∧
          ∀ path, c.output = some path → path ≠ "" → (files.write path text).2 = none := by
  refine ⟨?_, ?_, fun text => run_eq_ok⟩
  · intro e herror
    obtain ⟨_, -, hgrows⟩ | ⟨_, _, -, -, hok, -⟩ := run_cases c files
    · exact hgrows.content?
    · rw [hok] at herror
      cases herror
  · intro text hok
    obtain ⟨_, herror, -⟩ | ⟨content, text', hread, hconvert, hok', hdeliver⟩ := run_cases c files
    · rw [herror] at hok
      cases hok
    · rw [hok'] at hok
      cases hok
      refine ⟨content, hread, ?_, (deliver_ok hdeliver).1⟩
      rw [← options_eq]
      exact hconvert

/-- A conversion onto its own input. -/
example : ((Conversion.run { input := "a", output := some "a" }
    (Files.ofList [("a", "\x7b\"type\": \"array\", \"uniqueItems\": true\x7d"), ("b", "")])).files) =
      Files.ofList [("a", "\x7b\n  \"type\": \"array\"\n\x7d"), ("b", "")] := by decide +kernel

end KubeSchema.Conversion
