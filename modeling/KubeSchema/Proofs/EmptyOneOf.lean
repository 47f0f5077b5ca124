import KubeSchema.Proofs.NullFree

/-!
# Unions without variants

Settling takes an empty `oneOf` out. An optional is the exception: where its entry has more to hand over than what
replaces the parent's (`Node.IsBare`), an empty `oneOf` of the two stays (`Node.KeepsOneOf`).

* `oneOf_settle_iff`: whether settling leaves a schema object with an empty `oneOf`.
* `restructure_oneOf`: whether a result has one.
* `restructure_keeps_oneOf`: there are results that do.
-/

namespace KubeSchema

namespace Node

/-! ## Entries of optionals -/

/-- An entry states only what replaces the parent's. -/
def IsBare (e : ObjectSchema) : Prop := e = { description := e.description, types := e.types, enum := e.enum }

/-- An optional keeps an empty `oneOf`, of its entry or else of its own. -/
def KeepsOneOf (n : ObjectSchema) : Prop :=
  ∃ e, n.IsOptional e ∧ ¬e.IsBare ∧ e.oneOf.or n.oneOf = some []

variable {n e : ObjectSchema}

/-- A field that is missing is not written. -/
theorem writeField_missing (k : Keyword) : k.writeField (({} : ObjectSchema).field k) = .ok none := by
  cases k <;> rfl

/-- The other fields of an entry that states only what replaces the parent's are missing. -/
theorem IsBare.field (h : e.IsBare) {k : Keyword} (hk : k.name ∉ replacedKeywords) :
    e.field k = ({} : ObjectSchema).field k := by
  rw [h]
  cases k <;> first | rfl | exact absurd (by decide) hk

/-- An entry states only what replaces the parent's exactly if it writes nothing else. -/
theorem isBare_iff (he : e.Regular) {ms : Members Json} (hms : e.encode = .ok ms) :
    e.IsBare ↔ Members.eraseAll ms replacedKeywords = [] := by
  obtain ⟨hext, hother⟩ := filter_keywords he hms
  constructor
  · intro hbare
    have hmissing (k : Keyword) : Members.get? (Members.eraseAll ms replacedKeywords) k.name = none := by
      obtain ⟨v, hv, hget⟩ := get?_keywords he hms k
      rw [hget]
      split
      · rfl
      · next hk =>
        rw [hbare.field hk, writeField_missing] at hv
        exact (Except.ok.inj hv).symm
    rw [hbare] at hext hother
    refine List.eq_nil_iff_forall_not_mem.2 fun m hm => ?_
    cases hmodeled : isModeled m.1 with
    | true =>
      obtain ⟨k, hk⟩ := Option.isSome_iff_exists.1 hmodeled
      have hname : m.1 = k.name := Keyword.name_of_ofName? hk
      exact Members.get?_eq_none_iff.1 (hmissing k) (hname ▸ List.mem_map_of_mem hm)
    | false =>
      cases hvendor : isVendor m.1 with
      | true => exact List.filter_eq_nil_iff.1 hext m hm (by simp [hmodeled, hvendor])
      | false => exact List.filter_eq_nil_iff.1 hother m hm (by simp [isOther, hmodeled, hvendor])
  · intro hnone
    obtain ⟨⟨hfields, -, -⟩, -⟩ := merge_nothing (n := {}) he hms hnone
    rw [hnone] at hext hother
    refine ext_field (fun k => ?_) hext.symm hother.symm
    by_cases hk : k.name ∈ replacedKeywords
    · have hk : k = .description ∨ k = .type ∨ k = .enum := by revert hk; cases k <;> decide
      rcases hk with rfl | rfl | rfl <;> rfl
    · have hfield := (hfields k hk).trans (Keyword.over_missing k _)
      rw [← hfield]
      cases k <;> first | rfl | exact absurd (by decide) hk

/-- Beside the entry itself, an optional tells whether it has more to hand over than what replaces the parent's. -/
theorem carried_of_hoistEntry {path : Pointer} {index : Nat} (he : e.Regular) {r : Optional}
    (h : (hoistEntry path n index (.object e)).outcome = .ok r) : r.carried = true ↔ ¬e.IsBare := by
  obtain ⟨ms, hms, h⟩ := Traced.bind_eq_ok.1 h
  have hms : e.encode = .ok ms := Run.encoded_eq_ok.1 hms
  have hcarried : r.carried = !(Members.eraseAll ms replacedKeywords).isEmpty := by
    dsimp only at h
    split at h
    all_goals
      simp only [Traced.bind_eq_ok, Traced.pure_eq_ok] at h
      obtain ⟨merged, -, -, -, rfl⟩ := h
      rfl
  rw [isBare_iff he hms, hcarried]
  simp

theorem carried_of_hoistOptional {path : Pointer} (hn : (Schema.object n).Regular) (he : n.IsOptional e) {r : Optional}
    (h : (hoistOptional path n).outcome = .ok (some r)) : r.carried = true ↔ ¬e.IsBare := by
  obtain ⟨a, b, hab, hentry⟩ := he.entries
  have hreg : e.Regular := (hn.child _ (mem_children.2 ⟨.anyOf, he.mem⟩)).here
  have hno := he.entry
  unfold hoistOptional at h
  rw [hab] at h
  simp only [Traced.bind_eq_ok, Run.encoded_eq_ok] at h
  obtain ⟨x, hx, y, hy, h⟩ := h
  rcases hentry with ⟨ha, rfl⟩ | ⟨rfl, hb⟩
  · cases hx.symm.trans ha
    cases hy.symm.trans hno
    obtain ⟨r', hr, e⟩ := Traced.map_eq_ok.1 h
    cases e
    exact carried_of_hoistEntry hreg hr
  · cases hx.symm.trans hno
    cases hy.symm.trans hb
    obtain ⟨r', hr, e⟩ := Traced.map_eq_ok.1 h
    cases e
    exact carried_of_hoistEntry hreg hr

end Node

/-! ## Settling -/

namespace Options

open Node

variable {o : Options} {path : Pointer} {n m u : ObjectSchema}

theorem oneOf_overlay (n e : ObjectSchema) : (overlay { n with anyOf := none } e).oneOf = e.oneOf.or n.oneOf := rfl

theorem oneOf_dropEmptyOneOf_ne : n.dropEmptyOneOf.oneOf ≠ some [] := by
  obtain ⟨l, hl, -, hne⟩ := dropEmptyOneOf_eq n
  rw [hl]
  exact hne

theorem oneOf_finish : (o.finish n).oneOf = n.oneOf := by
  obtain ⟨a, x, h, -⟩ := finish_eq o n
  rw [h]

/-- How the unions of an optional are settled, after its entry was laid over it. -/
theorem settleUnions_of_isOptional (hn : (Schema.object n).Regular) {e : ObjectSchema} (he : n.IsOptional e)
    (hone : n.oneOf.getD [] = []) (h : (o.settleUnions path n).outcome = .ok u) :
    u.oneOf = some [] ↔ ¬e.IsBare ∧ e.oneOf.or n.oneOf = some [] := by
  simp only [settleUnions, Traced.bind_eq_ok] at h
  obtain ⟨r, hr, opt, hopt, hu⟩ := h
  rcases hoistEnumVariants_eq_ok hr with ⟨rfl, -⟩ | ⟨t, ws, hws, hne, -⟩
  · rw [Option.getD_none] at hopt hu
    rcases hoistOptional_eq_ok hn hopt with ⟨-, hpair⟩ | ⟨e', carried, he', -, rfl⟩
    · exact absurd he (not_isOptional hpair)
    · cases he.eq he'
      have hcarried := carried_of_hoistOptional hn he hopt
      -- An empty `oneOf` is looked for afterwards only if the entry has nothing else to hand over.
      cases carried with
      | true =>
        obtain rfl : o.cleanEnum (overlay { n with anyOf := none } e) = u := Traced.pure_eq_ok.1 hu
        rw [oneOf_cleanEnum, oneOf_overlay]
        exact (and_iff_right (hcarried.1 rfl)).symm
      | false =>
        cases hu
        exact iff_of_false oneOf_dropEmptyOneOf_ne fun h => absurd (hcarried.2 h.1) Bool.false_ne_true
  · cases List.map_eq_nil_iff.1 (hws.symm.trans hone)
    exact absurd rfl hne

/-- Settling leaves an empty `oneOf` exactly if an optional keeps one. -/
theorem oneOf_settle_iff (hn : (Schema.object n).Regular) (h : (o.settle path n).outcome = .ok m) :
    m.oneOf = some [] ↔ n.KeepsOneOf := by
  by_cases hoptional : ∃ e, n.IsOptional e
  · obtain ⟨e, he⟩ := hoptional
    have hany : n.anyOf.getD [] ≠ [] := List.ne_nil_of_mem he.mem
    have hkeeps : n.KeepsOneOf ↔ ¬e.IsBare ∧ e.oneOf.or n.oneOf = some [] :=
      ⟨fun ⟨e', he', h⟩ => he.eq he' ▸ h, fun h => ⟨e, he, h⟩⟩
    unfold settle at h
    split at h
    · cases h
    · next hc =>
      have hone : n.oneOf.getD [] = [] := by
        simpa [hasConflictingUnions, hasVariants, variants, hany] using hc
      simp only [Traced.bind_eq_ok, Traced.pure_eq_ok] at h
      obtain ⟨u, hu, rfl⟩ := h
      rw [hkeeps, ← settleUnions_of_isOptional hn he hone hu]
      exact iff_of_eq (congrArg (· = some []) oneOf_finish)
  · obtain ⟨u, hu, rfl⟩ := settle_eq_ok hn h
    refine iff_of_false ?_ fun ⟨e, he, _⟩ => hoptional ⟨e, he⟩
    rw [oneOf_finish]
    cases hu with
    | enumerated =>
      rw [oneOf_cleanEnum]
      exact (Option.some_ne_none _).symm
    | optional _ he => exact absurd ⟨_, he⟩ hoptional
    | tagged => exact oneOf_dropEmptyOneOf_ne
    | untagged => exact oneOf_dropEmptyOneOf_ne

theorem keptByHoisting_oneOf : KeptByHoisting (fun n => n.oneOf ≠ some []) where
  variant w h := by
    obtain ⟨_, _, _, _, _, heq⟩ := hoistedVariant_eq w
    rw [heq]
    exact h
  tag _ _ h := h

/-! ## Documents -/

/-- The unions without variants in a result. No schema object has an empty `oneOf`, unless an optional of the document
keeps one; and that one has it where it stands. -/
theorem restructure_oneOf {v r : Json} (hkey : ['x', '-'].isPrefixOf o.preserveKey.toList = true)
    (hd : v.hasDistinctNames = true) (h : (o.restructure v).outcome = .ok r) :
    ((∀ w, v.Position w → ∀ n, o.ReadsAs w n → ¬n.KeepsOneOf) → r.Throughout (fun n => n.oneOf ≠ some [])) ∧
      ∀ n m, o.ReadsAs v n → Node.decode r = .ok m → (m.oneOf = some [] ↔ n.KeepsOneOf) := by
  have hvendor : isVendor o.preserveKey = true := by simp [isVendor, hkey]
  have hr : o.Restructures v r := ⟨[], h⟩
  refine ⟨fun hv => ?_, fun n m hread hm => ?_⟩
  · have hsettle : o.EstablishedIn (fun n => n.oneOf ≠ some []) (fun _ => True) v :=
      fun ms ms' hms hslots path n m hn hreg _ hm =>
        ⟨fun he => hv _ hms n ⟨ms, ms', rfl, restructureSlots_of_slotsMap hslots [], hn⟩
          ((oneOf_settle_iff hreg hm).1 he), trivial⟩
    exact (hr.inherits_of_established keptByHoisting_oneOf hvendor inherited_throughout hsettle hd).1
  · obtain ⟨path, hreg, hsettle⟩ := hread.settles hvendor hd hr hm
    exact oneOf_settle_iff hreg hsettle

/-- An entry without more to hand over leaves its parent without the empty `oneOf`. -/
theorem oneOf_of_bare_entry :
    let v : Json := .obj [("oneOf", .arr []), ("anyOf", .arr [.obj [("type", .str "string")], nullEntry])]
    let r : Json := .obj [("type", .str "string"), ("nullable", .bool true)]
    (Options.restructure {} v).outcome = .ok r ∧ r.Throughout (fun n => n.oneOf ≠ some []) := by
  intro v r
  have hr : (Options.restructure {} v).outcome = .ok r := rfl
  let text : ObjectSchema := { types := some (.one .string) }
  let marker : ObjectSchema := { enum := some [.null], extensions := [(nullableKeyword, .bool true)] }
  let optional : ObjectSchema := { oneOf := some [], anyOf := some [.object text, .object marker] }
  have hoptional : Options.ReadsAs {} v optional := ⟨_, _, rfl, rfl, rfl⟩
  have htext : Options.ReadsAs {} (.obj [("type", .str "string")]) text := ⟨_, _, rfl, rfl, rfl⟩
  have hmarker : Options.ReadsAs {} nullEntry marker := ⟨_, _, rfl, rfl, rfl⟩
  have hentry : optional.IsOptional text := ⟨⟨_, _, rfl, .inr ⟨rfl, rfl⟩⟩, rfl⟩
  refine ⟨hr, (restructure_oneOf rfl rfl hr).1 fun w hw n hn => ?_⟩
  rintro ⟨e, he, hmore, -⟩
  cases hw with
  | root =>
    cases hn.eq hoptional
    cases hentry.eq he
    exact hmore rfl
  | inside hc hw =>
    rcases List.mem_pair.1 hc with rfl | rfl
    · cases hw with
      | root =>
        cases hn.eq htext
        exact absurd he.mem List.not_mem_nil
      | inside hc => cases hc
    · cases hw with
      | root =>
        cases hn.eq hmarker
        exact absurd he.mem List.not_mem_nil
      | inside hc => cases hc

/-- The empty `oneOf` beside an optional stays, if the entry has a format. -/
theorem restructure_keeps_oneOf :
    ¬ ∀ (o : Options) (v r : Json), ['x', '-'].isPrefixOf o.preserveKey.toList = true →
      v.hasDistinctNames = true → (o.restructure v).outcome = .ok r → r.Throughout (fun n => n.oneOf ≠ some []) := by
  intro h
  let v : Json := .obj
    [("oneOf", .arr []), ("anyOf", .arr [.obj [("type", .str "string"), ("format", .str "x")], nullEntry])]
  let r : Json := .obj
    [("type", .str "string"), ("format", .str "x"), ("oneOf", .arr []), ("nullable", .bool true)]
  let m : ObjectSchema :=
    { types := some (.one .string), format := some "x", oneOf := some []
      extensions := [(nullableKeyword, .bool true)] }
  have hr : (Options.restructure {} v).outcome = .ok r := rfl
  have hm : Node.decode r = .ok m := rfl
  exact h {} v r rfl rfl hr r (.root _) m hm rfl

end Options

end KubeSchema
