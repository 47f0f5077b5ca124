import KubeSchema.Proofs.EmptyOneOf
import KubeSchema.Proofs.Settle.Drained
import KubeSchema.Proofs.Tidy
import KubeSchema.Proofs.Union.Merging

/-!
# Settling pass by pass

Settling does not hoist from the unions that an optional carries along with its entry. Pass by pass, each on what the
one before it left (`Options.settleStepwise`), these would be hoisted from like any others. The two are the same unless
an optional carries unions along that have something left to hoist (`Node.CarriesOpenUnions`).

* `hoistUnions_eq_self_iff`: unions that hoisting leaves as they are (`Node.UnionsSettled`).
* `settle_eq_stepwise_iff`: whether settling is the sequence of passes.
* `settle_ne_stepwise`: it is not always.
-/

namespace KubeSchema

namespace Node

/-- Hoisting leaves the unions as they are: one of them has variants at most, and these have nothing to hand over. -/
structure UnionsSettled (n : ObjectSchema) : Prop where
  exclusive : n.hasConflictingUnions = false
  oneOf : n.oneOf ≠ some []
  variants : ∀ s ∈ n.unionVariants, ∃ w, s = .object w ∧ w.hoistedVariant = w
  typed : n.IsTyped
  enumless : ∀ s ∈ n.oneOf.getD [], hasEnum s = false

/-- An optional whose entry has more to hand over than what replaces the parent's, and does not contradict it, and
whose unions are then not settled. -/
def CarriesOpenUnions (n : ObjectSchema) : Prop :=
  n.oneOf.getD [] = [] ∧ ∃ e, n.IsOptional e ∧ ¬e.IsBare ∧
    (∀ ns ms keyword x y, n.encode = .ok ns → e.encode = .ok ms →
      ¬Contradict (Members.eraseAll ns [Union.anyOf.name]) ms keyword x y) ∧
    ¬(overlay { n with anyOf := none } e).UnionsSettled

variable {u : Union} {path : Pointer} {n e w : ObjectSchema} {ws : List ObjectSchema}

/-! ## Unions that are settled -/

theorem hoistProperties_of_nil (h : (n.variants u).getD [] = []) (path : Pointer) :
    hoistProperties u path n = pure none := by
  have hex : n.hasConflictingUnions = false := by
    cases u <;> simp [hasConflictingUnions, hasVariants, h]
  unfold hoistProperties
  rw [hex, h]
  rfl

/-- Variants with nothing to hand over leave their parent as it is, if it is about objects where they are. -/
theorem hoisted_of_settled (hws : (n.variants u).getD [] = ws.map .object)
    (hself : ∀ w ∈ ws, w.hoistedVariant = w)
    (htyped : (∃ w ∈ ws, w.hasObjectKeywords = true) → n.types = some (.one .object)) : n.hoisted u ws = n := by
  have hproperties : received u n.properties ws = n.properties :=
    received_of_undeclaring fun w hw => by rw [← hself w hw, properties_hoistedVariant]
  have hreceive : receive u n ws = n := by
    unfold receive
    rw [hproperties]
    split
    · next hany => rw [← htyped (List.any_eq_true.1 hany)]
    · rfl
  have hvariants : ws.map (fun w => Schema.object (hoistedVariant w)) = ws.map .object :=
    List.map_congr_left fun w hw => by rw [hself w hw]
  rw [hoisted, hreceive, hvariants, ← hws]
  exact setVariants_self u n

/-- Unions are settled if hoisting gives their variants back, none of them an enum below a `oneOf`, and their parent is
about objects where they are. -/
theorem UnionsSettled.of_hoisted (hex : n.hasConflictingUnions = false) (hunion : n.unionVariants = ws.map .object)
    (hback : ws.map (fun w => Schema.object (hoistedVariant w)) = ws.map .object) (hone : n.oneOf ≠ some [])
    (htypes : ∀ w ∈ ws, w.hasObjectKeywords = true → n.types = some (.one .object))
    (henum : ∀ s ∈ n.oneOf.getD [], hasEnum s = false) : n.UnionsSettled := by
  refine ⟨hex, hone, fun s hs => ?_, fun hkeyed => ?_, henum⟩
  · rw [hunion] at hs
    obtain ⟨w, hw, rfl⟩ := List.mem_map.1 hs
    exact ⟨w, rfl, Schema.object.inj (List.map_inj_left.1 hback w hw)⟩
  · obtain ⟨w, hw, hk⟩ := hasKeyedVariant_iff.1 hkeyed
    rw [hunion] at hw
    obtain ⟨w', hw', e⟩ := List.mem_map.1 hw
    cases e
    exact htypes w hw' hk

end Node

namespace Options

open Node

variable {o : Options} {path : Pointer} {n u e : ObjectSchema}

/-- Without variants there is only an empty union to take out. -/
theorem hoistUnions_of_nil (hone : n.oneOf.getD [] = []) (hany : n.anyOf.getD [] = []) (path : Pointer) :
    hoistUnions path n = pure n.dropEmptyOneOf := by
  have henums : hoistEnumValues path n = pure none :=
    hoistEnumValues_of_enumless fun s hs => by rw [hone] at hs; cases hs
  have hnone : hoistProperties .anyOf path n.dropEmptyOneOf = pure none :=
    hoistProperties_of_nil (by rw [variants, anyOf_dropEmptyOneOf, hany]) path
  unfold hoistUnions
  rw [hoistProperties_of_nil (u := .oneOf) hone, pure_bind]
  dsimp only [Option.getD_none]
  rw [henums, pure_bind]
  dsimp only [Option.getD_none]
  rw [hnone, pure_bind, Option.getD_none]

theorem hasConflictingUnions_of_hoistUnions (h : (hoistUnions path n).outcome = .ok u) :
    n.hasConflictingUnions = false := by
  obtain ⟨r, hr, -⟩ := Traced.bind_eq_ok.1 h
  obtain ⟨ws, hws, -⟩ := hoistProperties_eq_ok hr
  exact ((exists_hoistProperties_iff hws).1 ⟨r, hr⟩).1

theorem unionsSettled_of_hoistUnions (h : (hoistUnions path n).outcome = .ok n) : n.UnionsSettled := by
  have hex := hasConflictingUnions_of_hoistUnions h
  rcases hasConflictingUnions_eq_false_iff.1 hex with hone | hany
  · obtain ⟨ws, hws, heq⟩ := hoistUnions_untagged hone h
    have hdrop : n.dropEmptyOneOf.anyOf.getD [] = ws.map .object := by rw [anyOf_dropEmptyOneOf, hws]
    have hback : ws.map (fun w => Schema.object (hoistedVariant w)) = ws.map .object := by
      rw [← hws, ← variants_hoisted (u := .anyOf) hdrop, ← heq]
      rfl
    refine .of_hoisted hex (by rw [unionVariants, hone, hws, List.nil_append]) hback ?_ (fun w hw hk => ?_)
      fun s hs => ?_
    · rw [heq]
      exact oneOf_dropEmptyOneOf_ne
    · rw [heq]
      exact types_hoisted hw hk
    · rw [hone] at hs
      cases hs
  · obtain ⟨ws, hws, -, heq⟩ := hoistUnions_tagged hany h
    have hfilter :
        ws.map .object = (ws.map (fun w => Schema.object (hoistedVariant w))).filter (fun s => !hasEnum s) := by
      rw [← getD_filter_oneOf (variants_hoisted (u := .oneOf) hws), ← heq, hws]
    -- Hoisting keeps the number of variants, so none of them was taken up as an enum.
    have hall : ∀ s ∈ ws.map (fun w => Schema.object (hoistedVariant w)), (!hasEnum s) = true := by
      rw [← List.length_filter_eq_length_iff, ← hfilter, List.length_map, List.length_map]
    have hback : ws.map (fun w => Schema.object (hoistedVariant w)) = ws.map .object := by
      rw [hfilter, List.filter_eq_self.2 hall]
    refine .of_hoisted hex (by rw [unionVariants, hany, hws, List.append_nil]) hback ?_ (fun w hw hk => ?_)
      fun s hs => ?_
    · rw [heq]
      exact oneOf_dropEmptyOneOf_ne
    · rw [heq, types_dropEmptyOneOf]
      exact types_takenEnums (types_hoisted hw hk)
    · rw [hws, ← hback] at hs
      exact Bool.not_eq_true' _ ▸ hall s hs

theorem hoistUnions_of_unionsSettled (h : n.UnionsSettled) (path : Pointer) :
    (hoistUnions path n).outcome = .ok n := by
  have hundeclaring : ∀ s ∈ n.unionVariants, ∃ w : ObjectSchema, s = .object w ∧ w.properties = [] := by
    intro s hs
    obtain ⟨w, rfl, hself⟩ := h.variants s hs
    exact ⟨w, rfl, by rw [← hself, properties_hoistedVariant]⟩
  -- Hoisting from a union succeeds, and gives back what it was.
  have hstep (v : Union) : ∃ r, (hoistProperties v path n).outcome = .ok r ∧ r.getD n = n := by
    have hmem {s : Schema} (hs : s ∈ (n.variants v).getD []) : s ∈ n.unionVariants := by
      cases v
      · exact List.mem_append_left _ hs
      · exact List.mem_append_right _ hs
    obtain ⟨r, hr⟩ := exists_hoistProperties v path h.exclusive fun s hs => hundeclaring s (hmem hs)
    obtain ⟨ws, hws, hhoisted, -⟩ := hoistProperties_eq_ok hr
    refine ⟨r, hr, ?_⟩
    rw [hhoisted]
    refine hoisted_of_settled hws (fun w hw => ?_) fun ⟨w, hw, hk⟩ => ?_
    · obtain ⟨w', e, hself⟩ := h.variants _ (hmem (hws ▸ List.mem_map_of_mem hw))
      cases e
      exact hself
    · exact h.typed (hasKeyedVariant_iff.2 ⟨w, hmem (hws ▸ List.mem_map_of_mem hw), hk⟩)
  obtain ⟨r, hr, hself⟩ := hstep .oneOf
  obtain ⟨r', hr', hself'⟩ := hstep .anyOf
  refine Traced.bind_eq_ok.2 ⟨r, hr, ?_⟩
  rw [hself]
  refine Traced.bind_eq_ok.2 ⟨none, congrArg _ (hoistEnumValues_of_enumless h.enumless), ?_⟩
  dsimp only [Option.getD_none]
  rw [dropEmptyOneOf_self h.oneOf]
  exact Traced.bind_eq_ok.2 ⟨r', hr', Traced.pure_eq_ok.2 hself'⟩

/-- Hoisting leaves the unions as they are exactly if they are settled. -/
theorem hoistUnions_eq_self_iff : (hoistUnions path n).outcome = .ok n ↔ n.UnionsSettled :=
  ⟨unionsSettled_of_hoistUnions, fun h => hoistUnions_of_unionsSettled h path⟩

/-- Hoisting from the unions changes nothing else. -/
theorem eq_of_hoistUnions (h : (hoistUnions path n).outcome = .ok u) :
    u = { n with
      types := u.types, enum := u.enum, anyOf := u.anyOf, oneOf := u.oneOf, properties := u.properties } := by
  obtain ⟨ws, ws', -, -, -, rfl⟩ := hoistUnions_eq_ok h
  obtain ⟨l, hl, -⟩ := dropEmptyOneOf_eq (n.hoisted .oneOf ws).takenEnums
  rw [hl]
  rfl

/-- The last changes do not hide that hoisting from the unions changed something. -/
theorem finish_hoistUnions_iff (path : Pointer) :
    (∃ u, (hoistUnions path n).outcome = .ok u ∧ o.finish u = o.finish n) ↔ n.UnionsSettled := by
  constructor
  · rintro ⟨u, hu, hfinish⟩
    have hsame : u = n := by
      obtain ⟨a, x, h, -⟩ := finish_eq o u
      obtain ⟨a', x', h', -⟩ := finish_eq o n
      rw [h, h'] at hfinish
      rw [eq_of_hoistUnions hu]
      injection hfinish with _ _ htypes _ henum hany hone _ _ _ _ _ _ _ _ _ hproperties
      rw [htypes, henum, hany, hone, hproperties]
    exact hoistUnions_eq_self_iff.1 (hsame ▸ hu)
  · exact fun h => ⟨n, hoistUnions_eq_self_iff.2 h, rfl⟩

theorem unionsSettled_cleanEnum : (o.cleanEnum n).UnionsSettled ↔ n.UnionsSettled := by
  obtain ⟨l, hl⟩ := cleanEnum_eq o n
  rw [hl]
  exact ⟨fun h => ⟨h.exclusive, h.oneOf, h.variants, h.typed, h.enumless⟩,
    fun h => ⟨h.exclusive, h.oneOf, h.variants, h.typed, h.enumless⟩⟩

/-! ## Pass by pass -/

/-- Hoists what tagged variants declare, if there is a tagged union: their properties, then the enums among them. -/
def hoistTagged (path : Pointer) (n : ObjectSchema) : Run ObjectSchema :=
  match n.oneOf with
  | none => pure n
  | some _ => do
    let n := (← n.hoistProperties .oneOf path).getD n
    let n := (← n.hoistEnumValues path).getD n
    return n.dropEmptyOneOf

/-- Hoists what untagged variants declare, if there is an untagged union. -/
def hoistUntagged (path : Pointer) (n : ObjectSchema) : Run ObjectSchema :=
  match n.anyOf with
  | none => pure n
  | some _ => do return (← n.hoistProperties .anyOf path).getD n

/-- Restructures a schema object by one pass after the other, each on what the one before it left. -/
def settleStepwise (o : Options) (path : Pointer) (n : ObjectSchema) : Run ObjectSchema :=
  if n.hasConflictingUnions then Run.violate .conflictingUnions path
  else do
    let n := (← n.hoistEnumVariants path).getD n
    let n := (← n.hoistOptional path).elim n Optional.node
    let n := o.cleanEnum n
    let n ← hoistTagged path n
    let n ← hoistUntagged path n
    return o.cleanItems ((n.preserveUnknownFields o.preserveKey).getD n)

/-- Hoisting from the unions is hoisting from those that are there. -/
theorem hoistUnions_eq_steps (path : Pointer) (n : ObjectSchema) :
    hoistUnions path n = hoistTagged path n >>= hoistUntagged path := by
  have hany (n : ObjectSchema) : hoistUntagged path n = do return (← n.hoistProperties .anyOf path).getD n := by
    unfold hoistUntagged
    cases h : n.anyOf with
    | none =>
      rw [hoistProperties_of_nil (u := .anyOf) (by rw [variants, h]; rfl)]
      rfl
    | some _ => rfl
  have hone : hoistTagged path n = do
      let n := (← n.hoistProperties .oneOf path).getD n
      let n := (← n.hoistEnumValues path).getD n
      return n.dropEmptyOneOf := by
    unfold hoistTagged
    cases h : n.oneOf with
    | none =>
      have henums : hoistEnumValues path n = pure none :=
        hoistEnumValues_of_enumless fun s hs => by rw [h] at hs; cases hs
      rw [hoistProperties_of_nil (u := .oneOf) (by rw [variants, h]; rfl), pure_bind]
      dsimp only [Option.getD_none]
      rw [henums, pure_bind]
      dsimp only [Option.getD_none]
      rw [dropEmptyOneOf_self (by simp [h])]
    | some _ => rfl
  rw [hone, funext hany]
  simp only [hoistUnions, bind_assoc, pure_bind]

/-- What is left to do, pass by pass, after an optional was looked for. -/
theorem outcome_settleStepwise (hex : n.hasConflictingUnions = false) {r : Option ObjectSchema}
    (hr : (hoistEnumVariants path n).outcome = .ok r) {opt : Option Optional}
    (hopt : (hoistOptional path (r.getD n)).outcome = .ok opt) :
    (o.settleStepwise path n).outcome =
      o.finish <$> (hoistUnions path (o.cleanEnum (opt.elim (r.getD n) Optional.node))).outcome := by
  unfold settleStepwise
  rw [hex, if_neg Bool.false_ne_true, hoistUnions_eq_steps, Traced.outcome_bind, hr]
  show Traced.outcome (hoistOptional path (r.getD n) >>= _) = _
  rw [Traced.outcome_bind, hopt, ← Traced.outcome_map, map_bind]
  rfl

/-- What is left to do in settling after an optional was looked for. -/
theorem outcome_settle (hex : n.hasConflictingUnions = false) {r : Option ObjectSchema}
    (hr : (hoistEnumVariants path n).outcome = .ok r) {opt : Option Optional}
    (hopt : (hoistOptional path (r.getD n)).outcome = .ok opt) :
    (o.settle path n).outcome = o.finish <$> opt.elim (hoistUnions path (o.cleanEnum (r.getD n))).outcome
      fun q => .ok (if q.carried then o.cleanEnum q.node else (o.cleanEnum q.node).dropEmptyOneOf) := by
  unfold settle settleUnions
  rw [hex, if_neg Bool.false_ne_true, bind_assoc, Traced.outcome_bind, hr]
  show Traced.outcome ((hoistOptional path (r.getD n) >>= _) >>= _) = _
  rw [bind_assoc, Traced.outcome_bind, hopt]
  cases opt with
  | none => exact Traced.outcome_map o.finish _
  | some q => rfl

/-- Settling fails like its passes, if one of the first of them does. -/
theorem settle_eq_stepwise_of_fault {fault : Fault}
    (h : (hoistEnumVariants path n).outcome = .error fault ∨
      ∃ r, (hoistEnumVariants path n).outcome = .ok r ∧ (hoistOptional path (r.getD n)).outcome = .error fault) :
    (o.settle path n).outcome = (o.settleStepwise path n).outcome := by
  unfold settle settleStepwise settleUnions
  split
  · rfl
  · rcases h with hr | ⟨r, hr, hopt⟩
    · simp only [bind, hr]
    · simp only [bind, hr, hopt]

/-- A schema object that is no optional is settled pass by pass. -/
theorem settle_eq_stepwise_of_not_optional (hn : (Schema.object n).Regular) (h : ∀ e, ¬n.IsOptional e) :
    (o.settle path n).outcome = (o.settleStepwise path n).outcome := by
  cases hc : n.hasConflictingUnions with
  | true => rw [settle, settleStepwise, hc, if_pos rfl, if_pos rfl]
  | false =>
    cases hr : (hoistEnumVariants path n).outcome with
    | error fault => exact settle_eq_stepwise_of_fault (.inl hr)
    | ok r =>
      cases hopt : (hoistOptional path (r.getD n)).outcome with
      | error fault => exact settle_eq_stepwise_of_fault (.inr ⟨r, hr, hopt⟩)
      | ok opt =>
        have hnone : opt = none := by
          rcases hoistEnumVariants_eq_ok hr with ⟨rfl, -⟩ | ⟨t, ws, hws, hne, -, rfl⟩
          · rcases hoistOptional_eq_ok hn hopt with ⟨hnone, -⟩ | ⟨e, -, he, -⟩
            · exact hnone
            · exact absurd he (h e)
          · have hany : n.anyOf.getD [] = [] :=
              (hasConflictingUnions_eq_false_iff.1 hc).resolve_left (by simpa [hws] using hne)
            have hsame := hoistOptional_of_anyOf_nil (n := n.enumerated t ws) hany path
            rw [Option.getD_some, hsame] at hopt
            exact (Traced.pure_eq_ok.1 hopt).symm
        rw [outcome_settle hc hr hopt, outcome_settleStepwise hc hr hopt, hnone]
        rfl

/-- An optional that is hoisted is settled pass by pass if its entry has nothing to carry along, or what it carries
along is settled. -/
theorem settle_eq_stepwise_of_optional_iff (hn : (Schema.object n).Regular) (hone : n.oneOf.getD [] = [])
    (he : n.IsOptional e) {q : Optional} (hopt : (hoistOptional path n).outcome = .ok (some q)) :
    (o.settle path n).outcome = (o.settleStepwise path n).outcome ↔
      (¬e.IsBare → (overlay { n with anyOf := none } e).UnionsSettled) := by
  have hex : n.hasConflictingUnions = false := hasConflictingUnions_eq_false_iff.2 (.inl hone)
  have hr : (hoistEnumVariants path n).outcome = .ok none := by
    rw [hoistEnumVariants_of_objects (.inl hone)]
    rfl
  have hnode : q.node = overlay { n with anyOf := none } e := by
    rcases hoistOptional_eq_ok hn hopt with ⟨hnone, -⟩ | ⟨e', carried, he', -, hq⟩
    · cases hnone
    · cases hq
      rw [he.eq he']
  have hcarried := carried_of_hoistOptional hn he hopt
  rw [outcome_settle hex hr hopt, outcome_settleStepwise hex hr hopt]
  simp only [Option.elim_some]
  rw [hnode, ← hcarried]
  cases hc : q.carried with
  | false =>
    have hbare : e.IsBare := by
      by_contra hmore
      rw [hcarried.2 hmore] at hc
      cases hc
    have hnoOne : (o.cleanEnum (overlay { n with anyOf := none } e)).oneOf.getD [] = [] := by
      have hmissing : e.oneOf = none := congrArg Node.oneOf hbare
      rw [oneOf_cleanEnum, oneOf_overlay, hmissing, Option.none_or, hone]
    have hnoAny : (o.cleanEnum (overlay { n with anyOf := none } e)).anyOf.getD [] = [] := by
      have hmissing : e.anyOf = none := congrArg Node.anyOf hbare
      rw [anyOf_cleanEnum]
      show (e.anyOf.or none).getD [] = []
      rw [hmissing]
      rfl
    rw [hoistUnions_of_nil hnoOne hnoAny]
    exact iff_of_true rfl nofun
  | true =>
    have hsettled := finish_hoistUnions_iff (o := o) (n := o.cleanEnum (overlay { n with anyOf := none } e)) path
    rw [← unionsSettled_cleanEnum (o := o), ← hsettled, eq_comm]
    simp only [if_true, forall_const]
    exact map_eq_ok

/-- Settling is the sequence of its passes, each on what the one before it left, unless an optional carries unions
along that are not settled. -/
theorem settle_eq_stepwise_iff (o : Options) (path : Pointer) {v : Json} (hd : v.hasDistinctNames = true)
    (hn : Node.decode v = .ok n) :
    (o.settle path n).outcome = (o.settleStepwise path n).outcome ↔ ¬n.CarriesOpenUnions := by
  have hreg := regular_of_decode hd hn
  by_cases hoptional : ∃ e, n.IsOptional e
  · obtain ⟨e, he⟩ := hoptional
    by_cases hone : n.oneOf.getD [] = []
    · have hentry : (Schema.object e).Regular := hreg.child _ (mem_children.2 ⟨.anyOf, he.mem⟩)
      obtain ⟨ns, hns, -⟩ := exists_encode_node hreg
      obtain ⟨ms, hms, -⟩ := exists_encode_node hentry
      rcases he.outcome_hoistOptional hreg hns hms path with
        ⟨hno, q, -, hopt, -⟩ | ⟨keyword, x, y, hcontra, index, -, herror, -⟩
      · rw [settle_eq_stepwise_of_optional_iff hreg hone he hopt]
        constructor
        · rintro hsettled ⟨-, e', he', hmore, -, hopen⟩
          cases he.eq he'
          exact hopen (hsettled hmore)
        · intro hcarries hmore
          by_contra hopen
          refine hcarries ⟨hone, e, he, hmore, fun ns' ms' keyword x y hns' hms' => ?_, hopen⟩
          cases hns.symm.trans hns'
          cases hms.symm.trans hms'
          exact hno keyword x y
      · have hr : (hoistEnumVariants path n).outcome = .ok none := by
          rw [hoistEnumVariants_of_objects (.inl hone)]
          rfl
        refine iff_of_true (settle_eq_stepwise_of_fault (.inr ⟨none, hr, herror⟩)) ?_
        rintro ⟨-, e', he', -, hno, -⟩
        cases he.eq he'
        exact hno ns ms keyword x y hns hms hcontra
    · have hex : n.hasConflictingUnions = true := by
        refine Bool.eq_true_of_not_eq_false fun hfalse => ?_
        exact (hasConflictingUnions_eq_false_iff.1 hfalse).elim hone (List.ne_nil_of_mem he.mem)
      refine iff_of_true ?_ fun hcarries => hone hcarries.1
      rw [settle, settleStepwise, hex, if_pos rfl, if_pos rfl]
  · refine iff_of_true (settle_eq_stepwise_of_not_optional hreg (not_exists.1 hoptional)) ?_
    rintro ⟨-, e, he, -⟩
    exact hoptional ⟨e, he⟩

/-- An optional whose entry carries a format along, and no unions. -/
theorem settle_eq_stepwise_of_format :
    let v : Json := .obj [("anyOf", .arr [.obj [("type", .str "string"), ("format", .str "x")], nullEntry])]
    let entry : ObjectSchema := { types := some (.one .string), format := some "x" }
    let n : ObjectSchema := { anyOf := some [.object entry, .object nullNode] }
    Node.decode v = .ok n ∧ (Options.settle {} [] n).outcome = (Options.settleStepwise {} [] n).outcome := by
  intro v entry n
  have hn : Node.decode v = .ok n := rfl
  have hpair : n.IsOptional entry := ⟨⟨_, _, rfl, .inr ⟨rfl, rfl⟩⟩, rfl⟩
  refine ⟨hn, (settle_eq_stepwise_iff {} [] rfl hn).2 ?_⟩
  rintro ⟨-, e, he, -, -, hopen⟩
  cases hpair.eq he
  exact hopen ⟨rfl, nofun, nofun, nofun, nofun⟩

/-- Beside an optional whose entry carries a format along, an empty `oneOf` is not taken out. -/
theorem settle_ne_stepwise :
    ¬ ∀ (o : Options) (path : Pointer) (v : Json) (n : ObjectSchema), v.hasDistinctNames = true →
      Node.decode v = .ok n → (o.settle path n).outcome = (o.settleStepwise path n).outcome := by
  intro h
  let v : Json := .obj
    [("oneOf", .arr []), ("anyOf", .arr [.obj [("type", .str "string"), ("format", .str "x")], nullEntry])]
  let entry : ObjectSchema := { types := some (.one .string), format := some "x" }
  let n : ObjectSchema := { oneOf := some [], anyOf := some [.object entry, .object nullNode] }
  have hn : Node.decode v = .ok n := rfl
  have hdropped : Node.oneOf <$> (Options.settleStepwise {} [] n).outcome = .ok none := rfl
  have hkept : Node.oneOf <$> (Options.settle {} [] n).outcome = .ok (some []) := rfl
  rw [h {} [] v n rfl hn, hdropped] at hkept
  cases hkept

end Options

end KubeSchema
