import KubeSchema.Proofs.Union.NullEntry
import KubeSchema.Proofs.Violations

/-!
# Optionals with their keywords joined

The keywords that the entry of an optional hands over are put among those of its parent one after the other. This
fails at the first one that both state differently, if there is one (`Node.Contradict`). Otherwise the parent is
written with the members of both (`Node.joined`). The entry may be the first of the pair or the second.

* `foldlM_mergeKeyword`: keywords one after the other.
* `outcome_hoistEntry`: the entry at any index.
* `hoistOptional_joins`: the optional as it is written afterwards.
-/

namespace KubeSchema

namespace Node

variable {path place : Pointer} {n e : ObjectSchema} {own ms ns : Members Json}

/-! ## One keyword after the other -/

/-- Two objects state a keyword differently, and not one of those that the first takes from the second. -/
structure Contradict (own ms : Members Json) (keyword : String) (x y : Json) : Prop where
  kept : keyword ∉ replacedKeywords
  existing : Members.get? own keyword = some x
  incoming : Members.get? ms keyword = some y
  differ : ¬x.Alike y

/-- Keywords are set one after the other, up to the first that is stated differently already. -/
theorem foldlM_mergeKeyword (own : Members Json) {l : Members Json} (hd : Members.Distinct l) :
    ((∀ m ∈ l, ∀ x, Members.get? own m.1 = some x → x.Alike m.2) ∧
        ∀ place, (l.foldlM (mergeKeyword place) own).outcome = .ok (Members.setAll own l)) ∨
      ∃ m ∈ l, ∃ x, Members.get? own m.1 = some x ∧ ¬x.Alike m.2 ∧
        ∀ place, (l.foldlM (mergeKeyword place) own).outcome =
          .error (.violation (.keywordConflict m.1 x m.2) place) := by
  induction l generalizing own with
  | nil => exact .inl ⟨nofun, fun _ => rfl⟩
  | cons m l ih =>
    obtain ⟨hnot, hl⟩ := List.nodup_cons.1 hd
    simp only [List.foldlM_cons, Traced.outcome_bind]
    by_cases hm : ∃ x, Members.get? own m.1 = some x ∧ ¬x.Alike m.2
    · obtain ⟨x, hx, hdiffer⟩ := hm
      refine .inr ⟨m, List.mem_cons_self, x, hx, hdiffer, fun place => ?_⟩
      rw [mergeKeyword, hx]
      dsimp only
      rw [if_neg hdiffer]
      rfl
    · have halike : ∀ x, Members.get? own m.1 = some x → x.Alike m.2 := by simpa using hm
      have hset (place : Pointer) : (mergeKeyword place own m).outcome = .ok (Members.set own m.1 m.2) := by
        unfold mergeKeyword
        split
        · next x hx =>
          rw [if_pos (halike x hx)]
          rfl
        · rfl
      -- The keywords that follow have other names, so that what is there already is what was there before.
      have hother {p : String × Json} (hp : p ∈ l) :
          Members.get? (Members.set own m.1 m.2) p.1 = Members.get? own p.1 := by
        have hne : m.1 ≠ p.1 := fun h => hnot (h ▸ List.mem_map_of_mem hp)
        rw [Members.get?_set, if_neg hne]
      simp only [hset]
      rcases ih (Members.set own m.1 m.2) hl with ⟨hall, hok⟩ | ⟨p, hp, x, hx, hdiffer, herror⟩
      · refine .inl ⟨List.forall_mem_cons.2 ⟨halike, fun p hp x hx => hall p hp x ?_⟩, hok⟩
        rwa [hother hp]
      · exact .inr ⟨p, List.mem_cons_of_mem _ hp, x, hother hp ▸ hx, hdiffer, herror⟩

/-- What an entry hands over contradicts the parent where the entry does. -/
theorem contradict_iff (hms : Members.Distinct ms) {keyword : String} {x y : Json} :
    Contradict own ms keyword x y ↔ (keyword, y) ∈ Members.eraseAll ms replacedKeywords ∧
      Members.get? own keyword = some x ∧ ¬x.Alike y := by
  constructor
  · intro h
    refine ⟨Members.mem_of_get? ?_, h.existing, h.differ⟩
    rw [Members.get?_eraseAll, if_neg h.kept, h.incoming]
  · rintro ⟨hm, hx, hdiffer⟩
    have hget := Members.get?_of_mem (hms.eraseAll _) hm
    rw [Members.get?_eraseAll] at hget
    split at hget
    · cases hget
    · next hk => exact ⟨hk, hx, hget, hdiffer⟩

/-- Nothing is contradicted if what is handed over is like what is there already. -/
theorem not_contradict_of_alike (hms : Members.Distinct ms)
    (h : ∀ m ∈ Members.eraseAll ms replacedKeywords, ∀ x ∈ Members.get? own m.1, x.Alike m.2) (keyword : String)
    (x y : Json) : ¬Contradict own ms keyword x y := by
  intro hcontra
  obtain ⟨hmem, hx, hdiffer⟩ := (contradict_iff hms).1 hcontra
  exact hdiffer (h _ hmem x hx)

/-- The keywords of an entry are put among those of its parent, unless one of them is stated differently there. -/
theorem outcome_mergeKeywords (hn : (Schema.object n).Regular) (he : (Schema.object e).Regular)
    (hown : n.encode = .ok own) (hms : e.encode = .ok ms) :
    ((∀ keyword x y, ¬Contradict own ms keyword x y) ∧ ∃ m, ∀ place,
        (mergeKeywords place n (Members.eraseAll ms replacedKeywords)).outcome = .ok m) ∨
      ∃ keyword x y, Contradict own ms keyword x y ∧ ∀ place,
        (mergeKeywords place n (Members.eraseAll ms replacedKeywords)).outcome =
          .error (.violation (.keywordConflict keyword x y) place) := by
  have hdistinct : Members.Distinct ms := distinct_of_encode hms
  have hencoded : (Run.encoded n.encode).outcome = .ok own := Run.encoded_eq_ok.2 hown
  unfold mergeKeywords
  simp only [Traced.outcome_bind, hencoded]
  rcases foldlM_mergeKeyword own (hdistinct.eraseAll replacedKeywords) with ⟨hall, hok⟩ | ⟨m, hm, x, hx, hd, herror⟩
  · obtain ⟨m, hdecode, -⟩ := exists_decode _ (readField_merged hn he hown hms)
    refine .inl ⟨not_contradict_of_alike hdistinct hall, m, fun place => ?_⟩
    simp only [bind, Except.bind, hok]
    exact Run.decoded_eq_ok.2 hdecode
  · refine .inr ⟨m.1, x, m.2, (contradict_iff hdistinct).2 ⟨hm, hx, hd⟩, fun place => ?_⟩
    simp only [bind, Except.bind, herror]

/-! ## The entry -/

/-- An entry that hands over nothing does so with its keywords put among the parent's, too. -/
theorem mergeKeywords_nil (hn : (Schema.object n).Regular) (place : Pointer) :
    (mergeKeywords place n []).outcome = .ok n := by
  obtain ⟨own, hown, -, hdecode⟩ := exists_encode_node hn
  refine Traced.bind_eq_ok.2 ⟨own, Run.encoded_eq_ok.2 hown, ?_⟩
  exact Traced.bind_eq_ok.2 ⟨own, rfl, Run.decoded_eq_ok.2 hdecode⟩

/-- Hoisting an entry is merging its keywords; what replaces the parent's is then taken from the entry. -/
theorem outcome_hoistEntry_eq (hn : (Schema.object n).Regular) (hms : e.encode = .ok ms)
    (anyOf : Option (List Schema)) (path : Pointer) (index : Nat) :
    (hoistEntry path { n with anyOf } index (.object e)).outcome =
      (fun m : ObjectSchema => (⟨{ m with
          description := e.description
          types := e.types
          enum := e.enum
          extensions := Members.set m.extensions nullableKeyword (.bool true) },
        !(Members.eraseAll ms replacedKeywords).isEmpty⟩ : Optional)) <$>
        (mergeKeywords (path ++ [Union.anyOf.name, Pointer.index index]) { n with anyOf := none }
          (Members.eraseAll ms replacedKeywords)).outcome := by
  have hencoded : (Run.encoded e.encode).outcome = .ok ms := Run.encoded_eq_ok.2 hms
  unfold hoistEntry
  dsimp only
  rw [Traced.outcome_bind, hencoded]
  show Traced.outcome (if (Members.eraseAll ms replacedKeywords).isEmpty then _ else _) = _
  generalize Members.eraseAll ms replacedKeywords = keywords
  cases keywords with
  | nil =>
    rw [mergeKeywords_nil (regular_without_anyOf hn)]
    rfl
  | cons m keywords =>
    show Traced.outcome (_ >>= _) = _
    rw [Traced.outcome_bind]
    cases (mergeKeywords _ _ _).outcome <;> rfl

/-- The entry of an optional is laid over its parent, or contradicts it. That does not depend on where it stands. -/
theorem outcome_hoistEntry (hn : (Schema.object n).Regular) (he : (Schema.object e).Regular)
    (hown : { n with anyOf := none }.encode = .ok own) (hms : e.encode = .ok ms) :
    ((∀ keyword x y, ¬Contradict own ms keyword x y) ∧ ∃ r : Optional, r.node = overlay { n with anyOf := none } e ∧
        ∀ anyOf path index, (hoistEntry path { n with anyOf } index (.object e)).outcome = .ok r) ∨
      ∃ keyword x y, Contradict own ms keyword x y ∧
        ∀ anyOf path index, (hoistEntry path { n with anyOf } index (.object e)).outcome =
          .error (.violation (.keywordConflict keyword x y) (path ++ [Union.anyOf.name, Pointer.index index])) := by
  have hreg := regular_without_anyOf hn
  have heq := outcome_hoistEntry_eq hn hms
  rcases outcome_mergeKeywords hreg he hown hms with ⟨hno, m, hok⟩ | ⟨keyword, x, y, hcontra, herror⟩
  · simp only [hok] at heq
    refine .inl ⟨hno, _, ?_, heq⟩
    obtain ⟨e', h, hnode, -⟩ := hoistEntry_eq_ok hreg he (heq none [] 0)
    cases h
    exact hnode
  · simp only [herror] at heq
    exact .inr ⟨keyword, x, y, hcontra, heq⟩

/-! ## What is written -/

/-- The members of a parent, apart from those that are replaced, joined with the members of the entry. -/
def joined (own ms : Members Json) : Members Json :=
  Members.set (Members.setAll (Members.eraseAll own replacedKeywords) ms) nullableKeyword (.bool true)

/-- Without its untagged variants a schema object is written with the same other members. -/
theorem encode_without_anyOf (hn : n.Regular) (hns : n.encode = .ok ns) :
    { n with anyOf := none }.encode = .ok (Members.eraseAll ns [Union.anyOf.name]) := by
  obtain ⟨vals, hw, rfl, hd, hnames⟩ := encode_eq_ok.1 hns
  have hfields : Members.eraseAll (fieldMembers vals Keyword.all) [Union.anyOf.name] =
      fieldMembers (fun k => if k = .anyOf then none else vals k) Keyword.all := by
    unfold Members.eraseAll fieldMembers
    rw [List.filter_filterMap]
    refine List.filterMap_congr fun k _ => ?_
    by_cases hk : k = .anyOf
    · subst hk
      cases vals .anyOf <;> rfl
    · have hname : k.name ≠ Union.anyOf.name := fun h => hk (Keyword.name_injective h)
      cases hv : vals k <;> simp [hk, hv, hname]
  have hothers : Members.eraseAll (n.extensions ++ n.other) [Union.anyOf.name] = n.extensions ++ n.other := by
    refine List.filter_eq_self.2 fun m hm => ?_
    have hm : isModeled m.1 = false := hn.isModeled m hm
    have hname : m.1 ≠ Union.anyOf.name := fun h => absurd (h ▸ hm) (by decide)
    simpa using hname
  have hsplit : Members.eraseAll (fieldMembers vals Keyword.all ++ (n.extensions ++ n.other)) [Union.anyOf.name] =
      fieldMembers (fun k => if k = .anyOf then none else vals k) Keyword.all ++ (n.extensions ++ n.other) := by
    rw [Members.eraseAll, List.filter_append]
    exact congrArg₂ _ hfields hothers
  refine encode_eq_ok.2 ⟨_, fun k => ?_, hsplit, hd, fun m hm hmem => ?_⟩
  · by_cases hk : k = .anyOf
    · subst hk
      rfl
    · rw [if_neg hk, ← hw k]
      cases k <;> first | rfl | exact absurd rfl hk
  · have hmodeled : isModeled m.1 = false := hn.isModeled m hm
    obtain ⟨p, hp, hname⟩ := List.mem_map.1 hmem
    rw [← hname, isModeled_of_mem_fieldMembers hp] at hmodeled
    cases hmodeled

/-- Under the name of a keyword stands what the field of the one laid over the other is written as. -/
theorem get?_joined (hn : n.Regular) (he : (Schema.object e).Regular) (hown : n.encode = .ok own)
    (hms : e.encode = .ok ms) (k : Keyword) :
    k.writeField ((overlay n e).field k) = .ok (Members.get? (joined own ms) k.name) := by
  have hdistinct : Members.Distinct ms := distinct_of_encode hms
  obtain ⟨vals, hw, rfl, -⟩ := encode_eq_ok.1 hown
  obtain ⟨vals', hw', rfl, -⟩ := encode_eq_ok.1 hms
  have hname : nullableKeyword ≠ k.name := by cases k <;> decide
  rw [joined, Members.get?_set, if_neg hname, Members.get?_setAll hdistinct, Members.get?_eraseAll,
    get?_written_of_other hn.isModeled, get?_written_of_other he.here.isModeled]
  split
  · next hreplaced =>
    have hentry : (overlay n e).field k = e.field k := by
      revert hreplaced
      cases k <;> first | exact fun _ => rfl | exact fun h => absurd h (by decide)
    rw [hentry, hw' k, Option.or_none]
  · next hkept =>
    rw [← field_overlay hkept, Keyword.over_eq (hw' k)]
    cases hv : vals' k with
    | none => exact hw k
    | some y => exact (hw' k).trans (congrArg _ hv)

/-- Of the joined members, those that are not modeled. -/
theorem filter_joined {p : String → Bool} (hp : ∀ name ∈ replacedKeywords, p name = false) :
    (joined own ms).filter (fun m => p m.1) =
      let both := Members.setAll (own.filter (fun m => p m.1)) (ms.filter (fun m => p m.1))
      if p nullableKeyword then Members.set both nullableKeyword (.bool true) else both := by
  have hkept : (Members.eraseAll own replacedKeywords).filter (fun m => p m.1) = own.filter (fun m => p m.1) := by
    rw [Members.eraseAll, List.filter_filter]
    exact List.filter_congr fun m _ => by by_cases hm : m.1 ∈ replacedKeywords <;> simp [hm, hp]
  rw [joined, Members.filter_set, Members.filter_setAll, hkept]

/-- An entry laid over its parent is written with the members of both. -/
theorem perm_joined (hn : (Schema.object n).Regular) (he : (Schema.object e).Regular) (hown : n.encode = .ok own)
    (hms : e.encode = .ok ms) (hover : (Schema.object (overlay n e)).Regular) {rs : Members Json}
    (hrs : (overlay n e).encode = .ok rs) : rs.Perm (joined own ms) := by
  have hreplaced : ∀ name ∈ replacedKeywords, isModeled name = true := by decide
  obtain ⟨hext, hother⟩ := filter_encode hover.here.separated hrs
  have hvendor : rs.filter (fun m => !isModeled m.1 && isVendor m.1) =
      (joined own ms).filter (fun m => !isModeled m.1 && isVendor m.1) := by
    rw [hext, filter_joined (p := fun name => !isModeled name && isVendor name) fun name hm => by simp [hreplaced name hm],
      (filter_encode hn.here.separated hown).1, (filter_encode he.here.separated hms).1]
    rfl
  have hplain : rs.filter (fun m => isOther m.1) = (joined own ms).filter (fun m => isOther m.1) := by
    rw [hother, filter_joined (p := isOther) fun name hm => by simp [isOther, hreplaced name hm],
      (filter_encode hn.here.separated hown).2, (filter_encode he.here.separated hms).2]
    rfl
  refine Members.perm_of_get? (distinct_of_encode hrs)
    ((Members.distinct_setAll ((distinct_of_encode hown).eraseAll _) ms).set _ _) fun name => ?_
  cases hmodeled : isModeled name with
  | true =>
    obtain ⟨k, hk⟩ := Option.isSome_iff_exists.1 hmodeled
    obtain ⟨vals, hw, rfl, -⟩ := encode_eq_ok.1 hrs
    rw [Keyword.name_of_ofName? hk, get?_written_of_other hover.here.isModeled]
    exact Except.ok.inj ((hw k).symm.trans (get?_joined hn.here he hown hms k))
  | false => exact get?_eq_of_not_modeled hvendor hplain hmodeled

theorem regular_overlay (hn : (Schema.object n).Regular) (he : (Schema.object e).Regular) :
    (Schema.object (overlay n e)).Regular := by
  refine Options.regular_of_children (hn.here.overlay he.here) fun k c hc => ?_
  rcases mem_children_overlay hc with hc | hc
  · exact he.child c (mem_children.2 ⟨k, hc⟩)
  · exact hn.child c (mem_children.2 ⟨k, hc⟩)

/-! ## The optional -/

/-- The untagged variants the other way round. -/
def swapped (n : ObjectSchema) : ObjectSchema := { n with anyOf := n.anyOf.map List.reverse }

/-- An optional is hoisted from its entry, which stands at the other index if the pair is swapped. -/
theorem IsOptional.exists_index (h : n.IsOptional e) (path : Pointer) : ∃ index < 2,
    hoistOptional path n = some <$> hoistEntry path n index (.object e) ∧
      hoistOptional path n.swapped = some <$> hoistEntry path n.swapped (1 - index) (.object e) := by
  obtain ⟨a, b, hab, hentry⟩ := h.entries
  have hswapped : n.swapped.anyOf = some [b, a] := congrArg (Option.map List.reverse) hab
  have hno := h.entry
  rcases hentry with ⟨ha, rfl⟩ | ⟨rfl, hb⟩
  · exact ⟨1, by decide, hoistOptional_pair hab ha hno, hoistOptional_pair hswapped hno ha⟩
  · exact ⟨0, by decide, hoistOptional_pair hab hno hb, hoistOptional_pair hswapped hb hno⟩

/-- An optional is hoisted unless its entry contradicts it, from whichever index. -/
theorem IsOptional.outcome_hoistOptional (he : n.IsOptional e) (hn : (Schema.object n).Regular)
    (hns : n.encode = .ok ns) (hms : e.encode = .ok ms) (path : Pointer) :
    ((∀ keyword x y, ¬Contradict (Members.eraseAll ns [Union.anyOf.name]) ms keyword x y) ∧
        ∃ r : Optional, r.node = overlay { n with anyOf := none } e ∧
          (hoistOptional path n).outcome = .ok (some r) ∧ (hoistOptional path n.swapped).outcome = .ok (some r)) ∨
      ∃ keyword x y, Contradict (Members.eraseAll ns [Union.anyOf.name]) ms keyword x y ∧ ∃ index < 2,
        (hoistOptional path n).outcome = .error (.violation (.keywordConflict keyword x y)
          (path ++ [Union.anyOf.name, Pointer.index index])) ∧
        (hoistOptional path n.swapped).outcome = .error (.violation (.keywordConflict keyword x y)
          (path ++ [Union.anyOf.name, Pointer.index (1 - index)])) := by
  have hentry : (Schema.object e).Regular := hn.child _ (mem_children.2 ⟨.anyOf, he.mem⟩)
  obtain ⟨index, hindex, heq, hswapped⟩ := he.exists_index path
  rw [heq, hswapped, Traced.outcome_map, Traced.outcome_map]
  rcases outcome_hoistEntry hn hentry (encode_without_anyOf hn.here hns) hms with
    ⟨hno, r, hr, hok⟩ | ⟨keyword, x, y, hcontra, herror⟩
  · have hhere := hok n.anyOf path index
    have hthere := hok n.swapped.anyOf path (1 - index)
    exact .inl ⟨hno, r, hr, congrArg (some <$> ·) hhere, congrArg (some <$> ·) hthere⟩
  · have hhere := herror n.anyOf path index
    have hthere := herror n.swapped.anyOf path (1 - index)
    exact .inr ⟨keyword, x, y, hcontra, index, hindex, congrArg (some <$> ·) hhere, congrArg (some <$> ·) hthere⟩

/-- An optional is hoisted unless its entry contradicts it, and is then written with the members of both. With the two
entries swapped the outcome is the same, apart from the index of the entry in the place of a violation. -/
theorem hoistOptional_joins {v : Json} (hd : v.hasDistinctNames = true) (hn : Node.decode v = .ok n)
    (he : n.IsOptional e) (path : Pointer) :
    ∃ ns ms, n.encode = .ok ns ∧ e.encode = .ok ms ∧
      ((∃ keyword x y place,
          (hoistOptional path n).outcome = .error (.violation (.keywordConflict keyword x y) place)) ↔
        ∃ keyword x y, Contradict (Members.eraseAll ns [Union.anyOf.name]) ms keyword x y) ∧
      ((¬∃ keyword x y, Contradict (Members.eraseAll ns [Union.anyOf.name]) ms keyword x y) →
        ∃ r rs, (hoistOptional path n).outcome = .ok (some r) ∧ r.node.encode = .ok rs ∧
          rs.Perm (joined (Members.eraseAll ns [Union.anyOf.name]) ms)) ∧
      ((∃ r, (hoistOptional path n).outcome = .ok r ∧ (hoistOptional path n.swapped).outcome = .ok r) ∨
        ∃ cause, ∃ index < 2,
          (hoistOptional path n).outcome =
              .error (.violation cause (path ++ [Union.anyOf.name, Pointer.index index])) ∧
            (hoistOptional path n.swapped).outcome =
              .error (.violation cause (path ++ [Union.anyOf.name, Pointer.index (1 - index)]))) := by
  have hreg := regular_of_decode hd hn
  have hentry : (Schema.object e).Regular := hreg.child _ (mem_children.2 ⟨.anyOf, he.mem⟩)
  obtain ⟨ns, hns, -⟩ := exists_encode_node hreg
  obtain ⟨ms, hms, -⟩ := exists_encode_node hentry
  refine ⟨ns, ms, hns, hms, ?_⟩
  rcases he.outcome_hoistOptional hreg hns hms path with
    ⟨hno, r, hr, hhere, hthere⟩ | ⟨keyword, x, y, hcontra, index, hindex, hhere, hthere⟩
  · have hover := regular_overlay (regular_without_anyOf hreg) hentry
    obtain ⟨rs, hrs, -⟩ := exists_encode_node hover
    have hperm := perm_joined (regular_without_anyOf hreg) hentry (encode_without_anyOf hreg.here hns) hms hover hrs
    rw [hhere]
    exact ⟨iff_of_false nofun fun ⟨keyword, x, y, h⟩ => hno keyword x y h, fun _ => ⟨r, rs, rfl, hr ▸ hrs, hperm⟩,
      .inl ⟨some r, rfl, hthere⟩⟩
  · have hcontradict : ∃ keyword x y, Contradict (Members.eraseAll ns [Union.anyOf.name]) ms keyword x y :=
      ⟨keyword, x, y, hcontra⟩
    exact ⟨iff_of_true ⟨keyword, x, y, _, hhere⟩ hcontradict, fun h => absurd hcontradict h,
      .inr ⟨_, index, hindex, hhere, hthere⟩⟩

/-- An entry with another format than its parent's is not hoisted. One with the same format hands over its other
keywords, in whichever place it stands. -/
theorem hoistOptional_joins_formats :
    let text : OneOrMany PrimitiveType := .one .string
    (let v : Json := .obj
        [("format", .str "x"), ("anyOf", .arr [.obj [("type", .str "string"), ("format", .str "y")], nullEntry])]
      let e : ObjectSchema := { types := some text, format := some "y" }
      let n : ObjectSchema := { format := some "x", anyOf := some [.object e, .object nullNode] }
      Node.decode v = .ok n ∧ n.IsOptional e ∧ ∃ keyword x y place,
        (hoistOptional [] n).outcome = .error (.violation (.keywordConflict keyword x y) place)) ∧
    (let entry : Json := .obj [("type", .str "string"), ("format", .str "x"), ("x-order", .int 1), ("pattern", .str "a")]
      let v : Json := .obj [
        ("description", .str "Replaced."), ("format", .str "x"), ("anyOf", .arr [entry, nullEntry]), ("title", .str "T")]
      let e : ObjectSchema := {
        types := some text, format := some "x", extensions := [("x-order", .int 1)], other := [("pattern", .str "a")] }
      let n : ObjectSchema := {
        description := some "Replaced.", format := some "x", anyOf := some [.object e, .object nullNode]
        other := [("title", .str "T")] }
      Node.decode v = .ok n ∧ n.IsOptional e ∧ ∃ r rs,
        (hoistOptional [] n).outcome = .ok (some r) ∧ (hoistOptional [] n.swapped).outcome = .ok (some r) ∧
          r.node.encode = .ok rs ∧ rs.Perm [
            ("type", .str "string"), ("format", .str "x"), ("x-order", .int 1), ("pattern", .str "a"),
            ("title", .str "T"), ("nullable", .bool true)]) := by
  intro text
  constructor
  · intro v e n
    have hn : Node.decode v = .ok n := rfl
    have he : n.IsOptional e := ⟨⟨_, _, rfl, .inr ⟨rfl, rfl⟩⟩, rfl⟩
    obtain ⟨ns, ms, hns, hms, hconflict, -⟩ := hoistOptional_joins rfl hn he []
    cases hns
    cases hms
    exact ⟨hn, he, hconflict.2 ⟨"format", .str "x", .str "y", by decide, rfl, rfl, by decide⟩⟩
  · intro entry v e n
    have hn : Node.decode v = .ok n := rfl
    have he : n.IsOptional e := ⟨⟨_, _, rfl, .inr ⟨rfl, rfl⟩⟩, rfl⟩
    obtain ⟨ns, ms, hns, hms, -, hjoins, hswap⟩ := hoistOptional_joins rfl hn he []
    cases hns
    cases hms
    obtain ⟨r, rs, hr, hrs, hperm⟩ := hjoins fun ⟨keyword, x, y, h⟩ =>
      not_contradict_of_alike (by decide) (by decide) keyword x y h
    have hthere : (hoistOptional [] n.swapped).outcome = .ok (some r) := by
      rcases hswap with ⟨r', hhere, hthere⟩ | ⟨cause, index, -, hhere, -⟩
      · cases hr.symm.trans hhere
        exact hthere
      · cases hr.symm.trans hhere
    exact ⟨hn, he, r, rs, hr, hthere, hrs, hperm.trans (by decide)⟩

end Node

end KubeSchema
