import KubeSchema.Proofs.Union.Optional

/-!
# The entry that only admits `null`

A regular schema that is written as the entry of an optional that admits `null` is that entry
(`eq_nullNode_of_isNullEntry`).
-/

namespace KubeSchema

/-- The entry of an optional that admits `null`, as a schema object. -/
def nullNode : ObjectSchema := { enum := some [.null], extensions := [(nullableKeyword, .bool true)] }

theorem Json.sorted_eq_bool {v : Json} {b : Bool} (h : v.sorted = .bool b) : v = .bool b := by
  cases v <;> first | exact h | cases h

theorem Json.sorted_eq_null {v : Json} (h : v.sorted = .null) : v = .null := by
  cases v <;> first | exact h | cases h

theorem Json.sorted_eq_nulls {v : Json} (h : v.sorted = .arr [.null]) : v = .arr [.null] := by
  cases v with
  | arr xs =>
    rw [Json.sorted, sortedItems_eq_map, Json.arr.injEq] at h
    obtain ⟨x, l, rfl, hx, hl⟩ := List.map_eq_cons_iff.1 h
    rw [Json.sorted_eq_null hx, List.map_eq_nil_iff.1 hl]
  | _ => cases h

theorem isNullEntry_nullNode : (Schema.object nullNode).isNullEntry = .ok true := rfl

theorem regular_nullNode : (Schema.object nullNode).Regular := regular_of_decode (v := nullEntry) rfl rfl

theorem nullEntry_sorted : sortedMembers [(Keyword.enum.name, .arr [.null]), (nullableKeyword, .bool true)] =
    [("enum", .arr [.null]), ("nullable", .bool true)] := rfl

namespace Node

/-- The members of an object that is like the entry. -/
theorem mem_of_alike_nullEntry {ms : Members Json} (h : (Json.obj ms).Alike nullEntry) :
    (∀ m ∈ ms, m = ("enum", .arr [.null]) ∨ m = ("nullable", .bool true)) ∧
      ("enum", .arr [.null]) ∈ ms ∧ ("nullable", .bool true) ∈ ms := by
  have hs : Members.sortByName (sortedMembers ms) =
      Members.sortByName [("enum", .arr [.null]), ("nullable", .bool true)] := by
    have he := nullEntry_sorted
    simpa [Json.Alike, Json.sorted, nullEntry, he] using h
  have hp : (sortedMembers ms).Perm [("enum", .arr [.null]), ("nullable", .bool true)] :=
    (Members.perm_sortByName _).symm.trans (hs ▸ Members.perm_sortByName _)
  rw [sortedMembers_eq_map] at hp
  have hall : ∀ m ∈ ms, m = ("enum", .arr [.null]) ∨ m = ("nullable", .bool true) := by
    intro m hm
    have hmem := hp.subset (List.mem_map_of_mem hm)
    rcases List.mem_cons.1 hmem with h | h
    · exact .inl (Prod.ext (Prod.ext_iff.1 h).1 (Json.sorted_eq_nulls (Prod.ext_iff.1 h).2))
    · have h := List.mem_singleton.1 h
      exact .inr (Prod.ext (Prod.ext_iff.1 h).1 (Json.sorted_eq_bool (Prod.ext_iff.1 h).2))
  refine ⟨hall, ?_, ?_⟩
  · obtain ⟨m, hm, h⟩ := List.mem_map.1 (hp.symm.subset List.mem_cons_self)
    rcases hall m hm with rfl | rfl
    · exact hm
    · exact absurd (Prod.ext_iff.1 h).1 (by decide)
  · obtain ⟨m, hm, h⟩ := List.mem_map.1 (hp.symm.subset (List.mem_cons_of_mem _ (List.mem_singleton.2 rfl)))
    rcases hall m hm with rfl | rfl
    · exact absurd (Prod.ext_iff.1 h).1 (by decide)
    · exact hm

theorem eq_singleton_of_distinct {ms : Members Json} {m : String × Json} (hd : Members.Distinct ms)
    (hall : ∀ p ∈ ms, p = m) (hm : m ∈ ms) : ms = [m] := by
  match ms, hd, hall, hm with
  | [p], _, hall, _ => rw [hall p (List.mem_singleton.2 rfl)]
  | p :: q :: r, hd, hall, _ =>
    have hp := hall p (by simp)
    have hq := hall q (by simp)
    simp [Members.Distinct, Members.names, hp, hq] at hd

/-- What is written with the members of the entry states no keyword but the values. -/
theorem written_of_nullEntry {vals : Keyword → Option Json}
    (hall : ∀ m ∈ fieldMembers vals Keyword.all, m = ("enum", .arr [.null]) ∨ m = ("nullable", .bool true))
    (henum : ("enum", .arr [.null]) ∈ fieldMembers vals Keyword.all) (k : Keyword) :
    vals k = if k = .enum then some (.arr [.null]) else none := by
  split
  · next hk =>
    subst hk
    obtain ⟨k, hk, hv⟩ := mem_fieldMembers.1 henum
    cases Keyword.name_injective (show Keyword.enum.name = k.name from hk)
    exact hv
  · next hk =>
    refine Option.eq_none_iff_forall_ne_some.2 fun v hv => ?_
    have hm : (k.name, v) ∈ fieldMembers vals Keyword.all := mem_fieldMembers.2 ⟨k, rfl, hv⟩
    rcases hall _ hm with e | e
    · exact hk (Keyword.name_injective (Prod.ext_iff.1 e).1)
    · have hmodeled := isModeled_of_mem_fieldMembers hm
      rw [(Prod.ext_iff.1 e).1] at hmodeled
      exact absurd hmodeled (by decide)

/-- Of the regular schemas only the entry that admits `null` is written as it. -/
theorem eq_nullNode_of_isNullEntry {s : Schema} (hs : s.Regular) (h : s.isNullEntry = .ok true) :
    s = .object nullNode := by
  obtain ⟨x, hx, h⟩ := bind_eq_ok.1 h
  have halike : x.Alike nullEntry := of_decide_eq_true (pure_eq_ok.1 h)
  cases s with
  | bool b =>
    cases hx
    cases halike
  | object n =>
    obtain ⟨ms, hms, rfl⟩ := map_eq_ok.1 hx
    obtain ⟨hall, henum, hnull⟩ := mem_of_alike_nullEntry halike
    have hms : n.encode = .ok ms := hms
    obtain ⟨vals, hw, rfl, hd, -⟩ := encode_eq_ok.1 hms
    have hn := hs.here
    have hothers : n.other = [] := by
      refine List.eq_nil_iff_forall_not_mem.2 fun m hm => ?_
      have ho := hn.other m hm
      rcases hall m (by simp [hm]) with rfl | rfl
      · exact absurd ho (by decide)
      · exact absurd ho (by decide)
    have hext : n.extensions = [(nullableKeyword, .bool true)] := by
      refine eq_singleton_of_distinct hn.distinct_parts.1 (fun m hm => ?_) ?_
      · refine (hall m (by simp [hm])).resolve_left fun e => ?_
        have hv := hn.extensions m hm
        exact absurd (e ▸ hv) (by decide)
      · rw [hothers, List.append_nil] at hnull
        refine (List.mem_append.1 hnull).resolve_left fun hf => ?_
        exact absurd (isModeled_of_mem_fieldMembers hf) (by decide)
    have henum : ("enum", .arr [.null]) ∈ fieldMembers vals Keyword.all := by
      refine (List.mem_append.1 henum).resolve_right fun hf => ?_
      exact absurd (hn.isModeled _ hf) (by decide)
    have hfield (k : Keyword) : n.field k = nullNode.field k := by
      have hread : k.readField (vals k) = .ok (n.field k) := readField_of_writeField hs (hw k)
      rw [written_of_nullEntry (fun m hm => hall m (List.mem_append_left _ hm)) henum] at hread
      cases k <;> exact (Except.ok.inj hread).symm
    exact congrArg Schema.object (ext_field hfield hext hothers)

/-- The variants of an optional are its entry and the one that only admits `null`. -/
theorem IsOptional.eq_of_mem {n e : ObjectSchema} {s : Schema} (hn : (Schema.object n).Regular) (he : n.IsOptional e)
    (hs : s ∈ n.anyOf.getD []) : s = .object e ∨ s = .object nullNode := by
  have hreg : s.Regular := hn.child _ (mem_children.2 ⟨.anyOf, hs⟩)
  obtain ⟨a, b, hab, h⟩ := he.entries
  rw [hab, Option.getD_some, List.mem_pair] at hs
  rcases h with ⟨ha, rfl⟩ | ⟨rfl, hb⟩ <;> rcases hs with rfl | rfl
  · exact .inr (eq_nullNode_of_isNullEntry hreg ha)
  · exact .inl rfl
  · exact .inl rfl
  · exact .inr (eq_nullNode_of_isNullEntry hreg hb)

end Node

end KubeSchema
