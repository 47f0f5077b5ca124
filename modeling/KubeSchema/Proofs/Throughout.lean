import KubeSchema.Proofs.Restructuring

/-!
# Invariants of results

A property of schema objects that every schema position of a document has (`Json.Throughout`), and how restructuring
establishes one: it holds of what settling gives, provided that it held of the children. A child that was restructured
may have a further property, until its parent is settled.

* `throughout_of_decode`, `everywhere_of_throughout`: the property in terms of the schema that is read.
* `Restructures.inherits_within`, `Restructures.inherits`: what holds of the values in slots goes over to the result.
* `Restructures.throughout`: a property that settling establishes holds of every result.
-/

namespace KubeSchema

/-! ## Schema objects at positions -/

/-- Every value at a schema position has a property. -/
def Json.Wherever (E : Json → Prop) (v : Json) : Prop := ∀ w, Json.Position v w → E w

/-- Every schema object at a schema position has a property. -/
def Json.Throughout (P : ObjectSchema → Prop) (v : Json) : Prop :=
  ∀ w, Json.Position v w → ∀ n, Node.decode w = .ok n → P n

/-- A schema object has a property, and the values in the slots of its other keywords have one. -/
def Node.Both (P : ObjectSchema → Prop) (G : Json → Prop) (n : ObjectSchema) : Prop :=
  P n ∧ ∀ c ∈ Members.children n.other, G c

/-- A schema object has a property, and so have all below the keywords that are not modeled. -/
abbrev Node.Throughout (P : ObjectSchema → Prop) : ObjectSchema → Prop := Node.Both P (Json.Throughout P)

/-- A property of a schema that is an object. -/
def Schema.AtRoot (Q : ObjectSchema → Prop) : Schema → Prop
  | .bool _ => True
  | .object n => Q n

section

variable {P : ObjectSchema → Prop}

theorem Json.wherever_of_children {E : Json → Prop} {v : Json} (hv : E v) (h : ∀ c ∈ v.children, c.Wherever E) :
    v.Wherever E := by
  intro w hw
  cases hw with
  | root => exact hv
  | inside hc hw => exact h _ hc w hw

theorem Json.Wherever.child {E : Json → Prop} {v : Json} (h : v.Wherever E) : ∀ c ∈ v.children, c.Wherever E :=
  fun _ hc w hw => h w (.inside hc hw)

theorem Json.wherever_of_not_obj {E : Json → Prop} {v : Json} (hv : ∀ ms, v ≠ .obj ms) (h : E v) : v.Wherever E := by
  refine Json.wherever_of_children h fun c hc => ?_
  cases v with
  | obj ms => exact absurd rfl (hv ms)
  | _ => cases hc

theorem Json.throughout_of_children {v : Json} (hv : ∀ n, Node.decode v = .ok n → P n)
    (h : ∀ c ∈ v.children, c.Throughout P) : v.Throughout P := by
  intro w hw
  cases hw with
  | root => exact hv
  | inside hc hw => exact h _ hc w hw

theorem Json.Throughout.child {v : Json} (h : v.Throughout P) : ∀ c ∈ v.children, c.Throughout P :=
  fun _ hc w hw => h w (.inside hc hw)

theorem Json.throughout_of_not_obj {v : Json} (hv : ∀ ms, v ≠ .obj ms) : v.Throughout P := by
  refine Json.throughout_of_children (fun n hn => ?_) (fun c hc => ?_)
  · obtain ⟨ms, rfl⟩ := Node.exists_obj_of_decode hn
    exact absurd rfl (hv ms)
  · cases v with
    | obj ms => exact absurd rfl (hv ms)
    | _ => cases hc

/-- A value in a slot of a schema object is read as a child, is `null`, or stands below a keyword that is not
modeled. -/
theorem exists_child_of_mem_children {ms : Members Json} {n : ObjectSchema} (hd : Members.Distinct ms)
    (hn : Node.decode (.obj ms) = .ok n) {x : Json} (hx : x ∈ (Json.obj ms).children) :
    x = .null ∨ (∃ c ∈ n.children, Schema.decode x = .ok c) ∨ x ∈ Members.children n.other := by
  obtain ⟨m, hm, hx⟩ := Json.mem_children.1 hx
  obtain ⟨hf, -, ho⟩ := decode_eq_ok.1 hn
  cases hmod : isModeled m.1 with
  | true =>
    obtain ⟨k, hk⟩ := Option.isSome_iff_exists.1 hmod
    have hname : m.1 = k.name := Keyword.name_of_ofName? hk
    have hread := hf k
    rw [Members.get?_of_mem hd (show (k.name, m.2) ∈ ms from hname ▸ hm)] at hread
    rcases exists_child_of_value hread (hname ▸ hx) with h | ⟨c, hc, hxc⟩
    · exact .inl h
    · exact .inr (.inl ⟨c, Node.mem_children.2 ⟨k, hc⟩, hxc⟩)
  | false =>
    cases hv : isVendor m.1 with
    | true =>
      rw [ofKeyword?_of_isVendor hv] at hx
      cases hx
    | false =>
      refine .inr (.inr (List.mem_flatMap.2 ⟨m, ?_, hx⟩))
      rw [ho]
      exact List.mem_filter.2 ⟨hm, by simp [isOther, hmod, hv]⟩

/-- What holds of values that are no objects, and of those that read as a schema object with a property, holds wherever
a schema stands whose schema objects have that property. -/
theorem wherever_of_decode {E : Json → Prop} (hplain : ∀ v : Json, (∀ ms, v ≠ .obj ms) → E v)
    (hread : ∀ v n, Node.decode v = .ok n → P n → E v) {v : Json} (hd : v.hasDistinctNames = true) {s : Schema}
    (h : Schema.decode v = .ok s) (hs : s.Everywhere (Node.Both P (Json.Wherever E))) : v.Wherever E := by
  induction v using Json.induction generalizing s with
  | h v ih =>
    rcases Schema.decode_eq_ok.1 h with ⟨b, rfl, -⟩ | ⟨ms, n, rfl, hn, rfl⟩
    · exact Json.wherever_of_not_obj nofun (hplain _ nofun)
    · refine Json.wherever_of_children (hread _ n hn hs.here.1) (fun x hx => ?_)
      rcases exists_child_of_mem_children (Json.hasDistinctNames_obj.1 hd).1 hn hx with rfl | ⟨c, hc, hxc⟩ | hx
      · exact Json.wherever_of_not_obj nofun (hplain _ nofun)
      · exact ih x hx (Json.hasDistinctNames_child hd hx) hxc (hs.child c hc)
      · exact hs.here.2 x hx

/-- What holds throughout the schema that is read holds throughout the value. -/
theorem throughout_of_decode {v : Json} (hd : v.hasDistinctNames = true) {s : Schema} (h : Schema.decode v = .ok s)
    (hs : s.Everywhere (Node.Throughout P)) : v.Throughout P := by
  refine wherever_of_decode (fun v hv n hn => ?_) (fun v n hn hP m hm => ?_) hd h hs
  · obtain ⟨ms, rfl⟩ := Node.exists_obj_of_decode hn
    exact absurd rfl (hv ms)
  · cases hn.symm.trans hm
    exact hP

theorem mem_children_of_other {v x : Json} {n : ObjectSchema} (hn : Node.decode v = .ok n)
    (hx : x ∈ Members.children n.other) : x ∈ v.children := by
  obtain ⟨ms, rfl⟩ := Node.exists_obj_of_decode hn
  obtain ⟨m, hm, hx⟩ := List.mem_flatMap.1 hx
  rw [(decode_eq_ok.1 hn).2.2] at hm
  exact Json.mem_children.2 ⟨m, (List.mem_filter.1 hm).1, hx⟩

/-- What holds throughout the value holds throughout the schema that is read. -/
theorem everywhere_of_throughout {v : Json} {s : Schema} (h : Schema.decode v = .ok s) (hv : v.Throughout P) :
    s.Everywhere (Node.Throughout P) := by
  induction v using Json.induction generalizing s with
  | h v ih =>
    rcases Schema.decode_eq_ok.1 h with ⟨b, rfl, rfl⟩ | ⟨ms, n, rfl, hn, rfl⟩
    · exact .bool b
    · refine .object ⟨hv _ (.root _) n hn, fun x hx => hv.child x (mem_children_of_other hn hx)⟩ fun c hc => ?_
      obtain ⟨x, hx, hxc⟩ := exists_value_of_node_child hn hc
      exact ih x hx hxc (hv.child x hx)

end

/-! ## Results -/

namespace Options

open Node

variable {P Q : ObjectSchema → Prop} {G : Json → Prop} {o : Options} {path : Pointer} {n m u : ObjectSchema}

theorem mem_other_of_settlesUnions (h : o.SettlesUnions n u) {p : String × Json} (hp : p ∈ u.other) :
    p ∈ n.other ∨ ∃ w, .object w ∈ n.unionVariants ∧ p ∈ w.other := by
  have hclean (n : ObjectSchema) : (o.cleanEnum n).other = n.other := by
    obtain ⟨l, hl⟩ := cleanEnum_eq o n
    rw [hl]
  have hdrop (n : ObjectSchema) : n.dropEmptyOneOf.other = n.other := by
    obtain ⟨l, hl, -⟩ := dropEmptyOneOf_eq n
    rw [hl]
  cases h with
  | enumerated =>
    rw [hclean] at hp
    exact .inl hp
  | @optional e _ hone hany hagree hresult =>
    have hover : p ∈ Members.setAll n.other e.other := by
      rcases hresult with rfl | rfl
      · rw [hclean] at hp
        exact hp
      · rw [hdrop, hclean] at hp
        exact hp
    exact (Members.mem_setAll hover).imp id (fun h => ⟨e, List.mem_append_right _ hany.mem, h⟩)
  | @tagged ws =>
    rw [hdrop] at hp
    have hp : p ∈ (o.cleanEnum n).other := hp
    rw [hclean] at hp
    exact .inl hp
  | @untagged ws =>
    have hp : p ∈ (o.cleanEnum n).dropEmptyOneOf.other := hp
    rw [hdrop, hclean] at hp
    exact .inl hp

/-- A property of schema objects that hoisting keeps in variants, and that a description does not matter for. -/
structure KeptByHoisting (P : ObjectSchema → Prop) : Prop where
  variant : ∀ w, P w → P (hoistedVariant w)
  tag : ∀ (n : ObjectSchema) (text : String), P n → P { n with description := some text }

theorem other_hoistedVariant (w : ObjectSchema) : (hoistedVariant w).other = w.other := by
  obtain ⟨_, _, _, _, _, h⟩ := hoistedVariant_eq w
  rw [h]

/-- Settling establishes a property that held of the children. -/
theorem everywhere_of_settle (hP : KeptByHoisting P) (hn : (Schema.object n).Regular)
    (h : (o.settle path n).outcome = .ok m) (hc : ∀ c ∈ n.children, c.Everywhere (Node.Both P G))
    (ho : ∀ c ∈ Members.children n.other, G c) (hm : P m) : (Schema.object m).Everywhere (Node.Both P G) := by
  refine .object ⟨hm, fun x hx => ?_⟩ fun c hc' => ?_
  · obtain ⟨u, hu, rfl⟩ := settle_eq_ok hn h
    rw [other_finish] at hx
    obtain ⟨p, hp, hx⟩ := List.mem_flatMap.1 hx
    rcases mem_other_of_settlesUnions hu hp with hp | ⟨w, hw, hp⟩
    · exact ho x (List.mem_flatMap.2 ⟨p, hp, hx⟩)
    · exact (hc _ (unionVariants_subset_children hw)).here.2 x (List.mem_flatMap.2 ⟨p, hp, hx⟩)
  · obtain ⟨k, hk⟩ := mem_children.1 hc'
    refine (passed_of_settle hn h hk).everywhere (fun w hw => ⟨hP.variant w hw.1, ?_⟩)
      (fun n text hn => ⟨hP.tag n text hn.1, hn.2⟩) hc
    rw [other_hoistedVariant]
    exact hw.2

/-- A property of values that follows for a result from the values in its slots: a property `P` holds of all schema
objects that are read there, and `Q` of the one that the result is written from. -/
structure Inherited (P Q : ObjectSchema → Prop) (G : Json → Prop) : Prop where
  plain : ∀ v : Json, (∀ ms, v ≠ .obj ms) → G v
  unread : ∀ (ms : Members Json) (e : DecodeError), Node.decode (.obj ms) = .error e →
    (∀ c ∈ Members.children ms, G c) → G (.obj ms)
  written : ∀ (m : ObjectSchema) (r : Json), (Schema.object m).Regular →
    (Schema.object m).Everywhere (Node.Both P G) → Q m → r.hasDistinctNames = true → m.toJson = .ok r →
    Node.decode r = .ok m → G r

/-- A property of values that follows for the results of the values at the positions of a value. -/
structure InheritedIn (o : Options) (P Q : ObjectSchema → Prop) (G : Json → Prop) (v : Json) : Prop where
  plain : ∀ w : Json, v.Position w → (∀ ms, w ≠ .obj ms) → G w
  unread : ∀ (ms ms' : Members Json) (e : DecodeError), v.Position (.obj ms) →
    Members.SlotsMap o.Restructures ms ms' → Node.decode (.obj ms') = .error e →
    (∀ c ∈ Members.children ms', G c) → G (.obj ms')
  written : ∀ (m : ObjectSchema) (r : Json), (Schema.object m).Regular →
    (Schema.object m).Everywhere (Node.Both P G) → Q m → r.hasDistinctNames = true → m.toJson = .ok r →
    Node.decode r = .ok m → G r

theorem Inherited.within (hG : Inherited P Q G) (o : Options) (v : Json) : InheritedIn o P Q G v where
  plain w _ := hG.plain w
  unread _ ms' e _ _ := hG.unread ms' e
  written := hG.written

theorem InheritedIn.child {v c : Json} (hG : InheritedIn o P Q G v) (hc : c ∈ v.children) : InheritedIn o P Q G c where
  plain w hw := hG.plain w (.inside hc hw)
  unread ms ms' e hms := hG.unread ms ms' e (.inside hc hms)
  written := hG.written

/-- Settling establishes a property `P` of the schema objects that the positions of a value read as, once the values in
slots are restructured, and `Q`, if `P` holds in their children and `Q` of these. -/
def EstablishedIn (o : Options) (P Q : ObjectSchema → Prop) (v : Json) : Prop :=
  ∀ ms ms', v.Position (.obj ms) → Members.SlotsMap o.Restructures ms ms' → ∀ path n m,
    Node.decode (.obj ms') = .ok n → (Schema.object n).Regular → (∀ c ∈ n.children, c.Everywhere P ∧ c.AtRoot Q) →
    (o.settle path n).outcome = .ok m → P m ∧ Q m

/-- Properties that settling establishes from the children: one throughout the result, another of the result itself,
and one of values that follows from these. -/
theorem Restructures.inherits_within (hP : KeptByHoisting P) (hkey : isVendor o.preserveKey = true) {v r : Json}
    (hG : InheritedIn o P Q G v) (hsettle : o.EstablishedIn P Q v) (hd : v.hasDistinctNames = true)
    (h : o.Restructures v r) :
    G r ∧ ∀ m, Node.decode r = .ok m → (Schema.object m).Everywhere (Node.Both P G) ∧ Q m := by
  induction v using Json.induction generalizing r with
  | h v ih =>
    cases v with
    | obj ms =>
      obtain ⟨ms', hslots, hms, hr⟩ := h.of_obj hkey hd
      have hbelow : ∀ c ∈ Members.children ms', G c ∧
          ∀ m, Node.decode c = .ok m → (Schema.object m).Everywhere (Node.Both P G) ∧ Q m := by
        intro c' hc'
        obtain ⟨c, hc, hr⟩ := exists_of_mem_right hslots.children hc'
        have hinside : o.EstablishedIn P Q c := fun ms ms' hms => hsettle ms ms' (.inside hc hms)
        exact ih c hc (hG.child hc) hinside (Json.hasDistinctNames_child hd hc) hr
      rcases hr with ⟨e, he, rfl⟩ | ⟨path, n, m, hn, hm, hjson, hdec⟩
      · refine ⟨hG.unread ms ms' e (.root _) hslots he fun c hc => (hbelow c hc).1, fun m hm => ?_⟩
        cases he.symm.trans hm
      · have hreg : (Schema.object n).Regular := regular_of_decode hms hn
        have hc : ∀ c ∈ n.children, c.Everywhere (Node.Both P G) ∧ c.AtRoot Q := fun c hc => by
          obtain ⟨x, hx, hxc⟩ := exists_value_of_node_child hn hc
          cases c with
          | bool b => exact ⟨.bool b, trivial⟩
          | object c => exact (hbelow x hx).2 c (Schema.decode_object hxc)
        obtain ⟨hPm, hQm⟩ := hsettle ms ms' (.root _) hslots path n m hn hreg
          (fun c h => ⟨(hc c h).1.imp (fun _ h => h.1), (hc c h).2⟩) hm
        have hall : (Schema.object m).Everywhere (Node.Both P G) :=
          everywhere_of_settle hP hreg hm (fun c h => (hc c h).1)
            (fun x hx => (hbelow x (mem_children_of_other hn hx)).1) hPm
        refine ⟨hG.written m r (regular_of_settle hkey hreg hm) hall hQm (h.hasDistinctNames hd) hjson hdec, ?_⟩
        intro m' hm'
        cases hdec.symm.trans hm'
        exact ⟨hall, hQm⟩
    | _ =>
      rw [h.of_not_obj nofun]
      refine ⟨hG.plain _ (.root _) nofun, fun m hm => ?_⟩
      obtain ⟨_, e⟩ := exists_obj_of_decode hm
      cases e

theorem Restructures.inherits_of_established (hP : KeptByHoisting P) (hkey : isVendor o.preserveKey = true)
    (hG : Inherited P Q G) {v r : Json} (hsettle : o.EstablishedIn P Q v) (hd : v.hasDistinctNames = true)
    (h : o.Restructures v r) :
    G r ∧ ∀ m, Node.decode r = .ok m → (Schema.object m).Everywhere (Node.Both P G) ∧ Q m :=
  h.inherits_within hP hkey (hG.within o v) hsettle hd

/-- What settling establishes of every schema object goes over to every result. -/
theorem Restructures.inherits (hP : KeptByHoisting P) (hkey : isVendor o.preserveKey = true)
    (hsettle : ∀ (path : Pointer) (n m : ObjectSchema), (Schema.object n).Regular →
      (∀ c ∈ n.children, c.Everywhere P ∧ c.AtRoot Q) → (o.settle path n).outcome = .ok m → P m ∧ Q m)
    (hG : Inherited P Q G) {v r : Json} (hd : v.hasDistinctNames = true) (h : o.Restructures v r) :
    G r ∧ ∀ m, Node.decode r = .ok m → (Schema.object m).Everywhere (Node.Both P G) ∧ Q m :=
  h.inherits_of_established hP hkey hG (fun _ _ _ _ path n m _ => hsettle path n m) hd

theorem inherited_throughout : Inherited P Q (Json.Throughout P) where
  plain _ hv := Json.throughout_of_not_obj hv
  unread ms e he hc := by
    refine Json.throughout_of_children (fun n hn => ?_) hc
    cases he.symm.trans hn
  written m r _ hm _ hd _ hdec := throughout_of_decode hd (Schema.decode_of_node hdec) hm

/-- A property that settling establishes from the children holds throughout every result. -/
theorem Restructures.throughout (hP : KeptByHoisting P) (hkey : isVendor o.preserveKey = true)
    (hsettle : ∀ (path : Pointer) (n m : ObjectSchema), (Schema.object n).Regular →
      (∀ c ∈ n.children, c.Everywhere P) → (o.settle path n).outcome = .ok m → P m)
    {v r : Json} (hd : v.hasDistinctNames = true) (h : o.Restructures v r) : r.Throughout P := by
  have hsettle' : ∀ (path : Pointer) (n m : ObjectSchema), (Schema.object n).Regular →
      (∀ c ∈ n.children, c.Everywhere P ∧ c.AtRoot (fun _ => True)) → (o.settle path n).outcome = .ok m →
      P m ∧ True := fun path n m hn hc hm => ⟨hsettle path n m hn (fun c h => (hc c h).1) hm, trivial⟩
  exact (h.inherits hP hkey hsettle' inherited_throughout hd).1

end Options

end KubeSchema
