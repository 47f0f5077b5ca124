import KubeSchema.Pointer
import KubeSchema.Proofs.Position
import KubeSchema.Text.Numeral

/-!
# Following pointers

A pointer leads from a value to one inside it, token by token (`Json.find?`); a fragment does, once it is read as a
pointer (`Json.follow?`).

* `ofFragment?_render`: a pointer that is written is read again.
* `Members.located`: the values in the slots of an object, each with the pointer that leads there (`find?_of_located`).
-/

namespace KubeSchema

/-! ## Reading fragments -/

namespace Pointer

/-- The characters of a token that is written. -/
def unescape : List Char → List Char
  | '~' :: '0' :: r => '~' :: unescape r
  | '~' :: '1' :: r => '/' :: unescape r
  | c :: r => c :: unescape r
  | [] => []

/-- The pointer of a fragment: what stands behind each slash is a token. -/
def ofFragment? (fragment : String) : Option Pointer :=
  match fragment.toList with
  | '#' :: r =>
    match r.splitOn '/' with
    | [] :: tokens => some (tokens.map (fun token => String.ofList (unescape token)))
    | _ => none
  | _ => none

theorem unescape_cons {c : Char} (h : c ≠ '~') (r : List Char) : unescape (c :: r) = c :: unescape r := by
  conv_lhs => unfold unescape
  split <;> simp_all

/-- Unescaping undoes the escapes. -/
theorem unescape_flatMap (cs : List Char) : unescape (cs.flatMap escapedChar) = cs := by
  induction cs with
  | nil => rfl
  | cons c cs ih =>
    rw [List.flatMap_cons]
    by_cases htilde : c = '~'
    · subst htilde
      exact congrArg ('~' :: ·) ih
    · by_cases hslash : c = '/'
      · subst hslash
        exact congrArg ('/' :: ·) ih
      · have hplain : escapedChar c = [c] := by rw [escapedChar, if_neg htilde, if_neg hslash]
        rw [hplain, List.singleton_append, unescape_cons htilde, ih]

/-- A token is written without a slash of its own. -/
theorem slash_not_mem (cs : List Char) : '/' ∉ cs.flatMap escapedChar := by
  intro h
  obtain ⟨c, -, hc⟩ := List.mem_flatMap.1 h
  unfold escapedChar at hc
  split at hc
  · exact absurd hc (by decide)
  · split at hc
    · exact absurd hc (by decide)
    · next hslash => exact hslash (List.mem_singleton.1 hc).symm

/-- The slashes of a pointer part its tokens. -/
theorem splitOn_flatMap (p : Pointer) :
    (p.flatMap renderToken).splitOn '/' = [] :: p.map (fun token => token.toList.flatMap escapedChar) := by
  have hjoin : p.flatMap renderToken =
      ['/'].intercalate ([] :: p.map (fun token => token.toList.flatMap escapedChar)) := by
    induction p with
    | nil => rfl
    | cons token p ih =>
      rw [List.flatMap_cons, ih, List.map_cons, List.intercalate_cons_cons]
      cases p with
      | nil => simp [renderToken, List.intercalate]
      | cons next p => simp [renderToken, List.intercalate_cons_cons]
  rw [hjoin]
  refine List.splitOn_intercalate '/' ?_ (List.cons_ne_nil _ _)
  intro token htoken
  rcases List.mem_cons.1 htoken with rfl | htoken
  · exact List.not_mem_nil
  · obtain ⟨token, -, rfl⟩ := List.mem_map.1 htoken
    exact slash_not_mem _

/-- A pointer that is written is read again. -/
theorem ofFragment?_render (p : Pointer) : ofFragment? p.render = some p := by
  have hread : (p.map (fun token => token.toList.flatMap escapedChar)).map
      (fun token => String.ofList (unescape token)) = p := by
    rw [List.map_map]
    refine (List.map_congr_left fun token _ => ?_).trans (List.map_id p)
    simp [unescape_flatMap]
  simp only [ofFragment?, render, String.toList_ofList, splitOn_flatMap, hread]

theorem index_injective {i j : Nat} (h : index i = index j) : i = j := by
  have hdigits : Numeral.decimal i = Numeral.decimal j := String.ofList_injective h
  rw [← Numeral.ofDecimal_decimal i, hdigits, Numeral.ofDecimal_decimal]

end Pointer

/-! ## Values inside a value -/

namespace Json

/-- The item of a list with a token, the first item being at an index. -/
def itemAt? (index : Nat) : List Json → String → Option Json
  | [], _ => none
  | x :: xs, token => if Pointer.index index = token then some x else itemAt? (index + 1) xs token

/-- The value that a token leads to: a member of an object, or an item of a list. -/
def step? : Json → String → Option Json
  | obj ms, token => Members.get? ms token
  | arr xs, token => itemAt? 0 xs token
  | _, _ => none

/-- The value that a pointer leads to. -/
def find? (v : Json) : Pointer → Option Json
  | [] => some v
  | token :: p => (v.step? token).bind (fun w => w.find? p)

/-- The value that a fragment leads to. -/
def follow? (v : Json) (fragment : String) : Option Json := (Pointer.ofFragment? fragment).bind v.find?

theorem follow?_render (v : Json) (p : Pointer) : v.follow? p.render = v.find? p := by
  rw [follow?, Pointer.ofFragment?_render]
  rfl

theorem find?_append (v : Json) (p q : Pointer) : v.find? (p ++ q) = (v.find? p).bind (fun w => w.find? q) := by
  induction p generalizing v with
  | nil => rfl
  | cons token p ih =>
    rw [List.cons_append, find?, find?]
    cases v.step? token with
    | none => rfl
    | some w => exact ih w

theorem itemAt?_index (xs : List Json) (start i : Nat) : itemAt? start xs (Pointer.index (start + i)) = xs[i]? := by
  induction xs generalizing start i with
  | nil => rfl
  | cons x xs ih =>
    rw [itemAt?]
    cases i with
    | zero => exact if_pos rfl
    | succ i =>
      have hne : Pointer.index start ≠ Pointer.index (start + (i + 1)) := fun h => by
        have := Pointer.index_injective h
        omega
      rw [if_neg hne, ← Nat.add_assoc, Nat.add_right_comm, ih]
      rfl

/-- An index leads to the item there. -/
theorem find?_index (xs : List Json) (i : Nat) (p : Pointer) :
    (arr xs).find? (Pointer.index i :: p) = xs[i]?.bind (fun w => w.find? p) := by
  have h := itemAt?_index xs 0 i
  rw [Nat.zero_add] at h
  rw [find?, step?, h]

end Json

/-! ## Values in slots -/

/-- The items of a list, with the tokens that lead there. -/
def locatedItems (index : Nat) : List Json → List (Pointer × Json)
  | [] => []
  | x :: xs => ([Pointer.index index], x) :: locatedItems (index + 1) xs

/-- The values that stand in a slot of a shape, with the tokens that lead there. -/
def Slot.located : Option Slot → Json → List (Pointer × Json)
  | some .schema, v => [([], v)]
  | some .list, .arr xs => locatedItems 0 xs
  | some .map, .obj ms => ms.map (fun m => ([m.1], m.2))
  | some .schemaOrList, .arr xs => locatedItems 0 xs
  | some .schemaOrList, v => [([], v)]
  | _, _ => []

/-- The values in the slots of members, in order, with the pointers that lead there. -/
def Members.located (ms : Members Json) : List (Pointer × Json) :=
  ms.flatMap (fun m => (Slot.located (Slot.ofKeyword? m.1) m.2).map (fun c => (m.1 :: c.1, c.2)))

theorem map_snd_locatedItems (index : Nat) (xs : List Json) : (locatedItems index xs).map Prod.snd = xs := by
  induction xs generalizing index with
  | nil => rfl
  | cons x xs ih => rw [locatedItems, List.map_cons, ih]

theorem mem_locatedItems {start : Nat} {xs : List Json} {c : Pointer × Json} (h : c ∈ locatedItems start xs) :
    ∃ i, c.1 = [Pointer.index (start + i)] ∧ xs[i]? = some c.2 := by
  induction xs generalizing start with
  | nil => cases h
  | cons x xs ih =>
    rcases List.mem_cons.1 h with rfl | h
    · exact ⟨0, rfl, rfl⟩
    · obtain ⟨i, hi, hx⟩ := ih h
      refine ⟨i + 1, ?_, hx⟩
      rw [hi, Nat.add_right_comm, Nat.add_assoc]

namespace Slot

/-- They are the values in the slot. -/
theorem map_snd_located (s : Option Slot) (v : Json) : (located s v).map Prod.snd = values s v := by
  rcases s with _ | shape
  · cases v <;> rfl
  · cases shape <;> cases v
    case list.arr xs => exact map_snd_locatedItems 0 xs
    case schemaOrList.arr xs => exact map_snd_locatedItems 0 xs
    case map.obj ms => exact List.map_map
    all_goals rfl

theorem find?_of_located {s : Option Slot} {v : Json} (hd : v.hasDistinctNames = true) {c : Pointer × Json}
    (h : c ∈ located s v) : v.find? c.1 = some c.2 := by
  have item {xs : List Json} (h : c ∈ locatedItems 0 xs) : (Json.arr xs).find? c.1 = some c.2 := by
    obtain ⟨i, hi, hx⟩ := mem_locatedItems h
    rw [hi, Nat.zero_add, Json.find?_index, hx]
    rfl
  unfold located at h
  split at h
  · cases List.mem_singleton.1 h
    rfl
  · exact item h
  · obtain ⟨m, hm, rfl⟩ := List.mem_map.1 h
    have hget := Members.get?_of_mem (Json.hasDistinctNames_obj.1 hd).1 hm
    rw [Json.find?, Json.step?, hget]
    rfl
  · exact item h
  · cases List.mem_singleton.1 h
    rfl
  · cases h

end Slot

namespace Members

theorem located_cons (m : String × Json) (ms : Members Json) :
    located (m :: ms) =
      (Slot.located (Slot.ofKeyword? m.1) m.2).map (fun c => (m.1 :: c.1, c.2)) ++ located ms := List.flatMap_cons

/-- They are the values in slots. -/
theorem map_snd_located (ms : Members Json) : (located ms).map Prod.snd = children ms := by
  rw [located, children, List.map_flatMap]
  refine List.flatMap_congr fun m _ => ?_
  rw [List.map_map]
  exact Slot.map_snd_located _ _

theorem mem_children_of_located {ms : Members Json} {c : Pointer × Json} (h : c ∈ located ms) : c.2 ∈ children ms :=
  map_snd_located ms ▸ List.mem_map_of_mem h

/-- The pointer leads to the value. -/
theorem find?_of_located {ms : Members Json} (hd : (Json.obj ms).hasDistinctNames = true) {c : Pointer × Json}
    (h : c ∈ located ms) : (Json.obj ms).find? c.1 = some c.2 := by
  obtain ⟨hdistinct, hvalues⟩ := Json.hasDistinctNames_obj.1 hd
  obtain ⟨m, hm, h⟩ := List.mem_flatMap.1 h
  obtain ⟨c, hc, rfl⟩ := List.mem_map.1 h
  rw [Json.find?, Json.step?, get?_of_mem hdistinct hm]
  exact Slot.find?_of_located (hvalues m hm) hc

end Members

end KubeSchema
