import KubeSchema.Json.Reader
import KubeSchema.Proofs.Outcome
import KubeSchema.Proofs.Position
import Mathlib.Tactic.SplitIfs

/-!
# Names in a document that was read

A name that is repeated in an object takes its last value in its first place, so that no object of a value that was read
names a member twice. Every value that the machine holds is of that kind (`State.IsTidy`), and every step keeps this.

* `Json.parse_hasDistinctNames`: no object of a document that was read names a member twice.
-/

namespace KubeSchema

namespace Json

/-! ## What the machine holds -/

/-- The values before the one that is being read name no member twice. -/
def Frame.IsTidy : Frame → Prop
  | .item before => ∀ x ∈ before, x.hasDistinctNames = true
  | .member before _ => (obj before).hasDistinctNames = true

/-- The values that have been read name no member twice. -/
def Mode.IsTidy : Mode → Prop
  | .afterItem items => ∀ x ∈ items, x.hasDistinctNames = true
  | .name before | .colon before _ | .afterMember before | .text _ (.name before) _ _ _ =>
    (obj before).hasDistinctNames = true
  | .document v | .word _ _ v => v.hasDistinctNames = true
  | _ => True

/-- No value that is held names a member twice. -/
structure State.IsTidy (s : State) : Prop where
  stack : ∀ f ∈ s.stack, f.IsTidy
  mode : s.mode.IsTidy

variable {pos : Nat} {s t : State} {stack : List Frame} {mode : Mode} {v : Json} {c : Char}

theorem hasDistinctNames_set {ms : Members Json} {x : Json} (hms : (obj ms).hasDistinctNames = true) (name : String)
    (hx : x.hasDistinctNames = true) : (obj (Members.set ms name x)).hasDistinctNames = true := by
  obtain ⟨hdistinct, hvalues⟩ := hasDistinctNames_obj.1 hms
  refine hasDistinctNames_obj.2 ⟨hdistinct.set name x, fun m hm => ?_⟩
  rcases Members.mem_set hm with hm | rfl
  · exact hvalues m hm
  · exact hx

/-! ## Steps -/

theorem isTidy_deliver (hstack : ∀ f ∈ stack, f.IsTidy) (hv : v.hasDistinctNames = true) :
    (deliver v stack).IsTidy := by
  rcases stack with _ | ⟨before | ⟨before, name⟩, stack⟩
  · exact ⟨hstack, hv⟩
  · obtain ⟨hframe, hstack⟩ := List.forall_mem_cons.1 hstack
    exact ⟨hstack, List.forall_mem_cons.2 ⟨hv, hframe⟩⟩
  · obtain ⟨hframe, hstack⟩ := List.forall_mem_cons.1 hstack
    exact ⟨hstack, hasDistinctNames_set hframe name hv⟩

theorem isTidy_begin (hstack : ∀ f ∈ stack, f.IsTidy) (h : begin pos stack c = .ok t) : t.IsTidy := by
  unfold begin at h
  split_ifs at h <;> cases h
  all_goals exact ⟨hstack, by trivial⟩

theorem isTidy_stepBetween (hstack : ∀ f ∈ stack, f.IsTidy) (hmode : mode.IsTidy)
    (h : stepBetween pos stack mode c = .ok t) : t.IsTidy := by
  unfold stepBetween at h
  split at h
  · cases h
    exact ⟨hstack, hmode⟩
  · split at h
    · split at h
      · cases h
        exact isTidy_deliver hstack rfl
      · have hfirst : (Frame.item []).IsTidy := by
          intro x hx
          cases hx
        exact isTidy_begin (List.forall_mem_cons.2 ⟨hfirst, hstack⟩) h
    · next items =>
      split_ifs at h <;> cases h
      · exact ⟨List.forall_mem_cons.2 ⟨hmode, hstack⟩, trivial⟩
      · exact isTidy_deliver hstack (hasDistinctNames_arr.2 fun x hx => hmode x (List.mem_reverse.1 hx))
    · split_ifs at h <;> cases h
      · exact ⟨hstack, rfl⟩
      · exact isTidy_deliver hstack rfl
    · split_ifs at h
      cases h
      exact ⟨hstack, hmode⟩
    · split_ifs at h
      cases h
      exact ⟨List.forall_mem_cons.2 ⟨hmode, hstack⟩, trivial⟩
    · split_ifs at h <;> cases h
      · exact ⟨hstack, hmode⟩
      · exact isTidy_deliver hstack hmode
    · cases h
    · exact isTidy_begin hstack h

/-- A number has no members. -/
theorem hasDistinctNames_of_readNumber {cs rest : List Char} (h : readNumber cs = some (v, rest)) :
    v.hasDistinctNames = true := by
  unfold readNumber at h
  dsimp only at h
  split_ifs at h <;> cases h <;> rfl

theorem isTidy_endNumber {start : Nat} {chars : List Char} (hstack : ∀ f ∈ stack, f.IsTidy)
    (h : endNumber start stack chars = .ok t) : t.IsTidy := by
  unfold endNumber at h
  split at h
  · cases h
  · next v rest hread =>
    have hdeliver := isTidy_deliver hstack (hasDistinctNames_of_readNumber hread)
    dsimp only at h
    split at h
    · cases h
      exact hdeliver
    · exact isTidy_stepBetween hdeliver.stack hdeliver.mode h

theorem isTidy_stepText {start : Nat} {use : TextUse} {chars : List Char} {high : Option Nat} {escape : Escape}
    (hstack : ∀ f ∈ stack, f.IsTidy) (hmode : (Mode.text start use chars high escape).IsTidy)
    (h : stepText pos start stack use chars high escape c = .ok t) : t.IsTidy := by
  have hstay : ∀ chars high escape, State.IsTidy ⟨stack, .text start use chars high escape⟩ := by
    intro chars high escape
    refine ⟨hstack, ?_⟩
    cases use with
    | value => trivial
    | name before => exact hmode
  have hend : (endText stack use chars).IsTidy := by
    cases use with
    | value => exact isTidy_deliver hstack rfl
    | name before => exact ⟨hstack, hmode⟩
  unfold stepText at h
  split at h
  · split_ifs at h <;> cases h
    · exact hstay _ _ _
    · exact hend
    · exact hstay _ _ _
  · split at h
    · cases h
      exact hstay _ _ _
    · split at h
      · cases h
      · split_ifs at h
        cases h
        exact hstay _ _ _
  · split at h
    · cases h
    · split at h
      · cases h
        exact hstay _ _ _
      · split at h <;> cases h
        exact hstay _ _ _

/-- Every step keeps the values that are held from naming a member twice. -/
theorem isTidy_step (hs : s.IsTidy) (h : step pos s c = .ok t) : t.IsTidy := by
  obtain ⟨stack, mode⟩ := s
  obtain ⟨hstack, hmode⟩ := hs
  unfold step at h
  dsimp only at hstack hmode h
  split at h
  · exact isTidy_stepText hstack hmode h
  · split_ifs at h <;> cases h
    · exact isTidy_deliver hstack hmode
    · exact ⟨hstack, hmode⟩
  · split_ifs at h
    · cases h
      exact ⟨hstack, rfl⟩
    · cases h
      exact ⟨hstack, trivial⟩
    · obtain ⟨u, hu, h⟩ := bind_eq_ok.1 h
      have hu := isTidy_endNumber hstack hu
      exact isTidy_stepBetween hu.stack hu.mode h
  · exact isTidy_stepBetween hstack hmode h

theorem isTidy_run {cs : List Char} (hs : s.IsTidy) (h : run pos s cs = .ok t) : t.IsTidy := by
  induction cs generalizing pos s with
  | nil =>
    cases h
    exact hs
  | cons c cs ih =>
    obtain ⟨u, hu, h⟩ := bind_eq_ok.1 h
    exact ih (isTidy_step hs hu) h

/-- A document ends with its value, or with a number that is its value. -/
theorem exists_of_finish (h : finish pos s = .ok v) :
    ∃ t, (t = s ∨ ∃ start chars, endNumber start s.stack chars = .ok t) ∧ t.mode = .document v := by
  unfold finish at h
  dsimp only at h
  split at h
  · obtain ⟨t, ht, h⟩ := bind_eq_ok.1 h
    refine ⟨t, .inr ⟨_, _, ht⟩, ?_⟩
    split at h <;> cases h
    assumption
  · obtain ⟨t, ht, h⟩ := bind_eq_ok.1 h
    cases ht
    refine ⟨s, .inl rfl, ?_⟩
    split at h <;> cases h
    assumption

theorem hasDistinctNames_of_finish (hs : s.IsTidy) (h : finish pos s = .ok v) : v.hasDistinctNames = true := by
  obtain ⟨t, ht, hdocument⟩ := exists_of_finish h
  have ht : t.IsTidy := by
    obtain rfl | ⟨start, chars, ht⟩ := ht
    · exact hs
    · exact isTidy_endNumber hs.stack ht
  have hmode := ht.mode
  rwa [hdocument] at hmode

/-- **No object of a document that was read names a member twice.** -/
theorem parse_hasDistinctNames {text : String} (h : parse text = .ok v) : v.hasDistinctNames = true := by
  have hstart : State.IsTidy ⟨[], .value⟩ := ⟨by simp, trivial⟩
  unfold parse read at h
  split at h
  · cases h
  · obtain ⟨s, hs, h⟩ := bind_eq_ok.1 h
    exact hasDistinctNames_of_finish (isTidy_run hstart hs) h

end Json

end KubeSchema
