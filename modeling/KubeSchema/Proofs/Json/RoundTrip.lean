import KubeSchema.Proofs.Json.Numbers
import KubeSchema.Proofs.Position

/-!
# Values read back

What is written for a value, with each entry on a line of its own, leads the machine from where a value is expected to
where that value has been put into its container, whatever the depth and the containers around it (`leads_render`). Only
a number needs to know what follows it. Names have to be distinct, since a name that is repeated keeps its first place.

* `Json.parse_indented`: a value without repeated names is what is read where it is written, given the same of its
  doubles.
* `Json.isAscii_indented`: no character of it is outside ASCII.
-/

namespace KubeSchema

mutual

/-- The doubles inside a value. -/
def Json.doubles : Json → List Double
  | .double d => [d]
  | .arr xs => itemDoubles xs
  | .obj ms => memberDoubles ms
  | _ => []
  termination_by structural v => v

def itemDoubles : List Json → List Double
  | [] => []
  | x :: xs => x.doubles ++ itemDoubles xs
  termination_by structural xs => xs

def memberDoubles : List (String × Json) → List Double
  | [] => []
  | (_, x) :: ms => x.doubles ++ memberDoubles ms
  termination_by structural ms => ms

end

namespace Json

variable {s t u : State} {as bs rest : List Char} {stack : List Frame} {mode : Mode} {v : Json}

/-! ## Reading on -/

/-- What becomes of the rest of a document. -/
def readOn (pos : Nat) (s : State) (cs : List Char) : Except ParseError Json := run pos s cs >>= finish (pos + cs.length)

/-- Some characters lead from one state to another: with the rest behind them the one comes to what the other comes to
with the rest alone. -/
def Leads (s : State) (as : List Char) (t : State) (rest : List Char) : Prop :=
  ∀ pos, readOn pos s (as ++ rest) = readOn (pos + as.length) t rest

theorem leads_of_run (h : ∀ pos, run pos s as = .ok t) (rest : List Char) : Leads s as t rest := by
  intro pos
  rw [readOn, run_of_run (h pos), readOn, List.length_append, Nat.add_assoc]

theorem Leads.trans (h : Leads s as t (bs ++ rest)) (h' : Leads t bs u rest) : Leads s (as ++ bs) u rest := by
  intro pos
  rw [List.append_assoc, h, h', List.length_append, Nat.add_assoc]

theorem leads_nil (s : State) (rest : List Char) : Leads s [] s rest := leads_of_run (fun _ => rfl) rest

/-- A single character. -/
theorem leads_step {c : Char} (h : ∀ pos, step pos s c = .ok t) (rest : List Char) : Leads s [c] t rest := by
  refine leads_of_run (fun pos => ?_) rest
  rw [run_of_step (h pos)]
  rfl

theorem Leads.cons {c : Char} (h : ∀ pos, step pos s c = .ok t) (h' : Leads t as u rest) :
    Leads s (c :: as) u rest := by
  rw [← List.singleton_append]
  exact (leads_step h _).trans h'

/-- Blanks do not matter where they may stand. -/
theorem leads_blanks (hmode : ∀ pos c, step pos ⟨stack, mode⟩ c = stepBetween pos stack mode c)
    (has : ∀ c ∈ as, isBlank c = true) (rest : List Char) : Leads ⟨stack, mode⟩ as ⟨stack, mode⟩ rest := by
  refine leads_of_run (fun pos => ?_) rest
  induction as generalizing pos with
  | nil => rfl
  | cons c as ih =>
    have hstep : step pos ⟨stack, mode⟩ c = .ok ⟨stack, mode⟩ := by
      rw [hmode]
      unfold stepBetween
      rw [if_pos (has c List.mem_cons_self)]
    rw [run_of_step hstep, ih (fun d hd => has d (List.mem_cons_of_mem _ hd))]

theorem isBlank_of_mem_newLine {depth : Nat} {c : Char} (h : c ∈ Format.newLine depth) : isBlank c = true := by
  rcases List.mem_cons.1 h with rfl | h
  · rfl
  · rw [(List.mem_replicate.1 h).2]
    rfl

/-! ## Numbers -/

/-- What may follow a value: nothing, a comma or a new line. -/
def Ends (rest : List Char) : Prop := rest = [] ∨ ∃ r, rest = ',' :: r ∨ rest = '\n' :: r

/-- A number that is followed by a character that is no part of a number ends before that. -/
theorem step_number {pos start : Nat} {chars : List Char} {c : Char} (hc : isNumberChar c = false) (hword : c ≠ 'I')
    (h : endNumber start stack chars = .ok (deliver v stack)) :
    step pos ⟨stack, .number start chars⟩ c = step pos (deliver v stack) c := by
  have hdeliver : step pos (deliver v stack) c =
      stepBetween pos (deliver v stack).stack (deliver v stack).mode c := by
    rcases stack with _ | ⟨_ | _, stack⟩ <;> rfl
  rw [hdeliver]
  simp only [step, hc, hword, false_and, if_false, Bool.false_eq_true, h]
  rfl

/-- The end of a document is the end of a number, too. -/
theorem finish_number {pos start : Nat} {chars : List Char} (h : endNumber start stack chars = .ok (deliver v stack)) :
    finish pos ⟨stack, .number start chars⟩ = finish pos (deliver v stack) := by
  unfold finish
  dsimp only
  rw [h]
  rcases stack with _ | ⟨_ | _, stack⟩ <;> rfl

/-- A number leads to its value, if nothing follows or what follows is no part of a number. -/
theorem leads_number (has : IsNumeral as) (hread : readNumber as = some (v, [])) (hrest : Ends rest) :
    Leads ⟨stack, .value⟩ as (deliver v stack) rest := by
  intro pos
  have hend : endNumber pos stack as.reverse = .ok (deliver v stack) := by
    rw [endNumber, List.reverse_reverse, hread]
  rw [readOn, run_of_run (run_isNumeral has), readOn, List.length_append, ← Nat.add_assoc]
  rcases hrest with rfl | ⟨r, rfl | rfl⟩
  · exact finish_number hend
  · rw [run_cons, step_number rfl (by decide) hend, ← run_cons]
  · rw [run_cons, step_number rfl (by decide) hend, ← run_cons]

/-! ## Texts -/

theorem leads_text (s : String) (rest : List Char) :
    Leads ⟨stack, .value⟩ (escapedText isPlainAscii s.toList) (deliver (.str s) stack) rest := by
  refine leads_of_run (fun pos => ?_) rest
  have hquote : step pos ⟨stack, .value⟩ '\x22' = .ok ⟨stack, .text pos .value [] none .none⟩ := rfl
  rw [escapedText, List.cons_append, run_of_step hquote, run_escapedText, endText_value]

/-- A name leads to the colon behind it, wherever a quote starts a name. -/
theorem leads_name {before : List (String × Json)} (hmode : ∀ pos, step pos ⟨stack, mode⟩ '\x22' =
      .ok ⟨stack, .text pos (.name before) [] none .none⟩) (s : String) (rest : List Char) :
    Leads ⟨stack, mode⟩ (escapedText isPlainAscii s.toList) ⟨stack, .colon before s⟩ rest := by
  refine leads_of_run (fun pos => ?_) rest
  rw [escapedText, List.cons_append, run_of_step (hmode pos), run_escapedText, endText_name]

/-! ## Containers -/

theorem ends_edge (depth : Nat) (rest : List Char) : Ends (Format.newLine depth ++ rest) := .inr ⟨_, .inr rfl⟩

theorem ends_renderItems (depth : Nat) (xs : List Json) (h : Ends rest) :
    Ends (renderItems .indented depth xs ++ rest) := by
  cases xs with
  | nil => exact h
  | cons x xs => exact .inr ⟨_, .inl rfl⟩

theorem ends_renderMembers (depth : Nat) (ms : List (String × Json)) (h : Ends rest) :
    Ends (renderMembers .indented depth ms ++ rest) := by
  cases ms with
  | nil => exact h
  | cons m ms => exact .inr ⟨_, .inl rfl⟩

/-- A value in an array starts like any other: with no bracket that ends the array, and no blank. -/
theorem head_render (v : Json) (depth : Nat) (rest : List Char) :
    ∃ c r, v.render .indented depth ++ rest = c :: r ∧ c ≠ ']' ∧ isBlank c = false := by
  have hnumeral : ∀ cs, IsNumeral cs → ∃ c r, cs ++ rest = c :: r ∧ c ≠ ']' ∧ isBlank c = false := by
    intro cs hcs
    obtain ⟨c, r, rfl, hc⟩ := hcs.head
    refine ⟨c, r ++ rest, rfl, ?_⟩
    rcases hc with rfl | hc
    · decide
    · simp [isBlank, Numeral.ne_of_isDigit hc]
  cases v with
  | null => exact ⟨_, _, rfl, by decide⟩
  | bool b => cases b <;> exact ⟨_, _, rfl, by decide⟩
  | int n => exact hnumeral _ (isNumeral_signed n)
  | double d =>
    cases d with
    | nan => exact ⟨_, _, rfl, by decide⟩
    | infinite negative => cases negative <;> exact ⟨_, _, rfl, by decide⟩
    | finite negative digits exponent => exact hnumeral _ (isNumeral_renderFinite negative digits exponent)
  | str s => exact ⟨_, _, rfl, by decide⟩
  | arr xs => cases xs <;> exact ⟨_, _, rfl, by decide⟩
  | obj ms => cases ms <;> exact ⟨_, _, rfl, by decide⟩

theorem readOn_firstItem {pos : Nat} {c : Char} {r : List Char} (hc : c ≠ ']') (hblank : isBlank c = false) :
    readOn pos ⟨stack, .firstItem⟩ (c :: r) = readOn pos ⟨.item [] :: stack, .value⟩ (c :: r) := by
  have hstep : step pos ⟨stack, .firstItem⟩ c = step pos ⟨.item [] :: stack, .value⟩ c := by
    simp [step, stepBetween, hc, hblank]
  rw [readOn, readOn, run_cons, run_cons, hstep]

theorem leads_newLine (hmode : ∀ pos c, step pos ⟨stack, mode⟩ c = stepBetween pos stack mode c) (depth : Nat)
    (rest : List Char) : Leads ⟨stack, mode⟩ (Format.newLine depth) ⟨stack, mode⟩ rest :=
  leads_blanks hmode (fun _ => isBlank_of_mem_newLine) rest

theorem leads_colon (stack : List Frame) (before : List (String × Json)) (name : String) (rest : List Char) :
    Leads ⟨stack, .colon before name⟩ [':', ' '] ⟨.member before name :: stack, .value⟩ rest :=
  leads_of_run (fun _ => rfl) rest

mutual

/-- **A value is read where it is written.** -/
theorem leads_render : (v : Json) → v.hasDistinctNames = true → (∀ d ∈ v.doubles, d.ReadsBack) → (depth : Nat) →
    (stack : List Frame) → {rest : List Char} → Ends rest →
    Leads ⟨stack, .value⟩ (v.render .indented depth) (deliver v stack) rest
  | .null, _, _, _, _, _, _ => leads_of_run (fun _ => rfl) _
  | .bool true, _, _, _, _, _, _ => leads_of_run (fun _ => rfl) _
  | .bool false, _, _, _, _, _, _ => leads_of_run (fun _ => rfl) _
  | .int n, _, _, _, _, _, hrest => leads_number (isNumeral_signed n) (readNumber_signed n) hrest
  | .double .nan, _, _, _, _, _, _ => leads_of_run (fun _ => rfl) _
  | .double (.infinite false), _, _, _, _, _, _ => leads_of_run (fun _ => rfl) _
  | .double (.infinite true), _, _, _, _, _, _ => leads_of_run (fun _ => rfl) _
  | .double (.finite negative digits exponent), _, hdouble, _, _, _, hrest =>
    leads_number (isNumeral_renderFinite negative digits exponent) (hdouble _ (List.mem_singleton_self _)) hrest
  | .str s, _, _, _, _, _, _ => leads_text s _
  | .arr [], _, _, _, _, _, _ => leads_of_run (fun _ => rfl) _
  | .arr (x :: xs), hdistinct, hdouble, depth, stack, rest, hrest => by
    obtain ⟨hx, hxs⟩ := Bool.and_eq_true_iff.1 hdistinct
    have hvalue := leads_render x hx (fun d hd => hdouble d (List.mem_append_left _ hd)) (depth + 1)
    have hitems := leads_renderItems xs hxs (fun d hd => hdouble d (List.mem_append_right _ hd)) (depth + 1) stack [x]
      (ends_edge depth ([']'] ++ rest))
    have hopen : ∀ rest, Leads ⟨stack, .value⟩ ('[' :: Format.newLine (depth + 1)) ⟨stack, .firstItem⟩ rest :=
      fun rest => .cons (fun _ => rfl) (leads_newLine (fun _ _ => rfl) _ rest)
    have hfirst : ∀ rest, Ends rest →
        Leads ⟨stack, .firstItem⟩ (x.render .indented (depth + 1)) ⟨stack, .afterItem [x]⟩ rest := by
      intro rest hrest pos
      obtain ⟨c, r, hhead, hc, hblank⟩ := head_render x (depth + 1) rest
      rw [hhead, readOn_firstItem hc hblank, ← hhead]
      exact hvalue (.item [] :: stack) hrest pos
    have hclose : Leads ⟨stack, .afterItem (xs.reverse ++ [x])⟩ [']'] (deliver (.arr (x :: xs)) stack) rest := by
      refine leads_step (fun pos => ?_) rest
      simp [step, stepBetween, isBlank]
    exact ((((hopen _).trans (hfirst _ (ends_renderItems _ xs (ends_edge _ _)))).trans hitems).trans
      (leads_newLine (fun _ _ => rfl) _ _)).trans hclose
  | .obj [], _, _, _, _, _, _ => leads_of_run (fun _ => rfl) _
  | .obj ((k, x) :: ms), hdistinct, hdouble, depth, stack, rest, hrest => by
    obtain ⟨hnames, hdistinct⟩ := Bool.and_eq_true_iff.1 hdistinct
    obtain ⟨hx, hms⟩ := Bool.and_eq_true_iff.1 hdistinct
    have hvalue := leads_render x hx (fun d hd => hdouble d (List.mem_append_left _ hd)) (depth + 1)
      (.member [] k :: stack) (ends_renderMembers (depth + 1) ms (ends_edge depth (['}'] ++ rest)))
    have hmembers := leads_renderMembers ms hms (fun d hd => hdouble d (List.mem_append_right _ hd)) (depth + 1) stack
      [(k, x)] (of_decide_eq_true hnames) (ends_edge depth (['}'] ++ rest))
    have hopen : ∀ rest, Leads ⟨stack, .value⟩ ('{' :: Format.newLine (depth + 1)) ⟨stack, .firstName⟩ rest :=
      fun rest => .cons (fun _ => rfl) (leads_newLine (fun _ _ => rfl) _ rest)
    have hclose : Leads ⟨stack, .afterMember ((k, x) :: ms)⟩ ['}'] (deliver (.obj ((k, x) :: ms)) stack) rest :=
      leads_step (fun _ => rfl) rest
    exact ((((((hopen _).trans (leads_name (fun _ => rfl) k _)).trans (leads_colon _ _ _ _)).trans hvalue).trans
      hmembers).trans (leads_newLine (fun _ _ => rfl) _ _)).trans hclose

theorem leads_renderItems : (xs : List Json) → itemsHaveDistinctNames xs = true → (∀ d ∈ itemDoubles xs, d.ReadsBack) →
    (depth : Nat) → (stack : List Frame) → (before : List Json) → {rest : List Char} → Ends rest →
    Leads ⟨stack, .afterItem before⟩ (renderItems .indented depth xs) ⟨stack, .afterItem (xs.reverse ++ before)⟩ rest
  | [], _, _, _, _, _, _, _ => leads_nil _ _
  | x :: xs, hdistinct, hdouble, depth, stack, before, rest, hrest => by
    obtain ⟨hx, hxs⟩ := Bool.and_eq_true_iff.1 hdistinct
    have hvalue := leads_render x hx (fun d hd => hdouble d (List.mem_append_left _ hd)) depth (.item before :: stack)
      (ends_renderItems depth xs hrest)
    have hitems := leads_renderItems xs hxs (fun d hd => hdouble d (List.mem_append_right _ hd)) depth stack
      (x :: before) hrest
    have hcomma : ∀ rest,
        Leads ⟨stack, .afterItem before⟩ (',' :: Format.newLine depth) ⟨.item before :: stack, .value⟩ rest :=
      fun rest => .cons (fun _ => rfl) (leads_newLine (fun _ _ => rfl) _ rest)
    rw [List.reverse_cons, List.append_assoc]
    exact ((hcomma _).trans hvalue).trans hitems

theorem leads_renderMembers : (ms : List (String × Json)) → membersHaveDistinctNames ms = true →
    (∀ d ∈ memberDoubles ms, d.ReadsBack) → (depth : Nat) → (stack : List Frame) → (before : List (String × Json)) →
    Members.Distinct (before ++ ms) → {rest : List Char} → Ends rest →
    Leads ⟨stack, .afterMember before⟩ (renderMembers .indented depth ms) ⟨stack, .afterMember (before ++ ms)⟩ rest
  | [], _, _, _, _, before, _, _, _ => by
    rw [List.append_nil]
    exact leads_nil _ _
  | (k, x) :: ms, hdistinct, hdouble, depth, stack, before, hnames, rest, hrest => by
    obtain ⟨hx, hms⟩ := Bool.and_eq_true_iff.1 hdistinct
    have hvalue := leads_render x hx (fun d hd => hdouble d (List.mem_append_left _ hd)) depth
      (.member before k :: stack) (ends_renderMembers depth ms hrest)
    have hset : Members.set before k x = before ++ [(k, x)] := by
      refine Members.set_of_not_mem (fun hmem => ?_) x
      unfold Members.Distinct at hnames
      rw [Members.names_append, List.nodup_append] at hnames
      exact hnames.2.2 k hmem k List.mem_cons_self rfl
    have hmembers := leads_renderMembers ms hms (fun d hd => hdouble d (List.mem_append_right _ hd)) depth stack
      (before ++ [(k, x)]) (by simpa using hnames) hrest
    have hcomma : ∀ rest, Leads ⟨stack, .afterMember before⟩ (',' :: Format.newLine depth) ⟨stack, .name before⟩ rest :=
      fun rest => .cons (fun _ => rfl) (leads_newLine (fun _ _ => rfl) _ rest)
    rw [deliver, hset] at hvalue
    rw [List.append_assoc] at hmembers
    exact ((((hcomma _).trans (leads_name (fun _ => rfl) k _)).trans (leads_colon _ _ _ _)).trans hvalue).trans hmembers

end

/-! ## ASCII -/

/-- No character is outside ASCII. -/
def IsAscii (cs : List Char) : Prop := ∀ c ∈ cs, c.toNat < 0x80

-- Stated by way of the list: where all of Mathlib is at hand, an instance that tries every character comes first.
instance (cs : List Char) : Decidable (IsAscii cs) := List.decidableBAll (fun c : Char => c.toNat < 0x80) cs

theorem IsAscii.append (h : IsAscii as) (h' : IsAscii bs) : IsAscii (as ++ bs) :=
  fun c hc => (List.mem_append.1 hc).elim (h c) (h' c)

theorem isAscii_text (s : List Char) : IsAscii (escapedText isPlainAscii s) := by
  intro c hc
  have hplain := isPlainAscii_escapedText hc
  simp only [isPlainAscii, Bool.and_eq_true, decide_eq_true_eq] at hplain
  omega

theorem IsNumeral.isAscii (h : IsNumeral as) : IsAscii as := by
  intro c hc
  have hnumber := h.chars c hc
  simp only [isNumberChar, Bool.or_eq_true, decide_eq_true_eq] at hnumber
  rcases hnumber with ((((hdigit | rfl) | rfl) | rfl) | rfl) | rfl
  · exact Nat.lt_of_le_of_lt (Char.isDigit_iff_toNat.1 hdigit).2 (by decide)
  all_goals decide

theorem IsAscii.cons {c : Char} (hc : c.toNat < 0x80) (h : IsAscii as) : IsAscii (c :: as) :=
  List.forall_mem_cons.2 ⟨hc, h⟩

theorem isAscii_newLine (depth : Nat) : IsAscii (Format.newLine depth) := by
  refine IsAscii.cons (by decide) fun c hc => ?_
  rw [(List.mem_replicate.1 hc).2]
  decide

mutual

theorem isAscii_render : (v : Json) → (depth : Nat) → IsAscii (v.render .indented depth)
  | .null, _ => (by decide : IsAscii "null".toList)
  | .bool true, _ => (by decide : IsAscii "true".toList)
  | .bool false, _ => (by decide : IsAscii "false".toList)
  | .int n, _ => (isNumeral_signed n).isAscii
  | .double .nan, _ => (by decide : IsAscii "NaN".toList)
  | .double (.infinite false), _ => (by decide : IsAscii "Infinity".toList)
  | .double (.infinite true), _ => (by decide : IsAscii ('-' :: "Infinity".toList))
  | .double (.finite negative digits exponent), _ => (isNumeral_renderFinite negative digits exponent).isAscii
  | .str s, _ => isAscii_text s.toList
  | .arr [], _ => (by decide : IsAscii ['[', ']'])
  | .arr (x :: xs), depth =>
    (((((isAscii_newLine _).cons (by decide)).append (isAscii_render x _)).append (isAscii_renderItems xs _)).append
      (isAscii_newLine depth)).append (by decide)
  | .obj [], _ => (by decide : IsAscii ['{', '}'])
  | .obj ((k, x) :: ms), depth =>
    (((((((isAscii_newLine _).cons (by decide)).append (isAscii_text k.toList)).append
      (by decide : IsAscii [':', ' '])).append (isAscii_render x _)).append (isAscii_renderMembers ms _)).append
      (isAscii_newLine depth)).append (by decide)

theorem isAscii_renderItems : (xs : List Json) → (depth : Nat) → IsAscii (renderItems .indented depth xs)
  | [], _ => fun _ hc => nomatch hc
  | x :: xs, depth =>
    (((isAscii_newLine depth).cons (by decide)).append (isAscii_render x depth)).append (isAscii_renderItems xs depth)

theorem isAscii_renderMembers : (ms : List (String × Json)) → (depth : Nat) →
    IsAscii (renderMembers .indented depth ms)
  | [], _ => fun _ hc => nomatch hc
  | (k, x) :: ms, depth =>
    (((((isAscii_newLine depth).cons (by decide)).append (isAscii_text k.toList)).append
      (by decide : IsAscii [':', ' '])).append (isAscii_render x depth)).append (isAscii_renderMembers ms depth)

end

theorem isAscii_indented (v : Json) : IsAscii v.indented.toList := by
  rw [indented, String.toList_ofList]
  exact isAscii_render v 0

/-! ## Documents -/

/-- **A value is what is read where it is written**, if its objects name no member twice. -/
theorem parse_indented (hdistinct : v.hasDistinctNames = true) (hdouble : ∀ d ∈ v.doubles, d.ReadsBack) :
    parse v.indented = .ok v := by
  have hmark : (v.render .indented 0).head? ≠ some '\ufeff' := by
    intro h
    have hascii := isAscii_render v 0 _ (List.mem_of_mem_head? h)
    revert hascii
    decide
  have hends : Ends [] := .inl rfl
  have hleads := leads_render v hdistinct hdouble 0 [] hends 0
  rw [List.append_nil, readOn, Nat.zero_add] at hleads
  rw [parse, indented, String.toList_ofList, read, if_neg hmark]
  exact hleads

end Json

end KubeSchema
