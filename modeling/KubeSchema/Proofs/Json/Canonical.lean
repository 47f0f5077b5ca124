import KubeSchema.Proofs.Json.RoundTrip

/-!
# Values told apart by what is written

What is written for a value without blanks determines the value and where it ends, whatever follows in a container
(`render_append_injective`): a number or a word goes on until a comma or a closing bracket, a text until a quote that no
backslash escapes, and a container until the bracket that closes it. Of two doubles it has to be known that they are
written differently, if they are different; of doubles that read back it is (`toldApart_of_readsBack`).

* `Kind.ofText_render`: the kind of a value shows in what is written for it.
* `escapedText_append_injective`: a text and its end.
* `render_append_injective`: any value and its end.
-/

namespace KubeSchema

/-- Doubles that are written alike are the same, one from each list. -/
def Double.ToldApart (ds es : List Double) : Prop :=
  ∀ d ∈ ds, ∀ e ∈ es, d.render Format.canonical.special = e.render Format.canonical.special → d = e

namespace Double.ToldApart

variable {ds ds' es es' : List Double}

theorem mono (h : ToldApart ds es) (hds : ds' ⊆ ds) (hes : es' ⊆ es) : ToldApart ds' es' :=
  fun d hd e he => h d (hds hd) e (hes he)

theorem left (h : ToldApart (ds ++ ds') (es ++ es')) : ToldApart ds es :=
  h.mono (List.subset_append_left _ _) (List.subset_append_left _ _)

theorem right (h : ToldApart (ds ++ ds') (es ++ es')) : ToldApart ds' es' :=
  h.mono (List.subset_append_right _ _) (List.subset_append_right _ _)

end Double.ToldApart

namespace Json

variable {c : Char} {cs ds r s : List Char} {depth : Nat}

/-! ## Words -/

/-- What ends a number or a word: a comma or a closing bracket. -/
def isStop (c : Char) : Bool := c = ',' || c = ']' || c = '}'

/-- A number or a word ends here. -/
def Stops (r : List Char) : Prop := ∀ c ∈ r.head?, isStop c = true

/-- A number or a word. -/
def IsWord (cs : List Char) : Prop := ∀ c ∈ cs, isStop c = false

instance (cs : List Char) : Decidable (IsWord cs) := List.decidableBAll (fun c => isStop c = false) cs

/-- A word is what comes first, up to where a word ends. -/
theorem takeWhile_word (hcs : IsWord cs) (hr : Stops r) : (cs ++ r).takeWhile (fun c => !isStop c) = cs := by
  rw [List.takeWhile_append_of_pos (fun c hc => by simp [hcs c hc])]
  cases r with
  | nil => exact List.append_nil cs
  | cons c r =>
    have hstop : isStop c = true := hr c rfl
    simp [hstop]

theorem word_append_injective (hcs : IsWord cs) (hds : IsWord ds) (hr : Stops r) (hs : Stops s)
    (h : cs ++ r = ds ++ s) : cs = ds ∧ r = s := by
  have hsame : cs = ds := by rw [← takeWhile_word hcs hr, h, takeWhile_word hds hs]
  subst hsame
  exact ⟨rfl, List.append_cancel_left h⟩

theorem IsNumeral.isWord (h : IsNumeral cs) : IsWord cs := by
  intro c hc
  have hnumber := h.chars c hc
  refine Bool.eq_false_iff.2 fun hstop => ?_
  simp only [isStop, Bool.or_eq_true, decide_eq_true_eq] at hstop
  rcases hstop with (rfl | rfl) | rfl <;> exact absurd hnumber (by decide)

theorem isWord_double (d : Double) : IsWord (d.render Format.canonical.special) := by
  cases d with
  | nan => decide
  | infinite negative => cases negative <;> decide
  | finite negative digits exponent => exact (isNumeral_renderFinite negative digits exponent).isWord

/-- A number or a word starts with this character, and none that starts other values. -/
def StartsWord (c : Char) : Prop := c = '-' ∨ c = 'N' ∨ c = 'I' ∨ c.isDigit = true

theorem StartsWord.ne (h : StartsWord c) {d : Char} (hd : d ∉ ['-', 'N', 'I']) (hdigit : d.isDigit = false) : c ≠ d := by
  rintro rfl
  simp only [List.mem_cons, List.not_mem_nil, or_false, not_or] at hd
  rcases h with h | h | h | h
  · exact hd.1 h
  · exact hd.2.1 h
  · exact hd.2.2 h
  · rw [hdigit] at h
    cases h

theorem IsNumeral.startsWord (h : IsNumeral cs) : ∃ c t, cs = c :: t ∧ StartsWord c := by
  obtain ⟨c, t, rfl, hc⟩ := h.head
  exact ⟨c, t, rfl, hc.imp_right fun h => .inr (.inr h)⟩

theorem startsWord_double (d : Double) : ∃ c t, d.render Format.canonical.special = c :: t ∧ StartsWord c := by
  cases d with
  | nan => exact ⟨_, _, rfl, .inr (.inl rfl)⟩
  | infinite negative =>
    cases negative
    · exact ⟨_, _, rfl, .inr (.inr (.inl rfl))⟩
    · exact ⟨_, _, rfl, .inl rfl⟩
  | finite negative digits exponent => exact (isNumeral_renderFinite negative digits exponent).startsWord

/-! ## Integers and doubles -/

/-- The words for doubles without digits are not read as numbers. -/
theorem readNumber_double : {d : Double} → d.ReadsBack →
    readNumber (d.render Format.canonical.special) =
      (match d with | .finite .. => some (.double d, []) | _ => none)
  | .nan, _ | .infinite true, _ | .infinite false, _ => rfl
  | .finite .., h => h

/-- Doubles are told apart if each of them is what is read where it is written. -/
theorem toldApart_of_readsBack {ds es : List Double} (hds : ∀ d ∈ ds, d.ReadsBack) (hes : ∀ e ∈ es, e.ReadsBack) :
    Double.ToldApart ds es := by
  intro d hd e he h
  have hread := congrArg readNumber h
  rw [readNumber_double (hds d hd), readNumber_double (hes e he)] at hread
  cases d with
  | finite =>
    cases e with
    | finite =>
      cases hread
      rfl
    | _ => cases hread
  | nan =>
    cases e with
    | nan => rfl
    | infinite negative => cases negative <;> exact absurd h (by decide)
    | finite => cases hread
  | infinite negative =>
    cases e with
    | nan => cases negative <;> exact absurd h (by decide)
    | infinite negative' => cases negative <;> cases negative' <;> first | rfl | exact absurd h (by decide)
    | finite => cases hread

/-- What integers are written with: digits, and a minus sign. -/
def isIntegerChar (c : Char) : Bool := c = '-' || c.isDigit

theorem all_isIntegerChar_signed (n : Int) : (Numeral.signed n).all isIntegerChar = true := by
  have hdecimal (n : Nat) : ∀ c ∈ Numeral.decimal n, isIntegerChar c = true := fun c hc => by
    simp [isIntegerChar, Numeral.isDigit_of_mem_decimal hc]
  cases n with
  | ofNat n => exact List.all_eq_true.2 (hdecimal n)
  | negSucc n => exact List.all_eq_true.2 (List.forall_mem_cons.2 ⟨rfl, hdecimal (n + 1)⟩)

/-- A double has a point or an exponent. -/
theorem exists_mark_renderFinite (negative : Bool) (n : Nat) (e : Int) :
    ∃ c ∈ Double.renderFinite negative n e, isIntegerChar c = false := by
  have hbody : ∃ c ∈ (if -4 ≤ ((Numeral.decimal n).length + e - 1 : Int) ∧
      ((Numeral.decimal n).length + e - 1 : Int) < 16 then Double.positional (Numeral.decimal n) e
      else Double.scientific (Numeral.decimal n) e), isIntegerChar c = false := by
    split
    · refine ⟨'.', ?_, by decide⟩
      unfold Double.positional
      dsimp only
      split
      · simp
      · split <;> simp
    · exact ⟨'e', by simp [Double.scientific, Double.exponentPart], by decide⟩
  obtain ⟨c, hc, hmark⟩ := hbody
  refine ⟨c, ?_, hmark⟩
  unfold Double.renderFinite
  dsimp only
  split
  · exact List.mem_cons_of_mem _ hc
  · exact hc

theorem all_isIntegerChar_double (d : Double) : (d.render Format.canonical.special).all isIntegerChar = false := by
  cases d with
  | nan => decide
  | infinite negative => cases negative <;> decide
  | finite negative digits exponent =>
    obtain ⟨c, hc, hmark⟩ := exists_mark_renderFinite negative digits exponent
    exact List.all_eq_false.2 ⟨c, hc, by simp [hmark]⟩

theorem signed_injective {n m : Int} (h : Numeral.signed n = Numeral.signed m) : n = m := by
  have hn := readNumber_signed n
  rw [h, readNumber_signed m] at hn
  cases hn
  rfl

/-! ## Kinds of values -/

/-- The kinds of values that are written in different ways. -/
inductive Kind
  | null
  | yes
  | no
  | int
  | double
  | text
  | list
  | object
  deriving DecidableEq

def kind : Json → Kind
  | null => .null
  | bool true => .yes
  | bool false => .no
  | int _ => .int
  | double _ => .double
  | str _ => .text
  | arr _ => .list
  | obj _ => .object

/-- The kind of the value that a text starts with. -/
def Kind.ofText : List Char → Kind
  | 'n' :: _ => null
  | 't' :: _ => yes
  | 'f' :: _ => no
  | '\x22' :: _ => text
  | '[' :: _ => list
  | '{' :: _ => object
  | cs => if (cs.takeWhile (fun c => !isStop c)).all isIntegerChar then int else double

theorem Kind.ofText_word (hcs : IsWord cs) (hr : Stops r) (hhead : ∃ c t, cs = c :: t ∧ StartsWord c) :
    ofText (cs ++ r) = if cs.all isIntegerChar then int else double := by
  have hword := takeWhile_word hcs hr
  obtain ⟨c, t, rfl, hc⟩ := hhead
  unfold ofText
  split
  case h_7 => rw [hword]
  all_goals
    next heq =>
    exact absurd (List.cons.inj heq).1 (hc.ne (by decide) (by decide))

/-- What is written for a value starts with its kind. -/
theorem Kind.ofText_render (v : Json) (hr : Stops r) : ofText (v.render .canonical depth ++ r) = v.kind := by
  cases v with
  | null => rfl
  | bool b => cases b <;> rfl
  | int n =>
    have hn := isNumeral_signed n
    exact (ofText_word hn.isWord hr hn.startsWord).trans (if_pos (all_isIntegerChar_signed n))
  | double d =>
    refine (ofText_word (isWord_double d) hr (startsWord_double d)).trans (if_neg ?_)
    rw [all_isIntegerChar_double]
    exact nofun
  | str s => rfl
  | arr xs => cases xs <;> rfl
  | obj ms => cases ms <;> rfl

/-- The values of a kind. -/
def Kind.Holds : Kind → Json → Prop
  | .null, v => v = .null
  | .yes, v => v = .bool true
  | .no, v => v = .bool false
  | .int, v => ∃ n, v = .int n
  | .double, v => ∃ d, v = .double d
  | .text, v => ∃ s, v = .str s
  | .list, v => ∃ xs, v = .arr xs
  | .object, v => ∃ ms, v = .obj ms

theorem holds_kind (v : Json) : v.kind.Holds v := by
  cases v with
  | null => rfl
  | bool b => cases b <;> rfl
  | _ => exact ⟨_, rfl⟩

/-- Values that are written alike are of one kind. -/
theorem holds_of_render {a b : Json} {depth' : Nat} (hr : Stops r) (hs : Stops s)
    (h : a.render .canonical depth ++ r = b.render .canonical depth' ++ s) : a.kind.Holds b := by
  have hkind : a.kind = b.kind := by rw [← Kind.ofText_render a hr, h, Kind.ofText_render b hs]
  rw [hkind]
  exact holds_kind b

/-! ## Texts -/

/-- The value of hexadecimal digits. -/
def hexValue? (cs : List Char) : Option Nat :=
  cs.foldlM (fun n c => (Numeral.hexDigit? c).map (fun d => n * 16 + d)) 0

/-- The first character of a text as it is written, and what follows it. -/
def nextChar? : List Char → Option (Char × List Char)
  | '\\' :: 'u' :: r => (hexValue? (r.take 4)).map (fun n => (Char.ofNat n, r.drop 4))
  | '\\' :: l :: r => (unescape? l).map (fun c => (c, r))
  | c :: r => some (c, r)
  | [] => none

/-- Only controls are written by their code. -/
theorem unitEscape_of_control (h : c.toNat < 0x20) : unitEscape c = '\\' :: 'u' :: Numeral.hex 4 c.toNat := by
  have hsmall : c.toNat < 0x10000 := by omega
  rw [unitEscape, codeUnits, if_pos hsmall, List.flatMap_singleton]

theorem hexValue?_hex {n : Nat} (h : n < 0x20) : hexValue? (Numeral.hex 4 n) = some n := by
  have hall : ∀ n < 0x20, hexValue? (Numeral.hex 4 n) = some n := by decide
  exact hall n h

/-- What is written for a character is read as that character. -/
theorem nextChar?_escapedChar (c : Char) (r : List Char) :
    nextChar? (escapedChar isNoControl c ++ r) = some (c, r) := by
  unfold escapedChar
  cases hletter : letterEscape? c with
  | some l =>
    obtain ⟨hu, hl⟩ := unescape?_of_letterEscape? hletter
    simp [nextChar?, hl]
  | none =>
    dsimp only
    split
    · have hbackslash : c ≠ '\\' := by
        rintro rfl
        cases hletter
      simp [nextChar?, hbackslash]
    · next hcontrol =>
      have hsmall : c.toNat < 0x20 := by simpa [isNoControl] using hcontrol
      have hlength : (Numeral.hex 4 c.toNat).length = 4 := Numeral.length_hex 4 c.toNat
      rw [unitEscape_of_control hsmall, List.cons_append, List.cons_append, nextChar?,
        List.take_left' hlength, List.drop_left' hlength, hexValue?_hex hsmall, Option.map_some, Char.ofNat_toNat]

theorem escapedChar_append_injective {d : Char}
    (h : escapedChar isNoControl c ++ r = escapedChar isNoControl d ++ s) : c = d ∧ r = s := by
  have hread := congrArg nextChar? h
  rw [nextChar?_escapedChar, nextChar?_escapedChar] at hread
  cases hread
  exact ⟨rfl, rfl⟩

/-- No character of a text is written with a quote first, so that a quote ends the text. -/
theorem head_escapedChar (c : Char) : ∃ d t, escapedChar isNoControl c = d :: t ∧ d ≠ '\x22' := by
  unfold escapedChar
  cases hletter : letterEscape? c with
  | some l => exact ⟨_, _, rfl, by decide⟩
  | none =>
    dsimp only
    split
    · refine ⟨c, [], rfl, ?_⟩
      rintro rfl
      cases hletter
    · next hcontrol =>
      have hsmall : c.toNat < 0x20 := by simpa [isNoControl] using hcontrol
      exact ⟨_, _, unitEscape_of_control hsmall, by decide⟩

theorem escapedChars_append_injective {as bs : List Char}
    (h : as.flatMap (escapedChar isNoControl) ++ '\x22' :: r = bs.flatMap (escapedChar isNoControl) ++ '\x22' :: s) :
    as = bs ∧ r = s := by
  induction as generalizing bs with
  | nil =>
    cases bs with
    | nil => exact ⟨rfl, (List.cons.inj h).2⟩
    | cons b bs =>
      obtain ⟨d, t, hd, hquote⟩ := head_escapedChar b
      rw [List.flatMap_cons, hd] at h
      exact absurd (List.cons.inj h).1.symm hquote
  | cons a as ih =>
    cases bs with
    | nil =>
      obtain ⟨d, t, hd, hquote⟩ := head_escapedChar a
      rw [List.flatMap_cons, hd] at h
      exact absurd (List.cons.inj h).1 hquote
    | cons b bs =>
      rw [List.flatMap_cons, List.flatMap_cons, List.append_assoc, List.append_assoc] at h
      obtain ⟨rfl, hrest⟩ := escapedChar_append_injective h
      obtain ⟨rfl, hend⟩ := ih hrest
      exact ⟨rfl, hend⟩

/-- A text and where it ends. -/
theorem escapedText_append_injective {k l : String}
    (h : escapedText isNoControl k.toList ++ r = escapedText isNoControl l.toList ++ s) : k = l ∧ r = s := by
  simp only [escapedText, List.cons_append, List.append_assoc, List.nil_append, List.cons.injEq, true_and] at h
  obtain ⟨hchars, hend⟩ := escapedChars_append_injective h
  exact ⟨String.toList_inj.1 hchars, hend⟩

/-! ## Containers -/

theorem render_arr_cons (x : Json) (xs : List Json) :
    (arr (x :: xs)).render .canonical depth ++ r =
      '[' :: (x.render .canonical (depth + 1) ++ (renderItems .canonical (depth + 1) xs ++ ']' :: r)) := by
  simp [render, Format.canonical, Format.compact]

theorem render_obj_cons (k : String) (x : Json) (ms : List (String × Json)) :
    (obj ((k, x) :: ms)).render .canonical depth ++ r =
      '{' :: (escapedText isNoControl k.toList ++ ':' :: (x.render .canonical (depth + 1) ++
        (renderMembers .canonical (depth + 1) ms ++ '}' :: r))) := by
  simp [render, Format.canonical, Format.compact]

theorem renderItems_cons (x : Json) (xs : List Json) :
    renderItems .canonical depth (x :: xs) ++ r =
      ',' :: (x.render .canonical depth ++ (renderItems .canonical depth xs ++ r)) := by
  simp [renderItems, Format.canonical, Format.compact]

theorem renderMembers_cons (k : String) (x : Json) (ms : List (String × Json)) :
    renderMembers .canonical depth ((k, x) :: ms) ++ r =
      ',' :: (escapedText isNoControl k.toList ++ ':' :: (x.render .canonical depth ++
        (renderMembers .canonical depth ms ++ r))) := by
  simp [renderMembers, Format.canonical, Format.compact]

theorem stops_renderItems (xs : List Json) (r : List Char) : Stops (renderItems .canonical depth xs ++ ']' :: r) := by
  cases xs with
  | nil => rintro c ⟨⟩; rfl
  | cons x xs => rw [renderItems_cons]; rintro c ⟨⟩; rfl

theorem stops_renderMembers (ms : List (String × Json)) (r : List Char) :
    Stops (renderMembers .canonical depth ms ++ '}' :: r) := by
  cases ms with
  | nil => rintro c ⟨⟩; rfl
  | cons m ms => rw [renderMembers_cons]; rintro c ⟨⟩; rfl

/-- A value in a list does not start with the bracket that ends the list. -/
theorem ne_bracket_of_render {v : Json} {t : List Char} (h : v.render .canonical depth ++ r = c :: t) : c ≠ ']' := by
  have hword : ∀ cs, (∃ c t, cs = c :: t ∧ StartsWord c) → cs ++ r = c :: t → c ≠ ']' := by
    rintro _ ⟨d, u, rfl, hd⟩ h
    rw [← (List.cons.inj h).1]
    exact hd.ne (by decide) (by decide)
  cases v with
  | null => cases h; decide
  | bool b => cases b <;> cases h <;> decide
  | int n => exact hword _ (isNumeral_signed n).startsWord h
  | double d => exact hword _ (startsWord_double d) h
  | str s => cases h; decide
  | arr xs => cases xs <;> cases h <;> decide
  | obj ms => cases ms <;> cases h <;> decide

mutual

/-- **A value and where it ends.** -/
theorem render_append_injective : (a b : Json) → {depth depth' : Nat} → {r s : List Char} →
    Double.ToldApart a.doubles b.doubles → Stops r → Stops s →
    a.render .canonical depth ++ r = b.render .canonical depth' ++ s → a = b ∧ r = s
  | .null, b, _, _, _, _, _, hr, hs, h => by
    obtain rfl : b = .null := holds_of_render hr hs h
    exact ⟨rfl, List.append_cancel_left h⟩
  | .bool true, b, _, _, _, _, _, hr, hs, h => by
    obtain rfl : b = .bool true := holds_of_render hr hs h
    exact ⟨rfl, List.append_cancel_left h⟩
  | .bool false, b, _, _, _, _, _, hr, hs, h => by
    obtain rfl : b = .bool false := holds_of_render hr hs h
    exact ⟨rfl, List.append_cancel_left h⟩
  | .int n, b, _, _, _, _, _, hr, hs, h => by
    obtain ⟨m, rfl⟩ : ∃ m, b = .int m := holds_of_render hr hs h
    obtain ⟨hsame, hend⟩ := word_append_injective (isNumeral_signed n).isWord (isNumeral_signed m).isWord hr hs h
    exact ⟨congrArg int (signed_injective hsame), hend⟩
  | .double d, b, _, _, _, _, hdoubles, hr, hs, h => by
    obtain ⟨e, rfl⟩ : ∃ e, b = .double e := holds_of_render hr hs h
    obtain ⟨hsame, hend⟩ := word_append_injective (isWord_double d) (isWord_double e) hr hs h
    exact ⟨congrArg double (hdoubles d List.mem_cons_self e List.mem_cons_self hsame), hend⟩
  | .str k, b, _, _, _, _, _, hr, hs, h => by
    obtain ⟨l, rfl⟩ : ∃ l, b = .str l := holds_of_render hr hs h
    obtain ⟨rfl, hend⟩ := escapedText_append_injective h
    exact ⟨rfl, hend⟩
  | .arr [], b, _, _, _, _, _, hr, hs, h => by
    obtain ⟨ys, rfl⟩ : ∃ ys, b = .arr ys := holds_of_render hr hs h
    cases ys with
    | nil => exact ⟨rfl, List.append_cancel_left h⟩
    | cons y ys =>
      rw [render_arr_cons] at h
      exact absurd rfl (ne_bracket_of_render (List.cons.inj h).2.symm)
  | .arr (x :: xs), b, _, _, _, _, hdoubles, hr, hs, h => by
    obtain ⟨ys, rfl⟩ : ∃ ys, b = .arr ys := holds_of_render hr hs h
    cases ys with
    | nil =>
      rw [render_arr_cons] at h
      exact absurd rfl (ne_bracket_of_render (List.cons.inj h).2)
    | cons y ys =>
      rw [render_arr_cons, render_arr_cons] at h
      obtain ⟨rfl, hitems⟩ := render_append_injective x y hdoubles.left
        (stops_renderItems xs _) (stops_renderItems ys _) (List.cons.inj h).2
      obtain ⟨rfl, hend⟩ := renderItems_append_injective xs ys hdoubles.right hitems
      exact ⟨rfl, hend⟩
  | .obj [], b, _, _, _, _, _, hr, hs, h => by
    obtain ⟨ms, rfl⟩ : ∃ ms, b = .obj ms := holds_of_render hr hs h
    cases ms with
    | nil => exact ⟨rfl, List.append_cancel_left h⟩
    | cons m ms =>
      rw [render_obj_cons] at h
      exact absurd (List.cons.inj (List.cons.inj h).2).1 (by decide)
  | .obj ((k, x) :: ms), b, _, _, _, _, hdoubles, hr, hs, h => by
    obtain ⟨ms', rfl⟩ : ∃ ms', b = .obj ms' := holds_of_render hr hs h
    cases ms' with
    | nil =>
      rw [render_obj_cons] at h
      exact absurd (List.cons.inj (List.cons.inj h).2).1 (by decide)
    | cons m ms' =>
      obtain ⟨l, y⟩ := m
      rw [render_obj_cons, render_obj_cons] at h
      obtain ⟨rfl, hvalue⟩ := escapedText_append_injective (List.cons.inj h).2
      obtain ⟨rfl, hmembers⟩ := render_append_injective x y hdoubles.left
        (stops_renderMembers ms _) (stops_renderMembers ms' _) (List.cons.inj hvalue).2
      obtain ⟨rfl, hend⟩ := renderMembers_append_injective ms ms' hdoubles.right hmembers
      exact ⟨rfl, hend⟩

theorem renderItems_append_injective : (xs ys : List Json) → {depth depth' : Nat} → {r s : List Char} →
    Double.ToldApart (itemDoubles xs) (itemDoubles ys) →
    renderItems .canonical depth xs ++ ']' :: r = renderItems .canonical depth' ys ++ ']' :: s → xs = ys ∧ r = s
  | [], [], _, _, _, _, _, h => ⟨rfl, (List.cons.inj h).2⟩
  | [], y :: ys, _, _, _, _, _, h => by
    rw [renderItems_cons] at h
    exact absurd (List.cons.inj h).1 (by decide)
  | x :: xs, [], _, _, _, _, _, h => by
    rw [renderItems_cons] at h
    exact absurd (List.cons.inj h).1 (by decide)
  | x :: xs, y :: ys, _, _, _, _, hdoubles, h => by
    rw [renderItems_cons, renderItems_cons] at h
    obtain ⟨rfl, hitems⟩ := render_append_injective x y hdoubles.left
      (stops_renderItems xs _) (stops_renderItems ys _) (List.cons.inj h).2
    obtain ⟨rfl, hend⟩ := renderItems_append_injective xs ys hdoubles.right hitems
    exact ⟨rfl, hend⟩

theorem renderMembers_append_injective : (ms ms' : List (String × Json)) → {depth depth' : Nat} → {r s : List Char} →
    Double.ToldApart (memberDoubles ms) (memberDoubles ms') →
    renderMembers .canonical depth ms ++ '}' :: r = renderMembers .canonical depth' ms' ++ '}' :: s → ms = ms' ∧ r = s
  | [], [], _, _, _, _, _, h => ⟨rfl, (List.cons.inj h).2⟩
  | [], m :: ms', _, _, _, _, _, h => by
    rw [renderMembers_cons] at h
    exact absurd (List.cons.inj h).1 (by decide)
  | m :: ms, [], _, _, _, _, _, h => by
    rw [renderMembers_cons] at h
    exact absurd (List.cons.inj h).1 (by decide)
  | (k, x) :: ms, (l, y) :: ms', _, _, _, _, hdoubles, h => by
    rw [renderMembers_cons, renderMembers_cons] at h
    obtain ⟨rfl, hvalue⟩ := escapedText_append_injective (List.cons.inj h).2
    obtain ⟨rfl, hmembers⟩ := render_append_injective x y hdoubles.left
      (stops_renderMembers ms _) (stops_renderMembers ms' _) (List.cons.inj hvalue).2
    obtain ⟨rfl, hend⟩ := renderMembers_append_injective ms ms' hdoubles.right hmembers
    exact ⟨rfl, hend⟩

end

/-- What is written for a value determines it. -/
theorem render_injective {a b : Json} (hdoubles : Double.ToldApart a.doubles b.doubles)
    (h : a.render .canonical 0 = b.render .canonical 0) : a = b := by
  have hend : Stops [] := by rintro c ⟨⟩
  have hrender : a.render .canonical 0 ++ [] = b.render .canonical 0 ++ [] := by rw [h]
  exact (render_append_injective a b hdoubles hend hend hrender).1

end Json

end KubeSchema
