import KubeSchema.Json.Printer
import KubeSchema.Json.Reader
import KubeSchema.Proofs.Json.Texts
import Mathlib.Data.List.TakeWhile

/-!
# Numbers read back

An integer is read where it is written (`readNumber_signed`): its digits have no leading zero, and nothing behind them
makes it a double. For a double that is asked for (`Double.ReadsBack`). The machine takes up the characters of a number
until there is another one (`run_isNumeral`).
-/

namespace KubeSchema

/-- A double is what is read where it is written. NaN and the infinities are words, and no digits are read for them. -/
def Double.ReadsBack : Double → Prop
  | .finite negative digits exponent =>
    Json.readNumber (Double.renderFinite negative digits exponent) = some (.double (.finite negative digits exponent), [])
  | _ => True

instance : (d : Double) → Decidable d.ReadsBack
  | .nan => isTrue trivial
  | .infinite _ => isTrue trivial
  | .finite _ _ _ => inferInstanceAs (Decidable (_ = _))

namespace Numeral

variable {c : Char}

theorem decimal_ne_nil (n : Nat) : decimal n ≠ [] := Nat.toDigits_ne_nil

theorem isEmpty_decimal (n : Nat) : (decimal n).isEmpty = false :=
  List.isEmpty_eq_false_iff.2 (decimal_ne_nil n)

/-- A digit is none of the other characters. -/
theorem ne_of_isDigit (hc : c.isDigit = true) (d : Char) (hd : d.isDigit = false) : c ≠ d := by
  rintro rfl
  rw [hd] at hc
  cases hc

/-- Only zero has a leading zero. -/
theorem head_decimal {n : Nat} {r : List Char} (h : decimal n = '0' :: r) : n = 0 := by
  induction n using Nat.strongRecOn generalizing r with
  | _ n ih =>
    unfold decimal at h ih
    by_cases hn : n < 10
    · rw [Nat.toDigits_of_lt_base hn] at h
      have hdigit : ∀ d < 10, Nat.digitChar d = '0' → d = 0 := by decide
      exact hdigit n hn (List.cons.inj h).1
    · rw [Nat.toDigits_of_base_le (by decide) (by omega)] at h
      obtain ⟨d, ds, hd⟩ := List.exists_cons_of_ne_nil (Nat.toDigits_ne_nil (n := n / 10) (b := 10))
      rw [hd, List.cons_append] at h
      have hzero := ih (n / 10) (by omega) (r := ds) (by rw [hd, (List.cons.inj h).1])
      omega

theorem exists_digit_decimal (n : Nat) : ∃ c r, decimal n = c :: r ∧ c.isDigit = true := by
  obtain ⟨c, r, h⟩ := List.exists_cons_of_ne_nil (decimal_ne_nil n)
  exact ⟨c, r, h, isDigit_of_mem_decimal (h ▸ List.mem_cons_self)⟩

end Numeral

namespace Json

variable {pos start : Nat} {stack : List Frame} {chars cs : List Char} {c : Char}

/-! ## Integers -/

theorem spanDigits_decimal (n : Nat) : spanDigits (Numeral.decimal n) = (Numeral.decimal n, []) := by
  have hdigits : ∀ c ∈ Numeral.decimal n, c.isDigit = true := fun c => Numeral.isDigit_of_mem_decimal
  simp only [spanDigits, Prod.mk.injEq]
  exact ⟨List.takeWhile_eq_self_iff.2 hdigits, List.dropWhile_eq_nil_iff.2 hdigits⟩

theorem spanWhole_decimal (n : Nat) : spanWhole (Numeral.decimal n) = (Numeral.decimal n, []) := by
  unfold spanWhole
  split
  · next r h =>
    have hn := Numeral.head_decimal h
    subst hn
    cases h
    rfl
  · exact spanDigits_decimal n

theorem spanMinus_decimal (n : Nat) : spanMinus (Numeral.decimal n) = (false, Numeral.decimal n) := by
  obtain ⟨c, r, h, hdigit⟩ := Numeral.exists_digit_decimal n
  rw [h]
  unfold spanMinus
  split
  · next heq =>
    cases heq
    cases hdigit
  · rfl

theorem readNumber_decimal (n : Nat) : readNumber (Numeral.decimal n) = some (.int n, []) := by
  simp [readNumber, spanMinus_decimal, spanWhole_decimal, spanFraction, spanExponent, Numeral.isEmpty_decimal]

theorem readNumber_minus (n : Nat) : readNumber ('-' :: Numeral.decimal n) = some (.int (-n), []) := by
  simp [readNumber, spanMinus, spanWhole_decimal, spanFraction, spanExponent, Numeral.isEmpty_decimal]

/-- An integer is what is read where it is written. -/
theorem readNumber_signed (n : Int) : readNumber (Numeral.signed n) = some (.int n, []) := by
  cases n with
  | ofNat n => exact readNumber_decimal n
  | negSucc n => exact readNumber_minus (n + 1)

/-! ## The characters of numbers -/

/-- What the machine takes for a number: its characters are those of numbers, and the first is a digit or a minus
sign. -/
structure IsNumeral (cs : List Char) : Prop where
  head : ∃ c r, cs = c :: r ∧ (c = '-' ∨ c.isDigit = true)
  chars : ∀ c ∈ cs, isNumberChar c = true

theorem isNumberChar_of_isDigit (h : c.isDigit = true) : isNumberChar c = true := by simp [isNumberChar, h]

theorem isNumberChar_of_mem_decimal {n : Nat} (h : c ∈ Numeral.decimal n) : isNumberChar c = true :=
  isNumberChar_of_isDigit (Numeral.isDigit_of_mem_decimal h)

theorem isNumeral_minus (h : IsNumeral cs) : IsNumeral ('-' :: cs) := by
  refine ⟨⟨'-', cs, rfl, .inl rfl⟩, fun c hc => ?_⟩
  rcases List.mem_cons.1 hc with rfl | hc
  · rfl
  · exact h.chars c hc

theorem isNumeral_decimal (n : Nat) : IsNumeral (Numeral.decimal n) := by
  obtain ⟨c, r, h, hdigit⟩ := Numeral.exists_digit_decimal n
  exact ⟨⟨c, r, h, .inr hdigit⟩, fun c => isNumberChar_of_mem_decimal⟩

theorem isNumeral_signed (n : Int) : IsNumeral (Numeral.signed n) := by
  cases n with
  | ofNat n => exact isNumeral_decimal n
  | negSucc n => exact isNumeral_minus (isNumeral_decimal (n + 1))

theorem isNumberChar_of_mem_exponentPart {e : Int} (h : c ∈ Double.exponentPart e) : isNumberChar c = true := by
  unfold Double.exponentPart at h
  rcases List.mem_cons.1 h with rfl | h
  · rfl
  · rcases List.mem_cons.1 h with rfl | h
    · split <;> rfl
    · split at h
      · rcases List.mem_cons.1 h with rfl | h
        · rfl
        · exact isNumberChar_of_mem_decimal h
      · exact isNumberChar_of_mem_decimal h

theorem IsNumeral.append {tail : List Char} (h : IsNumeral cs) (htail : ∀ c ∈ tail, isNumberChar c = true) :
    IsNumeral (cs ++ tail) := by
  obtain ⟨c, r, rfl, hc⟩ := h.head
  refine ⟨⟨c, r ++ tail, rfl, hc⟩, fun d hd => ?_⟩
  exact (List.mem_append.1 hd).elim (h.chars d) (htail d)

theorem IsNumeral.take (h : IsNumeral cs) {k : Nat} (hk : 0 < k) : IsNumeral (cs.take k) := by
  obtain ⟨c, r, rfl, hc⟩ := h.head
  obtain ⟨k, rfl⟩ := Nat.exists_eq_succ_of_ne_zero (Nat.ne_of_gt hk)
  exact ⟨⟨c, r.take k, rfl, hc⟩, fun d hd => h.chars d (List.mem_of_mem_take hd)⟩

theorem isNumberChar_of_mem_replicate {k : Nat} (h : c ∈ List.replicate k '0') : isNumberChar c = true := by
  rw [(List.mem_replicate.1 h).2]
  rfl

theorem isNumeral_positional (n : Nat) (e : Int) : IsNumeral (Double.positional (Numeral.decimal n) e) := by
  have hds := isNumeral_decimal n
  unfold Double.positional
  dsimp only
  split
  · refine (hds.append fun c => isNumberChar_of_mem_replicate).append fun c hc => ?_
    exact List.all_eq_true.1 (show ['.', '0'].all isNumberChar = true from rfl) c hc
  · split
    · next hpoint =>
      refine (hds.take (by omega)).append fun c hc => ?_
      rcases List.mem_cons.1 hc with rfl | hc
      · rfl
      · exact hds.chars c (List.mem_of_mem_drop hc)
    · refine IsNumeral.append ⟨⟨'0', _, rfl, .inr rfl⟩, fun c hc => ?_⟩ hds.chars
      rcases List.mem_cons.1 hc with rfl | hc
      · rfl
      · rcases List.mem_cons.1 hc with rfl | hc
        · rfl
        · exact isNumberChar_of_mem_replicate hc

theorem isNumeral_scientific (n : Nat) (e : Int) : IsNumeral (Double.scientific (Numeral.decimal n) e) := by
  have hds := isNumeral_decimal n
  unfold Double.scientific
  refine ((hds.take Nat.one_pos).append fun c hc => ?_).append fun c => isNumberChar_of_mem_exponentPart
  split at hc
  · cases hc
  · rcases List.mem_cons.1 hc with rfl | hc
    · rfl
    · exact hds.chars c (List.mem_of_mem_drop hc)

theorem isNumeral_renderFinite (negative : Bool) (n : Nat) (e : Int) :
    IsNumeral (Double.renderFinite negative n e) := by
  unfold Double.renderFinite
  dsimp only
  split
  · refine isNumeral_minus ?_
    split
    · exact isNumeral_positional n e
    · exact isNumeral_scientific n e
  · split
    · exact isNumeral_positional n e
    · exact isNumeral_scientific n e

/-! ## Numbers in the machine -/

theorem run_number (hcs : ∀ c ∈ cs, isNumberChar c = true) :
    run pos ⟨stack, .number start chars⟩ cs = .ok ⟨stack, .number start (cs.reverse ++ chars)⟩ := by
  induction cs generalizing pos chars with
  | nil => rfl
  | cons c cs ih =>
    have hc := hcs c List.mem_cons_self
    have hword : c ≠ 'I' := by
      rintro rfl
      cases hc
    have hstep : step pos ⟨stack, .number start chars⟩ c = .ok ⟨stack, .number start (c :: chars)⟩ := by
      simp [step, hword, hc]
    rw [run_of_step hstep, ih (fun d hd => hcs d (List.mem_cons_of_mem _ hd)), List.reverse_cons, List.append_assoc]
    rfl

/-- The machine takes up a whole number. -/
theorem run_isNumeral (h : IsNumeral cs) : run pos ⟨stack, .value⟩ cs = .ok ⟨stack, .number pos cs.reverse⟩ := by
  obtain ⟨c, r, rfl, hc⟩ := h.head
  have hstep : step pos ⟨stack, .value⟩ c = .ok ⟨stack, .number pos [c]⟩ := by
    rcases hc with rfl | hc
    · rfl
    · simp [step, stepBetween, isBlank, begin, Numeral.ne_of_isDigit hc, hc]
  rw [run_of_step hstep, run_number (fun d hd => h.chars d (List.mem_cons_of_mem _ hd)), List.reverse_cons]

end Json

end KubeSchema
