import KubeSchema.Json.Printer
import KubeSchema.Json.Reader
import KubeSchema.Proofs.Outcome
import Mathlib.Tactic.SplitIfs

/-!
# Texts read back

A text is written as characters of printable ASCII, and the machine that reads them takes up the characters of the text
one after the other: as they are, from an escape of one letter, or from the escapes of their code units, where a high
surrogate waits for the low one.

* `run_escapedChar`: what is written for a character makes the machine take up that character.
* `run_escapedText`: what is written for a text makes it end with that text.
* `isPlainAscii_escapedText`: all of it is printable ASCII.
-/

namespace KubeSchema

/-! ## Hexadecimal digits -/

namespace Numeral

theorem hexDigit?_digitChar {d : Nat} (h : d < 16) : hexDigit? (Nat.digitChar d) = some d := by
  revert d
  decide

theorem hex_four (u : Nat) : hex 4 u =
    [Nat.digitChar (u / 16 / 16 / 16 % 16), Nat.digitChar (u / 16 / 16 % 16), Nat.digitChar (u / 16 % 16),
      Nat.digitChar (u % 16)] := rfl

end Numeral

namespace Json

variable {pos start : Nat} {stack : List Frame} {use : TextUse} {chars : List Char} {high : Option Nat} {c : Char}

/-! ## Escapes -/

theorem run_cons (pos : Nat) (s : State) (c : Char) (cs : List Char) :
    run pos s (c :: cs) = step pos s c >>= fun t => run (pos + 1) t cs := rfl

theorem run_of_step {s t : State} (h : step pos s c = .ok t) (cs : List Char) :
    run pos s (c :: cs) = run (pos + 1) t cs := by
  rw [run_cons, h]
  rfl

theorem run_of_run {s t : State} {as : List Char} (h : run pos s as = .ok t) (bs : List Char) :
    run pos s (as ++ bs) = run (pos + as.length) t bs := by
  rw [run_append, h]
  rfl

/-- The escape of a code unit has the machine take up the unit. -/
theorem run_unit {u : Nat} (hu : u < 0x10000) {chars' : List Char} {high' : Option Nat}
    (h : takeUnit chars high u = some (chars', high')) :
    run pos ⟨stack, .text start use chars high .none⟩ ('\\' :: 'u' :: Numeral.hex 4 u) =
      .ok ⟨stack, .text start use chars' high' .none⟩ := by
  have hdigit : ∀ n, Numeral.hexDigit? (Nat.digitChar (n % 16)) = some (n % 16) :=
    fun n => Numeral.hexDigit?_digitChar (Nat.mod_lt _ (by decide))
  have hvalue : (((0 * 16 + u / 16 / 16 / 16 % 16) * 16 + u / 16 / 16 % 16) * 16 + u / 16 % 16) * 16 + u % 16 = u := by
    omega
  have hbackslash : step pos ⟨stack, .text start use chars high .none⟩ '\\' =
      .ok ⟨stack, .text start use chars high .backslash⟩ := rfl
  have hstart : step (pos + 1) ⟨stack, .text start use chars high .backslash⟩ 'u' =
      .ok ⟨stack, .text start use chars high (.unit 0 0)⟩ := rfl
  rw [run_of_step hbackslash, run_of_step hstart, Numeral.hex_four]
  have hstep : ∀ pos digits value n, digits < 3 →
      step pos ⟨stack, .text start use chars high (.unit digits value)⟩ (Nat.digitChar (n % 16)) =
        .ok ⟨stack, .text start use chars high (.unit (digits + 1) (value * 16 + n % 16))⟩ := by
    intro pos digits value n hdigits
    simp only [step, stepText, hdigit, if_pos hdigits]
  rw [run_of_step (hstep _ 0 _ _ (by decide)), run_of_step (hstep _ 1 _ _ (by decide)),
    run_of_step (hstep _ 2 _ _ (by decide)), run_cons]
  have hlast : step (pos + 1 + 1 + 1 + 1 + 1) ⟨stack, .text start use chars high
      (.unit 3 (((0 * 16 + u / 16 / 16 / 16 % 16) * 16 + u / 16 / 16 % 16) * 16 + u / 16 % 16))⟩
      (Nat.digitChar (u % 16)) = .ok ⟨stack, .text start use chars' high' .none⟩ := by
    simp only [step, stepText, hdigit, hvalue, h]
    rfl
  rw [hlast]
  rfl

/-- A character is no surrogate, and not above the last code point. -/
theorem toNat_valid (c : Char) : c.toNat < 0xD800 ∨ 0xDFFF < c.toNat ∧ c.toNat < 0x110000 := c.valid

theorem takeUnit_char (chars : List Char) (c : Char) : takeUnit chars none c.toNat = some (c :: chars, none) := by
  have hvalid := toNat_valid c
  have hhigh : isHighSurrogate c.toNat = false := by
    simp only [isHighSurrogate, Bool.and_eq_false_iff, decide_eq_false_iff_not]
    omega
  have hlow : isLowSurrogate c.toNat = false := by
    simp only [isLowSurrogate, Bool.and_eq_false_iff, decide_eq_false_iff_not]
    omega
  simp [takeUnit, hhigh, hlow]

theorem takeUnit_high {u : Nat} (h : isHighSurrogate u = true) (chars : List Char) :
    takeUnit chars none u = some (chars, some u) := by
  simp [takeUnit, h]

theorem takeUnit_low (h : 0x10000 ≤ c.toNat) (chars : List Char) :
    takeUnit chars (some (0xD800 + (c.toNat - 0x10000) / 0x400)) (0xDC00 + (c.toNat - 0x10000) % 0x400) =
      some (c :: chars, none) := by
  have hlow : isLowSurrogate (0xDC00 + (c.toNat - 0x10000) % 0x400) = true := by
    simp only [isLowSurrogate, Bool.and_eq_true, decide_eq_true_eq]
    omega
  have hpair : 0x10000 + (0xD800 + (c.toNat - 0x10000) / 0x400 - 0xD800) * 0x400 +
      (0xDC00 + (c.toNat - 0x10000) % 0x400 - 0xDC00) = c.toNat := by omega
  rw [takeUnit, if_pos hlow, hpair, Char.ofNat_toNat]

/-! ## Characters -/

/-- The escapes of the code units of a character have the machine take up the character. -/
theorem run_unitEscape (pos : Nat) (chars : List Char) (c : Char) :
    run pos ⟨stack, .text start use chars none .none⟩ (unitEscape c) =
      .ok ⟨stack, .text start use (c :: chars) none .none⟩ := by
  have hvalid := toNat_valid c
  unfold unitEscape codeUnits
  by_cases h : c.toNat < 0x10000
  · rw [if_pos h, List.flatMap_singleton]
    exact run_unit h (takeUnit_char chars c)
  · have hhigh : isHighSurrogate (0xD800 + (c.toNat - 0x10000) / 0x400) = true := by
      simp only [isHighSurrogate, Bool.and_eq_true, decide_eq_true_eq]
      omega
    rw [if_neg h, List.flatMap_cons, List.flatMap_singleton,
      run_of_run (run_unit (by omega) (takeUnit_high hhigh chars)),
      run_unit (by omega) (takeUnit_low (by omega) chars)]

theorem unescape?_of_letterEscape? {l : Char} (h : letterEscape? c = some l) : l ≠ 'u' ∧ unescape? l = some c := by
  unfold letterEscape? at h
  split_ifs at h with hself
  · cases h
    rcases hself with rfl | rfl <;> decide
  all_goals
    cases h
    subst_vars
    decide

/-- What is written for a character has the machine take up the character. -/
theorem run_escapedChar (pos : Nat) (chars : List Char) (c : Char) :
    run pos ⟨stack, .text start use chars none .none⟩ (escapedChar isPlainAscii c) =
      .ok ⟨stack, .text start use (c :: chars) none .none⟩ := by
  unfold escapedChar
  cases hletter : letterEscape? c with
  | some l =>
    obtain ⟨hu, hl⟩ := unescape?_of_letterEscape? hletter
    have hbackslash : step pos ⟨stack, .text start use chars none .none⟩ '\\' =
        .ok ⟨stack, .text start use chars none .backslash⟩ := rfl
    have hend : step (pos + 1) ⟨stack, .text start use chars none .backslash⟩ l =
        .ok ⟨stack, .text start use (c :: chars) none .none⟩ := by
      simp [step, stepText, hu, hl]
    rw [run_of_step hbackslash, run_of_step hend]
    rfl
  | none =>
    dsimp only
    split
    · next hplain =>
      have hstep : step pos ⟨stack, .text start use chars none .none⟩ c =
          .ok ⟨stack, .text start use (c :: chars) none .none⟩ := by
        simp only [isPlainAscii, Bool.and_eq_true, decide_eq_true_eq] at hplain
        have hquote : c ≠ '\x22' ∧ c ≠ '\\' := by
          constructor
          · rintro rfl
            cases hletter
          · rintro rfl
            cases hletter
        simp [step, stepText, hquote, Nat.not_lt.2 hplain.1]
      rw [run_of_step hstep]
      rfl
    · exact run_unitEscape pos chars c

/-! ## Texts -/

theorem run_escapedChars (pos : Nat) (chars s : List Char) :
    run pos ⟨stack, .text start use chars none .none⟩ (s.flatMap (escapedChar isPlainAscii)) =
      .ok ⟨stack, .text start use (s.reverse ++ chars) none .none⟩ := by
  induction s generalizing pos chars with
  | nil => rfl
  | cons c s ih =>
    rw [List.flatMap_cons, run_of_run (run_escapedChar pos chars c), ih, List.reverse_cons, List.append_assoc]
    rfl

/-- What is written for a text, behind its first quote, has the machine end a text of its characters. -/
theorem run_escapedText (pos : Nat) (s : String) :
    run pos ⟨stack, .text start use [] none .none⟩ (s.toList.flatMap (escapedChar isPlainAscii) ++ ['\x22']) =
      .ok (endText stack use s.toList.reverse) := by
  have hend : ∀ pos, step pos ⟨stack, .text start use s.toList.reverse none .none⟩ '\x22' =
      .ok (endText stack use s.toList.reverse) := fun _ => rfl
  rw [run_of_run (run_escapedChars pos [] s.toList), List.append_nil, run_of_step (hend _)]
  rfl

theorem endText_value (s : String) : endText stack .value s.toList.reverse = deliver (.str s) stack := by
  simp [endText]

theorem endText_name (before : List (String × Json)) (s : String) :
    endText stack (.name before) s.toList.reverse = ⟨stack, .colon before s⟩ := by
  simp [endText]

/-! ## Printable ASCII -/

theorem isPlainAscii_digitChar (n : Nat) : isPlainAscii (Nat.digitChar (n % 16)) = true := by
  have h : ∀ d < 16, isPlainAscii (Nat.digitChar d) = true := by decide
  exact h _ (Nat.mod_lt _ (by decide))

theorem isPlainAscii_hex {w u : Nat} (h : c ∈ Numeral.hex w u) : isPlainAscii c = true := by
  induction w generalizing u with
  | zero => cases h
  | succ w ih =>
    rw [Numeral.hex, List.mem_append, List.mem_singleton] at h
    rcases h with h | rfl
    · exact ih h
    · exact isPlainAscii_digitChar u

theorem isPlainAscii_escapedChar {d : Char} (h : d ∈ escapedChar isPlainAscii c) : isPlainAscii d = true := by
  unfold escapedChar at h
  split at h
  · next l hletter =>
    have hl : isPlainAscii l = true := by
      unfold letterEscape? at hletter
      split_ifs at hletter with hself
      · cases hletter
        rcases hself with rfl | rfl <;> decide
      all_goals
        cases hletter
        decide
    rcases List.mem_cons.1 h with rfl | h
    · decide
    · exact List.mem_singleton.1 h ▸ hl
  · split at h
    · next hplain => exact List.mem_singleton.1 h ▸ hplain
    · obtain ⟨u, -, h⟩ := List.mem_flatMap.1 h
      rcases List.mem_cons.1 h with rfl | h
      · decide
      · rcases List.mem_cons.1 h with rfl | h
        · decide
        · exact isPlainAscii_hex h

theorem isPlainAscii_escapedText {s : List Char} (h : c ∈ escapedText isPlainAscii s) : isPlainAscii c = true := by
  rcases List.mem_cons.1 h with rfl | h
  · decide
  · rcases List.mem_append.1 h with h | h
    · obtain ⟨d, -, h⟩ := List.mem_flatMap.1 h
      exact isPlainAscii_escapedChar h
    · rw [List.mem_singleton.1 h]
      decide

end Json

end KubeSchema
