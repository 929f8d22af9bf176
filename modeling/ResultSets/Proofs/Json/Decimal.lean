import Mathlib.Tactic.IntervalCases
import ResultSets.Proofs.Json.Reading

namespace ResultSets.Json

/-! A natural number of 64 bits in plain decimal is read as itself. It is never mistaken for
one that is too large for a double. -/

/-! ## Digits -/

theorem head?_toDigits_ne {number : Nat} (positive : 0 < number) :
    (Nat.toDigits 10 number).head? ≠ some '0' := by
  induction number using Nat.strongRecOn with
  | ind number induction =>
      by_cases small : number < 10
      · rw [Nat.toDigits_of_lt_base small]
        interval_cases number <;> decide
      · have leading := induction (number / 10) (by omega) (by omega)
        rw [Nat.toDigits_of_base_le (by decide) (by omega), List.head?_append]
        cases found : (Nat.toDigits 10 (number / 10)).head? with
        | none => exact absurd (List.head?_eq_none_iff.mp found) Nat.toDigits_ne_nil
        | some first => rwa [found] at leading

theorem toDigits_injective : Function.Injective (Nat.toDigits 10) :=
  Function.LeftInverse.injective (g := fun row => Nat.ofDigitChars 10 row 0)
    fun _ => Nat.ofDigitChars_ten_toDigits

theorem isWhole_toDigits (number : Nat) : IsWhole (Nat.toDigits 10 number) := by
  refine ⟨⟨Nat.toDigits_ne_nil, ?_⟩, ?_⟩
  · intro char
    exact Nat.isDigit_of_mem_toDigits (by decide) (by decide)
  · rcases Nat.eq_zero_or_pos number with zero | positive
    · left
      rw [zero]
      rfl
    · exact .inr (head?_toDigits_ne positive)

namespace Number

def ofNat (number : Nat) : Number :=
  { negative := false
    whole := Nat.toDigits 10 number
    fraction := []
    exponent := 0
    integral := true }

theorem isNumber_ofNat (number : Nat) : IsNumber (Nat.toDigits 10 number) (ofNat number) := by
  have shape : IsUnsigned false _ _ := .intro (isWhole_toDigits number) .absent .absent
  rw [List.append_nil, List.append_nil] at shape
  exact .unsigned shape

theorem natural?_ofNat (number : Nat) : (ofNat number).natural? = some number := by
  rw [natural?, ofNat]
  simp only [Bool.not_false, Bool.and_true, if_true]
  rw [Nat.ofDigitChars_ten_toDigits]

/-! ## Size -/

theorem keepDigits_eq {row : List Char} {significand : Nat}
    (fits : Nat.ofDigitChars 10 row significand < UInt64.size) :
    keepDigits significand row = (Nat.ofDigitChars 10 row significand, 0) := by
  induction row generalizing significand with
  | nil => rfl
  | cons digit row induction =>
      rw [Nat.ofDigitChars_cons] at fits ⊢
      have small : 10 * significand + (digit.toNat - '0'.toNat) < UInt64.size := by
        rw [Nat.ofDigitChars_eq_ofDigitChars_zero] at fits
        have grows := Nat.le_mul_of_pos_left (10 * significand + (digit.toNat - '0'.toNat))
          (Nat.pow_pos (n := row.length) (show 0 < 10 by decide))
        omega
      rw [keepDigits]
      simp only [if_pos small]
      exact induction fits

theorem roundToDouble_le (number : Nat) : roundToDouble number ≤ 2 * number := by
  have below := Nat.div_mul_le_self number (2 ^ (number.log2 - 52))
  rw [roundToDouble]
  simp only [Nat.shiftRight_eq_div_pow, Nat.shiftLeft_eq]
  split
  · rename_i up
    have positive : number ≠ 0 := by
      intro zero
      rw [zero] at up
      exact absurd up (by decide)
    have small : 2 ^ (number.log2 - 52) ≤ number :=
      Nat.le_trans (Nat.pow_le_pow_right (by decide) (Nat.sub_le _ _)) (Nat.log2_self_le positive)
    rw [Nat.add_mul]
    omega
  · omega

theorem isInfinite_ofNat {number : Nat} (fits : number < UInt64.size) :
    (ofNat number).isInfinite = false := by
  have kept : keepDigits 0 (Nat.toDigits 10 number) = (number, 0) := by
    rw [keepDigits_eq] <;> rw [Nat.ofDigitChars_ten_toDigits]
    exact fits
  have rounded := roundToDouble_le number
  have unit : roundToDouble (Nat.pow 10 0) = 1 := by decide
  have finite : 2 * UInt64.size ≤ infinity := by decide +kernel
  rw [isInfinite, ofNat]
  simp only [kept, keepDigits]
  split
  · rfl
  · rw [if_neg (by decide), decide_eq_false_iff_not]
    change ¬ infinity ≤ roundToDouble number * roundToDouble (Nat.pow 10 0)
    rw [unit]
    omega

end Number

theorem finiteNumber_reads {text : List Char} {value : Number} (isNumber : IsNumber text value)
    (finite : value.isInfinite = false) {rest : List Char} (delimited : Delimited rest) :
    Reads (finiteNumber (text ++ rest)) value rest := by
  rcases (number_reads isNumber delimited .truncated).ok with ⟨fits, read⟩
  rw [finiteNumber, read]
  simp only [bind, Except.bind, finite]
  rfl

theorem finiteNumber_error {text : List Char} {value : Number} (isNumber : IsNumber text value)
    (infinite : value.isInfinite = true) {rest : List Char} (delimited : Delimited rest) :
    finiteNumber (text ++ rest) = .error .malformed := by
  rcases (number_reads isNumber delimited .truncated).ok with ⟨fits, read⟩
  rw [finiteNumber, read]
  simp only [bind, Except.bind, infinite]
  rfl

end ResultSets.Json
