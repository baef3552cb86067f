import ShiftReduce.Lexer.Recognizer

/-!
# Decimal numerals

A numeral is not empty, consists of digits, and has the number it was written for as its value, so
different numbers have different numerals.
-/

namespace ShiftReduce.Bytes

theorem isDigit_digit {d : Nat} (h : d < 10) : Ascii.isDigit (digit d) = true := by
  revert d
  decide

theorem toNat_digit_sub {d : Nat} (h : d < 10) : (digit d - 0x30).toNat = d := by
  revert d
  decide

theorem decimal_ne_nil (n : Nat) : decimal n ≠ [] := by
  unfold decimal
  split <;> simp

theorem isDigit_of_mem_decimal (n : Nat) : ∀ b ∈ decimal n, Ascii.isDigit b = true := by
  fun_induction decimal n with
  | case1 n hsmall => simpa using isDigit_digit hsmall
  | case2 n hlarge ih =>
    have hlast : Ascii.isDigit (digit (n % 10)) = true := isDigit_digit (Nat.mod_lt n (by decide))
    refine List.forall_mem_append.2 ⟨ih, ?_⟩
    simpa using hlast

theorem digitsValue_decimal (n : Nat) : Recognizer.digitsValue (decimal n) = n := by
  fun_induction decimal n with
  | case1 n hsmall => simp [Recognizer.digitsValue, toNat_digit_sub hsmall]
  | case2 n hlarge ih =>
    unfold Recognizer.digitsValue at ih ⊢
    rw [List.foldl_append, ih, List.foldl_cons, List.foldl_nil,
      toNat_digit_sub (Nat.mod_lt n (by decide)), Nat.div_add_mod']

theorem decimal_injective : Function.Injective decimal := by
  intro m n h
  rw [← digitsValue_decimal m, h, digitsValue_decimal n]

end ShiftReduce.Bytes
