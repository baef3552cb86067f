import Mathlib.Data.List.TakeWhile
import Mathlib.Data.List.Induction
import Mathlib.Data.Nat.Digits.Defs
import ShiftReduce.Lexer.Recognizer

/-!
# Integers

A run of digits has no sign and ends with its last digit, so it is a number from the first to the
last, and all that can be wrong with it is that the type does not hold its value
(`Recognizer.IntegerType.read_digits`). What the recognizer of integers says about an input is
therefore a matter of the leading run of digits and its value (`Recognizer.run_integer`).

The value is the one that positional notation gives (`Recognizer.digitsValue_eq_ofDigits`), and the
numbers that a type holds are those of so many bits (`Recognizer.IntegerType.greatest_succ`).
-/

namespace ShiftReduce.Recognizer

variable {τ : Type}

/-- The number of bits that the numbers of a type are written with, the sign apart. -/
def IntegerType.bits : IntegerType → Nat
  | unsigned8 => 8
  | signed8 => 7
  | unsigned16 => 16
  | signed16 => 15
  | unsigned32 => 32
  | signed32 => 31
  | unsigned64 => 64
  | signed64 => 63

theorem IntegerType.greatest_succ (type : IntegerType) : type.greatest + 1 = 2 ^ type.bits := by
  cases type <;> rfl

theorem IntegerType.least_le_zero (type : IntegerType) : type.least ≤ 0 := by
  unfold least
  split <;> omega

theorem toNat_digit {d : UInt8} (h : Ascii.isDigit d = true) : (d - 0x30).toNat = d.toNat - 0x30 := by
  simp only [Ascii.isDigit, Bool.and_eq_true, decide_eq_true_eq] at h
  exact UInt8.toNat_sub_of_le _ _ h.1

/-- The value of digits is their value in positional notation, where the last digit counts once. -/
theorem digitsValue_eq_ofDigits {digits : Bytes} (h : ∀ d ∈ digits, Ascii.isDigit d = true) :
    digitsValue digits = Nat.ofDigits 10 (digits.reverse.map fun d => d.toNat - 0x30) := by
  induction digits using List.reverseRecOn with
  | nil => rfl
  | append_singleton digits d ih =>
    obtain ⟨hdigits, hlast⟩ := List.forall_mem_append.1 h
    have hvalue : digitsValue (digits ++ [d]) = digitsValue digits * 10 + (d - 0x30).toNat := by
      rw [digitsValue, List.foldl_append]
      rfl
    rw [hvalue, ih hdigits, toNat_digit (hlast d List.mem_cons_self), List.reverse_append,
      List.reverse_singleton, List.singleton_append, List.map_cons, Nat.ofDigits_cons,
      Nat.mul_comm, Nat.add_comm]

section Run

variable {digits : Bytes} (hne : digits ≠ []) (hdigits : ∀ d ∈ digits, Ascii.isDigit d = true)

include hne hdigits

/-- Digits alone are a number, all of them. -/
theorem IntegerType.read_digits (type : IntegerType) :
    type.read digits =
      if digitsValue digits ≤ type.greatest then .value (digitsValue digits) digits.length
      else .outOfRange digits.length := by
  have hsign : (type.isSigned && digits.head? == some 0x2D) = false := by
    obtain ⟨d, rest, rfl⟩ := List.exists_cons_of_ne_nil hne
    have hd := hdigits d List.mem_cons_self
    have hminus : d ≠ 0x2D := by
      rintro rfl
      exact absurd hd (by decide)
    simp [hminus]
  have hwhole : digits.takeWhile Ascii.isDigit = digits := List.takeWhile_eq_self_iff.2 hdigits
  have hleast := type.least_le_zero
  unfold read
  simp only [hsign, Bool.toNat_false, List.drop_zero, hwhole, Bool.false_eq_true, if_false,
    Nat.zero_add, List.isEmpty_iff, hne]
  by_cases hle : digitsValue digits ≤ type.greatest
  · rw [if_pos hle, if_pos ⟨by omega, by exact_mod_cast hle⟩]
  · rw [if_neg hle, if_neg fun h => hle (by exact_mod_cast h.2)]

end Run

/-- What is said about an input is a matter of its leading run of digits, and of its value. -/
theorem run_integer (type : IntegerType) (make : Nat → τ) (input : Bytes) :
    (integer type make input).run =
      if Ascii.spanEnd Ascii.isDigit input = 0 then .ignored
      else if digitsValue (input.take (Ascii.spanEnd Ascii.isDigit input)) ≤ type.greatest then
        .success (make (digitsValue (input.take (Ascii.spanEnd Ascii.isDigit input))))
          (.after input (Ascii.spanEnd Ascii.isDigit input))
      else .failed (.ofAscii "integer literal out of range: " ++
        input.take (Ascii.spanEnd Ascii.isDigit input)) := by
  unfold integer
  by_cases hzero : Ascii.spanEnd Ascii.isDigit input = 0
  · rw [if_pos hzero, if_pos hzero]
    rfl
  · have hlength : (input.take (Ascii.spanEnd Ascii.isDigit input)).length =
        Ascii.spanEnd Ascii.isDigit input :=
      List.length_take_of_le (Ascii.spanEnd_le (Nat.zero_le _))
    have hne : input.take (Ascii.spanEnd Ascii.isDigit input) ≠ [] := by
      rw [← List.length_pos_iff, hlength]
      exact Nat.pos_of_ne_zero hzero
    have hdigits : ∀ d ∈ input.take (Ascii.spanEnd Ascii.isDigit input),
        Ascii.isDigit d = true := by
      rw [Ascii.take_spanEnd]
      exact List.all_eq_true.1 List.all_takeWhile
    rw [if_neg hzero, if_neg hzero]
    generalize input.take (Ascii.spanEnd Ascii.isDigit input) = literal at hlength hne hdigits ⊢
    simp only [type.read_digits hne hdigits]
    by_cases hle : digitsValue literal ≤ type.greatest
    · rw [if_pos hle, if_pos hle]
      simp only [hlength, if_true, Int.toNat_natCast]
      rfl
    · rw [if_neg hle, if_neg hle]
      rfl

/-- The same in positional notation. -/
theorem run_integer_ofDigits (type : IntegerType) (make : Nat → τ) (input : Bytes) :
    let digits := input.takeWhile Ascii.isDigit
    let value := Nat.ofDigits 10 (digits.reverse.map fun d => d.toNat - 0x30)
    (integer type make input).run =
      if digits = [] then .ignored
      else if value ≤ type.greatest then .success (make value) (.after input digits.length)
      else .failed (.ofAscii "integer literal out of range: " ++ digits) := by
  intro digits value
  have hdigits : ∀ d ∈ digits, Ascii.isDigit d = true := List.all_eq_true.1 List.all_takeWhile
  have hrun := run_integer type make input
  rw [Ascii.take_spanEnd, Ascii.spanEnd_eq_length, digitsValue_eq_ofDigits hdigits] at hrun
  simp only [List.length_eq_zero_iff] at hrun
  exact hrun

/-- An input that begins with a digit is read as the number that its leading run of digits is in
positional notation: it is accepted with that number, and what is behind the run is left over, or the
type does not hold the number and the message quotes the whole run. An input that does not begin with
a digit is ignored. A run of digits is never taken for something that is not a number. -/
theorem integer_reads_runs (type : IntegerType) (make : Nat → τ) (input : Bytes) :
    let digits := input.takeWhile Ascii.isDigit
    let value := Nat.ofDigits 10 (digits.reverse.map fun d => d.toNat - 0x30)
    let outcome := (integer type make input).run
    type.greatest + 1 = 2 ^ type.bits ∧
    (outcome = .ignored ↔ ∀ d ∈ input.head?, Ascii.isDigit d = false) ∧
    ((∃ d ∈ input.head?, Ascii.isDigit d = true) →
      outcome = (if value ≤ type.greatest then .success (make value) (.after input digits.length)
        else .failed (.ofAscii "integer literal out of range: " ++ digits)) ∧
      type.read digits = if value ≤ type.greatest then .value value digits.length
        else .outOfRange digits.length) ∧
    ∀ message, outcome ≠ .failed (.ofAscii "invalid integer literal: " ++ message) := by
  intro digits value outcome
  have hdigits : ∀ d ∈ digits, Ascii.isDigit d = true := List.all_eq_true.1 List.all_takeWhile
  have hrun : outcome = _ := run_integer_ofDigits type make input
  have hnil : digits = [] ↔ ∀ d ∈ input.head?, Ascii.isDigit d = false := by
    cases input with
    | nil => simp [digits]
    | cons d rest => cases hd : Ascii.isDigit d <;> simp [digits, hd]
  refine ⟨type.greatest_succ, ?_, ?_, ?_⟩
  · rw [← hnil, hrun]
    by_cases hempty : digits = []
    · rw [if_pos hempty]
      exact iff_of_true rfl hempty
    · rw [if_neg hempty]
      refine iff_of_false ?_ hempty
      split <;> exact nofun
  · rintro ⟨d, hd, hdigit⟩
    have hne : digits ≠ [] := fun h => by
      have := hnil.1 h d hd
      rw [hdigit] at this
      cases this
    rw [hrun, if_neg hne, type.read_digits hne hdigits, digitsValue_eq_ofDigits hdigits]
    exact ⟨rfl, rfl⟩
  · intro message h
    rw [hrun] at h
    split at h
    · cases h
    · split at h
      · cases h
      · -- the two messages differ in their third byte
        cases h

/-- Zeros in front do not count, and the next greater number does not wrap around. -/
example :
    (integer .unsigned8 id (.ofAscii "000255x")).run = .success 255 ⟨.ofAscii "x", true⟩ ∧
      (integer .unsigned8 id (.ofAscii "000256x")).run =
        .failed (.ofAscii "integer literal out of range: 000256") := by
  exact ⟨rfl, rfl⟩

end ShiftReduce.Recognizer
