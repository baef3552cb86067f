import ShiftReduce.Text.Utf8

/-!
# Well-formed UTF-8

`WellFormed value seq` says that the bytes `seq` are the UTF-8 form of a scalar value: a lead byte
with the number of continuation bytes that it announces, each carrying its share of the bits. No
form is overlong, surrogates have none, and nothing above `U+10FFFF` has one.

A scalar value has exactly one form, the one that `String.utf8EncodeChar` writes
(`wellFormed_toNat_iff`).
-/

namespace ShiftReduce.Utf8

/-- The continuation byte that carries the six bits of `y`. -/
def continuation (y : Nat) : UInt8 := .ofNat (0x80 + y)

/-- The UTF-8 forms of one to four bytes. The bounds on the value leave out what a shorter form can
carry. -/
inductive WellFormed (value : Nat) : Bytes → Prop
  | one (hmost : value < 0x80) : WellFormed value [.ofNat value]
  | two {x y : Nat} (hx : x < 32) (hy : y < 64) (hvalue : value = x * 64 + y)
      (hleast : 0x80 ≤ value) : WellFormed value [.ofNat (0xC0 + x), continuation y]
  | three {x y z : Nat} (hx : x < 16) (hy : y < 64) (hz : z < 64)
      (hvalue : value = (x * 64 + y) * 64 + z) (hleast : 0x800 ≤ value)
      (hsurrogate : ¬(0xD800 ≤ value ∧ value ≤ 0xDFFF)) :
      WellFormed value [.ofNat (0xE0 + x), continuation y, continuation z]
  | four {x y z w : Nat} (hx : x < 8) (hy : y < 64) (hz : z < 64) (hw : w < 64)
      (hvalue : value = ((x * 64 + y) * 64 + z) * 64 + w) (hleast : 0x10000 ≤ value)
      (hmost : value ≤ 0x10FFFF) :
      WellFormed value [.ofNat (0xF0 + x), continuation y, continuation z, continuation w]

namespace WellFormed

variable {value : Nat} {seq : Bytes}

theorem isValidChar (h : WellFormed value seq) : value.isValidChar := by
  cases h with
  | one hmost => exact .inl (by omega)
  | two hx hy hvalue hleast => exact .inl (by omega)
  | three hx hy hz hvalue hleast hsurrogate =>
    by_cases hlow : value < 0xD800
    · exact .inl hlow
    · exact .inr ⟨by omega, by omega⟩
  | four hx hy hz hw hvalue hleast hmost => exact .inr ⟨by omega, by omega⟩

theorem toNat_ofNat (h : WellFormed value seq) : (Char.ofNat value).toNat = value := by
  rw [Char.ofNat, dif_pos h.isValidChar]
  rfl

theorem ne_nil (h : WellFormed value seq) : seq ≠ [] := by
  cases h <;> exact List.cons_ne_nil _ _

/-- A form is the one that the character of its value is written in. -/
theorem eq_encode {c : Char} (h : WellFormed c.toNat seq) : seq = String.utf8EncodeChar c := by
  have hval : c.val.toNat = c.toNat := rfl
  generalize hv : c.toNat = value at h
  unfold String.utf8EncodeChar
  simp only [hval, hv]
  cases h with
  | one hmost => rw [if_pos (by omega)]
  | @two x y hx hy hvalue hleast =>
    have h₁ : value / 64 % 0x20 = x := by omega
    have h₂ : value % 0x40 = y := by omega
    rw [if_neg (by omega), if_pos (by omega), h₁, h₂, continuation, Nat.add_comm x, Nat.add_comm y]
  | @three x y z hx hy hz hvalue hleast hsurrogate =>
    have h₁ : value / 4096 % 0x10 = x := by omega
    have h₂ : value / 64 % 0x40 = y := by omega
    have h₃ : value % 0x40 = z := by omega
    rw [if_neg (by omega), if_neg (by omega), if_pos (by omega), h₁, h₂, h₃]
    simp only [continuation, Nat.add_comm]
  | @four x y z w hx hy hz hw hvalue hleast hmost =>
    have h₁ : value / 262144 % 0x08 = x := by omega
    have h₂ : value / 4096 % 0x40 = y := by omega
    have h₃ : value / 64 % 0x40 = z := by omega
    have h₄ : value % 0x40 = w := by omega
    rw [if_neg (by omega), if_neg (by omega), if_neg (by omega), h₁, h₂, h₃, h₄]
    simp only [continuation, Nat.add_comm]

end WellFormed

/-- Every character is written in a well-formed way. -/
theorem wellFormed_encode (c : Char) : WellFormed c.toNat (String.utf8EncodeChar c) := by
  have hval : c.val.toNat = c.toNat := rfl
  have hvalid : c.toNat < 0xD800 ∨ 0xDFFF < c.toNat ∧ c.toNat < 0x110000 := c.valid
  unfold String.utf8EncodeChar
  simp only [hval]
  generalize c.toNat = value at hvalid
  split
  · exact .one (by omega)
  · split
    · rw [Nat.add_comm _ 0xC0, Nat.add_comm _ 0x80]
      exact .two (by omega) (by omega) (by omega) (by omega)
    · split
      · simp only [Nat.add_comm _ 0xE0, Nat.add_comm _ 0x80]
        exact .three (by omega) (by omega) (by omega) (by omega) (by omega) (by omega)
      · simp only [Nat.add_comm _ 0xF0, Nat.add_comm _ 0x80]
        exact .four (by omega) (by omega) (by omega) (by omega) (by omega) (by omega) (by omega)

/-- The form of a scalar value is unique. -/
theorem wellFormed_toNat_iff {c : Char} {seq : Bytes} :
    WellFormed c.toNat seq ↔ seq = String.utf8EncodeChar c :=
  ⟨WellFormed.eq_encode, fun h => h ▸ wellFormed_encode c⟩

end ShiftReduce.Utf8
