import Mathlib.Algebra.Group.Nat.Defs
import ShiftReduce.Proofs.Text.WellFormed

/-!
# The decoding automaton

What the states of the automaton mean: `Awaits` gives the number of continuation bytes that a state
waits for, and the range of the first of them. `Announces` sorts the lead bytes in the same way, with
the bits that they carry; the range is what keeps out overlong forms, surrogates and values that are
too large. The two tables are read here and nowhere else, in finite checks: where each class lies
(`byteClass_eq`), what each state does with each class (`Awaits.nextState_eq`), and what follows on
each kind of lead byte (`Announces.awaits`).

A run of the automaton accepts exactly what its state waits for (`scanFrom_cons_eq_rune_iff`).
-/

namespace ShiftReduce.Utf8

/-! ## Classes -/

/-- The class of a byte by where it lies. -/
def classOf (b : Nat) : UInt8 :=
  if b < 0x80 then 0
  else if b < 0x90 then 1
  else if b < 0xA0 then 9
  else if b < 0xC0 then 7
  else if b < 0xC2 then 8
  else if b < 0xE0 then 2
  else if b = 0xE0 then 10
  else if b = 0xED then 4
  else if b < 0xF0 then 3
  else if b = 0xF0 then 11
  else if b < 0xF4 then 6
  else if b = 0xF4 then 5
  else 8

theorem get_of_toList_eq {n : Nat} {table : Vector UInt8 n} {f : Nat → UInt8}
    (h : table.toList = (List.range n).map f) (i : Fin n) : table.get i = f i := by
  have hget : table.get i = table[i.val] := rfl
  rw [hget, ← Vector.getElem_toList]
  · simp only [h, List.getElem_map, List.getElem_range]
  · simp

theorem byteClass_eq (b : UInt8) : byteClass b = classOf b.toNat :=
  get_of_toList_eq (by decide +kernel) b.toFin

/-- Three classes divide the continuation bytes among them. -/
theorem toNat_byteClass (b : UInt8) : (byteClass b).toNat < 12 ∧
    ((byteClass b).toNat = 1 ↔ 0x80 ≤ b.toNat ∧ b.toNat < 0x90) ∧
    ((byteClass b).toNat = 9 ↔ 0x90 ≤ b.toNat ∧ b.toNat < 0xA0) ∧
    ((byteClass b).toNat = 7 ↔ 0xA0 ≤ b.toNat ∧ b.toNat < 0xC0) := by
  have htable : ∀ i : Fin 256, (classOf i).toNat < 12 ∧
      ((classOf i).toNat = 1 ↔ 0x80 ≤ i.val ∧ i.val < 0x90) ∧
      ((classOf i).toNat = 9 ↔ 0x90 ≤ i.val ∧ i.val < 0xA0) ∧
      ((classOf i).toNat = 7 ↔ 0xA0 ≤ i.val ∧ i.val < 0xC0) := by decide +kernel
  rw [byteClass_eq]
  exact htable b.toFin

/-! ## Continuation bytes -/

/-- The state waits for `n` continuation bytes, and the first of them has to carry bits from `l` to
`u`. -/
inductive Awaits : (state : UInt8) → (n l u : Nat) → Prop
  | nothing : Awaits accept 0 0 63
  | one : Awaits 24 1 0 63
  | two : Awaits 36 2 0 63
  | twoHigh : Awaits 48 2 32 63
  | twoLow : Awaits 60 2 0 31
  | threeHigh : Awaits 72 3 16 63
  | three : Awaits 84 3 0 63
  | threeLow : Awaits 96 3 0 15

/-- The state that waits for `n` continuation bytes, none of them restricted. -/
def waiting : Nat → UInt8
  | 0 => accept
  | 1 => 24
  | 2 => 36
  | _ => 84

theorem awaits_waiting {n : Nat} (h : n ≤ 3) : Awaits (waiting n) n 0 63 := by
  match n, h with
  | 0, _ => exact .nothing
  | 1, _ => exact .one
  | 2, _ => exact .two
  | 3, _ => exact .three

theorem toNat_continuation {y : Nat} (hy : y < 64) : (continuation y).toNat = 0x80 + y := by
  rw [continuation, UInt8.toNat_ofNat']
  omega

namespace Awaits

variable {state : UInt8} {n l u : Nat}

theorem le_three (h : Awaits state n l u) : n ≤ 3 := by
  cases h <;> decide

theorem upper_lt (h : Awaits state n l u) : u < 64 := by
  cases h <;> decide

theorem eq_accept (h : Awaits state 0 l u) : state = accept := by
  cases h
  rfl

theorem ne_accept (h : Awaits state (n + 1) l u) : state ≠ accept := by
  cases h <;> decide

theorem ne_reject (h : Awaits state n l u) : state ≠ reject := by
  cases h <;> decide

/-- A continuation byte in the range brings the automaton on, any other byte is rejected. -/
theorem nextState_eq (h : Awaits state (n + 1) l u) (b : UInt8) :
    nextState state b = if 0x80 + l ≤ b.toNat ∧ b.toNat ≤ 0x80 + u then waiting n else reject := by
  -- the classes 1, 9 and 7 hold the continuation bytes with bits 0 to 15, 16 to 31 and 32 to 63
  have hrow : ∀ c : Fin 12, transitions.getD (state.toNat + c) reject =
      if c.val = 1 ∧ l = 0 ∨ c.val = 9 ∧ l ≤ 16 ∧ 31 ≤ u ∨ c.val = 7 ∧ u = 63 then waiting n
      else reject := by
    cases h <;> decide +kernel
  obtain ⟨hlt, h₁, h₉, h₇⟩ := toNat_byteClass b
  have hnext := hrow ⟨_, hlt⟩
  have hrange : 0x80 + l ≤ b.toNat ∧ b.toNat ≤ 0x80 + u ↔
      (byteClass b).toNat = 1 ∧ l = 0 ∨ (byteClass b).toNat = 9 ∧ l ≤ 16 ∧ 31 ≤ u ∨
        (byteClass b).toNat = 7 ∧ u = 63 := by
    rw [h₁, h₉, h₇]
    cases h <;> omega
  simp only [hrange]
  exact hnext

end Awaits

/-- A continuation byte puts its six bits behind those of the rune. The bits in front must leave
room for them. -/
theorem toNat_nextRune {rune : UInt32} {state : UInt8} (hstate : state ≠ accept) (b : UInt8)
    (hbits : (rune.toNat + 1) * 64 ≤ 2 ^ 32) :
    (nextRune rune state b).toNat = rune.toNat * 64 + b.toNat % 64 := by
  have hlow : b.toNat % 2 ^ 6 < 2 ^ 6 := Nat.mod_lt _ (by decide)
  have hmask : (0x3F : UInt32).toNat = 2 ^ 6 - 1 := rfl
  have hshift : rune.toNat <<< ((6 : UInt32).toNat % 32) % 2 ^ 32 = rune.toNat <<< 6 := by
    rw [Nat.mod_eq_of_lt]
    · rfl
    · change rune.toNat <<< 6 < 2 ^ 32
      rw [Nat.shiftLeft_eq]
      omega
  change _ = rune.toNat * 2 ^ 6 + b.toNat % 2 ^ 6
  rw [nextRune, if_neg hstate, UInt32.toNat_or, UInt32.toNat_and, UInt32.toNat_shiftLeft, hshift,
    UInt8.toNat_toUInt32, hmask, Nat.and_two_pow_sub_one_eq_mod, Nat.or_comm,
    ← Nat.shiftLeft_add_eq_or_of_lt hlow, Nat.shiftLeft_eq]

/-- The bytes `s` are `n` continuation bytes and `rest`. The first of them carries bits from `l` to
`u`, and together they complete the bits `v` to `value`. -/
inductive Continues (value : Nat) (rest : Bytes) : (n l u v : Nat) → (s : Bytes) → Prop
  | done {l u : Nat} : Continues value rest 0 l u value rest
  | more {n l u v y : Nat} {s : Bytes} (hl : l ≤ y) (hu : y ≤ u)
      (h : Continues value rest n 0 63 (v * 64 + y) s) :
      Continues value rest (n + 1) l u v (continuation y :: s)

theorem continues_zero_iff {value l u v : Nat} {rest s : Bytes} :
    Continues value rest 0 l u v s ↔ v = value ∧ s = rest := by
  constructor
  · rintro ⟨⟩
    exact ⟨rfl, rfl⟩
  · rintro ⟨rfl, rfl⟩
    exact .done

theorem Continues.exists_more {value n l u v : Nat} {rest s : Bytes}
    (h : Continues value rest (n + 1) l u v s) :
    ∃ y tail, (l ≤ y ∧ y ≤ u) ∧ s = continuation y :: tail ∧
      Continues value rest n 0 63 (v * 64 + y) tail := by
  cases h with
  | more hl hu h => exact ⟨_, _, ⟨hl, hu⟩, rfl, h⟩

theorem continues_cons_iff {value n l u v : Nat} {rest s : Bytes} {b : UInt8} (hu : u < 64) :
    Continues value rest (n + 1) l u v (b :: s) ↔
      (0x80 + l ≤ b.toNat ∧ b.toNat ≤ 0x80 + u) ∧
        Continues value rest n 0 63 (v * 64 + b.toNat % 64) s := by
  constructor
  · intro h
    cases h with
    | @more _ _ _ _ y _ hl hy h =>
      have hlow : (0x80 + y) % 64 = y := by omega
      rw [toNat_continuation (by omega), hlow]
      exact ⟨by omega, h⟩
  · rintro ⟨hrange, h⟩
    have hb : b = continuation (b.toNat % 64) := by
      rw [← UInt8.toNat_inj, toNat_continuation (by omega)]
      omega
    rw [hb]
    exact .more (by omega) (by omega) h

/-- Behind a byte the automaton accepts what the state after that byte waits for, if the bits so far
leave room for those still to come. -/
theorem scanFrom_cons_eq_rune_iff {rune : UInt32} {state b : UInt8} {n l u value : Nat}
    {s rest : Bytes} (h : Awaits (nextState state b) n l u)
    (hbits : ((nextRune rune state b).toNat + 1) * 64 ^ n ≤ 2 ^ 32) :
    scanFrom rune state (b :: s) = .rune value rest ↔
      Continues value rest n l u (nextRune rune state b).toNat s := by
  induction n generalizing rune state b l u s with
  | zero =>
    rw [scanFrom, if_pos h.eq_accept, Scan.rune.injEq, continues_zero_iff]
  | succ n ih =>
    rw [scanFrom, if_neg h.ne_accept, if_neg h.ne_reject]
    cases s with
    | nil => constructor <;> rintro ⟨⟩
    | cons c s =>
      rw [continues_cons_iff h.upper_lt]
      have hnext := h.nextState_eq c
      by_cases hrange : 0x80 + l ≤ c.toNat ∧ c.toNat ≤ 0x80 + u
      · rw [if_pos hrange] at hnext
        have hle := h.le_three
        have hawaits : Awaits (nextState (nextState state b) c) n 0 63 :=
          hnext ▸ awaits_waiting (by omega)
        have hpow : ((nextRune rune state b).toNat + 1) * 64 * 64 ^ n ≤ 2 ^ 32 := by
          rwa [Nat.mul_assoc, ← Nat.pow_succ']
        have hroom : ((nextRune rune state b).toNat + 1) * 64 ≤ 2 ^ 32 :=
          Nat.le_trans (Nat.le_mul_of_pos_right _ (Nat.pow_pos (by decide))) hpow
        have hvalue := toNat_nextRune h.ne_accept c hroom
        rw [ih hawaits ?_, hvalue]
        · exact ⟨fun hs => ⟨hrange, hs⟩, And.right⟩
        · rw [hvalue]
          exact Nat.le_trans (Nat.mul_le_mul_right _ (by omega)) hpow
      · rw [if_neg hrange] at hnext
        rw [scanFrom, if_neg (by rw [hnext]; decide), if_pos hnext]
        refine ⟨?_, fun hs => absurd hs.1 hrange⟩
        rintro ⟨⟩

/-! ## Lead bytes -/

/-- The byte announces `n` continuation bytes and carries the bits `x`; the first continuation byte
has to carry bits from `l` to `u`. -/
inductive Announces (b : UInt8) : (n x l u : Nat) → Prop
  | one {x : Nat} (hb : b.toNat = x) (hx : x < 0x80) : Announces b 0 x 0 63
  | two {x : Nat} (hb : b.toNat = 0xC0 + x) (hleast : 2 ≤ x) (hx : x < 32) : Announces b 1 x 0 63
  | three {x l u : Nat} (hb : b.toNat = 0xE0 + x) (hx : x < 16)
      (hl : x = 0 ∧ l = 32 ∨ x ≠ 0 ∧ l = 0) (hu : x = 13 ∧ u = 31 ∨ x ≠ 13 ∧ u = 63) :
      Announces b 2 x l u
  | four {x l u : Nat} (hb : b.toNat = 0xF0 + x) (hx : x < 5)
      (hl : x = 0 ∧ l = 16 ∨ x ≠ 0 ∧ l = 0) (hu : x = 4 ∧ u = 15 ∨ x ≠ 4 ∧ u = 63) :
      Announces b 3 x l u

/-- The two values that a bound can have, as `Announces` puts it. -/
theorem exists_bound (p : Prop) (i j : Nat) : ∃ k, p ∧ k = i ∨ ¬p ∧ k = j := by
  by_cases hp : p
  · exact ⟨i, .inl ⟨hp, rfl⟩⟩
  · exact ⟨j, .inr ⟨hp, rfl⟩⟩

theorem eq_ofNat {b : UInt8} {k : Nat} (h : b.toNat = k) : b = .ofNat k := by
  rw [← h, UInt8.ofNat_toNat]

/-- A lead byte leaves the automaton waiting for what it announces, with the bits that it carries. -/
theorem Announces.awaits {b : UInt8} {n x l u : Nat} (h : Announces b n x l u) :
    Awaits (nextState accept b) n l u ∧ (nextRune 0 accept b).toNat = x := by
  cases h with
  | one hb hx =>
    have htable : ∀ i : Fin 0x80, nextState accept (.ofNat i) = accept ∧
        (nextRune 0 accept (.ofNat i)).toNat = i := by decide +kernel
    obtain ⟨hstate, hrune⟩ := htable ⟨x, hx⟩
    rw [eq_ofNat hb, hstate]
    exact ⟨.nothing, hrune⟩
  | two hb hleast hx =>
    have htable : ∀ i : Fin 32, 2 ≤ i.val → nextState accept (.ofNat (0xC0 + i)) = 24 ∧
        (nextRune 0 accept (.ofNat (0xC0 + i))).toNat = i := by decide +kernel
    obtain ⟨hstate, hrune⟩ := htable ⟨x, hx⟩ hleast
    rw [eq_ofNat hb, hstate]
    exact ⟨.one, hrune⟩
  | three hb hx hl hu =>
    have htable : ∀ i : Fin 16, nextState accept (.ofNat (0xE0 + i)) =
        (if i.val = 0 then 48 else if i.val = 13 then 60 else 36) ∧
        (nextRune 0 accept (.ofNat (0xE0 + i))).toNat = i := by decide +kernel
    obtain ⟨hstate, hrune⟩ := htable ⟨x, hx⟩
    rw [eq_ofNat hb, hstate]
    refine ⟨?_, hrune⟩
    rcases hl with ⟨rfl, rfl⟩ | ⟨h₀, rfl⟩
    · obtain rfl : u = 63 := by omega
      exact .twoHigh
    · rw [if_neg h₀]
      rcases hu with ⟨rfl, rfl⟩ | ⟨h₁₃, rfl⟩
      · exact .twoLow
      · rw [if_neg h₁₃]
        exact .two
  | four hb hx hl hu =>
    have htable : ∀ i : Fin 5, nextState accept (.ofNat (0xF0 + i)) =
        (if i.val = 0 then 72 else if i.val = 4 then 96 else 84) ∧
        (nextRune 0 accept (.ofNat (0xF0 + i))).toNat = i := by decide +kernel
    obtain ⟨hstate, hrune⟩ := htable ⟨x, hx⟩
    rw [eq_ofNat hb, hstate]
    refine ⟨?_, hrune⟩
    rcases hl with ⟨rfl, rfl⟩ | ⟨h₀, rfl⟩
    · obtain rfl : u = 63 := by omega
      exact .threeHigh
    · rw [if_neg h₀]
      rcases hu with ⟨rfl, rfl⟩ | ⟨h₄, rfl⟩
      · exact .threeLow
      · rw [if_neg h₄]
        exact .three

/-- A byte that the automaton takes for a lead byte is one. -/
theorem exists_announces {b : UInt8} (h : nextState accept b ≠ reject) :
    ∃ n x l u, Announces b n x l u := by
  have htable : ∀ i : Fin 256, transitions.getD (accept.toNat + (classOf i).toNat) reject ≠ reject →
      i.val < 0x80 ∨ 0xC2 ≤ i.val ∧ i.val < 0xF5 := by decide +kernel
  rw [nextState, byteClass_eq] at h
  have hbyte : b.toNat < 0x80 ∨ 0xC2 ≤ b.toNat ∧ b.toNat < 0xF5 := htable b.toFin h
  rcases hbyte with hone | ⟨hleast, hmost⟩
  · exact ⟨_, _, _, _, .one rfl hone⟩
  · by_cases htwo : b.toNat < 0xE0
    · exact ⟨1, b.toNat - 0xC0, _, _, .two (by omega) (by omega) (by omega)⟩
    · by_cases hthree : b.toNat < 0xF0
      · obtain ⟨l, hl⟩ := exists_bound (b.toNat - 0xE0 = 0) 32 0
        obtain ⟨u, hu⟩ := exists_bound (b.toNat - 0xE0 = 13) 31 63
        exact ⟨2, b.toNat - 0xE0, l, u, .three (by omega) (by omega) hl hu⟩
      · obtain ⟨l, hl⟩ := exists_bound (b.toNat - 0xF0 = 0) 16 0
        obtain ⟨u, hu⟩ := exists_bound (b.toNat - 0xF0 = 4) 15 63
        exact ⟨3, b.toNat - 0xF0, l, u, .four (by omega) (by omega) hl hu⟩

/-- A sequence is read exactly if a lead byte is followed by what it announces. -/
theorem scan_cons_eq_rune_iff {b : UInt8} {s rest : Bytes} {value : Nat} :
    scan (b :: s) = .rune value rest ↔
      ∃ n x l u, Announces b n x l u ∧ Continues value rest n l u x s := by
  have hscan {n x l u : Nat} (h : Announces b n x l u) :
      scan (b :: s) = .rune value rest ↔ Continues value rest n l u x s := by
    obtain ⟨hawaits, hrune⟩ := h.awaits
    rw [scan, scanFrom_cons_eq_rune_iff hawaits ?_, hrune]
    rw [hrune]
    cases h <;> omega
  constructor
  · intro h
    by_cases hreject : nextState accept b = reject
    · rw [scan, scanFrom, if_neg (by rw [hreject]; decide), if_pos hreject] at h
      cases h
    · obtain ⟨n, x, l, u, hannounces⟩ := exists_announces hreject
      exact ⟨n, x, l, u, hannounces, (hscan hannounces).1 h⟩
  · rintro ⟨n, x, l, u, hannounces, h⟩
    exact (hscan hannounces).2 h

end ShiftReduce.Utf8
