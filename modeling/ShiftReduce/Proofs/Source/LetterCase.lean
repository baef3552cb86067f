import ShiftReduce.Proofs.Source.Lines
import ShiftReduce.Proofs.Text.Chunks
import ShiftReduce.Text.Ascii

/-!
# Places and the case of letters

Upper case instead of lower case changes no place: a letter ends no line, and it is a rune by itself
in either case, wherever it stands. In the middle of a sequence both break it off, so decoding takes
the same steps through both texts (`Utf8.decode_toUpper`), and tabs stay where they are. So the
position of an offset is the same in texts that are equal up to the case of letters
(`Position.of_equalFold`).
-/

namespace ShiftReduce

open Ascii

/-! ## Bytes -/

namespace Ascii

variable {b c : UInt8}

theorem isUpper_sub (h : isLower b = true) : isUpper (b - 0x20) = true := by
  simp only [isLower, Bool.and_eq_true, decide_eq_true_eq, UInt8.le_iff_toNat_le,
    UInt8.reduceToNat] at h
  have hsub : (b - 0x20).toNat = b.toNat - 0x20 :=
    UInt8.toNat_sub_of_le _ _ (UInt8.le_iff_toNat_le.2 (by simp only [UInt8.reduceToNat]; omega))
  simp only [isUpper, Bool.and_eq_true, decide_eq_true_eq, UInt8.le_iff_toNat_le, hsub,
    UInt8.reduceToNat]
  omega

/-- Only a letter has another case, and that is a letter too. -/
theorem toUpper_eq_or (b : UInt8) :
    toUpper b = b ∨ isAlpha b = true ∧ isAlpha (toUpper b) = true := by
  cases hlower : isLower b with
  | false => exact .inl (if_neg (by simp [hlower]))
  | true =>
    have htoUpper : toUpper b = b - 0x20 := if_pos hlower
    refine .inr ⟨by rw [isAlpha, hlower, Bool.or_true], ?_⟩
    rw [htoUpper, isAlpha, isUpper_sub hlower, Bool.true_or]

@[simp] theorem isAlpha_toUpper (b : UInt8) : isAlpha (toUpper b) = isAlpha b := by
  rcases toUpper_eq_or b with hsame | ⟨hletter, hupper⟩
  · rw [hsame]
  · rw [hletter, hupper]

theorem toUpper_of_not_alpha (h : isAlpha b = false) : toUpper b = b :=
  (toUpper_eq_or b).resolve_right fun hletter => nomatch h.symm.trans hletter.1

theorem toUpper_eq_iff (h : isAlpha c = false) : toUpper b = c ↔ b = c := by
  constructor
  · rintro rfl
    rw [isAlpha_toUpper] at h
    exact (toUpper_of_not_alpha h).symm
  · rintro rfl
    exact toUpper_of_not_alpha h

theorem lt_of_isAlpha (h : isAlpha b = true) : b.toNat < 0x80 := by
  simp only [isAlpha, isUpper, isLower, Bool.or_eq_true, Bool.and_eq_true, decide_eq_true_eq,
    UInt8.le_iff_toNat_le, UInt8.reduceToNat] at h
  omega

theorem toUpper_of_le (h : 0x80 ≤ b.toNat) : toUpper b = b :=
  (toUpper_eq_or b).resolve_right fun hletter =>
    absurd (lt_of_isAlpha hletter.1) (Nat.not_lt_of_le h)

theorem takeWhile_isAlpha_of_fold {run run' : Bytes} (hfold : run'.map toUpper = run.map toUpper) :
    (run'.takeWhile isAlpha).map toUpper = (run.takeWhile isAlpha).map toUpper := by
  have htakeWhile (s : Bytes) : (s.takeWhile isAlpha).map toUpper =
      (s.map toUpper).takeWhile isAlpha := by
    simp only [List.takeWhile_map, Function.comp_def, isAlpha_toUpper]
  rw [htakeWhile, htakeWhile, hfold]

end Ascii

/-! ## Runes -/

namespace Utf8

theorem byteClass_of_lt {b : UInt8} (h : b.toNat < 0x80) : byteClass b = 0 := by
  rw [byteClass_eq, classOf, if_pos h]

theorem byteClass_toUpper (b : UInt8) : byteClass (toUpper b) = byteClass b := by
  rcases toUpper_eq_or b with hsame | ⟨hletter, hupper⟩
  · rw [hsame]
  · rw [byteClass_of_lt (lt_of_isAlpha hletter), byteClass_of_lt (lt_of_isAlpha hupper)]

theorem nextState_toUpper (state b : UInt8) : nextState state (toUpper b) = nextState state b := by
  rw [nextState, byteClass_toUpper, nextState]

theorem isLead_of_lt {b : UInt8} (h : b.toNat < 0x80) : isLead b = true := by
  have htable : ∀ i : Fin 0x80, isLead (.ofNat i) = true := by decide +kernel
  rw [eq_ofNat (b := b) rfl]
  exact htable ⟨b.toNat, h⟩

theorem isLead_toUpper (b : UInt8) : isLead (toUpper b) = isLead b := by
  rcases toUpper_eq_or b with hsame | ⟨hletter, hupper⟩
  · rw [hsame]
  · rw [isLead_of_lt (lt_of_isAlpha hletter), isLead_of_lt (lt_of_isAlpha hupper)]

def Scan.mapRest (f : Bytes → Bytes) : Scan → Scan
  | .rune value rest => .rune value (f rest)
  | .malformed rest => .malformed (f rest)

/-- In the middle of a sequence a byte breaks it off, or it is above the letters and ends the
sequence or leaves fewer bytes to wait for. -/
theorem Awaits.next {state : UInt8} {n l u : Nat} (h : Awaits state (n + 1) l u) (b : UInt8) :
    nextState state b = reject ∨ 0x80 ≤ b.toNat ∧
      (nextState state b = accept ∨ ∃ m, Awaits (nextState state b) (m + 1) 0 63) := by
  rw [h.nextState_eq b]
  split
  · rename_i hrange
    refine .inr ⟨by omega, ?_⟩
    cases n with
    | zero => exact .inl rfl
    | succ m => exact .inr ⟨m, awaits_waiting (Nat.le_of_lt h.le_three)⟩
  · exact .inl rfl

theorem scanFrom_toUpper {rune : UInt32} {state : UInt8} {n l u : Nat}
    (h : Awaits state (n + 1) l u) (s : Bytes) :
    scanFrom rune state (s.map toUpper) = (scanFrom rune state s).mapRest (·.map toUpper) := by
  induction s generalizing rune state n l u with
  | nil => rfl
  | cons b s ih =>
    have hne : reject ≠ accept := by decide
    simp only [List.map_cons, scanFrom, nextState_toUpper]
    rcases h.next b with hreject | ⟨hhigh, haccept | ⟨m, hawaits⟩⟩
    · simp only [hreject, if_neg hne, if_true]
      rfl
    · simp only [toUpper_of_le hhigh, haccept, if_true]
      rfl
    · rw [toUpper_of_le hhigh]
      simp only [if_neg hawaits.ne_accept, if_neg hawaits.ne_reject]
      exact ih hawaits

theorem decode_of_lt {b : UInt8} (h : b.toNat < 0x80) (s : Bytes) :
    decode (b :: s) = (Char.ofNat b.toNat, s) := by
  have hscan : scan (b :: s) = .rune b.toNat s :=
    scan_cons_eq_rune_iff.2 ⟨_, _, _, _, .one rfl h, .done⟩
  simp only [decode, hscan]

/-- The case of letters behind the first byte does not show in what is read. -/
theorem scan_cons_toUpper (b : UInt8) (s : Bytes) :
    scan (b :: s.map toUpper) = (scan (b :: s)).mapRest (·.map toUpper) := by
  simp only [scan, scanFrom]
  by_cases haccept : nextState accept b = accept
  · simp only [if_pos haccept]
    rfl
  · by_cases hreject : nextState accept b = reject
    · simp only [if_neg haccept, if_pos hreject]
      rfl
    · obtain ⟨n, x, l, u, hannounces⟩ := exists_announces hreject
      obtain ⟨hawaits, -⟩ := hannounces.awaits
      simp only [if_neg haccept, if_neg hreject]
      cases n with
      | zero => exact absurd hawaits.eq_accept haccept
      | succ n => exact scanFrom_toUpper hawaits s

/-- Decoding takes the same step, and the rune is a tab in both cases or in none. -/
theorem decode_toUpper (s : Bytes) :
    ((decode (s.map toUpper)).1 = '\t' ↔ (decode s).1 = '\t') ∧
      (decode (s.map toUpper)).2 = (decode s).2.map toUpper := by
  cases s with
  | nil => exact ⟨Iff.rfl, rfl⟩
  | cons b s =>
    rw [List.map_cons]
    rcases toUpper_eq_or b with hsame | ⟨hletter, hupper⟩
    · have hscan := scan_cons_toUpper b s
      rw [hsame]
      simp only [decode, hscan]
      cases scan (b :: s) with
      | rune value rest => exact ⟨Iff.rfl, rfl⟩
      | malformed rest =>
        refine ⟨Iff.rfl, ?_⟩
        simp only [Scan.mapRest, List.dropWhile_map, Function.comp_def, isLead_toUpper]
    · have htab : ∀ i : Fin 0x80, isAlpha (.ofNat i) = true → Char.ofNat i ≠ '\t' := by
        decide +kernel
      have hne {c : UInt8} (hc : isAlpha c = true) : Char.ofNat c.toNat ≠ '\t' :=
        htab ⟨c.toNat, lt_of_isAlpha hc⟩ (by rwa [UInt8.ofNat_toNat])
      rw [decode_of_lt (lt_of_isAlpha hletter), decode_of_lt (lt_of_isAlpha hupper)]
      exact ⟨iff_of_false (hne hupper) (hne hletter), rfl⟩

theorem runes_eq_cons {s : Bytes} (h : s ≠ []) : runes s = (decode s).1 :: runes (decode s).2 := by
  cases s with
  | nil => exact absurd rfl h
  | cons b s =>
    rw [runes, chunks]
    rfl

end Utf8

/-! ## Lines and columns -/

theorem LineCursor.column_toUpper (tabs : TabStops) (line : Bytes) :
    column tabs (line.map toUpper) = column tabs line := by
  suffices hfold : ∀ start : UInt64,
      (Utf8.runes (line.map toUpper)).foldl (columnAfter tabs) start =
        (Utf8.runes line).foldl (columnAfter tabs) start from hfold 1
  intro start
  -- by how many bytes are left to decode
  induction hn : line.length using Nat.strongRecOn generalizing line start with
  | ind n ih =>
    by_cases hne : line = []
    · rw [hne, List.map_nil]
    · obtain ⟨htab, hrest⟩ := Utf8.decode_toUpper line
      have hshorter := Utf8.decode_length_lt hne
      have hstep : columnAfter tabs start (Utf8.decode (line.map toUpper)).1 =
          columnAfter tabs start (Utf8.decode line).1 := by
        simp only [columnAfter, htab]
      rw [Utf8.runes_eq_cons (by simpa using hne), Utf8.runes_eq_cons hne, List.foldl_cons,
        List.foldl_cons, hstep, hrest]
      exact ih _ (hn ▸ hshorter) _ _ rfl

namespace Bytes

theorem toUpper_eq_return_iff {b : UInt8} : toUpper b = 0x0D ↔ b = 0x0D := toUpper_eq_iff rfl

theorem toUpper_eq_feed_iff {b : UInt8} : toUpper b = 0x0A ↔ b = 0x0A := toUpper_eq_iff rfl

theorem lineBreaks_toUpper (text : Bytes) : lineBreaks (text.map toUpper) = lineBreaks text := by
  induction text using List.reverseRecOn with
  | nil => rfl
  | append_singleton text b ih =>
    have hlast : (text.map toUpper).getLastD 0 = toUpper (text.getLastD 0) := by
      cases text using List.reverseRecOn with
      | nil => rfl
      | append_singleton text c => simp
    rw [List.map_append, List.map_singleton, lineBreaks_concat, lineBreaks_concat, ih, hlast]
    simp only [toUpper_eq_return_iff, toUpper_eq_feed_iff, ne_eq]

theorem lastLine_toUpper (text : Bytes) :
    lastLine (text.map toUpper) = (lastLine text).map toUpper := by
  induction text using List.reverseRecOn with
  | nil => rfl
  | append_singleton text b ih =>
    have hends : endsLine (toUpper b) = endsLine b := by
      rw [Bool.eq_iff_iff]
      simp only [endsLine, Bool.or_eq_true, beq_iff_eq, toUpper_eq_return_iff, toUpper_eq_feed_iff]
    rw [List.map_append, List.map_singleton, lastLine_concat, lastLine_concat, ih, hends]
    cases endsLine b
    · simp
    · rfl

end Bytes

theorem Position.of_toUpper (tabs : TabStops) (text : Bytes) (index : Nat) :
    Position.of tabs (text.map toUpper) index = Position.of tabs text index := by
  simp only [Position.of, List.length_map, ← List.map_take, Bytes.lineBreaks_toUpper,
    Bytes.lastLine_toUpper, LineCursor.column_toUpper]

/-- Texts that are equal up to the case of letters have the same places. -/
theorem Position.of_equalFold {text other : Bytes} (h : equalFold text other = true)
    (tabs : TabStops) (index : Nat) :
    Position.of tabs other index = Position.of tabs text index := by
  rw [← of_toUpper tabs other, ← of_toUpper tabs text, eq_of_beq h]

end ShiftReduce
