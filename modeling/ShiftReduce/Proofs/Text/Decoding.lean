import ShiftReduce.Proofs.Text.Automaton

/-!
# Decoding well-formed text

What `scan` reads as a sequence is well-formed (`wellFormed_of_scan`), and if the bytes begin with a
well-formed sequence, it reads that one (`scan_append_of_wellFormed`). So decoding undoes encoding,
whatever follows (`decode_undoes_encoding`).
-/

namespace ShiftReduce.Utf8

/-! ## Reading a sequence -/

theorem wellFormed_of_scan {s rest : Bytes} {value : Nat} (h : scan s = .rune value rest) :
    ∃ seq, WellFormed value seq ∧ s = seq ++ rest := by
  cases s with
  | nil => cases h
  | cons b s =>
    obtain ⟨n, x, l, u, hlead, hs⟩ := scan_cons_eq_rune_iff.1 h
    cases hlead with
    | one hb hx =>
      obtain ⟨rfl, rfl⟩ := continues_zero_iff.1 hs
      exact ⟨[b], eq_ofNat hb ▸ .one hx, rfl⟩
    | two hb hleast hx =>
      obtain ⟨y, s₁, hy, rfl, h₁⟩ := hs.exists_more
      obtain ⟨hvalue, rfl⟩ := continues_zero_iff.1 h₁
      exact ⟨[b, continuation y], eq_ofNat hb ▸ .two hx (by omega) hvalue.symm (by omega), rfl⟩
    | three hb hx hl hu =>
      obtain ⟨y, s₁, hy, rfl, h₁⟩ := hs.exists_more
      obtain ⟨z, s₂, hz, rfl, h₂⟩ := h₁.exists_more
      obtain ⟨hvalue, rfl⟩ := continues_zero_iff.1 h₂
      have hform : WellFormed value [.ofNat (0xE0 + x), continuation y, continuation z] :=
        .three hx (by omega) (by omega) hvalue.symm (by omega) (by omega)
      exact ⟨_, eq_ofNat hb ▸ hform, rfl⟩
    | four hb hx hl hu =>
      obtain ⟨y, s₁, hy, rfl, h₁⟩ := hs.exists_more
      obtain ⟨z, s₂, hz, rfl, h₂⟩ := h₁.exists_more
      obtain ⟨w, s₃, hw, rfl, h₃⟩ := h₂.exists_more
      obtain ⟨hvalue, rfl⟩ := continues_zero_iff.1 h₃
      have hform : WellFormed value
          [.ofNat (0xF0 + x), continuation y, continuation z, continuation w] :=
        .four (by omega) (by omega) (by omega) (by omega) hvalue.symm (by omega) (by omega)
      exact ⟨_, eq_ofNat hb ▸ hform, rfl⟩

theorem scan_append_of_wellFormed {seq : Bytes} {value : Nat} (h : WellFormed value seq)
    (rest : Bytes) : scan (seq ++ rest) = .rune value rest := by
  have hof (k : Nat) (hk : k < 256) : (UInt8.ofNat k).toNat = k := UInt8.toNat_ofNat_of_lt hk
  cases h with
  | one hmost =>
    exact scan_cons_eq_rune_iff.2 ⟨_, _, _, _, .one (hof _ (by omega)) hmost, .done⟩
  | @two x y hx hy hvalue hleast =>
    subst hvalue
    have hlead : Announces (.ofNat (0xC0 + x)) 1 x 0 63 :=
      .two (hof _ (by omega)) (by omega) hx
    refine scan_cons_eq_rune_iff.2 ⟨_, _, _, _, hlead, ?_⟩
    exact .more (by omega) (by omega) .done
  | @three x y z hx hy hz hvalue hleast hsurrogate =>
    subst hvalue
    obtain ⟨l, hl⟩ := exists_bound (x = 0) 32 0
    obtain ⟨u, hu⟩ := exists_bound (x = 13) 31 63
    have hlead : Announces (.ofNat (0xE0 + x)) 2 x l u := .three (hof _ (by omega)) hx hl hu
    refine scan_cons_eq_rune_iff.2 ⟨_, _, _, _, hlead, ?_⟩
    refine .more (by omega) (by omega) ?_
    exact .more (by omega) (by omega) .done
  | @four x y z w hx hy hz hw hvalue hleast hmost =>
    subst hvalue
    obtain ⟨l, hl⟩ := exists_bound (x = 0) 16 0
    obtain ⟨u, hu⟩ := exists_bound (x = 4) 15 63
    have hlead : Announces (.ofNat (0xF0 + x)) 3 x l u :=
      .four (hof _ (by omega)) (by omega) hl hu
    refine scan_cons_eq_rune_iff.2 ⟨_, _, _, _, hlead, ?_⟩
    refine .more (by omega) (by omega) ?_
    refine .more (by omega) (by omega) ?_
    exact .more (by omega) (by omega) .done

/-! ## Decoding -/

theorem decode_of_scan {s rest : Bytes} {c : Char} (h : scan s = .rune c.toNat rest) :
    decode s = (c, rest) := by
  rw [decode, h]
  exact congrArg (·, rest) (Char.ofNat_toNat c)

theorem decode_fst_of_not_wellFormed {s : Bytes}
    (h : ∀ value seq, WellFormed value seq → ¬ seq <+: s) : (decode s).1 = replacement := by
  rw [decode]
  cases hscan : scan s with
  | malformed rest => rfl
  | rune value rest =>
    obtain ⟨seq, hseq, rfl⟩ := wellFormed_of_scan hscan
    exact absurd (List.prefix_append seq rest) (h value seq hseq)

theorem decode_encode_append (c : Char) (rest : Bytes) :
    decode (String.utf8EncodeChar c ++ rest) = (c, rest) :=
  decode_of_scan (scan_append_of_wellFormed (wellFormed_encode c) rest)

theorem chunks_of_decode {s rest : Bytes} {c : Char} (hne : s ≠ []) (h : decode s = (c, rest)) :
    chunks s = (c, s.take (s.length - rest.length)) :: chunks rest := by
  cases s with
  | nil => exact absurd rfl hne
  | cons b s => rw [chunks, h]

/-- The form of a character is a chunk of its own. -/
theorem chunks_encode_append (c : Char) (rest : Bytes) :
    chunks (String.utf8EncodeChar c ++ rest) = (c, String.utf8EncodeChar c) :: chunks rest := by
  have hne : String.utf8EncodeChar c ++ rest ≠ [] :=
    List.append_ne_nil_of_left_ne_nil (wellFormed_encode c).ne_nil rest
  rw [chunks_of_decode hne (decode_encode_append c rest), List.length_append, Nat.add_sub_cancel,
    List.take_left']
  rfl

theorem runes_encode (cs : List Char) : runes (cs.flatMap String.utf8EncodeChar) = cs := by
  induction cs with
  | nil => rw [List.flatMap_nil, runes, chunks, List.map_nil]
  | cons c cs ih =>
    rw [runes] at ih ⊢
    rw [List.flatMap_cons, chunks_encode_append, List.map_cons, ih]

/-- Decoding reads exactly the well-formed sequences. Of one that a byte string begins with it gives
the scalar value, and it leaves what follows, whatever that is; without one it gives the replacement
rune. What it has read as a sequence is the one form of its rune. So a text of encoded characters is
decoded to these characters. -/
theorem decode_undoes_encoding :
    (∀ value seq rest, WellFormed value seq →
      ∃ c : Char, c.toNat = value ∧ decode (seq ++ rest) = (c, rest)) ∧
    (∀ s, (∀ value seq, WellFormed value seq → ¬ seq <+: s) → (decode s).1 = replacement) ∧
    (∀ s value rest, scan s = .rune value rest → ∃ c : Char, c.toNat = value ∧
      decode s = (c, rest) ∧ s = String.utf8EncodeChar c ++ rest ∧
      ∀ seq, WellFormed c.toNat seq ↔ seq = String.utf8EncodeChar c) ∧
    ∀ cs : List Char, runes (cs.flatMap String.utf8EncodeChar) = cs ∧
      count (cs.flatMap String.utf8EncodeChar) = cs.length := by
  refine ⟨?_, fun s => decode_fst_of_not_wellFormed, ?_, ?_⟩
  · intro value seq rest hseq
    have hscan : scan (seq ++ rest) = .rune (Char.ofNat value).toNat rest := by
      rw [hseq.toNat_ofNat]
      exact scan_append_of_wellFormed hseq rest
    exact ⟨Char.ofNat value, hseq.toNat_ofNat, decode_of_scan hscan⟩
  · intro s value rest hscan
    obtain ⟨seq, hseq, hs⟩ := wellFormed_of_scan hscan
    have hvalue := hseq.toNat_ofNat
    rw [← hvalue] at hscan hseq
    refine ⟨Char.ofNat value, hvalue, decode_of_scan hscan, ?_, fun _ => wellFormed_toNat_iff⟩
    rw [hs, hseq.eq_encode]
  · intro cs
    exact ⟨runes_encode cs, by rw [count, runes_encode]⟩

end ShiftReduce.Utf8
