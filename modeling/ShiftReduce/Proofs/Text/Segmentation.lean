import ShiftReduce.Proofs.Text.Chunks

/-!
# Segmentation

`Segmented` is decoding again and again until nothing is left: every step takes some bytes off and
reports a rune for them. It comes to an end on every byte string, and the segments are the chunks
(`segmented_iff`).

A step reports the form of a rune, or it reports the replacement and stops at a lead byte
(`encoded_or_replaced`). The steps before an offset are the same if the text ends there
(`Segmented.chunks_take`), and well-formed sequences are segments of their own wherever they stand
in front (`count_flatten_append`).
-/

namespace ShiftReduce.Utf8

/-- The runes that are decoded one after the other up to the end of the text, each with the bytes
that were taken off for it. -/
inductive Segmented : (s : Bytes) → (segments : List (Char × Bytes)) → Prop
  | done : Segmented [] []
  | step {bytes rest : Bytes} {rune : Char} {later : List (Char × Bytes)} (hne : bytes ≠ [])
      (hdecode : decode (bytes ++ rest) = (rune, rest)) (hlater : Segmented rest later) :
      Segmented (bytes ++ rest) ((rune, bytes) :: later)

/-! ## Steps -/

theorem encoded_or_replaced {bytes rest : Bytes} {rune : Char}
    (h : decode (bytes ++ rest) = (rune, rest)) : bytes = String.utf8EncodeChar rune ∨
      rune = replacement ∧ ∀ b ∈ rest.head?, isLead b = true := by
  have hs := decoded (bytes ++ rest)
  rw [h] at hs
  generalize hbytes : bytes ++ rest = s at hs
  cases hs with
  | encoded => exact .inl (List.append_cancel_right hbytes)
  | unfinished => exact .inr ⟨rfl, nofun⟩
  | broken _ _ _ hrest => exact .inr ⟨rfl, hrest⟩

theorem take_headSize_append (s : Bytes) : s.take (headSize s) ++ (decode s).2 = s := by
  obtain ⟨head, rune, rest, rfl, hdecode, -⟩ := exists_head s
  rw [headSize_append hdecode, hdecode, List.take_left]

/-! ## Segments -/

/-- Decoding comes to an end on every byte string. -/
theorem segmented_chunks (s : Bytes) : Segmented s (chunks s) := by
  fun_induction chunks s with
  | case1 => exact .done
  | case2 b s rest ih =>
    have hsplit := take_headSize_append (b :: s)
    have hne : (b :: s).take (headSize (b :: s)) ≠ [] := by
      rw [ne_eq, List.take_eq_nil_iff, not_or]
      exact ⟨Nat.ne_of_gt (headSize_pos (List.cons_ne_nil b s)), List.cons_ne_nil b s⟩
    have hstep := Segmented.step hne (by rw [hsplit]) ih
    rwa [hsplit] at hstep

namespace Segmented

variable {s : Bytes} {segments before after : List (Char × Bytes)}

theorem eq_chunks (h : Segmented s segments) : segments = chunks s := by
  induction h with
  | done => rw [chunks]
  | step hne hdecode hlater ih =>
    rw [chunks_of_decode (List.append_ne_nil_of_left_ne_nil hne _) hdecode, ← ih,
      List.length_append, Nat.add_sub_cancel, List.take_left]

theorem flatMap_snd (h : Segmented s segments) : segments.flatMap Prod.snd = s := by
  induction h with
  | done => rfl
  | step hne hdecode hlater ih => rw [List.flatMap_cons, ih]

/-- The first step, read off the first segment. -/
theorem exists_step {rune : Char} {bytes : Bytes} (h : Segmented s ((rune, bytes) :: after)) :
    bytes ≠ [] ∧ ∃ rest, s = bytes ++ rest ∧ decode (bytes ++ rest) = (rune, rest) ∧
      Segmented rest after := by
  cases h with
  | step hne hdecode hlater => exact ⟨hne, _, rfl, hdecode, hlater⟩

/-- What is left of the text behind some of the segments has the others. -/
theorem drop (h : Segmented s (before ++ after)) :
    Segmented (s.drop (before.flatMap Prod.snd).length) after := by
  induction before generalizing s with
  | nil => exact h
  | cons segment before ih =>
    obtain ⟨-, rest, rfl, -, hlater⟩ := h.exists_step
    rw [List.flatMap_cons, List.length_append, ← List.drop_drop, List.drop_left]
    exact ih hlater

/-- A text that is cut behind some of its segments begins with them. -/
theorem chunks_take (h : Segmented s (before ++ after)) {k : Nat}
    (hk : (before.flatMap Prod.snd).length ≤ k) : chunks (s.take k) =
      before ++ chunks ((s.take k).drop (before.flatMap Prod.snd).length) := by
  obtain ⟨front, -, hfront⟩ := (boundary_of_chunks h.eq_chunks.symm).exists_chunks
  have hle : (before.flatMap Prod.snd).length ≤ s.length := by
    rw [← h.flatMap_snd, List.flatMap_append, List.length_append]
    exact Nat.le_add_right _ _
  have hwhole := hfront s.length hle
  rw [List.take_length, ← h.eq_chunks, ← h.drop.eq_chunks] at hwhole
  rw [hfront k hk, List.append_cancel_right hwhole]

/-- A text that is cut inside a segment has the segments before it, and one replacement for what
is left of it. -/
theorem chunks_take_inside {rune : Char} {bytes : Bytes}
    (h : Segmented s (before ++ (rune, bytes) :: after)) {k : Nat}
    (hpos : (before.flatMap Prod.snd).length < k)
    (hlt : k < (before.flatMap Prod.snd).length + bytes.length) : chunks (s.take k) =
      before ++ [(replacement, (s.take k).drop (before.flatMap Prod.snd).length)] := by
  rw [h.chunks_take (Nat.le_of_lt hpos), List.drop_take]
  obtain ⟨-, rest, hrest, hdecode, -⟩ := h.drop.exists_step
  have hsize := headSize_append hdecode
  rw [hrest, chunks_take_of_lt (by omega) (by omega)]

theorem isLead_of_malformed {rune : Char} {bytes : Bytes}
    (h : Segmented s ((rune, bytes) :: after)) (hbytes : bytes ≠ String.utf8EncodeChar rune) :
    ∀ next ∈ after.head?, ∃ b ∈ next.2.head?, isLead b = true := by
  obtain ⟨-, rest, -, hdecode, hlater⟩ := h.exists_step
  obtain ⟨-, hlead⟩ := (encoded_or_replaced hdecode).resolve_left hbytes
  cases hlater with
  | done => nofun
  | @step head _ _ _ hne =>
    rintro next ⟨rfl⟩
    obtain ⟨b, tail, rfl⟩ := List.exists_cons_of_ne_nil hne
    exact ⟨b, rfl, hlead b rfl⟩

end Segmented

theorem segmented_iff {s : Bytes} {segments : List (Char × Bytes)} :
    Segmented s segments ↔ segments = chunks s :=
  ⟨Segmented.eq_chunks, fun h => h ▸ segmented_chunks s⟩

/-! ## Counting -/

theorem count_eq_length (s : Bytes) : count s = (chunks s).length := by
  rw [count, runes, List.length_map]

/-- Each well-formed sequence in front of a text counts as one rune. -/
theorem count_flatten_append {seqs : List Bytes}
    (h : ∀ seq ∈ seqs, ∃ value, WellFormed value seq) (s : Bytes) :
    count (seqs.flatten ++ s) = seqs.length + count s := by
  induction seqs with
  | nil => rw [List.flatten_nil, List.nil_append, List.length_nil, Nat.zero_add]
  | cons seq seqs ih =>
    obtain ⟨⟨value, hseq⟩, hseqs⟩ := List.forall_mem_cons.1 h
    rw [← hseq.toNat_ofNat] at hseq
    rw [count_eq_length] at ih ⊢
    rw [List.flatten_cons, List.append_assoc, hseq.eq_encode, chunks_encode_append,
      List.length_cons, ih hseqs, List.length_cons, Nat.add_right_comm]

/-- Decoding cuts every byte string up into chunks that are not empty and cover it. A chunk is the
form of its rune, or its rune is the replacement and the next chunk begins with a lead byte. Of a
text that is cut inside a chunk, the chunks before it stay, and what is left of it is one
replacement. There are not more runes than bytes, and behind a well-formed text every text has as
many runes as alone. -/
theorem decoding_segments (s : Bytes) :
    (∀ segments, Segmented s segments ↔ segments = chunks s) ∧
    (chunks s).flatMap Prod.snd = s ∧
    (∀ before rune bytes after, chunks s = before ++ (rune, bytes) :: after →
      bytes ≠ [] ∧ (bytes = String.utf8EncodeChar rune ∨ rune = replacement) ∧
      (bytes ≠ String.utf8EncodeChar rune →
        ∀ next ∈ after.head?, ∃ b ∈ next.2.head?, isLead b = true) ∧
      ∀ k, (before.flatMap Prod.snd).length < k →
        k < (before.flatMap Prod.snd).length + bytes.length → chunks (s.take k) =
          before ++ [(replacement, (s.take k).drop (before.flatMap Prod.snd).length)]) ∧
    count s = (chunks s).length ∧ count s ≤ s.length ∧
    ∀ seqs : List Bytes, (∀ seq ∈ seqs, ∃ value, WellFormed value seq) →
      count (seqs.flatten ++ s) = count seqs.flatten + count s := by
  have hchunks := segmented_chunks s
  refine ⟨fun _ => segmented_iff, hchunks.flatMap_snd, ?_, count_eq_length s, length_runes_le s, ?_⟩
  · intro before rune bytes after heq
    rw [heq] at hchunks
    obtain ⟨hne, rest, -, hdecode, -⟩ := hchunks.drop.exists_step
    exact ⟨hne, (encoded_or_replaced hdecode).imp_right And.left, hchunks.drop.isLead_of_malformed,
      fun k hpos hlt => hchunks.chunks_take_inside hpos hlt⟩
  · intro seqs hseqs
    have halone := count_flatten_append hseqs []
    rw [List.append_nil] at halone
    rw [count_flatten_append hseqs s, halone, count_eq_length [], chunks, List.length_nil,
      Nat.add_zero]

/-- A sequence of three bytes that a letter breaks off, with a continuation byte behind it: one
chunk, and so is what is left of it before the letter. -/
theorem decoding_segments_broken_off :
    let s : Bytes := [0x61, 0xE2, 0x82, 0x41, 0x80, 0x62]
    chunks s = [('a', [0x61])] ++ (replacement, [0xE2, 0x82, 0x41, 0x80]) :: [('b', [0x62])] ∧
      [0xE2, 0x82, 0x41, 0x80] ≠ String.utf8EncodeChar replacement ∧
      (∃ b ∈ [(0x62 : UInt8)].head?, isLead b = true) ∧
      chunks (s.take 3) = [('a', [0x61])] ++ [(replacement, [0xE2, 0x82])] ∧
      count ([[0xC3, 0xA9]].flatten ++ s) = count [[0xC3, 0xA9]].flatten + count s := by
  intro s
  obtain ⟨hsegmented, -, hchunk, -, -, hcount⟩ := decoding_segments s
  have hchunks : chunks s =
      [('a', [0x61])] ++ (replacement, [0xE2, 0x82, 0x41, 0x80]) :: [('b', [0x62])] := by
    have hlast : Segmented ([0x62] ++ []) [('b', [0x62])] :=
      .step (by decide) (by decide +kernel) .done
    have hbroken : Segmented ([0xE2, 0x82, 0x41, 0x80] ++ [0x62])
        [(replacement, [0xE2, 0x82, 0x41, 0x80]), ('b', [0x62])] :=
      .step (by decide) (by decide +kernel) hlast
    have hwhole : Segmented ([0x61] ++ [0xE2, 0x82, 0x41, 0x80, 0x62])
        [('a', [0x61]), (replacement, [0xE2, 0x82, 0x41, 0x80]), ('b', [0x62])] :=
      .step (by decide) (by decide +kernel) hbroken
    exact ((hsegmented _).1 hwhole).symm
  obtain ⟨-, -, hlead, hcut⟩ := hchunk _ _ _ _ hchunks
  have hmalformed : [0xE2, 0x82, 0x41, 0x80] ≠ String.utf8EncodeChar replacement := by
    decide +kernel
  refine ⟨hchunks, hmalformed, hlead hmalformed _ rfl, hcut 3 (by decide) (by decide), ?_⟩
  refine hcount [[0xC3, 0xA9]] fun seq hseq => ?_
  rw [List.mem_singleton.1 hseq]
  exact ⟨0xE9, wellFormed_encode 'é'⟩

end ShiftReduce.Utf8
