import ShiftReduce.Proofs.Text.Malformed

/-!
# Chunks

Decoding cuts a text into chunks. The offsets between them are the boundaries of the text
(`Boundary`): decoding starts at one, and from each it goes on to the next.

What was decoded before an offset is decoded in the same way if the text is cut there or later: the
chunks that end before the cut stay as they are, and what is left of the chunk that the cut goes
through is one malformed sequence (`chunks_take`).

A malformed chunk takes along the byte at which its sequence breaks off, even if that byte begins a
well-formed sequence. `runs_over_iff_unfinished` tells when a character gets lost in this way.
-/

namespace ShiftReduce.Utf8

/-! ## The first chunk -/

/-- The number of bytes that decoding takes for the first rune. -/
def headSize (s : Bytes) : Nat := s.length - (decode s).2.length

/-- The bytes of the first chunk decide about its rune: what is behind them does not matter, and
without the last of them they are malformed. -/
theorem exists_head (s : Bytes) : ∃ head rune rest, s = head ++ rest ∧ decode s = (rune, rest) ∧
    (∀ j, decode (head ++ rest.take j) = (rune, rest.take j)) ∧
    ∀ k, k < head.length → decode (head.take k) = (replacement, []) := by
  have hs := decoded s
  generalize (decode s).1 = rune at hs
  generalize (decode s).2 = rest at hs
  have hdecode := hs.decode_eq
  cases hs with
  | encoded =>
    refine ⟨_, rune, rest, rfl, hdecode, fun j => decode_encode_append _ _, fun k hk => ?_⟩
    refine Decoded.decode_eq (.unfinished ⟨_, _, wellFormed_encode rune, List.take_prefix .., ?_⟩)
    intro heq
    rw [← heq, List.length_take] at hk
    omega
  | unfinished h =>
    refine ⟨s, _, [], (List.append_nil s).symm, hdecode, fun j => ?_, fun k _ => ?_⟩
    · rwa [List.take_nil, List.append_nil]
    · exact Decoded.decode_eq (.unfinished (h.of_prefix (List.take_prefix k s)))
  | @broken begun skipped rest b hbegun hbreak hskipped hrest =>
    have hbroken {skipped rest : Bytes} (hskipped : ∀ c ∈ skipped, isLead c = false)
        (hrest : ∀ c ∈ rest.head?, isLead c = true) :
        decode (begun ++ b :: skipped ++ rest) = (replacement, rest) := by
      rw [List.append_assoc, List.cons_append]
      exact (Decoded.broken hbegun hbreak hskipped hrest).decode_eq
    refine ⟨begun ++ b :: skipped, _, rest, by simp, hdecode, fun j => ?_, fun k _ => ?_⟩
    · refine hbroken hskipped fun c hc => hrest c ?_
      rw [List.head?_take] at hc
      split at hc
      · cases hc
      · exact hc
    · by_cases hk : k ≤ begun.length
      · rw [List.take_append_of_le_length hk]
        exact Decoded.decode_eq (.unfinished (hbegun.of_prefix (List.take_prefix k begun)))
      · obtain ⟨j, rfl⟩ := Nat.exists_eq_add_of_le (Nat.le_of_not_le hk)
        obtain ⟨j, rfl⟩ := Nat.exists_eq_succ_of_ne_zero (show j ≠ 0 by omega)
        rw [List.take_length_add_append, List.take_succ_cons, ← List.append_nil (begun ++ _)]
        exact hbroken (fun c hc => hskipped c (List.mem_of_mem_take hc)) nofun

theorem headSize_append {head rest : Bytes} {rune : Char}
    (h : decode (head ++ rest) = (rune, rest)) :
    headSize (head ++ rest) = head.length := by
  rw [headSize, h, List.length_append, Nat.add_sub_cancel]

theorem headSize_pos {s : Bytes} (h : s ≠ []) : 0 < headSize s :=
  Nat.sub_pos_of_lt (decode_length_lt h)

/-- A text that is cut behind its first chunk begins with that chunk. -/
theorem chunks_take_of_le {s : Bytes} {k : Nat} (hne : s ≠ []) (h : headSize s ≤ k) :
    chunks (s.take k) =
      ((decode s).1, s.take (headSize s)) :: chunks ((s.take k).drop (headSize s)) := by
  have hpos := headSize_pos hne
  obtain ⟨head, rune, rest, rfl, hdecode, hbehind, -⟩ := exists_head s
  rw [headSize_append hdecode] at h hpos ⊢
  obtain ⟨j, rfl⟩ := Nat.exists_eq_add_of_le h
  have hcut : head ++ rest.take j ≠ [] :=
    List.append_ne_nil_of_left_ne_nil (List.length_pos_iff.1 hpos) _
  rw [List.take_length_add_append, chunks_of_decode hcut (hbehind j), hdecode, List.length_append,
    Nat.add_sub_cancel, List.take_left, List.take_left, List.drop_left]

/-- A text that is cut inside its first chunk is one malformed sequence. -/
theorem chunks_take_of_lt {s : Bytes} {k : Nat} (hpos : 0 < k) (h : k < headSize s) :
    chunks (s.take k) = [(replacement, s.take k)] := by
  obtain ⟨head, rune, rest, rfl, hdecode, -, hinside⟩ := exists_head s
  rw [headSize_append hdecode] at h
  have hcut : head.take k ≠ [] := by
    rw [← List.length_pos_iff, List.length_take]
    omega
  rw [List.take_append_of_le_length (Nat.le_of_lt h), chunks_of_decode hcut (hinside k h),
    List.length_nil, Nat.sub_zero, List.take_length, chunks]

theorem chunks_eq_cons {s : Bytes} (hne : s ≠ []) :
    chunks s = ((decode s).1, s.take (headSize s)) :: chunks (s.drop (headSize s)) := by
  have h := chunks_take_of_le hne (Nat.sub_le s.length (decode s).2.length)
  rwa [List.take_length] at h

/-- There are not more runes than bytes. -/
theorem length_runes_le (s : Bytes) : (runes s).length ≤ s.length := by
  induction hn : s.length using Nat.strongRecOn generalizing s with
  | _ n ih =>
    by_cases hne : s = []
    · rw [hne, runes, chunks, List.map_nil]
      exact Nat.zero_le n
    · have hpos := headSize_pos hne
      have hlength : 0 < s.length := List.length_pos_iff.2 hne
      have hrest := ih (s.drop (headSize s)).length (by rw [List.length_drop]; omega) _ rfl
      rw [List.length_drop] at hrest
      rw [runes, chunks_eq_cons hne, List.map_cons, List.length_cons]
      rw [runes] at hrest
      omega

/-- A tab is one byte. -/
theorem headSize_of_tab {s : Bytes} (h : (decode s).1 = '\t') : headSize s = 1 := by
  have hs := decoded s
  rw [h] at hs
  generalize (decode s).2 = rest at hs
  generalize hrune : '\t' = rune at hs
  have hdecode := hs.decode_eq
  cases hs with
  | encoded =>
    rw [headSize_append hdecode, ← hrune]
    rfl
  | unfinished | broken => exact absurd hrune (by decide)

/-! ## Boundaries -/

/-- The offsets that decoding comes to. -/
inductive Boundary (s : Bytes) : Nat → Prop
  | start : Boundary s 0
  | next {k : Nat} (h : Boundary s k) (hlt : k < s.length) : Boundary s (k + headSize (s.drop k))

/-- Every offset is a boundary or inside the chunk that begins at one. -/
theorem exists_boundary {s : Bytes} {k : Nat} (hk : k ≤ s.length) :
    ∃ c, Boundary s c ∧ (c = k ∨ c < k ∧ k < c + headSize (s.drop c)) := by
  induction k with
  | zero => exact ⟨0, .start, .inl rfl⟩
  | succ k ih =>
    obtain ⟨c, hc, hat⟩ := ih (by omega)
    have hle : c ≤ k := by omega
    have hne : s.drop c ≠ [] := by simp; omega
    have hpos := headSize_pos hne
    by_cases hend : k + 1 = c + headSize (s.drop c)
    · exact ⟨k + 1, hend ▸ .next hc (by omega), .inl rfl⟩
    · exact ⟨c, hc, .inr ⟨by omega, by omega⟩⟩

/-- Inside a chunk that begins at a boundary there is no other one. -/
theorem Boundary.not_inside {s : Bytes} {c k : Nat} (hc : Boundary s c) (hk : Boundary s k) :
    ¬(c < k ∧ k < c + headSize (s.drop c)) := by
  induction k using Nat.strongRecOn generalizing c with
  | _ k ih =>
    rintro ⟨hlt, hinside⟩
    cases hk with
    | start => exact absurd hlt (Nat.not_lt_zero c)
    | @next j hj hjlt =>
      have hpos : 0 < headSize (s.drop j) := headSize_pos (by simpa using hjlt)
      rcases Nat.lt_trichotomy j c with hbefore | rfl | hbehind
      · exact ih c hlt hj hc ⟨hbefore, hlt⟩
      · exact absurd hinside (Nat.lt_irrefl _)
      · exact ih j (by omega) hc hj ⟨hbehind, by omega⟩

/-- The chunks before a boundary are the same wherever the text is cut behind it. -/
theorem Boundary.exists_chunks {s : Bytes} {c : Nat} (h : Boundary s c) :
    ∃ before, before.flatMap Prod.snd = s.take c ∧
      ∀ k, c ≤ k → chunks (s.take k) = before ++ chunks ((s.take k).drop c) := by
  induction h with
  | start => exact ⟨[], rfl, fun k _ => rfl⟩
  | @next c h hlt ih =>
    obtain ⟨before, hbytes, hchunks⟩ := ih
    have hne : s.drop c ≠ [] := by simpa using hlt
    refine ⟨before ++ [((decode (s.drop c)).1, (s.drop c).take (headSize (s.drop c)))], ?_, ?_⟩
    · rw [List.flatMap_append, hbytes, List.flatMap_singleton, ← List.take_add]
    · intro k hk
      rw [hchunks k (by omega), List.drop_take, chunks_take_of_le hne (by omega), List.append_assoc,
        List.singleton_append, ← List.drop_take, List.drop_drop]

/-- The chunks of a text that is cut at an offset: those of the whole text that end at the offset or
before it, and if the cut goes through a chunk then what is left of it, as one malformed
sequence. -/
theorem chunks_take {s : Bytes} {k : Nat} (hk : k ≤ s.length) :
    ∃ before c, Boundary s c ∧ before.flatMap Prod.snd = s.take c ∧
      chunks s = before ++ chunks (s.drop c) ∧
      (c = k ∧ chunks (s.take k) = before ∨
        c < k ∧ k < c + headSize (s.drop c) ∧
          chunks (s.take k) = before ++ [(replacement, (s.take k).drop c)]) := by
  obtain ⟨c, hc, hat⟩ := exists_boundary hk
  obtain ⟨before, hbytes, hchunks⟩ := hc.exists_chunks
  have hwhole := hchunks s.length (by omega)
  rw [List.take_length] at hwhole
  refine ⟨before, c, hc, hbytes, hwhole, ?_⟩
  rcases hat with rfl | ⟨hlt, hinside⟩
  · refine .inl ⟨rfl, ?_⟩
    rw [hchunks c (Nat.le_refl c), List.drop_take, Nat.sub_self, List.take_zero, chunks,
      List.append_nil]
  · refine .inr ⟨hlt, hinside, ?_⟩
    rw [hchunks k (Nat.le_of_lt hlt), List.drop_take, chunks_take_of_lt (by omega) (by omega)]

/-! ## Sequences behind malformed ones -/

/-- Decoding runs over the beginning of a well-formed sequence exactly if everything it has read
before is unfinished: then the lead byte is the one at which it breaks off. -/
theorem lt_headSize_iff {s : Bytes} {k : Nat} (hpos : 0 < k) (hseq : WellBegun (s.drop k)) :
    k < headSize s ↔ Unfinished (s.take k) := by
  obtain ⟨b, hb, hlead⟩ := hseq.exists_isLead
  have hnot : ¬ isLead b = false := by simp [hlead]
  have hs := decoded s
  generalize (decode s).1 = rune at hs
  generalize (decode s).2 = rest at hs
  have hdecode := hs.decode_eq
  cases hs with
  | encoded =>
    have hform := wellFormed_encode rune
    rw [headSize_append hdecode]
    by_cases hlt : k < (String.utf8EncodeChar rune).length
    · rw [List.getElem?_append_left hlt] at hb
      exact absurd ((hform.isLead_iff hb).1 hlead) (Nat.ne_of_gt hpos)
    · have hwell : WellBegun ((String.utf8EncodeChar rune ++ rest).take k) := by
        obtain ⟨j, rfl⟩ := Nat.exists_eq_add_of_le (Nat.le_of_not_lt hlt)
        rw [List.take_length_add_append]
        exact ⟨_, _, hform, List.prefix_append _ _⟩
      exact iff_of_false hlt hwell.not_unfinished
  | unfinished h => exact absurd (h.begins.isLead_eq_false hpos hb) hnot
  | @broken begun skipped rest c hbegun hbreak hskipped =>
    have hassoc : begun ++ c :: (skipped ++ rest) = (begun ++ c :: skipped) ++ rest := by simp
    have hsize : headSize (begun ++ c :: (skipped ++ rest)) =
        begun.length + (skipped.length + 1) := by
      rw [hassoc] at hdecode ⊢
      rw [headSize_append hdecode, List.length_append, List.length_cons]
    rw [hsize]
    rcases Nat.lt_trichotomy k begun.length with hlt | rfl | hgt
    · rw [List.getElem?_append_left hlt] at hb
      exact absurd (hbegun.begins.isLead_eq_false hpos hb) hnot
    · rw [List.take_left]
      exact iff_of_true (by omega) hbegun
    · obtain ⟨j, rfl⟩ := Nat.exists_eq_add_of_lt hgt
      rw [List.getElem?_append_right (by omega), Nat.add_assoc, Nat.add_sub_cancel_left,
        List.getElem?_cons_succ] at hb
      have hunfinished :
          ¬ Unfinished ((begun ++ c :: (skipped ++ rest)).take (begun.length + j + 1)) := by
        intro h
        rw [Nat.add_assoc, List.take_length_add_append, List.take_succ_cons] at h
        exact hbreak (h.begins.of_prefix (prefix_append_cons ..))
      refine iff_of_false (fun hlt => ?_) hunfinished
      rw [List.getElem?_append_left (by omega)] at hb
      exact hnot (hskipped b (List.mem_of_getElem? hb))

theorem boundary_iff {s : Bytes} {k : Nat} (hseq : WellBegun (s.drop k)) :
    Boundary s k ↔ ∀ c, c < k → Boundary s c → ¬ Unfinished ((s.drop c).take (k - c)) := by
  have hiff : ∀ c, c < k →
      (k < c + headSize (s.drop c) ↔ Unfinished ((s.drop c).take (k - c))) := by
    intro c hlt
    have hseq' : WellBegun ((s.drop c).drop (k - c)) := by
      rwa [List.drop_drop, Nat.add_sub_cancel' (Nat.le_of_lt hlt)]
    rw [← lt_headSize_iff (by omega) hseq']
    omega
  constructor
  · intro hk c hlt hc hunfinished
    exact hc.not_inside hk ⟨hlt, (hiff c hlt).2 hunfinished⟩
  · intro h
    obtain ⟨b, hb, -⟩ := hseq.exists_isLead
    obtain ⟨c, hc, rfl | ⟨hlt, hinside⟩⟩ :=
      exists_boundary (Nat.le_of_lt (List.getElem?_eq_some_iff.1 hb).1)
    · exact hc
    · exact absurd ((hiff c hlt).1 hinside) (h c hlt hc)

theorem Boundary.add {s : Bytes} {c k : Nat} (hc : Boundary s c) (hk : Boundary (s.drop c) k) :
    Boundary s (c + k) := by
  induction hk with
  | start => exact hc
  | @next k hk hlt ih =>
    have hnext := ih.next (by rw [List.length_drop] at hlt; omega)
    rwa [Nat.add_assoc, ← List.drop_drop] at hnext

/-- Where a text is cut between chunks, there is a boundary. -/
theorem boundary_of_chunks {s : Bytes} {front back : List (Char × Bytes)}
    (h : chunks s = front ++ back) : Boundary s (front.flatMap Prod.snd).length := by
  induction front generalizing s with
  | nil => exact .start
  | cons chunk front ih =>
    have hne : s ≠ [] := by
      rintro rfl
      rw [chunks] at h
      cases h
    have hle : headSize s ≤ s.length := Nat.sub_le ..
    rw [chunks_eq_cons hne, List.cons_append, List.cons.injEq] at h
    obtain ⟨rfl, hrest⟩ := h
    have hsecond : Boundary s (headSize s) :=
      Nat.zero_add (headSize s) ▸ Boundary.start.next (List.length_pos_iff.2 hne)
    rw [List.flatMap_cons, List.length_append, List.length_take_of_le hle]
    exact hsecond.add (ih hrest)

/-- Of a character behind arbitrary bytes: the first decoding step runs over its lead byte exactly
if all the bytes before are unfinished; and it is a chunk of its own exactly if from no boundary
before it the bytes up to it are unfinished. -/
theorem runs_over_iff_unfinished (before after : Bytes) (c : Char) :
    let s := before ++ (String.utf8EncodeChar c ++ after)
    (before ≠ [] → (before.length < s.length - (decode s).2.length ↔ Unfinished before)) ∧
      ((∃ front, front.flatMap Prod.snd = before ∧
          chunks s = front ++ (c, String.utf8EncodeChar c) :: chunks after) ↔
        ∀ k < before.length, Boundary s k → ¬ Unfinished (before.drop k)) := by
  intro s
  have htake : s.take before.length = before := List.take_left
  have hdrop : s.drop before.length = String.utf8EncodeChar c ++ after := List.drop_left
  have hwell : WellBegun (s.drop before.length) :=
    hdrop ▸ ⟨_, _, wellFormed_encode c, List.prefix_append _ _⟩
  constructor
  · intro hne
    have hiff := lt_headSize_iff (List.length_pos_iff.2 hne) hwell
    rwa [htake] at hiff
  · have hbetween : ∀ k, (s.drop k).take (before.length - k) = before.drop k := fun k => by
      rw [← List.drop_take, htake]
    have hiff := boundary_iff hwell
    simp only [hbetween] at hiff
    rw [← hiff]
    constructor
    · rintro ⟨front, rfl, hchunks⟩
      exact boundary_of_chunks hchunks
    · intro hboundary
      obtain ⟨front, hbytes, hchunks⟩ := hboundary.exists_chunks
      refine ⟨front, hbytes.trans htake, ?_⟩
      have hwhole := hchunks s.length (List.prefix_append before _).length_le
      rwa [List.take_length, hdrop, chunks_encode_append] at hwhole

/-- A letter that is swallowed: decoding does not always resume where the next well-formed sequence
begins. -/
theorem letter_swallowed : ¬ ∀ (s : Bytes) (k : Nat), ¬ WellBegun s → 0 < k →
    k < s.length - (decode s).2.length → ¬ WellBegun (s.drop k) := by
  intro h
  have hfails : Fails [0xC3, 0x61] [] := scan_eq_malformed_iff.1 (by decide +kernel)
  refine h [0xC3, 0x61] 1 hfails.not_wellBegun (by decide) (by decide +kernel) ?_
  exact ⟨0x61, [0x61], .one (by decide), List.prefix_rfl⟩

end ShiftReduce.Utf8
