import ShiftReduce.Proofs.Text.Decoding

/-!
# Malformed sequences

A byte string with no well-formed sequence at its head is malformed there in one of two ways: it is
unfinished, the beginning of a sequence that goes on behind its end, or it breaks off, the beginning
of a sequence (of no byte perhaps) with a byte behind it that continues no sequence
(`scan_eq_malformed_iff`). `Decoded` tells what decoding makes of the head of a byte string in these
two cases and in the good one.

What tells the two apart is which bytes are the beginning of a sequence. A state of the automaton
that waits has come from such bytes, for some bytes complete it (`Awaits.exists_completion`).
-/

namespace ShiftReduce.Utf8

/-- The byte string begins with a well-formed sequence. -/
def WellBegun (s : Bytes) : Prop := ∃ value seq, WellFormed value seq ∧ seq <+: s

/-- The bytes are the beginning of a well-formed sequence, or all of one. -/
def Begins (bytes : Bytes) : Prop := ∃ value seq, WellFormed value seq ∧ bytes <+: seq

/-- The bytes are the beginning of a well-formed sequence that goes on behind them. -/
def Unfinished (bytes : Bytes) : Prop :=
  ∃ value seq, WellFormed value seq ∧ bytes <+: seq ∧ bytes ≠ seq

/-! ## Beginnings of sequences -/

/-- A sequence is one lead byte and continuation bytes. -/
theorem WellFormed.isLead_iff {value k : Nat} {seq : Bytes} {b : UInt8} (h : WellFormed value seq)
    (hb : seq[k]? = some b) : isLead b = true ↔ k = 0 := by
  have htail : ∀ y : Fin 64, isLead (continuation y) = false := by decide +kernel
  have hone : ∀ i : Fin 0x80, isLead (.ofNat i) = true := by decide +kernel
  have htwo : ∀ i : Fin 32, isLead (.ofNat (0xC0 + i)) = true := by decide +kernel
  have hthree : ∀ i : Fin 16, isLead (.ofNat (0xE0 + i)) = true := by decide +kernel
  have hfour : ∀ i : Fin 8, isLead (.ofNat (0xF0 + i)) = true := by decide +kernel
  cases h with
  | one hmost =>
    match k, hb with
    | 0, rfl => simpa using hone ⟨_, hmost⟩
  | two hx hy =>
    match k, hb with
    | 0, rfl => simpa using htwo ⟨_, hx⟩
    | 1, rfl => simpa using htail ⟨_, hy⟩
  | three hx hy hz =>
    match k, hb with
    | 0, rfl => simpa using hthree ⟨_, hx⟩
    | 1, rfl => simpa using htail ⟨_, hy⟩
    | 2, rfl => simpa using htail ⟨_, hz⟩
  | four hx hy hz hw =>
    match k, hb with
    | 0, rfl => simpa using hfour ⟨_, hx⟩
    | 1, rfl => simpa using htail ⟨_, hy⟩
    | 2, rfl => simpa using htail ⟨_, hz⟩
    | 3, rfl => simpa using htail ⟨_, hw⟩

/-- No sequence is the beginning of another one. -/
theorem WellFormed.eq_of_prefix {value value' : Nat} {seq seq' : Bytes} (h : WellFormed value seq)
    (h' : WellFormed value' seq') (hfront : seq <+: seq') : seq = seq' := by
  obtain ⟨more, rfl⟩ := hfront
  have hscan := scan_append_of_wellFormed h' []
  rw [List.append_nil, scan_append_of_wellFormed h more, Scan.rune.injEq] at hscan
  rw [hscan.2, List.append_nil]

theorem Begins.of_prefix {bytes more : Bytes} (h : Begins more) (hfront : bytes <+: more) :
    Begins bytes := by
  obtain ⟨value, seq, hseq, hmore⟩ := h
  exact ⟨value, seq, hseq, hfront.trans hmore⟩

theorem prefix_append_cons (begun : Bytes) (b : UInt8) (more : Bytes) :
    begun ++ [b] <+: begun ++ b :: more :=
  ⟨more, (List.append_cons begun b more).symm⟩

/-- Behind their first byte the bytes of a beginning are continuation bytes. -/
theorem Begins.isLead_eq_false {bytes : Bytes} {b : UInt8} {k : Nat} (h : Begins bytes)
    (hk : 0 < k) (hb : bytes[k]? = some b) : isLead b = false := by
  obtain ⟨value, seq, hseq, more, rfl⟩ := h
  have hb' : (bytes ++ more)[k]? = some b := by
    rw [List.getElem?_append_left (List.getElem?_eq_some_iff.1 hb).1, hb]
  have hlead := hseq.isLead_iff hb'
  rw [← Bool.not_eq_true, hlead]
  omega

theorem Unfinished.begins {bytes : Bytes} (h : Unfinished bytes) : Begins bytes := by
  obtain ⟨value, seq, hseq, hfront, -⟩ := h
  exact ⟨value, seq, hseq, hfront⟩

theorem Begins.unfinished {begun : Bytes} {b : UInt8} {more : Bytes}
    (h : Begins (begun ++ b :: more)) : Unfinished begun := by
  obtain ⟨value, seq, hseq, hfront⟩ := h
  refine ⟨value, seq, hseq, (List.prefix_append _ _).trans hfront, ?_⟩
  rintro rfl
  have hle := hfront.length_le
  rw [List.length_append, List.length_cons] at hle
  omega

theorem Unfinished.of_prefix {bytes more : Bytes} (h : Unfinished more)
    (hfront : bytes <+: more) : Unfinished bytes := by
  obtain ⟨value, seq, hseq, hmore, hne⟩ := h
  refine ⟨value, seq, hseq, hfront.trans hmore, ?_⟩
  rintro rfl
  exact hne (hmore.eq_of_length_le hfront.length_le)

theorem unfinished_nil : Unfinished [] := by
  have hnul : WellFormed 0 [0] := WellFormed.one (by decide)
  have hbegins : Begins ([] ++ [0]) := ⟨_, _, hnul, List.prefix_rfl⟩
  exact hbegins.unfinished

/-- What begins with a sequence is not unfinished. -/
theorem WellBegun.not_unfinished {s : Bytes} (h : WellBegun s) : ¬ Unfinished s := by
  obtain ⟨value, seq, hseq, hfront⟩ := h
  rintro ⟨value', seq', hseq', hfront', hne⟩
  obtain rfl : seq = seq' := hseq.eq_of_prefix hseq' (hfront.trans hfront')
  exact hne (hfront'.eq_of_length_le hfront.length_le)

theorem WellBegun.exists_isLead {s : Bytes} {k : Nat} (h : WellBegun (s.drop k)) :
    ∃ b, s[k]? = some b ∧ isLead b = true := by
  obtain ⟨value, seq, hseq, more, hs⟩ := h
  obtain ⟨b, tail, rfl⟩ := List.exists_cons_of_ne_nil hseq.ne_nil
  refine ⟨b, ?_, (hseq.isLead_iff (k := 0) rfl).2 rfl⟩
  rw [← Nat.add_zero k, ← List.getElem?_drop, ← hs]
  rfl

/-! ## How the automaton fails -/

/-- Whatever state waits for bytes, there are some that it accepts. -/
theorem Awaits.exists_completion {state : UInt8} {n l u : Nat} (h : Awaits state (n + 1) l u)
    (rune : UInt32) : ∃ b more value, scanFrom rune state (b :: more) = .rune value [] := by
  induction n generalizing state l u rune with
  | zero =>
    have hnext : nextState state (continuation l) = accept := by
      cases h
      decide
    exact ⟨continuation l, [], _, by rw [scanFrom, if_pos hnext]⟩
  | succ n ih =>
    have hrange : l ≤ u := by cases h <;> decide
    have hupper := h.upper_lt
    have hle := h.le_three
    have hnext : nextState state (continuation l) = waiting (n + 1) := by
      rw [h.nextState_eq, toNat_continuation (by omega), if_pos (by omega)]
    have hwaiting : Awaits (waiting (n + 1)) (n + 1) 0 63 := awaits_waiting (by omega)
    obtain ⟨b, more, value, hmore⟩ := ih hwaiting (nextRune rune state (continuation l))
    refine ⟨continuation l, b :: more, value, ?_⟩
    rw [scanFrom, hnext, if_neg hwaiting.ne_accept, if_neg hwaiting.ne_reject, hmore]

/-- Bytes after which the automaton still waits are unfinished. -/
theorem unfinished_of_awaits {rune : UInt32} {state : UInt8} {n l u : Nat} {bytes : Bytes}
    (hstate : Awaits state (n + 1) l u)
    (hbytes : ∀ more, scan (bytes ++ more) = scanFrom rune state more) : Unfinished bytes := by
  obtain ⟨b, more, value, hmore⟩ := hstate.exists_completion rune
  rw [← hbytes] at hmore
  obtain ⟨seq, hseq, heq⟩ := wellFormed_of_scan hmore
  rw [List.append_nil] at heq
  subst heq
  exact Begins.unfinished ⟨value, _, hseq, List.prefix_rfl⟩

/-- Bytes after which the automaton has failed are no beginning. -/
theorem not_begins_of_scan {bytes : Bytes} (h : ∀ more, scan (bytes ++ more) = .malformed more) :
    ¬ Begins bytes := by
  rintro ⟨value, seq, hseq, more, rfl⟩
  have hscan := scan_append_of_wellFormed hseq []
  rw [List.append_nil, h] at hscan
  cases hscan

/-- The bytes are unfinished or break off: at some byte they cease to be a beginning. -/
inductive Fails : (s rest : Bytes) → Prop
  | unfinished {s : Bytes} (h : Unfinished s) : Fails s []
  | broken {begun : Bytes} {b : UInt8} (hbegun : Unfinished begun)
      (hbreak : ¬ Begins (begun ++ [b])) (rest : Bytes) : Fails (begun ++ b :: rest) rest

theorem scanFrom_malformed {rune : UInt32} {state : UInt8} {n l u : Nat} {before s rest : Bytes}
    (hstate : Awaits state (n + 1) l u)
    (hbefore : ∀ more, scan (before ++ more) = scanFrom rune state more)
    (h : scanFrom rune state s = .malformed rest) : Fails (before ++ s) rest := by
  induction s generalizing rune state n l u before with
  | nil =>
    cases h
    rw [List.append_nil]
    exact .unfinished (unfinished_of_awaits hstate hbefore)
  | cons b s ih =>
    have hnext := hstate.nextState_eq b
    by_cases hrange : 0x80 + l ≤ b.toNat ∧ b.toNat ≤ 0x80 + u
    · rw [if_pos hrange] at hnext
      cases n with
      | zero =>
        have haccept : nextState state b = accept := hnext
        rw [scanFrom, if_pos haccept] at h
        cases h
      | succ n =>
        have hle := hstate.le_three
        have hwaiting : Awaits (nextState state b) (n + 1) 0 63 :=
          hnext ▸ awaits_waiting (by omega)
        have hstep : ∀ more, scanFrom rune state (b :: more) =
            scanFrom (nextRune rune state b) (nextState state b) more := fun more => by
          rw [scanFrom, if_neg hwaiting.ne_accept, if_neg hwaiting.ne_reject]
        rw [List.append_cons]
        refine ih hwaiting (fun more => ?_) (hstep s ▸ h)
        rw [← List.append_cons, hbefore, hstep]
    · rw [if_neg hrange] at hnext
      have hreject : ∀ more, scanFrom rune state (b :: more) = .malformed more := fun more => by
        rw [scanFrom, hnext, if_neg (by decide), if_pos rfl]
      obtain rfl : s = rest := Scan.malformed.inj ((hreject s).symm.trans h)
      refine .broken (unfinished_of_awaits hstate hbefore) (not_begins_of_scan fun more => ?_) s
      rw [← List.append_cons, hbefore, hreject]

theorem fails_of_scan {s rest : Bytes} (h : scan s = .malformed rest) : Fails s rest := by
  cases s with
  | nil =>
    cases h
    exact .unfinished unfinished_nil
  | cons b s =>
    by_cases hreject : nextState accept b = reject
    · have hscan : ∀ more, scan (b :: more) = .malformed more := fun more => by
        rw [scan, scanFrom, hreject, if_neg (by decide), if_pos rfl]
      obtain rfl : s = rest := Scan.malformed.inj ((hscan s).symm.trans h)
      have hbreak : ¬ Begins ([] ++ [b]) := not_begins_of_scan hscan
      exact .broken unfinished_nil hbreak s
    · obtain ⟨n, x, l, u, hannounces⟩ := exists_announces hreject
      have hstate := hannounces.awaits.1
      cases n with
      | zero =>
        rw [scan, scanFrom, if_pos hstate.eq_accept] at h
        cases h
      | succ n =>
        have hstep : ∀ more, scan (b :: more) =
            scanFrom (nextRune 0 accept b) (nextState accept b) more := fun more => by
          rw [scan, scanFrom, if_neg hstate.ne_accept, if_neg hstate.ne_reject]
        rw [hstep] at h
        rw [← List.singleton_append]
        exact scanFrom_malformed hstate hstep h

/-- What fails has no well-formed sequence at its head. -/
theorem Fails.not_wellBegun {s rest : Bytes} (h : Fails s rest) : ¬ WellBegun s := by
  intro hwell
  cases h with
  | unfinished h => exact hwell.not_unfinished h
  | @broken begun b hbegun hbreak =>
    obtain ⟨value, seq, hseq, hfront⟩ := hwell
    have hbroken := prefix_append_cons begun b rest
    rcases List.prefix_or_prefix_of_prefix hfront hbroken with hshort | hlong
    · rcases List.prefix_concat_iff.1 hshort with rfl | hshort
      · exact hbreak ⟨value, _, hseq, List.prefix_rfl⟩
      · exact WellBegun.not_unfinished ⟨value, seq, hseq, hshort⟩ hbegun
    · exact hbreak ⟨value, seq, hseq, hlong⟩

theorem Fails.unique {s rest rest' : Bytes} (h : Fails s rest) (h' : Fails s rest') :
    rest = rest' := by
  -- bytes that a sequence begins with do not have a break inside
  have hinside {begun : Bytes} {b : UInt8} {more : Bytes} (hbreak : ¬ Begins (begun ++ [b])) :
      ¬ Unfinished (begun ++ b :: more) := fun hlong =>
    hbreak (hlong.begins.of_prefix (prefix_append_cons begun b more))
  generalize hs : s = s' at h'
  cases h with
  | unfinished h =>
    cases h' with
    | unfinished => rfl
    | broken _ hbreak => exact absurd (hs ▸ h) (hinside hbreak)
  | @broken begun b hbegun hbreak =>
    cases h' with
    | unfinished h' => exact absurd (hs ▸ h') (hinside hbreak)
    | @broken begun' b' hbegun' hbreak' =>
      rcases List.append_eq_append_iff.1 hs with ⟨more, rfl, hmore⟩ | ⟨more, rfl, hmore⟩
      · cases more with
        | nil => exact (List.cons.inj hmore).2
        | cons c more =>
          obtain rfl : b = c := (List.cons.inj hmore).1
          exact absurd hbegun' (hinside hbreak)
      · cases more with
        | nil => exact (List.cons.inj hmore).2.symm
        | cons c more =>
          obtain rfl : b' = c := (List.cons.inj hmore).1
          exact absurd hbegun (hinside hbreak')

/-- The automaton fails exactly on what is unfinished or breaks off. -/
theorem scan_eq_malformed_iff {s rest : Bytes} : scan s = .malformed rest ↔ Fails s rest := by
  refine ⟨fails_of_scan, fun h => ?_⟩
  cases hscan : scan s with
  | malformed rest' => rw [(fails_of_scan hscan).unique h]
  | rune value rest' =>
    obtain ⟨seq, hseq, hs⟩ := wellFormed_of_scan hscan
    exact absurd ⟨value, seq, hseq, hs ▸ List.prefix_append seq rest'⟩ h.not_wellBegun

/-! ## What decoding makes of it -/

/-- The rune and the rest that decoding gives for a byte string. If the bytes break off,
continuation bytes behind the break are skipped. -/
inductive Decoded : (s : Bytes) → (rune : Char) → (rest : Bytes) → Prop
  | encoded (c : Char) (rest : Bytes) : Decoded (String.utf8EncodeChar c ++ rest) c rest
  | unfinished {s : Bytes} (h : Unfinished s) : Decoded s replacement []
  | broken {begun skipped rest : Bytes} {b : UInt8} (hbegun : Unfinished begun)
      (hbreak : ¬ Begins (begun ++ [b])) (hskipped : ∀ c ∈ skipped, isLead c = false)
      (hrest : ∀ c ∈ rest.head?, isLead c = true) :
      Decoded (begun ++ b :: (skipped ++ rest)) replacement rest

theorem decode_of_fails {s rest : Bytes} (h : Fails s rest) :
    decode s = (replacement, rest.dropWhile fun b => !isLead b) := by
  rw [decode, scan_eq_malformed_iff.2 h]

theorem decoded (s : Bytes) : Decoded s (decode s).1 (decode s).2 := by
  cases hscan : scan s with
  | rune value rest =>
    obtain ⟨seq, hseq, rfl⟩ := wellFormed_of_scan hscan
    rw [← hseq.toNat_ofNat] at hseq
    rw [hseq.eq_encode, decode_encode_append]
    exact .encoded _ rest
  | malformed rest =>
    have hfails := fails_of_scan hscan
    rw [decode_of_fails hfails]
    cases hfails with
    | unfinished h => exact .unfinished h
    | @broken begun b hbegun hbreak =>
      have hhead := List.head?_dropWhile_not (fun b => !isLead b) rest
      have hrest : ∀ c ∈ (rest.dropWhile fun b => !isLead b).head?, isLead c = true := by
        intro c hc
        rw [Option.mem_def.1 hc] at hhead
        simpa using hhead
      have hskipped : ∀ c ∈ rest.takeWhile fun b => !isLead b, isLead c = false := fun c hc => by
        simpa using List.all_eq_true.1 List.all_takeWhile c hc
      have hs := Decoded.broken hbegun hbreak hskipped hrest
      rwa [List.takeWhile_append_dropWhile] at hs

theorem Decoded.decode_eq {s rest : Bytes} {rune : Char} (h : Decoded s rune rest) :
    decode s = (rune, rest) := by
  cases h with
  | encoded => exact decode_encode_append rune rest
  | unfinished h => exact decode_of_fails (.unfinished h)
  | broken hbegun hbreak hskipped hrest =>
    rw [decode_of_fails (.broken hbegun hbreak _),
      List.dropWhile_append_of_pos fun c hc => by simpa using hskipped c hc]
    cases rest with
    | nil => rfl
    | cons c rest => rw [List.dropWhile_cons_of_neg (by simpa using hrest c rfl)]

end ShiftReduce.Utf8
