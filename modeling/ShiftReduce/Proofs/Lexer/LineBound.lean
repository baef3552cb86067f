import Mathlib.Data.List.TakeWhile
import ShiftReduce.Proofs.Lexer.Decision
import ShiftReduce.Proofs.Lexer.Integers

/-!
# Recognizers that stay inside a line

A word, a number or a mark ends before the line feed that ends the input, and a quoted text that is
closed before it is closed for good. So what such a recognizer says about an input that ends in a
line feed it says whatever follows, unless it complains (`Recognizer.LineBound`): only a quoted text
that is still open could go on. A lexer of such recognizers ignores and accepts as before
(`Lexer.Ignores.append`, `Lexer.Decides.append`), and what it accepts last in the line is the line
feed itself (`Lexer.Decides.eq_lineFeed`).
-/

namespace ShiftReduce

variable {τ : Type}

/-! ## What follows an input -/

/-- The remainder of a longer input. -/
def Remainder.extend (remainder : Remainder) (more : Bytes) : Remainder :=
  { remainder with text := remainder.text ++ more }

theorem Remainder.after_append {input : Bytes} {n : Nat} (h : n ≤ input.length) (more : Bytes) :
    Remainder.after (input ++ more) n = (Remainder.after input n).extend more := by
  rw [after, after, extend, List.drop_append_of_le_length h]

namespace Outcome

/-- The same outcome for a longer input. -/
def extend (more : Bytes) : Outcome τ → Outcome τ
  | success token remainder => .success token (remainder.extend more)
  | ignored => .ignored
  | failed message => .failed message

/-- The outcome with a given answer, nothing being no answer, and with a given remainder. -/
def ofAnswer (remainder : Remainder) : Option (Except Bytes τ) → Outcome τ
  | some (.ok token) => .success token remainder
  | some (.error message) => .failed message
  | none => .ignored

theorem extend_ofAnswer (remainder : Remainder) (answer : Option (Except Bytes τ)) (more : Bytes) :
    (ofAnswer remainder answer).extend more = ofAnswer (remainder.extend more) answer := by
  rcases answer with _ | _ | _ <;> rfl

theorem remainder_eq_of_ofAnswer {remainder left : Remainder} {answer : Option (Except Bytes τ)}
    {token : τ} (h : ofAnswer remainder answer = .success token left) : left = remainder := by
  rcases answer with _ | _ | _
  · cases h
  · cases h
  · cases h
    rfl

end Outcome

section Line

variable {line : Bytes} (hline : line.getLast? = some Bytes.lineFeed)

include hline

namespace Ascii

variable {p : UInt8 → Bool} (hp : p Bytes.lineFeed = false)

include hp

/-- A run of bytes that holds no line feed ends inside the line. -/
theorem spanEnd_lt : spanEnd p line < line.length := by
  have hle : (line.takeWhile p).length ≤ line.length := (List.takeWhile_prefix p).length_le
  have hne : (line.takeWhile p).length ≠ line.length := by
    intro heq
    have hall : line.takeWhile p = line := (List.takeWhile_prefix p).eq_of_length heq
    have hfeed : p Bytes.lineFeed = true :=
      List.takeWhile_eq_self_iff.1 hall _ (List.mem_of_getLast? hline)
    exact nomatch hp.symm.trans hfeed
  simp only [spanEnd, List.drop_zero]
  omega

theorem spanEnd_append (more : Bytes) : spanEnd p (line ++ more) = spanEnd p line := by
  have hlt := spanEnd_lt hline hp
  simp only [spanEnd, List.drop_zero, Nat.zero_add] at hlt ⊢
  rw [List.takeWhile_append, if_neg (Nat.ne_of_lt hlt)]

end Ascii

end Line

/-! ## Recognizers -/

/-- A success takes one byte, or some bytes that leave over the end of the line; and what is said
about a line, a complaint excepted, is said whatever follows the line. -/
structure Recognizer.LineBound (recognizer : Recognizer Id τ) : Prop where
  success : ∀ {input token remainder}, (recognizer input).run = .success token remainder →
    ∃ n, 0 < n ∧ remainder = .after input n ∧
      (input.getLast? = some Bytes.lineFeed → n = 1 ∨ n < input.length)
  append : ∀ {line}, line.getLast? = some Bytes.lineFeed →
    (∀ message, (recognizer line).run ≠ .failed message) → ∀ more,
    (recognizer (line ++ more)).run = (recognizer line).run.extend more

namespace Recognizer

variable {recognizer : Recognizer Id τ}

/-- A recognizer that reads the leading run of bytes of some kind, line feeds not among them. -/
theorem lineBound_of_run {p : UInt8 → Bool} (hp : p Bytes.lineFeed = false)
    (answer : Bytes → Option (Except Bytes τ))
    (h : ∀ input, (recognizer input).run =
      if Ascii.spanEnd p input = 0 then .ignored
      else .ofAnswer (.after input (Ascii.spanEnd p input))
        (answer (input.take (Ascii.spanEnd p input)))) :
    recognizer.LineBound where
  success := by
    intro input token remainder hsuccess
    rw [h] at hsuccess
    split at hsuccess
    · cases hsuccess
    · rename_i hpos
      have hremainder := Outcome.remainder_eq_of_ofAnswer hsuccess
      refine ⟨_, Nat.pos_of_ne_zero hpos, hremainder, ?_⟩
      intro hline
      exact .inr (Ascii.spanEnd_lt hline hp)
  append := by
    intro line hline _ more
    have hle : Ascii.spanEnd p line ≤ line.length := Nat.le_of_lt (Ascii.spanEnd_lt hline hp)
    rw [h, h, Ascii.spanEnd_append hline hp, List.take_append_of_le_length hle,
      Remainder.after_append hle]
    split
    · rfl
    · exact (Outcome.extend_ofAnswer _ _ more).symm

/-- A recognizer that reads one byte. -/
theorem lineBound_of_first (answer : UInt8 → Option (Except Bytes τ))
    (hnil : (recognizer []).run = .ignored)
    (hcons : ∀ first text, (recognizer (first :: text)).run =
      .ofAnswer (.after (first :: text) 1) (answer first)) :
    recognizer.LineBound where
  success := by
    intro input token remainder hsuccess
    cases input with
    | nil => exact nomatch hnil.symm.trans hsuccess
    | cons first text =>
      have hremainder := Outcome.remainder_eq_of_ofAnswer ((hcons first text).symm.trans hsuccess)
      exact ⟨1, Nat.one_pos, hremainder, fun _ => .inl rfl⟩
  append := by
    intro line hline _ more
    cases line with
    | nil => cases hline
    | cons first text =>
      rw [List.cons_append, hcons, hcons, Outcome.extend_ofAnswer]
      rfl

theorem keyword_lineBound (words : List (Bytes × τ)) : (keyword words).LineBound := by
  apply lineBound_of_run (p := Ascii.isAlpha) rfl fun run =>
    (words.find? fun entry => Ascii.equalFold run entry.1).map fun entry => .ok entry.2
  intro input
  simp only [keyword]
  split
  · rfl
  · cases words.find? fun entry => Ascii.equalFold (input.take _) entry.1 <;> rfl

theorem integer_lineBound (type : IntegerType) (make : Nat → τ) :
    (integer type make).LineBound := by
  apply lineBound_of_run (p := Ascii.isDigit) rfl fun run => some <|
    if digitsValue run ≤ type.greatest then .ok (make (digitsValue run))
    else .error (.ofAscii "integer literal out of range: " ++ run)
  intro input
  rw [run_integer]
  split
  · rfl
  · split <;> rfl

theorem character_lineBound (table : List (UInt8 × τ)) : (character table).LineBound := by
  apply lineBound_of_first fun first =>
    (table.find? fun entry => entry.1 == first).map fun entry => .ok entry.2
  · rfl
  · intro first text
    simp only [character]
    cases table.find? fun entry => entry.1 == first <;> rfl

theorem byteClass_lineBound (accept : UInt8 → Bool) (make : UInt8 → τ) :
    (byteClass accept make).LineBound := by
  apply lineBound_of_first fun first => if accept first then some (.ok (make first)) else none
  · rfl
  · intro first text
    simp only [byteClass]
    split <;> rfl

/-- A quoted text that is closed goes on behind the quote. -/
theorem exists_of_closed {quote : UInt8} {text : Bytes}
    (h : (text.takeWhile (· != quote)).length < text.length) :
    ∃ rest, text = text.takeWhile (· != quote) ++ quote :: rest := by
  have hsplit := List.takeWhile_append_dropWhile (p := (· != quote)) (l := text)
  cases hrest : text.dropWhile (· != quote) with
  | nil =>
    rw [hrest, List.append_nil] at hsplit
    exact absurd (congrArg List.length hsplit) (Nat.ne_of_lt h)
  | cons b rest =>
    have hb := List.head?_dropWhile_not (· != quote) text
    rw [hrest] at hb hsplit
    obtain rfl : b = quote := by simpa using hb
    exact ⟨rest, hsplit.symm⟩

theorem quoted_lineBound (make : Bytes → τ) {quote : UInt8} (hquote : quote ≠ Bytes.lineFeed) :
    (quoted make quote).LineBound where
  success := by
    intro input token remainder h
    cases input with
    | nil => cases h
    | cons first text =>
      simp only [quoted] at h
      split at h
      · split at h
        · rename_i hclosed
          cases h
          refine ⟨_, Nat.succ_pos _, rfl, ?_⟩
          intro hline
          obtain ⟨rest, htext⟩ := exists_of_closed hclosed
          -- the last byte of the line is not the quote, so something is behind the quote
          cases rest with
          | nil =>
            rw [htext, List.getLast?_cons, List.getLast?_concat] at hline
            exact absurd (Option.some.inj hline) hquote
          | cons b rest =>
            have hlength := congrArg List.length htext
            simp only [List.length_append, List.length_cons] at hlength ⊢
            omega
        · cases h
      · cases h
  append := by
    intro line hline hfailed more
    cases line with
    | nil => cases hline
    | cons first text =>
      simp only [quoted, List.cons_append] at hfailed ⊢
      split at hfailed
      · rename_i hfirst
        split at hfailed
        · rename_i hclosed
          have hcontent :
              (text ++ more).takeWhile (· != quote) = text.takeWhile (· != quote) := by
            rw [List.takeWhile_append, if_neg (Nat.ne_of_lt hclosed)]
          have hlonger : (text.takeWhile (· != quote)).length < (text ++ more).length := by
            rw [List.length_append]
            omega
          rw [if_pos hfirst, if_pos hfirst, hcontent, if_pos hlonger, if_pos hclosed,
            ← List.cons_append, Remainder.after_append (by simp only [List.length_cons]; omega)]
          rfl
        · exact absurd rfl (hfailed _)
      · rename_i hfirst
        rw [if_neg hfirst, if_neg hfirst]
        rfl

end Recognizer

/-! ## Lexers -/

/-- All recognizers stay inside a line. -/
def Lexer.LineBound (lexer : Lexer Id τ) : Prop :=
  ∀ recognizer ∈ lexer.recognizers, recognizer.LineBound

namespace Lexer

variable {lexer : Lexer Id τ} (h : lexer.LineBound)

include h

theorem LineBound.leavesSuffixes : lexer.LeavesSuffixes := by
  intro recognizer hmem input hne token remainder hsuccess
  obtain ⟨n, hpos, rfl, -⟩ := (h recognizer hmem).success hsuccess
  exact .after hne hpos

variable {line : Bytes} (hline : line.getLast? = some Bytes.lineFeed)

include hline

theorem LineBound.ignored_append {recognizer : Recognizer Id τ}
    (hmem : recognizer ∈ lexer.recognizers) (hignored : (recognizer line).run = .ignored)
    (more : Bytes) :
    (recognizer (line ++ more)).run = .ignored := by
  rw [(h recognizer hmem).append hline (by simp [hignored]), hignored]
  rfl

theorem Ignores.append (hignores : lexer.Ignores line) (more : Bytes) :
    lexer.Ignores (line ++ more) := by
  intro recognizer hmem
  exact h.ignored_append hline hmem (hignores recognizer hmem) more

/-- A token of a line is one whatever follows. -/
theorem Decides.append {token : τ} {remainder : Remainder}
    (hdecides : lexer.Decides line (.success token remainder)) (more : Bytes) :
    lexer.Decides (line ++ more) (.success token (remainder.extend more)) := by
  obtain ⟨before, recognizer, after, hsplit, hbefore, hsuccess, -⟩ := hdecides
  refine ⟨before, recognizer, after, hsplit, ?_, ?_, by simp⟩
  · intro earlier hmem
    have hmem' : earlier ∈ lexer.recognizers := hsplit ▸ List.mem_append_left _ hmem
    exact h.ignored_append hline hmem' (hbefore earlier hmem) more
  · have hmem : recognizer ∈ lexer.recognizers := hsplit ▸ by simp
    rw [(h recognizer hmem).append hline (by simp [hsuccess]), hsuccess]
    rfl

/-- What leaves nothing of a line is the token of its line feed. -/
theorem Decides.eq_lineFeed {token : τ} {remainder : Remainder}
    (hdecides : lexer.Decides line (.success token remainder)) (hempty : remainder.text = []) :
    line = [Bytes.lineFeed] := by
  obtain ⟨before, recognizer, after, hsplit, -, hsuccess, -⟩ := hdecides
  have hmem : recognizer ∈ lexer.recognizers := hsplit ▸ by simp
  obtain ⟨n, -, rfl, hwithin⟩ := (h recognizer hmem).success hsuccess
  have hle : line.length ≤ n := List.drop_eq_nil_iff.1 hempty
  have hone : line.length ≤ 1 := by
    have := hwithin hline
    omega
  match line, hone with
  | [_], _ => exact congrArg ([·]) (Option.some.inj hline)

end Lexer

end ShiftReduce
