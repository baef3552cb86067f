import Mathlib.Data.List.TakeWhile
import ShiftReduce.Proofs.Lexer.LineBound

/-!
# What stock recognizers read

The first byte of an input says whether a stock recognizer ignores it (`Recognizer.quoted_ignores`
and the lemmas after it). What it does not ignore begins with a run of bytes of one kind, up to the
first byte of another kind or the end (`Recognizer.keyword_of_run`, `Recognizer.integer_of_run`),
with a quote (`Recognizer.quoted_of_closed`, `Recognizer.quoted_of_open`), or with a single byte
that is a token by itself.
-/

namespace ShiftReduce

variable {τ : Type} {b : UInt8}

/-- A run of bytes of one kind is read to its end if no byte of its kind follows. -/
theorem Ascii.takeWhile_run {p : UInt8 → Bool} {run rest : Bytes} (hrun : ∀ b ∈ run, p b = true)
    (hstop : ∀ b ∈ rest.head?, p b = false) : (run ++ rest).takeWhile p = run := by
  have hnil : rest.takeWhile p = [] := by
    cases rest with
    | nil => rfl
    | cons b rest => exact List.takeWhile_cons_of_neg (Bool.eq_false_iff.1 (hstop b rfl))
  rw [List.takeWhile_append_of_pos hrun, hnil, List.append_nil]

theorem Ascii.spanEnd_run {p : UInt8 → Bool} {run rest : Bytes} (hrun : ∀ b ∈ run, p b = true)
    (hstop : ∀ b ∈ rest.head?, p b = false) : spanEnd p (run ++ rest) = run.length := by
  rw [spanEnd_eq_length, takeWhile_run hrun hstop]

theorem Ascii.spanEnd_eq_zero {p : UInt8 → Bool} (hb : p b = false) (rest : Bytes) :
    spanEnd p (b :: rest) = 0 := by
  have hempty : ∀ b ∈ ([] : Bytes), p b = true := by simp
  have hstop : ∀ c ∈ (b :: rest).head?, p c = false := by simpa using hb
  exact spanEnd_run hempty hstop

/-- A run that is read to its end is not followed by a byte of its kind. -/
theorem Ascii.eq_false_of_head?_dropWhile (p : UInt8 → Bool) (s : Bytes) :
    ∀ b ∈ (s.dropWhile p).head?, p b = false := by
  intro b hmem
  have hstop := List.head?_dropWhile_not p s
  rwa [Option.mem_def.1 hmem] at hstop

namespace Recognizer

/-! ## Inputs that are ignored -/

theorem quoted_ignores (make : Bytes → τ) {quote : UInt8} (h : b ≠ quote) (rest : Bytes) :
    (quoted make quote (b :: rest)).run = .ignored := by
  simp only [quoted, if_neg h]
  rfl

theorem keyword_ignores (words : List (Bytes × τ)) (h : Ascii.isAlpha b = false) (rest : Bytes) :
    (keyword words (b :: rest)).run = .ignored := by
  simp only [keyword, Ascii.spanEnd_eq_zero h]
  rfl

theorem integer_ignores (type : IntegerType) (make : Nat → τ) (h : Ascii.isDigit b = false)
    (rest : Bytes) : (integer type make (b :: rest)).run = .ignored := by
  rw [run_integer, Ascii.spanEnd_eq_zero h, if_pos rfl]

theorem character_ignores {table : List (UInt8 × τ)} (h : ∀ entry ∈ table, entry.1 ≠ b)
    (rest : Bytes) : (character table (b :: rest)).run = .ignored := by
  have hnone : table.find? (fun entry => entry.1 == b) = none := by
    simpa [List.find?_eq_none] using h
  simp only [character, hnone]
  rfl

theorem byteClass_ignores {accept : UInt8 → Bool} (make : UInt8 → τ) (h : accept b = false)
    (rest : Bytes) : (byteClass accept make (b :: rest)).run = .ignored := by
  simp only [byteClass, h]
  rfl

/-! ## Inputs that are accepted -/

section Run

variable {run rest : Bytes} (hne : run ≠ [])

include hne

/-- The whole run is looked up, and the first entry for it decides. -/
theorem keyword_of_run (words : List (Bytes × τ)) (hrun : ∀ b ∈ run, Ascii.isAlpha b = true)
    (hstop : ∀ b ∈ rest.head?, Ascii.isAlpha b = false) :
    (keyword words (run ++ rest)).run =
      match words.find? fun entry => Ascii.equalFold run entry.1 with
      | some (_, token) => .success token (.after (run ++ rest) run.length)
      | none => .ignored := by
  have hlength : run.length ≠ 0 := by simpa using hne
  simp only [keyword, Ascii.spanEnd_run hrun hstop, if_neg hlength, List.take_left]
  cases words.find? fun entry => Ascii.equalFold run entry.1 <;> rfl

/-- The whole run is read, and its value decides. -/
theorem integer_of_run (type : IntegerType) (make : Nat → τ)
    (hrun : ∀ b ∈ run, Ascii.isDigit b = true)
    (hstop : ∀ b ∈ rest.head?, Ascii.isDigit b = false) :
    (integer type make (run ++ rest)).run =
      if digitsValue run ≤ type.greatest then
        .success (make (digitsValue run)) (.after (run ++ rest) run.length)
      else .failed (.ofAscii "integer literal out of range: " ++ run) := by
  have hlength : run.length ≠ 0 := by simpa using hne
  rw [run_integer, Ascii.spanEnd_run hrun hstop, if_neg hlength, List.take_left]

end Run

theorem quoted_of_closed (make : Bytes → τ) {quote : UInt8} {text : Bytes} (h : quote ∉ text)
    (rest : Bytes) : (quoted make quote (quote :: (text ++ quote :: rest))).run =
      .success (make text) (.after (quote :: (text ++ quote :: rest)) (text.length + 2)) := by
  have htext : ∀ b ∈ text, (b != quote) = true := by
    intro b hmem
    simpa using ne_of_mem_of_not_mem hmem h
  have hcontent : (text ++ quote :: rest).takeWhile (· != quote) = text := by
    rw [List.takeWhile_append_of_pos htext, List.takeWhile_cons_of_neg (by simp), List.append_nil]
  have hclosed : text.length < (text ++ quote :: rest).length := by simp
  simp only [quoted, if_true, hcontent, if_pos hclosed]
  rfl

theorem quoted_of_open (make : Bytes → τ) {quote : UInt8} {rest : Bytes} (h : quote ∉ rest) :
    (quoted make quote (quote :: rest)).run = .failed (.ofAscii "unterminated string literal") := by
  have hcontent : rest.takeWhile (· != quote) = rest := by
    refine List.takeWhile_eq_self_iff.2 fun b hmem => ?_
    simpa using ne_of_mem_of_not_mem hmem h
  simp only [quoted, if_true, hcontent, if_neg (Nat.lt_irrefl rest.length)]
  rfl

theorem character_of_find {table : List (UInt8 × τ)} {entry : UInt8 × τ}
    (h : table.find? (fun entry => entry.1 == b) = some entry) (rest : Bytes) :
    (character table (b :: rest)).run = .success entry.2 (.after (b :: rest) 1) := by
  simp only [character, h]
  rfl

theorem byteClass_of_accept {accept : UInt8 → Bool} (make : UInt8 → τ) (h : accept b = true)
    (rest : Bytes) :
    (byteClass accept make (b :: rest)).run = .success (make b) (.after (b :: rest) 1) := by
  simp only [byteClass, h]
  rfl

end Recognizer

end ShiftReduce
