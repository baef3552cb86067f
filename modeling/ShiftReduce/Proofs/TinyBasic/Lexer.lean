import ShiftReduce.Proofs.Lexer.LineBound
import ShiftReduce.Proofs.Lexer.Stock
import ShiftReduce.TinyBasic.Lexer

/-!
# What the lexer of BASIC decides

The recognizers of the lexer are asked in a fixed order, but the first byte of an input settles
which of them can speak up: a quote, a mark, a digit and a line feed belong to one recognizer each
(`lexer_decides_string` and the lemmas after it). Only letters belong to two. A run of letters that
is a keyword goes to the keywords, and of any other run the variables take the first letter. What no
recognizer takes is ignored, a blank for instance (`lexer_ignores_of_plain`).

No recognizer looks behind a line feed (`lexer_lineBound`).
-/

namespace ShiftReduce.TinyBasic

open Recognizer

/-- The byte that opens and closes a string. -/
def quote : UInt8 := 0x22

def blank : UInt8 := 0x20

variable {b : UInt8}

/-! ## The tables -/

/-- The words of the lexer, each with its token. -/
def words : List (Bytes × Token) := Keyword.all.map fun word => (word.name, .keyword word)

/-- The marks of the lexer, each with its token. -/
def marks : List (UInt8 × Token) := Punctuator.all.map fun mark => (mark.byte, .punctuator mark)

theorem Keyword.isAlpha_name (word : Keyword) : ∀ b ∈ word.name, Ascii.isAlpha b = true := by
  apply List.all_eq_true.1
  cases word <;> decide

theorem Keyword.one_lt_length_name (word : Keyword) : 1 < word.name.length := by
  cases word <;> decide

/-- No two keywords are the same up to case. -/
theorem find?_words (word : Keyword) :
    words.find? (fun entry => Ascii.equalFold word.name entry.1) =
      some (word.name, .keyword word) := by
  cases word <;> decide

theorem find?_words_of_fold {run : Bytes} {word : Keyword}
    (h : Ascii.equalFold run word.name = true) :
    words.find? (fun entry => Ascii.equalFold run entry.1) = some (word.name, .keyword word) := by
  simp only [Ascii.equalFold, eq_of_beq h]
  exact find?_words word

theorem find?_words_of_none {run : Bytes}
    (h : ∀ word : Keyword, Ascii.equalFold run word.name = false) :
    words.find? (fun entry => Ascii.equalFold run entry.1) = none := by
  apply List.find?_eq_none.2
  intro entry hmem hfold
  obtain ⟨word, -, rfl⟩ := List.mem_map.1 hmem
  exact nomatch (h word).symm.trans hfold

/-- What is a keyword up to case is as long as its name. -/
theorem Keyword.length_of_fold {run : Bytes} {word : Keyword}
    (h : Ascii.equalFold run word.name = true) : run.length = word.name.length := by
  have hlength := congrArg List.length (eq_of_beq h)
  rwa [List.length_map, List.length_map] at hlength

/-- No keyword is a single letter. -/
theorem Keyword.equalFold_singleton (b : UInt8) (word : Keyword) :
    Ascii.equalFold [b] word.name = false := by
  refine Bool.eq_false_iff.2 fun hfold => ?_
  have hlength := length_of_fold hfold
  exact absurd word.one_lt_length_name (hlength ▸ Nat.lt_irrefl 1)

/-- No two marks are the same. -/
theorem find?_marks (mark : Punctuator) :
    marks.find? (fun entry => entry.1 == mark.byte) = some (mark.byte, .punctuator mark) := by
  cases mark <;> decide

theorem marks_ne_of_isAlnum (h : Ascii.isAlnum b = true) : ∀ entry ∈ marks, entry.1 ≠ b := by
  rintro entry hmem rfl
  have hmarks : ∀ entry ∈ marks, Ascii.isAlnum entry.1 = false := by decide
  exact nomatch (hmarks entry hmem).symm.trans h

/-! ## Bytes of one kind -/

theorem ne_quote_of_isAlnum (h : Ascii.isAlnum b = true) : b ≠ quote := by
  rintro rfl
  cases h

theorem isAlnum_of_isAlpha (h : Ascii.isAlpha b = true) : Ascii.isAlnum b = true := by
  rw [Ascii.isAlnum, h, Bool.true_or]

theorem isAlnum_of_isDigit (h : Ascii.isDigit b = true) : Ascii.isAlnum b = true := by
  rw [Ascii.isAlnum, h, Bool.or_true]

theorem isDigit_of_isAlpha (h : Ascii.isAlpha b = true) : Ascii.isDigit b = false := by
  simp only [Ascii.isAlpha, Ascii.isUpper, Ascii.isLower, Ascii.isDigit, Bool.or_eq_true,
    Bool.and_eq_true, Bool.and_eq_false_iff, decide_eq_true_eq, decide_eq_false_iff_not,
    UInt8.le_iff_toNat_le, UInt8.reduceToNat] at h ⊢
  omega

theorem isAlpha_of_isDigit (h : Ascii.isDigit b = true) : Ascii.isAlpha b = false := by
  cases hletter : Ascii.isAlpha b with
  | false => rfl
  | true => exact nomatch (isDigit_of_isAlpha hletter).symm.trans h

theorem Token.ofLetter_letterByte (letter : Fin 26) :
    ofLetter (letterByte letter) = .var letter := by
  revert letter
  decide

theorem Token.isAlpha_letterByte (letter : Fin 26) : Ascii.isAlpha (letterByte letter) = true := by
  revert letter
  decide

/-! ## Decisions -/

theorem lexer_decides_string {text : Bytes} (h : quote ∉ text) (rest : Bytes) :
    lexer.Decides (quote :: (text ++ quote :: rest)) (.success (.string text)
      (.after (quote :: (text ++ quote :: rest)) (text.length + 2))) :=
  ⟨[], _, _, rfl, by simp, quoted_of_closed _ h rest, nofun⟩

theorem lexer_decides_unterminated {rest : Bytes} (h : quote ∉ rest) :
    lexer.Decides (quote :: rest) (.failed (.ofAscii "unterminated string literal")) :=
  ⟨[], _, _, rfl, by simp, quoted_of_open _ h, nofun⟩

/-- A keyword with no letter behind it. -/
theorem lexer_decides_keyword {word : Keyword} {run rest : Bytes}
    (hrun : ∀ b ∈ run, Ascii.isAlpha b = true) (hstop : ∀ b ∈ rest.head?, Ascii.isAlpha b = false)
    (hfold : Ascii.equalFold run word.name = true) :
    lexer.Decides (run ++ rest) (.success (.keyword word) (.after (run ++ rest) run.length)) := by
  have hlength : 1 < run.length := Keyword.length_of_fold hfold ▸ word.one_lt_length_name
  have hne : run ≠ [] := List.ne_nil_of_length_pos (Nat.zero_lt_of_lt hlength)
  have hkeyword := keyword_of_run hne words hrun hstop
  rw [find?_words_of_fold hfold] at hkeyword
  refine ⟨[_], _, _, rfl, ?_, hkeyword, nofun⟩
  obtain ⟨first, more, rfl⟩ := List.exists_cons_of_ne_nil hne
  have hfirst : Ascii.isAlpha first = true := hrun first List.mem_cons_self
  rw [List.forall_mem_singleton]
  exact quoted_ignores _ (ne_quote_of_isAlnum (isAlnum_of_isAlpha hfirst)) _

theorem lexer_decides_mark (mark : Punctuator) (rest : Bytes) :
    lexer.Decides (mark.byte :: rest)
      (.success (.punctuator mark) (.after (mark.byte :: rest) 1)) := by
  have hquote : mark.byte ≠ quote := by cases mark <;> decide
  have hletter : Ascii.isAlpha mark.byte = false := by cases mark <;> decide
  refine ⟨[_, _], _, _, rfl, ?_, character_of_find (find?_marks mark) rest, nofun⟩
  rw [List.forall_mem_cons, List.forall_mem_singleton]
  exact ⟨quoted_ignores _ hquote _, keyword_ignores _ hletter _⟩

section Number

variable {digits rest : Bytes} (hne : digits ≠ [])
  (hdigits : ∀ b ∈ digits, Ascii.isDigit b = true)
  (hstop : ∀ b ∈ rest.head?, Ascii.isDigit b = false)

include hne hdigits hstop

/-- Digits with no digit behind them are for the recognizer of integers to decide on. -/
theorem lexer_decides_digits :
    lexer.Decides (digits ++ rest) (integer .unsigned64 (fun value => Token.number (.ofNat value))
      (digits ++ rest)).run := by
  refine ⟨[_, _, _], _, _, rfl, ?_, rfl, ?_⟩
  · obtain ⟨first, more, rfl⟩ := List.exists_cons_of_ne_nil hne
    have hfirst : Ascii.isDigit first = true := hdigits first List.mem_cons_self
    have halnum : Ascii.isAlnum first = true := isAlnum_of_isDigit hfirst
    rw [List.forall_mem_cons, List.forall_mem_cons, List.forall_mem_singleton]
    exact ⟨quoted_ignores _ (ne_quote_of_isAlnum halnum) _,
      keyword_ignores _ (isAlpha_of_isDigit hfirst) _,
      character_ignores (marks_ne_of_isAlnum halnum) _⟩
  · rw [integer_of_run hne _ _ hdigits hstop]
    split <;> exact nofun

/-- A number that 64 bits hold. -/
theorem lexer_decides_number (hle : digitsValue digits ≤ IntegerType.greatest .unsigned64) :
    lexer.Decides (digits ++ rest) (.success (.number (.ofNat (digitsValue digits)))
      (.after (digits ++ rest) digits.length)) := by
  have hdecides := lexer_decides_digits hne hdigits hstop
  rwa [integer_of_run hne _ _ hdigits hstop, if_pos hle] at hdecides

theorem lexer_decides_outOfRange (hlt : IntegerType.greatest .unsigned64 < digitsValue digits) :
    lexer.Decides (digits ++ rest)
      (.failed (.ofAscii "integer literal out of range: " ++ digits)) := by
  have hdecides := lexer_decides_digits hne hdigits hstop
  rwa [integer_of_run hne _ _ hdigits hstop, if_neg (Nat.not_le_of_lt hlt)] at hdecides

end Number

/-- The first letter of letters that are no keyword. -/
theorem lexer_decides_letter {letter : UInt8} {run rest : Bytes}
    (hrun : ∀ b ∈ letter :: run, Ascii.isAlpha b = true)
    (hstop : ∀ b ∈ rest.head?, Ascii.isAlpha b = false)
    (hnone : ∀ word : Keyword, Ascii.equalFold (letter :: run) word.name = false) :
    lexer.Decides (letter :: (run ++ rest))
      (.success (.ofLetter letter) (.after (letter :: (run ++ rest)) 1)) := by
  have hletter : Ascii.isAlpha letter = true := hrun letter List.mem_cons_self
  have halnum : Ascii.isAlnum letter = true := isAlnum_of_isAlpha hletter
  have hkeyword := keyword_of_run (List.cons_ne_nil letter run) words hrun hstop
  rw [find?_words_of_none hnone] at hkeyword
  refine ⟨[_, _, _, _], _, _, rfl, ?_, byteClass_of_accept _ hletter _, nofun⟩
  rw [List.forall_mem_cons, List.forall_mem_cons, List.forall_mem_cons, List.forall_mem_singleton]
  exact ⟨quoted_ignores _ (ne_quote_of_isAlnum halnum) _, hkeyword,
    character_ignores (marks_ne_of_isAlnum halnum) _,
    integer_ignores _ _ (isDigit_of_isAlpha hletter) _⟩

theorem lexer_decides_newline (rest : Bytes) :
    lexer.Decides (Bytes.lineFeed :: rest)
      (.success .newline (.after (Bytes.lineFeed :: rest) 1)) := by
  have hfind : [(Bytes.lineFeed, Token.newline)].find? (fun entry => entry.1 == Bytes.lineFeed) =
      some (Bytes.lineFeed, Token.newline) := rfl
  refine ⟨[_, _, _, _, _], _, _, rfl, ?_, character_of_find hfind rest, nofun⟩
  simp only [List.forall_mem_cons, List.not_mem_nil, false_implies, implies_true, and_true]
  exact ⟨quoted_ignores _ (by decide) _, keyword_ignores _ rfl _, character_ignores (by decide) _,
    integer_ignores _ _ rfl _, byteClass_ignores _ rfl _⟩

/-- A byte that no recognizer takes. -/
structure Plain (b : UInt8) : Prop where
  quote : b ≠ quote
  alnum : Ascii.isAlnum b = false
  mark : ∀ mark : Punctuator, mark.byte ≠ b
  feed : b ≠ Bytes.lineFeed

theorem lexer_ignores_of_plain (h : Plain b) (rest : Bytes) : lexer.Ignores (b :: rest) := by
  obtain ⟨hletter, hdigit⟩ : Ascii.isAlpha b = false ∧ Ascii.isDigit b = false :=
    Bool.or_eq_false_iff.1 h.alnum
  have hmark : ∀ entry ∈ marks, entry.1 ≠ b := by
    intro entry hmem
    obtain ⟨mark, -, rfl⟩ := List.mem_map.1 hmem
    exact h.mark mark
  unfold Lexer.Ignores lexer
  simp only [List.forall_mem_cons, List.not_mem_nil, false_implies, implies_true, and_true]
  exact ⟨quoted_ignores _ h.quote _, keyword_ignores _ hletter _, character_ignores hmark _,
    integer_ignores _ _ hdigit _, byteClass_ignores _ hletter _,
    character_ignores (by simpa using h.feed.symm) _⟩

theorem plain_blank : Plain blank where
  quote := by decide
  alnum := rfl
  mark := fun mark => by cases mark <;> decide
  feed := by decide

/-! ## What the lexer does not do -/

theorem lexer_lineBound : lexer.LineBound := by
  have hquote : (0x22 : UInt8) ≠ Bytes.lineFeed := by decide
  intro recognizer hmem
  simp only [lexer, List.mem_cons, List.not_mem_nil, or_false] at hmem
  rcases hmem with rfl | rfl | rfl | rfl | rfl | rfl
  · exact Recognizer.quoted_lineBound _ hquote
  · exact Recognizer.keyword_lineBound _
  · exact Recognizer.character_lineBound _
  · exact Recognizer.integer_lineBound _ _
  · exact Recognizer.byteClass_lineBound _ _
  · exact Recognizer.character_lineBound _

end ShiftReduce.TinyBasic
