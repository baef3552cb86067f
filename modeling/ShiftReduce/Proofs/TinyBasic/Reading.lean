import ShiftReduce.Proofs.Lexer.Lexing
import ShiftReduce.Proofs.TinyBasic.Lexer

/-!
# What the lexer of BASIC reads

An input that is not empty begins in one of three ways: with the bytes of a token
(`Token.ReadFrom`), with bytes that the lexer fails at (`Refused`), or with a byte that it skips
(`Plain`). There is no fourth way (`begins`), and the lexer decides accordingly. So what it says
tells in turn what the input begins with (`readFrom_of_decides`, `refused_of_decides`,
`plain_of_ignores`).

Runs of letters and of digits are read to their end, which is why both relations say what is behind
the bytes.

A token closes every string that it opens, and no quote is skipped. So an even number of quotes is
before each offset that the lexer gets to (`Steps.even_quotes`).
-/

namespace ShiftReduce.TinyBasic

open Recognizer

variable {b : UInt8} {input bytes rest message : Bytes} {token : Token}

/-! ## Beginnings -/

/-- The bytes that a token is read from, and what is behind them. -/
inductive Token.ReadFrom : Token → Bytes → Bytes → Prop
  | string {text rest : Bytes} (h : quote ∉ text) :
      ReadFrom (.string text) (quote :: (text ++ [quote])) rest
  | keyword {word : Keyword} {run rest : Bytes} (hrun : ∀ b ∈ run, Ascii.isAlpha b = true)
      (hstop : ∀ b ∈ rest.head?, Ascii.isAlpha b = false)
      (hfold : Ascii.equalFold run word.name = true) : ReadFrom (.keyword word) run rest
  | mark (mark : Punctuator) {rest : Bytes} : ReadFrom (.punctuator mark) [mark.byte] rest
  | number {digits rest : Bytes} (hne : digits ≠ [])
      (hdigits : ∀ b ∈ digits, Ascii.isDigit b = true)
      (hstop : ∀ b ∈ rest.head?, Ascii.isDigit b = false)
      (hle : digitsValue digits ≤ IntegerType.greatest .unsigned64) :
      ReadFrom (.number (.ofNat (digitsValue digits))) digits rest
  | letter {b : UInt8} {rest : Bytes} (hletter : Ascii.isAlpha b = true)
      (hnone : ∀ word : Keyword,
        Ascii.equalFold ((b :: rest).takeWhile Ascii.isAlpha) word.name = false) :
      ReadFrom (.ofLetter b) [b] rest
  | newline {rest : Bytes} : ReadFrom .newline [Bytes.lineFeed] rest

/-- The message about bytes that are neither a token nor skipped, and what is behind the bytes. -/
inductive Refused : Bytes → Bytes → Bytes → Prop
  | unterminated {rest : Bytes} (h : quote ∉ rest) :
      Refused (.ofAscii "unterminated string literal") [quote] rest
  | outOfRange {digits rest : Bytes} (hne : digits ≠ [])
      (hdigits : ∀ b ∈ digits, Ascii.isDigit b = true)
      (hstop : ∀ b ∈ rest.head?, Ascii.isDigit b = false)
      (hlt : IntegerType.greatest .unsigned64 < digitsValue digits) :
      Refused (.ofAscii "integer literal out of range: " ++ digits) digits rest

theorem Token.ReadFrom.decides (h : token.ReadFrom bytes rest) :
    lexer.Decides (bytes ++ rest) (.success token (.after (bytes ++ rest) bytes.length)) := by
  cases h with
  | string hquote =>
    have hstring := lexer_decides_string hquote rest
    simpa using hstring
  | keyword hrun hstop hfold => exact lexer_decides_keyword hrun hstop hfold
  | mark mark => exact lexer_decides_mark mark rest
  | number hne hdigits hstop hle => exact lexer_decides_number hne hdigits hstop hle
  | newline => exact lexer_decides_newline rest
  | @letter b _ hletter hnone =>
    have hrun : ∀ c ∈ b :: rest.takeWhile Ascii.isAlpha, Ascii.isAlpha c = true :=
      List.forall_mem_cons.2 ⟨hletter, List.all_eq_true.1 List.all_takeWhile⟩
    rw [List.takeWhile_cons_of_pos hletter] at hnone
    have hdecides := lexer_decides_letter hrun (Ascii.eq_false_of_head?_dropWhile _ rest) hnone
    rwa [List.takeWhile_append_dropWhile] at hdecides

theorem Token.ReadFrom.ne_nil (h : token.ReadFrom bytes rest) : bytes ≠ [] := by
  cases h with
  | @keyword word _ _ hrun hstop hfold =>
    have hlength := Keyword.length_of_fold hfold
    have := word.one_lt_length_name
    exact List.ne_nil_of_length_pos (by omega)
  | number hne hdigits hstop hle => exact hne
  | _ => exact List.cons_ne_nil _ _

theorem Refused.decides (h : Refused message bytes rest) :
    lexer.Decides (bytes ++ rest) (.failed message) := by
  cases h with
  | unterminated hquote => exact lexer_decides_unterminated hquote
  | outOfRange hne hdigits hstop hlt => exact lexer_decides_outOfRange hne hdigits hstop hlt

/-! ## Every input -/

inductive Begins : Bytes → Prop
  | token {token : Token} {bytes rest : Bytes} (h : token.ReadFrom bytes rest) :
      Begins (bytes ++ rest)
  | refused {message bytes rest : Bytes} (h : Refused message bytes rest) : Begins (bytes ++ rest)
  | plain {b : UInt8} (h : Plain b) (rest : Bytes) : Begins (b :: rest)

theorem begins_of_isAlpha (h : Ascii.isAlpha b = true) (rest : Bytes) : Begins (b :: rest) := by
  by_cases hword : ∃ word : Keyword,
      Ascii.equalFold ((b :: rest).takeWhile Ascii.isAlpha) word.name = true
  · obtain ⟨word, hfold⟩ := hword
    rw [← List.takeWhile_append_dropWhile (p := Ascii.isAlpha) (l := b :: rest)]
    exact .token (.keyword (List.all_eq_true.1 List.all_takeWhile)
      (Ascii.eq_false_of_head?_dropWhile _ _) hfold)
  · have hletter : (Token.ofLetter b).ReadFrom [b] rest := .letter h (by simpa using hword)
    exact .token hletter

theorem begins_of_isDigit (h : Ascii.isDigit b = true) (rest : Bytes) : Begins (b :: rest) := by
  have hne : (b :: rest).takeWhile Ascii.isDigit ≠ [] := by
    rw [List.takeWhile_cons_of_pos h]
    exact List.cons_ne_nil _ _
  have hdigits : ∀ c ∈ (b :: rest).takeWhile Ascii.isDigit, Ascii.isDigit c = true :=
    List.all_eq_true.1 List.all_takeWhile
  have hstop := Ascii.eq_false_of_head?_dropWhile Ascii.isDigit (b :: rest)
  rw [← List.takeWhile_append_dropWhile (p := Ascii.isDigit) (l := b :: rest)]
  rcases Nat.lt_or_ge (IntegerType.greatest .unsigned64)
    (digitsValue ((b :: rest).takeWhile Ascii.isDigit)) with hlt | hle
  · exact .refused (.outOfRange hne hdigits hstop hlt)
  · exact .token (.number hne hdigits hstop hle)

theorem begins_of_quote (rest : Bytes) : Begins (quote :: rest) := by
  by_cases hclosed : quote ∈ rest
  · obtain ⟨text, after, rfl, hquote⟩ := List.eq_append_cons_of_mem hclosed
    have hstring : Begins (quote :: (text ++ [quote]) ++ after) := .token (.string hquote)
    simpa using hstring
  · exact .refused (.unterminated hclosed)

theorem begins (h : input ≠ []) : Begins input := by
  obtain ⟨b, rest, rfl⟩ := List.exists_cons_of_ne_nil h
  by_cases hquote : b = quote
  · exact hquote ▸ begins_of_quote rest
  by_cases hletter : Ascii.isAlpha b = true
  · exact begins_of_isAlpha hletter rest
  by_cases hdigit : Ascii.isDigit b = true
  · exact begins_of_isDigit hdigit rest
  by_cases hmark : ∃ mark : Punctuator, mark.byte = b
  · obtain ⟨mark, rfl⟩ := hmark
    exact .token (.mark mark)
  by_cases hfeed : b = Bytes.lineFeed
  · exact hfeed ▸ .token .newline
  · have halnum : Ascii.isAlnum b = false := by simp [Ascii.isAlnum, hletter, hdigit]
    exact .plain ⟨hquote, halnum, not_exists.1 hmark, hfeed⟩ rest

/-! ## What a decision tells -/

theorem lexer_ignores_nil : lexer.Ignores [] := by
  unfold Lexer.Ignores lexer
  simp only [List.forall_mem_cons, List.not_mem_nil, false_implies, implies_true, and_true]
  exact ⟨rfl, rfl, rfl, rfl, rfl, rfl⟩

theorem begins_of_decides {decision : Outcome Token} (h : lexer.Decides input decision) :
    Begins input :=
  begins fun hnil => h.not_ignores (hnil ▸ lexer_ignores_nil)

/-- What the lexer takes from an input is what its token is read from. -/
theorem readFrom_of_decides {remainder : Remainder}
    (h : lexer.Decides input (.success token remainder)) :
    ∃ bytes, token.ReadFrom bytes remainder.text ∧ input = bytes ++ remainder.text := by
  cases begins_of_decides h with
  | token hread =>
    cases h.unique hread.decides
    rw [Remainder.after, List.drop_left]
    exact ⟨_, hread, rfl⟩
  | refused hrefused => cases h.unique hrefused.decides
  | plain hplain rest => exact absurd (lexer_ignores_of_plain hplain rest) h.not_ignores

theorem refused_of_decides (h : lexer.Decides input (.failed message)) :
    ∃ bytes rest, Refused message bytes rest ∧ input = bytes ++ rest := by
  cases begins_of_decides h with
  | token hread => cases h.unique hread.decides
  | refused hrefused =>
    cases h.unique hrefused.decides
    exact ⟨_, _, hrefused, rfl⟩
  | plain hplain rest => exact absurd (lexer_ignores_of_plain hplain rest) h.not_ignores

theorem plain_of_ignores (h : lexer.Ignores (b :: rest)) : Plain b := by
  have hbegins : Begins (b :: rest) := begins (List.cons_ne_nil b rest)
  generalize hinput : b :: rest = input at h hbegins
  cases hbegins with
  | token hread => exact absurd h hread.decides.not_ignores
  | refused hrefused => exact absurd h hrefused.decides.not_ignores
  | plain hplain _ =>
    cases hinput
    exact hplain

/-! ## Steps of a lexing -/

/-- Either the bytes are quotes around a text without quotes, or none of them is a quote. -/
theorem Token.ReadFrom.even_quotes (h : token.ReadFrom bytes rest) :
    bytes.count quote % 2 = 0 := by
  have hnone (hbytes : ∀ b ∈ bytes, b ≠ quote) : bytes.count quote % 2 = 0 := by
    rw [List.count_eq_zero.2 fun hmem => hbytes _ hmem rfl]
  cases h with
  | string hquote => simp [List.count_eq_zero.2 hquote]
  | keyword hrun hstop hfold =>
    exact hnone fun b hmem => ne_quote_of_isAlnum (isAlnum_of_isAlpha (hrun b hmem))
  | mark mark => cases mark <;> rfl
  | number hne hdigits hstop hle =>
    exact hnone fun b hmem => ne_quote_of_isAlnum (isAlnum_of_isDigit (hdigits b hmem))
  | letter hletter hnone' =>
    exact hnone (List.forall_mem_singleton.2 (ne_quote_of_isAlnum (isAlnum_of_isAlpha hletter)))
  | newline => rfl

section Steps

variable {text : Bytes} {start : Nat}

theorem exists_of_skip (hlt : start < text.length) (hignores : lexer.Ignores (text.drop start)) :
    ∃ b, Plain b ∧ text.take (start + 1) = text.take start ++ [b] ∧
      text.drop start = b :: text.drop (start + 1) := by
  have hdrop := List.drop_eq_getElem_cons hlt
  rw [hdrop] at hignores
  exact ⟨_, plain_of_ignores hignores, List.take_succ_eq_append_getElem hlt, hdrop⟩

/-- What is taken are the bytes that the token is read from. -/
theorem exists_of_take {n : Nat} {remainder : Remainder} (hle : start + n ≤ text.length)
    (hdecides : lexer.Decides (text.drop start) (.success token remainder))
    (hremainder : remainder.text = text.drop (start + n)) :
    ∃ bytes, token.ReadFrom bytes (text.drop (start + n)) ∧ bytes.length = n ∧
      text.take (start + n) = text.take start ++ bytes ∧
      text.drop start = bytes ++ text.drop (start + n) := by
  obtain ⟨bytes, hread, hinput⟩ := readFrom_of_decides hdecides
  rw [hremainder] at hread hinput
  have hlength : bytes.length = n := by
    have htotal := congrArg List.length hinput
    rw [List.length_append, List.length_drop, List.length_drop] at htotal
    omega
  have hbytes : (text.drop start).take n = bytes := by
    rw [hinput, ← hlength, List.take_left]
  exact ⟨bytes, hread, hlength, by rw [List.take_add, hbytes], hinput⟩

/-- The lexer only gets to offsets that are outside of strings. -/
theorem Steps.even_quotes {final : Nat} {tokens : List (Token × Range)}
    (h : Lexing.From.Steps lexer text final start tokens)
    (heven : (text.take start).count quote % 2 = 0) :
    (∀ entry ∈ tokens, (text.take entry.2.index).count quote % 2 = 0) ∧
      (text.take final).count quote % 2 = 0 := by
  induction h with
  | stop => exact ⟨nofun, heven⟩
  | skip hlt hignores _ ih =>
    obtain ⟨b, hplain, htake, -⟩ := exists_of_skip hlt hignores
    refine ih ?_
    rwa [htake, List.count_append, List.count_singleton, if_neg (by simpa using hplain.quote)]
  | take hle hdecides hremainder _ ih =>
    obtain ⟨bytes, hread, -, htake, -⟩ := exists_of_take hle hdecides hremainder
    obtain ⟨htokens, hfinal⟩ := ih (by
      rw [htake, List.count_append, Nat.add_mod, heven, hread.even_quotes])
    exact ⟨List.forall_mem_cons.2 ⟨heven, htokens⟩, hfinal⟩

/-- The bytes in the range of a token are those that it is read from. -/
theorem exists_readFrom {lexing : Lexing Token} (h : lexing.From lexer text start)
    {entry : Token × Range} (hmem : entry ∈ lexing.tokens) :
    ∃ bytes, entry.1.ReadFrom bytes (text.drop entry.2.stop) ∧ bytes.length = entry.2.size ∧
      text.drop entry.2.index = bytes ++ text.drop entry.2.stop := by
  obtain ⟨remainder, hdecides, hremainder⟩ := h.decided entry hmem
  have hle : entry.2.index + entry.2.size ≤ text.length :=
    Nat.le_trans (h.inside entry hmem).2.2 h.final_le
  obtain ⟨bytes, hread, hlength, -, hdrop⟩ := exists_of_take hle hdecides hremainder
  exact ⟨bytes, hread, hlength, hdrop⟩

end Steps

end ShiftReduce.TinyBasic
