import Mathlib.Data.List.Basic
import ShiftReduce.Proofs.Lexer.Tokens
import ShiftReduce.Proofs.TinyBasic.Reading

/-!
# Which texts the lexer of BASIC refuses

A text has a fault where it has an odd number of quotes, at the last of them, and where a number
outside of strings does not fit into 64 bits (`Fault`). That is all that can be wrong with it, and
the fault with the least offset is the one reported (`tokenize_decided_by_faults`).

The offsets that the lexer gets to are outside of strings, never between two digits, and behind no
fault (`Clear`). Bytes that are skipped keep it so, and so do the bytes of a token, because no fault
begins in them (`Token.ReadFrom.not_fault`). Where the lexer fails is a fault then
(`Clear.fault_of_refused`).
-/

namespace ShiftReduce.TinyBasic

open Recognizer

variable {ω : Type} {text before bytes rest message : Bytes} {token : Token}

/-! ## Faults -/

/-- The number that digits stand for. -/
def numberOf (digits : Bytes) : Nat :=
  Nat.ofDigits 10 (digits.reverse.map fun d => d.toNat - 0x30)

/-- Digits with something before and something behind them, as many as there are in a row. -/
structure DigitRun (before digits rest : Bytes) : Prop where
  ne_nil : digits ≠ []
  digits : ∀ b ∈ digits, Ascii.isDigit b = true
  starts : ∀ b ∈ before.getLast?, Ascii.isDigit b = false
  ends : ∀ b ∈ rest.head?, Ascii.isDigit b = false

/-- What is wrong with a text, between the bytes before it and those from there on. -/
inductive Fault : Bytes → Bytes → Bytes → Prop
  | unterminated {before rest : Bytes} (hodd : (before ++ quote :: rest).count quote % 2 = 1)
      (hlast : quote ∉ rest) :
      Fault before (quote :: rest) (.ofAscii "unterminated string literal")
  | outOfRange {before digits rest : Bytes} (houtside : before.count quote % 2 = 0)
      (hrun : DigitRun before digits rest) (hlarge : 2 ^ 64 ≤ numberOf digits) :
      Fault before (digits ++ rest) (.ofAscii "integer literal out of range: " ++ digits)

/-- Where a run of digits begins there is no other run to its end. -/
theorem DigitRun.eq_run {digits rest run more : Bytes} (h : DigitRun before digits rest)
    (hrun : ∀ b ∈ run, Ascii.isDigit b = true) (hstop : ∀ b ∈ more.head?, Ascii.isDigit b = false)
    (htext : run ++ more = digits ++ rest) : run = digits := by
  rw [← Ascii.takeWhile_run hrun hstop, htext, Ascii.takeWhile_run h.digits h.ends]

theorem greatest_lt_digitsValue_iff {digits : Bytes}
    (hdigits : ∀ b ∈ digits, Ascii.isDigit b = true) :
    IntegerType.greatest .unsigned64 < digitsValue digits ↔ 2 ^ 64 ≤ numberOf digits := by
  have hgreatest : IntegerType.greatest .unsigned64 + 1 = 2 ^ 64 := IntegerType.greatest_succ _
  rw [digitsValue_eq_ofDigits hdigits, ← hgreatest]
  exact Iff.rfl

namespace Fault

theorem ne_nil (h : Fault before rest message) : rest ≠ [] := by
  cases h with
  | unterminated hodd hlast => exact List.cons_ne_nil _ _
  | outOfRange houtside hrun hlarge => exact List.append_ne_nil_of_left_ne_nil hrun.ne_nil _

/-- A fault is outside of strings. -/
theorem outside (h : Fault before rest message) : before.count quote % 2 = 0 := by
  cases h with
  | unterminated hodd hlast =>
    rw [List.count_append, List.count_cons_self, List.count_eq_zero.2 hlast] at hodd
    omega
  | outOfRange houtside hrun hlarge => exact houtside

/-- A fault begins with a quote, the last one, or with a digit that is the first of its number. -/
theorem begins {b : UInt8} (h : Fault before (b :: rest) message) :
    b = quote ∧ quote ∉ rest ∨
      Ascii.isDigit b = true ∧ ∀ c ∈ before.getLast?, Ascii.isDigit c = false := by
  generalize hinput : b :: rest = input at h
  cases h with
  | unterminated hodd hlast =>
    cases hinput
    exact .inl ⟨rfl, hlast⟩
  | @outOfRange digits _ houtside hrun hlarge =>
    obtain ⟨d, digits, rfl⟩ := List.exists_cons_of_ne_nil hrun.ne_nil
    cases hinput
    exact .inr ⟨hrun.digits b List.mem_cons_self, hrun.starts⟩

end Fault

/-! ## Tokens have no faults -/

section Token

variable {pre post : Bytes} (hne : post ≠ [])

include hne

theorem not_fault_of_plain (hquote : ∀ b ∈ pre ++ post, b ≠ quote)
    (hdigit : ∀ b ∈ pre ++ post, Ascii.isDigit b = false) :
    ¬ Fault (before ++ pre) (post ++ rest) message := by
  obtain ⟨b, post, rfl⟩ := List.exists_cons_of_ne_nil hne
  have hmem : b ∈ pre ++ b :: post := by simp
  intro hfault
  rcases hfault.begins with ⟨hb, -⟩ | ⟨hb, -⟩
  · exact hquote b hmem hb
  · exact nomatch (hdigit b hmem).symm.trans hb

/-- The first quote of a string is not the last of the text, and the rest is inside of a string. -/
theorem not_fault_of_string {text : Bytes} (hquote : quote ∉ text)
    (heven : before.count quote % 2 = 0) (hbytes : quote :: (text ++ [quote]) = pre ++ post) :
    ¬ Fault (before ++ pre) (post ++ rest) message := by
  intro hfault
  cases pre with
  | nil =>
    rw [List.nil_append] at hbytes
    rw [← hbytes] at hfault
    rcases hfault.begins with ⟨-, hlast⟩ | ⟨hdigit, -⟩
    · exact hlast (by simp)
    · cases hdigit
  | cons q pre =>
    obtain ⟨post, last, rfl⟩ := (List.eq_nil_or_concat' post).resolve_left hne
    obtain ⟨rfl, htext⟩ := List.cons.inj hbytes
    have hsplit : text ++ [quote] = (pre ++ post) ++ [last] := htext.trans (by simp)
    obtain ⟨rfl, -⟩ := List.append_inj' hsplit rfl
    have houtside := hfault.outside
    rw [List.count_append, List.count_cons_self,
      List.count_eq_zero.2 fun hmem => hquote (List.mem_append_left _ hmem)] at houtside
    omega

/-- A number is not entered in the middle, and as a whole it is not too large. -/
theorem not_fault_of_number {digits : Bytes} (hdigits : ∀ b ∈ digits, Ascii.isDigit b = true)
    (hstop : ∀ b ∈ rest.head?, Ascii.isDigit b = false)
    (hle : digitsValue digits ≤ IntegerType.greatest .unsigned64) (hbytes : digits = pre ++ post) :
    ¬ Fault (before ++ pre) (post ++ rest) message := by
  intro hfault
  rcases List.eq_nil_or_concat' pre with rfl | ⟨pre, last, rfl⟩
  · obtain rfl : digits = post := hbytes
    generalize hinput : digits ++ rest = input at hfault
    cases hfault with
    | unterminated hodd hlast =>
      obtain ⟨d, digits, rfl⟩ := List.exists_cons_of_ne_nil hne
      cases hinput
      exact nomatch hdigits quote List.mem_cons_self
    | outOfRange houtside hrun hlarge =>
      obtain rfl := hrun.eq_run hdigits hstop hinput
      exact absurd hle (Nat.not_le_of_lt ((greatest_lt_digitsValue_iff hdigits).2 hlarge))
  · obtain ⟨b, post, rfl⟩ := List.exists_cons_of_ne_nil hne
    have hlast : Ascii.isDigit last = true := hdigits last (by simp [hbytes])
    rcases hfault.begins with ⟨rfl, -⟩ | ⟨-, hstarts⟩
    · exact nomatch hdigits quote (by simp [hbytes])
    · exact nomatch (hstarts last (by simp)).symm.trans hlast

/-- No fault begins in the bytes of a token. -/
theorem Token.ReadFrom.not_fault (h : token.ReadFrom (pre ++ post) rest)
    (heven : before.count quote % 2 = 0) : ¬ Fault (before ++ pre) (post ++ rest) message := by
  generalize hbytes : pre ++ post = bytes at h
  cases h with
  | string hquote => exact not_fault_of_string hne hquote heven hbytes.symm
  | number _ hdigits hstop hle => exact not_fault_of_number hne hdigits hstop hle hbytes.symm
  | keyword hrun =>
    rw [← hbytes] at hrun
    exact not_fault_of_plain hne
      (fun b hmem => ne_quote_of_isAlnum (isAlnum_of_isAlpha (hrun b hmem)))
      fun b hmem => isDigit_of_isAlpha (hrun b hmem)
  | letter hletter =>
    refine not_fault_of_plain hne ?_ ?_ <;> rw [hbytes, List.forall_mem_singleton]
    · exact ne_quote_of_isAlnum (isAlnum_of_isAlpha hletter)
    · exact isDigit_of_isAlpha hletter
  | mark mark =>
    refine not_fault_of_plain hne ?_ ?_ <;> rw [hbytes, List.forall_mem_singleton] <;>
      cases mark <;> decide
  | newline =>
    refine not_fault_of_plain hne ?_ ?_ <;> rw [hbytes, List.forall_mem_singleton] <;> decide

end Token

/-! ## Offsets that the lexer gets to -/

/-- No digits stand on both sides. -/
def Severed (before rest : Bytes) : Prop :=
  (∃ b ∈ before.getLast?, Ascii.isDigit b = true) → ∀ b ∈ rest.head?, Ascii.isDigit b = false

theorem severed_of_last {b : UInt8} (h : Ascii.isDigit b = false) (before rest : Bytes) :
    Severed (before ++ [b]) rest := by
  rintro ⟨c, hc, hdigit⟩
  rw [List.getLast?_concat] at hc
  cases hc
  exact nomatch h.symm.trans hdigit

theorem Token.ReadFrom.severed (h : token.ReadFrom bytes rest) : Severed bytes rest := by
  cases h with
  | @string text _ hquote => exact severed_of_last rfl (quote :: text) rest
  | number hne hdigits hstop hle => exact fun _ => hstop
  | letter hletter => exact severed_of_last (isDigit_of_isAlpha hletter) [] rest
  | mark mark => cases mark <;> exact severed_of_last rfl [] rest
  | newline => exact severed_of_last rfl [] rest
  | keyword hrun =>
    rcases List.eq_nil_or_concat' bytes with rfl | ⟨run, last, rfl⟩
    · exact fun hlast => by simp at hlast
    · exact severed_of_last (isDigit_of_isAlpha (hrun last (by simp))) run rest

/-- An offset outside of strings, not between two digits, and behind no fault. -/
structure Clear (before rest : Bytes) : Prop where
  outside : before.count quote % 2 = 0
  severed : Severed before rest
  passed : ∀ pre post message, before = pre ++ post → post ≠ [] →
    ¬ Fault pre (post ++ rest) message

namespace Clear

theorem nil (text : Bytes) : Clear [] text where
  outside := rfl
  severed := fun h => by simp at h
  passed := fun _ _ _ hsplit hne => absurd (List.append_eq_nil_iff.1 hsplit.symm).2 hne

/-- Bytes in which no fault begins leave the offset behind them clear. -/
theorem append (h : Clear before (bytes ++ rest)) (hne : bytes ≠ [])
    (hquotes : bytes.count quote % 2 = 0) (hsevered : Severed bytes rest)
    (hfault : ∀ pre post message, bytes = pre ++ post → post ≠ [] →
      ¬ Fault (before ++ pre) (post ++ rest) message) : Clear (before ++ bytes) rest where
  outside := by
    have := h.outside
    rw [List.count_append]
    omega
  severed := by
    have hlast : (before ++ bytes).getLast? = bytes.getLast? := by
      rw [List.getLast?_append, List.getLast?_eq_some_getLast hne, Option.some_or]
    rw [Severed, hlast]
    exact hsevered
  passed := by
    intro pre post message hsplit hpost
    rcases List.append_eq_append_iff.1 hsplit with ⟨more, rfl, hbytes⟩ | ⟨more, hbefore, rfl⟩
    · exact hfault more post message hbytes hpost
    · rcases eq_or_ne more [] with rfl | hmore
      · obtain rfl : before = pre := by simpa using hbefore
        have hwhole := hfault [] bytes message rfl hne
        rwa [List.append_nil] at hwhole
      · rw [List.append_assoc]
        exact h.passed pre more message hbefore hmore

theorem skip {b : UInt8} (h : Clear before ([b] ++ rest)) (hplain : Plain b) :
    Clear (before ++ [b]) rest := by
  have hdigit : Ascii.isDigit b = false := (Bool.or_eq_false_iff.1 hplain.alnum).2
  refine h.append (List.cons_ne_nil _ _) ?_ (severed_of_last hdigit [] rest) ?_
  · rw [List.count_singleton, if_neg (by simpa using hplain.quote)]
  · intro pre post message hsplit hne
    refine not_fault_of_plain hne ?_ ?_ <;> rw [← hsplit, List.forall_mem_singleton]
    · exact hplain.quote
    · exact hdigit

theorem take (h : Clear before (bytes ++ rest)) (hread : token.ReadFrom bytes rest) :
    Clear (before ++ bytes) rest := by
  refine h.append hread.ne_nil hread.even_quotes hread.severed ?_
  rintro pre post message rfl hne
  exact hread.not_fault hne h.outside

theorem steps {final start : Nat} {tokens : List (Token × Range)}
    (hsteps : Lexing.From.Steps lexer text final start tokens)
    (h : Clear (text.take start) (text.drop start)) :
    Clear (text.take final) (text.drop final) := by
  induction hsteps with
  | stop => exact h
  | skip hlt hignores _ ih =>
    obtain ⟨b, hplain, htake, hdrop⟩ := exists_of_skip hlt hignores
    rw [hdrop] at h
    exact ih (htake ▸ h.skip hplain)
  | take hle hdecides hremainder _ ih =>
    obtain ⟨bytes, hread, -, htake, hdrop⟩ := exists_of_take hle hdecides hremainder
    rw [hdrop] at h
    exact ih (htake ▸ h.take hread)

/-- What the lexer fails at is a fault. -/
theorem fault_of_refused (h : Clear before (bytes ++ rest))
    (hrefused : Refused message bytes rest) : Fault before (bytes ++ rest) message := by
  cases hrefused with
  | unterminated hlast =>
    have hcount : (before ++ quote :: rest).count quote = before.count quote + 1 := by
      rw [List.count_append, List.count_cons_self, List.count_eq_zero.2 hlast]
    have hodd : (before ++ quote :: rest).count quote % 2 = 1 := by
      have := h.outside
      omega
    exact .unterminated hodd hlast
  | outOfRange hne hdigits hstop hlt =>
    refine .outOfRange h.outside ⟨hne, hdigits, ?_, hstop⟩
      ((greatest_lt_digitsValue_iff hdigits).1 hlt)
    intro b hb
    obtain ⟨d, digits, rfl⟩ := List.exists_cons_of_ne_nil hne
    refine Bool.eq_false_iff.2 fun hdigit => ?_
    exact nomatch (h.severed ⟨b, hb, hdigit⟩ d rfl).symm.trans (hdigits d List.mem_cons_self)

/-- No fault comes before the offset. -/
theorem length_le (h : Clear before rest) {pre post : Bytes} (hfault : Fault pre post message)
    (htext : pre ++ post = before ++ rest) : before.length ≤ pre.length := by
  rcases List.append_eq_append_iff.1 htext with ⟨more, rfl, rfl⟩ | ⟨more, rfl, -⟩
  · rcases eq_or_ne more [] with rfl | hmore
    · rw [List.append_nil]
    · exact absurd hfault (h.passed pre more message rfl hmore)
  · rw [List.length_append]
    exact Nat.le_add_right _ _

end Clear

/-! ## Tokenizing -/

/-- There is an even number of quotes in the text, and each number outside of strings fits into 64
bits. -/
structure Faultless (text : Bytes) : Prop where
  quotes : text.count quote % 2 = 0
  numbers : ∀ before digits rest, text = before ++ digits ++ rest → before.count quote % 2 = 0 →
    DigitRun before digits rest → numberOf digits < 2 ^ 64

theorem faultless_iff :
    Faultless text ↔
      ∀ before rest message, text = before ++ rest → ¬ Fault before rest message := by
  constructor
  · rintro h before rest message rfl hfault
    cases hfault with
    | unterminated hodd hlast =>
      have := h.quotes
      omega
    | outOfRange houtside hrun hlarge =>
      exact absurd hlarge (Nat.not_le_of_lt (h.numbers _ _ _ (by simp) houtside hrun))
  · intro h
    constructor
    · refine Nat.mod_two_ne_one.1 fun hodd => ?_
      have hmem : quote ∈ text := List.count_pos_iff.1 (by omega)
      obtain ⟨rest, before, htext, hlast⟩ := List.eq_append_cons_of_mem (List.mem_reverse.2 hmem)
      have htext : text = before.reverse ++ quote :: rest.reverse := by
        rw [← text.reverse_reverse, htext]
        simp
      exact h _ _ _ htext (.unterminated (htext ▸ hodd) (by simpa using hlast))
    · rintro before digits rest rfl houtside hrun
      refine Nat.lt_of_not_le fun hlarge => ?_
      exact h before (digits ++ rest) _ (by simp) (.outOfRange houtside hrun hlarge)

/-- A text is tokenized exactly if it is faultless. Any other is refused because of the fault with
the least offset: the last of an odd number of quotes, or the first number outside of strings that
is too large, whichever comes first. -/
theorem tokenize_decided_by_faults (text : Bytes) (world : ω) :
    let scene : Scene Bool ω := { subject := false, world }
    let outcome := (lexer.lift.tokenize text).run scene
    ((∃ tokens, outcome = (.ok tokens, scene)) ↔ Faultless text) ∧
    (¬ Faultless text → ∃ before rest message, text = before ++ rest ∧ Fault before rest message ∧
      (∀ pre post other, text = pre ++ post → Fault pre post other → before.length ≤ pre.length) ∧
      outcome = (.error (.lexical (.at lexer.tabs text before.length message)), scene)) := by
  intro scene outcome
  obtain ⟨lexing, d, hlexing, hdrain, htokens, hfault⟩ :=
    Stream.exists_drain_lift lexer_lineBound.leavesSuffixes (show scene.subject = false from rfl)
      text
  have houtcome : outcome = (d.settle d.tokens, scene) := Lexer.run_tokenize hdrain
  have hclear : Clear (text.take lexing.final) (text.drop lexing.final) :=
    Clear.steps hlexing.steps (Clear.nil text)
  cases hcomplaint : lexing.complaint? with
  | none =>
    rw [hcomplaint] at hfault
    rw [Drained.settle_of_no_fault hfault] at houtcome
    rw [hlexing.ended hcomplaint, List.take_length, List.drop_length] at hclear
    have hfaultless : Faultless text := by
      refine faultless_iff.2 fun before rest message htext hfault => ?_
      refine hclear.passed before rest message htext hfault.ne_nil ?_
      rwa [List.append_nil]
    exact ⟨iff_of_true ⟨_, houtcome⟩ hfaultless, fun h => absurd hfaultless h⟩
  | some complaint =>
    obtain ⟨hlt, message, hdecides, rfl⟩ := hlexing.complaint complaint hcomplaint
    obtain ⟨bytes, rest, hrefused, hdrop⟩ := refused_of_decides hdecides
    rw [hcomplaint] at hfault
    rw [Drained.settle_of_fault hfault] at houtcome
    rw [hdrop] at hclear
    have htext : text = text.take lexing.final ++ (bytes ++ rest) := by
      rw [← hdrop, List.take_append_drop]
    have hfound := hclear.fault_of_refused hrefused
    have hfaulty : ¬ Faultless text := fun h => faultless_iff.1 h _ _ _ htext hfound
    refine ⟨iff_of_false ?_ hfaulty, fun _ => ⟨_, _, message, htext, hfound, ?_, ?_⟩⟩
    · rintro ⟨tokens, htokens⟩
      exact nomatch houtcome.symm.trans htokens
    · intro pre post other hsplit hother
      exact hclear.length_le hother (hsplit.symm.trans htext)
    · rw [houtcome, List.length_take_of_le (Nat.le_of_lt hlt)]

end ShiftReduce.TinyBasic
