import ShiftReduce.Proofs.Lexer.Tokens
import ShiftReduce.Proofs.Text.Numerals
import ShiftReduce.Proofs.TinyBasic.Reading

/-!
# Writing tokens out

A list of tokens is written out with a blank behind each token (`TinyBasic.render`). The blank ends
every run of letters or digits, so what a token is written as decides for that token, whatever
follows (`TinyBasic.lexer_decides_render`), and the blank itself is skipped. Hence the lexer gets
the list back (`TinyBasic.tokenize_render`). Only a string with a quote in it would be torn apart,
and the lexer makes none.
-/

namespace ShiftReduce

variable {ω : Type}

namespace TinyBasic

/-! ## Rendering -/

/-- A token as a program has it. A string stands between quotes, and nothing escapes a quote. -/
def Token.render : Token → Bytes
  | keyword word => word.name
  | var letter => [letterByte letter]
  | number value => Bytes.decimal value.toNat
  | string text => quote :: (text ++ [quote])
  | punctuator mark => [mark.byte]
  | newline => [Bytes.lineFeed]

/-- The tokens one after the other, a blank behind each. -/
def render (tokens : List Token) : Bytes := tokens.flatMap fun token => token.render ++ [blank]

/-- A token that can be told from what it is written as: any but a string with a quote in it. -/
def Token.Renderable : Token → Prop
  | string text => quote ∉ text
  | _ => True

instance : DecidablePred Token.Renderable
  | .string text => inferInstanceAs (Decidable (quote ∉ text))
  | .keyword _ | .var _ | .number _ | .punctuator _ | .newline => .isTrue trivial

@[simp] theorem render_nil : render [] = [] := rfl

@[simp] theorem render_cons (token : Token) (tokens : List Token) :
    render (token :: tokens) = token.render ++ blank :: render tokens := by
  simp [render]

/-! ## Lexing what is rendered -/

theorem lexer_decides_render {token : Token} (h : token.Renderable) (rest : Bytes) :
    lexer.Decides (token.render ++ blank :: rest)
      (.success token (.after (token.render ++ blank :: rest) token.render.length)) := by
  have hblank : ∀ b ∈ (blank :: rest).head?, Ascii.isAlnum b = false := by
    rintro b ⟨⟩
    rfl
  have hletters : ∀ b ∈ (blank :: rest).head?, Ascii.isAlpha b = false := fun b hb =>
    (Bool.or_eq_false_iff.1 (hblank b hb)).1
  cases token with
  | keyword word =>
    exact lexer_decides_keyword word.isAlpha_name hletters (beq_self_eq_true _)
  | var letter =>
    have hdecides := lexer_decides_letter (List.forall_mem_singleton.2 (Token.isAlpha_letterByte letter))
      hletters (Keyword.equalFold_singleton (Token.letterByte letter))
    rwa [Token.ofLetter_letterByte] at hdecides
  | number value =>
    have hvalue := Bytes.digitsValue_decimal value.toNat
    have hle : value.toNat ≤ Recognizer.IntegerType.greatest .unsigned64 :=
      Nat.le_sub_one_of_lt value.toNat_lt_size
    have hnumber := lexer_decides_number (Bytes.decimal_ne_nil value.toNat)
      (Bytes.isDigit_of_mem_decimal value.toNat) (fun b hb => (Bool.or_eq_false_iff.1 (hblank b hb)).2)
      (hvalue.symm ▸ hle)
    rwa [hvalue, UInt64.ofNat_toNat] at hnumber
  | string text =>
    have hstring := lexer_decides_string h (blank :: rest)
    simpa [Token.render] using hstring
  | punctuator mark => exact lexer_decides_mark mark (blank :: rest)
  | newline => exact lexer_decides_newline (blank :: rest)

theorem renderable_of_decides {input : Bytes} {token : Token} {remainder : Remainder}
    (h : lexer.Decides input (.success token remainder)) : token.Renderable := by
  obtain ⟨bytes, hread, -⟩ := readFrom_of_decides h
  cases hread with
  | string hquote => exact hquote
  | _ => trivial

theorem Token.length_render_pos {token : Token} (h : token.Renderable) :
    0 < token.render.length := by
  cases token with
  | keyword word => exact Nat.zero_lt_of_lt word.one_lt_length_name
  | number value => exact List.length_pos_iff.2 (Bytes.decimal_ne_nil value.toNat)
  | _ => exact Nat.zero_lt_succ _

/-- Behind any text the lexing of what is rendered has the tokens that were rendered. -/
theorem exists_lexing_render {tokens : List Token} (h : ∀ token ∈ tokens, token.Renderable)
    (before : Bytes) :
    ∃ lexing : Lexing Token, lexing.From lexer (before ++ render tokens) before.length ∧
      lexing.complaint? = none ∧ lexing.tokens.map Prod.fst = tokens := by
  induction tokens generalizing before with
  | nil =>
    rw [render_nil, List.append_nil]
    exact ⟨_, .atEnd lexer before, rfl, rfl⟩
  | cons token tokens ih =>
    obtain ⟨htoken, htokens⟩ := List.forall_mem_cons.1 h
    obtain ⟨lexing, hlexing, hnone, hmap⟩ := ih htokens (before ++ token.render ++ [blank])
    have htext : before ++ token.render ++ [blank] ++ render tokens =
        before ++ render (token :: tokens) := by simp
    have hlength : (before ++ token.render ++ [blank]).length =
        before.length + token.render.length + 1 := by simp [Nat.add_assoc]
    rw [htext, hlength] at hlexing
    have hskipped := hlexing.skip (Nat.le_succ _) fun offset hge hlt => by
      obtain rfl : offset = before.length + token.render.length := by omega
      rw [List.drop_length_add_append, render_cons, List.drop_left]
      exact lexer_ignores_of_plain plain_blank _
    have hdecides : lexer.Decides ((before ++ render (token :: tokens)).drop before.length)
        (.success token (.after (render (token :: tokens)) token.render.length)) := by
      rw [List.drop_left, render_cons]
      exact lexer_decides_render htoken _
    have hremainder : (render (token :: tokens)).drop token.render.length =
        (before ++ render (token :: tokens)).drop (before.length + token.render.length) :=
      (List.drop_length_add_append _).symm
    exact ⟨_, hskipped.token (Token.length_render_pos htoken) hdecides hremainder, hnone,
      congrArg (token :: ·) hmap⟩

section Tokenize

variable {scene : Scene Bool ω} (hdown : scene.subject = false)

include hdown

/-- Writing tokens out and lexing that gives the tokens back, unless there is a quote in a string.
In particular it does so for the tokens of any text. -/
theorem tokenize_render :
    (∀ tokens : List Token, (∀ token ∈ tokens, token.Renderable) →
      (lexer.lift.tokenize (render tokens)).run scene = (.ok tokens, scene)) ∧
    ∀ (text : Bytes) (tokens : List Token) (after : Scene Bool ω),
      (lexer.lift.tokenize text).run scene = (.ok tokens, after) →
      (lexer.lift.tokenize (render tokens)).run scene = (.ok tokens, scene) := by
  have hsuffixes := lexer_lineBound.leavesSuffixes
  have hrender : ∀ tokens : List Token, (∀ token ∈ tokens, token.Renderable) →
      (lexer.lift.tokenize (render tokens)).run scene = (.ok tokens, scene) := by
    intro tokens h
    obtain ⟨lexing, hlexing, hnone, rfl⟩ := exists_lexing_render h []
    exact Lexer.run_tokenize_lift hsuffixes hdown hlexing hnone
  refine ⟨hrender, fun text tokens after htokens => hrender tokens ?_⟩
  obtain ⟨lexing, hlexing, -, rfl⟩ := Lexer.exists_lexing_of_tokenize hsuffixes hdown htokens
  rw [List.forall_mem_map]
  intro entry hmem
  obtain ⟨remainder, hdecides, -⟩ := hlexing.decided entry hmem
  exact renderable_of_decides hdecides

end Tokenize

/-- A line with a string that has a blank in it, written without any blank between its tokens and
then written out. -/
theorem tokenize_render_line :
    let scene : Scene Bool Unit := { subject := false, world := () }
    let text := Bytes.ofAscii "10print\"A B\",c\n"
    let tokens : List Token :=
      [.number 10, .keyword .print, .string (.ofAscii "A B"), .punctuator .comma, .var 2, .newline]
    (scene.subject = false ∧ (∀ token ∈ tokens, token.Renderable) ∧
      (lexer.lift.tokenize text).run scene = (.ok tokens, scene)) ∧
    render tokens = .ofAscii "10 PRINT \"A B\" , C \n " ∧
    (lexer.lift.tokenize (render tokens)).run scene = (.ok tokens, scene) := by
  have htokens : (lexer.lift.tokenize (Bytes.ofAscii "10print\"A B\",c\n")).run
      ({ subject := false, world := () } : Scene Bool Unit) =
        (.ok [.number 10, .keyword .print, .string (.ofAscii "A B"), .punctuator .comma, .var 2,
          .newline], { subject := false, world := () }) := by rfl
  have hdecimal : Bytes.decimal (10 : UInt64).toNat = .ofAscii "10" := by
    simp [Bytes.decimal, Bytes.digit, Bytes.ofAscii]
  intro scene text tokens
  have hrenderable : ∀ token ∈ tokens, token.Renderable := by decide
  have hrendered : render tokens = .ofAscii "10 PRINT \"A B\" , C \n " := by
    rw [render_cons, Token.render, hdecimal]
    rfl
  obtain ⟨-, hagain⟩ := tokenize_render (show scene.subject = false from rfl)
  exact ⟨⟨rfl, hrenderable, htokens⟩, hrendered, hagain text tokens scene htokens⟩

end TinyBasic

end ShiftReduce
