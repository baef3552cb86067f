import ShiftReduce.Proofs.Lexer.Tokens
import ShiftReduce.Proofs.Parse.Reached
import ShiftReduce.Proofs.Reducer.Agreement
import ShiftReduce.Proofs.Reducer.Silent
import ShiftReduce.TinyBasic.Grammar
import ShiftReduce.TinyBasic.Lexer

/-!
# Parsing a text and parsing its tokens

Parsing a text pulls a token and pushes it before it pulls the next. The lexer works on its own
state and the reducer on the other, so nothing changes if all tokens are pulled first, as long as no
predicate and no hook cuts the pushes short (`run_parseText_of_calm`): where the text can be
tokenized, parsing it is parsing its tokens, and where it cannot, the reducer is left as a reset and
the tokens before the error leave it.
-/

namespace ShiftReduce

variable {σ τ ω ν : Type}

namespace Engine

variable {e : Engine (Action (Scene (Reducer τ) ν)) τ}

/-- Using each token by pushing it is pushing all tokens. -/
theorem run_useAll_push {tokens : List τ} {scene after : Scene (Reducer τ) ν}
    (h : (e.pushAll tokens).run scene = (.ok (), after)) :
    (Stream.useAll (β := Unit) (fun token => do discard (e.push token); pure []) tokens).run scene =
      (.ok [], after) := by
  induction tokens generalizing scene with
  | nil =>
    cases h
    rfl
  | cons token tokens ih =>
    obtain ⟨_, between, hpush, hrest⟩ := Action.exists_of_run_bind h
    rw [Stream.useAll, LawfulMonad.bind_assoc, Action.run_bind_of_ok hpush, pure_bind,
      Action.run_bind_of_ok (ih hrest)]
    rfl

variable (e) in
/-- A parse as far as its tokens go: a reset, and then all pushes. -/
def feed (tokens : List τ) : Action (Scene (Reducer τ) ν) Unit := do
  e.reset
  e.pushAll tokens

theorem parse_eq_feed (tokens : List τ) : e.parse tokens = e.feed tokens >>= fun _ => e.finish := by
  rw [parse, feed, LawfulMonad.bind_assoc]

section Run

variable {lexer : Lexer (Action (Scene Bool ω)) τ} {text : Bytes} {lexing lexed : Scene Bool ω}
  {d : Drained τ} {scene fed after : Scene (Reducer τ) ν}
  (hdrain : ((Stream.ofText text).drain lexer).run lexing = (d, lexed))
  (hfeed : (e.feed d.tokens).run scene = (.ok (), fed))

include hdrain hfeed

/-- If the tokens can be pushed, they are, and then the lexer decides how to go on. -/
theorem run_parseText :
    (parseText lexer e text).run (lexing, scene) =
      (Action.ofExcept (d.settle ()) >>= fun _ => Action.onSecond e.finish).run (lexed, fed) := by
  obtain ⟨_, emptied, hreset, hpush⟩ := Action.exists_of_run_bind hfeed
  have hcollect := Stream.run_collectTokensWithin_of_ok hdrain (run_useAll_push hpush)
  rw [parseText, Action.run_bind_of_ok (Action.run_onSecond hreset lexing)]
  cases hfault : d.fault? with
  | none =>
    rw [Drained.settle_of_no_fault hfault] at hcollect ⊢
    rw [Stream.collectTokens, Action.run_bind_of_ok hcollect]
    rfl
  | some error =>
    rw [Drained.settle_of_fault hfault] at hcollect ⊢
    rw [Stream.collectTokens, Action.run_bind_of_error hcollect]
    rfl

end Run

end Engine

/-! ## Tokens first -/

/-- Parsing a text agrees with tokenizing it first. If that returns tokens, the text is parsed as
they are; if it ends in an error, so does parsing the text, and the tokens before the error have
been fed to the reducer. -/
structure AgreesWithTokens {s : Type} (lexer : Lexer (Action (Scene Bool ω)) τ) (text : Bytes)
    (lexing : Scene Bool ω) (parseText : Action (Scene Bool ω × s) (Option (Tree τ)))
    (parse : List τ → Action s (Option (Tree τ))) (feed : List τ → Action s Unit) (scene : s) :
    Prop where
  of_tokens : ∀ tokens lexed, (lexer.tokenize text).run lexing = (.ok tokens, lexed) →
    ∃ result after, (parse tokens).run scene = (.ok result, after) ∧
      parseText.run (lexing, scene) = (.ok result, (lexed, after))
  of_error : ∀ error lexed, (lexer.tokenize text).run lexing = (.error error, lexed) →
    ∃ after, (feed (((Stream.ofText text).drain lexer).run lexing).1.tokens).run scene =
        (.ok (), after) ∧
      parseText.run (lexing, scene) = (.error error, (lexed, after))

variable {J : ν → Prop}

theorem Engine.Calm.feed {e : Engine (Action (Scene (Reducer τ) ν)) τ} (he : e.Calm J)
    (tokens : List τ) : Action.Calm (Scene.Flagged false J) (e.feed tokens) := by
  apply Action.Calm.bind (he.perform .reset)
  intro _
  exact Action.calm_iff_agree.2 (he.agree.pushAll tokens)

theorem agreesWithTokens_of_calm {e : Engine (Action (Scene (Reducer τ) ν)) τ} (he : e.Calm J)
    {scene : Scene (Reducer τ) ν} (hscene : scene.Flagged false J)
    (lexer : Lexer (Action (Scene Bool ω)) τ) (text : Bytes) (lexing : Scene Bool ω) :
    AgreesWithTokens lexer text lexing (parseText lexer e text) e.parse e.feed scene := by
  rcases hdrain : ((Stream.ofText text).drain lexer).run lexing with ⟨d, lexed⟩
  obtain ⟨_, fed, hfeed, hfed⟩ := he.feed d.tokens scene hscene
  obtain ⟨result, after, hfinish, -⟩ := he.perform .finish fed hfed
  have htext := Engine.run_parseText hdrain hfeed
  have htokens := Lexer.run_tokenize hdrain
  cases hfault : d.fault? with
  | none =>
    rw [Drained.settle_of_no_fault hfault] at htokens htext
    refine ⟨?_, fun _ _ h => (nomatch htokens.symm.trans h)⟩
    intro tokens _ htokenize
    cases htokens.symm.trans htokenize
    refine ⟨result, after, ?_, ?_⟩
    · rw [Engine.parse_eq_feed, Action.run_bind_of_ok hfeed]
      exact hfinish
    · rw [htext, Action.run_bind_of_ok (Action.run_ofExcept _ _)]
      exact Action.run_onSecond hfinish lexed
  | some error =>
    rw [Drained.settle_of_fault hfault] at htokens htext
    refine ⟨fun _ _ h => (nomatch htokens.symm.trans h), ?_⟩
    intro error _ htokenize
    cases htokens.symm.trans htokenize
    refine ⟨fed, ?_, ?_⟩
    · rw [hdrain]
      exact hfeed
    · rw [htext, Action.run_bind_of_error (Action.run_ofExcept _ _)]

theorem CallbackEngine.run_parseTextApart {e : CallbackEngine σ τ}
    {lexer : Lexer (Action (Scene Bool ω)) τ} {text : Bytes} {lexing lexed : Scene Bool ω}
    {scene : Scene (Reducer τ) σ} {after : Scene (Reducer τ) (Scene (Reducer τ) σ)}
    {result : Except Error (Option (Tree τ))}
    (h : (parseText lexer e.apart text).run (lexing, { subject := {}, world := scene }) =
      (result, (lexed, after))) :
    (e.parseTextApart lexer text).run (lexing, scene) = (result, (lexed, after.world)) :=
  congrArg (fun p : Except Error (Option (Tree τ)) × ParseScene τ ω (Scene (Reducer τ) σ) =>
    (p.1, (p.2.1, p.2.2.world))) h

/-- In any scene that uses have led to, and with predicates and hooks that do not end in errors,
parsing a text agrees with tokenizing it first and then parsing the tokens: with the reducer itself
and also with one that is made for the purpose. The recognizers share no state with the predicates
and hooks, since the lexer and the reducer run in scenes of their own (`ParseScene`). -/
theorem CallbackEngine.text_agrees_with_tokens (e : CallbackEngine σ τ)
    (lexer : Lexer (Action (Scene Bool ω)) τ) (text : Bytes) (lexing : Scene Bool ω)
    {scene : Scene (Reducer τ) σ} (hscene : e.Reached scene) :
    (∀ J : σ → Prop, e.running.Calm J → J scene.world →
      AgreesWithTokens lexer text lexing (parseText lexer e.running text)
        (fun tokens => e.perform (.parse tokens)) e.running.feed scene) ∧
    ∀ J : Scene (Reducer τ) σ → Prop, e.apart.Calm J → J scene →
      AgreesWithTokens lexer text lexing (e.parseTextApart lexer text) e.parseApart
        (fun tokens => .withSubject {} (e.apart.feed tokens)) scene := by
  constructor
  · intro J he hworld
    exact agreesWithTokens_of_calm he ⟨hscene.idle, hworld⟩ lexer text lexing
  · intro J he hscene
    have hfresh : Scene.Flagged false J ⟨({} : Reducer τ), scene⟩ := ⟨rfl, hscene⟩
    have hagrees := agreesWithTokens_of_calm he hfresh lexer text lexing
    constructor
    · intro tokens lexed htokenize
      obtain ⟨result, after, hparse, htext⟩ := hagrees.of_tokens tokens lexed htokenize
      exact ⟨result, after.world, Action.run_withSubject hparse, run_parseTextApart htext⟩
    · intro error lexed htokenize
      obtain ⟨fed, hfeed, htext⟩ := hagrees.of_error error lexed htokenize
      exact ⟨fed.world, Action.run_withSubject hfeed, run_parseTextApart htext⟩

/-- A line of BASIC and a string that does not end, parsed by a reducer that holds a token yet. -/
theorem CallbackEngine.text_agrees_with_tokens_unterminated :
    let g := (TinyBasic.LineGrammar.create { scope := 0 }).grammar
    let e : CallbackEngine Unit TinyBasic.Token := .ofTotal g .none
    let lexer : Lexer (Action (Scene Bool Unit)) TinyBasic.Token := TinyBasic.lexer.lift
    let text := Bytes.ofAscii "10 RUN\n20 PRINT \"A"
    let lexing : Scene Bool Unit := { subject := false, world := () }
    let scene := ((e.perform (.push .newline)).run
      { subject := { policy := .strict }, world := () }).2
    let tokens : List TinyBasic.Token :=
      [.number 10, .keyword .run, .newline, .number 20, .keyword .print]
    let error : Error := .lexical ⟨.ofAscii "unterminated string literal", 16, ⟨2, 10⟩⟩
    (e.Reached scene ∧ e.running.Calm (fun _ => True) ∧ e.apart.Calm (fun _ => True) ∧
      (lexer.tokenize text).run lexing = (.error error, lexing) ∧
      (((Stream.ofText text).drain lexer).run lexing).1.tokens = tokens) ∧
    AgreesWithTokens lexer text lexing (parseText lexer e.running text)
      (fun tokens => e.perform (.parse tokens)) e.running.feed scene ∧
    AgreesWithTokens lexer text lexing (e.parseTextApart lexer text) e.parseApart
      (fun tokens => .withSubject {} (e.apart.feed tokens)) scene ∧
    (∃ after, (e.running.feed tokens).run scene = (.ok (), after) ∧
      (parseText lexer e.running text).run (lexing, scene) = (.error error, (lexing, after))) ∧
    ∃ after, (Action.withSubject {} (e.apart.feed tokens)).run scene = (.ok (), after) ∧
      (e.parseTextApart lexer text).run (lexing, scene) = (.error error, (lexing, after)) := by
  have htokenize : ((TinyBasic.lexer.lift : Lexer (Action (Scene Bool Unit)) _).tokenize
      (.ofAscii "10 RUN\n20 PRINT \"A")).run { subject := false, world := () } =
        (.error (.lexical ⟨.ofAscii "unterminated string literal", 16, ⟨2, 10⟩⟩),
          { subject := false, world := () }) := by cbv
  have htokens : (((Stream.ofText (.ofAscii "10 RUN\n20 PRINT \"A")).drain
      (TinyBasic.lexer.lift : Lexer (Action (Scene Bool Unit)) _)).run
        { subject := false, world := () }).1.tokens =
      [.number 10, .keyword .run, .newline, .number 20, .keyword .print] := by rfl
  intro g e lexer text lexing scene tokens error
  have hreached : e.Reached scene := .call (.fresh .strict ()) _
  have hcalm : e.running.Calm (fun _ => True) := running_ofTotal g ▸ Engine.calm_silent g _
  have hapart : e.apart.Calm (fun _ => True) := apart_ofTotal g .none ▸ Engine.calm_silent g _
  obtain ⟨hitself, hother⟩ := e.text_agrees_with_tokens lexer text lexing hreached
  have hitself := hitself _ hcalm trivial
  have hother := hother _ hapart trivial
  have hfed : (((Stream.ofText text).drain lexer).run lexing).1.tokens = tokens := htokens
  have hparsed := hitself.of_error error lexing htokenize
  have hparsedApart := hother.of_error error lexing htokenize
  rw [hfed] at hparsed hparsedApart
  exact ⟨⟨hreached, hcalm, hapart, htokenize, hfed⟩, hitself, hother, hparsed, hparsedApart⟩

end ShiftReduce
