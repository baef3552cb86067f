import ShiftReduce.Proofs.Lexer.Append
import ShiftReduce.Proofs.Parse.Reached
import ShiftReduce.Proofs.Reducer.Silent
import ShiftReduce.Proofs.TinyBasic.Lexer
import ShiftReduce.TinyBasic.Grammar
import ShiftReduce.TinyBasic.Program

/-!
# Programs line by line

Every newline token finishes the reducer, and a finished reducer has an empty stack, so no line of a
program depends on the lines before it (`programLines_append`). The lexer of BASIC does not look
behind a line feed either (`lexer_lineBound`). Together a program that ends in a line feed can be
parsed by itself, and so can what follows it (`CallbackEngine.programs_compose`).
-/

namespace ShiftReduce

open TinyBasic

variable {σ ω ν : Type}

/-! ## The lines of tokens -/

namespace TinyBasic

/-- What the lines of tokens come to, from a stack on. A newline ends a line, and where the last
line is not ended one is supplied. -/
def programLines (g : Grammar Id Token) (policy : Policy) :
    List (Tree Token) → List Token → List (Option (Tree Token))
  | stack, [] => if stack = [] then [] else [(Reducer.split policy (g.shift stack .newline)).1]
  | stack, token :: tokens =>
    if token.isNewline then
      (Reducer.split policy (g.shift stack token)).1 :: programLines g policy [] tokens
    else programLines g policy (g.shift stack token) tokens

/-- Behind a newline the lines are as they would be alone. -/
theorem programLines_append (g : Grammar Id Token) (policy : Policy) (stack : List (Tree Token))
    (before tokens : List Token) :
    programLines g policy stack (before ++ [.newline] ++ tokens) =
      programLines g policy stack (before ++ [.newline]) ++ programLines g policy [] tokens := by
  induction before generalizing stack with
  | nil => rfl
  | cons token before ih =>
    simp only [List.cons_append, programLines]
    split
    · rw [ih, List.cons_append]
    · exact ih _

/-- Pushes tokens that are all there, and ends the last line. -/
def pushLines (e : Engine (Action (Scene (Reducer Token) ν)) Token) :
    List Token → Action (Scene (Reducer Token) ν) (List (Option (Tree Token)))
  | [] => endProgram e
  | token :: tokens => do
    let here ← pushToken e token
    let later ← pushLines e tokens
    return here ++ later

theorem pushLines_eq (e : Engine (Action (Scene (Reducer Token) ν)) Token) (tokens : List Token) :
    pushLines e tokens = (do
      let lines ← Stream.useAll (pushToken e) tokens
      let last ← endProgram e
      return lines ++ last) := by
  induction tokens with
  | nil => simp [pushLines, Stream.useAll]
  | cons token tokens ih =>
    simp only [pushLines, Stream.useAll, ih, LawfulMonad.bind_assoc, pure_bind, List.append_assoc]

/-! ## Without hooks -/

/-- A reducer between operations, with the given policy and stack. -/
structure Holding (policy : Policy) (stack : List (Tree Token)) (scene : Scene (Reducer Token) ν) :
    Prop where
  idle : Engine.Idle scene
  policy_eq : scene.subject.policy = policy
  stack_eq : scene.subject.stack = stack

section Silent

variable {g : Grammar Id Token} {policy : Policy} {stack : List (Tree Token)}
  {scene : Scene (Reducer Token) ν} {token : Token} (h : Holding policy stack scene)

include h

/-- A newline ends the line. -/
theorem run_pushToken_of_newline (hnewline : token.isNewline = true) :
    ∃ after, (pushToken (.silent g) token).run scene =
      (.ok [(Reducer.split policy (g.shift stack token)).1], after) ∧ Holding policy [] after := by
  obtain ⟨hidle, rfl, rfl⟩ := h
  obtain ⟨reduced, hpush⟩ := Engine.run_push_silent (g := g) hidle token
  have hshifted : Engine.Idle { scene with
      subject := { scene.subject with stack := g.shift scene.subject.stack token } } := hidle
  rw [pushToken, Action.run_bind_of_ok (Action.run_discard_of_ok hpush), if_pos hnewline,
    Action.run_bind_of_ok (Engine.run_finish_silent hshifted)]
  exact ⟨_, rfl, hidle, rfl, rfl⟩

/-- Any other token goes onto the stack. -/
theorem run_pushToken_of_not_newline (hnewline : token.isNewline = false) :
    ∃ after, (pushToken (.silent g) token).run scene = (.ok [], after) ∧
      Holding policy (g.shift stack token) after := by
  obtain ⟨hidle, rfl, rfl⟩ := h
  obtain ⟨reduced, hpush⟩ := Engine.run_push_silent (g := g) hidle token
  rw [pushToken, Action.run_bind_of_ok (Action.run_discard_of_ok hpush),
    if_neg (by simp [hnewline])]
  exact ⟨_, rfl, hidle, rfl, rfl⟩

theorem run_endProgram_silent :
    ∃ after, (endProgram (.silent g)).run scene =
      (.ok (programLines g policy stack []), after) ∧ Holding policy [] after := by
  rw [endProgram, Action.run_bind_of_ok (Engine.run_reducer _), Reducer.depth, h.stack_eq,
    programLines]
  simp only [List.length_eq_zero_iff]
  split
  · rename_i hempty
    exact ⟨scene, rfl, hempty ▸ h⟩
  · exact run_pushToken_of_newline (g := g) h (show Token.isNewline .newline = true from rfl)

theorem run_pushLines_silent (tokens : List Token) :
    ∃ after, (pushLines (.silent g) tokens).run scene =
      (.ok (programLines g policy stack tokens), after) ∧ Holding policy [] after := by
  induction tokens generalizing scene stack with
  | nil => exact run_endProgram_silent h
  | cons token tokens ih =>
    rw [pushLines, programLines]
    cases hnewline : token.isNewline with
    | true =>
      obtain ⟨between, hpush, hbetween⟩ := run_pushToken_of_newline (g := g) h hnewline
      obtain ⟨after, hlater, hafter⟩ := ih hbetween
      rw [Action.run_bind_of_ok hpush, Action.run_bind_of_ok hlater]
      exact ⟨after, rfl, hafter⟩
    | false =>
      obtain ⟨between, hpush, hbetween⟩ := run_pushToken_of_not_newline (g := g) h hnewline
      obtain ⟨after, hlater, hafter⟩ := ih hbetween
      rw [Action.run_bind_of_ok hpush, Action.run_bind_of_ok hlater]
      exact ⟨after, rfl, hafter⟩

end Silent

end TinyBasic

/-! ## With hooks -/

namespace Engine.Agree

variable {W : ω → ν → Prop} {F : Error → Error → Prop}
  {e : Engine (Action (Scene (Reducer Token) ω)) Token}
  {f : Engine (Action (Scene (Reducer Token) ν)) Token} (h : Engine.Agree W F e f)

include h

theorem pushToken (token : Token) :
    Action.Agree (Scene.Alike false W) F (pushToken e token) (pushToken f token) := by
  apply Action.Agree.bind (h.push token).discard
  intro _
  cases token.isNewline with
  | true =>
    apply Action.Agree.bind h.finish
    intro line
    exact .pure [line]
  | false => exact .pure []

theorem pushLines (tokens : List Token) :
    Action.Agree (Scene.Alike false W) F (pushLines e tokens) (pushLines f tokens) := by
  induction tokens with
  | nil =>
    apply Action.Agree.bind agree_reducer
    intro r
    by_cases hempty : r.depth = 0
    · rw [if_pos hempty, if_pos hempty]
      exact .pure []
    · rw [if_neg hempty, if_neg hempty]
      exact h.pushToken .newline
  | cons token tokens ih =>
    apply Action.Agree.bind (h.pushToken token)
    intro here
    apply Action.Agree.bind ih
    intro later
    exact .pure (here ++ later)

end Engine.Agree

namespace TinyBasic

section Run

variable {e : Engine (Action (Scene (Reducer Token) ν)) Token}

section Pushed

variable {lexer : Lexer (Action (Scene Bool ω)) Token} {text : Bytes}
  {lexing lexed : Scene Bool ω} {d : Drained Token}
  {scene emptied after : Scene (Reducer Token) ν} {lines : List (Option (Tree Token))}
  (hdrain : ((Stream.ofText text).drain lexer).run lexing = (d, lexed))
  (hreset : e.reset.run scene = (.ok (), emptied))
  (hpush : (pushLines e d.tokens).run emptied = (.ok lines, after))

include hdrain hreset hpush

/-- If there is no fault and all lines can be pushed, the program has these lines. -/
theorem run_parseProgram_of_no_fault (hfault : d.fault? = none) :
    (parseProgram lexer e text).run (lexing, scene) = (.ok lines, (lexed, after)) := by
  rw [pushLines_eq] at hpush
  obtain ⟨ended, between, huse, hlast⟩ := Action.exists_of_run_bind hpush
  obtain ⟨last, _, hlast, hlines⟩ := Action.exists_of_run_bind hlast
  cases hlines
  have hcollect := Stream.run_collectTokensWithin_of_ok hdrain huse
  rw [Drained.settle_of_no_fault hfault] at hcollect
  rw [parseProgram, Action.run_bind_of_ok (Action.run_onSecond hreset lexing),
    Stream.collectTokens, Action.run_bind_of_ok hcollect,
    Action.run_bind_of_ok (Action.run_onSecond hlast _)]
  rfl

/-- If all lines can be pushed, the lexer decides whether the program has them. -/
theorem run_parseProgram :
    ((parseProgram lexer e text).run (lexing, scene)).1 = d.settle lines := by
  cases hfault : d.fault? with
  | none =>
    rw [run_parseProgram_of_no_fault hdrain hreset hpush hfault, Drained.settle_of_no_fault hfault]
  | some error =>
    rw [pushLines_eq] at hpush
    obtain ⟨ended, between, huse, -⟩ := Action.exists_of_run_bind hpush
    have hcollect := Stream.run_collectTokensWithin_of_ok hdrain huse
    rw [Drained.settle_of_fault hfault] at hcollect ⊢
    rw [parseProgram, Action.run_bind_of_ok (Action.run_onSecond hreset lexing),
      Stream.collectTokens, Action.run_bind_of_error hcollect]

end Pushed

/-- Texts with the same tokens and the same fault are parsed alike, whatever the engine does. -/
theorem run_parseProgram_congr {lexer : Lexer Id Token} {text other : Bytes}
    {lexing : Scene Bool ω} (hdown : lexing.subject = false) {d d' : Drained Token}
    (hdrain : ((Stream.ofText text).drain lexer.lift).run lexing = (d, lexing))
    (hdrain' : ((Stream.ofText other).drain lexer.lift).run lexing = (d', lexing))
    (htokens : d'.tokens = d.tokens) (hfault : d'.fault? = d.fault?)
    (scene : Scene (Reducer Token) ν) :
    (parseProgram lexer.lift e other).run (lexing, scene) =
      (parseProgram lexer.lift e text).run (lexing, scene) := by
  unfold parseProgram
  rcases hreset : e.reset.run scene with ⟨error | _, emptied⟩
  · rw [Action.run_bind_of_error (Action.run_onSecond hreset _),
      Action.run_bind_of_error (Action.run_onSecond hreset _)]
  · have hsettle : (d'.settle : List (Option (Tree Token)) → _) = d.settle :=
      funext (Drained.settle_congr hfault)
    have hcollect := Stream.run_collectTokens_lift hdown hdrain' (pushToken e) emptied
    rw [htokens, hsettle, ← Stream.run_collectTokens_lift hdown hdrain] at hcollect
    rw [Action.run_bind_of_ok (Action.run_onSecond hreset _),
      Action.run_bind_of_ok (Action.run_onSecond hreset _), Action.run_bind, hcollect,
      ← Action.run_bind]

section Calm

variable {g : Grammar Id Token} {J : ν → Prop} (hgrammar : e.grammar = g.lift)
  (hcalm : e.hooks.Calm J) (he : e.Unobtrusive) {scene : Scene (Reducer Token) ν}
  (hscene : scene.Flagged false J)

include hgrammar hcalm he hscene

/-- With pure predicates and calm hooks all lines can be pushed. -/
theorem exists_pushLines_of_calm (tokens : List Token) :
    ∃ emptied after, e.reset.run scene = (.ok (), emptied) ∧
      (pushLines e tokens).run emptied =
        (.ok (programLines g scene.subject.policy [] tokens), after) ∧
      after.subject.stack = [] := by
  have hagree : Engine.Agree (fun (w : ν) (_ : Unit) => J w) (fun _ _ => False) e (.silent g) :=
    Engine.agree_silent hgrammar hcalm he
  have hsilent : Engine.Idle (⟨scene.subject, ()⟩ : Scene (Reducer Token) Unit) := hscene.1
  obtain ⟨_, emptied, cleared, hreset, hclear, halike⟩ :=
    (hagree.reset scene ⟨scene.subject, ()⟩ ⟨rfl, hscene.1, hscene.2⟩).exists_value
  obtain ⟨lines, after, _, hpush, hlines, hafter⟩ :=
    (hagree.pushLines tokens emptied cleared halike).exists_value
  have hcleared : Holding scene.subject.policy [] cleared := by
    cases (Engine.run_reset_silent hsilent).symm.trans hclear
    exact ⟨hsilent, rfl, rfl⟩
  obtain ⟨_, hexpected, hempty⟩ := run_pushLines_silent (g := g) hcleared tokens
  cases hexpected.symm.trans hlines
  refine ⟨emptied, after, hreset, hpush, ?_⟩
  rw [hafter.subject_eq, hempty.stack_eq]

/-- With pure predicates and calm hooks a program has the lines of its tokens. -/
theorem run_parseProgram_of_calm {lexer : Lexer (Action (Scene Bool ω)) Token} {text : Bytes}
    {lexing lexed : Scene Bool ω} {d : Drained Token}
    (hdrain : ((Stream.ofText text).drain lexer).run lexing = (d, lexed)) :
    ((parseProgram lexer e text).run (lexing, scene)).1 =
      d.settle (programLines g scene.subject.policy [] d.tokens) := by
  obtain ⟨emptied, after, hreset, hpush, -⟩ :=
    exists_pushLines_of_calm hgrammar hcalm he hscene d.tokens
  exact run_parseProgram hdrain hreset hpush

end Calm

end Run

/-! ## One run -/

section Keeps

variable {e : Engine (Action (Scene (Reducer Token) ν)) Token} {P : Scene (Reducer Token) ν → Prop}
  (h : ∀ request, Action.Keeps P (e.perform request))

include h

theorem keeps_pushToken (token : Token) : Action.Keeps P (pushToken e token) := by
  apply Action.Keeps.bind (h (.push token)).discard
  intro _
  cases token.isNewline with
  | true =>
    apply Action.Keeps.bind (h .finish)
    intro line
    exact .pure [line]
  | false => exact .pure []

theorem keeps_endProgram : Action.Keeps P (endProgram e) := by
  have hreducer : Action.Keeps P Engine.reducer := fun _ hscene => hscene
  apply Action.Keeps.bind hreducer
  intro r
  by_cases hempty : r.depth = 0
  · rw [if_pos hempty]
    exact .pure []
  · rw [if_neg hempty]
    exact keeps_pushToken h .newline

/-- Parsing a program keeps what the operations of the reducer keep. -/
theorem keeps_parseProgram (lexer : Lexer (Action (Scene Bool ω)) Token) (text : Bytes) :
    Action.Keeps (fun state : ParseScene Token ω ν => P state.2) (parseProgram lexer e text) := by
  apply Action.Keeps.bind (.onSecond (h .reset))
  intro _
  apply Action.Keeps.bind
  · apply Stream.keeps_collectTokensWithin
    · -- the lexer works on the other state
      exact fun _ _ hscene => hscene
    · exact fun token => .onSecond (keeps_pushToken h token)
  · intro lines
    apply Action.Keeps.bind (.onSecond (keeps_endProgram h))
    intro last
    exact .pure _

end Keeps

/-! ## The lexer -/

theorem lexer_decides_lineFeed :
    lexer.Decides [Bytes.lineFeed] (.success .newline (.after [Bytes.lineFeed] 1)) :=
  lexer_decides_newline []

end TinyBasic

/-! ## Programs one behind the other -/

namespace CallbackEngine

/-- What parsing a text as a program ends with, and the scene that the reducer is left in. -/
def program (e : CallbackEngine σ Token) (lexing : Scene Bool ω) (scene : Scene (Reducer Token) σ)
    (text : Bytes) : Except Error (List (Option (Tree Token))) × Scene (Reducer Token) σ :=
  let (result, _, after) := (parseProgram TinyBasic.lexer.lift e.running text).run (lexing, scene)
  (result, after)

/-- A reducer with any past, of the given policy, whose callbacks are in a state that satisfies
`J`. -/
structure Ready (e : CallbackEngine σ Token) (policy : Policy) (J : σ → Prop)
    (scene : Scene (Reducer Token) σ) : Prop where
  reached : e.Reached scene
  policy_eq : scene.subject.policy = policy
  world : J scene.world

section Compose

variable {g : Grammar Id Token} {hooks : Hooks (ReducerCallback σ Token) Token} {J : σ → Prop}
  (hcalm : (ofTotal g hooks).running.hooks.Calm J) {policy : Policy}

include hcalm

/-- A reducer that is ready is ready again after any call. -/
theorem Ready.perform {scene : Scene (Reducer Token) σ}
    (h : (ofTotal g hooks).Ready policy J scene) (request : ReducerCall Token) :
    (ofTotal g hooks).Ready policy J (((ofTotal g hooks).perform request).run scene).2 := by
  have hsilent : Engine.Idle ⟨scene.subject, ()⟩ := h.reached.idle
  have hagree : Engine.Agree (fun (w : σ) (_ : Unit) => J w) Eq (ofTotal g hooks).running
      (.silent g) :=
    Engine.agree_silent (ofTotal_running_grammar g hooks) hcalm (running_unobtrusive _)
  have hafter :=
    (hagree.perform request scene ⟨scene.subject, ()⟩ ⟨rfl, h.reached.idle, h.world⟩).related
  have hpolicy := congrArg Reducer.policy hafter.subject_eq
  refine ⟨h.reached.call request, ?_, hafter.world⟩
  rw [← h.policy_eq]
  exact hpolicy.trans (Engine.policy_perform_silent hsilent request)

/-- And after a program, whatever that ends with. -/
theorem Ready.program {scene : Scene (Reducer Token) σ}
    (h : (ofTotal g hooks).Ready policy J scene) (lexing : Scene Bool ω) (text : Bytes) :
    (ofTotal g hooks).Ready policy J ((ofTotal g hooks).program lexing scene text).2 := by
  have hperform (request : ReducerCall Token) :
      Action.Keeps ((ofTotal g hooks).Ready policy J) ((ofTotal g hooks).running.perform request) :=
    fun _ hscene => hscene.perform hcalm request
  exact keeps_parseProgram hperform TinyBasic.lexer.lift text (lexing, scene) h

variable {lexing : Scene Bool ω}

/-- Whatever a reducer was used for before, a program has the lines of its tokens. -/
theorem Ready.program_eq {scene : Scene (Reducer Token) σ}
    (h : (ofTotal g hooks).Ready policy J scene) {text : Bytes} {lexed : Scene Bool ω}
    {d : Drained Token}
    (hdrain : ((Stream.ofText text).drain TinyBasic.lexer.lift).run lexing = (d, lexed)) :
    ((ofTotal g hooks).program lexing scene text).1 =
      d.settle (programLines g policy [] d.tokens) := by
  rw [← h.policy_eq]
  exact run_parseProgram_of_calm (ofTotal_running_grammar g hooks) hcalm (running_unobtrusive _)
    ⟨h.reached.idle, h.world⟩ hdrain

theorem Ready.program_of_tokens {scene : Scene (Reducer Token) σ}
    (h : (ofTotal g hooks).Ready policy J scene) {text : Bytes} {tokens : List Token}
    (htokens : ((TinyBasic.lexer.lift.tokenize text).run lexing).1 = .ok tokens) :
    ((ofTotal g hooks).program lexing scene text).1 = .ok (programLines g policy [] tokens) := by
  rcases hdrain : ((Stream.ofText text).drain TinyBasic.lexer.lift).run lexing with ⟨d, lexed⟩
  rw [Lexer.run_tokenize hdrain] at htokens
  obtain ⟨hfault, htokens⟩ := Drained.settle_eq_ok_iff.1 htokens
  rw [h.program_eq hcalm hdrain, Drained.settle_of_no_fault hfault, htokens]

/-- A program that ends in a line feed and a text behind it are parsed as the two of them are parsed
one by one, with whatever reducers of the same grammar and policy: the lines of the one and then
those of the other, or the complaint about the other, moved behind the one. -/
theorem programs_compose {a b c : Scene (Reducer Token) σ}
    (ha : (ofTotal g hooks).Ready policy J a) (hb : (ofTotal g hooks).Ready policy J b)
    (hc : (ofTotal g hooks).Ready policy J c) (hdown : lexing.subject = false) {p : Bytes}
    (hp : p.getLast? = some Bytes.lineFeed) {tokens : List Token}
    (htokens : ((TinyBasic.lexer.lift.tokenize p).run lexing).1 = .ok tokens) (q : Bytes) :
    ∃ first, ((ofTotal g hooks).program lexing a p).1 = .ok first ∧
      (∀ tokens, ((TinyBasic.lexer.lift.tokenize q).run lexing).1 = .ok tokens →
        ∃ rest, ((ofTotal g hooks).program lexing b q).1 = .ok rest ∧
          ((ofTotal g hooks).program lexing c (p ++ q)).1 = .ok (first ++ rest)) ∧
      ∀ error, ((TinyBasic.lexer.lift.tokenize q).run lexing).1 = .error error →
        ∃ d : Diagnostic, error = .lexical d ∧
          ((ofTotal g hooks).program lexing b q).1 = .error (.lexical d) ∧
          ((ofTotal g hooks).program lexing c (p ++ q)).1 = .error (.lexical (d.behind p)) := by
  obtain ⟨first, rest, whole, hfirst, hrest, hwhole, happend⟩ :=
    Stream.drain_append lexer_lineBound hdown hp lexer_decides_lineFeed q
  rw [Lexer.run_tokenize hfirst] at htokens
  obtain ⟨hfault, -⟩ := Drained.settle_eq_ok_iff.1 htokens
  obtain ⟨⟨before, hnewline⟩, hconcat, complaint?, hbehind, hboth⟩ := happend hfault
  have hlines : programLines g policy [] whole.tokens =
      programLines g policy [] first.tokens ++ programLines g policy [] rest.tokens := by
    rw [hconcat, hnewline, programLines_append]
  rw [ha.program_eq hcalm hfirst, hb.program_eq hcalm hrest, hc.program_eq hcalm hwhole,
    Lexer.run_tokenize hrest, hlines, Drained.settle_of_no_fault hfault]
  refine ⟨_, rfl, ?_⟩
  cases complaint? with
  | none =>
    rw [Drained.settle_of_no_fault hbehind, Drained.settle_of_no_fault hbehind,
      Drained.settle_of_no_fault hboth]
    refine ⟨fun _ _ => ⟨_, rfl, rfl⟩, ?_⟩
    rintro error ⟨⟩
  | some d =>
    rw [Drained.settle_of_fault hbehind, Drained.settle_of_fault hbehind,
      Drained.settle_of_fault hboth]
    constructor
    · rintro tokens ⟨⟩
    · rintro error ⟨⟩
      exact ⟨d, rfl, rfl, rfl⟩

end Compose

/-- A line, and behind it a line with a string that does not end, parsed by a strict reducer that
a program has left with half of a line. -/
theorem programs_compose_unterminated :
    let g := (LineGrammar.create { scope := 0 }).grammar
    let e : CallbackEngine Unit Token := ofTotal g .none
    let lexing : Scene Bool Unit := { subject := false, world := () }
    let p := Bytes.ofAscii "10 RUN\n"
    let q := Bytes.ofAscii "20 PRINT \"A"
    let fresh : Scene (Reducer Token) Unit := ⟨{ policy := .strict }, ()⟩
    let used := (e.program lexing fresh q).2
    let complaint : Diagnostic := ⟨.ofAscii "unterminated string literal", 9, ⟨1, 10⟩⟩
    let line : Tree Token :=
      .node ⟨0, 0⟩ [.leaf (.number 10), .node ⟨0, 1⟩ [.leaf (.keyword .run)], .leaf .newline]
    (e.running.hooks.Calm (fun _ => True) ∧ e.Ready .strict (fun _ => True) fresh ∧
      e.Ready .strict (fun _ => True) used ∧ p.getLast? = some Bytes.lineFeed ∧
      ((TinyBasic.lexer.lift.tokenize p).run lexing).1 = .ok [.number 10, .keyword .run, .newline] ∧
      ((TinyBasic.lexer.lift.tokenize q).run lexing).1 = .error (.lexical complaint)) ∧
    (e.program lexing used p).1 = .ok [some line] ∧
    (e.program lexing fresh q).1 = .error (.lexical complaint) ∧
    (e.program lexing used (p ++ q)).1 =
      .error (.lexical { complaint with index := 16, position := ⟨2, 10⟩ }) := by
  have htokens : ((TinyBasic.lexer.lift.tokenize (Bytes.ofAscii "10 RUN\n")).run
      ({ subject := false, world := () } : Scene Bool Unit)).1 =
        .ok [.number 10, .keyword .run, .newline] := by cbv
  have herror : ((TinyBasic.lexer.lift.tokenize (Bytes.ofAscii "20 PRINT \"A")).run
      ({ subject := false, world := () } : Scene Bool Unit)).1 =
        .error (.lexical ⟨.ofAscii "unterminated string literal", 9, ⟨1, 10⟩⟩) := by cbv
  have hline : programLines (LineGrammar.create { scope := 0 }).grammar .strict []
      [.number 10, .keyword .run, .newline] = [some (.node ⟨0, 0⟩
        [.leaf (.number 10), .node ⟨0, 1⟩ [.leaf (.keyword .run)], .leaf .newline])] := rfl
  intro g e lexing p q fresh used complaint line
  have hcalm : e.running.Calm (fun _ => True) := running_ofTotal g ▸ Engine.calm_silent g _
  have hfresh : e.Ready .strict (fun _ => True) fresh := ⟨.fresh .strict (), rfl, trivial⟩
  have hused : e.Ready .strict (fun _ => True) used := hfresh.program hcalm.hooks lexing q
  have hp : p.getLast? = some Bytes.lineFeed := by decide
  obtain ⟨-, -, -, hfailing⟩ :=
    programs_compose hcalm.hooks hused hfresh hused rfl hp htokens q
  obtain ⟨d, hd, hq, hboth⟩ := hfailing _ herror
  cases hd
  have hbehind : complaint.behind p = { complaint with index := 16, position := ⟨2, 10⟩ } := by
    decide
  rw [hbehind] at hboth
  exact ⟨⟨hcalm.hooks, hfresh, hused, hp, htokens, herror⟩,
    hline ▸ hused.program_of_tokens hcalm.hooks htokens, hq, hboth⟩

end CallbackEngine

end ShiftReduce
