import ShiftReduce.Parse
import ShiftReduce.Proofs.Agreement
import ShiftReduce.Proofs.Reducer.Operations

/-!
# Scenes that uses lead to

A reducer with arbitrary callbacks, used in any way from outside of them, texts that are parsed
included: `CallbackEngine.Reached` holds of the scenes that this can lead to, whatever ends in an
error on the way. In all of them the flag of the reducer is down (`CallbackEngine.Reached.idle`).
-/

namespace ShiftReduce

variable {σ τ ω ν α : Type}

/-! ## The flag -/

namespace Engine

/-- The flag of the reducer is down. -/
def Idle (scene : Scene (Reducer τ) ω) : Prop := scene.subject.busy = false

theorem keeps_exclusively (operation : Action (Scene (Reducer τ) ω) α) :
    Action.Keeps Idle (exclusively operation) := by
  intro scene h
  exact congrArg Reducer.busy (exclusively_subject h)

variable (e : Engine (Action (Scene (Reducer τ) ω)) τ)

/-- What every push keeps, pushing all tokens keeps. -/
theorem keeps_pushAll {P : Scene (Reducer τ) ω → Prop}
    (h : ∀ token, Action.Keeps P (e.push token)) (tokens : List τ) :
    Action.Keeps P (e.pushAll tokens) := by
  induction tokens with
  | nil => exact .pure ()
  | cons token tokens ih =>
    apply Action.Keeps.bind (h token).discard
    intro _
    exact ih

/-- However a request ends, the flag is down again afterwards. -/
theorem keeps_perform (request : ReducerCall τ) : Action.Keeps Idle (e.perform request) := by
  cases request with
  | push token => exact keeps_exclusively _
  | reset => exact keeps_exclusively _
  | finish => exact keeps_exclusively _
  | parse tokens =>
    apply Action.Keeps.bind (keeps_exclusively _)
    intro _
    apply Action.Keeps.bind (e.keeps_pushAll (fun _ => keeps_exclusively _) tokens)
    intro _
    exact keeps_exclusively _

end Engine

namespace Stream

/-- Collecting tokens keeps what pulling and using them keep. -/
theorem keeps_collectTokensWithin {s β : Type} {P : s → Prop}
    {pull : Stream → Action s (Option (τ × Stream))} {use : τ → Action s (List β)}
    (hpull : ∀ stream, Action.Keeps P (pull stream)) (huse : ∀ token, Action.Keeps P (use token))
    (n : Nat) (stream : Stream) : Action.Keeps P (collectTokensWithin pull use n stream) := by
  induction n generalizing stream with
  | zero => exact .pure []
  | succ n ih =>
    apply Action.Keeps.bind (hpull stream)
    intro next
    cases next with
    | none => exact .pure []
    | some next =>
      apply Action.Keeps.bind (huse next.1)
      intro here
      apply Action.Keeps.bind (ih next.2)
      intro later
      exact .pure _

end Stream

/-- Parsing a text keeps what the operations of the reducer keep. -/
theorem keeps_parseText {e : Engine (Action (Scene (Reducer τ) ν)) τ}
    {P : Scene (Reducer τ) ν → Prop} (h : ∀ request, Action.Keeps P (e.perform request))
    (lexer : Lexer (Action (Scene Bool ω)) τ) (text : Bytes) :
    Action.Keeps (fun state : ParseScene τ ω ν => P state.2) (parseText lexer e text) := by
  apply Action.Keeps.bind (.onSecond (h .reset))
  intro _
  apply Action.Keeps.bind
  · apply Stream.keeps_collectTokensWithin
    · -- the lexer works on the other state
      exact fun _ _ hscene => hscene
    · intro token
      apply Action.Keeps.onSecond
      apply Action.Keeps.bind (h (.push token)).discard
      intro _
      exact .pure []
  · exact fun _ => .onSecond (h .finish)

/-! ## Uses from outside -/

namespace CallbackEngine

variable (e : CallbackEngine σ τ)

/-- What using a new reducer can lead to: calls of any kind, also those that end in an error,
changes of its policy and of the state that its callbacks keep, and texts that are parsed with a
lexer of any kind. -/
inductive Reached : Scene (Reducer τ) σ → Prop
  | fresh (policy : Policy) (world : σ) : Reached { subject := { policy }, world }
  | call {scene : Scene (Reducer τ) σ} (h : Reached scene) (request : ReducerCall τ) :
    Reached ((e.perform request).run scene).2
  | text {scene : Scene (Reducer τ) σ} (h : Reached scene) {ω : Type}
    (lexer : Lexer (Action (Scene Bool ω)) τ) (lexing : Scene Bool ω) (text : Bytes) :
    Reached ((parseText lexer e.running text).run (lexing, scene)).2.2
  | setPolicy {scene : Scene (Reducer τ) σ} (h : Reached scene) (policy : Policy) :
    Reached ((Engine.setPolicy policy).run scene).2
  | setWorld {scene : Scene (Reducer τ) σ} (h : Reached scene) (world : σ) :
    Reached { scene with world }

/-- Between uses the flag is down, also after one that ended in an error. -/
theorem Reached.idle {e : CallbackEngine σ τ} {scene : Scene (Reducer τ) σ} (h : e.Reached scene) :
    Engine.Idle scene := by
  induction h with
  | fresh => rfl
  | @call scene _ request ih => exact e.running.keeps_perform request scene ih
  | @text scene _ _ lexer lexing text ih =>
    exact keeps_parseText e.running.keeps_perform lexer text (lexing, scene) ih
  | setPolicy _ _ ih => exact ih
  | setWorld _ _ ih => exact ih

end CallbackEngine

end ShiftReduce
