import ShiftReduce.Callback
import ShiftReduce.Reducer.Operations

/-!
# Predicates and hooks that call the reducer

A predicate or hook that calls the reducer it runs in meets the raised flag and is refused, so the
callbacks that would run next are never reached (`CallbackEngine.refusing`).

`parseApart` parses with a reducer made for the purpose, of the permissive policy and without hooks.
The grammar's predicates still call the reducer they know, which is not that one.
-/

namespace ShiftReduce

/-- The operations of a reducer as requests. -/
inductive ReducerCall (τ : Type) where
  | push (token : τ)
  | reset
  | finish
  | parse (tokens : List τ)
deriving DecidableEq, Repr

/-- What the operations return. -/
abbrev ReducerCall.Result {τ : Type} : ReducerCall τ → Type
  | push _ => Bool
  | reset => Unit
  | finish => Option (Tree τ)
  | parse _ => Option (Tree τ)

/-- Code of the caller that can call a reducer; it is told the result or the error. -/
abbrev ReducerCallback (σ τ : Type) :=
  Callback σ (ReducerCall τ) fun c => Except Error c.Result

/-- An engine whose predicates and hooks have a state of type `σ` and can call the reducer. -/
abbrev CallbackEngine (σ τ : Type) := Engine (ReducerCallback σ τ) τ

/-- Performs a request. -/
def Engine.perform {τ ω : Type} (e : Engine (Action (Scene (Reducer τ) ω)) τ) :
    (c : ReducerCall τ) → Action (Scene (Reducer τ) ω) c.Result
  | .push token => e.push token
  | .reset => e.reset
  | .finish => e.finish
  | .parse tokens => e.parse tokens

namespace CallbackEngine

variable {σ τ α : Type}

/-- The engine as a call from within an operation sees it: its callbacks are refused. -/
def refusing (e : CallbackEngine σ τ) : Engine (Action (Scene (Reducer τ) σ)) τ :=
  e.map fun _ => throw .reducerReentered

/-- The engine as an operation runs it. -/
def running (e : CallbackEngine σ τ) : Engine (Action (Scene (Reducer τ) σ)) τ :=
  e.map (Callback.run fun c => (e.refusing.perform c).attempt)

/-- Performs a request from outside of any callback. -/
def perform (e : CallbackEngine σ τ) (c : ReducerCall τ) :
    Action (Scene (Reducer τ) σ) c.Result :=
  e.running.perform c

/-- Runs a callback outside of any operation, where its calls are ordinary ones. -/
def runOutside (e : CallbackEngine σ τ) (callback : ReducerCallback σ τ α) :
    Action (Scene (Reducer τ) σ) α :=
  callback.run fun c => (e.perform c).attempt

/-- The engine of a reducer of its own for the grammar, seen from a scene in which the grammar's
predicates know another reducer. -/
def apart (e : CallbackEngine σ τ) :
    Engine (Action (Scene (Reducer τ) (Scene (Reducer τ) σ))) τ :=
  { grammar := e.grammar.map fun answer => Action.onWorld (e.runOutside answer)
    hooks := .none }

/-- Parses with a reducer of its own, which is dropped afterwards. -/
def parseApart (e : CallbackEngine σ τ) (tokens : List τ) :
    Action (Scene (Reducer τ) σ) (Option (Tree τ)) :=
  Action.withSubject {} (e.apart.parse tokens)

end CallbackEngine

end ShiftReduce
