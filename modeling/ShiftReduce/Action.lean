import ShiftReduce.Error

/-!
# Actions

An `Action s α` works on a state of type `s` and ends with a value or with an error; either way the
state it reached is kept, so what happened before an error stays visible.

A lexer and a reducer both run code of the caller in the middle of their own work. The state of such
a run is a `Scene`: the `subject` is what the library keeps (a flag, a stack), the `world` what the
caller keeps. `onWorld` runs an action of the caller's side alone, `withSubject` makes a scene for
the time of an action, and `onFirst` and `onSecond` run an action on one of two states; all of them
are cases of `onPart`.
-/

namespace ShiftReduce

/-- A computation on a state that may end with an error. -/
abbrev Action (s : Type) := ExceptT Error (StateM s)

/-- The library's own state and, beside it, the state of the code it calls. -/
structure Scene (ρ σ : Type) where
  subject : ρ
  world : σ

namespace Action

variable {s t ρ ω α : Type}

/-- The result of an action as a value, an error being one of the values; this cannot fail. -/
def attempt (x : Action s α) : StateM s (Except Error α) := x.run

/-- An action that ends as a given result says. -/
def ofExcept : Except Error α → Action s α
  | .ok a => pure a
  | .error e => throw e

/-- Runs an action on a state made from another one: `get` makes it and `set` puts it back. -/
def onPart (get : s → t) (set : t → s → s) (x : Action t α) : Action s α :=
  ExceptT.mk fun state =>
    let (result, part) := x.run (get state)
    (result, set part state)

def onWorld (x : Action ω α) : Action (Scene ρ ω) α :=
  onPart Scene.world (fun world scene => { scene with world }) x

/-- Runs an action in a scene made for it, with the given subject and the whole state as the world.
The subject is dropped afterwards. -/
def withSubject (subject : ρ) (x : Action (Scene ρ ω) α) : Action ω α :=
  onPart (fun world => { subject, world }) (fun scene _ => scene.world) x

def onFirst (x : Action s α) : Action (s × t) α :=
  onPart Prod.fst (fun a state => (a, state.2)) x

def onSecond (x : Action t α) : Action (s × t) α :=
  onPart Prod.snd (fun b state => (state.1, b)) x

end Action

end ShiftReduce
