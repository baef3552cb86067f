import ShiftReduce.Action
import ShiftReduce.Reducer.Basic
import ShiftReduce.Reducer.Reduction

/-!
# Operations on a reducer

`push` shifts a token and reduces, `finish` ends the input, `reset` drops it, and `parse` does all
of it for a list of tokens.

Predicates and hooks may call the reducer that runs them. Every operation raises the flag `busy`
for its time, and while it is up the operations are refused (`exclusively`). They take it down again
however they end, so an error never leaves a reducer that refuses work.
-/

namespace ShiftReduce

namespace Engine

variable {τ ω α : Type}

def reducer : Action (Scene (Reducer τ) ω) (Reducer τ) := return (← get).subject

def modifyReducer (f : Reducer τ → Reducer τ) : Action (Scene (Reducer τ) ω) Unit :=
  modify fun scene => { scene with subject := f scene.subject }

def mark (busy : Bool) (scene : Scene (Reducer τ) ω) : Scene (Reducer τ) ω :=
  { scene with subject := { scene.subject with busy } }

/-- Raises the flag for the time of an operation; refuses it if the flag is up already. -/
def exclusively (operation : Action (Scene (Reducer τ) ω) α) : Action (Scene (Reducer τ) ω) α :=
  ExceptT.mk fun scene =>
    if scene.subject.busy then (.error .reducerReentered, scene)
    else
      let (result, scene) := operation.run (mark true scene)
      (result, mark false scene)

/-- While the flag is up an operation is refused and changes nothing. -/
theorem exclusively_of_busy (operation : Action (Scene (Reducer τ) ω) α)
    {scene : Scene (Reducer τ) ω} (h : scene.subject.busy = true) :
    (exclusively operation).run scene = (.error .reducerReentered, scene) :=
  if_pos h

/-- While the flag is down an operation is performed, and it leaves the flag down. -/
theorem exclusively_of_not_busy (operation : Action (Scene (Reducer τ) ω) α)
    {scene : Scene (Reducer τ) ω} (h : scene.subject.busy = false) :
    (exclusively operation).run scene =
      ((operation.run (mark true scene)).1, mark false (operation.run (mark true scene)).2) :=
  if_neg (by simp [h])

variable (e : Engine (Action (Scene (Reducer τ) ω)) τ)

def reset : Action (Scene (Reducer τ) ω) Unit := exclusively do
  modifyReducer fun r => { r with stack := [], residue := [], complete := false }
  e.hooks.onReset (← reducer)

/-- Applies at most one rule at the top of the stack; says whether it did. -/
def reduce : Action (Scene (Reducer τ) ω) Bool := do
  match ← e.grammar.findReduction (← reducer).stack with
  | none => pure false
  | some reduction =>
    modifyReducer fun r => { r with stack := reduction.below ++ [reduction.node] }
    e.hooks.onReduce (← reducer) reduction.rule reduction.node
    pure true

/-- Shifts a token and applies at most one rule; says whether it did. -/
def push (token : τ) : Action (Scene (Reducer τ) ω) Bool := exclusively do
  modifyReducer fun r => { r with stack := r.stack ++ [.leaf token] }
  e.hooks.onShift (← reducer) token
  e.reduce

/-- Ends the input: the result, if there is one, with the residue beneath it. -/
def finish : Action (Scene (Reducer τ) ω) (Option (Tree τ)) := exclusively do
  let r ← reducer
  let (result, residue) := Reducer.split r.policy r.stack
  modifyReducer fun r => { r with stack := [], residue, complete := r.stack.length == 1 }
  e.hooks.onFinish (← reducer) result
  pure result

def pushAll : List τ → Action (Scene (Reducer τ) ω) Unit
  | [] => pure ()
  | token :: tokens => do
    discard (e.push token)
    pushAll tokens

def parse (tokens : List τ) : Action (Scene (Reducer τ) ω) (Option (Tree τ)) := do
  e.reset
  e.pushAll tokens
  e.finish

/-- Sets the policy that finishing follows from now on. -/
def setPolicy (policy : Policy) : Action (Scene (Reducer τ) ω) Unit :=
  modifyReducer fun r => { r with policy }

end Engine

end ShiftReduce
