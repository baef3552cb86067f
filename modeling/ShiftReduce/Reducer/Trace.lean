import ShiftReduce.Reducer.Basic

/-!
# Events of a reducer

Each hook is told of one event: what was done, and how deep the stack was then. `Hooks.observing`
makes hooks from a function of events.
-/

namespace ShiftReduce

/-- One operation on a reducer, with the depth of the stack after it. -/
inductive Event (τ : Type) where
  | reset
  | shift (token : τ) (depth : Nat)
  | reduce (lhs : Symbol) (node : Tree τ) (depth : Nat)
  | finish (result : Option (Tree τ)) (residue : Nat) (complete : Bool)

/-- Hooks that hand every event to a function. -/
def Hooks.observing {m : Type → Type} {τ : Type} (observe : Event τ → m Unit) : Hooks m τ where
  onReset _ := observe .reset
  onShift r token := observe (.shift token r.depth)
  onReduce r rule node := observe (.reduce rule.symbol node r.depth)
  onFinish r result := observe (.finish result r.residue.length r.complete)

end ShiftReduce
