import ShiftReduce.Grammar.Basic

/-!
# Reducers

A reducer holds a stack of trees, bottom first, and what the last input left over, its residue. An
engine is what it works with: the grammar whose rules it applies, and hooks that are told of every
step.

At the end of an input the tree at the top of the stack is the result and the trees beneath it are
the residue (`Reducer.split`). A strict reducer gives a result only if nothing is beneath it;
otherwise the whole stack is residue.
-/

namespace ShiftReduce

/-- Whether a finished stack of several trees still has a result. -/
inductive Policy where
  | permissive | strict
deriving DecidableEq, Repr

/-- The state of a reducer. `complete` says whether the last input was reduced to a single tree, and
`busy` is up during every operation. -/
structure Reducer (τ : Type) where
  stack : List (Tree τ) := []
  residue : List (Tree τ) := []
  policy : Policy := .permissive
  complete : Bool := false
  busy : Bool := false

/-- Code of the caller that is told about every operation, after it has changed the reducer. Of a
reduction it is told the rule and the node. The rule is erased, so that the hooks can be carried to
another monad. Its predicates are the caller's own code as the hooks are, and a hook that asks them
again brings them along. -/
structure Hooks (m : Type → Type) (τ : Type) where
  onReset : Reducer τ → m Unit
  onShift : Reducer τ → (token : τ) → m Unit
  onReduce : Reducer τ → (rule : Rule.Erased τ) → (node : Tree τ) → m Unit
  onFinish : Reducer τ → (result : Option (Tree τ)) → m Unit

/-- The rules a reducer applies and the hooks it runs. -/
structure Engine (m : Type → Type) (τ : Type) where
  grammar : Grammar m τ
  hooks : Hooks m τ

namespace Hooks

variable {m n : Type → Type} {τ : Type}

def none [Pure m] : Hooks m τ where
  onReset _ := pure ()
  onShift _ _ := pure ()
  onReduce _ _ _ := pure ()
  onFinish _ _ := pure ()

/-- The same hooks carried to another monad. -/
def map (f : m Unit → n Unit) (h : Hooks m τ) : Hooks n τ where
  onReset r := f (h.onReset r)
  onShift r token := f (h.onShift r token)
  onReduce r rule node := f (h.onReduce r rule node)
  onFinish r result := f (h.onFinish r result)

end Hooks

/-- The same engine with its callbacks carried to another monad. -/
def Engine.map {m n : Type → Type} {τ : Type} (f : {α : Type} → m α → n α) (e : Engine m τ) :
    Engine n τ :=
  { grammar := e.grammar.map f, hooks := e.hooks.map f }

namespace Reducer

variable {τ : Type}

def depth (r : Reducer τ) : Nat := r.stack.length

/-- The result of finishing a stack, and the residue. -/
def split (policy : Policy) (stack : List (Tree τ)) : Option (Tree τ) × List (Tree τ) :=
  if policy = .strict ∧ stack.length ≠ 1 then (none, stack)
  else (stack.getLast?, stack.dropLast)

/-- Nothing of the stack is lost: the residue and the result after it are the stack. -/
theorem split_append (policy : Policy) (stack : List (Tree τ)) :
    (split policy stack).2 ++ (split policy stack).1.toList = stack := by
  unfold split
  split
  · simp
  · cases h : stack.getLast? with
    | none => rw [List.getLast?_eq_none_iff.1 h]; rfl
    | some t =>
      obtain ⟨ts, rfl⟩ := List.getLast?_eq_some_iff.1 h
      simp

end Reducer

end ShiftReduce
