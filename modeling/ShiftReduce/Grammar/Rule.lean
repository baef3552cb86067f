import ShiftReduce.Tree.Basic

/-!
# Rules

A rule replaces a run of trees by a node for its symbol. Its right-hand side is a list of schemas,
each a predicate on the token of a leaf or the symbol of a node. A run matches when it pairs up with
the schemas one to one, in order; predicates are asked from left to right, only as far as everything
before them fits, and not at all if the lengths differ.

Predicates answer in a monad `m`, as recognizers do: `Id` for those that only look at the token.
-/

namespace ShiftReduce

inductive Schema (m : Type → Type) (τ : Type) where
  | terminal (accepts : τ → m Bool)
  | nonterminal (symbol : Symbol)

namespace Schema

variable {m n : Type → Type} {τ : Type}

def isTerminal : Schema m τ → Bool
  | terminal _ => true
  | nonterminal _ => false

/-- Whether a tree fits: a leaf whose token the predicate accepts, or a node with the symbol. -/
def accepts [Monad m] : Schema m τ → Tree τ → m Bool
  | terminal accepts, .leaf token => accepts token
  | nonterminal symbol, .node other _ => pure (other == symbol)
  | _, _ => pure false

def map (f : m Bool → n Bool) : Schema m τ → Schema n τ
  | terminal accepts => terminal fun token => f (accepts token)
  | nonterminal symbol => nonterminal symbol

end Schema

structure Rule (m : Type → Type) (τ : Type) where
  symbol : Symbol
  schemas : List (Schema m τ) := []

namespace Rule

variable {m n : Type → Type} {τ : Type}

def size (r : Rule m τ) : Nat := r.schemas.length

/-- A rule with nothing on its right-hand side yet. -/
def ofSymbol (symbol : Symbol) : Rule m τ := { symbol }

/-- Appends a predicate, which must not be missing. -/
def withTerminal (r : Rule m τ) : Option (τ → m Bool) → Except Error (Rule m τ)
  | none => .error .badPredicate
  | some accepts => .ok { r with schemas := r.schemas ++ [.terminal accepts] }

/-- Appends the predicate of being equal to a token. -/
def withLiteral [Monad m] [DecidableEq τ] (r : Rule m τ) (token : τ) : Rule m τ :=
  { r with schemas := r.schemas ++ [.terminal fun other => pure (decide (other = token))] }

def withNonterminal (r : Rule m τ) (symbol : Symbol) : Rule m τ :=
  { r with schemas := r.schemas ++ [.nonterminal symbol] }

/-- Compares schemas and trees pair by pair up to the first pair that does not fit. -/
def acceptsAll [Monad m] : List (Schema m τ) → List (Tree τ) → m Bool
  | schema :: schemas, t :: ts => do
    if ← schema.accepts t then acceptsAll schemas ts else pure false
  | _, _ => pure true

def isMatch [Monad m] (r : Rule m τ) (ts : List (Tree τ)) : m Bool :=
  if ts.length = r.size then acceptsAll r.schemas ts else pure false

/-- The same rule with its predicates' answers carried to another monad. -/
def map (f : m Bool → n Bool) (r : Rule m τ) : Rule n τ :=
  { r with schemas := r.schemas.map (Schema.map f) }

/-- A rule whose predicates give no answer. -/
abbrev Erased (τ : Type) := Rule (fun _ => Unit) τ

/-- What can be read of a rule without asking its predicates, in whatever monad they answer. -/
def erased (r : Rule m τ) : Erased τ := r.map fun _ => ()

end Rule

end ShiftReduce
