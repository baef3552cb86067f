import ShiftReduce.Symbol.Basic

/-!
# Symbol generators

A generator issues symbols of one scope in sequence. Scopes come from a supply that gives each one
out once. A generator that is moved away from takes a fresh scope, so that it never repeats a symbol
that its successor issues.
-/

namespace ShiftReduce

/-- The scopes that were not given out yet: `next` and those after it. -/
structure ScopeSupply where
  next : UInt64 := 0
deriving DecidableEq, Repr

namespace ScopeSupply

/-- Takes a scope that was never given out. -/
def acquire : StateM ScopeSupply UInt64 := fun supply =>
  (supply.next, { next := supply.next + 1 })

end ScopeSupply

/-- Issues symbols of `scope`; `issued` of them so far. -/
structure Generator where
  scope : UInt64
  issued : UInt64 := 0
deriving DecidableEq, Repr

namespace Generator

def create : StateM ScopeSupply Generator := do
  return { scope := ← ScopeSupply.acquire }

def issue (g : Generator) : Symbol × Generator :=
  ({ scope := g.scope, sequence := g.issued }, { g with issued := g.issued + 1 })

/-- Moves a generator away: the first result carries on with its scope, the second stands in its old
place with a scope of its own. -/
def moveOut (g : Generator) : StateM ScopeSupply (Generator × Generator) := do
  return (g, ← create)

end Generator

/-- Generators that stand in numbered places. -/
structure GeneratorPool where
  supply : ScopeSupply := {}
  generators : Array Generator := #[]

namespace GeneratorPool

def create (pool : GeneratorPool) : GeneratorPool :=
  let (g, supply) := Generator.create.run pool.supply
  { supply, generators := pool.generators.push g }

def issue (pool : GeneratorPool) (place : Nat) : Option (Symbol × GeneratorPool) :=
  pool.generators[place]?.map fun g =>
    let (symbol, g) := g.issue
    (symbol, { pool with generators := pool.generators.setIfInBounds place g })

def moveOut (pool : GeneratorPool) (place : Nat) : Option GeneratorPool :=
  pool.generators[place]?.map fun g =>
    let ((moved, left), supply) := g.moveOut.run pool.supply
    { supply, generators := (pool.generators.setIfInBounds place left).push moved }

/-- Moves the generator of one place to another, whose own is dropped. Moving a generator to the
place where it stands changes nothing. -/
def assign (pool : GeneratorPool) (target source : Nat) : Option GeneratorPool :=
  pool.generators[source]?.map fun g =>
    if target = source then pool
    else
      let ((moved, left), supply) := g.moveOut.run pool.supply
      { supply
        generators := (pool.generators.setIfInBounds source left).setIfInBounds target moved }

end GeneratorPool

end ShiftReduce
