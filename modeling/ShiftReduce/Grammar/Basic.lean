import ShiftReduce.Grammar.Rule
import ShiftReduce.Symbol.Generator

/-!
# Grammars

A grammar is a list of rules that is not empty, in order of priority, together with the generator
its symbols came from. The builder issues symbols and collects rules; a finished grammar takes the
generator along and the builder goes on with a fresh scope.

A builder keeps the first rule apart from those after it. Only when it builds are they gathered in
one list.
-/

namespace ShiftReduce

structure Grammar (m : Type → Type) (τ : Type) where
  generator : Generator
  defaultRule : Rule m τ
  others : List (Rule m τ) := []

namespace Grammar

variable {m n : Type → Type} {τ : Type}

/-- The rules in order of priority, the default rule first. -/
def rules (g : Grammar m τ) : List (Rule m τ) := g.defaultRule :: g.others

/-- A grammar of gathered rules. The one in front is the default rule. -/
def ofRules (generator : Generator) (rules : List (Rule m τ)) (h : rules ≠ []) : Grammar m τ :=
  { generator, defaultRule := rules.head h, others := rules.tail }

theorem rules_ofRules (generator : Generator) {rules : List (Rule m τ)} (h : rules ≠ []) :
    (ofRules generator rules h).rules = rules :=
  List.cons_head_tail h

def size (g : Grammar m τ) : Nat := g.rules.length

def maxRuleLength (g : Grammar m τ) : Nat := g.rules.foldl (fun n r => max n r.size) 0

/-- The scope of the symbols that the grammar was built with. -/
def scope (g : Grammar m τ) : UInt64 := g.generator.scope

/-- The same grammar with its predicates' answers carried to another monad. -/
def map (f : m Bool → n Bool) (g : Grammar m τ) : Grammar n τ :=
  { g with defaultRule := g.defaultRule.map f, others := g.others.map (Rule.map f) }

/-- A grammar of predicates that only look at the token, for use in any monad. -/
def lift [Pure m] (g : Grammar Id τ) : Grammar m τ :=
  g.map fun answer : Id Bool => pure answer.run

/-- Moves a grammar to another place. Its generator leaves one with a scope of its own behind, which
is lost with the old place. -/
def moved (g : Grammar m τ) : StateM ScopeSupply (Grammar m τ) := do
  let (generator, _) ← g.generator.moveOut
  return { g with generator }

end Grammar

/-- Issues symbols and collects rules for a grammar, of which the first will be its default rule. -/
structure GrammarBuilder (m : Type → Type) (τ : Type) where
  generator : Generator
  defaultRule? : Option (Rule m τ) := none
  others : List (Rule m τ) := []

namespace GrammarBuilder

variable {m : Type → Type} {τ : Type}

/-- A builder with a scope of its own and no rules. -/
def create : StateM ScopeSupply (GrammarBuilder m τ) := do
  return { generator := ← Generator.create }

def size (b : GrammarBuilder m τ) : Nat :=
  b.others.length + if b.defaultRule?.isSome then 1 else 0

def issueSymbol (b : GrammarBuilder m τ) : Symbol × GrammarBuilder m τ :=
  let (symbol, generator) := b.generator.issue
  (symbol, { b with generator })

def addRule (b : GrammarBuilder m τ) (r : Rule m τ) : GrammarBuilder m τ :=
  match b.defaultRule? with
  | none => { b with defaultRule? := some r }
  | some _ => { b with others := b.others ++ [r] }

theorem generator_addRule (b : GrammarBuilder m τ) (r : Rule m τ) :
    (b.addRule r).generator = b.generator := by
  unfold addRule
  split <;> rfl

/-- The grammar of the rules collected, with the generator, and the builder without rules and with a
fresh scope. The grammar is made first and then moved into the result. Without a default rule there
is no grammar, and the builder stays as it is. -/
def build (b : GrammarBuilder m τ) :
    StateM ScopeSupply (Option (Grammar m τ) × GrammarBuilder m τ) :=
  match b.defaultRule? with
  | none => pure (none, b)
  | some defaultRule => do
    let rules := defaultRule :: b.others
    let emptied : GrammarBuilder m τ := { b with defaultRule? := none, others := [] }
    let (generator, fresh) ← emptied.generator.moveOut
    let g ← (Grammar.ofRules generator rules (List.cons_ne_nil _ _)).moved
    return (some g, { emptied with generator := fresh })

end GrammarBuilder

end ShiftReduce
