import ShiftReduce.Grammar.Basic

/-!
# Choosing a reduction

After every shift at most one rule is applied: to the longest run of trees at the top of the stack
that some rule matches, and of the rules that match it the first in order of priority. Runs are
tried from the longest to the shortest, and for each run the rules in order, so predicates are asked
in this order too.
-/

namespace ShiftReduce

/-- The trees a reduction leaves beneath, the rule it applies, and the run it replaces. The rule has
been chosen, so its predicates are not asked any more. -/
structure Reduction (τ : Type) where
  below : List (Tree τ)
  rule : Rule.Erased τ
  run : List (Tree τ)

/-- The node that replaces the run. -/
def Reduction.node {τ : Type} (r : Reduction τ) : Tree τ := .node r.rule.symbol r.run

variable {m : Type → Type} [Monad m] {τ : Type}

def firstMatch (run : List (Tree τ)) : List (Rule m τ) → m (Option (Rule m τ))
  | [] => pure none
  | rule :: others => do
    if ← rule.isMatch run then pure (some rule) else firstMatch run others

/-- The first reduction of a run of trees at the top of the stack or, failing that, of a shorter run
at the top. The empty run is never reduced. -/
def firstReduction (rules : List (Rule m τ)) (below : List (Tree τ)) :
    List (Tree τ) → m (Option (Reduction τ))
  | [] => pure none
  | t :: run => do
    match ← firstMatch (t :: run) rules with
    | some rule => pure (some { below, rule := rule.erased, run := t :: run })
    | none => firstReduction rules (below ++ [t]) run

/-- The reduction a grammar asks for. No rule is longer than the longest, so the runs longer than
that are left out. -/
def Grammar.findReduction (g : Grammar m τ) (stack : List (Tree τ)) : m (Option (Reduction τ)) :=
  let start := stack.length - g.maxRuleLength
  firstReduction g.rules (stack.take start) (stack.drop start)

end ShiftReduce
