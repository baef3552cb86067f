import ShiftReduce.Proofs.Grammar.Derivation
import ShiftReduce.Proofs.Reducer.Operations
import ShiftReduce.Proofs.Reducer.Questions

/-!
# Searching every run

The exhaustive search (`Grammar.searchAll`) tries every run of trees at the top of the stack, the
longest first, with every rule in order. `Grammar.findReduction` leaves out the runs that are longer
than every rule. A rule compares lengths before it asks a predicate, so nothing is lost by that and
nothing shows: the two searches are one program, in every monad that predicates answer in
(`Grammar.findReduction_eq_searchAll`).
-/

namespace ShiftReduce

section Search

variable {m : Type → Type} [Monad m] {τ : Type}

/-- The runs at the top of the stack that are not empty, each with every rule: the longest run
first, and the rules in order. A run is given by the number of trees beneath it. -/
def Grammar.attempts (g : Grammar m τ) (stack : List (Tree τ)) : List (Nat × Rule m τ) :=
  (List.range stack.length).flatMap fun i => g.rules.map fun rule => (i, rule)

/-- The first attempt at which a rule matches. -/
def Grammar.searchAll (g : Grammar m τ) (stack : List (Tree τ)) : m (Option (Reduction τ)) := do
  let found ← (g.attempts stack).findM? fun (i, rule) => rule.isMatch (stack.drop i)
  pure (found.map fun (i, rule) =>
    { below := stack.take i, rule := rule.erased, run := stack.drop i })

variable [LawfulMonad m] {rules : List (Rule m τ)}

/-! ## Runs that are too long -/

/-- A run that is longer than every rule is matched by none, and no predicate is asked. -/
theorem firstMatch_of_long {run : List (Tree τ)} (h : ∀ rule ∈ rules, rule.size < run.length) :
    firstMatch run rules = pure none := by
  induction rules with
  | nil => rfl
  | cons rule others ih =>
    obtain ⟨hrule, hothers⟩ := List.forall_mem_cons.1 h
    have hlength : run.length ≠ rule.size := by omega
    rw [firstMatch, Rule.isMatch, if_neg hlength, pure_bind]
    exact ih hothers

/-- A search may skip runs that are longer than every rule. -/
theorem firstReduction_skip (k : Nat) (below run : List (Tree τ))
    (h : ∀ rule ∈ rules, k = 0 ∨ rule.size + k ≤ run.length) :
    firstReduction rules below run = firstReduction rules (below ++ run.take k) (run.drop k) := by
  induction k generalizing below run with
  | zero => rw [List.take_zero, List.append_nil, List.drop_zero]
  | succ k ih =>
    cases run with
    | nil => rw [List.take_nil, List.append_nil, List.drop_nil]
    | cons t run =>
      have hlong : ∀ rule ∈ rules, rule.size < (t :: run).length := by
        intro rule hrule
        have := h rule hrule
        omega
      have hrest : ∀ rule ∈ rules, k = 0 ∨ rule.size + k ≤ run.length := by
        intro rule hrule
        have := h rule hrule
        simp only [List.length_cons] at this
        omega
      rw [firstReduction, firstMatch_of_long hlong, pure_bind]
      simp only [ih _ _ hrest, List.take_succ_cons, List.drop_succ_cons, List.append_assoc,
        List.singleton_append]

theorem Grammar.findReduction_eq_firstReduction (g : Grammar m τ) (stack : List (Tree τ)) :
    g.findReduction stack = firstReduction g.rules [] stack := by
  refine (firstReduction_skip _ [] stack fun rule hrule => ?_).symm
  have := g.size_le_maxRuleLength hrule
  omega

/-! ## The list of attempts -/

/-- Trying the rules in order with one run, and then whatever else there is to try. -/
theorem findM?_rules (p : Nat × Rule m τ → m Bool) {i : Nat} {run : List (Tree τ)}
    (hp : ∀ rule, p (i, rule) = rule.isMatch run) (rest : List (Nat × Rule m τ)) :
    (rules.map (fun rule => (i, rule)) ++ rest).findM? p = (do
      match ← firstMatch run rules with
      | some rule => pure (some (i, rule))
      | none => rest.findM? p) := by
  induction rules with
  | nil => rw [List.map_nil, List.nil_append, firstMatch, pure_bind]
  | cons rule others ih =>
    rw [List.map_cons, List.cons_append, List.findM?, firstMatch, hp, bind_assoc]
    congr 1
    funext answer
    cases answer with
    | true => simp only [if_true, pure_bind]
    | false => exact ih

theorem firstReduction_eq_findM? (below run : List (Tree τ)) :
    firstReduction rules below run = (do
      let found ← ((List.range' below.length run.length).flatMap fun i =>
        rules.map fun rule => (i, rule)).findM? fun (i, rule) =>
          rule.isMatch ((below ++ run).drop i)
      pure (found.map fun (i, rule) =>
        { below := (below ++ run).take i
          rule := rule.erased
          run := (below ++ run).drop i })) := by
  induction run generalizing below with
  | nil =>
    simp only [firstReduction, List.length_nil, List.range'_zero, List.flatMap_nil, List.findM?,
      pure_bind, Option.map_none]
  | cons t run ih =>
    have hdrop : (below ++ t :: run).drop below.length = t :: run := List.drop_left
    have htake : (below ++ t :: run).take below.length = below := List.take_left
    rw [List.length_cons, List.range'_succ, List.flatMap_cons,
      findM?_rules _ (fun rule => congrArg rule.isMatch hdrop), firstReduction, bind_assoc]
    congr 1
    funext found
    cases found with
    | some rule => simp only [pure_bind, Option.map_some, hdrop, htake]
    | none =>
      rw [ih (below ++ [t])]
      simp only [List.length_append, List.length_singleton, List.append_assoc,
        List.singleton_append]

/-- Leaving out the runs that are longer than every rule leaves the search what it is: the same
questions to the same predicates, in the same order, and the same reduction. -/
theorem Grammar.findReduction_eq_searchAll (g : Grammar m τ) (stack : List (Tree τ)) :
    g.findReduction stack = g.searchAll stack := by
  rw [findReduction_eq_firstReduction, firstReduction_eq_findM?]
  simp only [searchAll, attempts, List.range_eq_range', List.length_nil, List.nil_append]

end Search

/-! ## Pushes -/

namespace Engine

variable {τ ω : Type} (e : Engine (Action (Scene (Reducer τ) ω)) τ)

/-- Applies at most one rule at the top of the stack, searching every run. -/
def exhaustiveReduce : Action (Scene (Reducer τ) ω) Bool := do
  match ← e.grammar.searchAll (← reducer).stack with
  | none => pure false
  | some reduction =>
    modifyReducer fun r => { r with stack := reduction.below ++ [reduction.node] }
    e.hooks.onReduce (← reducer) reduction.rule reduction.node
    pure true

/-- Shifts a token and applies at most one rule, searching every run. -/
def exhaustivePush (token : τ) : Action (Scene (Reducer τ) ω) Bool := exclusively do
  modifyReducer fun r => { r with stack := r.stack ++ [.leaf token] }
  e.hooks.onShift (← reducer) token
  e.exhaustiveReduce

/-- A push is what it would be if it searched every run of the stack: it returns the same or ends in
the same error, and leaves the same stack and the same state of the callbacks. The questions that its
search asks, from any scene, are those of the exhaustive search, each to the same predicate about
the same token, in the same order. -/
theorem push_eq_exhaustivePush :
    (∀ token, e.push token = e.exhaustivePush token) ∧
      ∀ stack scene,
        (e.grammar.asking.findReduction stack).calls Question.answer scene =
          (e.grammar.asking.searchAll stack).calls Question.answer scene ∧
        (e.grammar.asking.findReduction stack).run Question.answer =
          e.grammar.findReduction stack ∧
        (e.grammar.asking.searchAll stack).run Question.answer = e.grammar.searchAll stack := by
  refine ⟨fun token => ?_, fun stack scene => ⟨?_, e.grammar.run_asking stack, ?_⟩⟩
  · have hsearch : e.grammar.searchAll = e.grammar.findReduction :=
      funext fun stack => (e.grammar.findReduction_eq_searchAll stack).symm
    have hreduce : e.reduce = e.exhaustiveReduce := by
      rw [exhaustiveReduce, hsearch]
      rfl
    rw [push, exhaustivePush, hreduce]
  · rw [Grammar.findReduction_eq_searchAll]
  · rw [← Grammar.findReduction_eq_searchAll, ← Grammar.findReduction_eq_searchAll,
      e.grammar.run_asking]

end Engine

end ShiftReduce
