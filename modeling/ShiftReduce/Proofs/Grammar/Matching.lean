import ShiftReduce.Proofs.Reducer.Questions

/-!
# What matching asks

A rule is compared with a run of trees pair by pair: each schema with the tree in its place. Only a
terminal that is paired with a leaf asks a question (`Pairing.question?`), and how the comparison of
a pair ends is a matter of the pair and of the scene that the pairs before it have left
(`Pairing.Compared`). Comparing goes on as long as pairs fit, so it either goes through all of them
or stops at the first one that does not (`Pairing.Walk`), whatever predicates do to the scene and
whatever they would have answered elsewhere.
-/

namespace ShiftReduce

/-- A schema and the tree in its place. -/
abbrev Pairing (ρ ω τ : Type) := Schema (Action (Scene ρ ω)) τ × Tree τ

namespace Pairing

variable {ρ ω τ : Type}

/-- The question that comparing asks: only a terminal asks, and only about a leaf. -/
def question? : Pairing ρ ω τ → Option (Question ρ ω τ)
  | (.terminal accepts, .leaf token) => some (accepts, token)
  | _ => none

/-- How comparing ends. A predicate does as it likes; nothing else has an effect. -/
inductive Compared : Pairing ρ ω τ → Scene ρ ω → Except Error Bool → Scene ρ ω → Prop
  | asked {accepts : τ → Action (Scene ρ ω) Bool} {token : τ} {before after : Scene ρ ω}
      {answer : Except Error Bool} (h : (accepts token).run before = (answer, after)) :
      Compared (.terminal accepts, .leaf token) before answer after
  | symbol {symbol : Symbol} {children : List (Tree τ)} {scene : Scene ρ ω} :
      Compared (.nonterminal symbol, .node symbol children) scene (.ok true) scene
  | otherSymbol {symbol other : Symbol} {children : List (Tree τ)} {scene : Scene ρ ω}
      (h : other ≠ symbol) :
      Compared (.nonterminal symbol, .node other children) scene (.ok false) scene
  | node {accepts : τ → Action (Scene ρ ω) Bool} {symbol : Symbol} {children : List (Tree τ)}
      {scene : Scene ρ ω} :
      Compared (.terminal accepts, .node symbol children) scene (.ok false) scene
  | leaf {symbol : Symbol} {token : τ} {scene : Scene ρ ω} :
      Compared (.nonterminal symbol, .leaf token) scene (.ok false) scene

/-- All pairs fit, each compared where the pairs before it have left the scene. -/
inductive Fit : List (Pairing ρ ω τ) → Scene ρ ω → Scene ρ ω → Prop
  | nil {scene : Scene ρ ω} : Fit [] scene scene
  | cons {pair : Pairing ρ ω τ} {pairs : List (Pairing ρ ω τ)} {before between after : Scene ρ ω}
      (hpair : Compared pair before (.ok true) between) (hpairs : Fit pairs between after) :
      Fit (pair :: pairs) before after

/-- The questions of a comparison and its end: through all pairs, or at the first one that does not
fit, which ends it with its own misfit or error. -/
inductive Walk : List (Pairing ρ ω τ) → Scene ρ ω → List (Question ρ ω τ) →
    Except Error Bool → Scene ρ ω → Prop
  | through {pairs : List (Pairing ρ ω τ)} {before after : Scene ρ ω}
      (h : Fit pairs before after) :
      Walk pairs before (pairs.filterMap question?) (.ok true) after
  | stopped {fitting others : List (Pairing ρ ω τ)} {pair : Pairing ρ ω τ}
      {before between after : Scene ρ ω} {answer : Except Error Bool}
      (hfitting : Fit fitting before between) (hpair : Compared pair between answer after)
      (hmisfit : answer ≠ .ok true) :
      Walk (fitting ++ pair :: others) before ((fitting ++ [pair]).filterMap question?) answer after

variable {pair : Pairing ρ ω τ} {pairs : List (Pairing ρ ω τ)} {before between after : Scene ρ ω}
  {asked : List (Question ρ ω τ)} {answer result : Except Error Bool}

theorem compared_iff :
    pair.Compared before answer after ↔ (pair.1.accepts pair.2).run before = (answer, after) := by
  constructor
  · rintro (h | _ | h | _ | _)
    · exact h
    · exact congrArg (fun fits => (Except.ok fits, before)) (beq_self_eq_true _)
    · exact congrArg (fun fits => (Except.ok fits, before)) (beq_eq_false_iff_ne.2 h)
    · rfl
    · rfl
  · obtain ⟨schema, t⟩ := pair
    intro h
    cases schema with
    | terminal accepts =>
      cases t with
      | leaf token => exact .asked h
      | node symbol children =>
        cases h
        exact .node
    | nonterminal symbol =>
      cases t with
      | leaf token =>
        cases h
        exact .leaf
      | node other children =>
        cases h
        cases hsymbol : other == symbol with
        | false => exact .otherSymbol (beq_eq_false_iff_ne.1 hsymbol)
        | true =>
          rw [eq_of_beq hsymbol]
          exact .symbol

/-- The plan of one comparison. -/
theorem calls_asking (pair : Pairing ρ ω τ) (scene : Scene ρ ω) :
    (pair.1.asking.accepts pair.2).calls Question.answer scene = pair.question?.toList := by
  obtain ⟨schema, t⟩ := pair
  cases schema with
  | terminal accepts =>
    cases t with
    | leaf token => exact Question.calls_ask (accepts, token) scene
    | node => rfl
  | nonterminal => cases t <;> rfl

theorem filterMap_question? (pair : Pairing ρ ω τ) (pairs : List (Pairing ρ ω τ)) :
    (pair :: pairs).filterMap question? = pair.question?.toList ++ pairs.filterMap question? := by
  cases h : pair.question? <;> simp [h]

/-- A pair that fits, in front of a comparison. -/
theorem Walk.cons (hpair : pair.Compared before (.ok true) between)
    (h : Walk pairs between asked result after) :
    Walk (pair :: pairs) before (pair.question?.toList ++ asked) result after := by
  cases h with
  | through hfit =>
    rw [← filterMap_question?]
    exact .through (.cons hpair hfit)
  | stopped hfitting hstop hmisfit =>
    rw [← filterMap_question?]
    exact .stopped (.cons hpair hfitting) hstop hmisfit

/-- A pair that does not fit ends a comparison. -/
theorem Walk.of_misfit (hpair : pair.Compared before answer after) (h : answer ≠ .ok true) :
    Walk (pair :: pairs) before pair.question?.toList answer after := by
  have hstopped : Walk ([] ++ pair :: pairs) before (([] ++ [pair]).filterMap question?) answer
      after := .stopped .nil hpair h
  rwa [List.nil_append, List.nil_append, filterMap_question?, List.filterMap_nil,
    List.append_nil] at hstopped

/-- A comparison that ends with a match went through. -/
theorem Walk.fit (h : Walk pairs before asked (.ok true) after) : Fit pairs before after := by
  cases h with
  | through hfit => exact hfit
  | stopped _ _ hmisfit => exact absurd rfl hmisfit

end Pairing

namespace Rule

open Pairing

variable {ρ ω τ : Type} {before after : Scene ρ ω} {result : Except Error Bool}
  {schemas : List (Schema (Action (Scene ρ ω)) τ)} {ts : List (Tree τ)}

/-- A comparison, and the plan of it, walk over the pairs. -/
theorem acceptsAll_walk (h : (acceptsAll schemas ts).run before = (result, after)) :
    Walk (schemas.zip ts) before
      ((acceptsAll (schemas.map Schema.asking) ts).calls Question.answer before) result after := by
  induction schemas generalizing ts before with
  | nil =>
    cases h
    exact .through .nil
  | cons schema schemas ih =>
    cases ts with
    | nil =>
      cases h
      exact .through .nil
    | cons t ts =>
      have hasked := calls_asking (schema, t) before
      rcases hrun : (schema.accepts t).run before with ⟨answer, between⟩
      have hpair : Compared (schema, t) before answer between := compared_iff.2 hrun
      have hplan : ((schema.asking.accepts t).run Question.answer).run before =
          (answer, between) := by
        rw [schema.run_asking, hrun]
      -- The plan goes on from the first answer as the match does, so both are taken apart there.
      let others (fits : Bool) : Inquiry ρ ω τ Bool :=
        if fits then acceptsAll (schemas.map Schema.asking) ts else pure false
      change Walk ((schema, t) :: schemas.zip ts) before
        (((schema.asking.accepts t).bind others).calls Question.answer before) result after
      cases answer with
      | error error =>
        rw [Callback.calls_bind_of_error hplan, hasked]
        cases (Action.run_bind_of_error hrun).symm.trans h
        exact .of_misfit hpair (by simp)
      | ok fits =>
        rw [Callback.calls_bind_of_ok hplan, hasked]
        have hothers := (Action.run_bind_of_ok hrun).symm.trans h
        cases fits with
        | false =>
          have hnone : (others false).calls Question.answer between = [] := rfl
          rw [hnone, List.append_nil]
          cases hothers
          exact .of_misfit hpair (by simp)
        | true => exact .cons hpair (ih hothers)

/-- All pairs fit exactly if their comparison ends with a match. -/
theorem acceptsAll_iff_fit :
    (acceptsAll schemas ts).run before = (.ok true, after) ↔ Fit (schemas.zip ts) before after := by
  refine ⟨fun h => (acceptsAll_walk h).fit, fun h => ?_⟩
  induction schemas generalizing ts before with
  | nil =>
    cases h
    rfl
  | cons schema schemas ih =>
    cases ts with
    | nil =>
      cases h
      rfl
    | cons t ts =>
      rw [List.zip_cons_cons] at h
      cases h with
      | cons hpair hpairs =>
        exact (Action.run_bind_of_ok (compared_iff.1 hpair)).trans (ih hpairs)

/-- A rule matches a run of trees exactly if there are as many trees as schemas and all pairs fit.
It asks nothing if the numbers differ. Otherwise it asks the predicates of the terminals that are
paired with leaves, each once and from left to right, up to the first pair that does not fit, and no
others: a pair that does not fit ends the match with `false`, and a predicate that fails ends it with
its error. The questions are those of the rule's plan, which is matching itself when it is carried
out. -/
theorem isMatch_asks_until_misfit (rule : Rule (Action (Scene ρ ω)) τ) (ts : List (Tree τ))
    (before : Scene ρ ω) :
    let pairs := rule.schemas.zip ts
    let plan := rule.asking.isMatch ts
    let asked := plan.calls Question.answer before
    plan.run Question.answer = rule.isMatch ts ∧
    (∀ after, (rule.isMatch ts).run before = (.ok true, after) ↔
      ts.length = rule.size ∧ Fit pairs before after) ∧
    (ts.length ≠ rule.size → asked = [] ∧ (rule.isMatch ts).run before = (.ok false, before)) ∧
    (ts.length = rule.size → ∃ result after,
      (rule.isMatch ts).run before = (result, after) ∧ Walk pairs before asked result after) := by
  intro pairs plan asked
  have hsize : rule.asking.size = rule.size := List.length_map ..
  have hasked (next : Inquiry ρ ω τ Bool) (h : plan = next) :
      asked = next.calls Question.answer before := h ▸ rfl
  refine ⟨rule.run_asking ts, fun after => ?_, fun hlength => ?_, fun hlength => ?_⟩
  · rw [isMatch]
    by_cases hlength : ts.length = rule.size
    · rw [if_pos hlength, acceptsAll_iff_fit, and_iff_right hlength]
    · rw [if_neg hlength]
      refine iff_of_false (fun h => ?_) fun h => hlength h.1
      cases h
  · rw [hasked (pure false) (if_neg (hsize ▸ hlength)), isMatch, if_neg hlength]
    exact ⟨rfl, rfl⟩
  · rw [hasked _ (if_pos (hsize ▸ hlength)), isMatch, if_pos hlength]
    exact ⟨_, _, rfl, acceptsAll_walk rfl⟩

/-- A predicate that accepts only once ends a match when it is asked again. -/
example :
    let once : Bool → Action (Scene Unit Bool) Bool := fun _ => do
      let scene ← get
      modify fun scene => { scene with world := true }
      pure !scene.world
    let rule : Rule _ Bool := { symbol := ⟨0, 0⟩, schemas := List.replicate 3 (.terminal once) }
    (rule.asking.isMatch [.leaf false, .leaf true, .leaf false]).calls Question.answer ⟨(), false⟩ =
      [(once, false), (once, true)] := rfl

end Rule

end ShiftReduce
