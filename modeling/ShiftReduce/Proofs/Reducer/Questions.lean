import ShiftReduce.Callback
import ShiftReduce.Proofs.Reducer.Reduction

/-!
# Questions to predicates

What a search does to a world says little about the questions that it asks: a predicate may leave no
trace. `Grammar.asking` puts in place of every predicate the request to ask it, so a search of this
grammar is the plan of its questions, whatever the answers. Carried out with the predicates'
own answers the plan is the search itself (`Grammar.run_asking`), as it is for a single rule and a
single schema (`Rule.run_asking`, `Schema.run_asking`). `Callback.calls` lists the questions that
come up on the way; of two plans one after the other, the second one's come up only if the first
ends with a value (`Callback.calls_bind`).
-/

namespace ShiftReduce

/-- The calls that a callback makes when it is performed in a scene, in order. -/
def Callback.calls {σ ρ Call α : Type} {Answer : Call → Type}
    (answer : (c : Call) → StateM (Scene ρ σ) (Answer c)) :
    Callback σ Call Answer α → Scene ρ σ → List Call
  | done _, _ => []
  | raise _, _ => []
  | read next, scene => (next scene.world).calls answer scene
  | write world next, scene => next.calls answer { scene with world }
  | call request next, scene =>
    let (reply, after) := (answer request).run scene
    request :: (next reply).calls answer after

namespace Callback

variable {σ ρ Call α β : Type} {Answer : Call → Type}
  {answer : (c : Call) → StateM (Scene ρ σ) (Answer c)}

/-- Of two callbacks one after the other, the second calls only if the first ends with a value, and
from where the first has left the scene. -/
theorem calls_bind (x : Callback σ Call Answer α) (f : α → Callback σ Call Answer β)
    (scene : Scene ρ σ) :
    (x.bind f).calls answer scene = x.calls answer scene ++
      match (x.run answer).run scene with
      | (.ok a, after) => (f a).calls answer after
      | (.error _, _) => [] := by
  induction x generalizing scene with
  | done | raise => rfl
  | read next ih => exact ih scene.world scene
  | write world next ih => exact ih { scene with world }
  | call request next ih =>
    rcases hanswer : (answer request).run scene with ⟨reply, after⟩
    simp only [bind, run, calls, hanswer, Action.run_bind_of_ok (Action.run_lift hanswer),
      List.cons_append]
    exact congrArg (request :: ·) (ih reply after)

theorem calls_ofExcept (result : Except Error α) (scene : Scene ρ σ) :
    (ofExcept result).calls answer scene = [] := by
  cases result <;> rfl

theorem calls_bind_of_ok {x : Callback σ Call Answer α} {scene after : Scene ρ σ} {a : α}
    (h : (x.run answer).run scene = (.ok a, after)) (f : α → Callback σ Call Answer β) :
    (x.bind f).calls answer scene = x.calls answer scene ++ (f a).calls answer after := by
  rw [calls_bind, h]

theorem calls_bind_of_error {x : Callback σ Call Answer α} {scene after : Scene ρ σ} {error : Error}
    (h : (x.run answer).run scene = (.error error, after)) (f : α → Callback σ Call Answer β) :
    (x.bind f).calls answer scene = x.calls answer scene := by
  rw [calls_bind, h, List.append_nil]

end Callback

/-- A predicate and the token that it is asked about. -/
abbrev Question (ρ ω τ : Type) := (τ → Action (Scene ρ ω) Bool) × τ

/-- Code that asks questions. -/
abbrev Inquiry (ρ ω τ : Type) := Callback ω (Question ρ ω τ) fun _ => Except Error Bool

namespace Question

variable {ρ ω τ : Type}

/-- Asks, and ends as the predicate does. -/
def ask (question : Question ρ ω τ) : Inquiry ρ ω τ Bool := .call question .ofExcept

/-- What the predicate makes of its token. -/
def answer (question : Question ρ ω τ) : StateM (Scene ρ ω) (Except Error Bool) :=
  (question.1 question.2).attempt

theorem run_ask (question : Question ρ ω τ) :
    question.ask.run answer = question.1 question.2 := by
  simp only [ask, Callback.run, Callback.run_ofExcept]
  exact Action.attempt_bind_ofExcept _

/-- Asking is a single question. -/
theorem calls_ask (question : Question ρ ω τ) (scene : Scene ρ ω) :
    question.ask.calls answer scene = [question] :=
  congrArg (question :: ·) (Callback.calls_ofExcept _ _)

end Question

section Asking

variable {ρ ω τ : Type}

def Schema.asking : Schema (Action (Scene ρ ω)) τ → Schema (Inquiry ρ ω τ) τ
  | terminal accepts => terminal fun token => Question.ask (accepts, token)
  | nonterminal symbol => nonterminal symbol

def Rule.asking (rule : Rule (Action (Scene ρ ω)) τ) : Rule (Inquiry ρ ω τ) τ :=
  { symbol := rule.symbol, schemas := rule.schemas.map Schema.asking }

/-- The same grammar with requests for its predicates. -/
def Grammar.asking (g : Grammar (Action (Scene ρ ω)) τ) : Grammar (Inquiry ρ ω τ) τ :=
  { generator := g.generator
    defaultRule := g.defaultRule.asking
    others := g.others.map Rule.asking }

theorem Schema.map_run_asking (schema : Schema (Action (Scene ρ ω)) τ) :
    schema.asking.map (Callback.run Question.answer) = schema := by
  cases schema with
  | terminal accepts => exact congrArg Schema.terminal (funext fun token => Question.run_ask _)
  | nonterminal symbol => rfl

theorem Rule.map_run_asking (rule : Rule (Action (Scene ρ ω)) τ) :
    rule.asking.map (Callback.run Question.answer) = rule := by
  simp only [Rule.map, Rule.asking, List.map_map, Function.comp_def, Schema.map_run_asking,
    List.map_id']

theorem Grammar.map_run_asking (g : Grammar (Action (Scene ρ ω)) τ) :
    g.asking.map (Callback.run Question.answer) = g := by
  simp only [Grammar.map, Grammar.asking, List.map_map, Function.comp_def, Rule.map_run_asking,
    List.map_id']

/-- Carrying out the plan of a comparison, with the predicate's own answer, is comparing. -/
theorem Schema.run_asking (schema : Schema (Action (Scene ρ ω)) τ) (t : Tree τ) :
    (schema.asking.accepts t).run Question.answer = schema.accepts t := by
  have hmap := accepts_map (φ := Callback.run (Question.answer (ρ := ρ) (ω := ω) (τ := τ)))
    (fun _ => rfl) schema.asking t
  rw [map_run_asking] at hmap
  exact hmap.symm

theorem Rule.run_asking (rule : Rule (Action (Scene ρ ω)) τ) (run : List (Tree τ)) :
    (rule.asking.isMatch run).run Question.answer = rule.isMatch run := by
  have hmap := isMatch_map (φ := Callback.run (Question.answer (ρ := ρ) (ω := ω) (τ := τ)))
    (fun _ => rfl) (Callback.run_bind _) rule.asking run
  rw [map_run_asking] at hmap
  exact hmap.symm

/-- Carrying out the plan of a search, with the predicates' own answers, is searching. -/
theorem Grammar.run_asking (g : Grammar (Action (Scene ρ ω)) τ) (stack : List (Tree τ)) :
    (g.asking.findReduction stack).run Question.answer = g.findReduction stack := by
  have hmap := findReduction_map (φ := Callback.run (Question.answer (ρ := ρ) (ω := ω) (τ := τ)))
    (fun _ => rfl) (Callback.run_bind _) g.asking stack
  rw [map_run_asking] at hmap
  exact hmap.symm

end Asking

end ShiftReduce
