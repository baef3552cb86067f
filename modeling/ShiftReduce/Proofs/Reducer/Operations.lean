import ShiftReduce.Proofs.Reducer.Reduction
import ShiftReduce.Reducer.Operations

/-!
# What an operation does to a reducer

Each lemma says what one operation leaves of the reducer, however it ends: an error of a predicate
or a hook cuts the operation short, but what was done before stays done. The callbacks have to be
unobtrusive, that is, to leave the reducer they run in as it is; the callbacks of a `CallbackEngine`
always are.
-/

namespace ShiftReduce

/-- Predicates and hooks that leave the reducer that runs them as it is. -/
structure Engine.Unobtrusive {τ ω : Type} (e : Engine (Action (Scene (Reducer τ) ω)) τ) :
    Prop where
  grammar : e.grammar.Spares (·.busy = true)
  onReset : ∀ r, Action.Spares (·.busy = true) (e.hooks.onReset r)
  onShift : ∀ r token, Action.Spares (·.busy = true) (e.hooks.onShift r token)
  onReduce : ∀ r rule node, Action.Spares (·.busy = true) (e.hooks.onReduce r rule node)
  onFinish : ∀ r result, Action.Spares (·.busy = true) (e.hooks.onFinish r result)

/-- The stack after a token was shifted onto it and at most one rule was applied. -/
inductive Pushed {s τ : Type} (rules : List (Rule (Action s) τ)) (stack : List (Tree τ))
    (token : τ) : List (Tree τ) → Prop
  | shift : Pushed rules stack token (stack ++ [.leaf token])
  | reduce (r : Reduction τ) (allowed : r.Allowed rules (stack ++ [.leaf token])) :
    Pushed rules stack token (r.below ++ [r.node])

namespace Engine

open ShiftReduce.Action

variable {τ ω α : Type}

@[simp] theorem run_reducer (scene : Scene (Reducer τ) ω) :
    reducer.run scene = (.ok scene.subject, scene) := rfl

@[simp] theorem run_modifyReducer (f : Reducer τ → Reducer τ) (scene : Scene (Reducer τ) ω) :
    (modifyReducer f).run scene = (.ok (), { scene with subject := f scene.subject }) := rfl

@[simp] theorem mark_subject (busy : Bool) (scene : Scene (Reducer τ) ω) :
    (mark busy scene).subject = { scene.subject with busy } := rfl

/-- An exclusive operation leaves what its body leaves, with the flag down again. -/
theorem exclusively_subject {operation : Action (Scene (Reducer τ) ω) α}
    {scene : Scene (Reducer τ) ω} (h : scene.subject.busy = false) :
    ((exclusively operation).run scene).2.subject =
      { (operation.run (mark true scene)).2.subject with busy := false } := by
  rw [exclusively_of_not_busy operation h, mark_subject]

variable {e : Engine (Action (Scene (Reducer τ) ω)) τ} {scene : Scene (Reducer τ) ω}

/-- A reset empties the stack and the residue, whatever its hook does. -/
theorem reset_subject (he : e.Unobtrusive) (h : scene.subject.busy = false) :
    (e.reset.run scene).2.subject =
      { scene.subject with stack := [], residue := [], complete := false } := by
  unfold reset
  rw [exclusively_subject h, run_bind_of_ok (run_modifyReducer _ _),
    run_bind_of_ok (run_reducer _), he.onReset _ _ rfl, ← h]
  rfl

/-- A finish settles its result before the hook is told of it; the hook decides only whether the
result is returned. -/
theorem run_finish (h : scene.subject.busy = false) :
    let outcome := Reducer.split scene.subject.policy scene.subject.stack
    let finished : Reducer τ := { scene.subject with
      stack := []
      residue := outcome.2
      complete := scene.subject.stack.length == 1
      busy := true }
    let told := (e.hooks.onFinish finished outcome.1).run { scene with subject := finished }
    e.finish.run scene = (told.1.map fun _ => outcome.1, mark false told.2) := by
  intro outcome finished told
  have hbody : (do
      modifyReducer fun r =>
        { r with stack := [], residue := outcome.2, complete := r.stack.length == 1 }
      e.hooks.onFinish (← reducer) outcome.1
      pure outcome.1 : Action (Scene (Reducer τ) ω) (Option (Tree τ))).run (mark true scene) =
        (told.1.map fun _ => outcome.1, told.2) := by
    rw [run_bind_of_ok (run_modifyReducer _ _), run_bind_of_ok (run_reducer _), run_bind_pure]
    rfl
  unfold finish
  rw [exclusively_of_not_busy _ h, run_bind_of_ok (run_reducer _)]
  exact congrArg (fun body => (body.1, mark false body.2)) hbody

/-- A finish empties the stack, whatever its hook does. -/
theorem finish_subject (he : e.Unobtrusive) (h : scene.subject.busy = false) :
    (e.finish.run scene).2.subject =
      { scene.subject with
        stack := []
        residue := (Reducer.split scene.subject.policy scene.subject.stack).2
        complete := scene.subject.stack.length == 1 } := by
  rw [run_finish h]
  simp only [mark_subject]
  rw [he.onFinish _ _ _ rfl, ← h]

/-- A finish that returns returns what the policy makes of the stack. -/
theorem finish_result {result : Option (Tree τ)} {after : Scene (Reducer τ) ω}
    (h : scene.subject.busy = false) (hr : e.finish.run scene = (.ok result, after)) :
    result = (Reducer.split scene.subject.policy scene.subject.stack).1 := by
  rw [run_finish h] at hr
  have hr := congrArg Prod.fst hr
  simp only [Except.map] at hr
  split at hr
  · cases hr
  · cases hr
    rfl

/-- The residue and then the result are the stack that was finished. -/
theorem finish_deals (he : e.Unobtrusive) (h : scene.subject.busy = false)
    {result : Option (Tree τ)} {after : Scene (Reducer τ) ω}
    (hr : e.finish.run scene = (.ok result, after)) :
    after.subject.residue ++ result.toList = scene.subject.stack ∧ after.subject.stack = [] := by
  have hafter := finish_subject he h
  rw [hr] at hafter
  have hafter : after.subject = _ := hafter
  rw [hafter, finish_result h hr]
  exact ⟨Reducer.split_append _ _, rfl⟩

/-- A search and the reduction it finds, in the middle of a push. -/
theorem reduce_subject (he : e.Unobtrusive) (h : scene.subject.busy = true) :
    ∃ stack, (e.reduce.run scene).2.subject = { scene.subject with stack } ∧
      (stack = scene.subject.stack ∨ ∃ r : Reduction τ,
        r.Allowed e.grammar.rules scene.subject.stack ∧
          stack = r.below ++ [r.node]) := by
  unfold reduce
  rw [run_bind_of_ok (run_reducer _)]
  have hsame := he.grammar.findReduction scene.subject.stack scene h
  rcases hf : (e.grammar.findReduction scene.subject.stack).run scene with ⟨_ | found, between⟩
  · rw [run_bind_of_error hf]
    rw [hf] at hsame
    exact ⟨_, hsame, .inl rfl⟩
  · rw [run_bind_of_ok hf]
    rw [hf] at hsame
    have hsame : between.subject = scene.subject := hsame
    cases found with
    | none => exact ⟨_, hsame, .inl rfl⟩
    | some r =>
      refine ⟨_, ?_, .inr ⟨r, Grammar.findReduction_allowed hf, rfl⟩⟩
      simp only []
      rw [run_bind_of_ok (run_modifyReducer _ _), run_bind_of_ok (run_reducer _), run_bind_pure,
        he.onReduce _ _ _ _ (hsame ▸ h), hsame]

/-- The scene in which the hook of a push is told of the shift. -/
def shifted (scene : Scene (Reducer τ) ω) (token : τ) : Scene (Reducer τ) ω :=
  { scene with
    subject := { scene.subject with
      stack := scene.subject.stack ++ [.leaf token]
      busy := true } }

/-- A push is its hook and a reduction, from the scene where the token was shifted. -/
theorem run_push (h : scene.subject.busy = false) (token : τ) :
    let S := shifted scene token
    let body := (e.hooks.onShift S.subject token >>= fun _ => e.reduce).run S
    (e.push token).run scene = (body.1, mark false body.2) := by
  unfold push
  rw [exclusively_of_not_busy _ h, run_bind_of_ok (run_modifyReducer _ _),
    run_bind_of_ok (run_reducer _)]
  rfl

/-- A push shifts its token and then applies at most one rule, whatever the callbacks do. -/
theorem push_subject (he : e.Unobtrusive) (h : scene.subject.busy = false) (token : τ) :
    ∃ stack, ((e.push token).run scene).2.subject = { scene.subject with stack } ∧
      Pushed e.grammar.rules scene.subject.stack token stack := by
  have htold := he.onShift (shifted scene token).subject token (shifted scene token) rfl
  rw [run_push h]
  simp only [mark_subject]
  rcases hr : (e.hooks.onShift (shifted scene token).subject token).run (shifted scene token) with
    ⟨_ | _, between⟩
  · rw [hr] at htold
    have htold : between.subject = (shifted scene token).subject := htold
    refine ⟨_, ?_, .shift⟩
    rw [run_bind_of_error hr, htold, ← h]
    rfl
  · rw [hr] at htold
    have htold : between.subject = (shifted scene token).subject := htold
    have hbusy : between.subject.busy = true := htold ▸ rfl
    obtain ⟨stack, hstack, hcases⟩ := e.reduce_subject he hbusy
    rw [run_bind_of_ok hr, hstack, htold, ← h]
    rw [htold] at hcases
    refine ⟨stack, rfl, ?_⟩
    rcases hcases with rfl | ⟨r, hallowed, rfl⟩
    · exact .shift
    · exact .reduce r hallowed

end Engine

end ShiftReduce
