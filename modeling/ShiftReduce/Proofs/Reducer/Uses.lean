import ShiftReduce.Proofs.Reducer.Operations
import ShiftReduce.Reducer.Callback

/-!
# Using a reducer from outside

A reducer with arbitrary callbacks, used in any way from outside of them. The callbacks are
unobtrusive, since every call that they make back into the reducer is refused
(`Engine.perform_of_busy`). A call from outside comes to a list of steps, and `runUses` lists the
steps of all calls beside the scene that they lead to; a parse that an error cuts short comes to the
steps up to that error. What every step keeps holds after all uses (`runUses_induction`).
-/

namespace ShiftReduce

/-! ## Calls from within callbacks -/

/-- While the flag is up every request is refused, and it changes nothing. -/
theorem Engine.perform_of_busy {τ ω : Type} (e : Engine (Action (Scene (Reducer τ) ω)) τ)
    (request : ReducerCall τ) {scene : Scene (Reducer τ) ω} (h : scene.subject.busy = true) :
    (e.perform request).run scene = (.error .reducerReentered, scene) := by
  have hreset : e.reset.run scene = (.error .reducerReentered, scene) := exclusively_of_busy _ h
  cases request with
  | push token => exact (exclusively_of_busy _ h : (e.push token).run scene = _)
  | reset => exact hreset
  | finish => exact (exclusively_of_busy _ h : e.finish.run scene = _)
  | parse tokens => exact Action.run_bind_of_error hreset

namespace CallbackEngine

variable {σ τ : Type} (e : CallbackEngine σ τ)

theorem spares_run {α : Type} (callback : ReducerCallback σ τ α) :
    Action.Spares (·.busy = true)
      (callback.run fun request => (e.refusing.perform request).attempt) := by
  refine Callback.spares_run (fun request scene h => ?_) callback
  change ((e.refusing.perform request).run scene).2.subject = scene.subject
  rw [e.refusing.perform_of_busy request h]

/-- Whatever callbacks do, they leave the reducer that runs them as it is. -/
theorem running_unobtrusive : e.running.Unobtrusive where
  grammar := by
    intro rule hrule schema hschema t
    change rule ∈ (e.grammar.map _).rules at hrule
    rw [Grammar.rules_map, List.mem_map] at hrule
    obtain ⟨rule, -, rfl⟩ := hrule
    obtain ⟨schema, -, rfl⟩ := List.mem_map.1 hschema
    cases schema with
    | nonterminal symbol => cases t <;> exact .pure _
    | terminal accepts =>
      cases t with
      | leaf token => exact e.spares_run (accepts token)
      | node => exact .pure false
  onReset _ := e.spares_run _
  onShift _ _ := e.spares_run _
  onReduce _ _ _ := e.spares_run _
  onFinish _ _ := e.spares_run _

end CallbackEngine

/-! ## Steps and uses -/

/-- An operation that is not made of others. -/
inductive Step (τ : Type) where
  | push (token : τ)
  | reset
  | finish

def Step.request {τ : Type} : Step τ → ReducerCall τ
  | push token => .push token
  | reset => .reset
  | finish => .finish

/-- The steps that a request is made of. -/
def ReducerCall.steps {τ : Type} : ReducerCall τ → List (Step τ)
  | push token => [.push token]
  | reset => [.reset]
  | finish => [.finish]
  | parse tokens => .reset :: (tokens.map .push ++ [.finish])

/-- What can be done from outside of the callbacks: a call, a change of the policy, and whatever
changes the state that the callbacks keep. -/
inductive Use (σ τ : Type) where
  | call (request : ReducerCall τ)
  | setPolicy (policy : Policy)
  | setWorld (world : σ)

namespace CallbackEngine

variable {σ τ : Type} (e : CallbackEngine σ τ)

/-- The scene that a step leads to, also if it ends in an error. -/
def afterStep (scene : Scene (Reducer τ) σ) (step : Step τ) : Scene (Reducer τ) σ :=
  ((e.perform step.request).run scene).2

/-- The steps of a list that are performed: those up to the first that ends in an error. -/
def performed : List (Step τ) → Scene (Reducer τ) σ → List (Step τ)
  | [], _ => []
  | step :: steps, scene =>
    match (e.perform step.request).run scene with
    | (.ok _, scene) => step :: performed steps scene
    | (.error _, _) => [step]

/-- The steps that a use comes to. -/
def stepsOf (scene : Scene (Reducer τ) σ) : Use σ τ → List (Step τ)
  | .call request => e.performed request.steps scene
  | .setPolicy _ => []
  | .setWorld _ => []

/-- The scene that a use leads to. -/
def afterUse (scene : Scene (Reducer τ) σ) : Use σ τ → Scene (Reducer τ) σ
  | .call request => ((e.perform request).run scene).2
  | .setPolicy policy => ((Engine.setPolicy policy).run scene).2
  | .setWorld world => { scene with world }

/-- The steps that uses come to, one use after the other, and the scene they lead to. -/
def runUses : List (Use σ τ) → Scene (Reducer τ) σ → List (Step τ) × Scene (Reducer τ) σ
  | [], scene => ([], scene)
  | use :: uses, scene =>
    let rest := runUses uses (e.afterUse scene use)
    (e.stepsOf scene use ++ rest.1, rest.2)

variable {e}

theorem afterStep_busy {scene : Scene (Reducer τ) σ} (h : scene.subject.busy = false)
    (step : Step τ) : (e.afterStep scene step).subject.busy = false := by
  cases step <;> exact congrArg Reducer.busy (Engine.exclusively_subject h)

theorem performed_cons_of_ok {step : Step τ} {steps : List (Step τ)}
    {scene after : Scene (Reducer τ) σ} {a : step.request.Result}
    (h : (e.perform step.request).run scene = (.ok a, after)) :
    e.performed (step :: steps) scene = step :: e.performed steps after := by
  simp only [performed, h]

theorem performed_cons_of_error {step : Step τ} {steps : List (Step τ)}
    {scene after : Scene (Reducer τ) σ} {error : Error}
    (h : (e.perform step.request).run scene = (.error error, after)) :
    e.performed (step :: steps) scene = [step] := by
  simp only [performed, h]

theorem afterStep_of_run {step : Step τ} {scene after : Scene (Reducer τ) σ}
    {result : Except Error step.request.Result}
    (h : (e.perform step.request).run scene = (result, after)) :
    e.afterStep scene step = after :=
  congrArg Prod.snd h

theorem foldl_performed_singleton (step : Step τ) (scene : Scene (Reducer τ) σ) :
    (e.performed [step] scene).foldl e.afterStep scene = e.afterStep scene step := by
  rcases h : (e.perform step.request).run scene with ⟨_ | a, after⟩
  · rw [performed_cons_of_error h]
    rfl
  · rw [performed_cons_of_ok h]
    rfl

theorem run_pushAll_finish (tokens : List τ) (scene : Scene (Reducer τ) σ) :
    ((e.running.pushAll tokens >>= fun _ => e.running.finish).run scene).2 =
      (e.performed (tokens.map .push ++ [.finish]) scene).foldl e.afterStep scene := by
  induction tokens generalizing scene with
  | nil => exact (foldl_performed_singleton .finish scene).symm
  | cons token tokens ih =>
    rw [Engine.pushAll, LawfulMonad.bind_assoc, List.map_cons, List.cons_append]
    rcases h : (e.perform (Step.push token).request).run scene with ⟨_ | a, after⟩
    · have hpush : (e.running.push token).run scene = _ := h
      rw [Action.run_bind_of_error (Action.run_discard_of_error hpush), performed_cons_of_error h]
      exact (afterStep_of_run h).symm
    · have hpush : (e.running.push token).run scene = _ := h
      rw [Action.run_bind_of_ok (Action.run_discard_of_ok hpush), performed_cons_of_ok h,
        List.foldl_cons, afterStep_of_run h]
      exact ih after

/-- A call leads to where its steps lead, made one by one from outside. -/
theorem afterUse_call (request : ReducerCall τ) (scene : Scene (Reducer τ) σ) :
    e.afterUse scene (.call request) =
      (e.stepsOf scene (.call request)).foldl e.afterStep scene := by
  cases request with
  | push token => exact (foldl_performed_singleton (.push token) scene).symm
  | reset => exact (foldl_performed_singleton .reset scene).symm
  | finish => exact (foldl_performed_singleton .finish scene).symm
  | parse tokens =>
    change ((e.running.parse tokens).run scene).2 =
      (e.performed (.reset :: (tokens.map .push ++ [.finish])) scene).foldl e.afterStep scene
    unfold Engine.parse
    rcases h : (e.perform (Step.reset (τ := τ)).request).run scene with ⟨_ | a, after⟩
    · have hreset : e.running.reset.run scene = _ := h
      rw [Action.run_bind_of_error hreset, performed_cons_of_error h]
      exact (afterStep_of_run h).symm
    · have hreset : e.running.reset.run scene = _ := h
      rw [Action.run_bind_of_ok hreset, performed_cons_of_ok h, List.foldl_cons,
        afterStep_of_run h]
      exact run_pushAll_finish tokens after

theorem pushAll_of_ok {tokens : List τ} {scene after : Scene (Reducer τ) σ}
    (hr : (e.running.pushAll tokens).run scene = (.ok (), after)) :
    after = (tokens.map .push).foldl e.afterStep scene := by
  induction tokens generalizing scene with
  | nil => exact (congrArg Prod.snd hr).symm
  | cons token tokens ih =>
    obtain ⟨_, between, hpush, hr⟩ := Action.exists_of_run_bind hr
    obtain ⟨_, hpush⟩ := Action.exists_of_run_discard hpush
    have hpush : (e.perform (Step.push token).request).run scene = _ := hpush
    rw [List.map_cons, List.foldl_cons, afterStep_of_run hpush]
    exact ih hr

/-- A parse that returns ends with a finish, after its reset and all its pushes. -/
theorem finish_of_parse {tokens : List τ} {scene after : Scene (Reducer τ) σ}
    {result : Option (Tree τ)} (hr : (e.perform (.parse tokens)).run scene = (.ok result, after)) :
    (e.perform .finish).run ((.reset :: tokens.map .push).foldl e.afterStep scene) =
      (.ok result, after) := by
  obtain ⟨_, emptied, hreset, hr⟩ := Action.exists_of_run_bind hr
  obtain ⟨_, pushed, hpush, hfinish⟩ := Action.exists_of_run_bind hr
  have hreset : (e.perform (Step.reset (τ := τ)).request).run scene = _ := hreset
  rw [List.foldl_cons, afterStep_of_run hreset, ← pushAll_of_ok hpush]
  exact hfinish

section Induction

variable {P : List (Step τ) → Scene (Reducer τ) σ → Prop}
  (hstep : ∀ before scene step, scene.subject.busy = false → P before scene →
    P (before ++ [step]) (e.afterStep scene step))
  (before : List (Step τ)) (scene : Scene (Reducer τ) σ) (hbusy : scene.subject.busy = false)
  (h : P before scene)

include hstep hbusy h

/-- What every step keeps holds after all steps. It may speak of the steps made so far. -/
theorem afterSteps_induction (steps : List (Step τ)) :
    P (before ++ steps) (steps.foldl e.afterStep scene) ∧
      (steps.foldl e.afterStep scene).subject.busy = false := by
  induction steps generalizing before scene with
  | nil => exact ⟨by rwa [List.append_nil], hbusy⟩
  | cons step steps ih =>
    have := ih _ _ (afterStep_busy hbusy step) (hstep before scene step hbusy h)
    rwa [List.append_assoc] at this

/-- What every step keeps, and every change of the policy and of the callbacks' state, holds after
all uses. -/
theorem runUses_induction
    (hpolicy : ∀ before scene policy, P before scene →
      P before (e.afterUse scene (.setPolicy policy)))
    (hworld : ∀ before scene world, P before scene → P before (e.afterUse scene (.setWorld world)))
    (uses : List (Use σ τ)) :
    P (before ++ (e.runUses uses scene).1) (e.runUses uses scene).2 ∧
      (e.runUses uses scene).2.subject.busy = false := by
  induction uses generalizing before scene with
  | nil => exact ⟨by rwa [runUses, List.append_nil], hbusy⟩
  | cons use uses ih =>
    simp only [runUses, ← List.append_assoc]
    cases use with
    | call request =>
      obtain ⟨hcall, hidle⟩ :=
        afterSteps_induction hstep before scene hbusy h (e.stepsOf scene (.call request))
      rw [← afterUse_call] at hcall hidle
      exact ih _ _ hidle hcall
    | setPolicy policy =>
      rw [stepsOf, List.append_nil]
      exact ih _ _ hbusy (hpolicy before scene policy h)
    | setWorld world =>
      rw [stepsOf, List.append_nil]
      exact ih _ _ hbusy (hworld before scene world h)

end Induction

end CallbackEngine

end ShiftReduce
