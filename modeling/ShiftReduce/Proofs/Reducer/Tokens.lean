import ShiftReduce.Proofs.Reducer.Uses
import ShiftReduce.Proofs.Tree.Leaves

/-!
# No token is lost

The leaves of the stack, from bottom to top, are the tokens shifted since the last reset or finish:
a shift adds a leaf, and a reduction regroups the top of the stack without touching a leaf. An error
or a refused call in the middle of a push changes nothing about that (`afterStep_leaves`). A finish
deals the stack out, to the residue and the result (`stack_leaves_after_uses`).
-/

namespace ShiftReduce

/-- The tokens pushed since the last reset or finish. -/
def Step.pending {τ : Type} (steps : List (Step τ)) : List τ :=
  steps.foldl (fun tokens step =>
    match step with
    | push token => tokens ++ [token]
    | reset => []
    | finish => []) []

@[simp] theorem Step.pending_push {τ : Type} (steps : List (Step τ)) (token : τ) :
    pending (steps ++ [.push token]) = pending steps ++ [token] := by
  simp only [pending, List.foldl_append, List.foldl_cons, List.foldl_nil]

@[simp] theorem Step.pending_reset {τ : Type} (steps : List (Step τ)) :
    pending (steps ++ [.reset]) = [] := by
  simp only [pending, List.foldl_append, List.foldl_cons, List.foldl_nil]

@[simp] theorem Step.pending_finish {τ : Type} (steps : List (Step τ)) :
    pending (steps ++ [.finish]) = [] := by
  simp only [pending, List.foldl_append, List.foldl_cons, List.foldl_nil]

theorem Step.pending_pushes {τ : Type} (steps : List (Step τ)) (tokens : List τ) :
    pending (steps ++ tokens.map .push) = pending steps ++ tokens := by
  induction tokens generalizing steps with
  | nil => rw [List.map_nil, List.append_nil, List.append_nil]
  | cons token tokens ih =>
    rw [List.map_cons, List.append_cons, ih, pending_push, ← List.append_cons]

/-- A push adds its token to the leaves of the stack. -/
theorem Pushed.allLeaves {s τ : Type} {rules : List (Rule (Action s) τ)}
    {stack after : List (Tree τ)} {token : τ} (h : Pushed rules stack token after) :
    allLeaves after = allLeaves stack ++ [token] := by
  have hshift : ShiftReduce.allLeaves (stack ++ [.leaf token]) =
      ShiftReduce.allLeaves stack ++ [token] := by
    simp only [List.flatMap_append, List.flatMap_cons, List.flatMap_nil, Tree.leaves_leaf,
      List.append_nil]
  cases h with
  | shift => exact hshift
  | reduce r allowed =>
    rw [← hshift, ← allowed.below_append_run]
    simp only [List.flatMap_append, List.flatMap_cons, List.flatMap_nil, Reduction.node,
      Tree.leaves_node, List.append_nil]

namespace CallbackEngine

variable {σ τ : Type}

theorem afterStep_leaves {e : CallbackEngine σ τ} {steps : List (Step τ)}
    {scene : Scene (Reducer τ) σ} {step : Step τ} (hbusy : scene.subject.busy = false)
    (h : allLeaves scene.subject.stack = Step.pending steps) :
    allLeaves (e.afterStep scene step).subject.stack = Step.pending (steps ++ [step]) := by
  have he := e.running_unobtrusive
  cases step with
  | push token =>
    obtain ⟨stack, hsubject, hpushed⟩ := Engine.push_subject he hbusy token
    have hafter : (e.afterStep scene (.push token)).subject = _ := hsubject
    rw [hafter, Step.pending_push, ← h, hpushed.allLeaves]
  | reset =>
    have hafter : (e.afterStep scene .reset).subject = _ := Engine.reset_subject he hbusy
    rw [hafter, Step.pending_reset]
    rfl
  | finish =>
    have hafter : (e.afterStep scene .finish).subject = _ := Engine.finish_subject he hbusy
    rw [hafter, Step.pending_finish]
    rfl

/-- A parse that returns has dealt out exactly its own tokens. -/
theorem parse_deals {e : CallbackEngine σ τ} {steps : List (Step τ)} {tokens : List τ}
    {scene after : Scene (Reducer τ) σ} {result : Option (Tree τ)}
    (hbusy : scene.subject.busy = false)
    (h : allLeaves scene.subject.stack = Step.pending steps)
    (hr : (e.perform (.parse tokens)).run scene = (.ok result, after)) :
    allLeaves (after.subject.residue ++ result.toList) = tokens ∧ after.subject.stack = [] := by
  obtain ⟨hleaves, hidle⟩ := afterSteps_induction (e := e)
    (P := fun steps scene => allLeaves scene.subject.stack = Step.pending steps)
    (fun _ _ _ => afterStep_leaves) steps scene hbusy h (.reset :: tokens.map .push)
  obtain ⟨hstack, hempty⟩ :=
    Engine.finish_deals e.running_unobtrusive hidle (finish_of_parse hr)
  refine ⟨?_, hempty⟩
  rw [hstack, hleaves, List.append_cons, Step.pending_pushes, Step.pending_reset,
    List.nil_append]

/-- After any uses of a reducer, whatever its callbacks do, the leaves of the stack are the tokens
pushed since the last reset or finish, in order. A finish that returns deals the stack out into the
residue and the result; so does the finish that ends a parse. Calls of callbacks are refused and
change nothing, so they are not among the pushes. -/
theorem stack_leaves_after_uses (e : CallbackEngine σ τ) (policy : Policy) (world : σ)
    (uses : List (Use σ τ)) :
    let run := e.runUses uses { subject := { policy }, world }
    let scene := run.2
    allLeaves scene.subject.stack = Step.pending run.1 ∧
      (∀ result after, (e.perform .finish).run scene = (.ok result, after) →
        after.subject.residue ++ result.toList = scene.subject.stack ∧
          allLeaves (after.subject.residue ++ result.toList) = Step.pending run.1 ∧
          after.subject.stack = []) ∧
      (∀ tokens result after, (e.perform (.parse tokens)).run scene = (.ok result, after) →
        allLeaves (after.subject.residue ++ result.toList) = tokens ∧ after.subject.stack = []) ∧
      ∀ request (within : Scene (Reducer τ) σ), within.subject.busy = true →
        (e.refusing.perform request).run within = (.error .reducerReentered, within) := by
  intro run scene
  obtain ⟨hleaves, hbusy⟩ := runUses_induction (e := e)
    (P := fun steps scene => allLeaves scene.subject.stack = Step.pending steps)
    (fun _ _ _ => afterStep_leaves) [] { subject := { policy }, world } rfl rfl (fun _ _ _ h => h)
    (fun _ _ _ h => h) uses
  refine ⟨hleaves, fun result after hr => ?_, fun tokens result after => parse_deals hbusy hleaves,
    fun request _ => e.refusing.perform_of_busy request⟩
  obtain ⟨hstack, hempty⟩ := Engine.finish_deals e.running_unobtrusive hbusy hr
  exact ⟨hstack, by rw [hstack]; exact hleaves, hempty⟩

end CallbackEngine

end ShiftReduce
