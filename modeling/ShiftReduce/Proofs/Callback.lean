import ShiftReduce.Proofs.Action

/-!
# Calls that are refused

Where all calls of a callback are refused, nothing is lost if they are left out and the code goes on
as it does after a refusal (`Callback.refused`, `Callback.run_eq_refused`). Code that has calls
added to it which it catches (`Callback.AddsCalls`) is the same code as soon as the calls are left
out.
-/

namespace ShiftReduce.Callback

variable {σ ρ α β : Type} {Call : Type} {Answer : Call → Type} {refusal : (c : Call) → Answer c}

/-- The code without its calls, going on after each as if it had been answered by the refusal. -/
def refused (refusal : (c : Call) → Answer c) :
    Callback σ Call Answer α → Callback σ Call Answer α
  | done value => done value
  | raise error => raise error
  | read next => read fun world => (next world).refused refusal
  | write world next => write world (next.refused refusal)
  | call request next => (next (refusal request)).refused refusal

theorem refused_bind (x : Callback σ Call Answer α) (f : α → Callback σ Call Answer β) :
    (x.bind f).refused refusal = (x.refused refusal).bind fun a => (f a).refused refusal := by
  induction x with
  | done | raise => rfl
  | read _ ih => exact congrArg read (funext ih)
  | write _ _ ih => exact congrArg (write _) ih
  | call request _ ih => exact ih (refusal request)

/-- The first code is the second with calls added: where one is refused, it goes on as the second
does without the call. Calls that both make are compared for the case that they are refused. -/
inductive AddsCalls (refusal : (c : Call) → Answer c) :
    Callback σ Call Answer α → Callback σ Call Answer α → Prop
  | done (value : α) : AddsCalls refusal (.done value) (.done value)
  | raise (error : Error) : AddsCalls refusal (.raise error) (.raise error)
  | read {next' next : σ → Callback σ Call Answer α}
    (h : ∀ world, AddsCalls refusal (next' world) (next world)) :
    AddsCalls refusal (.read next') (.read next)
  | write (world : σ) {next' next : Callback σ Call Answer α} (h : AddsCalls refusal next' next) :
    AddsCalls refusal (.write world next') (.write world next)
  | call (request : Call) {next' next : Answer request → Callback σ Call Answer α}
    (h : AddsCalls refusal (next' (refusal request)) (next (refusal request))) :
    AddsCalls refusal (.call request next') (.call request next)
  | caught (request : Call) {next : Answer request → Callback σ Call Answer α}
    {x : Callback σ Call Answer α} (h : AddsCalls refusal (next (refusal request)) x) :
    AddsCalls refusal (.call request next) x

theorem AddsCalls.refused_eq {x y : Callback σ Call Answer α} (h : x.AddsCalls refusal y) :
    x.refused refusal = y.refused refusal := by
  induction h with
  | done | raise => rfl
  | read _ ih => exact congrArg Callback.read (funext ih)
  | write _ _ ih => exact congrArg (Callback.write _) ih
  | call _ _ ih => exact ih
  | caught _ _ ih => exact ih

section Run

variable {p : ρ → Prop} {answer answer' : (c : Call) → StateM (Scene ρ σ) (Answer c)}

/-- Performed in a scene where all calls are refused, code does what it does without its calls. -/
theorem run_eq_refused (hanswer : ∀ request scene, p scene.subject →
    (answer request).run scene = (refusal request, scene)) (x : Callback σ Call Answer α)
    {scene : Scene ρ σ} (h : p scene.subject) :
    (x.run answer).run scene = ((x.refused refusal).run answer').run scene := by
  induction x generalizing scene with
  | done | raise => rfl
  | read next ih => exact ih scene.world h
  | write world next ih =>
    have hwritten : p ({ scene with world } : Scene ρ σ).subject := h
    exact ih hwritten
  | call request next ih =>
    have hrefused := Action.run_lift (hanswer request scene h)
    rw [run, Action.run_bind_of_ok hrefused]
    exact ih (refusal request) h

end Run

end ShiftReduce.Callback
