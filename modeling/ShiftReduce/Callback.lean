import ShiftReduce.Action

/-!
# Callbacks

Recognizers, terminal predicates and hooks are code of the caller that the library runs. Such code
can compute, give up with an error, keep a state of its own, and call the library again, also the
very object that is running it. A `Callback` is this code as data: it says which calls it makes and
how it goes on with the answers, and it cannot touch the library's state in any other way.

`Callback.run` performs one, given the library's answer to each call. An answer is a plain value, so
a callback that is refused can read the refusal and go on.
-/

namespace ShiftReduce

/-- Code of the caller with its own state `σ`, calls `Call` and their answers `Answer`, and a result
of type `α`. -/
inductive Callback (σ Call : Type) (Answer : Call → Type) (α : Type) : Type where
  | done (value : α)
  | raise (error : Error)
  | read (next : σ → Callback σ Call Answer α)
  | write (world : σ) (next : Callback σ Call Answer α)
  | call (request : Call) (next : Answer request → Callback σ Call Answer α)

namespace Callback

variable {σ Call : Type} {Answer : Call → Type} {α β ρ : Type}

def bind : Callback σ Call Answer α → (α → Callback σ Call Answer β) → Callback σ Call Answer β
  | done value, f => f value
  | raise error, _ => raise error
  | read next, f => read fun world => (next world).bind f
  | write world next, f => write world (next.bind f)
  | call request next, f => call request fun answer => (next answer).bind f

instance : Monad (Callback σ Call Answer) where
  pure := done
  bind := bind

theorem bind_done (x : Callback σ Call Answer α) : x.bind done = x := by
  induction x with
  | done | raise => rfl
  | read _ ih => exact congrArg read (funext ih)
  | write _ _ ih => exact congrArg (write _) ih
  | call _ _ ih => exact congrArg (call _) (funext ih)

theorem bind_assoc {γ : Type} (x : Callback σ Call Answer α) (f : α → Callback σ Call Answer β)
    (g : β → Callback σ Call Answer γ) : (x.bind f).bind g = x.bind fun a => (f a).bind g := by
  induction x with
  | done | raise => rfl
  | read _ ih => exact congrArg read (funext ih)
  | write _ _ ih => exact congrArg (write _) ih
  | call _ _ ih => exact congrArg (call _) (funext ih)

instance : LawfulMonad (Callback σ Call Answer) :=
  LawfulMonad.mk' _ bind_done (fun _ _ => rfl) bind_assoc

/-- Replaces the caller's state by a function of it. -/
def update (f : σ → σ) : Callback σ Call Answer Unit := read fun world => write (f world) (done ())

def request (c : Call) : Callback σ Call Answer (Answer c) := call c done

/-- Ends as a given result says. -/
def ofExcept : Except Error α → Callback σ Call Answer α
  | .ok value => done value
  | .error error => raise error

/-- Performs a callback in a scene, where `answer` is what the library does when it is called. -/
def run (answer : (c : Call) → StateM (Scene ρ σ) (Answer c)) :
    Callback σ Call Answer α → Action (Scene ρ σ) α
  | done value => pure value
  | raise error => throw error
  | read next => do
    let scene ← get
    (next scene.world).run answer
  | write world next => do
    modify fun scene => { scene with world }
    next.run answer
  | call request next => do
    let reply ← (answer request : StateM (Scene ρ σ) (Answer request))
    (next reply).run answer

/-- Performing one callback after another is performing both as one. -/
theorem run_bind (answer : (c : Call) → StateM (Scene ρ σ) (Answer c))
    (x : Callback σ Call Answer α) (f : α → Callback σ Call Answer β) :
    (x.bind f).run answer = x.run answer >>= fun a => (f a).run answer := by
  induction x with
  | done value => simp only [bind, run, pure_bind]
  | raise => rfl
  | read next ih => simp only [bind, run, ih, LawfulMonad.bind_assoc]
  | write world next ih => simp only [bind, run, ih, LawfulMonad.bind_assoc]
  | call request next ih => simp only [bind, run, ih, LawfulMonad.bind_assoc]

end Callback

end ShiftReduce
