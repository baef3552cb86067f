import ShiftReduce.Callback

/-!
# Running actions

Equations that take the run of an action apart, one for each way actions are built, and the frame
property `Spares p`: run from a scene whose subject satisfies `p`, an action leaves the subject as
it is, whatever it does to the world and however it ends. Callbacks have this property as soon as
the answers to their calls do (`Callback.spares_run`), since calls are their only way to the
subject.
-/

namespace ShiftReduce

theorem run_bind_of_run {s α β : Type} {x : StateM s α} {f : α → StateM s β} {a : α}
    {state between : s} (h : x.run state = (a, between)) :
    (x >>= f).run state = (f a).run between := by
  rw [StateT.run_bind, h]
  rfl

namespace Action

variable {s α β : Type}

@[simp] theorem run_pure (a : α) (state : s) :
    (pure a : Action s α).run state = (.ok a, state) := rfl

@[simp] theorem run_throw (error : Error) (state : s) :
    (throw error : Action s α).run state = (.error error, state) := rfl

@[simp] theorem run_get (state : s) : (get : Action s s).run state = (.ok state, state) := rfl

@[simp] theorem run_modify (f : s → s) (state : s) :
    (modify f : Action s Unit).run state = (.ok (), f state) := rfl

theorem run_bind (x : Action s α) (f : α → Action s β) (state : s) :
    (x >>= f).run state =
      match x.run state with
      | (.ok a, state) => (f a).run state
      | (.error error, state) => (.error error, state) := by
  rw [ExceptT.run_bind]
  simp only [bind, StateT.bind]
  rcases x.run state with ⟨_ | _, _⟩ <;> rfl

theorem run_bind_of_ok {x : Action s α} {f : α → Action s β} {state after : s} {a : α}
    (h : x.run state = (.ok a, after)) : (x >>= f).run state = (f a).run after := by
  rw [run_bind, h]

theorem run_bind_of_error {x : Action s α} {f : α → Action s β} {state after : s} {error : Error}
    (h : x.run state = (.error error, after)) : (x >>= f).run state = (.error error, after) := by
  rw [run_bind, h]

/-- Code that cannot fail, run among code that can. -/
theorem run_lift {x : StateM s α} {state after : s} {a : α} (h : x.run state = (a, after)) :
    (x : Action s α).run state = (.ok a, after) :=
  congrArg (fun r : α × s => (Except.ok r.1, r.2)) h

theorem run_bind_pure (x : Action s α) (f : α → β) (state : s) :
    (x >>= fun a => pure (f a)).run state = ((x.run state).1.map f, (x.run state).2) := by
  rcases hx : x.run state with ⟨_ | a, after⟩
  · rw [run_bind_of_error hx]
    rfl
  · rw [run_bind_of_ok hx]
    rfl

theorem run_discard_of_ok {x : Action s α} {state after : s} {a : α}
    (h : x.run state = (.ok a, after)) : (discard x).run state = (.ok (), after) :=
  run_bind_of_ok (f := fun _ => pure ()) h

theorem run_discard_of_error {x : Action s α} {state after : s} {error : Error}
    (h : x.run state = (.error error, after)) :
    (discard x).run state = (.error error, after) :=
  run_bind_of_error (f := fun _ => pure ()) h

/-- A sequence that ends with a value went through a value of its first part. -/
theorem exists_of_run_bind {x : Action s α} {f : α → Action s β} {state after : s} {b : β}
    (h : (x >>= f).run state = (.ok b, after)) :
    ∃ a between, x.run state = (.ok a, between) ∧ (f a).run between = (.ok b, after) := by
  rcases hx : x.run state with ⟨_ | a, between⟩
  · rw [run_bind_of_error hx] at h
    cases h
  · rw [run_bind_of_ok hx] at h
    exact ⟨a, between, rfl, h⟩

theorem exists_of_run_discard {x : Action s α} {state after : s}
    (h : (discard x).run state = (.ok (), after)) : ∃ a, x.run state = (.ok a, after) := by
  rcases hx : x.run state with ⟨_ | a, between⟩
  · rw [run_discard_of_error hx] at h
    cases h
  · rw [run_discard_of_ok hx] at h
    cases h
    exact ⟨a, rfl⟩

theorem run_ofExcept (result : Except Error α) (state : s) :
    (ofExcept result).run state = (result, state) := by
  cases result <;> rfl

section Part

variable {t : Type} {result : Except Error α}

theorem run_onPart {f : s → t} {g : t → s → s} {x : Action t α} {state : s} {part : t}
    (h : x.run (f state) = (result, part)) :
    (onPart f g x).run state = (result, g part state) :=
  congrArg (fun p : Except Error α × t => (p.1, g p.2 state)) h

theorem run_onFirst {x : Action s α} {state after : s} (h : x.run state = (result, after))
    (other : t) : (onFirst x).run (state, other) = (result, (after, other)) :=
  run_onPart (f := Prod.fst) h

theorem run_onSecond {x : Action t α} {state after : t} (h : x.run state = (result, after))
    (other : s) : (onSecond x).run (other, state) = (result, (other, after)) :=
  run_onPart (f := Prod.snd) h

theorem run_withSubject {ρ ω : Type} {subject : ρ} {x : Action (Scene ρ ω) α} {world : ω}
    {after : Scene ρ ω} (h : x.run { subject, world } = (result, after)) :
    (withSubject subject x).run world = (result, after.world) :=
  run_onPart (f := Scene.mk subject) h

end Part

/-- Ending as an attempt has ended is making no attempt of it. -/
theorem attempt_bind_ofExcept (x : Action s α) :
    (x.attempt : Action s (Except Error α)) >>= ofExcept = x := by
  refine ExceptT.ext (funext fun state => ?_)
  have hattempt : (x.attempt : Action s (Except Error α)).run state =
      (.ok (x.run state).1, (x.run state).2) := rfl
  exact (run_bind_of_ok hattempt).trans (run_ofExcept _ _)

/-! ## Sparing the subject -/

variable {ρ ω : Type} {p : ρ → Prop}

/-- From subjects that satisfy `p`, the action leaves the subject as it is. -/
def Spares (p : ρ → Prop) (x : Action (Scene ρ ω) α) : Prop :=
  ∀ scene, p scene.subject → (x.run scene).2.subject = scene.subject

namespace Spares

theorem pure (a : α) : Spares p (Pure.pure a : Action (Scene ρ ω) α) := fun _ _ => rfl

theorem throw (error : Error) : Spares p (MonadExcept.throw error : Action (Scene ρ ω) α) :=
  fun _ _ => rfl

theorem bind {x : Action (Scene ρ ω) α} {f : α → Action (Scene ρ ω) β} (hx : Spares p x)
    (hf : ∀ a, Spares p (f a)) : Spares p (x >>= f) := by
  intro scene h
  have hsame := hx scene h
  rcases hr : x.run scene with ⟨_ | a, between⟩
  · rw [run_bind_of_error hr]
    rwa [hr] at hsame
  · rw [hr] at hsame
    have hsame : between.subject = scene.subject := hsame
    rw [run_bind_of_ok hr, hf a between (by rwa [hsame]), hsame]

end Spares

end Action

namespace Callback

open ShiftReduce.Action (Spares)

variable {σ ρ Call α : Type} {Answer : Call → Type} {p : ρ → Prop}
  {answer : (c : Call) → StateM (Scene ρ σ) (Answer c)}

/-- A callback spares the subject if the answers to its calls do. -/
theorem spares_run (hanswer : ∀ c scene, p scene.subject →
    ((answer c).run scene).2.subject = scene.subject) (x : Callback σ Call Answer α) :
    Spares p (x.run answer) := by
  induction x with
  | done value => exact .pure value
  | raise error => exact .throw error
  | read next ih => exact .bind (fun _ _ => rfl) fun scene => ih scene.world
  | write world next ih => exact .bind (fun _ _ => rfl) fun _ => ih
  | call request next ih => exact .bind (hanswer request) ih

/-- A callback that only ends as a result says makes no call. -/
theorem run_ofExcept (result : Except Error α) :
    (ofExcept result : Callback σ Call Answer α).run answer = Action.ofExcept result := by
  cases result <;> rfl

end Callback

end ShiftReduce
