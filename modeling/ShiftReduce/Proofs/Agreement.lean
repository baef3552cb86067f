import ShiftReduce.Proofs.Action

/-!
# Runs that agree

Two actions agree on a relation between their states if, run from related states, they come to the
same value or to related errors and leave related states (`Action.Agree`). Actions that agree part
by part agree as a whole (`Action.Agree.bind`), so a fact about two runs needs a proof for the
smallest parts only. Of one action, `Action.Keeps` says that it leads from states with a property to
such states, `Action.RaisesOnly` that on the way it ends in no error but those of some kind, and
`Action.Calm` that it never ends in an error.
-/

namespace ShiftReduce.Action

variable {s t α β : Type}

/-! ## Two runs -/

section Two

variable {R : s → t → Prop} {F : Error → Error → Prop}

/-- Two ends of a run: the same value or related errors, and related states. -/
inductive Meets (R : s → t → Prop) (F : Error → Error → Prop) :
    Except Error α × s → Except Error α × t → Prop
  | value (a : α) {left : s} {right : t} (hstates : R left right) :
    Meets R F (.ok a, left) (.ok a, right)
  | fault {e e' : Error} (herrors : F e e') {left : s} {right : t} (hstates : R left right) :
    Meets R F (.error e, left) (.error e', right)

/-- Run from related states, the two actions meet again. -/
def Agree (R : s → t → Prop) (F : Error → Error → Prop) (x : Action s α) (y : Action t α) : Prop :=
  ∀ a b, R a b → Meets R F (x.run a) (y.run b)

theorem Meets.related {p : Except Error α × s} {q : Except Error α × t} (h : Meets R F p q) :
    R p.2 q.2 := by
  cases h with
  | value a hstates => exact hstates
  | fault herrors hstates => exact hstates

theorem Meets.result_eq {p : Except Error α × s} {q : Except Error α × t} (h : Meets R Eq p q) :
    p.1 = q.1 := by
  cases h with
  | value a hstates => rfl
  | fault herrors hstates => exact congrArg Except.error herrors

/-- Without errors to relate, both runs end with a value. -/
theorem Meets.exists_value {p : Except Error α × s} {q : Except Error α × t}
    (h : Meets R (fun _ _ => False) p q) :
    ∃ a left right, p = (.ok a, left) ∧ q = (.ok a, right) ∧ R left right := by
  cases h with
  | value a hstates => exact ⟨a, _, _, rfl, rfl, hstates⟩
  | fault herrors hstates => exact herrors.elim

namespace Agree

theorem pure (a : α) : Agree R F (Pure.pure a) (Pure.pure a) := by
  intro left right h
  exact .value a h

theorem bind {x : Action s α} {y : Action t α} {f : α → Action s β} {g : α → Action t β}
    (hx : Agree R F x y) (hf : ∀ a, Agree R F (f a) (g a)) :
    Agree R F (x >>= f) (y >>= g) := by
  intro a b h
  have hmeets := hx a b h
  rcases hl : x.run a with ⟨result, left⟩
  rcases hr : y.run b with ⟨result', right⟩
  rw [hl, hr] at hmeets
  cases hmeets with
  | value value hstates =>
    rw [run_bind_of_ok hl, run_bind_of_ok hr]
    exact hf value left right hstates
  | fault herrors hstates =>
    rw [run_bind_of_error hl, run_bind_of_error hr]
    exact .fault herrors hstates

theorem discard {x : Action s α} {y : Action t α} (h : Agree R F x y) :
    Agree R F (Functor.discard x) (Functor.discard y) := by
  apply bind h
  intro a
  exact pure ()

end Agree

end Two

/-! ## One run -/

section One

variable {P : s → Prop}

/-- From states with the property the action leads to such states, also when it ends in an error. -/
def Keeps (P : s → Prop) (x : Action s α) : Prop := ∀ state, P state → P (x.run state).2

namespace Keeps

theorem pure (a : α) : Keeps P (Pure.pure a) := fun _ h => h

theorem bind {x : Action s α} {f : α → Action s β} (hx : Keeps P x) (hf : ∀ a, Keeps P (f a)) :
    Keeps P (x >>= f) := by
  intro state h
  have hafter := hx state h
  rcases hr : x.run state with ⟨error | a, between⟩
  · rw [hr] at hafter
    rwa [run_bind_of_error hr]
  · rw [hr] at hafter
    rw [run_bind_of_ok hr]
    exact hf a between hafter

theorem discard {x : Action s α} (h : Keeps P x) : Keeps P (Functor.discard x) := by
  apply bind h
  intro a
  exact pure ()

/-- On one of two states an action keeps what it keeps of that state. -/
theorem onSecond {x : Action s α} (h : Keeps P x) :
    Keeps (fun state : t × s => P state.2) (Action.onSecond x) := by
  intro state hstate
  exact h state.2 hstate

end Keeps

/-- From states with the property the action leads to such states, and every error that it ends in is
of the given kind. -/
def RaisesOnly (P : s → Prop) (E : Error → Prop) (x : Action s α) : Prop :=
  ∀ state, P state → P (x.run state).2 ∧ ∀ error, (x.run state).1 = .error error → E error

namespace RaisesOnly

variable {E : Error → Prop}

theorem pure (a : α) : RaisesOnly P E (Pure.pure a) := fun _ h => ⟨h, nofun⟩

theorem bind {x : Action s α} {f : α → Action s β} (hx : RaisesOnly P E x)
    (hf : ∀ a, RaisesOnly P E (f a)) : RaisesOnly P E (x >>= f) := by
  intro state h
  obtain ⟨hafter, herror⟩ := hx state h
  rcases hr : x.run state with ⟨error | a, between⟩
  · rw [hr] at hafter herror
    rw [run_bind_of_error hr]
    refine ⟨hafter, ?_⟩
    rintro _ ⟨⟩
    exact herror error rfl
  · rw [hr] at hafter
    rw [run_bind_of_ok hr]
    exact hf a between hafter

end RaisesOnly

/-- From states with the property the action ends with a value and leads to such states. -/
def Calm (P : s → Prop) (x : Action s α) : Prop :=
  ∀ state, P state → ∃ a after, x.run state = (.ok a, after) ∧ P after

namespace Calm

theorem pure (a : α) : Calm P (Pure.pure a) := fun state h => ⟨a, state, rfl, h⟩

theorem bind {x : Action s α} {f : α → Action s β} (hx : Calm P x) (hf : ∀ a, Calm P (f a)) :
    Calm P (x >>= f) := by
  intro state h
  obtain ⟨a, between, hrun, hbetween⟩ := hx state h
  rw [run_bind_of_ok hrun]
  exact hf a between hbetween

end Calm

end One

end ShiftReduce.Action
