import ShiftReduce.Proofs.Parse.Reached
import ShiftReduce.Proofs.Reducer.Agreement
import ShiftReduce.Proofs.Reducer.Derivations

/-!
# A parse forgets the past

A parse begins with a reset, and a reset leaves nothing of the reducer but its policy
(`Engine.run_parse_eq_fresh`). What comes after it depends on the tokens and the policy alone: pure
predicates do not look at any state, and hooks that are calm agree with no hooks at all
(`Engine.agree_hookless`). So whatever a reducer was used for before, errors and refused calls
included, it parses as a new one does.
-/

namespace ShiftReduce

variable {σ ρ τ ω ν : Type} {J : ω → Prop}

/-! ## The reset -/

namespace Engine

variable {e : Engine (Action (Scene (Reducer τ) ω)) τ} {scene : Scene (Reducer τ) ω}

/-- A reset leaves nothing of the reducer but its policy, whatever its hook does then. -/
theorem run_reset_eq_fresh (h : Idle scene) :
    e.reset.run scene = e.reset.run ⟨{ policy := scene.subject.policy }, scene.world⟩ := by
  have hfresh : Idle ⟨({ policy := scene.subject.policy } : Reducer τ), scene.world⟩ := rfl
  unfold reset
  rw [exclusively_of_not_busy _ h, exclusively_of_not_busy _ hfresh,
    Action.run_bind_of_ok (run_modifyReducer _ _), Action.run_bind_of_ok (run_modifyReducer _ _)]
  rfl

theorem run_parse_eq_fresh (h : Idle scene) (tokens : List τ) :
    (e.parse tokens).run scene =
      (e.parse tokens).run ⟨{ policy := scene.subject.policy }, scene.world⟩ := by
  rw [parse, Action.run_bind, Action.run_bind, run_reset_eq_fresh h]

/-! ## Pure predicates and calm hooks -/

/-- Pure predicates and no hooks. -/
def hookless (g : Grammar (Except Error) τ) : Engine (Action (Scene (Reducer τ) ω)) τ :=
  { grammar := g.map Action.ofExcept, hooks := .none }

theorem agree_ofExcept {s t α : Type} {R : s → t → Prop} (result : Except Error α) :
    Action.Agree R Eq (.ofExcept result) (.ofExcept result) := by
  intro a b h
  rw [Action.run_ofExcept, Action.run_ofExcept]
  cases result with
  | ok value => exact .value value h
  | error error => exact .fault rfl h

/-- With pure predicates and calm hooks an engine agrees with the one that has no hooks. -/
theorem agree_hookless {g : Grammar (Except Error) τ} (hgrammar : e.grammar = g.map Action.ofExcept)
    (hcalm : e.hooks.Calm J) (he : e.Unobtrusive) :
    Engine.Agree (fun (w : ω) (_ : ν) => J w) Eq e (hookless g) where
  findReduction stack := by
    rw [hgrammar, g.findReduction_ofExcept, hookless, g.findReduction_ofExcept]
    exact agree_ofExcept _
  hooks := hcalm.agree_none he

/-- So a parse is the one that a new reducer without hooks makes in any other state. -/
theorem parse_meets_hookless {g : Grammar (Except Error) τ}
    (hgrammar : e.grammar = g.map Action.ofExcept) (hcalm : e.hooks.Calm J) (he : e.Unobtrusive)
    (hscene : scene.Flagged false J) (tokens : List τ) (world : ν) :
    Action.Meets (Scene.Alike false fun (w : ω) (_ : ν) => J w) Eq ((e.parse tokens).run scene)
      (((hookless g).parse tokens).run ⟨{ policy := scene.subject.policy }, world⟩) := by
  rw [run_parse_eq_fresh hscene.1]
  apply (agree_hookless hgrammar hcalm he).parse
  exact ⟨rfl, rfl, hscene.2⟩

end Engine

namespace CallbackEngine

variable {g : Grammar (Except Error) τ} {hooks : Hooks (ReducerCallback σ τ) τ}

theorem ofPure_apart : (ofPure g hooks).apart = Engine.hookless g := by
  have hanswer (answer : Except Error Bool) :
      Action.onWorld ((ofPure g hooks).runOutside (Callback.ofExcept answer)) =
        (Action.ofExcept answer : Action (Scene (Reducer τ) (Scene (Reducer τ) σ)) Bool) := by
    rw [runOutside, Callback.run_ofExcept]
    cases answer <;> rfl
  have hgrammar : (ofPure g hooks).apart.grammar = g.map Action.ofExcept := by
    change (g.map Callback.ofExcept).map _ = _
    rw [Grammar.map_map]
    simp only [hanswer]
  exact congrArg (Engine.mk · .none) hgrammar

/-- What a parse ends with, and the reducer that it leaves. -/
def parsed (e : CallbackEngine σ τ) (tokens : List τ) (scene : Scene (Reducer τ) σ) :
    Except Error (Option (Tree τ)) × Reducer τ :=
  let (result, after) := (e.perform (.parse tokens)).run scene
  (result, after.subject)

/-- With pure predicates, and hooks that do not cut it short, a parse of a reducer with any past
ends as the parse of a new reducer of the same policy does and leaves the same reducer; and if the
policy is permissive, its result is that of parsing with a reducer made for the purpose. -/
theorem parse_forgets_past (g : Grammar (Except Error) τ) (hooks : Hooks (ReducerCallback σ τ) τ)
    {scene : Scene (Reducer τ) σ} (hscene : (ofPure g hooks).Reached scene) {J : σ → Prop}
    (hcalm : (ofPure g hooks).running.hooks.Calm J) (hworld : J scene.world) (tokens : List τ) :
    (∀ (hooks' : Hooks (ReducerCallback ρ τ) τ) (K : ρ → Prop) (world : ρ),
      (ofPure g hooks').running.hooks.Calm K → K world →
        (ofPure g hooks).parsed tokens scene =
          (ofPure g hooks').parsed tokens ⟨{ policy := scene.subject.policy }, world⟩) ∧
      (scene.subject.policy = .permissive →
        ∀ (hooks' : Hooks (ReducerCallback ρ τ) τ) (main : Scene (Reducer τ) ρ),
          ((ofPure g hooks).parsed tokens scene).1 =
            (((ofPure g hooks').parseApart tokens).run main).1) := by
  have hparsed {ν : Type} (world : ν) :=
    Engine.parse_meets_hookless (ofPure_running_grammar g hooks) hcalm (running_unobtrusive _)
      ⟨hscene.idle, hworld⟩ tokens world
  constructor
  · intro hooks' K world hcalm' hworld'
    have hfresh : Scene.Flagged false K
        ⟨({ policy := scene.subject.policy } : Reducer τ), world⟩ := ⟨rfl, hworld'⟩
    have hanew := Engine.parse_meets_hookless (ofPure_running_grammar g hooks') hcalm'
      (running_unobtrusive _) hfresh tokens ()
    have hparsed := hparsed ()
    apply Prod.ext
    · exact hparsed.result_eq.trans hanew.result_eq.symm
    · exact hparsed.related.subject_eq.trans hanew.related.subject_eq.symm
  · intro hpolicy hooks' main
    have hresult := (hparsed main).result_eq
    rw [hpolicy] at hresult
    rcases hmain : ((Engine.hookless g).parse tokens).run ⟨{}, main⟩ with ⟨result, after⟩
    rw [hmain] at hresult
    rw [parseApart, ofPure_apart, Action.run_withSubject hmain]
    exact hresult

/-- Hooks that give up at a shift as long as their state says so. -/
def touchyHooks : Hooks (ReducerCallback Bool τ) τ :=
  { Hooks.none with
    onShift := fun _ _ => .read fun touchy => if touchy then .raise (.raised []) else .done () }

theorem touchyHooks_calm (g : Grammar (Except Error) τ) :
    (ofPure g touchyHooks).running.hooks.Calm (· = false) where
  onReset _ := .pure ()
  onShift _ _ := by
    rintro ⟨subject, _⟩ ⟨hbusy, rfl⟩
    exact ⟨(), ⟨subject, false⟩, rfl, hbusy, rfl⟩
  onReduce _ _ _ := .pure ()
  onFinish _ _ := .pure ()

theorem none_calm (g : Grammar (Except Error) τ) (K : σ → Prop) :
    (ofPure g .none : CallbackEngine σ τ).running.hooks.Calm K :=
  ⟨fun _ => .pure (), fun _ _ => .pure (), fun _ _ _ => .pure (), fun _ _ => .pure ()⟩

/-- Two pairs of brackets, parsed by a reducer that a hook has left with half of a pair. -/
theorem parse_forgets_past_brackets :
    let g := bracketGrammar ⟨0, 0⟩
    let past := (((ofPure g touchyHooks).perform (.push true)).run ⟨{}, true⟩).2
    let scene : Scene (Reducer Bool) Bool := { past with world := false }
    let tokens := [true, true, false, false]
    let other : CallbackEngine Unit Bool := ofPure g .none
    ((ofPure g touchyHooks).Reached scene ∧ scene.subject.stack = [.leaf true] ∧
      (ofPure g touchyHooks).running.hooks.Calm (· = false) ∧ scene.subject.policy = .permissive ∧
      other.running.hooks.Calm (· = ())) ∧
      (ofPure g touchyHooks).parsed tokens scene =
        other.parsed tokens ⟨{ policy := scene.subject.policy }, ()⟩ ∧
      ((ofPure g touchyHooks).parsed tokens scene).1 =
        ((other.parseApart tokens).run ⟨{}, ()⟩).1 := by
  intro g past scene tokens other
  have hreached : (ofPure g touchyHooks).Reached scene :=
    .setWorld (.call (.fresh .permissive true) (.push true)) false
  have hcalm : (ofPure g touchyHooks).running.hooks.Calm (· = false) := touchyHooks_calm g
  have hstack : scene.subject.stack = [.leaf true] := by cbv
  have hpolicy : scene.subject.policy = .permissive := by cbv
  obtain ⟨hanew, hother⟩ :=
    parse_forgets_past (ρ := Unit) g touchyHooks hreached hcalm rfl tokens
  exact ⟨⟨hreached, hstack, hcalm, hpolicy, none_calm g _⟩,
    hanew .none (· = ()) () (none_calm g _) rfl, hother hpolicy .none ⟨{}, ()⟩⟩

end CallbackEngine

end ShiftReduce
