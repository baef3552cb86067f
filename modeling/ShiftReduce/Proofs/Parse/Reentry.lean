import ShiftReduce.Proofs.Callback
import ShiftReduce.Proofs.Parse.Reached
import ShiftReduce.Proofs.Reducer.Agreement
import ShiftReduce.Proofs.Reducer.Uses

/-!
# Calls from within callbacks

A predicate or hook that calls the reducer it runs in is refused, whoever would answer the call, so
an engine works as it does with the calls left out of its code (`CallbackEngine.agree_refused`), and
calls that are added and caught make no difference (`Amended`). And the flag that refuses them is
down again when an operation ends: from outside, the only errors are those of the callbacks
(`Engine.Unobtrusive.run_perform_adapt`).
-/

namespace ShiftReduce

variable {σ τ ω ν α β : Type}

/-! ## Callbacks -/

theorem Scene.Alike.eq {busy : Bool} {a b : Scene (Reducer τ) ω} (h : Scene.Alike busy Eq a b) :
    a = b := by
  obtain ⟨hsubject, -, hworld⟩ := h
  cases a
  cases b
  cases hsubject
  cases hworld
  rfl

/-- Performed where all calls are refused, code agrees with the same code without its calls. -/
theorem Callback.agree_refused {Call : Type} {Answer : Call → Type}
    {refusal : (c : Call) → Answer c}
    {answer answer' : (c : Call) → StateM (Scene (Reducer τ) σ) (Answer c)}
    (hanswer : ∀ request scene, scene.subject.busy = true →
      (answer request).run scene = (refusal request, scene)) (x : Callback σ Call Answer α) :
    Action.Agree (Scene.Alike true Eq) Eq (x.run answer) ((x.refused refusal).run answer') := by
  intro a b h
  obtain rfl := h.eq
  have hsame : ((x.run answer).run a).2.subject = a.subject :=
    spares_run (p := fun r => r.busy = true)
      (fun request scene hbusy => by rw [hanswer request scene hbusy]) x a h.busy_eq
  have hafter : Scene.Alike true Eq ((x.run answer).run a).2 ((x.run answer).run a).2 :=
    ⟨rfl, (congrArg Reducer.busy hsame).trans h.busy_eq, rfl⟩
  rw [← run_eq_refused (p := fun r => r.busy = true) hanswer x h.busy_eq]
  rcases hrun : (x.run answer).run a with ⟨error | value, after⟩
  · rw [hrun] at hafter
    exact .fault rfl hafter
  · rw [hrun] at hafter
    exact .value value hafter

/-! ## Engines -/

namespace Engine

/-- Operations of engines that agree on equal scenes are the same. -/
theorem Agree.run_perform_eq {e f : Engine (Action (Scene (Reducer τ) ω)) τ}
    (h : Engine.Agree Eq Eq e f) (request : ReducerCall τ) (scene : Scene (Reducer τ) ω) :
    (e.perform request).run scene = (f.perform request).run scene := by
  cases hbusy : scene.subject.busy with
  | true => rw [e.perform_of_busy request hbusy, f.perform_of_busy request hbusy]
  | false =>
    have hmeets := h.perform request scene scene ⟨rfl, hbusy, rfl⟩
    exact Prod.ext hmeets.result_eq hmeets.related.eq

end Engine

/-- The answer to a call from within an operation. -/
def ReducerCall.refusal (request : ReducerCall τ) : Except Error request.Result :=
  .error .reducerReentered

/-- A callback together with the same callback after calls were added to it that it catches. -/
structure Amended (σ τ α : Type) where
  original : ReducerCallback σ τ α
  amended : ReducerCallback σ τ α
  adds : amended.AddsCalls ReducerCall.refusal original

namespace CallbackEngine

/-- The engine with its callbacks' calls answered by another one. -/
def answeredBy (e : CallbackEngine σ τ) (f : Engine (Action (Scene (Reducer τ) σ)) τ) :
    Engine (Action (Scene (Reducer τ) σ)) τ :=
  e.map (Callback.run fun request => (f.perform request).attempt)

/-- The engine with its callbacks' calls refused outright. -/
def refusingCalls (e : CallbackEngine σ τ) : Engine (Action (Scene (Reducer τ) σ)) τ :=
  e.map (Callback.run fun request => pure request.refusal)

/-- The engine with its callbacks' calls left out. -/
def refused (e : CallbackEngine σ τ) : CallbackEngine σ τ :=
  e.map (Callback.refused ReducerCall.refusal)

/-- Wherever all calls are refused the engine agrees with the one without calls. -/
theorem agree_refused (e : CallbackEngine σ τ)
    {answer : (c : ReducerCall τ) → StateM (Scene (Reducer τ) σ) (Except Error c.Result)}
    (hanswer : ∀ request scene, scene.subject.busy = true →
      (answer request).run scene = (request.refusal, scene))
    (answer' : (c : ReducerCall τ) → StateM (Scene (Reducer τ) σ) (Except Error c.Result)) :
    Engine.Agree Eq Eq (e.map (Callback.run answer)) (e.refused.map (Callback.run answer')) where
  findReduction stack := by
    have hleft : (e.map (Callback.run answer)).grammar.findReduction stack =
        (e.grammar.findReduction stack).run answer :=
      e.grammar.findReduction_map (fun _ => rfl) (Callback.run_bind answer) stack
    have hrefused : e.refused.grammar.findReduction stack =
        (e.grammar.findReduction stack).refused ReducerCall.refusal :=
      e.grammar.findReduction_map (φ := Callback.refused ReducerCall.refusal) (fun _ => rfl)
        Callback.refused_bind stack
    have hright : (e.refused.map (Callback.run answer')).grammar.findReduction stack =
        (e.refused.grammar.findReduction stack).run answer' :=
      e.refused.grammar.findReduction_map (fun _ => rfl) (Callback.run_bind answer') stack
    rw [hleft, hright, hrefused]
    exact Callback.agree_refused hanswer _
  hooks := {
    onReset := fun r => Callback.agree_refused hanswer _
    onShift := fun r token => Callback.agree_refused hanswer _
    onReduce := fun r rule node => Callback.agree_refused hanswer _
    onFinish := fun r result => Callback.agree_refused hanswer _ }

/-- Engines that are the same without their calls work in the same way wherever all calls are
refused. -/
theorem perform_eq_of_refused_eq {e f : CallbackEngine σ τ} (h : e.refused = f.refused)
    {answer answer' : (c : ReducerCall τ) → StateM (Scene (Reducer τ) σ) (Except Error c.Result)}
    (hanswer : ∀ request scene, scene.subject.busy = true →
      (answer request).run scene = (request.refusal, scene))
    (hanswer' : ∀ request scene, scene.subject.busy = true →
      (answer' request).run scene = (request.refusal, scene))
    (request : ReducerCall τ) (scene : Scene (Reducer τ) σ) :
    ((e.map (Callback.run answer)).perform request).run scene =
      ((f.map (Callback.run answer')).perform request).run scene := by
  rw [(e.agree_refused hanswer answer).run_perform_eq,
    (f.agree_refused hanswer' answer).run_perform_eq, h]

/-- The answer of an engine to a call from within an operation. -/
theorem attempt_of_busy (f : Engine (Action (Scene (Reducer τ) σ)) τ) (request : ReducerCall τ)
    (scene : Scene (Reducer τ) σ) (h : scene.subject.busy = true) :
    (f.perform request).attempt.run scene = (request.refusal, scene) :=
  f.perform_of_busy request h

theorem refused_amended_eq (p : Engine (Amended σ τ) τ) :
    refused (p.map Amended.amended) = refused (p.map Amended.original) := by
  have hgrammar : (p.grammar.map Amended.amended).map (Callback.refused ReducerCall.refusal) =
      (p.grammar.map Amended.original).map (Callback.refused ReducerCall.refusal) := by
    simp only [Grammar.map_map, (Amended.adds _).refused_eq]
  have hhooks : (p.hooks.map Amended.amended).map (Callback.refused ReducerCall.refusal) =
      (p.hooks.map Amended.original).map (Callback.refused ReducerCall.refusal) := by
    simp only [Hooks.map, (Amended.adds _).refused_eq]
  have hengine := congr (congrArg Engine.mk hgrammar) hhooks
  exact hengine

end CallbackEngine

/-! ## Errors of callbacks -/

theorem Action.run_adapt {s : Type} (f : Error → Error) (x : Action s α) (state : s) :
    (ExceptT.adapt f x).run state = ((x.run state).1.mapError f, (x.run state).2) := rfl

theorem Action.adapt_bind {s : Type} (f : Error → Error) (x : Action s α) (g : α → Action s β) :
    (ExceptT.adapt f (x >>= g) : Action s β) =
      (ExceptT.adapt f x : Action s α) >>= fun a => ExceptT.adapt f (g a) := by
  refine ExceptT.ext (funext fun state => ?_)
  have hrun := run_adapt f (x >>= g) state
  rcases hx : x.run state with ⟨error | a, after⟩
  · have hadapt : (ExceptT.adapt f x : Action s α).run state = (.error (f error), after) := by
      rw [run_adapt, hx]
      rfl
    rw [run_bind_of_error hx] at hrun
    exact hrun.trans (run_bind_of_error hadapt).symm
  · have hadapt : (ExceptT.adapt f x : Action s α).run state = (.ok a, after) := by
      rw [run_adapt, hx]
      rfl
    rw [run_bind_of_ok hx] at hrun
    exact hrun.trans (run_bind_of_ok (f := fun a => ExceptT.adapt f (g a)) hadapt).symm

/-- An action agrees with itself up to a change of its error. -/
theorem Action.agree_adapt (f : Error → Error) {x : Action (Scene (Reducer τ) ω) α}
    (hspares : Spares (·.busy = true) x) :
    Agree (Scene.Alike true Eq) (fun error error' => error = f error') (ExceptT.adapt f x) x := by
  intro a b h
  obtain rfl := h.eq
  have hsame := hspares a h.busy_eq
  have hafter : Scene.Alike true Eq (x.run a).2 (x.run a).2 :=
    ⟨rfl, (congrArg Reducer.busy hsame).trans h.busy_eq, rfl⟩
  rw [run_adapt]
  rcases hx : x.run a with ⟨error | value, after⟩
  · rw [hx] at hafter
    exact .fault (F := fun a b => a = f b) rfl hafter
  · rw [hx] at hafter
    exact .value value hafter

/-- If callbacks ended in other errors, so would operations, and nothing else would change. -/
theorem Engine.Unobtrusive.agree_adapt {e : Engine (Action (Scene (Reducer τ) ω)) τ}
    (he : e.Unobtrusive) (f : Error → Error) :
    Engine.Agree Eq (fun error error' => error = f error') (e.map (ExceptT.adapt f)) e where
  findReduction stack := by
    have hsearch : (e.map (ExceptT.adapt f)).grammar.findReduction stack =
        ExceptT.adapt f (e.grammar.findReduction stack) :=
      e.grammar.findReduction_map (fun _ => rfl) (Action.adapt_bind f) stack
    rw [hsearch]
    exact Action.agree_adapt f (he.grammar.findReduction stack)
  hooks := {
    onReset := fun r => Action.agree_adapt f (he.onReset r)
    onShift := fun r token => Action.agree_adapt f (he.onShift r token)
    onReduce := fun r rule node => Action.agree_adapt f (he.onReduce r rule node)
    onFinish := fun r result => Action.agree_adapt f (he.onFinish r result) }

theorem Engine.Unobtrusive.run_perform_adapt {e : Engine (Action (Scene (Reducer τ) ω)) τ}
    (he : e.Unobtrusive) (f : Error → Error) (request : ReducerCall τ)
    {scene : Scene (Reducer τ) ω} (h : Idle scene) :
    ((e.map (ExceptT.adapt f)).perform request).run scene =
      (((e.perform request).run scene).1.mapError f, ((e.perform request).run scene).2) := by
  have hmeets := (he.agree_adapt f).perform request scene scene ⟨rfl, h, rfl⟩
  generalize ((e.map (ExceptT.adapt f)).perform request).run scene = left at hmeets ⊢
  generalize (e.perform request).run scene = right at hmeets ⊢
  cases hmeets with
  | value a hstates => rw [hstates.eq]; rfl
  | fault herrors hstates => rw [hstates.eq, herrors]; rfl

/-! ## Calls back into the reducer -/

/-- A call that a predicate or a hook makes back into its reducer is refused, whichever engine would
answer it, and changes nothing: an operation is what it is if its callbacks' calls are all refused
outright. Calls that are added to callbacks and caught do not change an operation. Between
operations the flag is down, and the errors that an operation ends in are those of its callbacks. -/
theorem CallbackEngine.reentry_refused (e : CallbackEngine σ τ) (request : ReducerCall τ) :
    (∀ f : Engine (Action (Scene (Reducer τ) σ)) τ,
      (∀ nested scene, scene.subject.busy = true →
        (f.perform nested).run scene = (.error .reducerReentered, scene)) ∧
      ∀ scene, ((e.answeredBy f).perform request).run scene =
        (e.refusingCalls.perform request).run scene) ∧
    (∀ scene, (e.perform request).run scene = (e.refusingCalls.perform request).run scene) ∧
    (∀ p : Engine (Amended σ τ) τ, p.map Amended.original = e → ∀ scene,
      (perform (p.map Amended.amended) request).run scene = (e.perform request).run scene) ∧
    ∀ scene, e.Reached scene → Engine.Idle scene ∧ ∀ change : Error → Error,
      ((e.running.map (ExceptT.adapt change)).perform request).run scene =
        (((e.perform request).run scene).1.mapError change,
          ((e.perform request).run scene).2) := by
  refine ⟨fun f => ⟨?_, ?_⟩, ?_, ?_, ?_⟩
  · intro nested scene hbusy
    exact f.perform_of_busy nested hbusy
  · intro scene
    exact perform_eq_of_refused_eq rfl (attempt_of_busy f) (fun _ _ _ => rfl) request scene
  · intro scene
    exact perform_eq_of_refused_eq rfl (attempt_of_busy _) (fun _ _ _ => rfl) request scene
  · rintro p rfl scene
    exact perform_eq_of_refused_eq (refused_amended_eq p) (attempt_of_busy _) (attempt_of_busy _)
      request scene
  · intro scene hreached
    refine ⟨hreached.idle, ?_⟩
    intro change
    exact e.running_unobtrusive.run_perform_adapt change request hreached.idle

/-- A pair of brackets, `true` for the opening one. To it is added that the predicate for the
opening bracket pushes it once more, and that the hook of a shift first finishes and then resets. -/
def insistentBrackets : Engine (Amended Unit Bool) Bool where
  grammar := {
    generator := { scope := 0 }
    defaultRule := {
      symbol := ⟨0, 0⟩
      schemas := [
        .terminal fun b =>
          { original := .done b
            amended := .call (.push b) fun _ => .done b
            adds := .caught _ (.done b) },
        .terminal fun b => { original := .done !b, amended := .done !b, adds := .done !b }] } }
  hooks := {
    onReset := fun _ => ⟨.done (), .done (), .done ()⟩
    onShift := fun _ _ =>
      { original := .done ()
        amended := .call .finish fun _ => .call .reset fun _ => .done ()
        adds := .caught _ (.caught _ (.done ())) }
    onReduce := fun _ _ _ => ⟨.done (), .done (), .done ()⟩
    onFinish := fun _ _ => ⟨.done (), .done (), .done ()⟩ }

/-- Parsing a pair of brackets with a reducer that holds an opening bracket yet. -/
theorem CallbackEngine.reentry_refused_insistent :
    let e : CallbackEngine Unit Bool := insistentBrackets.map Amended.original
    let amended : CallbackEngine Unit Bool := insistentBrackets.map Amended.amended
    let scene := ((e.perform (.push true)).run ⟨{}, ()⟩).2
    let parsed := (e.perform (.parse [true, false])).run scene
    (e.Reached scene ∧ parsed.1 = .ok (some (.node ⟨0, 0⟩ [.leaf true, .leaf false]))) ∧
      (amended.perform (.parse [true, false])).run scene = parsed ∧
      (amended.running.perform .finish).run (Engine.mark true scene) =
        (.error .reducerReentered, Engine.mark true scene) ∧
      Engine.Idle scene := by
  intro e amended scene parsed
  have hreached : e.Reached scene := .call (.fresh .permissive ()) (.push true)
  have hparsed : parsed.1 = .ok (some (.node ⟨0, 0⟩ [.leaf true, .leaf false])) := by cbv
  obtain ⟨hrefused, -, hamended, hlater⟩ := e.reentry_refused (.parse [true, false])
  exact ⟨⟨hreached, hparsed⟩, hamended insistentBrackets rfl scene,
    (hrefused amended.running).1 .finish _ rfl, (hlater scene hreached).1⟩

end ShiftReduce
