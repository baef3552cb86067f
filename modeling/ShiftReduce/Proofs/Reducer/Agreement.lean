import ShiftReduce.Proofs.Agreement
import ShiftReduce.Proofs.Reducer.Operations
import ShiftReduce.Reducer.Callback

/-!
# Reducers that agree

Two engines agree if their searches do and their hooks do (`Engine.Agree`); then so do all their
operations, from reducers that are the same while the states of the callbacks are only related
(`Engine.Agree.perform`). In particular, callbacks that never end in an error make operations that
never do (`Engine.Calm.perform`).
-/

namespace ShiftReduce

variable {τ ω ν α : Type} {W : ω → ν → Prop} {F : Error → Error → Prop}

/-- One and the same reducer, with its flag as given, beside related states of the callbacks. -/
structure Scene.Alike (busy : Bool) (W : ω → ν → Prop) (a : Scene (Reducer τ) ω)
    (b : Scene (Reducer τ) ν) : Prop where
  subject_eq : a.subject = b.subject
  busy_eq : a.subject.busy = busy
  world : W a.world b.world

/-- The hooks agree inside an operation. -/
structure Hooks.Agree (W : ω → ν → Prop) (F : Error → Error → Prop)
    (h : Hooks (Action (Scene (Reducer τ) ω)) τ) (k : Hooks (Action (Scene (Reducer τ) ν)) τ) :
    Prop where
  onReset : ∀ r, Action.Agree (Scene.Alike true W) F (h.onReset r) (k.onReset r)
  onShift : ∀ r token, Action.Agree (Scene.Alike true W) F (h.onShift r token) (k.onShift r token)
  onReduce : ∀ r rule node,
    Action.Agree (Scene.Alike true W) F (h.onReduce r rule node) (k.onReduce r rule node)
  onFinish : ∀ r result,
    Action.Agree (Scene.Alike true W) F (h.onFinish r result) (k.onFinish r result)

/-- The searches agree inside an operation, and so do the hooks. -/
structure Engine.Agree (W : ω → ν → Prop) (F : Error → Error → Prop)
    (e : Engine (Action (Scene (Reducer τ) ω)) τ) (f : Engine (Action (Scene (Reducer τ) ν)) τ) :
    Prop where
  findReduction : ∀ stack, Action.Agree (Scene.Alike true W) F (e.grammar.findReduction stack)
    (f.grammar.findReduction stack)
  hooks : e.hooks.Agree W F f.hooks

namespace Engine

theorem agree_reducer {busy : Bool} :
    Action.Agree (Scene.Alike (τ := τ) busy W) F reducer reducer := by
  intro a b h
  rw [run_reducer, run_reducer, h.subject_eq]
  exact .value b.subject h

/-- A change of the reducer that leaves its flag alone. -/
theorem agree_modifyReducer {busy : Bool} {change : Reducer τ → Reducer τ}
    (hflag : ∀ r, (change r).busy = r.busy := by intro _; rfl) :
    Action.Agree (Scene.Alike busy W) F (modifyReducer change) (modifyReducer change) := by
  intro a b h
  refine .value () ⟨congrArg change h.subject_eq, ?_, h.world⟩
  exact (hflag a.subject).trans h.busy_eq

/-- Operations agree from outside if their bodies agree inside, for any relation between scenes whose
flags are as given. -/
theorem agree_exclusively_of_mark
    {R : Bool → Scene (Reducer τ) ω → Scene (Reducer τ) ν → Prop}
    (hbusy : ∀ {busy a b}, R busy a b → a.subject.busy = busy ∧ b.subject.busy = busy)
    (hmark : ∀ {busy a b} (raised : Bool), R busy a b → R raised (mark raised a) (mark raised b))
    {x : Action (Scene (Reducer τ) ω) α} {y : Action (Scene (Reducer τ) ν) α}
    (h : Action.Agree (R true) F x y) :
    Action.Agree (R false) F (exclusively x) (exclusively y) := by
  intro a b hab
  obtain ⟨hleft, hright⟩ := hbusy hab
  rw [exclusively_of_not_busy x hleft, exclusively_of_not_busy y hright]
  have hmeets := h _ _ (hmark true hab)
  generalize x.run (mark true a) = left at hmeets ⊢
  generalize y.run (mark true b) = right at hmeets ⊢
  cases hmeets with
  | value value hrelated => exact .value value (hmark false hrelated)
  | fault herrors hrelated => exact .fault herrors (hmark false hrelated)

theorem agree_exclusively {x : Action (Scene (Reducer τ) ω) α} {y : Action (Scene (Reducer τ) ν) α}
    (h : Action.Agree (Scene.Alike true W) F x y) :
    Action.Agree (Scene.Alike false W) F (exclusively x) (exclusively y) := by
  refine agree_exclusively_of_mark (R := fun busy => Scene.Alike busy W) ?_ ?_ h
  · intro busy a b hab
    exact ⟨hab.busy_eq, hab.subject_eq ▸ hab.busy_eq⟩
  · intro busy a b raised hab
    exact ⟨congrArg (fun r => { r with busy := raised }) hab.subject_eq, rfl, hab.world⟩

namespace Agree

variable {e : Engine (Action (Scene (Reducer τ) ω)) τ} {f : Engine (Action (Scene (Reducer τ) ν)) τ}
  (h : Engine.Agree W F e f)

include h

theorem reset : Action.Agree (Scene.Alike false W) F e.reset f.reset := by
  apply agree_exclusively
  apply Action.Agree.bind agree_modifyReducer
  intro _
  exact .bind agree_reducer h.hooks.onReset

theorem reduce : Action.Agree (Scene.Alike true W) F e.reduce f.reduce := by
  apply Action.Agree.bind agree_reducer
  intro r
  apply Action.Agree.bind (h.findReduction r.stack)
  intro found
  cases found with
  | none => exact .pure false
  | some reduction =>
    apply Action.Agree.bind agree_modifyReducer
    intro _
    apply Action.Agree.bind agree_reducer
    intro r
    apply Action.Agree.bind (h.hooks.onReduce r _ _)
    intro _
    exact .pure true

theorem push (token : τ) : Action.Agree (Scene.Alike false W) F (e.push token) (f.push token) := by
  apply agree_exclusively
  apply Action.Agree.bind agree_modifyReducer
  intro _
  apply Action.Agree.bind agree_reducer
  intro r
  apply Action.Agree.bind (h.hooks.onShift r token)
  intro _
  exact h.reduce

theorem finish : Action.Agree (Scene.Alike false W) F e.finish f.finish := by
  apply agree_exclusively
  apply Action.Agree.bind agree_reducer
  intro r
  apply Action.Agree.bind agree_modifyReducer
  intro _
  apply Action.Agree.bind agree_reducer
  intro r
  apply Action.Agree.bind (h.hooks.onFinish r _)
  intro _
  exact .pure _

theorem pushAll (tokens : List τ) :
    Action.Agree (Scene.Alike false W) F (e.pushAll tokens) (f.pushAll tokens) := by
  induction tokens with
  | nil => exact .pure ()
  | cons token tokens ih =>
    apply Action.Agree.bind (h.push token).discard
    intro _
    exact ih

theorem parse (tokens : List τ) :
    Action.Agree (Scene.Alike false W) F (e.parse tokens) (f.parse tokens) := by
  apply Action.Agree.bind h.reset
  intro _
  apply Action.Agree.bind (h.pushAll tokens)
  intro _
  exact h.finish

/-- All operations agree. -/
theorem perform (request : ReducerCall τ) :
    Action.Agree (Scene.Alike false W) F (e.perform request) (f.perform request) := by
  cases request with
  | push token => exact h.push token
  | reset => exact h.reset
  | finish => exact h.finish
  | parse tokens => exact h.parse tokens

end Agree

end Engine

/-! ## One engine -/

/-- A scene with the reducer's flag as given, and with a state of the callbacks that satisfies
`J`. -/
def Scene.Flagged (busy : Bool) (J : ω → Prop) (scene : Scene (Reducer τ) ω) : Prop :=
  scene.subject.busy = busy ∧ J scene.world

/-- Inside an operation, in states that satisfy `J`, no hook ends in an error, and all of them lead
to such states. -/
structure Hooks.Calm (J : ω → Prop) (h : Hooks (Action (Scene (Reducer τ) ω)) τ) : Prop where
  onReset : ∀ r, Action.Calm (Scene.Flagged true J) (h.onReset r)
  onShift : ∀ r token, Action.Calm (Scene.Flagged true J) (h.onShift r token)
  onReduce : ∀ r rule node, Action.Calm (Scene.Flagged true J) (h.onReduce r rule node)
  onFinish : ∀ r result, Action.Calm (Scene.Flagged true J) (h.onFinish r result)

/-- Neither a predicate nor a hook ends in an error. -/
structure Engine.Calm (J : ω → Prop) (e : Engine (Action (Scene (Reducer τ) ω)) τ) : Prop where
  grammar : e.grammar.Every (Action.Calm (Scene.Flagged true J))
  hooks : e.hooks.Calm J

variable {J : ω → Prop}

theorem Scene.alike_self_iff {busy : Bool} {a b : Scene (Reducer τ) ω} :
    Scene.Alike busy (fun w w' => w = w' ∧ J w) a b ↔ a = b ∧ a.Flagged busy J := by
  constructor
  · rintro ⟨hsubject, hbusy, hworld, hJ⟩
    cases a
    cases b
    cases hsubject
    cases hworld
    exact ⟨rfl, hbusy, hJ⟩
  · rintro ⟨rfl, hbusy, hJ⟩
    exact ⟨rfl, hbusy, rfl, hJ⟩

/-- A calm action is one that agrees with itself without errors. -/
theorem Action.calm_iff_agree {busy : Bool} {x : Action (Scene (Reducer τ) ω) α} :
    Calm (Scene.Flagged busy J) x ↔
      Agree (Scene.Alike busy fun w w' => w = w' ∧ J w) (fun _ _ => False) x x := by
  constructor
  · intro h a b hab
    obtain ⟨rfl, ha⟩ := Scene.alike_self_iff.1 hab
    obtain ⟨value, after, hrun, hafter⟩ := h a ha
    rw [hrun]
    exact .value value (Scene.alike_self_iff.2 ⟨rfl, hafter⟩)
  · intro h scene hscene
    obtain ⟨value, left, right, hrun, -, hstates⟩ :=
      (h scene scene (Scene.alike_self_iff.2 ⟨rfl, hscene⟩)).exists_value
    exact ⟨value, left, hrun, (Scene.alike_self_iff.1 hstates).2⟩

namespace Engine.Calm

variable {e : Engine (Action (Scene (Reducer τ) ω)) τ} (h : e.Calm J)

include h

theorem findReduction (stack : List (Tree τ)) :
    Action.Calm (Scene.Flagged true J) (e.grammar.findReduction stack) :=
  Grammar.Every.findReduction (P := Action.Calm (Scene.Flagged true J)) .pure .bind h.grammar stack

theorem agree : Engine.Agree (fun w w' => w = w' ∧ J w) (fun _ _ => False) e e where
  findReduction stack := Action.calm_iff_agree.1 (h.findReduction stack)
  hooks := {
    onReset := fun r => Action.calm_iff_agree.1 (h.hooks.onReset r)
    onShift := fun r token => Action.calm_iff_agree.1 (h.hooks.onShift r token)
    onReduce := fun r rule node => Action.calm_iff_agree.1 (h.hooks.onReduce r rule node)
    onFinish := fun r result => Action.calm_iff_agree.1 (h.hooks.onFinish r result) }

/-- With calm callbacks operations are calm. -/
theorem perform (request : ReducerCall τ) :
    Action.Calm (Scene.Flagged false J) (e.perform request) :=
  Action.calm_iff_agree.2 (h.agree.perform request)

end Engine.Calm

/-! ## Hooks that do not matter -/

/-- A calm action that leaves the reducer alone agrees with doing nothing. -/
theorem Action.agree_pure_of_calm {x : Action (Scene (Reducer τ) ω) Unit}
    (hcalm : Calm (Scene.Flagged true J) x) (hspares : Spares (·.busy = true) x) :
    Agree (Scene.Alike true fun (w : ω) (_ : ν) => J w) F x (pure ()) := by
  intro a b h
  have hsame := hspares a h.busy_eq
  obtain ⟨_, after, hrun, hbusy, hworld⟩ := hcalm a ⟨h.busy_eq, h.world⟩
  rw [hrun] at hsame
  rw [hrun]
  exact .value () ⟨Eq.trans hsame h.subject_eq, hbusy, hworld⟩

/-- Hooks that are calm and leave the reducer alone agree with no hooks at all. -/
theorem Hooks.Calm.agree_none {e : Engine (Action (Scene (Reducer τ) ω)) τ} (h : e.hooks.Calm J)
    (he : e.Unobtrusive) : e.hooks.Agree (fun (w : ω) (_ : ν) => J w) F .none where
  onReset r := Action.agree_pure_of_calm (h.onReset r) (he.onReset r)
  onShift r token := Action.agree_pure_of_calm (h.onShift r token) (he.onShift r token)
  onReduce r rule node :=
    Action.agree_pure_of_calm (h.onReduce r rule node) (he.onReduce r rule node)
  onFinish r result := Action.agree_pure_of_calm (h.onFinish r result) (he.onFinish r result)

end ShiftReduce
