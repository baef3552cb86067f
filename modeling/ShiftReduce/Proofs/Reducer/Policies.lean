import ShiftReduce.Proofs.Parse.Past
import ShiftReduce.Proofs.Parse.Reentry
import ShiftReduce.Proofs.Parse.Text

/-!
# What a policy decides

The policy of a reducer is read at the end of an input only, and what a finish makes of it, the
result and the residue, is not read again. So reducers that differ in these (`Scene.Twin`) stay so
whatever is done to both of them: every operation but a finish ends alike (`Hooks.Blind.push`,
`Hooks.Blind.reset`), and a finish deals the same stack out into a residue and a result
(`Hooks.Blind.finish`). The predicates have to be pure, and the hooks blind to the difference
(`Hooks.Blind`), since a hook is shown the reducer and the result. Hooks that never end in an error
are blind (`Hooks.Calm.blind`), and so are hooks that look at the stack and at `complete` only
(`Hooks.Heedless.blind`).
-/

namespace ShiftReduce

variable {σ τ ω : Type} {W : ω → ω → Prop}

/-- Reducers that may differ in policy and residue only, with their flags as given, beside related
states of the callbacks. -/
structure Scene.Twin (busy : Bool) (W : ω → ω → Prop) (a b : Scene (Reducer τ) ω) : Prop where
  stack_eq : a.subject.stack = b.subject.stack
  complete_eq : a.subject.complete = b.subject.complete
  busy_left : a.subject.busy = busy
  busy_right : b.subject.busy = busy
  world : W a.world b.world

/-- Twins stay twins whatever policies they are given. -/
theorem Scene.Twin.withPolicies {busy : Bool} {a b : Scene (Reducer τ) ω}
    (h : Scene.Twin busy W a b) (policy policy' : Policy) :
    Scene.Twin busy W { a with subject := { a.subject with policy } }
      { b with subject := { b.subject with policy := policy' } } :=
  ⟨h.stack_eq, h.complete_eq, h.busy_left, h.busy_right, h.world⟩

theorem Scene.Twin.mark {busy : Bool} {a b : Scene (Reducer τ) ω} (h : Scene.Twin busy W a b)
    (raised : Bool) : Scene.Twin raised W (Engine.mark raised a) (Engine.mark raised b) :=
  ⟨h.stack_eq, h.complete_eq, rfl, rfl, h.world⟩

/-- Told of an operation by twins the hooks agree, at a finish whatever the two results are. -/
structure Hooks.Blind (W : ω → ω → Prop) (h : Hooks (Action (Scene (Reducer τ) ω)) τ) : Prop where
  onReset : Action.Agree (Scene.Twin true W) Eq
    (Engine.reducer >>= h.onReset) (Engine.reducer >>= h.onReset)
  onShift : ∀ token, Action.Agree (Scene.Twin true W) Eq
    (Engine.reducer >>= (h.onShift · token)) (Engine.reducer >>= (h.onShift · token))
  onReduce : ∀ rule node, Action.Agree (Scene.Twin true W) Eq
    (Engine.reducer >>= (h.onReduce · rule node)) (Engine.reducer >>= (h.onReduce · rule node))
  onFinish : ∀ result result', Action.Agree (Scene.Twin true W) Eq
    (Engine.reducer >>= (h.onFinish · result)) (Engine.reducer >>= (h.onFinish · result'))

/-! ## Operations that do not read the policy -/

namespace Engine

/-- What reads nothing of the reducer but its stack agrees with itself on twins. -/
theorem agree_reducer_twin {busy : Bool} {F : Error → Error → Prop} {α : Type}
    {x : Reducer τ → Action (Scene (Reducer τ) ω) α}
    (h : ∀ r r' : Reducer τ, r.stack = r'.stack →
      Action.Agree (Scene.Twin busy W) F (x r) (x r')) :
    Action.Agree (Scene.Twin busy W) F (reducer >>= x) (reducer >>= x) := by
  intro a b hab
  rw [Action.run_bind_of_ok (run_reducer a), Action.run_bind_of_ok (run_reducer b)]
  exact h _ _ hab.stack_eq a b hab

/-- A change that decides stack and `complete` by these alone. -/
theorem agree_modifyReducer_twin {busy : Bool} {F : Error → Error → Prop}
    {change : Reducer τ → Reducer τ}
    (hchange : ∀ r r' : Reducer τ, r.stack = r'.stack → r.complete = r'.complete →
      (change r).stack = (change r').stack ∧ (change r).complete = (change r').complete)
    (hflag : ∀ r, (change r).busy = r.busy := by intro _; rfl) :
    Action.Agree (Scene.Twin busy W) F (modifyReducer change) (modifyReducer change) := by
  intro a b h
  obtain ⟨hstack, hcomplete⟩ := hchange _ _ h.stack_eq h.complete_eq
  refine .value () ⟨hstack, hcomplete, ?_, ?_, h.world⟩
  · exact (hflag a.subject).trans h.busy_left
  · exact (hflag b.subject).trans h.busy_right

theorem agree_exclusively_twin {α : Type} {x y : Action (Scene (Reducer τ) ω) α}
    (h : Action.Agree (Scene.Twin true W) Eq x y) :
    Action.Agree (Scene.Twin false W) Eq (exclusively x) (exclusively y) := by
  refine agree_exclusively_of_mark (R := fun busy => Scene.Twin busy W) ?_ ?_ h
  · intro busy a b hab
    exact ⟨hab.busy_left, hab.busy_right⟩
  · intro busy a b raised hab
    exact hab.mark raised

end Engine

namespace Hooks.Blind

variable {g : Grammar (Except Error) τ} {e : Engine (Action (Scene (Reducer τ) ω)) τ}
  (h : e.hooks.Blind W)

include h

theorem reset : Action.Agree (Scene.Twin false W) Eq e.reset e.reset := by
  apply Engine.agree_exclusively_twin
  apply Action.Agree.bind
  · exact Engine.agree_modifyReducer_twin fun _ _ _ _ => ⟨rfl, rfl⟩
  · intro _
    exact h.onReset

variable (hgrammar : e.grammar = g.map Action.ofExcept)

include hgrammar

theorem reduce : Action.Agree (Scene.Twin true W) Eq e.reduce e.reduce := by
  apply Engine.agree_reducer_twin
  intro r r' hstack
  rw [hstack, hgrammar, g.findReduction_ofExcept]
  apply Action.Agree.bind (Engine.agree_ofExcept _)
  intro found
  cases found with
  | none => exact .pure false
  | some reduction =>
    apply Action.Agree.bind
    · exact Engine.agree_modifyReducer_twin fun _ _ _ hcomplete => ⟨rfl, hcomplete⟩
    · intro _
      rw [← LawfulMonad.bind_assoc]
      apply Action.Agree.bind (h.onReduce _ _)
      intro _
      exact .pure true

theorem push (token : τ) : Action.Agree (Scene.Twin false W) Eq (e.push token) (e.push token) := by
  apply Engine.agree_exclusively_twin
  apply Action.Agree.bind
  · exact Engine.agree_modifyReducer_twin fun _ _ hstack hcomplete =>
      ⟨congrArg (· ++ [Tree.leaf token]) hstack, hcomplete⟩
  · intro _
    rw [← LawfulMonad.bind_assoc]
    apply Action.Agree.bind (h.onShift token)
    intro _
    exact h.reduce hgrammar

theorem pushAll (tokens : List τ) :
    Action.Agree (Scene.Twin false W) Eq (e.pushAll tokens) (e.pushAll tokens) := by
  induction tokens with
  | nil => exact .pure ()
  | cons token tokens ih =>
    apply Action.Agree.bind (h.push hgrammar token).discard
    intro _
    exact ih

theorem feed (tokens : List τ) :
    Action.Agree (Scene.Twin false W) Eq (e.feed tokens) (e.feed tokens) := by
  apply Action.Agree.bind h.reset
  intro _
  exact h.pushAll hgrammar tokens

end Hooks.Blind

/-! ## Finishing -/

/-- How finishing a stack ends: `complete` says whether it held exactly one tree, the residue and
the result after it are the stack, and a strict reducer has no result of any other stack. -/
structure Finished (stack : List (Tree τ)) (policy : Policy)
    (ending : Except Error (Option (Tree τ)) × Reducer τ) : Prop where
  complete_iff : ending.2.complete = true ↔ stack.length = 1
  residue_append : ∀ result, ending.1 = .ok result → ending.2.residue ++ result.toList = stack
  eq_none_of_strict : policy = .strict → stack.length ≠ 1 →
    ∀ result, ending.1 = .ok result → result = none

/-- How finishing one stack under two policies ends. The errors are the same, and so are the results
if the policies are or if the stack held exactly one tree. -/
structure FinishedAlike (stack : List (Tree τ)) (policy policy' : Policy)
    (ending ending' : Except Error (Option (Tree τ)) × Reducer τ) : Prop where
  left : Finished stack policy ending
  right : Finished stack policy' ending'
  error_iff : ∀ error, ending.1 = .error error ↔ ending'.1 = .error error
  result_eq : policy = policy' ∨ stack.length = 1 → ending.1 = ending'.1

/-- A stack of one tree is split in the same way under every policy. -/
theorem Reducer.split_of_length_eq_one {stack : List (Tree τ)} (h : stack.length = 1)
    (policy policy' : Policy) : split policy stack = split policy' stack := by
  have hsplit (policy : Policy) : split policy stack = (stack.getLast?, stack.dropLast) :=
    if_neg fun hstrict => hstrict.2 h
  rw [hsplit, hsplit]

namespace Engine

/-- What an action ends with, and the reducer that it leaves. -/
def ending {α : Type} (x : Action (Scene (Reducer τ) ω) α) (scene : Scene (Reducer τ) ω) :
    Except Error α × Reducer τ :=
  ((x.run scene).1, (x.run scene).2.subject)

/-- The scene in which the hook of a finish is told of it. -/
def emptied (scene : Scene (Reducer τ) ω) : Scene (Reducer τ) ω :=
  { scene with
    subject := { scene.subject with
      stack := []
      residue := (Reducer.split scene.subject.policy scene.subject.stack).2
      complete := scene.subject.stack.length == 1
      busy := true } }

variable {e : Engine (Action (Scene (Reducer τ) ω)) τ} {scene : Scene (Reducer τ) ω}

theorem run_finish_of_told (h : scene.subject.busy = false) {result : Except Error Unit}
    {told : Scene (Reducer τ) ω}
    (htold : (e.hooks.onFinish (emptied scene).subject
      (Reducer.split scene.subject.policy scene.subject.stack).1).run (emptied scene) =
        (result, told)) :
    e.finish.run scene =
      (result.map fun _ => (Reducer.split scene.subject.policy scene.subject.stack).1,
        mark false told) :=
  (run_finish h).trans (congrArg (fun p : Except Error Unit × Scene (Reducer τ) ω =>
    (p.1.map fun _ => (Reducer.split scene.subject.policy scene.subject.stack).1,
      mark false p.2)) htold)

theorem finished (he : e.Unobtrusive) (h : scene.subject.busy = false) :
    Finished scene.subject.stack scene.subject.policy (ending e.finish scene) where
  complete_iff := by
    rw [ending, finish_subject he h]
    exact beq_iff_eq
  residue_append result hresult := (finish_deals he h (Prod.ext hresult rfl)).1
  eq_none_of_strict hstrict hlength result hresult := by
    rw [finish_result h (Prod.ext hresult rfl), Reducer.split, if_pos ⟨hstrict, hlength⟩]

end Engine

namespace Hooks.Blind

variable {g : Grammar (Except Error) τ} {e : Engine (Action (Scene (Reducer τ) ω)) τ}
  (h : e.hooks.Blind W) {a b : Scene (Reducer τ) ω} (hab : Scene.Twin false W a b)

include h hab

/-- Finishes of twins leave twins. Either the hook cuts both short, or each ends with what its
policy makes of the stack. -/
theorem finish_cases :
    Scene.Twin false W (e.finish.run a).2 (e.finish.run b).2 ∧
      ((∃ error, (e.finish.run a).1 = .error error ∧ (e.finish.run b).1 = .error error) ∨
        (e.finish.run a).1 = .ok (Reducer.split a.subject.policy a.subject.stack).1 ∧
          (e.finish.run b).1 = .ok (Reducer.split b.subject.policy b.subject.stack).1) := by
  have hmeets := h.onFinish (Reducer.split a.subject.policy a.subject.stack).1
    (Reducer.split b.subject.policy b.subject.stack).1 (Engine.emptied a) (Engine.emptied b)
    ⟨rfl, congrArg (List.length · == 1) hab.stack_eq, rfl, rfl, hab.world⟩
  rw [Action.run_bind_of_ok (Engine.run_reducer _),
    Action.run_bind_of_ok (Engine.run_reducer _)] at hmeets
  rcases hleft : (e.hooks.onFinish (Engine.emptied a).subject
    (Reducer.split a.subject.policy a.subject.stack).1).run (Engine.emptied a) with ⟨result, left⟩
  rcases hright : (e.hooks.onFinish (Engine.emptied b).subject
    (Reducer.split b.subject.policy b.subject.stack).1).run (Engine.emptied b) with ⟨result', right⟩
  rw [hleft, hright] at hmeets
  rw [Engine.run_finish_of_told hab.busy_left hleft,
    Engine.run_finish_of_told hab.busy_right hright]
  refine ⟨hmeets.related.mark false, ?_⟩
  cases hmeets with
  | value => exact .inr ⟨rfl, rfl⟩
  | @fault error error' herrors =>
    obtain rfl := herrors
    exact .inl ⟨error, rfl, rfl⟩

theorem finish (he : e.Unobtrusive) :
    FinishedAlike a.subject.stack a.subject.policy b.subject.policy (Engine.ending e.finish a)
      (Engine.ending e.finish b) where
  left := Engine.finished he hab.busy_left
  right := hab.stack_eq ▸ Engine.finished he hab.busy_right
  error_iff error := by
    rcases (h.finish_cases hab).2 with ⟨error', hleft, hright⟩ | ⟨hleft, hright⟩
    · rw [Engine.ending, Engine.ending, hleft, hright]
    · rw [Engine.ending, Engine.ending, hleft, hright]
      exact iff_of_false nofun nofun
  result_eq hsame := by
    have hsplit : Reducer.split a.subject.policy a.subject.stack =
        Reducer.split b.subject.policy b.subject.stack := by
      rw [← hab.stack_eq]
      rcases hsame with hpolicy | hlength
      · rw [hpolicy]
      · exact Reducer.split_of_length_eq_one hlength _ _
    rcases (h.finish_cases hab).2 with ⟨error, hleft, hright⟩ | ⟨hleft, hright⟩
    · exact hleft.trans hright.symm
    · rw [hsplit] at hleft
      exact hleft.trans hright.symm

end Hooks.Blind

/-! ## Parsing -/

namespace Engine

variable {e : Engine (Action (Scene (Reducer τ) ω)) τ}

/-- The flag is down and the policy is the given one. -/
def Follows (policy : Policy) (scene : Scene (Reducer τ) ω) : Prop :=
  Idle scene ∧ scene.subject.policy = policy

/-- Resets and pushes leave the policy as it is. -/
theorem keeps_feed (he : e.Unobtrusive) (policy : Policy) (tokens : List τ) :
    Action.Keeps (Follows policy) (e.feed tokens) := by
  have hpush (token : τ) : Action.Keeps (Follows policy) (e.push token) := by
    rintro scene ⟨hidle, hpolicy⟩
    obtain ⟨stack, hpushed, -⟩ := push_subject he hidle token
    rw [Follows, Idle, hpushed]
    exact ⟨hidle, hpolicy⟩
  apply Action.Keeps.bind
  · rintro scene ⟨hidle, hpolicy⟩
    rw [Follows, Idle, reset_subject he hidle]
    exact ⟨hidle, hpolicy⟩
  · intro _
    exact e.keeps_pushAll hpush tokens

end Engine

/-- Two parses of the same tokens. The resets and pushes end alike and lead to the same stack; an
error in them cuts both parses short, and otherwise this stack is finished. -/
structure ParsedAlike (e : Engine (Action (Scene (Reducer τ) ω)) τ) (tokens : List τ)
    (a b : Scene (Reducer τ) ω) : Prop where
  result_eq : (Engine.ending (e.feed tokens) a).1 = (Engine.ending (e.feed tokens) b).1
  stack_eq : (Engine.ending (e.feed tokens) a).2.stack = (Engine.ending (e.feed tokens) b).2.stack
  cut_short : ∀ error, (Engine.ending (e.feed tokens) a).1 = .error error →
    (Engine.ending (e.parse tokens) a).1 = .error error ∧
      (Engine.ending (e.parse tokens) b).1 = .error error
  finished : (Engine.ending (e.feed tokens) a).1 = .ok () →
    FinishedAlike (Engine.ending (e.feed tokens) a).2.stack a.subject.policy b.subject.policy
      (Engine.ending (e.parse tokens) a) (Engine.ending (e.parse tokens) b)

namespace Hooks.Blind

variable {g : Grammar (Except Error) τ} {e : Engine (Action (Scene (Reducer τ) ω)) τ}
  (h : e.hooks.Blind W) (hgrammar : e.grammar = g.map Action.ofExcept)

include h hgrammar

theorem parse (he : e.Unobtrusive) (tokens : List τ) {a b : Scene (Reducer τ) ω}
    (hab : Scene.Twin false W a b) :
    Scene.Twin false W ((e.parse tokens).run a).2 ((e.parse tokens).run b).2 ∧
      ParsedAlike e tokens a b := by
  have hmeets := h.feed hgrammar tokens a b hab
  have hpolicy := (Engine.keeps_feed he a.subject.policy tokens a ⟨hab.busy_left, rfl⟩).2
  have hpolicy' := (Engine.keeps_feed he b.subject.policy tokens b ⟨hab.busy_right, rfl⟩).2
  rcases hfed : (e.feed tokens).run a with ⟨result, fed⟩
  rcases hfed' : (e.feed tokens).run b with ⟨result', fed'⟩
  rw [hfed] at hmeets hpolicy
  rw [hfed'] at hmeets hpolicy'
  cases hmeets with
  | @fault error error' herrors _ _ hstates =>
    obtain rfl := herrors
    have hparse : (e.parse tokens).run a = (.error error, fed) :=
      e.parse_eq_feed tokens ▸ Action.run_bind_of_error hfed
    have hparse' : (e.parse tokens).run b = (.error error, fed') :=
      e.parse_eq_feed tokens ▸ Action.run_bind_of_error hfed'
    rw [hparse, hparse']
    refine ⟨hstates, ?_⟩
    constructor <;> simp only [Engine.ending, hfed, hfed', hparse, hparse']
    · exact hstates.stack_eq
    · rintro _ ⟨⟩
      exact ⟨rfl, rfl⟩
    · exact nofun
  | value _ hstates =>
    have hparse : (e.parse tokens).run a = e.finish.run fed :=
      e.parse_eq_feed tokens ▸ Action.run_bind_of_ok hfed
    have hparse' : (e.parse tokens).run b = e.finish.run fed' :=
      e.parse_eq_feed tokens ▸ Action.run_bind_of_ok hfed'
    rw [hparse, hparse']
    have hfinish := h.finish hstates he
    rw [hpolicy, hpolicy'] at hfinish
    refine ⟨(h.finish_cases hstates).1, ?_⟩
    constructor <;> simp only [Engine.ending, hfed, hfed', hparse, hparse']
    · exact hstates.stack_eq
    · exact nofun
    · intro _
      exact hfinish

/-- Whatever is done to twins, it leaves twins. -/
theorem perform (he : e.Unobtrusive) (request : ReducerCall τ) {a b : Scene (Reducer τ) ω}
    (hab : Scene.Twin false W a b) :
    Scene.Twin false W ((e.perform request).run a).2 ((e.perform request).run b).2 := by
  cases request with
  | push token => exact (h.push hgrammar token a b hab).related
  | reset => exact (h.reset a b hab).related
  | finish => exact (h.finish_cases hab).1
  | parse tokens => exact (h.parse hgrammar he tokens hab).1

end Hooks.Blind

/-! ## Hooks that are blind -/

/-- Hooks that never end in an error are blind, whatever they look at. -/
theorem Hooks.Calm.blind {e : Engine (Action (Scene (Reducer τ) ω)) τ}
    (h : e.hooks.Calm fun _ => True) (he : e.Unobtrusive) : e.hooks.Blind fun _ _ => True := by
  have htold {x y : Reducer τ → Action (Scene (Reducer τ) ω) Unit}
      (hx : ∀ r, Action.Calm (Scene.Flagged true fun _ => True) (x r))
      (hy : ∀ r, Action.Calm (Scene.Flagged true fun _ => True) (y r))
      (hspares : ∀ r, Action.Spares (·.busy = true) (x r))
      (hspares' : ∀ r, Action.Spares (·.busy = true) (y r)) :
      Action.Agree (Scene.Twin true fun _ _ => True) Eq (Engine.reducer >>= x)
        (Engine.reducer >>= y) := by
    intro a b hab
    have hsame := hspares a.subject a hab.busy_left
    have hsame' := hspares' b.subject b hab.busy_right
    obtain ⟨_, left, hleft, hbusy, -⟩ := hx a.subject a ⟨hab.busy_left, trivial⟩
    obtain ⟨_, right, hright, hbusy', -⟩ := hy b.subject b ⟨hab.busy_right, trivial⟩
    rw [hleft] at hsame
    rw [hright] at hsame'
    rw [Action.run_bind_of_ok (Engine.run_reducer a), hleft,
      Action.run_bind_of_ok (Engine.run_reducer b), hright]
    have hstack := hab.stack_eq
    have hcomplete := hab.complete_eq
    rw [← hsame, ← hsame'] at hstack hcomplete
    exact .value () ⟨hstack, hcomplete, hbusy, hbusy', trivial⟩
  exact {
    onReset := htold h.onReset h.onReset he.onReset he.onReset
    onShift := fun token => htold (h.onShift · token) (h.onShift · token) (he.onShift · token)
      (he.onShift · token)
    onReduce := fun rule node => htold (h.onReduce · rule node) (h.onReduce · rule node)
      (he.onReduce · rule node) (he.onReduce · rule node)
    onFinish := fun result result' => htold (h.onFinish · result) (h.onFinish · result')
      (he.onFinish · result) (he.onFinish · result') }

/-- Hooks that look at nothing of what they are shown that depends on the policy. -/
structure Hooks.Heedless {m : Type → Type} (h : Hooks m τ) : Prop where
  onReset : ∀ r r', r.stack = r'.stack → r.complete = r'.complete → h.onReset r = h.onReset r'
  onShift : ∀ token r r', r.stack = r'.stack → r.complete = r'.complete →
    h.onShift r token = h.onShift r' token
  onReduce : ∀ rule node r r', r.stack = r'.stack → r.complete = r'.complete →
    h.onReduce r rule node = h.onReduce r' rule node
  onFinish : ∀ result result' r r', r.stack = r'.stack → r.complete = r'.complete →
    h.onFinish r result = h.onFinish r' result'

/-- Code that can only call a reducer in the middle of an operation sees nothing of it. -/
theorem Callback.agree_twin {Call α : Type} {Answer : Call → Type} {refusal : (c : Call) → Answer c}
    {answer : (c : Call) → StateM (Scene (Reducer τ) σ) (Answer c)}
    (hanswer : ∀ request scene, scene.subject.busy = true →
      (answer request).run scene = (refusal request, scene)) (x : Callback σ Call Answer α) :
    Action.Agree (Scene.Twin true Eq) Eq (x.run answer) (x.run answer) := by
  induction x with
  | done value => exact .pure value
  | raise error =>
    intro a b h
    exact .fault rfl h
  | read next ih =>
    intro a b h
    change Action.Meets _ _ (((next a.world).run answer).run a) (((next b.world).run answer).run b)
    rw [h.world]
    exact ih b.world a b h
  | write world next ih =>
    intro a b h
    exact ih _ _ ⟨h.stack_eq, h.complete_eq, h.busy_left, h.busy_right, rfl⟩
  | call request next ih =>
    intro a b h
    rw [run, Action.run_bind_of_ok (Action.run_lift (hanswer request a h.busy_left)),
      Action.run_bind_of_ok (Action.run_lift (hanswer request b h.busy_right))]
    exact ih (refusal request) a b h

theorem Hooks.Heedless.blind {e : CallbackEngine σ τ} (h : e.hooks.Heedless) :
    e.running.hooks.Blind Eq := by
  have htold {x y : Reducer τ → ReducerCallback σ τ Unit}
      (hsame : ∀ r r' : Reducer τ, r.stack = r'.stack → r.complete = r'.complete → x r = y r') :
      Action.Agree (Scene.Twin true Eq) Eq
        (Engine.reducer >>= fun r => (x r).run fun c => (e.refusing.perform c).attempt)
        (Engine.reducer >>= fun r => (y r).run fun c => (e.refusing.perform c).attempt) := by
    intro a b hab
    rw [Action.run_bind_of_ok (Engine.run_reducer a), Action.run_bind_of_ok (Engine.run_reducer b),
      hsame _ _ hab.stack_eq hab.complete_eq]
    exact Callback.agree_twin (CallbackEngine.attempt_of_busy e.refusing) _ a b hab
  exact {
    onReset := htold h.onReset
    onShift := fun token => htold (h.onShift token)
    onReduce := fun rule node => htold (h.onReduce rule node)
    onFinish := fun result result' => htold (h.onFinish result result') }

/-! ## Uses -/

/-- The same calls, and the same changes of the state that the callbacks keep, with changes of the
policy between them at any points of the one and of the other. -/
inductive SameButPolicy : List (Use σ τ) → List (Use σ τ) → Prop
  | nil : SameButPolicy [] []
  | left (policy : Policy) {uses uses' : List (Use σ τ)} (h : SameButPolicy uses uses') :
    SameButPolicy (.setPolicy policy :: uses) uses'
  | right (policy : Policy) {uses uses' : List (Use σ τ)} (h : SameButPolicy uses uses') :
    SameButPolicy uses (.setPolicy policy :: uses')
  | both (use : Use σ τ) {uses uses' : List (Use σ τ)} (h : SameButPolicy uses uses') :
    SameButPolicy (use :: uses) (use :: uses')

/-- Two reducers at one point of their runs: what they hold, how a push and a reset end, and how a
finish and a parse do. -/
structure AgreesButPolicy (e : Engine (Action (Scene (Reducer τ) ω)) τ)
    (a b : Scene (Reducer τ) ω) : Prop where
  stack_eq : a.subject.stack = b.subject.stack
  complete_eq : a.subject.complete = b.subject.complete
  push_eq : ∀ token, ((e.push token).run a).1 = ((e.push token).run b).1
  reset_eq : (e.reset.run a).1 = (e.reset.run b).1
  finish : FinishedAlike a.subject.stack a.subject.policy b.subject.policy
    (Engine.ending e.finish a) (Engine.ending e.finish b)
  parse : ∀ tokens, ParsedAlike e tokens a b

namespace CallbackEngine

variable {g : Grammar (Except Error) τ} {hooks : Hooks (ReducerCallback σ τ) τ} {W : σ → σ → Prop}

theorem twin_runUses (hrefl : ∀ world, W world world)
    (hblind : (ofPure g hooks).running.hooks.Blind W) {uses uses' : List (Use σ τ)}
    (huses : SameButPolicy uses uses') {a b : Scene (Reducer τ) σ} (hab : Scene.Twin false W a b) :
    Scene.Twin false W ((ofPure g hooks).runUses uses a).2
      ((ofPure g hooks).runUses uses' b).2 := by
  induction huses generalizing a b with
  | nil => exact hab
  | left policy _ ih => exact ih (hab.withPolicies policy b.subject.policy)
  | right policy _ ih => exact ih (hab.withPolicies a.subject.policy policy)
  | both use _ ih =>
    apply ih
    cases use with
    | call request =>
      exact hblind.perform (ofPure_running_grammar g hooks) (running_unobtrusive _) request hab
    | setPolicy policy => exact hab.withPolicies policy policy
    | setWorld world =>
      exact ⟨hab.stack_eq, hab.complete_eq, hab.busy_left, hab.busy_right, hrefl world⟩

end CallbackEngine

end ShiftReduce
