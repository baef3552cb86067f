import Mathlib
import ShiftReduce.Proofs.Parse.Reentry
import ShiftReduce.Proofs.Tree.Leaves
import ShiftReduce.Reducer.Trace

/-!
# Recorded events

Hooks that only record their events change nothing: a reducer with them does what it does without
any hooks (`Grammar.agree_silent`). And the record leaves nothing out. An event of a reduction is
read for no more than the symbol of its rule and the number of its trees (`Event.replay`), and yet
replaying the events gives the stack that the reducer has, also where a predicate has ended a push
in an error (`Grammar.record_faithful`).

The record is kept beside the state of the predicates, which do not see it (`Callback.beside`).
-/

namespace ShiftReduce

/-! ## Code beside a second state -/

namespace Callback

variable {σ μ ρ α β : Type} {Call : Type} {Answer : Call → Type}

/-- The code on the first of two states. -/
def beside : Callback σ Call Answer α → Callback (σ × μ) Call Answer α
  | done value => done value
  | raise error => raise error
  | read next => read fun both => (next both.1).beside
  | write world next => read fun both => write (world, both.2) next.beside
  | call request next => call request fun answer => (next answer).beside

theorem beside_bind (x : Callback σ Call Answer α) (f : α → Callback σ Call Answer β) :
    (x.bind f).beside = x.beside.bind fun a => (f a).beside (μ := μ) := by
  induction x with
  | done | raise => rfl
  | read _ ih => exact congrArg read (funext fun both => ih both.1)
  | write _ _ ih => exact congrArg read (funext fun both => congrArg (write _) ih)
  | call _ _ ih => exact congrArg (call _) (funext ih)

end Callback

/-- The scene with a second state beside the world. -/
def Scene.beside {ρ σ μ : Type} (scene : Scene ρ σ) (other : μ) : Scene ρ (σ × μ) :=
  { subject := scene.subject, world := (scene.world, other) }

/-- Where all calls are refused, code beside a second state does what it does alone. -/
theorem Callback.run_beside {σ μ ρ α Call : Type} {Answer : Call → Type}
    {refusal : (c : Call) → Answer c} {p : ρ → Prop}
    {answer : (c : Call) → StateM (Scene ρ (σ × μ)) (Answer c)}
    {answer' : (c : Call) → StateM (Scene ρ σ) (Answer c)}
    (hanswer : ∀ request scene, p scene.subject →
      (answer request).run scene = (refusal request, scene))
    (hanswer' : ∀ request scene, p scene.subject →
      (answer' request).run scene = (refusal request, scene))
    (x : Callback σ Call Answer α) {scene : Scene ρ σ} (h : p scene.subject) (other : μ) :
    (x.beside.run answer).run (scene.beside other) =
      (((x.run answer').run scene).1, ((x.run answer').run scene).2.beside other) := by
  induction x generalizing scene with
  | done | raise => rfl
  | read next ih => exact ih scene.world h
  | write world next ih =>
    have hwritten : p ({ scene with world } : Scene ρ σ).subject := h
    exact ih hwritten
  | call request next ih =>
    have hbeside := Action.run_lift (hanswer request (scene.beside other) h)
    have halone := Action.run_lift (hanswer' request scene h)
    rw [beside, run, run, Action.run_bind_of_ok hbeside, Action.run_bind_of_ok halone]
    exact ih (refusal request) h

/-! ## Recording reducers -/

section Recording

variable {σ τ : Type}

/-- The engine without hooks. -/
def Grammar.silent (g : Grammar (ReducerCallback σ τ) τ) : CallbackEngine σ τ :=
  { grammar := g, hooks := .none }

/-- The engine with hooks that do no more than to write every event down. -/
def Grammar.recording (g : Grammar (ReducerCallback σ τ) τ) :
    CallbackEngine (σ × List (Event τ)) τ where
  grammar := g.map Callback.beside
  hooks := .observing fun event => .update fun both => (both.1, both.2 ++ [event])

variable (g : Grammar (ReducerCallback σ τ) τ)

/-- A search on behalf of a recording reducer leaves the record alone, and otherwise does what it
does without. -/
theorem Grammar.run_findReduction_recording (stack : List (Tree τ)) (scene : Scene (Reducer τ) σ)
    (h : scene.subject.busy = true) (record : List (Event τ)) :
    (g.recording.running.grammar.findReduction stack).run (scene.beside record) =
      (((g.silent.running.grammar.findReduction stack).run scene).1,
        ((g.silent.running.grammar.findReduction stack).run scene).2.beside record) := by
  let answer := fun request => (g.recording.refusing.perform request).attempt
  let answer' := fun request => (g.silent.refusing.perform request).attempt
  have hrecording : g.recording.running.grammar.findReduction stack =
      (g.findReduction stack).beside.run answer := by
    change ((g.map Callback.beside).map (Callback.run answer)).findReduction stack = _
    rw [Grammar.map_map]
    refine findReduction_map (φ := fun x => x.beside.run answer) (fun _ => rfl) ?_ g stack
    intro α β x f
    exact (congrArg (Callback.run answer) (x.beside_bind f)).trans (Callback.run_bind ..)
  have hsilent : g.silent.running.grammar.findReduction stack =
      (g.findReduction stack).run answer' :=
    findReduction_map (fun _ => rfl) (Callback.run_bind answer') g stack
  rw [hrecording, hsilent]
  exact Callback.run_beside (p := fun r => r.busy = true)
    (CallbackEngine.attempt_of_busy _) (CallbackEngine.attempt_of_busy _) _ h record

/-- A recording reducer agrees with one that has no hooks. -/
theorem Grammar.agree_silent : Engine.Agree (fun both world => both.1 = world) Eq
    g.recording.running g.silent.running where
  findReduction stack := by
    rintro ⟨r, world, record⟩ ⟨r', world'⟩ ⟨hsubject, hbusy, hworld⟩
    obtain rfl : r = r' := hsubject
    obtain rfl : world = world' := hworld
    have hrun := g.run_findReduction_recording stack ⟨r, world⟩ hbusy record
    have hsame := g.silent.running_unobtrusive.grammar.findReduction stack ⟨r, world⟩ hbusy
    rw [Scene.beside] at hrun
    rw [hrun]
    rcases hfound : (g.silent.running.grammar.findReduction stack).run ⟨r, world⟩ with
      ⟨error | found, after⟩
    · rw [hfound] at hsame
      exact .fault rfl ⟨rfl, (congrArg Reducer.busy hsame).trans hbusy, rfl⟩
    · rw [hfound] at hsame
      exact .value found ⟨rfl, (congrArg Reducer.busy hsame).trans hbusy, rfl⟩
  hooks := {
    onReset := fun r a b h => .value () ⟨h.subject_eq, h.busy_eq, h.world⟩
    onShift := fun r token a b h => .value () ⟨h.subject_eq, h.busy_eq, h.world⟩
    onReduce := fun r rule node a b h => .value () ⟨h.subject_eq, h.busy_eq, h.world⟩
    onFinish := fun r result a b h => .value () ⟨h.subject_eq, h.busy_eq, h.world⟩ }

/-- Whatever the steps are, a recording reducer and one without hooks stay the same, and so do the
states of their predicates. -/
theorem Grammar.foldl_afterStep_silent (steps : List (Step τ))
    {a : Scene (Reducer τ) (σ × List (Event τ))} {b : Scene (Reducer τ) σ}
    (h : Scene.Alike false (fun both world => both.1 = world) a b) :
    Scene.Alike false (fun both world => both.1 = world)
      (steps.foldl g.recording.afterStep a) (steps.foldl g.silent.afterStep b) := by
  induction steps generalizing a b with
  | nil => exact h
  | cons step steps ih => exact ih (g.agree_silent.perform step.request a b h).related

end Recording

/-! ## Replaying events -/

section Replay

variable {τ : Type}

namespace Event

/-- The stack after an event. A reduction is told by the symbol and the number of children only. -/
def replay (stack : List (Tree τ)) : Event τ → List (Tree τ)
  | reset => []
  | shift token _ => stack ++ [.leaf token]
  | reduce lhs node _ =>
    let below := stack.length - node.arity
    stack.take below ++ [.node lhs (stack.drop below)]
  | finish .. => []

/-- The depth that an event tells, if it tells one. -/
def depth? : Event τ → Option Nat
  | shift _ depth => some depth
  | reduce _ _ depth => some depth
  | reset => none
  | finish .. => none

def isReduce : Event τ → Bool
  | reduce .. => true
  | _ => false

/-- Every depth that is told is the size of the stack, replayed as far as the event. -/
def Truthful (stack : List (Tree τ)) : List (Event τ) → Prop
  | [] => True
  | event :: events =>
    (∀ depth ∈ event.depth?, depth = (event.replay stack).length) ∧
      Truthful (event.replay stack) events

theorem truthful_append {stack : List (Tree τ)} {events more : List (Event τ)} :
    Truthful stack (events ++ more) ↔
      Truthful stack events ∧ Truthful (events.foldl replay stack) more := by
  induction events generalizing stack with
  | nil => simp [Truthful]
  | cons event events ih => simp [Truthful, ih, and_assoc]

end Event

/-- The number of nodes of trees, leaves not counted. -/
abbrev allNodes (ts : List (Tree τ)) : Nat := (ts.map Tree.countNodes).sum

theorem Tree.countNodesAll_eq (ts : List (Tree τ)) : countNodesAll ts = allNodes ts := by
  induction ts with
  | nil => rfl
  | cons t ts ih => simp only [countNodesAll, ih, allNodes, List.map_cons, List.sum_cons]

/-- What is told of a push, by what it comes to: a shift, and after it a reduction exactly if the
push returns that there was one. -/
inductive Told (stack : List (Tree τ)) (token : τ) :
    Except Error Bool → List (Event τ) → List (Tree τ) → Prop where
  | shift {result : Except Error Bool} (hresult : result ≠ .ok true) :
      Told stack token result [.shift token (stack.length + 1)] (stack ++ [.leaf token])
  | reduce (below run : List (Tree τ)) (lhs : Symbol)
      (hsplit : below ++ run = stack ++ [.leaf token]) :
      Told stack token (.ok true)
        [.shift token (stack.length + 1), .reduce lhs (.node lhs run) (below.length + 1)]
        (below ++ [.node lhs run])

namespace Told

variable {stack after : List (Tree τ)} {token : τ} {result : Except Error Bool}
  {events : List (Event τ)} (h : Told stack token result events after)

include h

theorem replay_eq : events.foldl Event.replay stack = after := by
  cases h with
  | shift hresult => rfl
  | reduce below run lhs hsplit =>
    simp only [List.foldl_cons, List.foldl_nil, Event.replay, ← hsplit, Tree.arity,
      List.length_append, Nat.add_sub_cancel, List.take_left', List.drop_left']

theorem truthful : Event.Truthful stack events := by
  have hreplay := h.replay_eq
  cases h with
  | shift hresult => simp [Event.Truthful, Event.depth?, Event.replay]
  | reduce below run lhs hsplit =>
    rw [List.foldl_cons, List.foldl_cons, List.foldl_nil] at hreplay
    simp only [Event.Truthful, hreplay]
    simp [Event.depth?, Event.replay]

theorem countP_isReduce : allNodes after = allNodes stack + events.countP Event.isReduce := by
  have hshift : allNodes (stack ++ [.leaf token]) = allNodes stack := by
    simp [allNodes, Tree.countNodes]
  cases h with
  | shift hresult => exact hshift
  | reduce below run lhs hsplit =>
    rw [← hshift, ← hsplit]
    simp [allNodes, Tree.countNodes, Tree.countNodesAll_eq, Event.isReduce]
    omega

end Told

end Replay

/-! ## What is recorded -/

section Record

variable {σ τ : Type} (g : Grammar (ReducerCallback σ τ) τ)

/-- In the middle of a push, a reduction is recorded exactly if there is one. -/
theorem Grammar.reduce_recorded (scene : Scene (Reducer τ) σ) (h : scene.subject.busy = true)
    (record : List (Event τ)) {result : Except Error Bool}
    {after : Scene (Reducer τ) (σ × List (Event τ))}
    (hrun : g.recording.running.reduce.run (scene.beside record) = (result, after)) :
    (result ≠ .ok true ∧ after.subject.stack = scene.subject.stack ∧ after.world.2 = record) ∨
      ∃ (below run : List (Tree τ)) (lhs : Symbol), result = .ok true ∧
        below ++ run = scene.subject.stack ∧ after.subject.stack = below ++ [.node lhs run] ∧
        after.world.2 = record ++ [.reduce lhs (.node lhs run) (below.length + 1)] := by
  unfold Engine.reduce at hrun
  rw [Action.run_bind_of_ok (Engine.run_reducer _)] at hrun
  have hsearch : (g.recording.running.grammar.findReduction
      (scene.beside record).subject.stack).run (scene.beside record) = _ :=
    g.run_findReduction_recording scene.subject.stack scene h record
  have hsame := g.silent.running_unobtrusive.grammar.findReduction scene.subject.stack scene h
  rcases hfound : (g.silent.running.grammar.findReduction scene.subject.stack).run scene with
    ⟨error | found, between⟩
  · rw [hfound] at hsearch hsame
    rw [Action.run_bind_of_error hsearch] at hrun
    cases hrun
    exact .inl ⟨nofun, congrArg Reducer.stack hsame, rfl⟩
  · rw [hfound] at hsearch hsame
    rw [Action.run_bind_of_ok hsearch] at hrun
    cases found with
    | none =>
      cases hrun
      exact .inl ⟨nofun, congrArg Reducer.stack hsame, rfl⟩
    | some reduction =>
      have hallowed := Grammar.findReduction_allowed hfound
      cases hrun
      refine .inr ⟨reduction.below, reduction.run, reduction.rule.symbol, rfl,
        hallowed.below_append_run, rfl, ?_⟩
      change record ++ [Event.reduce _ _ (reduction.below ++ [_]).length] = _
      rw [List.length_append]
      rfl

/-- A push is recorded as what it comes to, also if a predicate ends it in an error. -/
theorem Grammar.push_told {scene : Scene (Reducer τ) (σ × List (Event τ))}
    (hidle : scene.subject.busy = false) (token : τ) :
    let pushed := (g.recording.perform (.push token)).run scene
    ∃ events, pushed.2.world.2 = scene.world.2 ++ events ∧
      Told scene.subject.stack token pushed.1 events pushed.2.subject.stack := by
  intro pushed
  let shifted : Scene (Reducer τ) σ :=
    { subject := (Engine.shifted scene token).subject, world := scene.world.1 }
  let told : Event τ := .shift token (scene.subject.stack.length + 1)
  have hdepth : (Engine.shifted scene token).subject.depth = scene.subject.stack.length + 1 :=
    List.length_append
  have hshift : (g.recording.running.hooks.onShift (Engine.shifted scene token).subject token).run
      (Engine.shifted scene token) = (.ok (), shifted.beside (scene.world.2 ++ [told])) := by
    simp only [told, ← hdepth]
    rfl
  rcases hreduce : g.recording.running.reduce.run (shifted.beside (scene.world.2 ++ [told])) with
    ⟨result, after⟩
  have hpushed : pushed = (result, Engine.mark false after) := by
    refine (Engine.run_push (e := g.recording.running) hidle token).trans ?_
    simp only [Action.run_bind_of_ok hshift, hreduce]
  rw [hpushed]
  rcases g.reduce_recorded shifted rfl _ hreduce with
    ⟨hresult, hstack, hrecord⟩ | ⟨below, run, lhs, rfl, hsplit, hstack, hrecord⟩
  · refine ⟨[told], hrecord, ?_⟩
    rw [Engine.mark_subject, hstack]
    exact .shift hresult
  · refine ⟨[told, .reduce lhs (.node lhs run) (below.length + 1)], ?_, ?_⟩
    · exact hrecord.trans (List.append_assoc ..)
    · rw [Engine.mark_subject, hstack]
      exact .reduce below run lhs hsplit

theorem Grammar.reset_recorded {scene : Scene (Reducer τ) (σ × List (Event τ))}
    (hidle : scene.subject.busy = false) :
    g.recording.afterStep scene .reset =
      { subject := { scene.subject with stack := [], residue := [], complete := false }
        world := (scene.world.1, scene.world.2 ++ [.reset]) } := by
  have hrun : (g.recording.perform .reset).run scene =
      (.ok (), { subject := { scene.subject with
                   stack := [], residue := [], complete := false, busy := false }
                 world := (scene.world.1, scene.world.2 ++ [.reset]) }) := by
    change g.recording.running.reset.run scene = _
    unfold Engine.reset
    rw [Engine.exclusively_of_not_busy _ hidle]
    rfl
  rw [CallbackEngine.afterStep, Step.request, hrun, ← hidle]

/-- A record of what has happened since a reset: replayed, it gives the stack; every depth in it is
the size of the stack at that time; and it has a reduction for each node on the stack. -/
structure Faithful (events : List (Event τ)) (stack : List (Tree τ)) : Prop where
  replay_eq : events.foldl Event.replay [] = stack
  truthful : Event.Truthful [] events
  countP_isReduce : events.countP Event.isReduce = allNodes stack

theorem Faithful.told {events told : List (Event τ)} {stack after : List (Tree τ)} {token : τ}
    {result : Except Error Bool} (h : Faithful events stack)
    (htold : Told stack token result told after) : Faithful (events ++ told) after where
  replay_eq := by rw [List.foldl_append, h.replay_eq, htold.replay_eq]
  truthful := by
    rw [Event.truthful_append, h.replay_eq]
    exact ⟨h.truthful, htold.truthful⟩
  countP_isReduce := by rw [List.countP_append, h.countP_isReduce, htold.countP_isReduce]

theorem Grammar.faithful_pushes {record events : List (Event τ)} (tokens : List τ)
    {scene : Scene (Reducer τ) (σ × List (Event τ))} (hidle : scene.subject.busy = false)
    (hrecord : scene.world.2 = record ++ events) (h : Faithful events scene.subject.stack) :
    let after := (tokens.map .push).foldl g.recording.afterStep scene
    after.subject.busy = false ∧
      ∃ events, after.world.2 = record ++ events ∧ Faithful events after.subject.stack := by
  induction tokens generalizing scene events with
  | nil => exact ⟨hidle, events, hrecord, h⟩
  | cons token tokens ih =>
    obtain ⟨told, htold, hcomes⟩ := g.push_told hidle token
    refine ih (CallbackEngine.afterStep_busy hidle (.push token)) ?_ (h.told hcomes)
    rw [← List.append_assoc, ← hrecord]
    exact htold

/-- Tokens are pushed after a reset while hooks record the events, and predicates do what they like.
At each point the record is faithful. A push is told by its shift, and then by a reduction exactly
if it returns that there was one. And without the hooks everything would be the same, up to the
record. -/
theorem Grammar.record_faithful (scene : Scene (Reducer τ) (σ × List (Event τ)))
    (hidle : scene.subject.busy = false) (tokens : List τ) :
    let after := (.reset :: tokens.map .push).foldl g.recording.afterStep scene
    (∃ events, after.world.2 = scene.world.2 ++ .reset :: events ∧
      Faithful events after.subject.stack) ∧
    (∀ token, let pushed := (g.recording.perform (.push token)).run after
      ∃ told, pushed.2.world.2 = after.world.2 ++ told ∧
        Told after.subject.stack token pushed.1 told pushed.2.subject.stack) ∧
    ∀ steps : List (Step τ),
      let heard := steps.foldl g.recording.afterStep scene
      let unheard := steps.foldl g.silent.afterStep
        { subject := scene.subject, world := scene.world.1 }
      unheard = { subject := heard.subject, world := heard.world.1 } ∧
        ∀ request, ((g.silent.perform request).run unheard).1 =
          ((g.recording.perform request).run heard).1 := by
  intro after
  have hreset := g.reset_recorded hidle
  have hfirst : (g.recording.afterStep scene .reset).world.2 =
      (scene.world.2 ++ [.reset]) ++ [] := by
    rw [hreset, List.append_nil]
  have hnothing : Faithful (τ := τ) [] (g.recording.afterStep scene .reset).subject.stack := by
    rw [hreset]
    exact ⟨rfl, trivial, rfl⟩
  obtain ⟨hafter, events, hrecord, hfaithful⟩ := g.faithful_pushes tokens
    (CallbackEngine.afterStep_busy hidle .reset) hfirst hnothing
  refine ⟨⟨events, ?_, hfaithful⟩, fun token => g.push_told hafter token, ?_⟩
  · rw [List.append_cons]
    exact hrecord
  · intro steps heard unheard
    have halike : Scene.Alike false (fun both world => both.1 = world) heard unheard :=
      g.foldl_afterStep_silent steps ⟨rfl, hidle, rfl⟩
    refine ⟨?_, fun request => (g.agree_silent.perform request _ _ halike).result_eq.symm⟩
    obtain ⟨hsubject, -, hworld⟩ := halike
    rw [hsubject, hworld]

end Record

/-- Pairs of brackets. The second one is looked at only as often as the world allows. -/
def meteredGrammar (pair : Symbol) : Grammar (ReducerCallback Nat Bool) Bool where
  generator := { scope := pair.scope }
  defaultRule := {
    symbol := pair
    schemas := [.terminal .done, .terminal fun b => .read fun
      | 0 => .raise (.raised [])
      | allowed + 1 => .write allowed (.done !b)] }

/-- The predicate ends the push of the last bracket in an error, and the record is complete. -/
theorem Grammar.record_faithful_raised :
    let pair : Symbol := ⟨0, 0⟩
    let g := meteredGrammar pair
    let scene : Scene (Reducer Bool) (Nat × List (Event Bool)) := ⟨{}, (1, [])⟩
    let node : Tree Bool := .node pair [.leaf true, .leaf false]
    let stack : List (Tree Bool) := [node, .leaf true, .leaf false]
    let events : List (Event Bool) :=
      [.shift true 1, .shift false 2, .reduce pair node 1, .shift true 2, .shift false 3]
    scene.subject.busy = false ∧
      (.reset :: [true, false, true, false].map .push).foldl g.recording.afterStep scene =
        { subject := { stack }, world := (0, .reset :: events) } ∧
      Faithful events stack := by
  intro pair g scene node stack events
  have hafter : (.reset :: [true, false, true, false].map .push).foldl g.recording.afterStep scene =
      { subject := { stack }, world := (0, .reset :: events) } := by cbv
  obtain ⟨⟨recorded, hrecord, hfaithful⟩, -⟩ :=
    g.record_faithful scene rfl [true, false, true, false]
  rw [hafter] at hrecord hfaithful
  cases hrecord
  exact ⟨rfl, hafter, hfaithful⟩

end ShiftReduce
