import ShiftReduce.Proofs.Reducer.Agreement
import ShiftReduce.Proofs.Reducer.Derivations
import ShiftReduce.Proofs.Reducer.Tokens

/-!
# Reducers without hooks

With predicates that only look at the token and no hooks at all, nothing can go wrong in a push: it
changes the stack as the function `Grammar.shift` says and nothing else. A parse is then a fold of
this function over the tokens and one split of the stack it leads to (`Engine.run_parse_silent`).

Whatever holds of pushes in general holds of the function. It shifts and applies at most one rule
(`Grammar.shift_cases`), so what rules keep holds of every tree on the stack
(`Grammar.foldl_shift_induction`), and the leaves of the stack are the tokens
(`Grammar.foldl_shift_leaves`).
-/

namespace ShiftReduce

variable {τ ω : Type}

/-- The tree fits the schema. -/
def Schema.Accepts (schema : Schema Id τ) (t : Tree τ) : Prop := (schema.accepts t).run = true

theorem Schema.fits_lift_iff (schema : Schema Id τ) (t : Tree τ) :
    (schema.map fun answer => pure (Id.run answer)).Fits t ↔ schema.Accepts t := by
  have hanswer : (schema.map fun answer => pure (Id.run answer)).accepts t =
      Except.ok (ε := Error) (schema.accepts t).run := by
    cases schema <;> cases t <;> rfl
  rw [← fits_iff, hanswer, Except.ok.injEq, Accepts]

namespace Grammar

/-- The stack after a token was shifted onto it and at most one rule was applied. -/
def shift (g : Grammar Id τ) (stack : List (Tree τ)) (token : τ) : List (Tree τ) :=
  match (g.findReduction (stack ++ [Tree.leaf token])).run with
  | none => stack ++ [Tree.leaf token]
  | some r => r.below ++ [r.node]

theorem findReduction_lift {m : Type → Type} [Monad m] [LawfulMonad m] (g : Grammar Id τ)
    (stack : List (Tree τ)) :
    (g.lift : Grammar m τ).findReduction stack = pure (g.findReduction stack).run :=
  findReduction_map (φ := fun answer => pure (Id.run answer)) (fun _ => rfl)
    (fun x f => (pure_bind x.run fun a => pure (f a).run).symm) g stack

theorem lift_eq_map_ofExcept {s : Type} (g : Grammar Id τ) :
    (g.lift : Grammar (Action s) τ) = (g.lift : Grammar (Except Error) τ).map Action.ofExcept := by
  unfold lift
  rw [map_map]
  rfl

/-- What holds of every push holds of the function. -/
theorem shift_pushed (g : Grammar Id τ) (stack : List (Tree τ)) (token : τ) :
    Pushed (g.lift : Grammar (Action Unit) τ).rules stack token (g.shift stack token) := by
  unfold shift
  cases hfound : (g.findReduction (stack ++ [Tree.leaf token])).run with
  | none => exact .shift
  | some r =>
    have hrun : ((g.lift : Grammar (Action Unit) τ).findReduction
        (stack ++ [Tree.leaf token])).run () = (.ok (some r), ()) := by
      rw [findReduction_lift, hfound]
      rfl
    exact .reduce r (findReduction_allowed hrun)

/-- A push shifts its token and then replaces at most one run, which a rule accepts tree by
tree. -/
theorem shift_cases (g : Grammar Id τ) (stack : List (Tree τ)) (token : τ) :
    g.shift stack token = stack ++ [Tree.leaf token] ∨
      ∃ below run : List (Tree τ), ∃ rule ∈ g.rules, List.Forall₂ Schema.Accepts rule.schemas run ∧
        below ++ run = stack ++ [Tree.leaf token] ∧
        g.shift stack token = below ++ [Tree.node rule.symbol run] := by
  have hpushed := g.shift_pushed stack token
  generalize g.shift stack token = after at hpushed ⊢
  cases hpushed with
  | shift => exact .inl rfl
  | reduce r allowed =>
    rw [lift_eq_map_ofExcept] at allowed
    obtain ⟨lifted, hmem, hnode, hfits⟩ := allowed.exists_fitting
    rw [lift, rules_map] at hmem
    obtain ⟨rule, hrule, rfl⟩ := List.mem_map.1 hmem
    rw [Rule.map, List.forall₂_map_left_iff] at hfits
    simp only [Schema.fits_lift_iff] at hfits
    rw [hnode]
    exact .inr ⟨r.below, r.run, rule, hrule, hfits, allowed.below_append_run, rfl⟩

/-- What holds of leaves and passes from the children to the nodes that rules make of them holds of
every tree on the stack. -/
theorem foldl_shift_induction (g : Grammar Id τ) {P : Tree τ → Prop}
    (hleaf : ∀ token, P (.leaf token))
    (hnode : ∀ rule ∈ g.rules, ∀ run, List.Forall₂ Schema.Accepts rule.schemas run →
      (∀ t ∈ run, P t) → P (.node rule.symbol run))
    (tokens : List τ) (stack : List (Tree τ)) (h : ∀ t ∈ stack, P t) :
    ∀ t ∈ tokens.foldl g.shift stack, P t := by
  induction tokens generalizing stack with
  | nil => exact h
  | cons token tokens ih =>
    refine ih _ ?_
    have hshifted : ∀ t ∈ stack ++ [Tree.leaf token], P t :=
      List.forall_mem_append.2 ⟨h, List.forall_mem_singleton.2 (hleaf token)⟩
    rcases g.shift_cases stack token with heq | ⟨below, run, rule, hrule, haccepts, hsplit, heq⟩
    · rwa [heq]
    · rw [← hsplit, List.forall_mem_append] at hshifted
      obtain ⟨hbelow, hrun⟩ := hshifted
      rw [heq, List.forall_mem_append, List.forall_mem_singleton]
      exact ⟨hbelow, hnode rule hrule run haccepts hrun⟩

theorem foldl_shift_leaves (g : Grammar Id τ) (stack : List (Tree τ)) (tokens : List τ) :
    allLeaves (tokens.foldl g.shift stack) = allLeaves stack ++ tokens := by
  induction tokens generalizing stack with
  | nil => rw [List.foldl_nil, List.append_nil]
  | cons token tokens ih =>
    rw [List.foldl_cons, ih, (g.shift_pushed stack token).allLeaves, List.append_assoc,
      List.singleton_append]

end Grammar

/-! ## Runs -/

namespace Engine

open ShiftReduce.Action

/-- Predicates that only look at the token, and no hooks. -/
def silent (g : Grammar Id τ) : Engine (Action (Scene (Reducer τ) ω)) τ :=
  { grammar := g.lift, hooks := .none }

variable {g : Grammar Id τ} {scene : Scene (Reducer τ) ω}

/-- A push returns whether a reduction was found. -/
theorem run_push_silent_eq (h : scene.subject.busy = false) (token : τ) :
    ((silent g).push token).run scene =
      (.ok (g.findReduction (scene.subject.stack ++ [Tree.leaf token])).run.isSome, { scene with
        subject := { scene.subject with stack := g.shift scene.subject.stack token } }) := by
  have hsearch := g.findReduction_lift (m := Action (Scene (Reducer τ) ω))
    (scene.subject.stack ++ [Tree.leaf token])
  simp only [run_push h, silent, Hooks.none, pure_bind]
  unfold reduce Grammar.shift
  rw [run_bind_of_ok (run_reducer _)]
  simp only [shifted, hsearch, pure_bind]
  cases (g.findReduction (scene.subject.stack ++ [Tree.leaf token])).run with
  | none => simp only [run_pure, mark, ← h, Option.isSome_none]
  | some r =>
    simp only [run_bind_of_ok (run_modifyReducer _ _), run_bind_of_ok (run_reducer _), run_pure,
      mark, ← h, Option.isSome_some]

theorem run_push_silent (h : scene.subject.busy = false) (token : τ) :
    ∃ reduced, ((silent g).push token).run scene = (.ok reduced, { scene with
      subject := { scene.subject with stack := g.shift scene.subject.stack token } }) :=
  ⟨_, run_push_silent_eq h token⟩

theorem run_pushAll_silent (h : scene.subject.busy = false) (tokens : List τ) :
    ((silent g).pushAll tokens).run scene = (.ok (), { scene with
      subject := { scene.subject with stack := tokens.foldl g.shift scene.subject.stack } }) := by
  induction tokens generalizing scene with
  | nil => rfl
  | cons token tokens ih =>
    obtain ⟨reduced, hpush⟩ := run_push_silent (g := g) h token
    rw [pushAll, run_bind_of_ok (run_discard_of_ok hpush)]
    exact ih h

theorem run_reset_silent (h : scene.subject.busy = false) :
    (silent g).reset.run scene = (.ok (), { scene with
      subject := { scene.subject with stack := [], residue := [], complete := false } }) := by
  unfold reset
  rw [exclusively_of_not_busy _ h, run_bind_of_ok (run_modifyReducer _ _),
    run_bind_of_ok (run_reducer _), ← h]
  rfl

theorem run_finish_silent (h : scene.subject.busy = false) :
    let outcome := Reducer.split scene.subject.policy scene.subject.stack
    (silent g).finish.run scene = (.ok outcome.1, { scene with
      subject := { scene.subject with
        stack := []
        residue := outcome.2
        complete := scene.subject.stack.length == 1 } }) := by
  rw [run_finish h, ← h]
  rfl

/-- A parse shifts its tokens onto an empty stack and splits the stack it gets. -/
theorem run_parse_silent (h : scene.subject.busy = false) (tokens : List τ) :
    let stack := tokens.foldl g.shift []
    let outcome := Reducer.split scene.subject.policy stack
    ((silent g).parse tokens).run scene = (.ok outcome.1, { scene with
      subject := { scene.subject with
        stack := []
        residue := outcome.2
        complete := stack.length == 1 } }) := by
  intro stack outcome
  unfold parse
  rw [run_bind_of_ok (run_reset_silent h)]
  refine (run_bind_of_ok (run_pushAll_silent ?_ tokens)).trans (run_finish_silent ?_) <;> exact h

/-- No operation changes the policy. -/
theorem policy_perform_silent (h : scene.subject.busy = false) (request : ReducerCall τ) :
    (((silent g).perform request).run scene).2.subject.policy = scene.subject.policy := by
  have hpolicy {α : Type} {p q : Except Error α × Scene (Reducer τ) ω} (hrun : p = q) :
      p.2.subject.policy = q.2.subject.policy := congrArg (·.2.subject.policy) hrun
  cases request with
  | push token =>
    obtain ⟨reduced, hpush⟩ := run_push_silent (g := g) h token
    exact hpolicy hpush
  | reset => exact hpolicy (run_reset_silent h)
  | finish => exact hpolicy (run_finish_silent h)
  | parse tokens => exact hpolicy (run_parse_silent h tokens)

theorem calm_silent (g : Grammar Id τ) (J : ω → Prop) :
    (silent g : Engine (Action (Scene (Reducer τ) ω)) τ).Calm J where
  grammar := g.every_lift fun answer => .pure answer
  hooks := ⟨fun _ => .pure (), fun _ _ => .pure (), fun _ _ _ => .pure (), fun _ _ => .pure ()⟩

theorem silent_unobtrusive (g : Grammar Id τ) :
    (silent g : Engine (Action (Scene (Reducer τ) ω)) τ).Unobtrusive where
  grammar := g.every_lift fun answer => .pure answer
  onReset _ := .pure ()
  onShift _ _ := .pure ()
  onReduce _ _ _ := .pure ()
  onFinish _ _ := .pure ()

/-- Calm hooks do not matter: with them an engine agrees with the one that has none. -/
theorem agree_silent {ν : Type} {J : ω → Prop} {F : Error → Error → Prop}
    {e : Engine (Action (Scene (Reducer τ) ω)) τ} (hgrammar : e.grammar = g.lift)
    (hcalm : e.hooks.Calm J) (he : e.Unobtrusive) :
    Engine.Agree (fun (w : ω) (_ : ν) => J w) F e (silent g) where
  findReduction stack := by
    rw [hgrammar, Grammar.findReduction_lift, silent, Grammar.findReduction_lift]
    exact .pure _
  hooks := hcalm.agree_none he

end Engine

namespace CallbackEngine

variable {σ : Type}

/-- A reducer with predicates that only look at the token and always answer, and any hooks. -/
def ofTotal (g : Grammar Id τ) (hooks : Hooks (ReducerCallback σ τ) τ) : CallbackEngine σ τ :=
  { grammar := g.lift, hooks }

theorem ofTotal_running_grammar (g : Grammar Id τ) (hooks : Hooks (ReducerCallback σ τ) τ) :
    (ofTotal g hooks).running.grammar = g.lift :=
  g.map_lift _ fun _ => rfl

theorem running_ofTotal (g : Grammar Id τ) :
    (ofTotal g .none : CallbackEngine σ τ).running = Engine.silent g :=
  congrArg (Engine.mk · .none) (ofTotal_running_grammar g .none)

theorem apart_ofTotal (g : Grammar Id τ) (hooks : Hooks (ReducerCallback σ τ) τ) :
    (ofTotal g hooks).apart = Engine.silent g :=
  congrArg (Engine.mk · .none) (g.map_lift _ fun _ => rfl)

end CallbackEngine

end ShiftReduce
