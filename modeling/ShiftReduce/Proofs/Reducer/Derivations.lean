import Mathlib
import ShiftReduce.Proofs.Grammar.Derivation
import ShiftReduce.Proofs.Reducer.Uses

/-!
# Every tree is a derivation

With pure predicates a rule that has matched a run still matches it later, so the trees that a
reducer builds are derivations of its grammar. A push makes one new node over trees of the stack;
all other operations only move trees around (`afterStep_trees`).
-/

namespace ShiftReduce

variable {σ τ : Type}

/-! ## Properties of all trees -/

/-- All trees on the stack and in the residue have a property. -/
structure Reducer.AllTrees (P : Tree τ → Prop) (r : Reducer τ) : Prop where
  stack : ∀ t ∈ r.stack, P t
  residue : ∀ t ∈ r.residue, P t

namespace CallbackEngine

/-- What holds of leaves and of the nodes that reductions make holds of all trees of a reducer. -/
theorem afterStep_trees {e : CallbackEngine σ τ} {P : Tree τ → Prop}
    (hleaf : ∀ token, P (.leaf token))
    (hnode : ∀ (r : Reduction τ) stack, r.Allowed e.running.grammar.rules stack →
      (∀ t ∈ r.run, P t) → P r.node)
    {scene : Scene (Reducer τ) σ} (hbusy : scene.subject.busy = false) (step : Step τ)
    (h : scene.subject.AllTrees P) : (e.afterStep scene step).subject.AllTrees P := by
  have he := e.running_unobtrusive
  cases step with
  | push token =>
    obtain ⟨stack, hsubject, hpushed⟩ := Engine.push_subject he hbusy token
    have hafter : (e.afterStep scene (.push token)).subject = _ := hsubject
    have hshift : ∀ t ∈ scene.subject.stack ++ [.leaf token], P t := by
      intro t ht
      rcases List.mem_append.1 ht with ht | ht
      · exact h.stack t ht
      · rw [List.mem_singleton.1 ht]
        exact hleaf token
    rw [hafter]
    refine ⟨?_, h.residue⟩
    cases hpushed with
    | shift => exact hshift
    | reduce r allowed =>
      rw [← allowed.below_append_run] at hshift
      intro t ht
      rcases List.mem_append.1 ht with ht | ht
      · exact hshift t (List.mem_append_left _ ht)
      · rw [List.mem_singleton.1 ht]
        exact hnode r _ allowed fun u hu => hshift u (List.mem_append_right _ hu)
  | reset =>
    have hafter : (e.afterStep scene .reset).subject = _ := Engine.reset_subject he hbusy
    rw [hafter]
    exact ⟨fun _ ht => (nomatch ht), fun _ ht => (nomatch ht)⟩
  | finish =>
    have hafter : (e.afterStep scene .finish).subject = _ := Engine.finish_subject he hbusy
    rw [hafter]
    refine ⟨fun _ ht => (nomatch ht), fun t ht => h.stack t ?_⟩
    rw [← Reducer.split_append scene.subject.policy scene.subject.stack]
    exact List.mem_append_left _ ht

/-- A finish or a parse returns the tree. -/
def Returns (e : CallbackEngine σ τ) (scene : Scene (Reducer τ) σ) (t : Tree τ) : Prop :=
  ((e.perform .finish).run scene).1 = .ok (some t) ∨
    ∃ tokens, ((e.perform (.parse tokens)).run scene).1 = .ok (some t)

/-- What holds of leaves and of the nodes that reductions make holds of every tree that a reducer
ever holds or returns. -/
theorem trees_after_uses {e : CallbackEngine σ τ} {P : Tree τ → Prop}
    (hleaf : ∀ token, P (.leaf token))
    (hnode : ∀ (r : Reduction τ) stack, r.Allowed e.running.grammar.rules stack →
      (∀ t ∈ r.run, P t) → P r.node)
    (policy : Policy) (world : σ) (uses : List (Use σ τ)) {t : Tree τ}
    (ht : let scene := (e.runUses uses { subject := { policy }, world }).2
      t ∈ scene.subject.stack ∨ t ∈ scene.subject.residue ∨ e.Returns scene t) : P t := by
  have hresult {scene after : Scene (Reducer τ) σ} (hbusy : scene.subject.busy = false)
      (h : scene.subject.AllTrees P)
      (hr : (e.perform .finish).run scene = (.ok (some t), after)) : P t := by
    refine h.stack t ?_
    rw [← (Engine.finish_deals e.running_unobtrusive hbusy hr).1]
    exact List.mem_append_right _ List.mem_cons_self
  obtain ⟨h, hbusy⟩ := runUses_induction (e := e) (P := fun _ scene => scene.subject.AllTrees P)
    (fun _ _ step hbusy => afterStep_trees hleaf hnode hbusy step) []
    { subject := { policy }, world } rfl
    ⟨fun _ ht => (nomatch ht), fun _ ht => (nomatch ht)⟩
    (fun _ _ _ h => ⟨h.stack, h.residue⟩) (fun _ _ _ h => ⟨h.stack, h.residue⟩) uses
  rcases ht with ht | ht | hr | ⟨tokens, hr⟩
  · exact h.stack t ht
  · exact h.residue t ht
  · exact hresult hbusy h (Prod.ext hr rfl)
  · obtain ⟨h, hidle⟩ := afterSteps_induction (e := e)
      (P := fun _ scene => scene.subject.AllTrees P)
      (fun _ _ step hbusy => afterStep_trees hleaf hnode hbusy step) [] _ hbusy h
      (.reset :: tokens.map .push)
    exact hresult hidle h (finish_of_parse (Prod.ext hr rfl))

end CallbackEngine

/-! ## Pure predicates -/

/-- A reducer with predicates that only look at the token, and any hooks. -/
def CallbackEngine.ofPure (g : Grammar (Except Error) τ) (hooks : Hooks (ReducerCallback σ τ) τ) :
    CallbackEngine σ τ :=
  { grammar := g.map Callback.ofExcept, hooks }

theorem CallbackEngine.ofPure_running_grammar (g : Grammar (Except Error) τ)
    (hooks : Hooks (ReducerCallback σ τ) τ) :
    (ofPure g hooks).running.grammar = g.map Action.ofExcept := by
  change (g.map Callback.ofExcept).map _ = _
  rw [Grammar.map_map]
  simp only [Callback.run_ofExcept]

theorem Rule.isMatch_ofExcept {s : Type} (rule : Rule (Except Error) τ) (run : List (Tree τ)) :
    (rule.map Action.ofExcept).isMatch run = (Action.ofExcept (rule.isMatch run) : Action s Bool) :=
  Rule.isMatch_map (fun _ => rfl) (fun x _ => by cases x <;> rfl) rule run

/-- With pure predicates a search only ends as it ends in any other state. -/
theorem Grammar.findReduction_ofExcept {s : Type} (g : Grammar (Except Error) τ)
    (stack : List (Tree τ)) :
    (g.map Action.ofExcept).findReduction stack =
      (Action.ofExcept (g.findReduction stack) : Action s (Option (Reduction τ))) :=
  findReduction_map (fun _ => rfl) (fun x _ => by cases x <;> rfl) g stack

/-- The rule of a reduction fits its run, if the predicates are pure. -/
theorem Reduction.Allowed.exists_fitting {s : Type} {g : Grammar (Except Error) τ}
    {r : Reduction τ} {stack : List (Tree τ)}
    (h : r.Allowed (g.map (Action.ofExcept (s := s))).rules stack) :
    ∃ rule ∈ g.rules, r.node = .node rule.symbol r.run ∧
      List.Forall₂ Schema.Fits rule.schemas r.run := by
  obtain ⟨mapped, hmem, herased, before, after, hmatch⟩ := h.exists_rule
  rw [Grammar.rules_map] at hmem
  obtain ⟨rule, hrule, rfl⟩ := List.mem_map.1 hmem
  rw [Rule.isMatch_ofExcept, Action.run_ofExcept] at hmatch
  have hnode : r.node = .node rule.symbol r.run := by
    rw [Reduction.node, ← herased]
    rfl
  exact ⟨rule, hrule, hnode, (rule.isMatch_iff r.run).1 (congrArg Prod.fst hmatch)⟩

/-- After any uses of a reducer with pure predicates, whatever its hooks do, every node anywhere in
a tree on the stack, in the residue or returned is an instance of a rule, with at least one child
and no more than the longest rule has; and its leaves are a word of the language of its symbol. -/
theorem nodes_after_uses (g : Grammar (Except Error) τ) (hooks : Hooks (ReducerCallback σ τ) τ)
    (policy : Policy) (world : σ) (uses : List (Use σ τ)) (t : Tree τ)
    (ht : let e := CallbackEngine.ofPure g hooks
      let scene := (e.runUses uses { subject := { policy }, world }).2
      t ∈ scene.subject.stack ∨ t ∈ scene.subject.residue ∨ e.Returns scene t)
    (symbol : Symbol) (children : List (Tree τ)) (hnode : (Tree.node symbol children).Within t) :
    (∃ rule ∈ g.rules, rule.symbol = symbol ∧ List.Forall₂ Schema.Fits rule.schemas children) ∧
      (1 ≤ children.length ∧ children.length ≤ g.maxRuleLength) ∧
      g.InLanguage symbol (Tree.node symbol children).leaves := by
  have hderivation : t.Derivation g := by
    refine CallbackEngine.trees_after_uses .leaf (fun r stack allowed hrun => ?_) policy world uses
      ht
    rw [CallbackEngine.ofPure_running_grammar] at allowed
    obtain ⟨rule, hrule, hreduced, hfits⟩ := allowed.exists_fitting
    rw [hreduced]
    exact .node hrule hfits allowed.run_ne_nil hrun
  have hpart := hderivation.within hnode
  exact ⟨hpart.exists_rule.1, hpart.exists_rule.2, hpart.inLanguage⟩

/-- Nested brackets, `true` for an opening one: a pair around nothing or around a pair. -/
def bracketGrammar (pair : Symbol) : Grammar (Except Error) Bool where
  generator := { scope := pair.scope }
  defaultRule := { symbol := pair, schemas := [.terminal .ok, .terminal fun b => .ok !b] }
  others := [{
    symbol := pair
    schemas := [.terminal .ok, .nonterminal pair, .terminal fun b => .ok !b] }]

/-- The inner pair of the tree that parsing two nested pairs returns. -/
theorem nodes_after_uses_brackets :
    let pair : Symbol := ⟨0, 0⟩
    let e := CallbackEngine.ofPure (σ := Unit) (bracketGrammar pair) .none
    let scene := (e.runUses [] { subject := {}, world := () }).2
    let inner := Tree.node pair [.leaf true, .leaf false]
    let outer := Tree.node pair [.leaf true, inner, .leaf false]
    (e.Returns scene outer ∧ inner.Within outer) ∧
      (∃ rule ∈ (bracketGrammar pair).rules, rule.symbol = pair ∧
        List.Forall₂ Schema.Fits rule.schemas [.leaf true, .leaf false]) ∧
      (1 ≤ 2 ∧ 2 ≤ (bracketGrammar pair).maxRuleLength) ∧
      (bracketGrammar pair).InLanguage pair inner.leaves := by
  intro pair e scene inner outer
  have hresult : ((e.perform (.parse [true, true, false, false])).run scene).1 =
      .ok (some outer) := by cbv
  have hreturns : e.Returns scene outer := .inr ⟨_, hresult⟩
  have hwithin : inner.Within outer :=
    .child (List.mem_cons_of_mem _ List.mem_cons_self) (.refl inner)
  exact ⟨⟨hreturns, hwithin⟩, nodes_after_uses (bracketGrammar pair) .none .permissive ()
    [] outer (.inr (.inr hreturns)) pair _ hwithin⟩

end ShiftReduce
