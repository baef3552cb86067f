import ShiftReduce.Proofs.Action
import ShiftReduce.Reducer.Reduction

/-!
# What a reduction is

`Reduction.Allowed` says what is known of a reduction that the search has found, whatever the
predicates did on the way: its run is the top of the stack, it is not empty, and its rule is one of
the grammar that matched it. A search is made of the predicates' answers and of values, so what
holds of those and passes to one computation after another holds of the search
(`Grammar.Every.findReduction`); for example predicates that spare a subject make a search that
spares it. A search commutes with carrying the predicates' answers to another monad
(`findReduction_map`).
-/

namespace ShiftReduce

section Map

variable {m n o : Type → Type} {τ : Type} (f : m Bool → n Bool)

@[simp] theorem Rule.size_map (rule : Rule m τ) : (rule.map f).size = rule.size :=
  List.length_map ..

@[simp] theorem Grammar.rules_map (g : Grammar m τ) : (g.map f).rules = g.rules.map (Rule.map f) :=
  rfl

@[simp] theorem Grammar.maxRuleLength_map (g : Grammar m τ) :
    (g.map f).maxRuleLength = g.maxRuleLength := by
  simp only [Grammar.maxRuleLength, Grammar.rules_map, List.foldl_map, Rule.size_map]

@[simp] theorem Rule.erased_map (rule : Rule m τ) : (rule.map f).erased = rule.erased := by
  have hschema (schema : Schema m τ) :
      (schema.map f).map (fun _ => ()) = (schema.map fun _ => () : Schema (fun _ => Unit) τ) := by
    cases schema <;> rfl
  simp only [erased, Rule.map, List.map_map, Function.comp_def, hschema]

theorem Grammar.map_map (h : n Bool → o Bool) (g : Grammar m τ) :
    (g.map f).map h = g.map fun answer => h (f answer) := by
  have hschema (schema : Schema m τ) :
      (schema.map f).map h = schema.map fun answer => h (f answer) := by
    cases schema <;> rfl
  have hrule (rule : Rule m τ) : (rule.map f).map h = rule.map fun answer => h (f answer) := by
    simp only [Rule.map, List.map_map, Function.comp_def, hschema]
  simp only [Grammar.map, List.map_map, Function.comp_def, hrule]

/-- A map that leaves values alone changes nothing about predicates that only look at the token. -/
theorem Grammar.map_lift [Pure m] [Pure n] (h : ∀ answer, f (pure answer) = pure answer)
    (g : Grammar Id τ) : (g.lift : Grammar m τ).map f = g.lift := by
  unfold lift
  simp only [map_map, h]

end Map

/-! ## The reduction found -/

section Allowed

variable {s τ : Type} {rules : List (Rule (Action s) τ)} {state after : s}

/-- The run is the top of the stack, at least one tree, and the rule is one of those given and
matched it. -/
structure Reduction.Allowed (rules : List (Rule (Action s) τ)) (stack : List (Tree τ))
    (r : Reduction τ) : Prop where
  below_append_run : r.below ++ r.run = stack
  run_ne_nil : r.run ≠ []
  exists_rule : ∃ rule ∈ rules, rule.erased = r.rule ∧
    ∃ before after, (rule.isMatch r.run).run before = (.ok true, after)

theorem firstMatch_mem {run : List (Tree τ)} {rule : Rule (Action s) τ}
    (h : (firstMatch run rules).run state = (.ok (some rule), after)) :
    rule ∈ rules ∧ ∃ before after, (rule.isMatch run).run before = (.ok true, after) := by
  induction rules generalizing state with
  | nil => cases h
  | cons r others ih =>
    obtain ⟨answer, between, hr, h⟩ := Action.exists_of_run_bind h
    cases answer with
    | true =>
      cases h
      exact ⟨List.mem_cons_self, state, after, hr⟩
    | false =>
      obtain ⟨hmem, hmatch⟩ := ih h
      exact ⟨List.mem_cons_of_mem r hmem, hmatch⟩

theorem firstReduction_allowed {below run : List (Tree τ)} {r : Reduction τ}
    (h : (firstReduction rules below run).run state = (.ok (some r), after)) :
    r.Allowed rules (below ++ run) := by
  induction run generalizing below state with
  | nil => cases h
  | cons t run ih =>
    obtain ⟨found, between, hfound, h⟩ := Action.exists_of_run_bind h
    cases found with
    | none => simpa using ih h
    | some rule =>
      cases h
      obtain ⟨hmem, hmatch⟩ := firstMatch_mem hfound
      exact ⟨rfl, List.cons_ne_nil t run, rule, hmem, rfl, hmatch⟩

theorem Grammar.findReduction_allowed {g : Grammar (Action s) τ} {stack : List (Tree τ)}
    {r : Reduction τ} (h : (g.findReduction stack).run state = (.ok (some r), after)) :
    r.Allowed g.rules stack := by
  have := firstReduction_allowed h
  rwa [List.take_append_drop] at this

end Allowed

/-! ## Properties of searches -/

/-- What holds of the answers of all predicates. -/
def Grammar.Every {m : Type → Type} [Monad m] {τ : Type} (P : m Bool → Prop) (g : Grammar m τ) :
    Prop :=
  ∀ rule ∈ g.rules, ∀ schema ∈ rule.schemas, ∀ t, P (schema.accepts t)

theorem Grammar.every_lift {m : Type → Type} [Monad m] {τ : Type} {P : m Bool → Prop}
    (hpure : ∀ answer, P (pure answer)) (g : Grammar Id τ) : (g.lift : Grammar m τ).Every P := by
  intro rule hrule schema hschema t
  rw [lift, rules_map] at hrule
  obtain ⟨rule, -, rfl⟩ := List.mem_map.1 hrule
  obtain ⟨schema, -, rfl⟩ := List.mem_map.1 hschema
  cases schema <;> cases t <;> exact hpure _

section Closure

variable {m : Type → Type} [Monad m] {τ : Type} {P : {α : Type} → m α → Prop}
  (hpure : ∀ {α : Type} (a : α), P (pure a))
  (hbind : ∀ {α β : Type} {x : m α} {f : α → m β}, P x → (∀ a, P (f a)) → P (x >>= f))

include hpure hbind

theorem Rule.acceptsAll_of_every {schemas : List (Schema m τ)}
    (h : ∀ schema ∈ schemas, ∀ t, P (schema.accepts t)) (run : List (Tree τ)) :
    P (Rule.acceptsAll schemas run) := by
  induction schemas generalizing run with
  | nil => exact hpure true
  | cons schema schemas ih =>
    obtain ⟨hschema, hschemas⟩ := List.forall_mem_cons.1 h
    cases run with
    | nil => exact hpure true
    | cons t run =>
      apply hbind (hschema t)
      intro answer
      cases answer with
      | true => exact ih hschemas run
      | false => exact hpure false

theorem Rule.isMatch_of_every {rule : Rule m τ}
    (h : ∀ schema ∈ rule.schemas, ∀ t, P (schema.accepts t)) (run : List (Tree τ)) :
    P (rule.isMatch run) := by
  unfold isMatch
  split
  · exact acceptsAll_of_every hpure hbind h run
  · exact hpure false

theorem firstMatch_of_every {rules : List (Rule m τ)}
    (h : ∀ rule ∈ rules, ∀ schema ∈ rule.schemas, ∀ t, P (schema.accepts t))
    (run : List (Tree τ)) : P (firstMatch run rules) := by
  induction rules with
  | nil => exact hpure none
  | cons rule others ih =>
    obtain ⟨hrule, hothers⟩ := List.forall_mem_cons.1 h
    apply hbind (Rule.isMatch_of_every hpure hbind hrule run)
    intro answer
    cases answer with
    | true => exact hpure (some rule)
    | false => exact ih hothers

theorem firstReduction_of_every {rules : List (Rule m τ)}
    (h : ∀ rule ∈ rules, ∀ schema ∈ rule.schemas, ∀ t, P (schema.accepts t))
    (below run : List (Tree τ)) : P (firstReduction rules below run) := by
  induction run generalizing below with
  | nil => exact hpure none
  | cons t run ih =>
    apply hbind (firstMatch_of_every hpure hbind h (t :: run))
    intro found
    cases found with
    | none => exact ih (below ++ [t])
    | some rule => exact hpure _

/-- A search has every property of the predicates' answers that values have and that passes to one
computation after another. -/
theorem Grammar.Every.findReduction {g : Grammar m τ} (h : g.Every P) (stack : List (Tree τ)) :
    P (g.findReduction stack) :=
  firstReduction_of_every hpure hbind h _ _

end Closure

section Spares

variable {ρ ω τ : Type} {p : ρ → Prop}

/-- The predicates of a grammar spare the subject. -/
def Grammar.Spares (p : ρ → Prop) (g : Grammar (Action (Scene ρ ω)) τ) : Prop :=
  ∀ rule ∈ g.rules, ∀ schema ∈ rule.schemas, ∀ t, Action.Spares p (schema.accepts t)

/-- A search with predicates that spare the subject spares it. -/
theorem Grammar.Spares.findReduction {g : Grammar (Action (Scene ρ ω)) τ} (h : g.Spares p)
    (stack : List (Tree τ)) : Action.Spares p (g.findReduction stack) :=
  Every.findReduction (P := Action.Spares p) .pure .bind h stack

end Spares

/-! ## Carrying answers to another monad -/

section Naturality

variable {m n : Type → Type} [Monad m] [Monad n] {τ : Type}
  {φ : {α : Type} → m α → n α} (hpure : ∀ {α : Type} (a : α), φ (pure a) = pure a)
  (hbind : ∀ {α β : Type} (x : m α) (f : α → m β), φ (x >>= f) = φ x >>= fun a => φ (f a))

include hpure in
theorem Schema.accepts_map (schema : Schema m τ) (t : Tree τ) :
    (schema.map φ).accepts t = φ (schema.accepts t) := by
  cases schema <;> cases t <;> simp only [Schema.map, Schema.accepts, hpure]

include hpure hbind in
theorem Rule.acceptsAll_map (schemas : List (Schema m τ)) (run : List (Tree τ)) :
    Rule.acceptsAll (schemas.map (Schema.map φ)) run = φ (Rule.acceptsAll schemas run) := by
  induction schemas generalizing run with
  | nil => exact (hpure true).symm
  | cons schema schemas ih =>
    cases run with
    | nil => exact (hpure true).symm
    | cons t run =>
      simp only [List.map_cons, Rule.acceptsAll, hbind, Schema.accepts_map hpure]
      congr 1
      funext answer
      cases answer with
      | true => exact ih run
      | false => exact (hpure false).symm

include hpure hbind in
theorem Rule.isMatch_map (rule : Rule m τ) (run : List (Tree τ)) :
    (rule.map φ).isMatch run = φ (rule.isMatch run) := by
  simp only [Rule.isMatch, Rule.size_map]
  split
  · exact acceptsAll_map hpure hbind rule.schemas run
  · exact (hpure false).symm

variable [LawfulMonad n]

include hpure hbind in
theorem firstMatch_map (run : List (Tree τ)) (rules : List (Rule m τ)) :
    firstMatch run (rules.map (Rule.map φ)) =
      Option.map (Rule.map φ) <$> φ (firstMatch run rules) := by
  induction rules with
  | nil => simp only [List.map_nil, firstMatch, hpure, map_pure, Option.map_none]
  | cons rule others ih =>
    simp only [List.map_cons, firstMatch, hbind, map_bind, Rule.isMatch_map hpure hbind]
    congr 1
    funext answer
    cases answer with
    | true => simp only [if_true, hpure, map_pure, Option.map_some]
    | false => exact ih

include hpure hbind in
theorem firstReduction_map (rules : List (Rule m τ)) (below run : List (Tree τ)) :
    firstReduction (rules.map (Rule.map φ)) below run = φ (firstReduction rules below run) := by
  induction run generalizing below with
  | nil => exact (hpure none).symm
  | cons t run ih =>
    simp only [firstReduction, hbind, firstMatch_map hpure hbind, bind_map_left]
    congr 1
    funext found
    cases found with
    | none => exact ih (below ++ [t])
    | some rule =>
      simp only [Option.map_some, Rule.erased_map]
      exact (hpure _).symm

include hpure hbind in
/-- Searching with answers carried to another monad is searching and then carrying the result. -/
theorem Grammar.findReduction_map (g : Grammar m τ) (stack : List (Tree τ)) :
    (g.map φ).findReduction stack = φ (g.findReduction stack) := by
  simp only [Grammar.findReduction, Grammar.maxRuleLength_map, Grammar.rules_map]
  exact firstReduction_map hpure hbind g.rules _ _

end Naturality

end ShiftReduce
