import ShiftReduce.Proofs.Reducer.Exhaustive
import ShiftReduce.Proofs.Reducer.Silent

/-!
# Priority among reductions

Of all the runs at the top of a stack and all the rules that match them, `Foremost` names the one
that has priority: the longest run that any rule matches, and the first of the rules that match it.
The search picks it, and nothing if there is none (`firstReduction_picks`), so that is what a push
applies (`Engine.push_applies_foremost`).

Only runs with at least one tree are tried. A rule with nothing on its right-hand side matches none
of them, and a search does not notice whether it is there (`Grammar.findReduction_congr`).
-/

namespace ShiftReduce

variable {τ ω : Type}

/-! ## Matching -/

/-- The trees of the run fit the schemas of the rule one to one, from left to right. -/
def Rule.Matches (rule : Rule Id τ) (run : List (Tree τ)) : Prop :=
  List.Forall₂ Schema.Accepts rule.schemas run

theorem Rule.isMatch_run_iff (rule : Rule Id τ) (run : List (Tree τ)) :
    (rule.isMatch run).run = true ↔ rule.Matches run := by
  have hlift : (rule.map fun answer => pure (Id.run answer)).isMatch run =
      Except.ok (ε := Error) (rule.isMatch run).run :=
    Rule.isMatch_map (φ := fun answer => pure (Id.run answer)) (fun _ => rfl) (fun _ _ => rfl)
      rule run
  have hfits := Rule.isMatch_iff (rule.map fun answer => pure (Id.run answer)) run
  rw [hlift, Except.ok.injEq, Rule.map, List.forall₂_map_left_iff] at hfits
  simp only [Schema.fits_lift_iff] at hfits
  exact hfits

theorem Rule.Matches.size_eq {rule : Rule Id τ} {run : List (Tree τ)} (h : rule.Matches run) :
    rule.size = run.length :=
  h.length_eq

theorem firstMatch_run_eq_find? (run : List (Tree τ)) (rules : List (Rule Id τ)) :
    (firstMatch run rules).run = rules.find? fun rule => (rule.isMatch run).run := by
  induction rules with
  | nil => rfl
  | cons rule others ih =>
    rw [firstMatch, Id.run_bind, List.find?_cons]
    cases (rule.isMatch run).run with
    | true => rfl
    | false => exact ih

/-! ## The reduction with priority -/

/-- The run is the longest at the top of the stack that any rule matches, the empty run aside, and
the rule is the first that matches it. -/
structure Foremost (rules : List (Rule Id τ)) (stack run : List (Tree τ)) (rule : Rule Id τ) :
    Prop where
  top : run <:+ stack
  ne_nil : run ≠ []
  fits : rule.Matches run
  longest : ∀ longer, longer <:+ stack → run.length < longer.length →
    ∀ other ∈ rules, ¬ other.Matches longer
  first : ∃ before after, rules = before ++ rule :: after ∧
    ∀ earlier ∈ before, ¬ earlier.Matches run

/-- What a search from a run at the top of a stack on comes to: nothing if no rule matches anything,
and otherwise the reduction with priority. -/
inductive Picks (rules : List (Rule Id τ)) (below run : List (Tree τ)) :
    Option (Reduction τ) → Prop
  | nothing (h : ∀ suffix, suffix <:+ run → suffix ≠ [] → ∀ rule ∈ rules, ¬ rule.Matches suffix) :
    Picks rules below run none
  | reduction {rest suffix : List (Tree τ)} {rule : Rule Id τ} (hsplit : rest ++ suffix = run)
    (h : Foremost rules run suffix rule) :
    Picks rules below run (some { below := below ++ rest, rule := rule.erased, run := suffix })

theorem firstReduction_picks (rules : List (Rule Id τ)) (below run : List (Tree τ)) :
    Picks rules below run (firstReduction rules below run).run := by
  induction run generalizing below with
  | nil => exact .nothing fun suffix hsuffix hne => absurd (List.suffix_nil.1 hsuffix) hne
  | cons t run ih =>
    rw [firstReduction, Id.run_bind, firstMatch_run_eq_find?]
    cases hfind : rules.find? fun rule => (rule.isMatch (t :: run)).run with
    | some rule =>
      obtain ⟨hmatch, before, after, hrules, hbefore⟩ := List.find?_eq_some_iff_append.1 hfind
      have hforemost : Foremost rules (t :: run) (t :: run) rule := {
        top := List.suffix_refl _
        ne_nil := List.cons_ne_nil t run
        fits := (rule.isMatch_run_iff _).1 hmatch
        longest := fun longer hlonger hlt => absurd hlonger.length_le (Nat.not_le_of_lt hlt)
        first := ⟨before, after, hrules, fun earlier hmem hearlier => by
          simpa [(earlier.isMatch_run_iff _).2 hearlier] using hbefore earlier hmem⟩ }
      have hpicks : Picks rules below (t :: run) _ := .reduction (List.nil_append _) hforemost
      rwa [List.append_nil] at hpicks
    | none =>
      have hnone : ∀ rule ∈ rules, ¬ rule.Matches (t :: run) := by
        intro rule hmem hmatches
        exact List.find?_eq_none.1 hfind rule hmem ((rule.isMatch_run_iff _).2 hmatches)
      have hrest := ih (below ++ [t])
      change Picks rules below (t :: run) (firstReduction rules (below ++ [t]) run).run
      generalize (firstReduction rules (below ++ [t]) run).run = found at hrest ⊢
      cases hrest with
      | nothing h =>
        refine .nothing fun suffix hsuffix hne => ?_
        rcases List.suffix_cons_iff.1 hsuffix with rfl | hsuffix
        · exact hnone
        · exact h suffix hsuffix hne
      | @reduction rest suffix rule hsplit h =>
        rw [List.append_assoc, List.singleton_append]
        refine .reduction (by rw [List.cons_append, hsplit]) { h with
          top := List.suffix_cons_iff.2 (.inr h.top)
          longest := fun longer hlonger hlt => ?_ }
        rcases List.suffix_cons_iff.1 hlonger with rfl | hlonger
        · exact hnone
        · exact h.longest longer hlonger hlt

theorem Grammar.findReduction_picks (g : Grammar Id τ) (stack : List (Tree τ)) :
    Picks g.rules [] stack (g.findReduction stack).run := by
  rw [findReduction_eq_firstReduction]
  exact firstReduction_picks g.rules [] stack

/-! ## Rules with nothing on the right-hand side -/

section Empty

variable {m : Type → Type} [Monad m] [LawfulMonad m] {rules : List (Rule m τ)}

/-- The rules that have something on the right-hand side. -/
def nonemptyRules (rules : List (Rule m τ)) : List (Rule m τ) :=
  rules.filter fun rule => rule.size != 0

/-- An empty rule does not match a run of at least one tree, and asks no predicate about it. -/
theorem firstMatch_nonemptyRules (t : Tree τ) (run : List (Tree τ)) :
    firstMatch (t :: run) (nonemptyRules rules) = firstMatch (t :: run) rules := by
  unfold nonemptyRules
  induction rules with
  | nil => rfl
  | cons rule others ih =>
    by_cases hempty : rule.size = 0
    · have hlength : (t :: run).length ≠ rule.size := by simp [hempty]
      rw [List.filter_cons_of_neg (by simp [hempty]), ih, firstMatch, Rule.isMatch,
        if_neg hlength, pure_bind]
      rfl
    · rw [List.filter_cons_of_pos (by simpa using hempty), firstMatch, firstMatch, ih]

theorem firstReduction_nonemptyRules (below run : List (Tree τ)) :
    firstReduction (nonemptyRules rules) below run = firstReduction rules below run := by
  induction run generalizing below with
  | nil => rfl
  | cons t run ih => simp only [firstReduction, firstMatch_nonemptyRules, ih]

/-- Grammars that differ only in empty rules search alike, in every monad that predicates answer
in. -/
theorem Grammar.findReduction_congr {g other : Grammar m τ}
    (h : nonemptyRules other.rules = nonemptyRules g.rules) (stack : List (Tree τ)) :
    other.findReduction stack = g.findReduction stack := by
  rw [findReduction_eq_firstReduction, findReduction_eq_firstReduction,
    ← firstReduction_nonemptyRules, h, firstReduction_nonemptyRules]

end Empty

theorem nonemptyRules_map {m n : Type → Type} [Monad m] [Monad n] (f : m Bool → n Bool)
    (rules : List (Rule m τ)) :
    nonemptyRules (rules.map (Rule.map f)) = (nonemptyRules rules).map (Rule.map f) := by
  simp only [nonemptyRules, List.filter_map, Function.comp_def, Rule.size_map]

namespace Engine

/-- A push does not depend on empty rules, whatever the hooks do. -/
theorem push_congr {g other : Grammar Id τ} {e f : Engine (Action (Scene (Reducer τ) ω)) τ}
    (he : e.grammar = g.lift) (hf : f.grammar = other.lift) (hhooks : f.hooks = e.hooks)
    (h : nonemptyRules other.rules = nonemptyRules g.rules) (token : τ) :
    f.push token = e.push token := by
  have hlift : nonemptyRules f.grammar.rules = nonemptyRules e.grammar.rules := by
    simp only [he, hf, Grammar.lift, Grammar.rules_map, nonemptyRules_map, h]
  unfold push reduce
  simp only [hhooks, Grammar.findReduction_congr hlift]

/-- A push returns whether any rule matches a run at the top of the stack with the new leaf. If one
does, the longest such run becomes a node of the first rule that matches it, and everything beneath
stays; if none does, the leaf stays. Empty rules are never applied and never matter. -/
theorem push_applies_foremost {g : Grammar Id τ} {e : Engine (Action (Scene (Reducer τ) ω)) τ}
    {J : ω → Prop} (hgrammar : e.grammar = g.lift) (hcalm : e.hooks.Calm J) (he : e.Unobtrusive)
    {scene : Scene (Reducer τ) ω} (hscene : scene.Flagged false J) (token : τ) :
    let pushed := scene.subject.stack ++ [Tree.leaf token]
    ∃ reduced after, (e.push token).run scene = (.ok reduced, after) ∧
      (reduced = true ↔
        ∃ run, run <:+ pushed ∧ run ≠ [] ∧ ∃ rule ∈ g.rules, rule.Matches run) ∧
      (reduced = true → ∃ below run rule, Foremost g.rules pushed run rule ∧ rule.size ≠ 0 ∧
        below ++ run = pushed ∧
        after.subject = { scene.subject with stack := below ++ [.node rule.symbol run] } ∧
        after.subject.depth + rule.size = scene.subject.depth + 2) ∧
      (reduced = false → after.subject = { scene.subject with stack := pushed }) ∧
      ∀ (other : Grammar Id τ) (f : Engine (Action (Scene (Reducer τ) ω)) τ),
        f.grammar = other.lift → f.hooks = e.hooks →
        nonemptyRules other.rules = nonemptyRules g.rules → f.push token = e.push token := by
  intro pushed
  have hagree : Engine.Agree (fun (w : ω) (_ : Unit) => J w) (fun _ _ => False) e (silent g) :=
    agree_silent hgrammar hcalm he
  obtain ⟨reduced, after, _, hpush, hsilent, halike⟩ :=
    (hagree.push token scene ⟨scene.subject, ()⟩ ⟨rfl, hscene.1, hscene.2⟩).exists_value
  have hidle : (⟨scene.subject, ()⟩ : Scene (Reducer τ) Unit).subject.busy = false := hscene.1
  cases (run_push_silent_eq (g := g) hidle token).symm.trans hsilent
  have hafter : after.subject = _ := halike.subject_eq
  have hcongr : ∀ (other : Grammar Id τ) (f : Engine (Action (Scene (Reducer τ) ω)) τ),
      f.grammar = other.lift → f.hooks = e.hooks →
      nonemptyRules other.rules = nonemptyRules g.rules → f.push token = e.push token :=
    fun other f hf hhooks h => push_congr hgrammar hf hhooks h token
  have hpicks : Picks g.rules [] pushed (g.findReduction pushed).run := g.findReduction_picks pushed
  unfold Grammar.shift at hafter
  generalize (g.findReduction pushed).run = found at hpicks hpush hafter
  cases hpicks with
  | nothing h =>
    refine ⟨false, after, hpush, ⟨nofun, ?_⟩, nofun, fun _ => hafter, hcongr⟩
    rintro ⟨run, htop, hne, rule, hrule, hmatches⟩
    exact absurd hmatches (h run htop hne rule hrule)
  | @reduction rest run rule hsplit h =>
    have hmatched : ∃ run, run <:+ pushed ∧ run ≠ [] ∧ ∃ rule ∈ g.rules, rule.Matches run := by
      obtain ⟨before, behind, hrules, -⟩ := h.first
      exact ⟨run, h.top, h.ne_nil, rule, by simp [hrules], h.fits⟩
    have hsize : rule.size = run.length := h.fits.size_eq
    have hpos : 0 < run.length := List.length_pos_iff.2 h.ne_nil
    have hlength : rest.length + run.length = scene.subject.stack.length + 1 := by
      have := congrArg List.length hsplit
      rwa [List.length_append, List.length_append, List.length_singleton] at this
    simp only [List.nil_append] at hafter
    refine ⟨true, after, hpush, ⟨fun _ => hmatched, fun _ => rfl⟩,
      fun _ => ⟨rest, run, rule, h, by omega, hsplit, hafter, ?_⟩, nofun, hcongr⟩
    rw [hafter, Reducer.depth, Reducer.depth, List.length_append, List.length_singleton]
    omega

/-- Rules for `false` alone, for nothing at all, and twice for `true` and then `false`. -/
def tiedGrammar (single pair other : Symbol) : Grammar Id Bool where
  generator := { scope := single.scope }
  defaultRule := { symbol := single, schemas := [.terminal fun b => pure !b] }
  others := [
    { symbol := other },
    { symbol := pair, schemas := [.terminal pure, .terminal fun b => pure !b] },
    { symbol := other, schemas := [.terminal pure, .terminal fun b => pure !b] }]

/-- A token that a rule matches alone, and that ends a longer run which two other rules match. -/
theorem push_applies_foremost_tied :
    let g := tiedGrammar ⟨0, 0⟩ ⟨0, 1⟩ ⟨0, 2⟩
    let e : Engine (Action (Scene (Reducer Bool) Unit)) Bool := silent g
    let stack : List (Tree Bool) := [.leaf false, .leaf true]
    let scene : Scene (Reducer Bool) Unit := ⟨{ stack }, ()⟩
    (e.grammar = g.lift ∧ e.hooks.Calm (fun _ => True) ∧ e.Unobtrusive ∧
      scene.Flagged false fun _ => True) ∧
    ∃ after, (e.push false).run scene = (.ok true, after) ∧ ∃ below run rule,
      Foremost g.rules (stack ++ [.leaf false]) run rule ∧ rule.size ≠ 0 ∧
      below ++ run = stack ++ [.leaf false] ∧
      after.subject.stack = below ++ [.node rule.symbol run] ∧
      after.subject.depth + rule.size = 2 + 2 := by
  intro g e stack scene
  have hcalm : e.hooks.Calm fun _ => True := (calm_silent g _).hooks
  have he : e.Unobtrusive := silent_unobtrusive g
  have hscene : scene.Flagged false fun _ => True := ⟨rfl, trivial⟩
  obtain ⟨reduced, after, hpush, hreduced, happlied, -⟩ :=
    push_applies_foremost rfl hcalm he hscene false
  have hmatched : g.defaultRule.Matches [Tree.leaf false] := .cons rfl .nil
  obtain rfl : reduced = true := hreduced.2 ⟨[.leaf false], ⟨stack, rfl⟩, List.cons_ne_nil _ _,
    g.defaultRule, List.mem_cons_self, hmatched⟩
  obtain ⟨below, run, rule, hforemost, hsize, hsplit, hafter, hdepth⟩ := happlied rfl
  exact ⟨⟨rfl, hcalm, he, hscene⟩, after, hpush, below, run, rule, hforemost, hsize, hsplit,
    congrArg Reducer.stack hafter, hdepth⟩

end Engine

end ShiftReduce
