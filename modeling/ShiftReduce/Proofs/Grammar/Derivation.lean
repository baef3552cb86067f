import ShiftReduce.Grammar.Basic
import ShiftReduce.Proofs.Tree.Leaves
import Mathlib.Computability.ContextFreeGrammar

/-!
# Derivation trees

A grammar of pure predicates, which only look at the token and may fail on some, describes trees:
in a derivation every node has the symbol of a rule, and its children fit the schemas of that rule
one to one (`Tree.Derivation`). It also describes a context-free language whose terminals are the
sets of tokens that the predicates accept (`Grammar.contextFree`). The leaves of a derivation are a
word of the language of its symbol (`Tree.Derivation.inLanguage`).
-/

/-- A terminal or a nonterminal. -/
abbrev ContextFreeRule.Part (T N : Type) : Type := Symbol T N

namespace ShiftReduce

variable {τ : Type}

/-! ## Fitting a rule -/

/-- A leaf whose token the predicate accepts fits a terminal; a node fits its own symbol. -/
inductive Schema.Fits : Schema (Except Error) τ → Tree τ → Prop
  | terminal {accepts : τ → Except Error Bool} {token : τ} (h : accepts token = .ok true) :
    Fits (.terminal accepts) (.leaf token)
  | nonterminal (symbol : Symbol) (children : List (Tree τ)) :
    Fits (.nonterminal symbol) (.node symbol children)

theorem Schema.fits_iff (schema : Schema (Except Error) τ) (t : Tree τ) :
    schema.accepts t = .ok true ↔ schema.Fits t := by
  constructor
  · intro h
    cases schema with
    | terminal accepts =>
      cases t with
      | leaf token => exact .terminal h
      | node => cases h
    | nonterminal symbol =>
      cases t with
      | leaf => cases h
      | node other children =>
        have hsame : (other == symbol) = true := Except.ok.inj h
        rw [← eq_of_beq hsame]
        exact .nonterminal other children
  · rintro (⟨h⟩ | ⟨symbol, children⟩)
    · exact h
    · exact congrArg Except.ok (beq_self_eq_true symbol)

theorem Rule.acceptsAll_cons_iff (schema : Schema (Except Error) τ)
    (schemas : List (Schema (Except Error) τ)) (t : Tree τ) (ts : List (Tree τ)) :
    acceptsAll (schema :: schemas) (t :: ts) = .ok true ↔
      schema.Fits t ∧ acceptsAll schemas ts = .ok true := by
  rw [← schema.fits_iff t, acceptsAll]
  cases schema.accepts t with
  | error e => exact ⟨fun h => (nomatch h), fun h => (nomatch h.1)⟩
  | ok answer =>
    cases answer with
    | true => exact ⟨fun h => ⟨rfl, h⟩, fun h => h.2⟩
    | false => exact ⟨fun h => (nomatch h), fun h => (nomatch h.1)⟩

/-- A run matches a rule if the trees fit the schemas one to one, from left to right. -/
theorem Rule.isMatch_iff (rule : Rule (Except Error) τ) (ts : List (Tree τ)) :
    rule.isMatch ts = .ok true ↔ List.Forall₂ Schema.Fits rule.schemas ts := by
  have hall (schemas : List (Schema (Except Error) τ)) (ts : List (Tree τ))
      (h : ts.length = schemas.length) :
      acceptsAll schemas ts = .ok true ↔ List.Forall₂ Schema.Fits schemas ts := by
    induction schemas generalizing ts with
    | nil =>
      rw [List.eq_nil_of_length_eq_zero h]
      exact ⟨fun _ => .nil, fun _ => rfl⟩
    | cons schema schemas ih =>
      cases ts with
      | nil => cases h
      | cons t ts =>
        rw [acceptsAll_cons_iff, List.forall₂_cons, ih ts (Nat.succ.inj h)]
  unfold isMatch
  split
  · next h => exact hall rule.schemas ts h
  · next h => exact ⟨fun h' => (nomatch h'), fun h' => absurd h'.length_eq.symm h⟩

/-! ## Derivations -/

namespace Tree

/-- The tree itself, or a tree anywhere below its root. -/
inductive Within : Tree τ → Tree τ → Prop
  | refl (t : Tree τ) : Within t t
  | child {t child : Tree τ} {symbol : Symbol} {children : List (Tree τ)}
    (hchild : child ∈ children) (h : Within t child) : Within t (.node symbol children)

/-- Every node comes from a rule that its children fit, and has children. -/
inductive Derivation (g : Grammar (Except Error) τ) : Tree τ → Prop
  | leaf (token : τ) : Derivation g (.leaf token)
  | node {rule : Rule (Except Error) τ} {children : List (Tree τ)} (hrule : rule ∈ g.rules)
    (hfits : List.Forall₂ Schema.Fits rule.schemas children) (hne : children ≠ [])
    (hchildren : ∀ child ∈ children, Derivation g child) :
    Derivation g (.node rule.symbol children)

theorem Derivation.within {g : Grammar (Except Error) τ} {t part : Tree τ} (h : Derivation g t)
    (hpart : Within part t) : Derivation g part := by
  induction hpart with
  | refl => exact h
  | child hchild _ ih =>
    cases h with
    | node _ _ _ hchildren => exact ih (hchildren _ hchild)

end Tree

/-- No rule of a grammar is longer than the longest. -/
theorem Grammar.size_le_maxRuleLength {m : Type → Type} (g : Grammar m τ) {rule : Rule m τ}
    (h : rule ∈ g.rules) : rule.size ≤ g.maxRuleLength := by
  have hfold (rules : List (Rule m τ)) (n : Nat) :
      n ≤ rules.foldl (fun n r => max n r.size) n ∧
        ∀ r ∈ rules, r.size ≤ rules.foldl (fun n r => max n r.size) n := by
    induction rules generalizing n with
    | nil => exact ⟨Nat.le_refl n, fun _ h => nomatch h⟩
    | cons first rules ih =>
      obtain ⟨hle, hall⟩ := ih (max n first.size)
      refine ⟨by rw [List.foldl_cons]; omega, fun r hr => ?_⟩
      rw [List.foldl_cons]
      rcases List.mem_cons.1 hr with rfl | hr
      · omega
      · exact hall r hr
  exact (hfold g.rules 0).2 rule h

/-- A node of a derivation is an instance of a rule, and no wider than the longest. -/
theorem Tree.Derivation.exists_rule {g : Grammar (Except Error) τ} {symbol : Symbol}
    {children : List (Tree τ)} (h : Derivation g (.node symbol children)) :
    (∃ rule ∈ g.rules, rule.symbol = symbol ∧ List.Forall₂ Schema.Fits rule.schemas children) ∧
      1 ≤ children.length ∧ children.length ≤ g.maxRuleLength := by
  cases h with
  | node hrule hfits hne =>
    refine ⟨⟨_, hrule, rfl, hfits⟩, List.length_pos_iff.2 hne, ?_⟩
    rw [← hfits.length_eq]
    exact g.size_le_maxRuleLength hrule

/-! ## The language of a grammar -/

/-- A predicate as the set of tokens that it accepts, and a symbol as itself. -/
def Schema.contextFree : Schema (Except Error) τ → ContextFreeRule.Part (Set τ) Symbol
  | terminal accepts => .terminal {token | accepts token = .ok true}
  | nonterminal symbol => .nonterminal symbol

def Rule.contextFree (rule : Rule (Except Error) τ) : ContextFreeRule (Set τ) Symbol where
  input := rule.symbol
  output := rule.schemas.map Schema.contextFree

open Classical in
/-- The context-free grammar of the rules, for the language of a symbol. -/
noncomputable def Grammar.contextFree (g : Grammar (Except Error) τ) (start : Symbol) :
    ContextFreeGrammar (Set τ) where
  NT := Symbol
  initial := start
  rules := (g.rules.map Rule.contextFree).toFinset

/-- The tokens are a word of the language of a symbol: each is in the set that stands in its
place. -/
def Grammar.InLanguage (g : Grammar (Except Error) τ) (symbol : Symbol) (tokens : List τ) : Prop :=
  ∃ word ∈ (g.contextFree symbol).language, List.Forall₂ (· ∈ ·) tokens word

section Language

variable {g : Grammar (Except Error) τ} {start : Symbol}

open Classical in
theorem Rule.produces {rule : Rule (Except Error) τ} (h : rule ∈ g.rules) :
    (g.contextFree start).Produces [.nonterminal rule.symbol] rule.contextFree.output := by
  refine ⟨rule.contextFree, ?_, ContextFreeRule.Rewrites.input_output⟩
  change rule.contextFree ∈ (g.rules.map Rule.contextFree).toFinset
  exact List.mem_toFinset.2 (List.mem_map_of_mem h)

/-- What schemas derive one by one they derive in a row. -/
theorem exists_word_of_forall₂ (start : Symbol) {schemas : List (Schema (Except Error) τ)}
    {ts : List (Tree τ)} (hfits : List.Forall₂ Schema.Fits schemas ts)
    (hword : ∀ t ∈ ts, ∀ schema : Schema (Except Error) τ, schema.Fits t →
      ∃ word : List (Set τ), (g.contextFree start).Derives [schema.contextFree]
        (word.map .terminal) ∧ List.Forall₂ (· ∈ ·) t.leaves word) :
    ∃ word : List (Set τ), (g.contextFree start).Derives (schemas.map Schema.contextFree)
      (word.map .terminal) ∧ List.Forall₂ (· ∈ ·) (ts.flatMap Tree.leaves) word := by
  induction hfits with
  | nil => exact ⟨[], .refl _, .nil⟩
  | @cons schema t schemas ts hfit hfits ih =>
    obtain ⟨first, hfirst, hmem⟩ := hword t List.mem_cons_self schema hfit
    obtain ⟨rest, hrest, hmems⟩ := ih fun u hu => hword u (List.mem_cons_of_mem t hu)
    refine ⟨first ++ rest, ?_, ?_⟩
    · rw [List.map_append]
      exact (hfirst.append_right (schemas.map Schema.contextFree)).trans
        (hrest.append_left (first.map .terminal))
    · rw [List.flatMap_cons]
      exact List.rel_append hmem hmems

theorem Tree.Derivation.exists_word {t : Tree τ} (h : Derivation g t)
    {schema : Schema (Except Error) τ} (hfits : schema.Fits t) :
    ∃ word : List (Set τ), (g.contextFree start).Derives [schema.contextFree]
      (word.map .terminal) ∧ List.Forall₂ (· ∈ ·) t.leaves word := by
  induction h generalizing schema with
  | leaf token =>
    cases hfits with
    | @terminal accepts _ h =>
      refine ⟨[{token | accepts token = .ok true}], .refl _, ?_⟩
      rw [leaves_leaf]
      exact .cons h .nil
  | node hrule hfit _ _ ih =>
    cases hfits with
    | nonterminal =>
      obtain ⟨word, hderives, hmem⟩ := exists_word_of_forall₂ start hfit
        fun child hchild schema => ih child hchild
      rw [leaves_node]
      exact ⟨word, (Rule.produces hrule).trans_derives hderives, hmem⟩

/-- The leaves of a derivation are a word of the language of its symbol. -/
theorem Tree.Derivation.inLanguage {symbol : Symbol} {children : List (Tree τ)}
    (h : Derivation g (.node symbol children)) :
    g.InLanguage symbol (Tree.node symbol children).leaves :=
  h.exists_word (.nonterminal symbol children)

end Language

end ShiftReduce
