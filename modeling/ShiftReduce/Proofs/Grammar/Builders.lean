import ShiftReduce.Proofs.Symbol.Uniqueness

/-!
# What builders hand over

An `Account` says what a builder was given and what it has issued since its last successful build.
It is kept from the outside: of everything that is done in a workshop only the calls on that builder
count, and of these only what they show (`Workshop.history`, `Account.of`). After every run each
builder is what its account says (`Workshop.run_accounted`), whatever was done with the others in
between. So a grammar has the rules and the scope of the account, and the account begins anew with
it (`Workshop.builders_hand_over`).

A builder has its rules in two parts, the default rule and the others. That these are all the rules
that it was given, in order, is an invariant (`GrammarBuilder.Holds`).

That the scope is new rests on the supply alone. How many symbols a generator has issued does not
matter for it, so the invariant of the scopes is `Apart` with all numbers taken back to zero
(`Workshop.run_scopes`).
-/

namespace ShiftReduce

variable {m : Type → Type} {τ : Type}

/-! ## Rules in two parts -/

namespace GrammarBuilder

/-- The first of the rules is the default rule, and those after it are the others. -/
structure Holds (b : GrammarBuilder m τ) (rules : List (Rule m τ)) : Prop where
  defaultRule?_eq : b.defaultRule? = rules.head?
  others_eq : b.others = rules.tail

namespace Holds

variable {b : GrammarBuilder m τ} {rules : List (Rule m τ)}

theorem addRule (h : b.Holds rules) (rule : Rule m τ) :
    (b.addRule rule).Holds (rules ++ [rule]) := by
  unfold GrammarBuilder.addRule
  cases rules with
  | nil =>
    rw [h.defaultRule?_eq, List.head?_nil]
    exact ⟨rfl, h.others_eq⟩
  | cons first rules =>
    rw [h.defaultRule?_eq, List.head?_cons]
    exact ⟨rfl, congrArg (· ++ [rule]) h.others_eq⟩

theorem size_eq (h : b.Holds rules) : b.size = rules.length := by
  rw [size, h.defaultRule?_eq, h.others_eq]
  cases rules <;> rfl

theorem defaultRule?_eq_none_iff (h : b.Holds rules) : b.defaultRule? = none ↔ rules = [] := by
  rw [h.defaultRule?_eq, List.head?_eq_none_iff]

/-- Gathering the two parts gives the rules back. -/
theorem gathered {rule : Rule m τ} (h : b.Holds rules) (hrule : b.defaultRule? = some rule) :
    rule :: b.others = rules := by
  rw [h.others_eq]
  exact List.cons_head?_tail (h.defaultRule?_eq ▸ hrule)

end Holds

end GrammarBuilder

/-! ## Accounts -/

/-- What a call on a builder shows. -/
inductive BuilderEvent (m : Type → Type) (τ : Type) where
  | issued (symbol : Symbol)
  | added (rule : Rule m τ)
  | built (grammar? : Option (Grammar m τ))

/-- The grammar that a call returns, if it does. -/
def BuilderEvent.grammar? : BuilderEvent m τ → Option (Grammar m τ)
  | issued _ | added _ => none
  | built grammar? => grammar?

/-- What a call on a builder shows, and the builder it leaves. -/
inductive GrammarBuilder.Call (b : GrammarBuilder m τ) :
    BuilderEvent m τ → GrammarBuilder m τ → Prop
  | issue : Call b (.issued b.issueSymbol.1) b.issueSymbol.2
  | add (rule : Rule m τ) : Call b (.added rule) (b.addRule rule)
  | build (supply : ScopeSupply) : Call b (.built (b.build.run supply).1.1) (b.build.run supply).1.2

/-- The rules that a builder was given and the symbols that it issued since its last successful
build. -/
structure Account (m : Type → Type) (τ : Type) where
  rules : List (Rule m τ) := []
  symbols : List Symbol := []

namespace Account

/-- A build without a grammar is nothing that the account would notice. -/
def after (own : Account m τ) : BuilderEvent m τ → Account m τ
  | .issued symbol => { own with symbols := own.symbols ++ [symbol] }
  | .added rule => { own with rules := own.rules ++ [rule] }
  | .built none => own
  | .built (some _) => {}

/-- The account of the builder in a place, from what the calls on all builders have shown. -/
def of (place : Nat) (history : List (Nat × BuilderEvent m τ)) : Account m τ :=
  history.foldl (fun own entry => if entry.1 = place then own.after entry.2 else own) {}

theorem of_concat (place : Nat) (history : List (Nat × BuilderEvent m τ))
    (entry : Nat × BuilderEvent m τ) :
    of place (history ++ [entry]) =
      if entry.1 = place then (of place history).after entry.2 else of place history := by
  rw [of, List.foldl_append]
  rfl

/-- Calls on other builders do not count. -/
theorem of_eq_empty {place : Nat} {history : List (Nat × BuilderEvent m τ)}
    (h : ∀ entry ∈ history, entry.1 ≠ place) : of place history = {} := by
  induction history with
  | nil => rfl
  | cons entry history ih =>
    obtain ⟨hentry, hhistory⟩ := List.forall_mem_cons.1 h
    rw [of, List.foldl_cons, if_neg hentry]
    exact ih hhistory

/-- The builder has the rules of its account, and the symbols of the account are the first of its
scope. -/
structure Describes (own : Account m τ) (b : GrammarBuilder m τ) : Prop where
  holds : b.Holds own.rules
  issued_eq : b.generator.issued = .ofNat own.symbols.length
  scope_eq : ∀ s ∈ own.symbols, s.scope = b.generator.scope

namespace Describes

variable {own : Account m τ} {b : GrammarBuilder m τ}

theorem fresh (g : Generator) (h : g.issued = 0) :
    ({} : Account m τ).Describes { generator := g } where
  holds := ⟨rfl, rfl⟩
  issued_eq := h
  scope_eq := fun _ hmem => nomatch hmem

theorem issue (h : own.Describes b) :
    (own.after (.issued b.issueSymbol.1)).Describes b.issueSymbol.2 where
  holds := ⟨h.holds.defaultRule?_eq, h.holds.others_eq⟩
  issued_eq := by
    have hnext : b.issueSymbol.2.generator.issued = b.generator.issued + 1 := rfl
    rw [hnext, h.issued_eq, after, List.length_append, List.length_singleton, UInt64.ofNat_add]
    rfl
  scope_eq := List.forall_mem_append.2 ⟨h.scope_eq, List.forall_mem_singleton.2 rfl⟩

theorem add (h : own.Describes b) (rule : Rule m τ) :
    (own.after (.added rule)).Describes (b.addRule rule) where
  holds := h.holds.addRule rule
  issued_eq := (b.generator_addRule rule).symm ▸ h.issued_eq
  scope_eq := (b.generator_addRule rule).symm ▸ h.scope_eq

theorem build (h : own.Describes b) (supply : ScopeSupply) :
    (own.after (.built (b.build.run supply).1.1)).Describes (b.build.run supply).1.2 := by
  cases hrule : b.defaultRule? with
  | none =>
    rw [Workshop.run_build_of_none hrule]
    exact h
  | some rule =>
    rw [Workshop.run_build_of_some hrule]
    exact .fresh supply.fresh rfl

/-- Whatever is called, account and builder go together. -/
theorem call (h : own.Describes b) {event : BuilderEvent m τ} {next : GrammarBuilder m τ}
    (hcall : b.Call event next) : (own.after event).Describes next := by
  cases hcall with
  | issue => exact h.issue
  | add rule => exact h.add rule
  | build supply => exact h.build supply

end Describes

end Account

/-- The grammar has the rules of an account, in order, and the scope of its symbols. -/
structure Grammar.Settles (g : Grammar m τ) (own : Account m τ) : Prop where
  rules_eq : g.rules = own.rules
  head?_eq : own.rules.head? = some g.defaultRule
  max?_eq : (own.rules.map Rule.size).max? = some g.maxRuleLength
  scope_eq : ∀ s ∈ own.symbols, s.scope = g.scope

theorem Grammar.max?_size (g : Grammar m τ) :
    (g.rules.map Rule.size).max? = some g.maxRuleLength := by
  rw [maxRuleLength, rules, List.map_cons, List.max?_cons', List.foldl_map, List.foldl_cons,
    Nat.zero_max]

/-- A build gives a grammar if there are rules for one, and that settles the account. -/
theorem Account.Describes.settles {own : Account m τ} {b : GrammarBuilder m τ}
    (h : own.Describes b) {supply : ScopeSupply} {g : Grammar m τ}
    (hbuild : (b.build.run supply).1.1 = some g) : g.Settles own := by
  cases hrule : b.defaultRule? with
  | none =>
    rw [Workshop.run_build_of_none hrule] at hbuild
    cases hbuild
  | some rule =>
    rw [Workshop.run_build_of_some hrule] at hbuild
    obtain rfl := Option.some.inj hbuild
    have hrules := (Grammar.rules_ofRules b.generator (List.cons_ne_nil rule b.others)).trans
      (h.holds.gathered hrule)
    exact {
      rules_eq := hrules
      head?_eq := congrArg List.head? hrules.symm
      max?_eq := hrules ▸ Grammar.max?_size _
      scope_eq := h.scope_eq }

/-! ## Histories -/

namespace Workshop

/-- What an operation shows, if it is a call on a builder. -/
def event? (w : Workshop m τ) : Operation m τ → Option (Nat × BuilderEvent m τ)
  | .issueSymbol place => w.builders[place]?.map fun b => (place, .issued b.issueSymbol.1)
  | .addRule place rule => w.builders[place]?.map fun _ => (place, .added rule)
  | .build place =>
    w.builders[place]?.map fun b => (place, .built (b.build.run w.pool.supply).1.1)
  | .create | .issue _ | .moveOut _ | .assign .. | .createBuilder | .takeScope => none

/-- What the calls on builders show in the course of operations, each with the builder's place. -/
def history : List (Operation m τ) → Workshop m τ → List (Nat × BuilderEvent m τ)
  | [], _ => []
  | operation :: operations, w =>
    (w.event? operation).toList ++ history operations (w.perform operation).2

/-- What becomes of the builders and the grammars: nothing, or there is one more builder, or there is
a call on one. -/
inductive Advance (w : Workshop m τ) : Option (Nat × BuilderEvent m τ) → Workshop m τ → Prop
  | aside (pool : GeneratorPool) : Advance w none { w with pool }
  | created (pool : GeneratorPool) {g : Generator} (hg : g.issued = 0) :
    Advance w none { w with pool, builders := w.builders ++ [{ generator := g }] }
  | called (pool : GeneratorPool) {place : Nat} {b next : GrammarBuilder m τ}
    {event : BuilderEvent m τ} (hplace : w.builders[place]? = some b) (h : b.Call event next) :
    Advance w (some (place, event))
      { pool, builders := w.builders.set place next
        grammars := w.grammars ++ event.grammar?.toList }

variable {w : Workshop m τ}

theorem advance_perform? {operation : Operation m τ} {symbol? : Option Symbol}
    {after : Workshop m τ} (h : w.perform? operation = some (symbol?, after)) :
    w.Advance (w.event? operation) after := by
  cases operation with
  | create =>
    cases h
    exact .aside _
  | issue place =>
    obtain ⟨issued, -, ⟨⟩⟩ := Option.map_eq_some_iff.1 h
    exact .aside _
  | moveOut place =>
    obtain ⟨pool, -, ⟨⟩⟩ := Option.map_eq_some_iff.1 h
    exact .aside pool
  | assign target source =>
    obtain ⟨pool, -, ⟨⟩⟩ := Option.map_eq_some_iff.1 h
    exact .aside pool
  | createBuilder =>
    cases h
    exact .created _ rfl
  | issueSymbol place =>
    obtain ⟨b, hplace, ⟨⟩⟩ := Option.map_eq_some_iff.1 h
    rw [event?, hplace]
    have hcalled := Advance.called w.pool hplace .issue
    rwa [BuilderEvent.grammar?, Option.toList_none, List.append_nil] at hcalled
  | addRule place rule =>
    obtain ⟨b, hplace, ⟨⟩⟩ := Option.map_eq_some_iff.1 h
    rw [event?, hplace]
    have hcalled := Advance.called w.pool hplace (.add rule)
    rwa [BuilderEvent.grammar?, Option.toList_none, List.append_nil] at hcalled
  | build place =>
    obtain ⟨b, hplace, ⟨⟩⟩ := Option.map_eq_some_iff.1 h
    rw [event?, hplace]
    exact .called _ hplace (.build w.pool.supply)
  | takeScope =>
    cases h
    exact .aside _

theorem event?_eq_none {operation : Operation m τ} (h : w.perform? operation = none) :
    w.event? operation = none := by
  cases operation with
  | issueSymbol | addRule | build => simpa [perform?, event?] using h
  | create | issue | moveOut | assign | createBuilder | takeScope => rfl

theorem advance_perform (w : Workshop m τ) (operation : Operation m τ) :
    w.Advance (w.event? operation) (w.perform operation).2 := by
  unfold perform
  cases hperform : w.perform? operation with
  | none =>
    rw [event?_eq_none hperform]
    exact .aside w.pool
  | some result => exact advance_perform? hperform

/-! ## The account of every builder -/

/-- The builders are what their accounts say, and the grammars are those that were returned. -/
structure Accounted (w : Workshop m τ) (past : List (Nat × BuilderEvent m τ)) : Prop where
  grammars_eq : w.grammars = past.filterMap fun entry => entry.2.grammar?
  place_lt : ∀ entry ∈ past, entry.1 < w.builders.length
  describes : ∀ place b, w.builders[place]? = some b → (Account.of place past).Describes b

namespace Accounted

variable {past : List (Nat × BuilderEvent m τ)} {place : Nat}

theorem empty : ({} : Workshop m τ).Accounted [] where
  grammars_eq := rfl
  place_lt := fun _ hmem => nomatch hmem
  describes := fun _ _ hplace => nomatch hplace

/-- A new builder has a place of its own, and nothing in its account. -/
theorem created (h : w.Accounted past) (pool : GeneratorPool) {g : Generator} (hg : g.issued = 0) :
    Accounted { w with pool, builders := w.builders ++ [{ generator := g }] } past where
  grammars_eq := h.grammars_eq
  place_lt := by
    intro entry hmem
    rw [List.length_append]
    exact Nat.lt_add_right 1 (h.place_lt entry hmem)
  describes := by
    intro place b hplace
    rcases Nat.lt_or_ge place w.builders.length with hlt | hge
    · rw [List.getElem?_append_left hlt] at hplace
      exact h.describes place b hplace
    · rw [List.getElem?_append_right hge, List.getElem?_singleton] at hplace
      obtain rfl := Option.some.inj (Option.ite_none_right_eq_some.1 hplace).2
      rw [Account.of_eq_empty fun entry hmem => Nat.ne_of_lt (Nat.lt_of_lt_of_le
        (h.place_lt entry hmem) hge)]
      exact .fresh g hg

/-- A call on a builder goes into its account and into no other. -/
theorem called (h : w.Accounted past) (pool : GeneratorPool) {b next : GrammarBuilder m τ}
    {event : BuilderEvent m τ} (hplace : w.builders[place]? = some b) (hcall : b.Call event next) :
    Accounted
      { pool, builders := w.builders.set place next
        grammars := w.grammars ++ event.grammar?.toList }
      (past ++ [(place, event)]) where
  grammars_eq := by
    rw [List.filterMap_append, ← h.grammars_eq]
    cases hgrammar : event.grammar? <;> simp [hgrammar]
  place_lt := by
    obtain ⟨hlt, -⟩ := List.getElem?_eq_some_iff.1 hplace
    rw [List.length_set]
    exact List.forall_mem_append.2 ⟨h.place_lt, List.forall_mem_singleton.2 hlt⟩
  describes := by
    intro other b' hother
    rw [Account.of_concat]
    by_cases hsame : place = other
    · subst hsame
      obtain ⟨hlt, -⟩ := List.getElem?_eq_some_iff.1 hplace
      rw [List.getElem?_set_self hlt] at hother
      obtain rfl := Option.some.inj hother
      rw [if_pos rfl]
      exact (h.describes place b hplace).call hcall
    · rw [List.getElem?_set_ne hsame] at hother
      rw [if_neg hsame]
      exact h.describes other b' hother

theorem advance {event? : Option (Nat × BuilderEvent m τ)} {after : Workshop m τ}
    (h : w.Accounted past) (hadvance : w.Advance event? after) :
    after.Accounted (past ++ event?.toList) := by
  cases hadvance with
  | aside pool =>
    rw [Option.toList_none, List.append_nil]
    exact ⟨h.grammars_eq, h.place_lt, h.describes⟩
  | created pool hg =>
    rw [Option.toList_none, List.append_nil]
    exact h.created pool hg
  | called pool hplace hcall => exact h.called pool hplace hcall

end Accounted

/-- Whatever is done, every builder stays what its account says. -/
theorem run_accounted (operations : List (Operation m τ)) {past : List (Nat × BuilderEvent m τ)}
    (h : w.Accounted past) : (run operations w).2.Accounted (past ++ history operations w) := by
  induction operations generalizing w past with
  | nil => simpa [history, run] using h
  | cons operation operations ih =>
    rw [history, ← List.append_assoc]
    exact ih (h.advance (w.advance_perform operation))

end Workshop

/-! ## Scopes -/

/-- The same generator as if it had issued nothing. -/
def Generator.restarted (g : Generator) : Generator := { scope := g.scope }

/-- What becomes of the scopes does not depend on the numbers. -/
theorem Change.restarted {supply supply' : ScopeSupply} {live after : List Generator}
    {symbol? : Option Symbol} (h : Change supply live symbol? supply' after) :
    Change supply (live.map Generator.restarted) none supply' (after.map Generator.restarted) := by
  cases h with
  | nothing hafter => exact .nothing (hafter.map _)
  | scope hafter => exact .scope (hafter.map _)
  | fresh hafter => exact .fresh (hafter.map Generator.restarted)
  | freshScope hafter => exact .freshScope (hafter.map Generator.restarted)
  | replaced hbefore hafter =>
    exact .replaced (hbefore.map Generator.restarted) (hafter.map Generator.restarted)
  | issued hbefore hafter =>
    exact .nothing ((hafter.map Generator.restarted).trans
      (hbefore.map Generator.restarted).symm)

namespace Workshop

/-- Operations keep the scopes apart as long as they do not run out, and the supply counts them. -/
theorem run_scopes (operations : List (Operation m τ)) (w : Workshop m τ) {scopes : Nat}
    (hapart : Apart scopes [] (w.live.map Generator.restarted))
    (hsupply : w.pool.supply.next.toNat = scopes)
    (hscopes : scopes + acquired operations w < UInt64.size) :
    Apart (scopes + acquired operations w) []
        ((run operations w).2.live.map Generator.restarted) ∧
      (run operations w).2.pool.supply.next.toNat = scopes + acquired operations w := by
  induction operations generalizing w scopes with
  | nil => exact ⟨hapart, hsupply⟩
  | cons operation operations ih =>
    have hchange := (w.change_perform operation).restarted
    rw [acquired, ← Nat.add_assoc] at hscopes ⊢
    have htaken := Nat.lt_of_le_of_lt (Nat.le_add_right _ _) hscopes
    exact ih _ (hchange.apart hapart hsupply (by decide)) (hchange.toNat_next hsupply htaken)
      hscopes

section Fresh

variable {operations : List (Operation m τ)} (hscopes : acquired operations {} < UInt64.size)

include hscopes

/-- No builder has the scope of a grammar. -/
theorem scope_ne {b : GrammarBuilder m τ} (hb : b ∈ (run operations {}).2.builders)
    {g : Grammar m τ} (hg : g ∈ (run operations {}).2.grammars) :
    g.scope ≠ b.generator.scope := by
  obtain ⟨hapart, -⟩ := run_scopes operations {} .nil rfl (by omega)
  have hnodup := hapart.scopes_nodup
  simp only [live, List.map_map, List.map_append, Function.comp_def] at hnodup
  have hothers := (List.nodup_append.1 (List.nodup_append.1 hnodup).2.1).2.2
  exact (hothers _ (List.mem_map_of_mem hb) _ (List.mem_map_of_mem hg)).symm

/-- The next scope is nobody's. -/
theorem scope_ne_next {g : Generator} (hg : g ∈ (run operations {}).2.live) :
    g.scope ≠ (run operations {}).2.pool.supply.next := by
  obtain ⟨hapart, hsupply⟩ := run_scopes operations {} .nil rfl (by omega)
  have hlt := hapart.scope_lt g.restarted (List.mem_map_of_mem hg)
  intro h
  have hlt : g.scope.toNat < 0 + acquired operations {} := hlt
  rw [h, hsupply] at hlt
  exact Nat.lt_irrefl _ hlt

end Fresh

section Build

variable {w : Workshop m τ} {place : Nat} {b : GrammarBuilder m τ}
  (hplace : w.builders[place]? = some b)

include hplace

theorem perform_build_of_none (h : b.defaultRule? = none) :
    w.perform (.build place) = (none, w) := by
  obtain ⟨hlt, hb⟩ := List.getElem?_eq_some_iff.1 hplace
  have hset : w.builders.set place b = w.builders := hb ▸ List.set_getElem_self hlt
  unfold perform perform?
  simp only [hplace, Option.map_some, Option.getD_some, run_build_of_none h, hset,
    Option.toList_none, List.append_nil]

theorem getElem?_perform_build :
    (w.perform (.build place)).2.builders[place]? = some (b.build.run w.pool.supply).1.2 := by
  obtain ⟨hlt, -⟩ := List.getElem?_eq_some_iff.1 hplace
  unfold perform perform?
  simp only [hplace, Option.map_some, Option.getD_some]
  exact List.getElem?_set_self hlt

end Build

/-- In the course of any operations, a builder has the rules that it was given since its last
successful build, and the next symbol it issues is the next one of their scope. It builds nothing
if there are no such rules, and then nothing changes. Otherwise the grammar it builds has those rules
and that scope, and the builder goes on with no rules, from the first symbol of a scope that no
grammar has. -/
theorem builders_hand_over (operations : List (Operation m τ)) {place : Nat}
    {b : GrammarBuilder m τ} (hplace : (run operations {}).2.builders[place]? = some b) :
    let w := (run operations {}).2
    let past := history operations {}
    let own := Account.of place past
    let grammars := past.filterMap fun entry => entry.2.grammar?
    let ((grammar?, next), _) := b.build.run w.pool.supply
    b.size = own.rules.length ∧
    b.issueSymbol.1.sequence = .ofNat own.symbols.length ∧
    (∀ s ∈ own.symbols, s.scope = b.issueSymbol.1.scope) ∧
    (acquired operations {} < UInt64.size →
      ∀ g ∈ grammars, g.scope ≠ b.issueSymbol.1.scope) ∧
    (grammar? = none ↔ own.rules = []) ∧
    (grammar? = none → w.perform (.build place) = (none, w)) ∧
    ∀ g, grammar? = some g →
      g.Settles own ∧ (w.perform (.build place)).2.builders[place]? = some next ∧
      next.size = 0 ∧ next.issueSymbol.1.sequence = 0 ∧
      (acquired operations {} < UInt64.size →
        ∀ built ∈ grammars ++ [g], built.scope ≠ next.issueSymbol.1.scope) := by
  intro w past own grammars
  have haccounted : w.Accounted past := run_accounted operations .empty
  have hown : own.Describes b := haccounted.describes place b hplace
  have hgrammars : w.grammars = grammars := haccounted.grammars_eq
  have hbuilder : b ∈ w.builders := List.mem_of_getElem? hplace
  have hafter := getElem?_perform_build hplace
  have hscope (hscopes : acquired operations {} < UInt64.size) :
      ∀ g ∈ grammars, g.scope ≠ b.issueSymbol.1.scope :=
    fun g hg => scope_ne hscopes hbuilder (hgrammars ▸ hg)
  have hempty : b.defaultRule? = none ↔ own.rules = [] := hown.holds.defaultRule?_eq_none_iff
  cases hrule : b.defaultRule? with
  | none =>
    rw [run_build_of_none hrule]
    refine ⟨hown.holds.size_eq, hown.issued_eq, hown.scope_eq, hscope, ?_, ?_, nofun⟩
    · exact iff_of_true rfl (hempty.1 hrule)
    · exact fun _ => perform_build_of_none hplace hrule
  | some rule =>
    have hsettles : ∀ {g}, (b.build.run w.pool.supply).1.1 = some g → g.Settles own :=
      hown.settles
    rw [run_build_of_some hrule] at hafter hsettles ⊢
    refine ⟨hown.holds.size_eq, hown.issued_eq, hown.scope_eq, hscope, ?_, nofun, ?_⟩
    · exact iff_of_false nofun fun h => nomatch hrule.symm.trans (hempty.2 h)
    · rintro g hg
      refine ⟨hsettles hg, hafter, rfl, rfl, fun hscopes => ?_⟩
      obtain rfl := Option.some.inj hg
      refine List.forall_mem_append.2 ⟨fun built hbuilt => ?_, List.forall_mem_singleton.2 ?_⟩
      · refine scope_ne_next hscopes (List.mem_append_right _ (List.mem_append_right _ ?_))
        exact List.mem_map_of_mem (hgrammars ▸ hbuilt)
      · refine scope_ne_next hscopes (List.mem_append_right _ (List.mem_append_left _ ?_))
        exact List.mem_map_of_mem hbuilder

/-- Two builders at a time: one builds a grammar while the other, which could build nothing before,
collects its rules. -/
theorem builders_hand_over_interleaved :
    let first : Rule Id Bool := .ofSymbol ⟨0, 0⟩
    let second : Rule Id Bool := (Rule.ofSymbol ⟨0, 1⟩).withNonterminal ⟨0, 0⟩
    let operations : List (Operation Id Bool) :=
      [.createBuilder, .create, .createBuilder, .issueSymbol 0, .build 0, .issueSymbol 1,
        .addRule 1 (.ofSymbol ⟨2, 0⟩), .issueSymbol 0, .build 1, .addRule 0 first, .issueSymbol 1,
        .addRule 0 second]
    let b : GrammarBuilder Id Bool :=
      { generator := ⟨0, 2⟩, defaultRule? := some first, others := [second] }
    let w := (run operations {}).2
    let own := Account.of 0 (history operations {})
    let ((grammar?, next), _) := b.build.run w.pool.supply
    (w.builders[0]? = some b ∧ acquired operations {} < UInt64.size ∧
      own = { rules := [first, second], symbols := [⟨0, 0⟩, ⟨0, 1⟩] }) ∧
    b.size = 2 ∧ b.issueSymbol.1 = ⟨0, 2⟩ ∧
    ∃ g, grammar? = some g ∧ g.Settles own ∧ g.maxRuleLength = 1 ∧ next.size = 0 ∧
      (∀ built ∈ w.grammars ++ [g], built.scope ≠ next.issueSymbol.1.scope) ∧
      next.issueSymbol.1 = ⟨5, 0⟩ := by
  intro first second operations b w own
  have hplace : w.builders[0]? = some b := rfl
  have hscopes : acquired operations {} < UInt64.size := by decide
  obtain ⟨hsize, -, -, -, -, -, hbuilt⟩ := builders_hand_over operations hplace
  obtain ⟨hsettles, -, hempty, -, hfresh⟩ := hbuilt _ rfl
  exact ⟨⟨hplace, hscopes, rfl⟩, hsize, rfl, _, rfl, hsettles, rfl, hempty, hfresh hscopes, rfl⟩

end Workshop

end ShiftReduce
