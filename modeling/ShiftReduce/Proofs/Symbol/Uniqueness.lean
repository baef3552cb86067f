import Mathlib.Data.List.Nodup
import Mathlib.Data.List.Perm.Basic
import ShiftReduce.Grammar.Basic

/-!
# No symbol is issued twice

A `Workshop` has every generator there is: those that stand by themselves, those of builders, and
those that builds moved into grammars. All take their scopes from one supply. Whatever is done with
them in whatever order, the generators keep scopes of their own, and no symbol is issued a second
time (`Workshop.symbols_never_repeat`).

What one operation does to the generators, in any order, is one of six changes (`Change`,
`Workshop.change_perform`): a generator may come with a fresh scope, replace another one, or issue
its next symbol, a scope may be taken for something else, a generator may come and such a scope be
taken after it, or nothing happens. Each of them keeps the invariant (`Apart`, `Change.apart`).
-/

namespace ShiftReduce

variable {m : Type → Type} {τ : Type}

/-! ## Scopes -/

namespace ScopeSupply

/-- The supply after a scope was taken. -/
def advance (supply : ScopeSupply) : ScopeSupply := { next := supply.next + 1 }

/-- The generator that takes the next scope. -/
def fresh (supply : ScopeSupply) : Generator := { scope := supply.next }

/-- How many scopes a single operation has taken that leaves `after` of the supply. -/
def taken (supply after : ScopeSupply) : Nat := (after.next - supply.next).toNat

variable (supply : ScopeSupply)

theorem taken_self : supply.taken supply = 0 := by
  rw [taken, UInt64.sub_self]
  rfl

theorem taken_advance : supply.taken supply.advance = 1 := by
  have hnext : supply.advance.next = 1 + supply.next := UInt64.add_comm ..
  rw [taken, hnext, UInt64.add_sub_cancel]
  rfl

theorem taken_advance_advance : supply.taken supply.advance.advance = 2 := by
  have hnext : supply.advance.advance.next = 2 + supply.next :=
    (UInt64.add_assoc supply.next 1 1).trans (UInt64.add_comm supply.next 2)
  rw [taken, hnext, UInt64.add_sub_cancel]
  rfl

variable {supply}

theorem toNat_next_advance (h : supply.next.toNat + 1 < UInt64.size) :
    supply.advance.next.toNat = supply.next.toNat + 1 := by
  have hsum : (supply.next + 1).toNat = (supply.next.toNat + 1) % UInt64.size :=
    UInt64.toNat_add ..
  exact hsum.trans (Nat.mod_eq_of_lt h)

end ScopeSupply

/-! ## Operations -/

/-- The generators in use, with what they are part of. -/
structure Workshop (m : Type → Type) (τ : Type) where
  pool : GeneratorPool := {}
  builders : List (GrammarBuilder m τ) := []
  grammars : List (Grammar m τ) := []

namespace Workshop

/-- Operations on the generators and builders in numbered places. A scope may also be taken for
something that is not in the workshop. -/
inductive Operation (m : Type → Type) (τ : Type) where
  | create
  | issue (place : Nat)
  | moveOut (place : Nat)
  | assign (target source : Nat)
  | createBuilder
  | issueSymbol (place : Nat)
  | addRule (place : Nat) (rule : Rule m τ)
  | build (place : Nat)
  | takeScope

/-- What an operation issues and the workshop after it, if there are the places that it names. -/
def perform? (w : Workshop m τ) : Operation m τ → Option (Option Symbol × Workshop m τ)
  | .create => some (none, { w with pool := w.pool.create })
  | .issue place =>
    (w.pool.issue place).map fun (symbol, pool) => (some symbol, { w with pool })
  | .moveOut place => (w.pool.moveOut place).map fun pool => (none, { w with pool })
  | .assign target source =>
    (w.pool.assign target source).map fun pool => (none, { w with pool })
  | .createBuilder =>
    let (b, supply) := GrammarBuilder.create.run w.pool.supply
    some (none, { w with pool := { w.pool with supply }, builders := w.builders ++ [b] })
  | .issueSymbol place =>
    w.builders[place]?.map fun b =>
      let (symbol, b) := b.issueSymbol
      (some symbol, { w with builders := w.builders.set place b })
  | .addRule place rule =>
    w.builders[place]?.map fun b =>
      (none, { w with builders := w.builders.set place (b.addRule rule) })
  | .build place =>
    w.builders[place]?.map fun b =>
      let ((grammar?, b), supply) := b.build.run w.pool.supply
      (none, {
        pool := { w.pool with supply }
        builders := w.builders.set place b
        grammars := w.grammars ++ grammar?.toList })
  | .takeScope =>
    let (_, supply) := ScopeSupply.acquire.run w.pool.supply
    some (none, { w with pool := { w.pool with supply } })

/-- Performs an operation. Without a place for it nothing happens. -/
def perform (w : Workshop m τ) (operation : Operation m τ) : Option Symbol × Workshop m τ :=
  (w.perform? operation).getD (none, w)

/-- Performs operations one after the other: the symbols that are issued, and the workshop that is
left. -/
def run : List (Operation m τ) → Workshop m τ → List Symbol × Workshop m τ
  | [], w => ([], w)
  | operation :: operations, w =>
    let (symbol?, between) := w.perform operation
    let (symbols, after) := run operations between
    (symbol?.toList ++ symbols, after)

/-- How many scopes are acquired by operations. An operation moves the supply on by those that it
acquires. -/
def acquired : List (Operation m τ) → Workshop m τ → Nat
  | [], _ => 0
  | operation :: operations, w =>
    let (_, between) := w.perform operation
    w.pool.supply.taken between.pool.supply + acquired operations between

/-- The generators that are alive, wherever they are. -/
def live (w : Workshop m τ) : List Generator :=
  w.pool.generators.toList ++ (w.builders.map (·.generator) ++ w.grammars.map (·.generator))

end Workshop

/-! ## Changes of the generators -/

/-- What becomes of the supply and the live generators, up to their order, and the symbol that is
issued. With `freshScope` a second scope goes to the old place of something that is moved. -/
inductive Change (supply : ScopeSupply) (live : List Generator) :
    Option Symbol → ScopeSupply → List Generator → Prop
  | nothing {after : List Generator} (hafter : after.Perm live) :
    Change supply live none supply after
  | scope {after : List Generator} (hafter : after.Perm live) :
    Change supply live none supply.advance after
  | fresh {after : List Generator} (hafter : after.Perm (supply.fresh :: live)) :
    Change supply live none supply.advance after
  | freshScope {after : List Generator} (hafter : after.Perm (supply.fresh :: live)) :
    Change supply live none supply.advance.advance after
  | replaced {dropped : Generator} {others after : List Generator}
    (hbefore : live.Perm (dropped :: others)) (hafter : after.Perm (supply.fresh :: others)) :
    Change supply live none supply.advance after
  | issued {g : Generator} {others after : List Generator} (hbefore : live.Perm (g :: others))
    (hafter : after.Perm (g.issue.2 :: others)) :
    Change supply live (some g.issue.1) supply after

namespace Change

variable {supply supply' : ScopeSupply} {live after : List Generator} {symbol? : Option Symbol}

/-- Generators that stay as they are can be added. -/
theorem append_right (h : Change supply live symbol? supply' after) (others : List Generator) :
    Change supply (live ++ others) symbol? supply' (after ++ others) := by
  cases h with
  | nothing hafter => exact .nothing (hafter.append_right others)
  | scope hafter => exact .scope (hafter.append_right others)
  | fresh hafter => exact .fresh (hafter.append_right others)
  | freshScope hafter => exact .freshScope (hafter.append_right others)
  | replaced hbefore hafter =>
    exact .replaced (hbefore.append_right others) (hafter.append_right others)
  | issued hbefore hafter =>
    exact .issued (hbefore.append_right others) (hafter.append_right others)

theorem perm (h : Change supply live symbol? supply' after) {live₂ after₂ : List Generator}
    (hlive : live₂.Perm live) (hafter₂ : after₂.Perm after) :
    Change supply live₂ symbol? supply' after₂ := by
  cases h with
  | nothing hafter => exact .nothing ((hafter₂.trans hafter).trans hlive.symm)
  | scope hafter => exact .scope ((hafter₂.trans hafter).trans hlive.symm)
  | fresh hafter => exact .fresh ((hafter₂.trans hafter).trans (hlive.symm.cons _))
  | freshScope hafter => exact .freshScope ((hafter₂.trans hafter).trans (hlive.symm.cons _))
  | replaced hbefore hafter => exact .replaced (hlive.trans hbefore) (hafter₂.trans hafter)
  | issued hbefore hafter => exact .issued (hlive.trans hbefore) (hafter₂.trans hafter)

/-- Others that stay as they are can also come first. -/
theorem append_left (h : Change supply live symbol? supply' after) (others : List Generator) :
    Change supply (others ++ live) symbol? supply' (others ++ after) :=
  (h.append_right others).perm List.perm_append_comm List.perm_append_comm

end Change

/-! ## What operations change -/

/-- Takes an element out of a list, so that any other can be put in its place. -/
theorem exists_perm_set {α : Type} {l : List α} {i : Nat} {a : α} (h : l[i]? = some a) :
    ∃ others, l.Perm (a :: others) ∧ ∀ b, (l.set i b).Perm (b :: others) := by
  obtain ⟨hi, rfl⟩ := List.getElem?_eq_some_iff.1 h
  exact ⟨l.eraseIdx i, (List.getElem_cons_eraseIdx_perm hi).symm,
    fun b => List.set_perm_cons_eraseIdx hi b⟩

namespace GeneratorPool

variable {pool after : GeneratorPool} {place : Nat}

theorem change_create (pool : GeneratorPool) :
    Change pool.supply pool.generators.toList none pool.create.supply
      pool.create.generators.toList := by
  have hpush : pool.create.generators.toList = pool.generators.toList ++ [pool.supply.fresh] :=
    Array.toList_push
  exact .fresh (hpush ▸ List.perm_append_singleton _ _)

theorem change_issue {symbol : Symbol} (h : pool.issue place = some (symbol, after)) :
    Change pool.supply pool.generators.toList (some symbol) after.supply
      after.generators.toList := by
  obtain ⟨g, hplace, hissue⟩ := Option.map_eq_some_iff.1 h
  cases hissue
  rw [← Array.getElem?_toList] at hplace
  obtain ⟨others, hbefore, hset⟩ := exists_perm_set hplace
  refine .issued hbefore ?_
  rw [Array.toList_setIfInBounds]
  exact hset g.issue.2

theorem change_moveOut (h : pool.moveOut place = some after) :
    Change pool.supply pool.generators.toList none after.supply after.generators.toList := by
  obtain ⟨g, hplace, rfl⟩ := Option.map_eq_some_iff.1 h
  rw [← Array.getElem?_toList] at hplace
  obtain ⟨others, hbefore, hset⟩ := exists_perm_set hplace
  have hafter : ((pool.generators.setIfInBounds place pool.supply.fresh).push g).toList =
      pool.generators.toList.set place pool.supply.fresh ++ [g] := by
    rw [Array.toList_push, Array.toList_setIfInBounds]
  have hpush := (List.perm_append_singleton g _).trans ((hset pool.supply.fresh).cons g)
  have hswap := hpush.trans (.swap pool.supply.fresh g others)
  exact .fresh (hafter ▸ hswap.trans (hbefore.symm.cons _))

/-- The generator at the target is replaced by the fresh one at the source; without a target it is
the generator at the source that is dropped. -/
theorem change_assign {target source : Nat} (h : pool.assign target source = some after) :
    Change pool.supply pool.generators.toList none after.supply after.generators.toList := by
  obtain ⟨g, hsource, hassign⟩ := Option.map_eq_some_iff.1 h
  by_cases hself : target = source
  · rw [if_pos hself] at hassign
    cases hassign
    exact .nothing (.refl _)
  rw [if_neg hself] at hassign
  rw [← Array.getElem?_toList] at hsource
  have hafter : after.generators.toList =
      (pool.generators.toList.set source pool.supply.fresh).set target g := by
    rw [← hassign]
    exact (Array.toList_setIfInBounds ..).trans
      (congrArg (List.set · target g) (Array.toList_setIfInBounds ..))
  have hsupply : after.supply = pool.supply.advance := hassign ▸ rfl
  rw [hsupply, hafter]
  cases htarget : pool.generators.toList[target]? with
  | none =>
    obtain ⟨others, hbefore, hset⟩ := exists_perm_set hsource
    have hbound : pool.generators.toList.length ≤ target := List.getElem?_eq_none_iff.1 htarget
    rw [List.set_eq_of_length_le (by simpa using hbound)]
    exact .replaced hbefore (hset _)
  | some dropped =>
    obtain ⟨others, hbefore, hset⟩ := exists_perm_set htarget
    have hmoved : (pool.generators.toList.set target g)[source]? = some g := by
      rw [List.getElem?_set_ne hself, hsource]
    obtain ⟨others', hbefore', hset'⟩ := exists_perm_set hmoved
    have hothers : others'.Perm others := (hbefore'.symm.trans (hset g)).cons_inv
    rw [List.set_comm _ _ (Ne.symm hself)]
    exact .replaced hbefore ((hset' _).trans (hothers.cons _))

end GeneratorPool

namespace Workshop

variable {w after : Workshop m τ} {b : GrammarBuilder m τ} {place : Nat} {symbol? : Option Symbol}

/-- Puts another builder in the place of one. -/
theorem exists_perm_setBuilder (hplace : w.builders[place]? = some b) :
    ∃ others, (w.builders.map (·.generator)).Perm (b.generator :: others) ∧
      ∀ next : GrammarBuilder m τ,
        ((w.builders.set place next).map (·.generator)).Perm (next.generator :: others) := by
  have hgenerator : (w.builders.map (·.generator))[place]? = some b.generator := by
    rw [List.getElem?_map, hplace, Option.map_some]
  obtain ⟨others, hbefore, hset⟩ := exists_perm_set hgenerator
  refine ⟨others, hbefore, fun next => ?_⟩
  rw [List.map_set]
  exact hset next.generator

theorem run_build_of_none (h : b.defaultRule? = none) (supply : ScopeSupply) :
    b.build.run supply = ((none, b), supply) := by
  rw [GrammarBuilder.build, h]
  rfl

/-- The builder goes on with the first of the two scopes. The second is that of the grammar's old
place. -/
theorem run_build_of_some {rule : Rule m τ} (h : b.defaultRule? = some rule)
    (supply : ScopeSupply) :
    b.build.run supply =
      ((some (.ofRules b.generator (rule :: b.others) (List.cons_ne_nil _ _)),
        { generator := supply.fresh }), supply.advance.advance) := by
  rw [GrammarBuilder.build, h]
  rfl

/-- The generator of a builder goes into the grammar, and the fresh one replaces it. -/
theorem change_build (hplace : w.builders[place]? = some b) :
    let ((grammar?, next), supply) := b.build.run w.pool.supply
    Change w.pool.supply (w.builders.map (·.generator) ++ w.grammars.map (·.generator)) none supply
      ((w.builders.set place next).map (·.generator) ++
        (w.grammars ++ grammar?.toList).map (·.generator)) := by
  obtain ⟨others, hbefore, hset⟩ := exists_perm_setBuilder hplace
  cases hrule : b.defaultRule? with
  | none =>
    rw [run_build_of_none hrule]
    simp only [Option.toList_none, List.append_nil]
    exact .nothing (((hset b).trans hbefore.symm).append_right _)
  | some rule =>
    rw [run_build_of_some hrule]
    simp only [Option.toList_some, List.map_append, List.map_singleton]
    refine .freshScope (((hset _).append_right _).trans (.cons _ ?_))
    have hgrammars := List.perm_append_singleton b.generator (w.grammars.map (·.generator))
    have hmiddle := (hgrammars.append_left others).trans List.perm_middle
    exact hmiddle.trans (hbefore.symm.append_right _)

theorem change_perform? {operation : Operation m τ}
    (h : w.perform? operation = some (symbol?, after)) :
    Change w.pool.supply w.live symbol? after.pool.supply after.live := by
  cases operation with
  | create =>
    cases h
    exact w.pool.change_create.append_right _
  | issue place =>
    obtain ⟨⟨symbol, pool⟩, hissue, ⟨⟩⟩ := Option.map_eq_some_iff.1 h
    exact (GeneratorPool.change_issue hissue).append_right _
  | moveOut place =>
    obtain ⟨pool, hmove, ⟨⟩⟩ := Option.map_eq_some_iff.1 h
    exact (GeneratorPool.change_moveOut hmove).append_right _
  | assign target source =>
    obtain ⟨pool, hassign, ⟨⟩⟩ := Option.map_eq_some_iff.1 h
    exact (GeneratorPool.change_assign hassign).append_right _
  | createBuilder =>
    cases h
    refine Change.append_left (Change.append_right (.fresh ?_) _) _
    rw [List.map_append]
    exact List.perm_append_singleton _ _
  | issueSymbol place =>
    obtain ⟨b, hplace, ⟨⟩⟩ := Option.map_eq_some_iff.1 h
    obtain ⟨others, hbefore, hset⟩ := exists_perm_setBuilder hplace
    exact Change.append_left (Change.append_right (.issued hbefore (hset _)) _) _
  | addRule place rule =>
    obtain ⟨b, hplace, ⟨⟩⟩ := Option.map_eq_some_iff.1 h
    obtain ⟨others, hbefore, hset⟩ := exists_perm_setBuilder hplace
    have hgenerator : (b.addRule rule).generator = b.generator := b.generator_addRule rule
    have hsame := (hgenerator ▸ hset (b.addRule rule)).trans hbefore.symm
    exact Change.append_left (Change.append_right (.nothing hsame) _) _
  | build place =>
    obtain ⟨b, hplace, ⟨⟩⟩ := Option.map_eq_some_iff.1 h
    exact Change.append_left (change_build hplace) _
  | takeScope =>
    cases h
    exact .scope (.refl _)

theorem change_perform (w : Workshop m τ) (operation : Operation m τ) :
    Change w.pool.supply w.live (w.perform operation).1 (w.perform operation).2.pool.supply
      (w.perform operation).2.live := by
  unfold perform
  cases hperform : w.perform? operation with
  | none => exact .nothing (.refl _)
  | some result => exact change_perform? hperform

end Workshop

/-! ## The invariant -/

/-- Generators that keep apart, when `acquired` scopes are taken and `symbols` are issued. A scope
that is alive is no other's, no scope in use is still to be taken, and of its scope a generator has
issued no sequence number that is yet to come. -/
structure Apart (acquired : Nat) (symbols : List Symbol) (live : List Generator) : Prop where
  scopes_nodup : (live.map (·.scope)).Nodup
  scope_lt : ∀ g ∈ live, g.scope.toNat < acquired
  issued_le : ∀ g ∈ live, g.issued.toNat ≤ symbols.length
  sequence_lt : ∀ g ∈ live, ∀ s ∈ symbols, s.scope = g.scope → s.sequence.toNat < g.issued.toNat
  symbol_scope_lt : ∀ s ∈ symbols, s.scope.toNat < acquired
  symbols_nodup : symbols.Nodup

namespace Apart

variable {acquired : Nat} {symbols : List Symbol} {live after : List Generator} {g : Generator}
  {supply : ScopeSupply}

theorem nil : Apart 0 [] [] where
  scopes_nodup := .nil
  scope_lt := fun _ h => (nomatch h)
  issued_le := fun _ h => (nomatch h)
  sequence_lt := fun _ h => (nomatch h)
  symbol_scope_lt := fun _ h => (nomatch h)
  symbols_nodup := .nil

theorem perm (h : Apart acquired symbols live) (hperm : after.Perm live) :
    Apart acquired symbols after where
  scopes_nodup := (hperm.map (·.scope)).nodup_iff.2 h.scopes_nodup
  scope_lt := fun g hmem => h.scope_lt g (hperm.mem_iff.1 hmem)
  issued_le := fun g hmem => h.issued_le g (hperm.mem_iff.1 hmem)
  sequence_lt := fun g hmem => h.sequence_lt g (hperm.mem_iff.1 hmem)
  symbol_scope_lt := h.symbol_scope_lt
  symbols_nodup := h.symbols_nodup

theorem tail (h : Apart acquired symbols (g :: live)) : Apart acquired symbols live where
  scopes_nodup := (List.nodup_cons.1 h.scopes_nodup).2
  scope_lt := (List.forall_mem_cons.1 h.scope_lt).2
  issued_le := (List.forall_mem_cons.1 h.issued_le).2
  sequence_lt := (List.forall_mem_cons.1 h.sequence_lt).2
  symbol_scope_lt := h.symbol_scope_lt
  symbols_nodup := h.symbols_nodup

/-- Scopes that are taken for something else do no harm. -/
theorem scope (h : Apart acquired symbols live) : Apart (acquired + 1) symbols live where
  scopes_nodup := h.scopes_nodup
  scope_lt := fun g hmem => Nat.lt_succ_of_lt (h.scope_lt g hmem)
  issued_le := h.issued_le
  sequence_lt := h.sequence_lt
  symbol_scope_lt := fun s hmem => Nat.lt_succ_of_lt (h.symbol_scope_lt s hmem)
  symbols_nodup := h.symbols_nodup

/-- The next scope is nobody's yet, and nothing was issued of it. -/
theorem fresh (h : Apart acquired symbols live) (hsupply : supply.next.toNat = acquired) :
    Apart (acquired + 1) symbols (supply.fresh :: live) where
  scopes_nodup := by
    refine List.nodup_cons.2 ⟨fun hmem => ?_, h.scopes_nodup⟩
    obtain ⟨g, hg, hscope⟩ := List.mem_map.1 hmem
    have hscope : g.scope = supply.next := hscope
    have := h.scope_lt g hg
    rw [hscope, hsupply] at this
    omega
  scope_lt := by
    refine List.forall_mem_cons.2 ⟨?_, h.scope.scope_lt⟩
    exact Nat.lt_succ_of_le (Nat.le_of_eq hsupply)
  issued_le := List.forall_mem_cons.2 ⟨Nat.zero_le _, h.issued_le⟩
  sequence_lt := by
    refine List.forall_mem_cons.2 ⟨fun s hmem hscope => ?_, h.sequence_lt⟩
    have hscope : s.scope = supply.next := hscope
    have := h.symbol_scope_lt s hmem
    rw [hscope, hsupply] at this
    omega
  symbol_scope_lt := h.scope.symbol_scope_lt
  symbols_nodup := h.symbols_nodup

/-- The next symbol of a generator is new, as long as its number is not the first again. -/
theorem issue (h : Apart acquired symbols (g :: live)) (hbound : symbols.length + 1 < UInt64.size) :
    Apart acquired (symbols ++ [g.issue.1]) (g.issue.2 :: live) := by
  obtain ⟨hscope, hscopes⟩ := List.forall_mem_cons.1 h.scope_lt
  obtain ⟨hissued, hothers⟩ := List.forall_mem_cons.1 h.issued_le
  obtain ⟨hsequence, hsequences⟩ := List.forall_mem_cons.1 h.sequence_lt
  have hnext : g.issue.2.issued.toNat = g.issued.toNat + 1 := by
    have hsum : (g.issued + 1).toNat = (g.issued.toNat + 1) % UInt64.size := UInt64.toNat_add ..
    exact hsum.trans (Nat.mod_eq_of_lt (by omega))
  have hlength : (symbols ++ [g.issue.1]).length = symbols.length + 1 := List.length_append
  have hnew : g.issue.1 ∉ symbols := fun hmem => Nat.lt_irrefl _ (hsequence _ hmem rfl)
  refine ⟨h.scopes_nodup, List.forall_mem_cons.2 ⟨hscope, hscopes⟩, ?_, ?_, ?_, ?_⟩
  · rw [hlength]
    refine List.forall_mem_cons.2 ⟨by omega, fun other hmem => ?_⟩
    exact Nat.le_succ_of_le (hothers other hmem)
  · refine List.forall_mem_cons.2 ⟨?_, fun other hmem => ?_⟩
    · rw [hnext]
      refine List.forall_mem_append.2 ⟨fun s hs hsame => ?_, ?_⟩
      · exact Nat.lt_succ_of_lt (hsequence s hs hsame)
      · exact List.forall_mem_singleton.2 fun _ => Nat.lt_succ_self g.issued.toNat
    · refine List.forall_mem_append.2 ⟨hsequences other hmem, ?_⟩
      -- the new symbol is of another scope
      refine List.forall_mem_singleton.2 fun hsame => ?_
      have hscope_mem : g.scope ∈ live.map (·.scope) := List.mem_map.2 ⟨other, hmem, hsame.symm⟩
      exact absurd hscope_mem (List.nodup_cons.1 h.scopes_nodup).1
  · exact List.forall_mem_append.2 ⟨h.symbol_scope_lt, List.forall_mem_singleton.2 hscope⟩
  · refine List.nodup_append.2 ⟨h.symbols_nodup, List.nodup_singleton _, ?_⟩
    rintro s hs _ hmem rfl
    exact hnew (List.mem_singleton.1 hmem ▸ hs)

end Apart

namespace Change

variable {supply supply' : ScopeSupply} {live after : List Generator} {symbol? : Option Symbol}
  {acquired : Nat} {symbols : List Symbol}

/-- The supply counts the scopes that are taken. -/
theorem toNat_next (h : Change supply live symbol? supply' after)
    (hsupply : supply.next.toNat = acquired)
    (hscopes : acquired + supply.taken supply' < UInt64.size) :
    supply'.next.toNat = acquired + supply.taken supply' := by
  subst hsupply
  cases h with
  | nothing hafter => rw [ScopeSupply.taken_self, Nat.add_zero]
  | issued hbefore hafter => rw [ScopeSupply.taken_self, Nat.add_zero]
  | scope hafter =>
    rw [ScopeSupply.taken_advance] at hscopes ⊢
    exact ScopeSupply.toNat_next_advance hscopes
  | fresh hafter =>
    rw [ScopeSupply.taken_advance] at hscopes ⊢
    exact ScopeSupply.toNat_next_advance hscopes
  | freshScope hafter =>
    rw [ScopeSupply.taken_advance_advance] at hscopes ⊢
    have hfirst := ScopeSupply.toNat_next_advance (Nat.lt_of_succ_lt hscopes)
    rw [ScopeSupply.toNat_next_advance (hfirst ▸ hscopes), hfirst]
  | replaced hbefore hafter =>
    rw [ScopeSupply.taken_advance] at hscopes ⊢
    exact ScopeSupply.toNat_next_advance hscopes

/-- A change keeps the generators apart. -/
theorem apart (h : Change supply live symbol? supply' after)
    (hapart : Apart acquired symbols live) (hsupply : supply.next.toNat = acquired)
    (hsymbols : (symbols ++ symbol?.toList).length < UInt64.size) :
    Apart (acquired + supply.taken supply') (symbols ++ symbol?.toList) after := by
  cases h with
  | nothing hafter =>
    rw [ScopeSupply.taken_self, Nat.add_zero, Option.toList_none, List.append_nil]
    exact hapart.perm hafter
  | scope hafter =>
    rw [ScopeSupply.taken_advance, Option.toList_none, List.append_nil]
    exact hapart.scope.perm hafter
  | fresh hafter =>
    rw [ScopeSupply.taken_advance, Option.toList_none, List.append_nil]
    exact (hapart.fresh hsupply).perm hafter
  | freshScope hafter =>
    rw [ScopeSupply.taken_advance_advance, Option.toList_none, List.append_nil]
    exact (hapart.fresh hsupply).scope.perm hafter
  | replaced hbefore hafter =>
    rw [ScopeSupply.taken_advance, Option.toList_none, List.append_nil]
    exact ((hapart.perm hbefore.symm).tail.fresh hsupply).perm hafter
  | issued hbefore hafter =>
    rw [Option.toList_some, List.length_append] at hsymbols
    rw [ScopeSupply.taken_self, Nat.add_zero, Option.toList_some]
    exact ((hapart.perm hbefore.symm).issue hsymbols).perm hafter

end Change

/-! ## Runs -/

namespace Workshop

/-- Operations keep the generators apart as long as neither the scopes nor the numbers run out. -/
theorem run_apart (operations : List (Operation m τ)) (w : Workshop m τ) {scopes : Nat}
    {symbols : List Symbol} (hapart : Apart scopes symbols w.live)
    (hsupply : w.pool.supply.next.toNat = scopes)
    (hscopes : scopes + acquired operations w < UInt64.size)
    (hsymbols : (symbols ++ (run operations w).1).length < UInt64.size) :
    Apart (scopes + acquired operations w) (symbols ++ (run operations w).1)
      (run operations w).2.live := by
  induction operations generalizing w scopes symbols with
  | nil => simpa [run, acquired] using hapart
  | cons operation operations ih =>
    have hchange := w.change_perform operation
    rw [acquired, ← Nat.add_assoc] at hscopes ⊢
    rw [run, ← List.append_assoc] at hsymbols ⊢
    have hissued : (symbols ++ (w.perform operation).1.toList).length < UInt64.size := by
      rw [List.length_append] at hsymbols
      exact Nat.lt_of_le_of_lt (Nat.le_add_right _ _) hsymbols
    have htaken := Nat.lt_of_le_of_lt (Nat.le_add_right _ _) hscopes
    exact ih _ (hchange.apart hapart hsupply hissued) (hchange.toNat_next hsupply htaken) hscopes
      hsymbols

theorem run_append (before operations : List (Operation m τ)) (w : Workshop m τ) :
    run (before ++ operations) w =
      ((run before w).1 ++ (run operations (run before w).2).1,
        (run operations (run before w).2).2) := by
  induction before generalizing w with
  | nil => rfl
  | cons operation before ih => simp only [List.cons_append, run, ih, List.append_assoc]

theorem acquired_append (before operations : List (Operation m τ)) (w : Workshop m τ) :
    acquired (before ++ operations) w =
      acquired before w + acquired operations (run before w).2 := by
  induction before generalizing w with
  | nil => simp [acquired, run]
  | cons operation before ih => simp only [List.cons_append, run, acquired, ih, Nat.add_assoc]

/-- Whatever is done with generators, builders and grammars, no symbol is issued twice, and at no
time are there two generators of one scope. -/
theorem symbols_never_repeat (operations : List (Operation m τ))
    (hscopes : acquired operations {} < UInt64.size)
    (hsymbols : (run operations {}).1.length < UInt64.size) :
    (run operations {}).1.Nodup ∧
      ∀ before, before <+: operations → ((run before {}).2.live.map (·.scope)).Nodup := by
  have hapart (before : List (Operation m τ)) (hbefore : before <+: operations) :
      Apart (acquired before {}) (run before {}).1 (run before {}).2.live := by
    obtain ⟨others, rfl⟩ := hbefore
    rw [acquired_append] at hscopes
    rw [run_append, List.length_append] at hsymbols
    have hrun := run_apart before {} .nil rfl (by omega) (by rw [List.nil_append]; omega)
    rwa [Nat.zero_add, List.nil_append] at hrun
  exact ⟨(hapart operations (List.prefix_refl _)).symbols_nodup,
    fun before hbefore => (hapart before hbefore).scopes_nodup⟩

/-- A generator that is moved away and back, and a builder that goes on after a build. -/
theorem symbols_never_repeat_moves :
    let operations : List (Operation Id Bool) :=
      [.create, .issue 0, .moveOut 0, .issue 0, .issue 1, .assign 0 1, .assign 0 0, .issue 0,
        .issue 1, .createBuilder, .issueSymbol 0, .addRule 0 (.ofSymbol ⟨3, 0⟩), .build 0,
        .issueSymbol 0]
    let (symbols, after) := run operations {}
    (acquired operations {} < UInt64.size ∧ symbols.length < UInt64.size ∧
      symbols = [⟨0, 0⟩, ⟨1, 0⟩, ⟨0, 1⟩, ⟨0, 2⟩, ⟨2, 0⟩, ⟨3, 0⟩, ⟨4, 0⟩] ∧
      after.live.map (·.scope) = [0, 2, 4, 3]) ∧
    symbols.Nodup ∧ (after.live.map (·.scope)).Nodup := by
  intro operations
  have hscopes : acquired operations {} < UInt64.size := by decide
  have hsymbols : (run operations {}).1.length < UInt64.size := by decide
  obtain ⟨hnodup, hlive⟩ := symbols_never_repeat operations hscopes hsymbols
  exact ⟨⟨hscopes, hsymbols, rfl, rfl⟩, hnodup, hlive operations (List.prefix_refl _)⟩

end Workshop

end ShiftReduce
