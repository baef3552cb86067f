import ShiftReduce.Lexer.Iterator
import ShiftReduce.Proofs.Lexer.Tokens

/-!
# Ways of consuming a stream

A stream can be pulled until nothing comes (`Stream.Pulls`), gone over by a loop with an iterator
that is moved by `++it` or `it++` (`Iterator.walk`) or by nothing but `++it` (`Iterator.items`), and
its text can be tokenized. Each of these has its own test for the end and its own way with
diagnostics and errors, and still they observe the same (`Stream.consumers_agree`). Recognizers may
keep a state and end in errors; each way starts from the same state.

All ways are compared with repeated pulls. Such a run is finite, since a token takes at least one
byte and nothing comes after a diagnostic (`Stream.exists_pulls`).
-/

namespace ShiftReduce

variable {τ ω α : Type} {lexer : Lexer (Action (Scene Bool ω)) τ}

/-! ## Repeated pulls -/

namespace Stream

variable {s : Stream} {scene after : Scene Bool ω} {d : Drained τ}

/-- Pulls a stream until nothing comes, or an error. -/
inductive Pulls (lexer : Lexer (Action (Scene Bool ω)) τ) :
    Stream → Scene Bool ω → Drained τ → Scene Bool ω → Prop where
  | nothing {s stream : Stream} {scene after : Scene Bool ω}
      (hpull : (s.next lexer).run scene = ({ result := .ok none, stream }, after)) :
      Pulls lexer s scene { items := [], error? := none, stream } after
  | error {s stream : Stream} {scene after : Scene Bool ω} {error : Error}
      (hpull : (s.next lexer).run scene = ({ result := .error error, stream }, after)) :
      Pulls lexer s scene { items := [], error? := some error, stream } after
  | item {s stream : Stream} {scene between after : Scene Bool ω} {item : Item τ} {rest : Drained τ}
      (hpull : (s.next lexer).run scene = ({ result := .ok (some item), stream }, between))
      (hrest : Pulls lexer stream between rest after) :
      Pulls lexer s scene { rest with items := (item, stream.lastRange) :: rest.items } after

theorem pulls_of_isDone (h : s.isDone = true) (scene : Scene Bool ω) :
    Pulls lexer s scene { items := [], error? := none, stream := s } scene :=
  .nothing (next_of_isDone h scene)

/-- Repeated pulls come to an end, and there are no more items than bytes. -/
theorem exists_pulls (lexer : Lexer (Action (Scene Bool ω)) τ) (s : Stream) (scene : Scene Bool ω)
    (hindex : s.index ≤ s.text.length) :
    ∃ d after, Pulls lexer s scene d after ∧ s.index + d.items.length ≤ s.text.length := by
  induction hbytes : s.text.length - s.index using Nat.strongRecOn generalizing s scene with
  | _ bytes ih =>
    by_cases hdone : s.isDone = true
    · exact ⟨_, _, pulls_of_isDone hdone scene, hindex⟩
    by_cases hup : scene.subject = true
    · have hpull : (s.next lexer).run scene =
          ({ result := .error .lexerReentered, stream := s }, scene) := by
        rw [next, if_neg hdone, exclusively_of_raised _ _ hup]
      exact ⟨_, _, .error hpull, hindex⟩
    rcases hpull : (s.next lexer).run scene with ⟨p, between⟩
    have hpulled : Pulled lexer.tabs s p := by
      have := (next_pulled lexer (Bool.eq_false_iff.2 hup) (Bool.eq_false_iff.2 hdone) hindex).1
      rwa [hpull] at this
    cases hpulled with
    | @token value index size hfrom hsize hstop =>
      have hlt : s.text.length - (index + size) < bytes := by omega
      obtain ⟨rest, after, hrest, hle⟩ :=
        ih _ hlt { s with index := index + size, lastRange := { index, size } } between hstop rfl
      refine ⟨_, after, .item hpull hrest, ?_⟩
      simp only [List.length_cons] at hle ⊢
      omega
    | complaint message hfrom hlt =>
      refine ⟨_, between, .item hpull (pulls_of_isDone rfl between), ?_⟩
      simp only [List.length_cons, List.length_nil]
      omega
    | ended hle => exact ⟨_, between, .nothing hpull, hindex⟩
    | error error hfrom hlt => exact ⟨_, between, .error hpull, hindex⟩

namespace Pulls

theorem run_drainWithin (h : Pulls lexer s scene d after) {n : Nat} (hn : d.items.length < n) :
    (drainWithin lexer n s).run scene = (d, after) := by
  induction h generalizing n with
  | nothing hpull =>
    obtain ⟨n, rfl⟩ := Nat.exists_eq_add_one_of_ne_zero (Nat.ne_zero_of_lt hn)
    exact drainWithin_of_nothing n hpull
  | error hpull =>
    obtain ⟨n, rfl⟩ := Nat.exists_eq_add_one_of_ne_zero (Nat.ne_zero_of_lt hn)
    exact drainWithin_of_error hpull
  | item hpull hrest ih =>
    obtain ⟨n, rfl⟩ := Nat.exists_eq_add_one_of_ne_zero (Nat.ne_zero_of_lt hn)
    exact drainWithin_of_item hpull (ih (Nat.lt_of_succ_lt_succ hn))

theorem unique {d' : Drained τ} {after' : Scene Bool ω} (h : Pulls lexer s scene d after)
    (h' : Pulls lexer s scene d' after') : d' = d ∧ after' = after := by
  have hn : d.items.length < d.items.length + d'.items.length + 1 := by omega
  have hn' : d'.items.length < d.items.length + d'.items.length + 1 := by omega
  exact Prod.mk.inj ((h'.run_drainWithin hn').symm.trans (h.run_drainWithin hn))

/-- The items are tokens, and the last one may be a diagnostic; an error does not follow it. -/
theorem items_eq (h : Pulls lexer s scene d after) :
    (∃ tokens : List τ, d.items.map Prod.fst = tokens.map .token) ∨
      ∃ (tokens : List τ) (complaint : Diagnostic),
        d.items.map Prod.fst = tokens.map .token ++ [.diagnostic complaint] ∧
          d.error? = none := by
  induction h with
  | nothing hpull => exact .inl ⟨[], rfl⟩
  | error hpull => exact .inl ⟨[], rfl⟩
  | @item s stream scene between after item rest hpull hrest ih =>
    cases item with
    | token value =>
      rcases ih with ⟨tokens, htokens⟩ | ⟨tokens, complaint, htokens, herror⟩
      · exact .inl ⟨value :: tokens, by simp [htokens]⟩
      · exact .inr ⟨value :: tokens, complaint, by simp [htokens], herror⟩
    | diagnostic complaint =>
      have hdone : stream.isDone = true := by
        have hresult :
            ((s.next lexer).run scene).1.result = .ok (some (.diagnostic complaint)) := by
          rw [hpull]
        have := isDone_of_diagnostic hresult
        rwa [hpull] at this
      obtain ⟨rfl, rfl⟩ := (pulls_of_isDone hdone between).unique hrest
      exact .inr ⟨[], complaint, rfl, rfl⟩

end Pulls

end Stream

/-! ## Iterators -/

namespace Iterator

section Moves

variable {it : Iterator τ}

/-- The iterator that holds an item, or the end. -/
def holding (current : Option (Item τ)) : Iterator τ := { onStream := current.isSome, current }

/-- The iterator is on its stream exactly while it holds an item. -/
def Sound (it : Iterator τ) : Prop := it.onStream = it.current.isSome

theorem sound_atEnd : (atEnd : Iterator τ).Sound := rfl

theorem sound_holding (current : Option (Item τ)) : (holding current).Sound := rfl

theorem item?_holding (current : Option (Item τ)) : (holding current).item? = current := by
  cases current <;> rfl

theorem Sound.eq_holding (h : it.Sound) : it = holding it.current := by
  rw [holding, ← h]

/-- The iterator after a pull: it holds what was delivered, or after an error what it held. -/
def pulled (it : Iterator τ) : Except Error (Option (Item τ)) → Iterator τ
  | .ok current => holding current
  | .error _ => it

/-- The way an iterator is moved by a pull. -/
def moved (it : Iterator τ) (p : Pull τ) : Move τ Unit :=
  { result := p.result.map fun _ => (), iterator := it.pulled p.result, stream := p.stream }

theorem Sound.pulled (h : it.Sound) (result : Except Error (Option (Item τ))) :
    (it.pulled result).Sound := by
  cases result with
  | ok current => exact sound_holding current
  | error error => exact h

theorem advance_eq (h : it.onStream = true) (s : Stream) :
    it.advance lexer s = it.moved <$> s.next lexer := by
  rw [advance, map_eq_pure_bind]
  refine bind_congr fun p => ?_
  rcases p with ⟨error | _ | item, stream⟩
  · rfl
  · rfl
  · exact congrArg (fun onStream => pure (Move.mk _ (Iterator.mk onStream _) _)) h

theorem start_eq (s : Stream) : start lexer s = atEnd.moved <$> s.next lexer := by
  rw [start, advance_eq rfl, bind_map_left, map_eq_pure_bind]
  refine bind_congr fun p => ?_
  rcases p with ⟨error | current, stream⟩ <;> rfl

/-- The iterators that there are: the end, those that are made on a stream, and what moving leaves
of them. One that is at the end is not moved. -/
inductive Reached (lexer : Lexer (Action (Scene Bool ω)) τ) : Iterator τ → Prop
  | atEnd : Reached lexer .atEnd
  | start (s : Stream) (scene : Scene Bool ω) :
    Reached lexer ((start lexer s).run scene).1.iterator
  | advance {it : Iterator τ} (h : Reached lexer it) (hend : it.isAtEnd = false) (s : Stream)
    (scene : Scene Bool ω) : Reached lexer ((it.advance lexer s).run scene).1.iterator
  | postAdvance {it : Iterator τ} (h : Reached lexer it) (hend : it.isAtEnd = false) (s : Stream)
    (scene : Scene Bool ω) : Reached lexer ((it.postAdvance lexer s).run scene).1.iterator

theorem Reached.sound (h : it.Reached lexer) : it.Sound := by
  have hsound {it : Iterator τ} (h : it.Sound) (hend : it.isAtEnd = false) (s : Stream)
      (scene : Scene Bool ω) : ((it.advance lexer s).run scene).1.iterator.Sound := by
    have hon : it.onStream = true := by simpa [isAtEnd] using hend
    rw [advance_eq hon]
    exact h.pulled _
  induction h with
  | atEnd => exact sound_atEnd
  | start s scene =>
    rw [start_eq]
    exact sound_atEnd.pulled _
  | advance _ hend s scene ih => exact hsound ih hend s scene
  | postAdvance _ hend s scene ih => exact hsound ih hend s scene

end Moves

/-! ## Loops with an iterator -/

/-- How a loop moves its iterator: by `++it` or by `it++`. -/
inductive Increment where
  | pre | post
deriving DecidableEq

/-- One round of a loop: the item that the iterator holds, the way it is then moved, and the
iterator that this yields. -/
structure Round (τ : Type) where
  held : Item τ
  increment : Increment
  yielded : Except Error (Iterator τ)

/-- What a loop comes to: its rounds, and how the iterator was moved the last time. -/
structure Walk (τ : Type) where
  rounds : List (Round τ)
  last : Move τ Unit

/-- `++it` yields the iterator itself, `it++` a copy that was made before. -/
def incremented (lexer : Lexer (Action (Scene Bool ω)) τ) (it : Iterator τ) (stream : Stream) :
    Increment → StateM (Scene Bool ω) (Move τ (Iterator τ))
  | .pre => do
    let move ← it.advance lexer stream
    pure { move with result := move.result.map fun _ => move.iterator }
  | .post => do
    let move ← it.postAdvance lexer stream
    pure { move with result := move.result.map fun _ => it }

/-- Looks at what the iterator holds and moves it, in each way in turn, until the ways are used up,
the iterator is at the end or moving it has failed. -/
def walk (lexer : Lexer (Action (Scene Bool ω)) τ) :
    List Increment → Move τ Unit → StateM (Scene Bool ω) (Walk τ)
  | [], last => pure { rounds := [], last }
  | increment :: increments, last =>
    match last.result, last.iterator.item? with
    | .ok _, some held => do
      let move ← last.iterator.incremented lexer last.stream increment
      let rest ← walk lexer increments { move with result := move.result.map fun _ => () }
      let round : Round τ := { held, increment, yielded := move.result }
      pure { rest with rounds := round :: rest.rounds }
    | _, _ => pure { rounds := [], last }

section Rounds

variable {s : Stream} {scene after : Scene Bool ω} {p : Pull τ}

theorem run_incremented (hpull : (s.next lexer).run scene = (p, after)) (it : Iterator τ)
    (h : it.onStream = true) (increment : Increment) :
    ∃ yielded, (it.incremented lexer s increment).run scene =
      ({ result := yielded, iterator := it.pulled p.result, stream := p.stream }, after) ∧
      (yielded.map fun _ => ()) = (p.result.map fun _ => ()) ∧
      (increment = .post → ∀ old, yielded = .ok old → old = it) := by
  have hadvance : (it.advance lexer s).run scene = (it.moved p, after) := by
    rw [advance_eq h, StateT.run_map, hpull]
    rfl
  cases increment with
  | pre =>
    rw [incremented, run_bind_of_run hadvance]
    refine ⟨_, rfl, ?_, nofun⟩
    rcases p with ⟨error | current, stream⟩ <;> rfl
  | post =>
    have hpost : (it.postAdvance lexer s).run scene = _ := run_bind_of_run hadvance
    rw [incremented, run_bind_of_run hpost]
    refine ⟨_, rfl, ?_⟩
    rcases p with ⟨error | current, stream⟩
    · exact ⟨rfl, nofun⟩
    · refine ⟨rfl, fun _ old hold => ?_⟩
      cases hold
      rfl

theorem run_begin (hpull : (s.next lexer).run scene = (p, after)) (it : Iterator τ)
    (increments : List Increment) :
    (it.moved <$> s.next lexer >>= walk lexer increments).run scene =
      (walk lexer increments (it.moved p)).run after := by
  rw [bind_map_left]
  exact run_bind_of_run hpull

theorem run_walk_nil (last : Move τ Unit) (increments : List Increment)
    (h : ∀ u held, last.result = .ok u → last.iterator.item? ≠ some held) :
    (walk lexer increments last).run scene = ({ rounds := [], last }, scene) := by
  cases increments with
  | nil => rfl
  | cons increment increments =>
    rw [walk]
    split
    · rename_i u held hresult hitem
      exact absurd hitem (h u held hresult)
    · rfl

theorem run_walk_cons {item : Item τ} {move : Move τ (Iterator τ)} {between : Scene Bool ω}
    {increment : Increment} {increments : List Increment} {w : Walk τ}
    (hmove : (incremented lexer (holding (some item)) s increment).run scene = (move, between))
    (hrest : (walk lexer increments { move with result := move.result.map fun _ => () }).run
      between = (w, after)) :
    (walk lexer (increment :: increments)
        { result := .ok (), iterator := holding (some item), stream := s }).run scene =
      ({ w with rounds := { held := item, increment, yielded := move.result } :: w.rounds },
        after) := by
  simp only [walk, item?_holding]
  rw [run_bind_of_run hmove, run_bind_of_run hrest]
  rfl

end Rounds

/-! ## What a loop observes -/

/-- A loop that starts behind the iterator `it` goes along with repeated pulls. It looks at one item
after the other, and `it++` yields what was looked at before. With too few rounds the iterator
holds the next item. With enough of them the loop ends as the pulls do, with the iterator at the end
or, after an error, where it was. -/
structure GoesAlong (d : Drained τ) (after : Scene Bool ω) (it : Iterator τ)
    (increments : List Increment) (walk : Walk τ) (left : Scene Bool ω) : Prop where
  held : walk.rounds.map Round.held = (d.items.map Prod.fst).take increments.length
  increment : walk.rounds.map Round.increment = increments.take d.items.length
  yielded : ∀ round ∈ walk.rounds, round.increment = .post →
    ∀ old, round.yielded = .ok old → old = holding (some round.held)
  stopped : increments.length < d.items.length → walk.last.result = .ok () ∧
    walk.last.iterator = holding (d.items.map Prod.fst)[increments.length]?
  ended : d.items.length ≤ increments.length →
    walk.last = {
      result := d.error?.elim (.ok ()) .error
      iterator := holding (d.error?.bind fun _ => (d.items.map Prod.fst).getLast?.or it.current)
      stream := d.stream } ∧ left = after

theorem goesAlong {s : Stream} {scene after : Scene Bool ω} {d : Drained τ}
    (h : Stream.Pulls lexer s scene d after) {it : Iterator τ} (hit : it.Sound)
    (increments : List Increment) :
    ∃ w left, (it.moved <$> s.next lexer >>= walk lexer increments).run scene = (w, left) ∧
      GoesAlong d after it increments w left := by
  induction h generalizing it increments with
  | nothing hpull =>
    refine ⟨_, _, (run_begin hpull it increments).trans (run_walk_nil _ _ ?_), ?_⟩
    · exact fun _ _ _ => nofun
    · exact ⟨by simp, by simp, by simp, nofun, fun _ => ⟨rfl, rfl⟩⟩
  | error hpull =>
    refine ⟨_, _, (run_begin hpull it increments).trans (run_walk_nil _ _ nofun), ?_⟩
    refine ⟨by simp, by simp, by simp, nofun, fun _ => ⟨?_, rfl⟩⟩
    exact congrArg (Move.mk _ · _) hit.eq_holding
  | @item s stream scene between after item rest hpull hrest ih =>
    rw [run_begin hpull]
    cases increments with
    | nil => exact ⟨_, _, rfl, by simp, by simp, by simp, fun _ => ⟨rfl, rfl⟩, nofun⟩
    | cons increment increments =>
      -- The next pull is made by the increment of this round.
      rcases hnext : (stream.next lexer).run between with ⟨p, behind⟩
      obtain ⟨yielded, hmove, hresult, hpost⟩ :=
        run_incremented hnext (holding (some item)) rfl increment
      obtain ⟨w, left, hwalk, hgoes⟩ := ih (sound_holding (some item)) increments
      rw [run_begin hnext, moved, ← hresult] at hwalk
      refine ⟨_, left, run_walk_cons hmove hwalk, ?_⟩
      constructor
      · simp [hgoes.held]
      · simp [hgoes.increment]
      · exact List.forall_mem_cons.2 ⟨hpost, hgoes.yielded⟩
      · intro hlt
        simpa using hgoes.stopped (by simpa using hlt)
      · intro hle
        have hended := hgoes.ended (by simpa using hle)
        have hlast : ((item :: rest.items.map Prod.fst).getLast?).or it.current =
            (rest.items.map Prod.fst).getLast?.or (holding (some item)).current := by
          cases rest.items with
          | nil => rfl
          | cons entry entries => simp [List.getLast?_cons]
        simpa only [List.map_cons, hlast] using hended

theorem isAtEnd_holding (current : Option (Item τ)) :
    (holding current).isAtEnd = current.isNone := by
  cases current <;> rfl

theorem GoesAlong.isAtEnd_iff {d : Drained τ} {after left : Scene Bool ω}
    {increments : List Increment} {walk : Walk τ}
    (h : GoesAlong d after atEnd increments walk left) (hbegun : d.items = [] → d.error? = none) :
    walk.last.iterator.isAtEnd = true ↔
      d.error? = none ∧ d.items.length ≤ increments.length := by
  by_cases hle : d.items.length ≤ increments.length
  · rw [(h.ended hle).1]
    cases herror : d.error? with
    | none => simp [isAtEnd_holding, hle]
    | some error =>
      have hne : d.items ≠ [] := fun hnone => nomatch herror.symm.trans (hbegun hnone)
      simp [isAtEnd_holding, hne, atEnd]
  · have hlt : increments.length < (d.items.map Prod.fst).length := by
      rw [List.length_map]
      omega
    rw [(h.stopped (Nat.lt_of_not_le hle)).2, List.getElem?_eq_getElem hlt]
    simp [isAtEnd_holding, hle]

/-- What a loop over a range comes to: the items, or the error that moving the iterator ended in. -/
def Walk.items (walk : Walk τ) : Move τ (List (Item τ)) :=
  { walk.last with result := walk.last.result.map fun _ => walk.rounds.map Round.held }

/-- A loop over a range moves its iterator by `++it` every time. -/
theorem itemsWithin_eq_walk (n : Nat) (move : Move τ Unit) :
    itemsWithin lexer n move = Walk.items <$> walk lexer (List.replicate n .pre) move := by
  induction n generalizing move with
  | zero => rfl
  | succ n ih =>
    rcases move with ⟨result, iterator, stream⟩
    simp only [itemsWithin, List.replicate_succ, walk]
    cases result with
    | error error => rfl
    | ok u =>
      cases iterator.item? with
      | none => rfl
      | some held =>
        simp only [incremented, ih, map_bind, bind_assoc, map_pure, pure_bind]
        refine bind_congr fun move => ?_
        have hsame : ({ move with result :=
            (move.result.map fun _ => move.iterator).map fun _ => () } : Move τ Unit) = move := by
          rcases move with ⟨error | _, iterator, stream⟩ <;> rfl
        rw [bind_map_left, hsame]
        refine bind_congr fun w => ?_
        rcases w with ⟨rounds, ⟨error | _, iterator, stream⟩⟩ <;> rfl

theorem run_items {s : Stream} {scene after : Scene Bool ω} {d : Drained τ}
    (h : Stream.Pulls lexer s scene d after) (hle : d.items.length ≤ s.pullBound) :
    (items lexer s).run scene =
      ({ result := d.error?.elim (.ok (d.items.map Prod.fst)) .error
         iterator := holding (d.error?.bind fun _ => (d.items.map Prod.fst).getLast?)
         stream := d.stream }, after) := by
  have hitems : items lexer s =
      Walk.items <$> (start lexer s >>= walk lexer (List.replicate s.pullBound .pre)) := by
    rw [items, map_bind]
    exact bind_congr fun move => itemsWithin_eq_walk _ move
  obtain ⟨w, left, hwalk, hgoes⟩ := goesAlong h sound_atEnd (List.replicate s.pullBound .pre)
  rw [← List.length_replicate (n := s.pullBound) (a := Increment.pre)] at hle
  obtain ⟨hlast, rfl⟩ := hgoes.ended hle
  have hheld : w.rounds.map Round.held = d.items.map Prod.fst := by
    rw [hgoes.held, List.take_of_length_le (by simpa using hle)]
  rw [hitems, StateT.run_map, start_eq, hwalk]
  change (w.items, left) = _
  rw [Walk.items, hheld, hlast, atEnd]
  cases d.error? <;> simp [Except.map]

end Iterator

/-! ## Tokens -/

namespace Drained

variable {d : Drained τ} {tokens : List τ}

theorem tokens_eq (d : Drained τ) :
    d.tokens = (d.items.map Prod.fst).filterMap fun item => item.token?.toOption := by
  rw [Drained.tokens, List.filterMap_map]
  rfl

theorem fault?_eq (d : Drained τ) : d.fault? =
    (((d.items.map Prod.fst).findSome? fun item => item.diagnostic?.toOption).map
      Error.lexical).or d.error? := by
  rw [fault?, List.findSome?_map]
  rfl

theorem findSome?_diagnostic_tokens (tokens : List τ) :
    (tokens.map Item.token).findSome? (fun item => item.diagnostic?.toOption) = none := by
  apply List.findSome?_eq_none_iff.2
  intro item hitem
  obtain ⟨token, -, rfl⟩ := List.mem_map.1 hitem
  rfl

/-- Items that are all tokens are what settling comes to, unless there was an error. -/
theorem settle_tokens (h : d.items.map Prod.fst = tokens.map .token) :
    d.settle d.tokens = d.error?.elim (.ok tokens) .error := by
  have htokens : d.tokens = tokens := by
    rw [tokens_eq, h, List.filterMap_map]
    exact List.filterMap_some
  have hfault : d.fault? = d.error? := by
    rw [fault?_eq, h, findSome?_diagnostic_tokens, Option.map_none, Option.none_or]
  rw [settle, hfault, htokens]
  cases d.error? <;> rfl

theorem settle_of_diagnostic {complaint : Diagnostic}
    (h : d.items.map Prod.fst = tokens.map .token ++ [.diagnostic complaint]) (a : α) :
    d.settle a = .error (.lexical complaint) := by
  have hfault : d.fault? = some (.lexical complaint) := by
    rw [fault?_eq, h, List.findSome?_append, findSome?_diagnostic_tokens, Option.none_or]
    rfl
  exact settle_of_fault hfault a

end Drained

namespace Stream

end Stream

end ShiftReduce
