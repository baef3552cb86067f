import ShiftReduce.Proofs.Agreement
import ShiftReduce.Proofs.Lexer.Integers
import ShiftReduce.Proofs.Lexer.Reentry

/-!
# Lexers of stock recognizers

The streams of a lexer ask two things of its recognizers: that they do not end in an error, and that
each success leaves a proper suffix of the input (`Recognizer.Reliable`). If they keep to this, a pull
never ends in an error (`Stream.run_next_of_reliable`), and all that can end the tokens of a text is a
complaint about it (`Lexer.raisesOnly_tokenize`).

Stock recognizers keep to it on every input that is not empty, because the offset they cut it at is
behind its first byte and not behind its end (`Recognizer.Stock.run_recognizer`). They need not know
what to do about an empty input: nobody asks them about one (`Stream.next_trapped`).

The tokens of stock recognizers are made by code of the caller, which may do with the state what it
likes as long as it ends with a token.
-/

namespace ShiftReduce

variable {τ ω t α : Type}

/-! ## Empty inputs -/

section Trap

variable {m : Type → Type}

/-- The same recognizer, but asked about an empty input it does something else. -/
def Recognizer.trapped (trap : m (Outcome τ)) (recognizer : Recognizer m τ) : Recognizer m τ
  | [] => trap
  | b :: rest => recognizer (b :: rest)

def Lexer.trapped (trap : m (Outcome τ)) (lexer : Lexer m τ) : Lexer m τ :=
  { lexer with recognizers := lexer.recognizers.map (Recognizer.trapped trap) }

theorem Lexer.recognize_trapped [Monad m] (trap : m (Outcome τ)) (lexer : Lexer m τ) (b : UInt8)
    (rest : Bytes) : (lexer.trapped trap).recognize (b :: rest) = lexer.recognize (b :: rest) := by
  unfold recognize trapped
  induction lexer.recognizers with
  | nil => rfl
  | cons recognizer others ih =>
    rw [List.map_cons, firstDecision, firstDecision, ih]
    rfl

end Trap

namespace Stream

variable (trap : Action (Scene Bool ω) (Outcome τ)) (lexer : Lexer (Action (Scene Bool ω)) τ)

theorem skipIgnored_trapped (index : Nat) (input : Bytes) :
    skipIgnored (lexer.trapped trap) index input = skipIgnored lexer index input := by
  induction input generalizing index with
  | nil => rfl
  | cons b rest ih => rw [skipIgnored, skipIgnored, Lexer.recognize_trapped, ih]

/-- What recognizers would do about an empty input makes no difference to a pull. -/
theorem next_trapped (s : Stream) : s.next (lexer.trapped trap) = s.next lexer := by
  rw [next, next, skipIgnored_trapped]
  rfl

theorem nextToken_trapped : nextToken (lexer.trapped trap) = nextToken lexer := by
  funext s
  rw [nextToken, nextToken, next_trapped]

end Stream

theorem Lexer.tokenize_trapped (trap : Action (Scene Bool ω) (Outcome τ))
    (lexer : Lexer (Action (Scene Bool ω)) τ) (text : Bytes) :
    (lexer.trapped trap).tokenize text = lexer.tokenize text := by
  rw [tokenize, tokenize, Stream.nextToken_trapped]

/-! ## Reliable recognizers -/

/-- About an input that is not empty the recognizer always has something to say, and its successes
leave proper suffixes. -/
def Recognizer.Reliable (recognizer : Recognizer (Action t) τ) : Prop :=
  ∀ input, input ≠ [] → ∀ state, ∃ outcome after,
    (recognizer input).run state = (.ok outcome, after) ∧
    ∀ token remainder, outcome = .success token remainder → remainder.IsProperSuffixOf input

theorem Lexer.DecideFirst.exists_run {input : Bytes} {decision : Except Error (Outcome τ)}
    {recognizers : List (Recognizer (Action t) τ)} {before after : t}
    (h : DecideFirst input decision recognizers before after) :
    ∃ recognizer ∈ recognizers, ∃ state, (recognizer input).run state = (decision, after) := by
  induction h with
  | here others hrun hne => exact ⟨_, List.mem_cons_self, _, hrun⟩
  | later hignored hothers ih =>
    obtain ⟨recognizer, hmem, hrun⟩ := ih
    exact ⟨recognizer, List.mem_cons_of_mem _ hmem, hrun⟩

section Reliable

variable {lexer : Lexer (Action (Scene Bool ω)) τ}
  (hreliable : ∀ recognizer ∈ lexer.recognizers, recognizer.Reliable)

include hreliable

namespace Stream

theorem not_failsAt_of_reliable {s : Stream} {before after : Scene Bool ω} {error : Error}
    {index : Nat} : ¬ s.FailsAt lexer before error index after := by
  intro h
  obtain ⟨between, decision, last, -, hdecide, hfaulty, -⟩ := h.decided
  have hne : s.text.drop index ≠ [] := by simpa using h.index_lt
  obtain ⟨recognizer, hmem, state, hrun⟩ := hdecide.exists_run
  obtain ⟨outcome, _, hok, hsuffix⟩ := hreliable recognizer hmem _ hne state
  rw [hrun] at hok
  cases hfaulty with
  | raised => cases hok
  | remainder token hremainder =>
    cases hok
    rw [(hsuffix _ _ rfl).consumedFrom_eq] at hremainder
    cases hremainder

/-- A pull from outside does not end in an error. -/
theorem run_next_of_reliable (s : Stream) {scene : Scene Bool ω} (hdown : scene.subject = false) :
    ∃ item? stream after, (s.next lexer).run scene = ({ result := .ok item?, stream }, after) ∧
      after.subject = false := by
  have hafter := (subject_next lexer s scene).trans hdown
  rcases hrun : (s.next lexer).run scene with ⟨⟨error | item?, stream⟩, after⟩
  · obtain ⟨index, hfails, -⟩ := exists_failsAt hdown hrun rfl
    exact absurd hfails (not_failsAt_of_reliable hreliable)
  · rw [hrun] at hafter
    exact ⟨item?, stream, after, rfl, hafter⟩

theorem raisesOnly_nextToken (s : Stream) :
    Action.RaisesOnly (·.subject = false) (∃ complaint, · = .lexical complaint)
      (s.nextToken lexer) := by
  intro scene hdown
  obtain ⟨item?, stream, after, hrun, hafter⟩ := s.run_next_of_reliable hreliable hdown
  have hnext : (s.nextToken lexer).run scene = _ := Action.run_bind_of_ok (Action.run_lift hrun)
  rw [hnext]
  rcases item? with _ | token | complaint
  · exact ⟨hafter, nofun⟩
  · exact ⟨hafter, nofun⟩
  · refine ⟨hafter, ?_⟩
    rintro _ ⟨⟩
    exact ⟨complaint, rfl⟩

theorem raisesOnly_collectTokensWithin (n : Nat) (s : Stream) :
    Action.RaisesOnly (·.subject = false) (∃ complaint, · = .lexical complaint)
      (collectTokensWithin (nextToken lexer) (fun token => pure [token]) n s) := by
  induction n generalizing s with
  | zero => exact .pure []
  | succ n ih =>
    rw [collectTokensWithin]
    refine (s.raisesOnly_nextToken hreliable).bind fun next => ?_
    rcases next with _ | ⟨token, stream⟩
    · exact .pure []
    · exact .bind (.pure [token]) fun here => (ih stream).bind fun later => .pure (here ++ later)

end Stream

/-- From outside, tokenizing a text ends in no error but a complaint about the text. -/
theorem Lexer.raisesOnly_tokenize (text : Bytes) :
    Action.RaisesOnly (·.subject = false) (∃ complaint, · = .lexical complaint)
      (lexer.tokenize text) :=
  Stream.raisesOnly_collectTokensWithin hreliable _ _

end Reliable

/-! ## What stock recognizers take -/

/-- A success, if that is the outcome, takes the first `n` bytes of the input, and at least one. -/
def Outcome.Takes (outcome : Outcome τ) (input : Bytes) (n : Nat) : Prop :=
  ∀ token remainder, outcome = .success token remainder →
    remainder = .after input n ∧ 0 < n ∧ n ≤ input.length

namespace Recognizer

theorem keyword_takes (words : List (Bytes × τ)) (input : Bytes) :
    (keyword words input).run.Takes input (Ascii.spanEnd Ascii.isAlpha input) := by
  intro token remainder h
  simp only [keyword] at h
  split at h
  · cases h
  · rename_i hrun
    split at h
    · cases h
      exact ⟨rfl, Nat.pos_of_ne_zero hrun, Ascii.spanEnd_le (Nat.zero_le _)⟩
    · cases h

theorem identifier_takes (make : Bytes → τ) (input : Bytes) :
    (identifier make input).run.Takes input (Ascii.spanEnd Ascii.isAlnum input 1) := by
  intro token remainder h
  cases input with
  | nil => cases h
  | cons first rest =>
    simp only [identifier] at h
    split at h
    · cases h
      have hfirst : 1 ≤ (first :: rest).length := Nat.succ_pos _
      exact ⟨rfl, Nat.le_add_right 1 _, Ascii.spanEnd_le hfirst⟩
    · cases h

theorem integer_takes (type : IntegerType) (make : Nat → τ) (input : Bytes) :
    (integer type make input).run.Takes input (Ascii.spanEnd Ascii.isDigit input) := by
  intro token remainder h
  rw [run_integer] at h
  split at h
  · cases h
  · rename_i hrun
    split at h
    · cases h
      exact ⟨rfl, Nat.pos_of_ne_zero hrun, Ascii.spanEnd_le (Nat.zero_le _)⟩
    · cases h

theorem quoted_takes (make : Bytes → τ) (quote : UInt8) (input : Bytes) :
    (quoted make quote input).run.Takes input
      ((input.tail.takeWhile (· != quote)).length + 2) := by
  intro token remainder h
  cases input with
  | nil => cases h
  | cons first text =>
    simp only [quoted] at h
    split at h
    · split at h
      · rename_i hclosed
        cases h
        exact ⟨rfl, Nat.succ_pos _, Nat.succ_le_succ hclosed⟩
      · cases h
    · cases h

theorem character_takes (table : List (UInt8 × τ)) (input : Bytes) :
    (character table input).run.Takes input 1 := by
  intro token remainder h
  cases input with
  | nil => cases h
  | cons first rest =>
    simp only [character] at h
    split at h
    · cases h
      exact ⟨rfl, Nat.one_pos, Nat.succ_pos _⟩
    · cases h

theorem byteClass_takes (accept : UInt8 → Bool) (make : UInt8 → τ) (input : Bytes) :
    (byteClass accept make input).run.Takes input 1 := by
  intro token remainder h
  cases input with
  | nil => cases h
  | cons first rest =>
    simp only [byteClass] at h
    split at h
    · cases h
      exact ⟨rfl, Nat.one_pos, Nat.succ_pos _⟩
    · cases h

/-! ## Tokens made by code of the caller -/

/-- The recognizer with its tokens handed to code that makes other tokens of them. -/
def making (recognizer : Recognizer Id α) (make : α → StateM t τ) : Recognizer (Action t) τ :=
  fun input =>
    match (recognizer input).run with
    | .success a remainder => do
      let token ← (make a : StateM t τ)
      pure (.success token remainder)
    | .ignored => pure .ignored
    | .failed message => pure (.failed message)

/-- The code changes nothing about what is taken. -/
theorem run_making {recognizer : Recognizer Id α} {input : Bytes} {n : Nat}
    (h : (recognizer input).run.Takes input n) (make : α → StateM t τ) (state : t) :
    ∃ outcome after, (recognizer.making make input).run state = (.ok outcome, after) ∧
      outcome.Takes input n := by
  unfold making
  rcases hrun : (recognizer input).run with ⟨a, remainder⟩ | _ | message
  · rcases hmake : (make a).run state with ⟨token, after⟩
    refine ⟨.success token remainder, after, ?_, ?_⟩
    · exact Action.run_bind_of_ok (Action.run_lift hmake)
    · rintro _ _ ⟨⟩
      exact h a remainder hrun
  · exact ⟨.ignored, state, rfl, nofun⟩
  · exact ⟨.failed message, state, rfl, nofun⟩

/-- A stock recognizer with all that it is made from. Code of the caller makes the tokens and says
which single bytes are accepted; it has a state and ends with an answer. -/
inductive Stock (t τ : Type) where
  | keyword (words : List (Bytes × τ))
  | identifier (make : Bytes → StateM t τ)
  | integer (type : IntegerType) (make : Nat → StateM t τ)
  | quoted (make : Bytes → StateM t τ) (quote : UInt8)
  | character (table : List (UInt8 × τ))
  | byteClass (accept : UInt8 → StateM t Bool) (make : UInt8 → StateM t τ)

namespace Stock

def recognizer : Stock t τ → Recognizer (Action t) τ
  | keyword words => (Recognizer.keyword words).making pure
  | identifier make => (Recognizer.identifier id).making make
  | integer type make => (Recognizer.integer type id).making make
  | quoted make quote => (Recognizer.quoted id quote).making make
  | character table => (Recognizer.character table).making pure
  | byteClass accept make => fun input =>
    match input with
    | [] => pure .ignored
    | first :: _ => do
      let accepted ← (accept first : StateM t Bool)
      (Recognizer.byteClass (fun _ => accepted) id).making make input

/-- The offset at which a success cuts the input. -/
def taken (input : Bytes) : Stock t τ → Nat
  | keyword _ => Ascii.spanEnd Ascii.isAlpha input
  | identifier _ => Ascii.spanEnd Ascii.isAlnum input 1
  | integer _ _ => Ascii.spanEnd Ascii.isDigit input
  | quoted _ quote => (input.tail.takeWhile (· != quote)).length + 2
  | character _ => 1
  | byteClass _ _ => 1

theorem run_recognizer (stock : Stock t τ) (input : Bytes) (state : t) :
    ∃ outcome after, (stock.recognizer input).run state = (.ok outcome, after) ∧
      outcome.Takes input (stock.taken input) := by
  cases stock with
  | keyword words => exact run_making (keyword_takes words input) _ state
  | identifier make => exact run_making (identifier_takes id input) make state
  | integer type make => exact run_making (integer_takes type id input) make state
  | quoted make quote => exact run_making (quoted_takes id quote input) make state
  | character table => exact run_making (character_takes table input) _ state
  | byteClass accept make =>
    cases input with
    | nil => exact ⟨.ignored, state, rfl, nofun⟩
    | cons first rest =>
      rcases haccept : (accept first).run state with ⟨accepted, between⟩
      have htakes := byteClass_takes (fun _ => accepted) id (first :: rest)
      obtain ⟨outcome, after, hrun, houtcome⟩ := run_making htakes make between
      exact ⟨outcome, after,
        (Action.run_bind_of_ok (Action.run_lift haccept)).trans hrun, houtcome⟩

theorem reliable (stock : Stock t τ) : stock.recognizer.Reliable := by
  intro input hne state
  obtain ⟨outcome, after, hrun, htakes⟩ := stock.run_recognizer input state
  refine ⟨outcome, after, hrun, ?_⟩
  intro token remainder hsuccess
  obtain ⟨rfl, hpos, -⟩ := htakes token remainder hsuccess
  exact .after hne hpos

end Stock

end Recognizer

/-! ## Lexers -/

namespace Lexer

open Recognizer (Stock)

def ofStock (stocks : List (Stock t τ)) (tabs : TabStops) : Lexer (Action t) τ :=
  { recognizers := stocks.map Stock.recognizer, tabs }

theorem reliable_of_mem_ofStock {stocks : List (Stock t τ)} {tabs : TabStops} :
    ∀ recognizer ∈ (ofStock stocks tabs).recognizers, recognizer.Reliable := by
  intro recognizer hmem
  obtain ⟨stock, -, rfl⟩ := List.mem_map.1 hmem
  exact stock.reliable

/-- A lexer of stock recognizers, whatever they are made from and in whatever order they stand, does
not go wrong. About an input that is not empty each of them has something to say, and where it
succeeds it cuts the input behind its first byte and not behind its end, so that the stream agrees
with it on how much was taken. Nobody asks them about an empty input: whatever they would do then,
pulls and tokenizing are the same. From outside, no pull of any stream ends in an error, and
tokenizing ends with the tokens of the text or with a complaint about it. -/
theorem ofStock_keeps_contract (stocks : List (Stock (Scene Bool ω) τ)) (tabs : TabStops) :
    let lexer := ofStock stocks tabs
    (∀ stock ∈ stocks, ∀ input, input ≠ [] → ∀ scene, ∃ outcome after,
      (stock.recognizer input).run scene = (.ok outcome, after) ∧
      ∀ token remainder, outcome = .success token remainder →
        0 < stock.taken input ∧ stock.taken input ≤ input.length ∧
        remainder = .after input (stock.taken input) ∧
        remainder.consumedFrom input = .ok (stock.taken input)) ∧
    (∀ trap, (∀ s, Stream.next (lexer.trapped trap) s = s.next lexer) ∧
      ∀ text, (lexer.trapped trap).tokenize text = lexer.tokenize text) ∧
    ∀ scene, scene.subject = false →
      (∀ s, ∃ item? stream after,
        (Stream.next lexer s).run scene = ({ result := .ok item?, stream }, after) ∧
        after.subject = false) ∧
      ∀ text, ∃ after, after.subject = false ∧
        ((∃ tokens, (lexer.tokenize text).run scene = (.ok tokens, after)) ∨
          ∃ complaint, (lexer.tokenize text).run scene = (.error (.lexical complaint), after)) := by
  intro lexer
  refine ⟨?_, ?_, ?_⟩
  · intro stock _ input hne scene
    obtain ⟨outcome, after, hrun, htakes⟩ := stock.run_recognizer input scene
    refine ⟨outcome, after, hrun, ?_⟩
    intro token remainder hsuccess
    obtain ⟨rfl, hpos, hle⟩ := htakes token remainder hsuccess
    have hconsumed := (Remainder.IsProperSuffixOf.after hne hpos).consumedFrom_eq
    rw [Remainder.after, List.length_drop, Nat.sub_sub_self hle] at hconsumed
    exact ⟨hpos, hle, rfl, hconsumed⟩
  · intro trap
    exact ⟨Stream.next_trapped trap lexer, lexer.tokenize_trapped trap⟩
  · intro scene hdown
    refine ⟨fun s => s.run_next_of_reliable reliable_of_mem_ofStock hdown, ?_⟩
    intro text
    obtain ⟨hafter, hcomplaint⟩ := raisesOnly_tokenize reliable_of_mem_ofStock text scene hdown
    refine ⟨((lexer.tokenize text).run scene).2, hafter, ?_⟩
    rcases hrun : (lexer.tokenize text).run scene with ⟨error | tokens, after⟩
    · obtain ⟨complaint, rfl⟩ := hcomplaint error (congrArg Prod.fst hrun)
      exact .inr ⟨complaint, rfl⟩
    · exact .inl ⟨tokens, rfl⟩

/-- Identifiers, counted as they are made, and quoted text. The count stays when the last quote is
found open. -/
example :
    let lexer : Lexer (Action (Scene Bool Nat)) Bytes := ofStock
      [.identifier fun text => do
        modify fun scene => { scene with world := scene.world + 1 }
        pure text,
       .quoted pure 0x27] .standard
    let run (text : String) := (lexer.tokenize (.ofAscii text)).run { subject := false, world := 0 }
    (run "ab 'c' d").1.toOption = some [.ofAscii "ab", .ofAscii "c", .ofAscii "d"] ∧
      (run "ab 'c' d").2.world = 2 ∧ (run "ab 'c").1.toOption = none ∧ (run "ab 'c").2.world = 1 := by
  refine ⟨rfl, rfl, rfl, rfl⟩

end Lexer

end ShiftReduce
