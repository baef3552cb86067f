import ShiftReduce.Lexer.Stream

/-!
# Using a stream from outside

A stream of a lexer with arbitrary recognizers, used in any way from outside of them. Whatever the
recognizers answer, a pull of a stream that goes on does one of four things (`Stream.Pulled`): it
delivers a token or a diagnostic, finds the end of the text, or ends in an error.

`Stream.Session` is the stream together with what can change around it: the tab stops of its lexer
and the state that its recognizers keep. What every use keeps holds after all uses
(`Stream.Session.after_induction`).
-/

namespace ShiftReduce.Stream

/-! ## What one pull does -/

section Pull

variable {τ ω : Type} {lexer : Lexer (Action (Scene Bool ω)) τ} {s : Stream}

/-- What a pull of a stream that goes on comes to. It has skipped some bytes; then there is a token
of at least one byte, a failure, the end of the text, or an error. -/
inductive Pulled (tabs : TabStops) (s : Stream) : Pull τ → Prop where
  | token (value : τ) {index size : Nat} (hindex : s.index ≤ index) (hsize : 0 < size)
      (hstop : index + size ≤ s.text.length) :
      Pulled tabs s {
        result := .ok (some (.token value))
        stream := { s with index := index + size, lastRange := { index, size } } }
  | complaint (message : Bytes) {index : Nat} (hindex : s.index ≤ index)
      (hlt : index < s.text.length) :
      Pulled tabs s {
        result := .ok (some (.diagnostic {
          message, index, position := (s.positionAt tabs index).1 }))
        stream := { (s.positionAt tabs index).2 with index, phase := .failed } }
  | ended (hindex : s.index ≤ s.text.length) :
      Pulled tabs s {
        result := .ok none, stream := { s with index := s.text.length, phase := .done } }
  | error (error : Error) {index : Nat} (hindex : s.index ≤ index) (hlt : index < s.text.length) :
      Pulled tabs s { result := .error error, stream := { s with index, phase := .done } }

/-- Skipping ends inside the input with something that is not ignored, or at its end. -/
theorem skipIgnored_ends (lexer : Lexer (Action (Scene Bool ω)) τ) (index : Nat) (input : Bytes)
    (scene : Scene Bool ω) : ∃ k decision after,
      (skipIgnored lexer index input).run scene = ((index + k, decision), after) ∧
      (k < input.length ∧ decision ≠ .ok .ignored ∨ k = input.length ∧ decision = .ok .ignored) := by
  induction input generalizing index scene with
  | nil => exact ⟨0, .ok .ignored, scene, rfl, .inr ⟨rfl, rfl⟩⟩
  | cons b rest ih =>
    rw [skipIgnored, StateT.run_bind]
    rcases (lexer.recognize (b :: rest)).attempt.run scene with ⟨error | decision, between⟩
    · exact ⟨0, .error error, between, rfl, .inl ⟨Nat.zero_lt_succ _, nofun⟩⟩
    · cases decision with
      | success token remainder => exact ⟨0, _, between, rfl, .inl ⟨Nat.zero_lt_succ _, nofun⟩⟩
      | failed message => exact ⟨0, _, between, rfl, .inl ⟨Nat.zero_lt_succ _, nofun⟩⟩
      | ignored =>
        obtain ⟨k, decision, after, hrun, hends⟩ := ih (index + 1) between
        refine ⟨k + 1, decision, after, ?_, ?_⟩
        · rw [Nat.add_comm k 1, ← Nat.add_assoc]
          exact hrun
        · simpa using hends

theorem settle_pulled (tabs : TabStops) {index : Nat} (hindex : s.index ≤ index)
    (hlt : index < s.text.length) {decision : Except Error (Outcome τ)}
    (hdecision : decision ≠ .ok .ignored) : Pulled tabs s (s.settle tabs index decision) := by
  rcases decision with error | _ | _ | message
  · exact .error error hindex hlt
  · rename_i token remainder
    have hne : s.text.drop index ≠ [] := by simpa using hlt
    rcases hn : remainder.consumedFrom (s.text.drop index) with error | n
    · simp only [settle, hn]
      exact .error error hindex hlt
    · obtain ⟨hpos, hle⟩ := Remainder.consumedFrom_bounds hne hn
      rw [List.length_drop] at hle
      simp only [settle, hn]
      exact .token token hindex hpos (by omega)
  · exact absurd rfl hdecision
  · exact .complaint message hindex hlt

theorem next_of_isDone (h : s.isDone = true) (scene : Scene Bool ω) :
    (s.next lexer).run scene = ({ result := .ok none, stream := s }, scene) := by
  rw [next, if_pos h]
  rfl

/-- While the flag is down a pull of a stream that goes on is performed, and leaves the flag down. -/
theorem next_pulled (lexer : Lexer (Action (Scene Bool ω)) τ) {scene : Scene Bool ω}
    (hdown : scene.subject = false) (hstreaming : s.isDone = false)
    (hindex : s.index ≤ s.text.length) :
    Pulled lexer.tabs s ((s.next lexer).run scene).1 ∧
      ((s.next lexer).run scene).2.subject = false := by
  rw [next, if_neg (by simp [hstreaming]), exclusively_of_lowered _ _ hdown]
  refine ⟨?_, rfl⟩
  obtain ⟨k, decision, after, hrun, hends⟩ :=
    skipIgnored_ends lexer s.index s.remaining { scene with subject := true }
  rw [StateT.run_bind, hrun]
  change Pulled lexer.tabs s (s.settle lexer.tabs (s.index + k) decision)
  have hlength : s.remaining.length = s.text.length - s.index := List.length_drop
  rcases hends with ⟨hlt, hdecision⟩ | ⟨hend, rfl⟩
  · exact settle_pulled _ (Nat.le_add_right ..) (by omega) hdecision
  · have hfinal : s.index + k = s.text.length := by omega
    rw [hfinal]
    exact .ended hindex

end Pull

/-! ## Uses -/

/-- What is done with a stream from outside of the recognizers: a pull, a question about a place, a
change of the lexer's tab stops, and whatever changes the state that the recognizers keep. -/
inductive Use (ω : Type) where
  | next
  | position
  | positionAt (index : Nat)
  | setTabs (tabs : TabStops)
  | setWorld (world : ω)

def Use.isNext {ω : Type} : Use ω → Bool
  | next => true
  | _ => false

/-- What a use returns. -/
inductive Reply (τ : Type) where
  | pulled (result : Except Error (Option (Item τ)))
  | place (position : Position)
  | changed

structure Session (ω : Type) where
  stream : Stream
  tabs : TabStops
  scene : Scene Bool ω

namespace Session

variable {τ ω : Type} (lexer : Lexer (Action (Scene Bool ω)) τ)

/-- A stream on a text that nothing was done with yet. -/
def start (text : Bytes) (tabs : TabStops) (world : ω) : Session ω where
  stream := .ofText text
  tabs
  scene := { subject := false, world }

/-- Asks for the position of an offset. -/
def place (session : Session ω) (index : Nat) : Reply τ × Session ω :=
  let (position, stream) := session.stream.positionAt session.tabs index
  (.place position, { session with stream })

/-- Pulls, with the recognizers of the lexer and the tab stops that it has by now. -/
def pull (session : Session ω) : Reply τ × Session ω :=
  let (p, scene) := (session.stream.next { lexer with tabs := session.tabs }).run session.scene
  (.pulled p.result, { session with stream := p.stream, scene })

def perform (session : Session ω) : Use ω → Reply τ × Session ω
  | .next => session.pull lexer
  | .position => session.place session.stream.index
  | .positionAt index => session.place index
  | .setTabs tabs => (.changed, { session with tabs })
  | .setWorld world => (.changed, { session with scene := { session.scene with world } })

/-- The session after uses, one after the other. -/
def after (session : Session ω) (uses : List (Use ω)) : Session ω :=
  uses.foldl (fun session use => (session.perform lexer use).2) session

variable {lexer}

/-- What every use keeps holds after all uses. It may speak of the uses made so far. -/
theorem after_induction {P : List (Use ω) → Session ω → Prop}
    (hstep : ∀ before session use, P before session →
      P (before ++ [use]) (session.perform lexer use).2)
    (before : List (Use ω)) (session : Session ω) (h : P before session) (uses : List (Use ω)) :
    P (before ++ uses) (session.after lexer uses) := by
  induction uses generalizing before session with
  | nil => rwa [List.append_nil]
  | cons use uses ih =>
    have := ih _ _ (hstep before session use h)
    rwa [List.append_assoc] at this

/-- What a use comes to while no other pull is under way. -/
inductive Performed (session : Session ω) : Use ω → Reply τ × Session ω → Prop where
  | nothing (hdone : session.stream.isDone = true) :
      Performed session .next (.pulled (.ok none), session)
  | pulled {p : Pull τ} {scene : Scene Bool ω} (hstreaming : session.stream.isDone = false)
      (hpulled : Pulled session.tabs session.stream p) (hdown : scene.subject = false) :
      Performed session .next (.pulled p.result, { session with stream := p.stream, scene })
  | position : Performed session .position (session.place session.stream.index)
  | positionAt (index : Nat) : Performed session (.positionAt index) (session.place index)
  | setTabs (tabs : TabStops) :
      Performed session (.setTabs tabs) (.changed, { session with tabs })
  | setWorld (world : ω) :
      Performed session (.setWorld world)
        (.changed, { session with scene := { session.scene with world } })

theorem perform_next_of_isDone {session : Session ω} (h : session.stream.isDone = true) :
    session.perform lexer .next = (.pulled (.ok none), session) := by
  simp only [perform, pull, next_of_isDone h]

theorem perform_performed {session : Session ω} (hdown : session.scene.subject = false)
    (hindex : session.stream.index ≤ session.stream.text.length) (use : Use ω) :
    Performed session use (session.perform lexer use) := by
  cases use with
  | next =>
    cases hphase : session.stream.isDone with
    | true =>
      rw [perform_next_of_isDone hphase]
      exact .nothing hphase
    | false =>
      obtain ⟨hpulled, hlowered⟩ :=
        next_pulled { lexer with tabs := session.tabs } hdown hphase hindex
      exact .pulled hphase hpulled hlowered
  | position => exact .position
  | positionAt index => exact .positionAt index
  | setTabs tabs => exact .setTabs tabs
  | setWorld world => exact .setWorld world

end Session

end ShiftReduce.Stream
