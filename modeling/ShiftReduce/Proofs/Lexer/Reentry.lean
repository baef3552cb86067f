import Mathlib.Data.List.Forall2
import ShiftReduce.Lexer.Callback
import ShiftReduce.Proofs.Callback
import ShiftReduce.Proofs.Lexer.Failure

/-!
# Pulls from within recognizers

While a stream is pulled, the flag that all streams of its lexer share is up, and a pull that a
recognizer makes is refused, whichever lexer would answer it (`Stream.next_of_raised`). So a pull
comes to what it comes to with the recognizers' own pulls left out (`CallbackLexer.refused`), and
pulls that are added to recognizers which catch them make no difference (`CallbackLexer.AddsCalls`).

Between pulls the flag is down, whatever the pulls before have ended in
(`CallbackLexer.Reached.lowered`). From outside, a pull is therefore never refused: an error that it
ends in is that of a recognizer, or the one about a remainder (`CallbackLexer.pulls_survive`).
-/

namespace ShiftReduce

variable {σ τ ω : Type}

/-- A lexer says in another monad what it says in the first, carried over. -/
theorem Lexer.recognize_map {m n : Type → Type} [Monad m] [Monad n]
    {f : m (Outcome τ) → n (Outcome τ)} (hpure : ∀ outcome, f (pure outcome) = pure outcome)
    (hbind : ∀ x g, f (x >>= g) = f x >>= fun outcome => f (g outcome)) (lexer : Lexer m τ)
    (input : Bytes) : (lexer.map f).recognize input = f (lexer.recognize input) := by
  unfold recognize map
  induction lexer.recognizers with
  | nil => exact (hpure .ignored).symm
  | cons recognizer others ih =>
    rw [List.map_cons, firstDecision, firstDecision, hbind]
    refine congrArg _ (funext fun outcome => ?_)
    cases outcome with
    | ignored => exact ih
    | success token remainder => exact (hpure _).symm
    | failed message => exact (hpure _).symm

/-! ## Refusals -/

namespace Stream

/-- The answer to a pull from within a pull. A stream that is done is not touched anyway. -/
def refusal (s : Stream) : Pull τ :=
  { result := if s.isDone then .ok none else .error .lexerReentered, stream := s }

/-- While the flag is up a pull is refused. -/
theorem next_of_raised (lexer : Lexer (Action (Scene Bool ω)) τ) (s : Stream) {scene : Scene Bool ω}
    (h : scene.subject = true) : (s.next lexer).run scene = (s.refusal, scene) := by
  unfold next refusal
  by_cases hdone : s.isDone = true
  · rw [if_pos hdone, if_pos hdone]
    rfl
  · rw [if_neg hdone, if_neg hdone, exclusively_of_raised _ _ h]

/-- A pull leaves the flag as it was. -/
theorem subject_next (lexer : Lexer (Action (Scene Bool ω)) τ) (s : Stream) (scene : Scene Bool ω) :
    ((s.next lexer).run scene).2.subject = scene.subject := by
  by_cases hdone : s.isDone = true
  · rw [next_of_isDone hdone]
  · cases hflag : scene.subject with
    | true => rw [next_of_raised lexer s hflag, hflag]
    | false => rw [run_next (Bool.eq_false_iff.2 hdone) hflag]

section Congr

variable {a b : Lexer (Action (Scene Bool ω)) τ}
  (hspares : ∀ input, Action.Spares (· = true) (a.recognize input))
  (h : ∀ input scene, scene.subject = true →
    (a.recognize input).run scene = (b.recognize input).run scene)

include hspares h

theorem skipIgnored_congr (index : Nat) (input : Bytes) {scene : Scene Bool ω}
    (hup : scene.subject = true) :
    (skipIgnored a index input).run scene = (skipIgnored b index input).run scene := by
  induction input generalizing index scene with
  | nil => rfl
  | cons c rest ih =>
    have hsame := h (c :: rest) scene hup
    have hstill := hspares (c :: rest) scene hup
    have hattempt : (a.recognize (c :: rest)).attempt.run scene =
        (b.recognize (c :: rest)).attempt.run scene := hsame
    rw [skipIgnored, skipIgnored, StateT.run_bind, StateT.run_bind, ← hattempt]
    rcases hrun : (a.recognize (c :: rest)).attempt.run scene with ⟨error | _ | _ | _, between⟩
    · rfl
    · rfl
    · have hbetween : between.subject = true := by
        have hrun : (a.recognize (c :: rest)).run scene = (.ok .ignored, between) := hrun
        rw [hrun] at hstill
        exact hstill.trans hup
      exact ih (index + 1) hbetween
    · rfl

/-- What matters of a lexer for a pull is what it says while the flag is up. -/
theorem next_congr (htabs : a.tabs = b.tabs) (s : Stream) (scene : Scene Bool ω) :
    (s.next a).run scene = (s.next b).run scene := by
  by_cases hdone : s.isDone = true
  · rw [next_of_isDone hdone, next_of_isDone hdone]
  · cases hflag : scene.subject with
    | true => rw [next_of_raised a s hflag, next_of_raised b s hflag]
    | false =>
      have hstreaming := Bool.eq_false_iff.2 hdone
      have hup : ({ scene with subject := true } : Scene Bool ω).subject = true := rfl
      rw [run_next hstreaming hflag, run_next hstreaming hflag, htabs,
        skipIgnored_congr hspares h s.index s.remaining hup]

end Congr

end Stream

/-! ## Recognizers that pull -/

namespace CallbackLexer

/-- The lexer with its recognizers' pulls answered by another one. -/
def answeredBy (lexer : CallbackLexer σ τ) (other : Lexer (Action (Scene Bool σ)) τ) :
    Lexer (Action (Scene Bool σ)) τ :=
  lexer.map (Callback.run fun inner => inner.next other)

/-- The lexer with its recognizers' pulls refused outright. -/
def refusingCalls (lexer : CallbackLexer σ τ) : Lexer (Action (Scene Bool σ)) τ :=
  lexer.map (Callback.run fun inner => pure inner.refusal)

/-- The lexer with its recognizers' pulls left out. -/
def refused (lexer : CallbackLexer σ τ) : CallbackLexer σ τ :=
  lexer.map (Callback.refused Stream.refusal)

/-- The first lexer is the second with pulls added to its recognizers, which catch them. -/
structure AddsCalls (amended lexer : CallbackLexer σ τ) : Prop where
  tabs_eq : amended.tabs = lexer.tabs
  recognizers : List.Forall₂ (fun recognizer' recognizer =>
    ∀ input, Callback.AddsCalls Stream.refusal (recognizer' input) (recognizer input))
    amended.recognizers lexer.recognizers

theorem AddsCalls.refused_eq {amended lexer : CallbackLexer σ τ} (h : amended.AddsCalls lexer) :
    amended.refused = lexer.refused := by
  have hrecognizers : List.Forall₂ (· = ·) amended.refused.recognizers lexer.refused.recognizers :=
    List.forall₂_map_left_iff.2 (List.forall₂_map_right_iff.2
      (h.recognizers.imp fun _ _ hadds => funext fun input => (hadds input).refused_eq))
  rw [List.forall₂_eq_eq_eq] at hrecognizers
  have hlexer := congr (congrArg Lexer.mk hrecognizers) h.tabs_eq
  exact hlexer

section Answer

variable {answer answer' : Stream → StateM (Scene Bool σ) (Pull τ)}

theorem recognize_run (lexer : CallbackLexer σ τ)
    (answer : Stream → StateM (Scene Bool σ) (Pull τ)) (input : Bytes) :
    (lexer.map (Callback.run answer)).recognize input = (lexer.recognize input).run answer :=
  lexer.recognize_map (fun _ => rfl) (Callback.run_bind answer) input

theorem recognize_refused (lexer : CallbackLexer σ τ) (input : Bytes) :
    lexer.refused.recognize input = (lexer.recognize input).refused Stream.refusal :=
  lexer.recognize_map (fun _ => rfl) Callback.refused_bind input

/-- Lexers that are the same without their recognizers' pulls serve a pull in the same way, as long
as those pulls are refused. -/
theorem next_eq_of_refused_eq {a b : CallbackLexer σ τ} (h : a.refused = b.refused)
    (hanswer : ∀ inner scene, scene.subject = true →
      (answer inner).run scene = (inner.refusal, scene))
    (hanswer' : ∀ inner scene, scene.subject = true →
      (answer' inner).run scene = (inner.refusal, scene)) (s : Stream) (scene : Scene Bool σ) :
    (s.next (a.map (Callback.run answer))).run scene =
      (s.next (b.map (Callback.run answer'))).run scene := by
  have htabs : a.refused.tabs = b.refused.tabs := congrArg Lexer.tabs h
  refine Stream.next_congr ?_ ?_ htabs s scene
  · intro input
    rw [recognize_run]
    refine Callback.spares_run (fun inner raised hup => ?_) _
    rw [hanswer inner raised hup]
  · intro input raised hup
    have hleft : ((a.recognize input).run answer).run raised =
        ((a.refused.recognize input).run answer).run raised := by
      rw [recognize_refused]
      exact Callback.run_eq_refused (p := (· = true)) hanswer _ hup
    have hright : ((b.recognize input).run answer').run raised =
        ((b.refused.recognize input).run answer).run raised := by
      rw [recognize_refused]
      exact Callback.run_eq_refused (p := (· = true)) hanswer' _ hup
    rw [recognize_run, recognize_run, hleft, hright, h]

end Answer

/-! ## Uses from outside -/

/-- What using a lexer can lead to: pulls of any stream on it, with whatever tab stops and also
those that end in an error, texts that the lexer is asked about directly, and changes of the state
that its recognizers keep. -/
inductive Reached (lexer : CallbackLexer σ τ) : Scene Bool σ → Prop
  | fresh (world : σ) : Reached lexer { subject := false, world }
  | pull {scene : Scene Bool σ} (h : Reached lexer scene) (tabs : TabStops) (s : Stream) :
    Reached lexer ((s.next { lexer.duringPull with tabs }).run scene).2
  | recognize {scene : Scene Bool σ} (h : Reached lexer scene) (input : Bytes) :
    Reached lexer ((lexer.outsidePull.recognize input).run scene).2
  | setWorld {scene : Scene Bool σ} (h : Reached lexer scene) (world : σ) :
    Reached lexer { scene with world }

/-- Between uses the flag is down, also after one that ended in an error. -/
theorem Reached.lowered {lexer : CallbackLexer σ τ} {scene : Scene Bool σ}
    (h : lexer.Reached scene) : scene.subject = false := by
  induction h with
  | fresh => rfl
  | pull _ tabs s ih => exact (Stream.subject_next _ s _).trans ih
  | @recognize scene _ input ih =>
    have hspares : Action.Spares (fun _ => True) (lexer.outsidePull.recognize input) := by
      rw [outsidePull, recognize_run]
      exact Callback.spares_run (fun inner raised _ => Stream.subject_next _ inner raised) _
    exact (hspares scene trivial).trans ih
  | setWorld _ _ ih => exact ih

/-- A lexer survives errors and pulls from within its recognizers. Such a pull is refused, whichever
lexer would answer it, and leaves its stream and everything else as it was: a pull is what it is if
its recognizers' pulls are all refused outright. Pulls that are added to recognizers and caught do
not change it. Between pulls the flag is down. A pull from outside that ends in an error leaves its
stream done at the offset where a recognizer decided so and otherwise as it was, it leaves an
iterator alone, and if the error is a refusal, then that recognizer ended in it. -/
theorem pulls_survive (lexer : CallbackLexer σ τ) (s : Stream) :
    (∀ other : Lexer (Action (Scene Bool σ)) τ,
      (∀ (inner : Stream) (raised : Scene Bool σ), raised.subject = true → inner.isDone = false →
        (inner.next other).run raised =
          ({ result := .error .lexerReentered, stream := inner }, raised)) ∧
      ∀ scene, (s.next (lexer.answeredBy other)).run scene =
        (s.next lexer.refusingCalls).run scene) ∧
    (∀ scene, (s.next lexer.duringPull).run scene = (s.next lexer.refusingCalls).run scene) ∧
    (∀ amended : CallbackLexer σ τ, amended.AddsCalls lexer → ∀ scene,
      (s.next amended.duringPull).run scene = (s.next lexer.duringPull).run scene) ∧
    ∀ scene, lexer.Reached scene → scene.subject = false ∧ ∀ p error after,
      (s.next lexer.duringPull).run scene = (p, after) → p.result = .error error →
        (∃ index, s.FailsAt lexer.refusingCalls scene error index after ∧
          p.stream = { s with index, phase := .done } ∧
          (error = .lexerReentered → ∃ between last, Lexer.DecideFirst (s.text.drop index)
            (.error .lexerReentered) lexer.refusingCalls.recognizers between last)) ∧
        ∀ it : Iterator τ,
          (it.advance lexer.duringPull s).run scene =
            ({ result := .error error, iterator := it, stream := p.stream }, after) ∧
          (it.postAdvance lexer.duringPull s).run scene =
            ({ result := .error error, iterator := it, stream := p.stream }, after) := by
  have hduring (scene : Scene Bool σ) :
      (s.next lexer.duringPull).run scene = (s.next lexer.refusingCalls).run scene :=
    next_eq_of_refused_eq rfl (fun inner _ => inner.next_of_raised _) (fun _ _ _ => rfl) s scene
  refine ⟨fun other => ⟨?_, ?_⟩, hduring, ?_, ?_⟩
  · intro inner raised hup hstreaming
    rw [inner.next_of_raised other hup, Stream.refusal, hstreaming]
    rfl
  · intro scene
    exact next_eq_of_refused_eq rfl (fun inner _ => inner.next_of_raised other) (fun _ _ _ => rfl) s
      scene
  · intro amended hadds scene
    exact next_eq_of_refused_eq hadds.refused_eq (fun inner _ => inner.next_of_raised _)
      (fun inner _ => inner.next_of_raised _) s scene
  · intro scene hreached
    refine ⟨hreached.lowered, ?_⟩
    intro p error after hrun herror
    refine ⟨?_, fun it => ⟨it.run_advance_of_error hrun herror,
      it.run_postAdvance_of_error hrun herror⟩⟩
    rw [hduring] at hrun
    obtain ⟨index, hfails, hstream⟩ := Stream.exists_failsAt hreached.lowered hrun herror
    refine ⟨index, hfails, hstream, ?_⟩
    rintro rfl
    exact hfails.decideFirst_of_lexerReentered

/-- Skips the letter `a`. Of anything else it pulls a stream and passes on the error. -/
def meddler : CallbackLexer Unit Unit where
  recognizers := [fun input =>
    if input.head? = some 0x61 then .done .ignored
    else .call (.ofText input) fun p =>
      match p.result with
      | .ok _ => .done .ignored
      | .error error => .raise error]

/-- The same lexer, which now pulls a stream first when it skips. -/
def eagerMeddler : CallbackLexer Unit Unit where
  recognizers := [fun input =>
    if input.head? = some 0x61 then .call (.ofText input) fun _ => .done .ignored
    else .call (.ofText input) fun p =>
      match p.result with
      | .ok _ => .done .ignored
      | .error error => .raise error]

theorem eagerMeddler_addsCalls : eagerMeddler.AddsCalls meddler := by
  refine ⟨rfl, .cons (fun input => ?_) .nil⟩
  by_cases hletter : input.head? = some 0x61
  · simp only [hletter, if_true]
    exact .caught _ (.done Outcome.ignored)
  · simp only [hletter, if_false]
    exact .call _ (.raise .lexerReentered)

/-- A pull that ends in the error of a recognizer's pull, after another one that did. -/
theorem pulls_survive_meddling :
    let s := Stream.ofText (.ofAscii "ab")
    let scene := (((Stream.ofText (.ofAscii "b")).next meddler.duringPull).run ⟨false, ()⟩).2
    let (p, after) := (s.next meddler.duringPull).run scene
    (meddler.Reached scene ∧ eagerMeddler.AddsCalls meddler ∧ p.result = .error .lexerReentered ∧
      p.stream.index = 1) ∧
    scene.subject = false ∧ (s.next eagerMeddler.duringPull).run scene = (p, after) ∧
    (∃ index, s.FailsAt meddler.refusingCalls scene .lexerReentered index after ∧
      p.stream = { s with index, phase := .done }) ∧
    ∀ it : Iterator Unit, (it.advance meddler.duringPull s).run scene =
      ({ result := .error .lexerReentered, iterator := it, stream := p.stream }, after) := by
  intro s scene
  have hreached : meddler.Reached scene := .pull (.fresh ()) .standard (.ofText (.ofAscii "b"))
  have hresult : ((s.next meddler.duringPull).run scene).1.result = .error .lexerReentered := rfl
  obtain ⟨-, -, hamended, houtside⟩ := meddler.pulls_survive s
  obtain ⟨hdown, hfails⟩ := houtside scene hreached
  obtain ⟨⟨index, hfails, hstream, -⟩, hiterator⟩ := hfails _ _ _ rfl hresult
  exact ⟨⟨hreached, eagerMeddler_addsCalls, hresult, rfl⟩, hdown,
    hamended eagerMeddler eagerMeddler_addsCalls scene, ⟨index, hfails, hstream⟩,
    fun it => (hiterator it).1⟩

end CallbackLexer

end ShiftReduce
