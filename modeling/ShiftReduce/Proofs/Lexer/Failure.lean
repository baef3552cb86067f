import ShiftReduce.Lexer.Iterator
import ShiftReduce.Proofs.Lexer.Tokens

/-!
# Pulls that end in an error

A pull asks one recognizer after the other at one offset after the other, and each may change the
state that the next one finds. `Lexer.IgnoreAll`, `Lexer.Skipped` and `Lexer.DecideFirst` tell this
run step by step. If a pull ends in an error, it got to an offset where a recognizer decided and
either ended in the error itself or claimed a remainder that it cannot have left
(`Stream.FailsAt`). The stream is done then and stands at this offset, and nothing else of it has
changed (`Stream.exists_failsAt`); an iterator holds the item that it held before
(`Iterator.run_advance_of_error`).
-/

namespace ShiftReduce

variable {τ ω t : Type}

/-! ## The run of a lexer -/

namespace Lexer

/-- Recognizers that are asked one after the other and all ignore the input. -/
inductive IgnoreAll (input : Bytes) : List (Recognizer (Action t) τ) → t → t → Prop where
  | nil (state : t) : IgnoreAll input [] state state
  | cons {recognizer : Recognizer (Action t) τ} {others : List (Recognizer (Action t) τ)}
    {before between after : t} (hignored : (recognizer input).run before = (.ok .ignored, between))
    (hothers : IgnoreAll input others between after) :
    IgnoreAll input (recognizer :: others) before after

/-- Recognizers the first of which that does not ignore the input ends in `decision`. -/
inductive DecideFirst (input : Bytes) (decision : Except Error (Outcome τ)) :
    List (Recognizer (Action t) τ) → t → t → Prop where
  | here {recognizer : Recognizer (Action t) τ} (others : List (Recognizer (Action t) τ))
    {before after : t} (hrun : (recognizer input).run before = (decision, after))
    (hne : decision ≠ .ok .ignored) :
    DecideFirst input decision (recognizer :: others) before after
  | later {recognizer : Recognizer (Action t) τ} {others : List (Recognizer (Action t) τ)}
    {before between after : t} (hignored : (recognizer input).run before = (.ok .ignored, between))
    (hothers : DecideFirst input decision others between after) :
    DecideFirst input decision (recognizer :: others) before after

/-- What a lexer says is what the first recognizer says that does not ignore the input. -/
theorem run_firstDecision (input : Bytes) (recognizers : List (Recognizer (Action t) τ))
    (state : t) :
    (∃ after, (firstDecision input recognizers).run state = (.ok .ignored, after) ∧
      IgnoreAll input recognizers state after) ∨
    ∃ decision after, (firstDecision input recognizers).run state = (decision, after) ∧
      decision ≠ .ok .ignored ∧ DecideFirst input decision recognizers state after := by
  induction recognizers generalizing state with
  | nil => exact .inl ⟨state, rfl, .nil state⟩
  | cons recognizer others ih =>
    rcases hrun : (recognizer input).run state with ⟨decision, between⟩
    by_cases hignored : decision = .ok .ignored
    · subst hignored
      rw [firstDecision, Action.run_bind_of_ok hrun]
      rcases ih between with ⟨after, hothers, hall⟩ | ⟨decision, after, hothers, hne, hdecide⟩
      · exact .inl ⟨after, hothers, .cons hrun hall⟩
      · exact .inr ⟨decision, after, hothers, hne, .later hrun hdecide⟩
    · refine .inr ⟨decision, between, ?_, hignored, .here others hrun hignored⟩
      rcases decision with error | _ | _ | message
      · rw [firstDecision, Action.run_bind_of_error hrun]
      · rw [firstDecision, Action.run_bind_of_ok hrun]
        rfl
      · exact absurd rfl hignored
      · rw [firstDecision, Action.run_bind_of_ok hrun]
        rfl

/-- A text is ignored from an offset up to another one. -/
inductive Skipped (lexer : Lexer (Action t) τ) (text : Bytes) (stop : Nat) :
    Nat → t → t → Prop where
  | refl (state : t) : Skipped lexer text stop stop state state
  | skip {index : Nat} {before between after : t} (hlt : index < text.length)
    (hignored : IgnoreAll (text.drop index) lexer.recognizers before between)
    (hrest : Skipped lexer text stop (index + 1) between after) :
    Skipped lexer text stop index before after

theorem Skipped.le {lexer : Lexer (Action t) τ} {text : Bytes} {stop index : Nat} {before after : t}
    (h : Skipped lexer text stop index before after) : index ≤ stop := by
  induction h with
  | refl => exact Nat.le_refl _
  | skip hlt hignored hrest ih => exact Nat.le_of_succ_le ih

end Lexer

namespace Stream

open Lexer

/-- Skipping ends at the end of the text or at the first offset where a recognizer decides. -/
theorem run_skipIgnored (lexer : Lexer (Action (Scene Bool ω)) τ) (text : Bytes) (index : Nat)
    (scene : Scene Bool ω) :
    ∃ stop between, Skipped lexer text stop index scene between ∧
      ((skipIgnored lexer index (text.drop index)).run scene = ((stop, .ok .ignored), between) ∨
        stop < text.length ∧ ∃ decision after,
          (skipIgnored lexer index (text.drop index)).run scene = ((stop, decision), after) ∧
          DecideFirst (text.drop stop) decision lexer.recognizers between after) := by
  induction hinput : text.drop index generalizing index scene with
  | nil => exact ⟨index, scene, .refl scene, .inl rfl⟩
  | cons b rest ih =>
    have hlt : index < text.length := by
      have hlength := congrArg List.length hinput
      rw [List.length_drop, List.length_cons] at hlength
      omega
    have hrest : text.drop (index + 1) = rest := by
      rw [← List.tail_drop, hinput, List.tail_cons]
    rw [skipIgnored, StateT.run_bind]
    rcases run_firstDecision (b :: rest) lexer.recognizers scene with
      ⟨between, hrun, hall⟩ | ⟨decision, after, hrun, hne, hdecide⟩
    · have hrecognize : (lexer.recognize (b :: rest)).attempt.run scene =
          (.ok .ignored, between) := hrun
      obtain ⟨stop, last, hskip, hends⟩ := ih (index + 1) between hrest
      rw [hrecognize]
      rw [← hinput] at hall
      exact ⟨stop, last, .skip hlt hall hskip, hends⟩
    · have hrecognize : (lexer.recognize (b :: rest)).attempt.run scene = (decision, after) := hrun
      rw [hrecognize]
      refine ⟨index, scene, .refl scene, .inr ⟨hlt, decision, after, ?_, hinput ▸ hdecide⟩⟩
      rcases decision with error | _ | _ | message
      · rfl
      · rfl
      · exact absurd rfl hne
      · rfl

/-! ## Errors -/

/-- Why a decision about an input is an error: the recognizer ended in one, or what it claims to
have left cannot be. -/
inductive Faulty (input : Bytes) (error : Error) : Except Error (Outcome τ) → Prop where
  | raised : Faulty input error (.error error)
  | remainder (token : τ) {remainder : Remainder}
    (h : remainder.consumedFrom input = .error error) :
    Faulty input error (.ok (.success token remainder))

/-- A pull of a stream ends in an error at an offset: the bytes before it are ignored, and there a
recognizer decides in a way that is the error. The flag is up as long as recognizers are asked. -/
structure FailsAt (lexer : Lexer (Action (Scene Bool ω)) τ) (s : Stream) (before : Scene Bool ω)
    (error : Error) (index : Nat) (after : Scene Bool ω) : Prop where
  index_le : s.index ≤ index
  index_lt : index < s.text.length
  decided : ∃ between decision last,
    Skipped lexer s.text index s.index { before with subject := true } between ∧
    DecideFirst (s.text.drop index) decision lexer.recognizers between last ∧
    Faulty (s.text.drop index) error decision ∧ after = { last with subject := false }

theorem settle_of_error {s : Stream} {tabs : TabStops} {index : Nat}
    {decision : Except Error (Outcome τ)} {error : Error}
    (h : (s.settle tabs index decision).result = .error error) :
    Faulty (s.text.drop index) error decision ∧
      (s.settle tabs index decision).stream = { s with index, phase := .done } := by
  rcases decision with error | ⟨token, remainder⟩ | _ | message
  · cases h
    exact ⟨.raised, rfl⟩
  · cases hconsumed : remainder.consumedFrom (s.text.drop index) with
    | ok n =>
      simp only [settle, hconsumed] at h
      cases h
    | error error =>
      simp only [settle, hconsumed] at h
      cases h
      exact ⟨.remainder token hconsumed, by simp only [settle, hconsumed]⟩
  · cases h
  · cases h

/-- A remainder is never the cause of a refusal: where a pull ends in one from outside, the
recognizer that decided ended in it. -/
theorem FailsAt.decideFirst_of_lexerReentered {lexer : Lexer (Action (Scene Bool ω)) τ} {s : Stream}
    {before after : Scene Bool ω} {index : Nat}
    (h : s.FailsAt lexer before .lexerReentered index after) :
    ∃ between last, DecideFirst (s.text.drop index) (.error .lexerReentered) lexer.recognizers
      between last := by
  obtain ⟨between, decision, last, -, hdecide, hfaulty, -⟩ := h.decided
  cases hfaulty with
  | raised => exact ⟨between, last, hdecide⟩
  | remainder token hremainder =>
    unfold Remainder.consumedFrom at hremainder
    split at hremainder
    · cases hremainder
    · split at hremainder
      · cases hremainder
      · split at hremainder <;> cases hremainder

/-- A pull that ends in an error leaves the stream done, at the offset where a recognizer decided
so, and otherwise as it was. -/
theorem exists_failsAt {lexer : Lexer (Action (Scene Bool ω)) τ} {s : Stream}
    {scene after : Scene Bool ω} (hdown : scene.subject = false) {p : Pull τ} {error : Error}
    (hrun : (s.next lexer).run scene = (p, after)) (herror : p.result = .error error) :
    ∃ index, s.FailsAt lexer scene error index after ∧
      p.stream = { s with index, phase := .done } := by
  by_cases hdone : s.isDone = true
  · rw [next_of_isDone hdone] at hrun
    cases hrun
    cases herror
  rw [run_next (Bool.eq_false_iff.2 hdone) hdown, remaining] at hrun
  obtain ⟨stop, between, hskip, hends⟩ :=
    run_skipIgnored lexer s.text s.index { scene with subject := true }
  rcases hends with hskipped | ⟨hlt, decision, last, hskipped, hdecide⟩
  · rw [hskipped] at hrun
    cases hrun
    cases herror
  · rw [hskipped] at hrun
    cases hrun
    obtain ⟨hfaulty, hstream⟩ := settle_of_error herror
    exact ⟨stop, ⟨hskip.le, hlt, between, decision, last, hskip, hdecide, hfaulty, rfl⟩, hstream⟩

end Stream

/-! ## Iterators -/

namespace Iterator

variable {lexer : Lexer (Action (Scene Bool ω)) τ} {s : Stream} {scene after : Scene Bool ω}
  {p : Pull τ} {error : Error} (hrun : (s.next lexer).run scene = (p, after))
  (herror : p.result = .error error) (it : Iterator τ)

include hrun herror

/-- An iterator whose pull ends in an error holds the item that it held before. -/
theorem run_advance_of_error : (it.advance lexer s).run scene =
    ({ result := .error error, iterator := it, stream := p.stream }, after) := by
  rcases p with ⟨result, stream⟩
  cases herror
  rw [advance, StateT.run_bind, hrun]
  rfl

theorem run_postAdvance_of_error : (it.postAdvance lexer s).run scene =
    ({ result := .error error, iterator := it, stream := p.stream }, after) := by
  rw [postAdvance, StateT.run_bind, it.run_advance_of_error hrun herror]
  rfl

end Iterator

end ShiftReduce
