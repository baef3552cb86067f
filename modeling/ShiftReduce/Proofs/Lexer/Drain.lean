import ShiftReduce.Lexer.Recognizer
import ShiftReduce.Lexer.Tokens
import ShiftReduce.Proofs.Lexer.Lexing

/-!
# Draining a stream

With recognizers that only look at their input and leave proper suffixes, a stream delivers the
items of the one lexing of its text. One pull skips what is ignored and settles on the first
decision (`Stream.next_lift`); each pull puts one item in front of the lexing that the later pulls
deliver (`Stream.drainWithin_lift`), down to the end (`Stream.drain_ofText`).
-/

namespace ShiftReduce

variable {τ ω : Type}

/-- The items of a lexing, each with the range of the last token delivered by then; `last` is the
range of the token before them. -/
def Lexing.items (lexing : Lexing τ) (last : Range) : List (Item τ × Range) :=
  lexing.tokens.map (fun entry => (.token entry.1, entry.2)) ++
    lexing.complaint?.toList.map fun complaint =>
      (.diagnostic complaint, (lexing.tokens.map Prod.snd).getLastD last)

/-- The phase of a stream after a lexing. -/
def Lexing.phase (lexing : Lexing τ) : Phase :=
  if lexing.complaint?.isSome then .failed else .done

namespace Stream

/-- Where skipping ends: everything before is ignored, and it is the end of the input or the place
of a decision. -/
structure SkipsTo (lexer : Lexer Id τ) (input : Bytes) (k : Nat) (decision : Outcome τ) : Prop where
  le : k ≤ input.length
  ignored : ∀ j, j < k → lexer.Ignores (input.drop j)
  ended : k = input.length ∧ decision = .ignored ∨
    k < input.length ∧ lexer.Decides (input.drop k) decision

theorem skipIgnored_lift (lexer : Lexer Id τ) (scene : Scene Bool ω) (index : Nat)
    (input : Bytes) : ∃ k decision, SkipsTo lexer input k decision ∧
      (skipIgnored lexer.lift index input).run scene = ((index + k, .ok decision), scene) := by
  induction input generalizing index with
  | nil => exact ⟨0, .ignored, ⟨Nat.le_refl _, fun _ h => (nomatch h), .inl ⟨rfl, rfl⟩⟩, rfl⟩
  | cons b rest ih =>
    rw [skipIgnored, Lexer.recognize_lift]
    rcases lexer.ignores_or_decides (b :: rest) with hignores | ⟨decision, hdecides⟩
    · obtain ⟨k, decision, hskips, hrun⟩ := ih (index + 1)
      rw [Lexer.recognize_of_ignores hignores]
      refine ⟨k + 1, decision, ⟨Nat.succ_le_succ hskips.le, ?_, ?_⟩, ?_⟩
      · intro j hj
        cases j with
        | zero => exact hignores
        | succ j => exact hskips.ignored j (Nat.lt_of_succ_lt_succ hj)
      · simpa using hskips.ended
      · rw [Nat.add_comm k 1, ← Nat.add_assoc]
        exact hrun
    · rw [Lexer.recognize_of_decides hdecides]
      refine ⟨0, decision, ⟨Nat.zero_le _, fun _ h => (nomatch h), ?_⟩, ?_⟩
      · exact .inr ⟨Nat.zero_lt_succ _, hdecides⟩
      · cases decision with
        | ignored => exact absurd rfl hdecides.ne_ignored
        | success token remainder => rfl
        | failed message => rfl

theorem next_lift (lexer : Lexer Id τ) {scene : Scene Bool ω} (hdown : scene.subject = false)
    {s : Stream} (hphase : s.phase = .streaming) :
    ∃ k decision, SkipsTo lexer s.remaining k decision ∧
      (s.next lexer.lift).run scene =
        (s.settle lexer.tabs (s.index + k) (.ok decision), scene) := by
  have hdone : ¬ s.isDone = true := by simp [isDone, hphase]
  obtain ⟨k, decision, hskips, hrun⟩ :=
    skipIgnored_lift lexer { scene with subject := true } s.index s.remaining
  refine ⟨k, decision, hskips, ?_⟩
  rw [next, if_neg hdone, exclusively_of_lowered _ _ hdown, StateT.run_bind, hrun, ← hdown]
  rfl

theorem settle_success {s : Stream} {index : Nat} {token : τ} {remainder : Remainder}
    (h : remainder.IsProperSuffixOf (s.text.drop index)) (tabs : TabStops) :
    let n := (s.text.drop index).length - remainder.text.length
    s.settle tabs index (.ok (.success token remainder)) =
      { result := .ok (some (.token token))
        stream := { s with index := index + n, lastRange := { index, size := n } } } := by
  simp only [settle, h.consumedFrom_eq]

section DrainWithin

variable {lexer : Lexer (Action (Scene Bool ω)) τ} {scene between after : Scene Bool ω}
  {s stream : Stream}

theorem drainWithin_of_nothing (n : Nat)
    (hpull : (s.next lexer).run scene = ({ result := .ok none, stream }, after)) :
    (drainWithin lexer (n + 1) s).run scene = ({ items := [], error? := none, stream }, after) := by
  rw [drainWithin, StateT.run_bind, hpull]
  rfl

theorem drainWithin_of_item {n : Nat} {item : Item τ} {rest : Drained τ}
    (hpull : (s.next lexer).run scene = ({ result := .ok (some item), stream }, between))
    (hrest : (drainWithin lexer n stream).run between = (rest, after)) :
    (drainWithin lexer (n + 1) s).run scene =
      ({ rest with items := (item, stream.lastRange) :: rest.items }, after) := by
  rw [drainWithin, StateT.run_bind, hpull]
  change (drainWithin lexer n stream >>= _).run between = _
  rw [StateT.run_bind, hrest]
  rfl

/-- A stream that has ended delivers nothing more. -/
theorem drainWithin_of_isDone (n : Nat) (h : s.isDone = true) :
    (drainWithin lexer n s).run scene = ({ items := [], error? := none, stream := s }, scene) := by
  cases n with
  | zero => rfl
  | succ n =>
    refine drainWithin_of_nothing n ?_
    rw [next, if_pos h]
    rfl

end DrainWithin

/-- Draining from an offset on delivers a lexing from there. -/
theorem drainWithin_lift {lexer : Lexer Id τ} (hsuffixes : lexer.LeavesSuffixes)
    {scene : Scene Bool ω} (hdown : scene.subject = false) (n : Nat) (s : Stream)
    (hphase : s.phase = .streaming) (hcursor : s.cursor = {}) (hindex : s.index ≤ s.text.length)
    (hn : s.text.length - s.index < n) :
    ∃ (lexing : Lexing τ) (d : Drained τ), lexing.From lexer s.text s.index ∧
      (drainWithin lexer.lift n s).run scene = (d, scene) ∧
      d.items = lexing.items s.lastRange ∧ d.error? = none ∧
      d.stream.index = lexing.final ∧ d.stream.phase = lexing.phase := by
  induction n generalizing s with
  | zero => exact absurd hn (Nat.not_lt_zero _)
  | succ n ih =>
    obtain ⟨k, decision, ⟨hk, hignored, hended⟩, hpull⟩ := next_lift lexer hdown hphase
    have hlength : s.remaining.length = s.text.length - s.index := List.length_drop
    have hskip := Nat.le_add_right s.index k
    have hskipped : ∀ offset, s.index ≤ offset → offset < s.index + k →
        lexer.Ignores (s.text.drop offset) := by
      intro offset hle hlt
      have := hignored (offset - s.index) (by omega)
      rwa [remaining, List.drop_drop, Nat.add_sub_cancel' hle] at this
    rcases hended with ⟨hend, rfl⟩ | ⟨hlt, hdecides⟩
    · have hfinal : s.index + k = s.text.length := by omega
      rw [hfinal] at hpull hskip hskipped
      exact ⟨_, _, (Lexing.From.atEnd lexer s.text).skip hskip hskipped,
        drainWithin_of_nothing n hpull, rfl, rfl, rfl, rfl⟩
    · have hbefore : s.index + k < s.text.length := by omega
      rw [remaining, List.drop_drop] at hdecides
      cases decision with
      | ignored => exact absurd rfl hdecides.ne_ignored
      | failed message =>
        refine ⟨_, _, (Lexing.From.fail hbefore hdecides).skip hskip hskipped,
          drainWithin_of_item hpull (drainWithin_of_isDone n rfl), ?_, rfl, rfl, rfl⟩
        rw [hcursor]
        rfl
      | success token remainder =>
        have hsuffix := hdecides.isProperSuffixOf hsuffixes (by simpa using hbefore)
        have hshorter := hsuffix.shorter
        have htext := hsuffix.text_eq_drop
        rw [settle_success hsuffix] at hpull
        generalize hsize : (s.text.drop (s.index + k)).length - remainder.text.length = size
          at hpull htext
        rw [List.length_drop] at hshorter hsize
        rw [List.drop_drop] at htext
        obtain ⟨lexing, d, hlexing, hrest, hitems, herror, hfinal, hended⟩ := ih
          { s with index := s.index + k + size, lastRange := { index := s.index + k, size } }
          hphase hcursor (by simp only; omega) (by simp only; omega)
        refine ⟨_, _, (hlexing.token (by omega) hdecides htext).skip hskip hskipped,
          drainWithin_of_item hpull hrest, ?_, herror, hfinal, hended⟩
        rw [hitems]
        simp only [Lexing.items, List.map_cons, List.cons_append, List.getLastD_cons]

end Stream

/-- Draining a fresh stream on recognizers that only look at their input and leave proper suffixes
delivers the one lexing of the text. -/
theorem Stream.drain_ofText {lexer : Lexer Id τ} (hsuffixes : lexer.LeavesSuffixes) (text : Bytes)
    (world : ω) :
    let scene : Scene Bool ω := { subject := false, world }
    ∃ (lexing : Lexing τ) (d : Drained τ),
      ((Stream.ofText text).drain lexer.lift).run scene = (d, scene) ∧
      (d.items = lexing.items {} ∧ d.error? = none ∧
        d.stream.index = lexing.final ∧ d.stream.phase = lexing.phase) ∧
      lexing.From lexer text 0 ∧ (∀ other : Lexing τ, other.From lexer text 0 → other = lexing) ∧
      (lexing.complaint? ≠ none ↔ ∃ offset message, lexing.Reaches text offset ∧
        lexer.Decides (text.drop offset) (.failed message)) ∧
      ∀ offset message, lexing.Reaches text offset →
        lexer.Decides (text.drop offset) (.failed message) →
        lexing.final = offset ∧ lexing.complaint? = some (.at lexer.tabs text offset message) := by
  intro scene
  obtain ⟨lexing, d, hlexing, hdrain, hitems, herror, hfinal, hphase⟩ :=
    Stream.drainWithin_lift hsuffixes (show scene.subject = false from rfl) _ (.ofText text) rfl rfl
      (Nat.zero_le _) (Nat.lt_succ_self _)
  have hlexing : lexing.From lexer text 0 := hlexing
  refine ⟨lexing, d, hdrain, ⟨hitems, herror, hfinal, hphase⟩, hlexing,
    fun other hother => hother.unique hlexing, ?_,
    fun offset message => hlexing.complaint_of_failed (Nat.zero_le offset)⟩
  rw [hlexing.complaint_iff]
  simp only [Nat.zero_le, true_and]

/-- Quoted text and nothing else. -/
def quotedLexer : Lexer Id Bytes where
  recognizers := [Recognizer.quoted id]

theorem quotedLexer_leavesSuffixes : quotedLexer.LeavesSuffixes := by
  intro recognizer hmem input hne token remainder h
  obtain rfl := List.mem_singleton.1 hmem
  cases input with
  | nil => exact absurd rfl hne
  | cons first text =>
    simp only [Recognizer.quoted] at h
    split at h
    · split at h
      · cases h
        exact .after hne (Nat.succ_pos _)
      · cases h
    · cases h

/-- One quoted text and the start of another, with a blank before each. -/
theorem Stream.drain_ofText_quoted :
    let text := Bytes.ofAscii " \"a\" \"b"
    let scene : Scene Bool Unit := { subject := false, world := () }
    quotedLexer.LeavesSuffixes ∧ ∃ (lexing : Lexing Bytes) (d : Drained Bytes),
      ((Stream.ofText text).drain quotedLexer.lift).run scene = (d, scene) ∧
      (d.items = lexing.items {} ∧ d.error? = none ∧
        d.stream.index = lexing.final ∧ d.stream.phase = lexing.phase) ∧
      lexing.From quotedLexer text 0 ∧
      (∀ other : Lexing Bytes, other.From quotedLexer text 0 → other = lexing) ∧
      (lexing.complaint? ≠ none ↔ ∃ offset message, lexing.Reaches text offset ∧
        quotedLexer.Decides (text.drop offset) (.failed message)) ∧
      ∀ offset message, lexing.Reaches text offset →
        quotedLexer.Decides (text.drop offset) (.failed message) →
        lexing.final = offset ∧
          lexing.complaint? = some (.at quotedLexer.tabs text offset message) :=
  ⟨quotedLexer_leavesSuffixes, Stream.drain_ofText quotedLexer_leavesSuffixes _ ()⟩

end ShiftReduce
