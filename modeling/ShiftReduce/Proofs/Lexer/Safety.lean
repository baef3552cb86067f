import ShiftReduce.Proofs.Lexer.Lexing
import ShiftReduce.Proofs.Lexer.Uses

/-!
# Streams stay in bounds

Recognizers may keep a state, end in errors, answer differently every time, and claim any remainder
they like; those that call back (`CallbackLexer.duringPull`) are among them. A stream stays sound all
the same. It keeps to its text (`Stream.Placed`), a use only moves it forwards (`Stream.Advances`),
and once it is done it stays as it is. Each pull that leaves it going on takes at least one byte, and
so as many pulls as `Stream.pullBound` says end it (`Stream.Session.safe_after_uses`).
-/

namespace ShiftReduce.Stream

variable {τ ω : Type} {text : Bytes} {s : Stream}

/-- The stream is on the text, and the token it delivered last is behind it. -/
structure Placed (text : Bytes) (s : Stream) : Prop where
  text_eq : s.text = text
  index_le : s.index ≤ text.length
  lastRange_le : s.lastRange.stop ≤ s.index
  done_of_failed : s.isFailed = true → s.isDone = true

/-- How a use with the given reply moves a stream on. The range of a token is not empty, begins
behind the token before, and ends where the stream is then; without a token the range stays. A pull
takes some of the text or ends the stream. -/
structure Advances (s : Stream) (reply : Reply τ) (after : Stream) : Prop where
  index_le : s.index ≤ after.index
  done : s.isDone = true → after.isDone = true
  token : ∀ value, reply = .pulled (.ok (some (.token value))) →
    0 < after.lastRange.size ∧ s.lastRange.stop ≤ after.lastRange.index ∧
      after.index = after.lastRange.stop
  lastRange_eq : (∀ value, reply ≠ .pulled (.ok (some (.token value)))) →
    after.lastRange = s.lastRange
  progress : ∀ result, reply = .pulled result → after.isDone = true ∨ s.index < after.index

theorem isDone_of_isFailed (h : s.isFailed = true) : s.isDone = true := by
  simp only [isFailed, beq_iff_eq] at h
  simp [isDone, h]

/-! ## One pull -/

namespace Pulled

variable {tabs : TabStops} {p : Pull τ}

theorem placed (h : Pulled tabs s p) (hs : s.Placed text) : p.stream.Placed text := by
  obtain ⟨rfl, -, hlast, -⟩ := hs
  cases h with
  | token value hindex hsize hstop => exact ⟨rfl, hstop, Nat.le_refl _, isDone_of_isFailed⟩
  | complaint message hindex hlt =>
    exact ⟨rfl, Nat.le_of_lt hlt, Nat.le_trans hlast hindex, isDone_of_isFailed⟩
  | ended hindex => exact ⟨rfl, Nat.le_refl _, Nat.le_trans hlast hindex, isDone_of_isFailed⟩
  | error error hindex hlt =>
    exact ⟨rfl, Nat.le_of_lt hlt, Nat.le_trans hlast hindex, isDone_of_isFailed⟩

theorem advances (h : Pulled tabs s p) (hs : s.Placed text) (hstreaming : s.isDone = false) :
    Advances s (.pulled p.result) p.stream := by
  have hlast := hs.lastRange_le
  have hdone : s.isDone = true → p.stream.isDone = true := by
    rw [hstreaming]
    exact nofun
  cases h with
  | token value hindex hsize hstop =>
    exact {
      index_le := Nat.le_trans hindex (Nat.le_add_right ..)
      done := hdone
      token := fun _ _ => ⟨hsize, Nat.le_trans hlast hindex, rfl⟩
      lastRange_eq := fun hnone => absurd rfl (hnone value)
      progress := fun _ _ => .inr (Nat.lt_of_le_of_lt hindex (Nat.lt_add_of_pos_right hsize)) }
  | complaint message hindex => exact ⟨hindex, hdone, nofun, fun _ => rfl, fun _ _ => .inl rfl⟩
  | ended hindex => exact ⟨hindex, hdone, nofun, fun _ => rfl, fun _ _ => .inl rfl⟩
  | error error hindex => exact ⟨hindex, hdone, nofun, fun _ => rfl, fun _ _ => .inl rfl⟩

end Pulled

/-! ## One use -/

namespace Session

variable {lexer : Lexer (Action (Scene Bool ω)) τ} {session : Session ω} {use : Use ω}
  {result : Reply τ × Session ω}

/-- The stream is well placed, and no pull is under way. -/
structure Sound (text : Bytes) (session : Session ω) : Prop where
  placed : session.stream.Placed text
  lowered : session.scene.subject = false

theorem sound_start (text : Bytes) (tabs : TabStops) (world : ω) :
    (start text tabs world).Sound text where
  placed := ⟨rfl, Nat.zero_le _, Nat.le_refl _, isDone_of_isFailed⟩
  lowered := rfl

theorem Sound.performed (h : session.Sound text) (use : Use ω) :
    Performed session use (session.perform lexer use) :=
  perform_performed h.lowered (h.placed.text_eq ▸ h.placed.index_le) use

/-- Asking for a position moves nothing but the line cursor. -/
theorem Sound.place (h : session.Sound text) (index : Nat) :
    (session.place (τ := τ) index).2.Sound text :=
  ⟨⟨h.placed.text_eq, h.placed.index_le, h.placed.lastRange_le, h.placed.done_of_failed⟩, h.lowered⟩

theorem advances_place (session : Session ω) (index : Nat) :
    Advances session.stream (session.place (τ := τ) index).1
      (session.place (τ := τ) index).2.stream :=
  ⟨Nat.le_refl _, id, nofun, fun _ => rfl, nofun⟩

theorem Performed.sound (h : Performed session use result) (hs : session.Sound text) :
    result.2.Sound text := by
  cases h with
  | nothing => exact hs
  | pulled hstreaming hpulled hdown => exact ⟨hpulled.placed hs.placed, hdown⟩
  | position => exact hs.place _
  | positionAt index => exact hs.place index
  | setTabs | setWorld => exact ⟨hs.placed, hs.lowered⟩

theorem Performed.advances (h : Performed session use result) (hs : session.Sound text) :
    Advances session.stream result.1 result.2.stream := by
  cases h with
  | nothing hdone => exact ⟨Nat.le_refl _, id, nofun, fun _ => rfl, fun _ _ => .inl hdone⟩
  | pulled hstreaming hpulled hdown => exact hpulled.advances hs.placed hstreaming
  | position => exact advances_place session _
  | positionAt index => exact advances_place session index
  | setTabs | setWorld => exact ⟨Nat.le_refl _, id, nofun, fun _ => rfl, nofun⟩

/-! ## All uses -/

/-- Where uses lead from a session: the stream has not moved back, what was done is done, and each
pull has taken at least one byte until the stream was done. -/
structure Leads (text : Bytes) (session : Session ω) (uses : List (Use ω)) (after : Session ω) :
    Prop where
  sound : after.Sound text
  index_le : session.stream.index ≤ after.stream.index
  done : session.stream.isDone = true → after.stream.isDone = true
  progress : after.stream.isDone = true ∨
    session.stream.index + uses.countP Use.isNext ≤ after.stream.index

theorem Leads.perform {uses : List (Use ω)} {between : Session ω}
    (h : session.Leads text uses between) (use : Use ω) :
    session.Leads text (uses ++ [use]) (between.perform lexer use).2 := by
  have hperformed : Performed between use (between.perform lexer use) := h.sound.performed use
  have hadvances := hperformed.advances h.sound
  refine ⟨hperformed.sound h.sound, Nat.le_trans h.index_le hadvances.index_le,
    fun hdone => hadvances.done (h.done hdone), ?_⟩
  rcases h.progress with hdone | hcount
  · exact .inl (hadvances.done hdone)
  · have hindex := hadvances.index_le
    rw [List.countP_append, List.countP_singleton]
    cases use with
    | next =>
      refine (hadvances.progress _ rfl).imp_right fun hlt => ?_
      simp only [Use.isNext, if_true]
      omega
    | position | positionAt | setTabs | setWorld =>
      refine .inr ?_
      simp only [Use.isNext, Bool.false_eq_true, if_false]
      omega

theorem leads_after (h : session.Sound text) (uses : List (Use ω)) :
    session.Leads text uses (session.after lexer uses) :=
  after_induction (P := session.Leads text) (fun _ _ use hleads => hleads.perform use) []
    session ⟨h, Nat.le_refl _, id, .inr (Nat.le_refl _)⟩ uses

/-- A stream of any lexer, used in any way, is well placed on its text, and whatever is done next
moves it forwards. Later uses leave it no earlier in the text, and done if it was done; then a pull
delivers nothing and changes nothing. One pull more than the text has bytes ends it. -/
theorem safe_after_uses (lexer : Lexer (Action (Scene Bool ω)) τ) (text : Bytes) (tabs : TabStops)
    (world : ω) (uses : List (Use ω)) :
    let session := (start text tabs world).after lexer uses
    session.stream.Placed text ∧
      (∀ use, Advances session.stream (session.perform lexer use).1
        (session.perform lexer use).2.stream) ∧
      (∀ later, let final := session.after lexer later
        session.stream.index ≤ final.stream.index ∧
          (session.stream.isDone = true → final.stream.isDone = true)) ∧
      (session.stream.isDone = true →
        session.perform lexer .next = (.pulled (.ok none), session)) ∧
      (text.length + 1 ≤ uses.countP Use.isNext → session.stream.isDone = true) := by
  intro session
  have hleads : (start text tabs world).Leads text uses session :=
    leads_after (sound_start text tabs world) uses
  have hsound := hleads.sound
  refine ⟨hsound.placed, fun use => (hsound.performed use).advances hsound, ?_,
    perform_next_of_isDone, ?_⟩
  · intro later final
    have hlater : session.Leads text later final := leads_after hsound later
    exact ⟨hlater.index_le, hlater.done⟩
  · intro hcount
    have hindex := hsound.placed.index_le
    refine hleads.progress.resolve_right fun hprogress => ?_
    omega

end Session

end ShiftReduce.Stream
