import ShiftReduce.Proofs.Lexer.Safety
import ShiftReduce.Proofs.Source.Columns
import ShiftReduce.Proofs.Source.LineEnds

/-!
# Positions do not remember

Every question about a place moves the line cursor of the stream, and so does a diagnostic. The
cursor stays on the text all the same (`Stream.OnText`), and a cursor on the text answers the
position of an offset from the text alone. So what a stream answers does not show what it was asked
before (`Stream.Session.positions_after_uses`), its answers are ordered as the offsets are
(`Stream.Session.positions_ordered`), and how the lines of the text end does not matter
(`Stream.Session.positions_keep_line_ends`).
-/

namespace ShiftReduce.Stream

variable {τ ω : Type} {text : Bytes} {s : Stream}

/-- The line cursor of the stream holds the line structure of some first bytes of the text. -/
def OnText (text : Bytes) (s : Stream) : Prop := ∃ k, s.cursor = .ofPrefix (text.take k)

/-- Such a stream answers the position of an offset, and stays on the text. -/
theorem OnText.positionAt (h : s.OnText s.text) (tabs : TabStops) (index : Nat) :
    (s.positionAt tabs index).1 = .of tabs s.text index ∧
      (s.positionAt tabs index).2.OnText s.text := by
  obtain ⟨k, hcursor⟩ := h
  unfold Stream.positionAt
  rw [hcursor, LineCursor.positionAt_ofPrefix]
  exact ⟨rfl, _, rfl⟩

theorem Pulled.onText {tabs : TabStops} {p : Pull τ} (h : Pulled tabs s p)
    (hs : s.OnText s.text) : p.stream.OnText s.text := by
  cases h with
  | token | ended | error => exact hs
  | complaint => exact (hs.positionAt tabs _).2

/-- A diagnostic is placed where the text says. -/
theorem Pulled.position_eq {tabs : TabStops} {p : Pull τ} (h : Pulled tabs s p)
    (hs : s.OnText s.text) {complaint : Diagnostic}
    (hresult : p.result = .ok (some (.diagnostic complaint))) :
    complaint.position = .of tabs s.text complaint.index := by
  cases h with
  | token | ended | error => exact nomatch hresult
  | complaint =>
    cases hresult
    exact (hs.positionAt tabs _).1

namespace Session

variable {lexer : Lexer (Action (Scene Bool ω)) τ} {session : Session ω} {use : Use ω}
  {result : Reply τ × Session ω}

theorem Performed.onText (h : Performed session use result)
    (hs : session.stream.OnText session.stream.text) :
    result.2.stream.OnText session.stream.text := by
  cases h with
  | nothing | setTabs | setWorld => exact hs
  | pulled _ hpulled => exact hpulled.onText hs
  | position => exact (hs.positionAt session.tabs _).2
  | positionAt index => exact (hs.positionAt session.tabs index).2

theorem Performed.position_eq (h : Performed session .next result)
    (hs : session.stream.OnText session.stream.text) {complaint : Diagnostic}
    (hreply : result.1 = .pulled (.ok (some (.diagnostic complaint)))) :
    complaint.position = .of session.tabs session.stream.text complaint.index := by
  cases h with
  | nothing => exact nomatch hreply
  | pulled _ hpulled => exact hpulled.position_eq hs (Reply.pulled.inj hreply)

theorem onText_after (text : Bytes) (tabs : TabStops) (world : ω) (uses : List (Use ω)) :
    let session := (start text tabs world).after lexer uses
    session.Sound text ∧ session.stream.OnText text := by
  have hstep : ∀ (before : List (Use ω)) (session : Session ω) (use : Use ω),
      session.Sound text ∧ session.stream.OnText text →
        (session.perform lexer use).2.Sound text ∧
          (session.perform lexer use).2.stream.OnText text := by
    rintro - session use ⟨hsound, hs⟩
    have hperformed : Performed session use (session.perform lexer use) := hsound.performed use
    rw [← hsound.placed.text_eq] at hs
    have hafter := hperformed.onText hs
    rw [hsound.placed.text_eq] at hafter
    exact ⟨hperformed.sound hsound, hafter⟩
  exact after_induction (P := fun _ session => session.Sound text ∧ session.stream.OnText text)
    hstep [] _ ⟨sound_start text tabs world, 0, rfl⟩ uses

/-- Whatever was done with a stream, it answers for every offset the position that the text and the
present tab stops give it, and a diagnostic that it delivers has the position of its offset. -/
theorem positions_after_uses (lexer : Lexer (Action (Scene Bool ω)) τ) (text : Bytes)
    (tabs : TabStops) (world : ω) (uses : List (Use ω)) :
    let session := (start text tabs world).after lexer uses
    (∀ index, (session.perform lexer (.positionAt index)).1 =
        .place (.of session.tabs text index)) ∧
      (session.perform lexer .position).1 =
        .place (.of session.tabs text session.stream.index) ∧
      ∀ complaint, (session.perform lexer .next).1 = .pulled (.ok (some (.diagnostic complaint))) →
        complaint.position = .of session.tabs text complaint.index := by
  intro session
  obtain ⟨hsound, hs⟩ : session.Sound text ∧ session.stream.OnText text :=
    onText_after text tabs world uses
  have htext := hsound.placed.text_eq
  rw [← htext] at hs
  have hplace (index : Nat) :
      (session.place (τ := τ) index).1 = .place (.of session.tabs text index) := by
    rw [← htext, ← (hs.positionAt session.tabs index).1]
    rfl
  refine ⟨hplace, hplace session.stream.index, fun complaint hreply => ?_⟩
  rw [← htext]
  exact (hsound.performed .next).position_eq hs hreply

theorem place_after (lexer : Lexer (Action (Scene Bool ω)) τ) (text : Bytes) (tabs : TabStops)
    (world : ω) (uses : List (Use ω)) (index : Nat) :
    let session := (start text tabs world).after lexer uses
    (session.perform lexer (.positionAt index)).1 = .place (.of session.tabs text index) := by
  intro session
  obtain ⟨hsound, hs⟩ : session.Sound text ∧ session.stream.OnText text :=
    onText_after text tabs world uses
  have htext := hsound.placed.text_eq
  rw [← htext] at hs ⊢
  rw [← (hs.positionAt session.tabs index).1]
  rfl

/-- Positions that are asked for at any time, with the same tab stops, are ordered as their offsets
are, if the columns of the whole text fit in a word. Lines and columns are counted from one, and
nothing wraps around on the way to a column. -/
theorem positions_ordered (lexer : Lexer (Action (Scene Bool ω)) τ) (text : Bytes)
    (tabs : TabStops) (world : ω) (uses uses' : List (Use ω)) :
    let session := (start text tabs world).after lexer uses
    let session' := (start text tabs world).after lexer uses'
    session'.tabs = session.tabs →
    1 + text.length * max 1 session.tabs.width.toNat + session.tabs.width.toNat < 2 ^ 64 →
    ∀ i j, i ≤ j → ∃ p q,
      (session.perform lexer (.positionAt i)).1 = .place p ∧
      (session'.perform lexer (.positionAt j)).1 = .place q ∧
      p ≤ q ∧ 1 ≤ p.line ∧ 1 ≤ p.column ∧
      let runes := Utf8.runes (Bytes.lastLine (text.take (min i text.length)))
      p.column = runes.foldl (LineCursor.columnAfter session.tabs) 1 ∧
      ∀ before rune after, runes = before ++ rune :: after →
        LineCursor.Unwrapped session.tabs
          (before.foldl (LineCursor.columnAfter session.tabs) 1) rune := by
  intro session session' htabs hroom i j hij
  have hstrides : 1 + text.length * session.tabs.stride < 2 ^ 64 :=
    Nat.lt_of_le_of_lt (Nat.le_add_right _ _) hroom
  have hlater := place_after lexer text tabs world uses' j
  have hordered : Position.of session.tabs text i ≤ .of session'.tabs text j := by
    rw [htabs]
    exact Position.of_le_of hstrides hij
  obtain ⟨hline, hcolumn⟩ := Position.one_le_of hstrides i
  refine ⟨_, _, place_after lexer text tabs world uses i, hlater, hordered, hline, hcolumn, rfl, ?_⟩
  intro before rune after hrunes
  exact LineCursor.column_unwrapped (Position.lastLine_room hstrides _) hrunes

/-- A tab, a rune of two bytes and a carriage return with its line feed: the position inside the
rune is not behind the one inside the line break. -/
theorem positions_ordered_inside :
    let text : Bytes := [0x09, 0xC3, 0xA9, 0x0D, 0x0A, 0x62]
    let lexer : Lexer (Action (Scene Bool Unit)) Unit := {}
    let session := start text .standard ()
    let later := session.after lexer [.positionAt 6]
    ∃ p q, (session.perform lexer (.positionAt 2)).1 = .place p ∧
      (later.perform lexer (.positionAt 4)).1 = .place q ∧ p ≤ q ∧ 1 ≤ p.line ∧ 1 ≤ p.column := by
  intro text lexer session later
  obtain ⟨p, q, hp, hq, hle, hline, hcolumn, -⟩ :=
    positions_ordered lexer text .standard () [] [.positionAt 6] rfl (by decide) 2 4 (by decide)
  exact ⟨p, q, hp, hq, hle, hline, hcolumn⟩

/-- A text without carriage returns, and the same text with other line ends: whatever was done with
the streams on them, with the same tab stops they answer the same position for the place where a byte
begins and for the place where its image begins, and so they do for the two ends. -/
theorem positions_keep_line_ends {τ' ω' : Type} (lineEnd : LineEnd) {text : Bytes}
    (htext : 0x0D ∉ text) (lexer : Lexer (Action (Scene Bool ω)) τ)
    (lexer' : Lexer (Action (Scene Bool ω')) τ') (tabs tabs' : TabStops) (world : ω) (world' : ω')
    (uses : List (Use ω)) (uses' : List (Use ω')) :
    let session := (start text tabs world).after lexer uses
    let session' := (start (lineEnd.rewrite text) tabs' world').after lexer' uses'
    session'.tabs = session.tabs →
    (∀ index, (lineEnd.rewrite text).drop (lineEnd.offset text index) =
        lineEnd.rewrite (text.drop index) ∧
      ∃ position, (session.perform lexer (.positionAt index)).1 = .place position ∧
        (session'.perform lexer' (.positionAt (lineEnd.offset text index))).1 = .place position) ∧
      lineEnd.offset text text.length = (lineEnd.rewrite text).length := by
  intro session session' htabs
  refine ⟨fun index => ⟨lineEnd.drop_offset text index, _,
    place_after lexer text tabs world uses index, ?_⟩, ?_⟩
  · have hplace := place_after lexer' (lineEnd.rewrite text) tabs' world' uses'
      (lineEnd.offset text index)
    rw [← lineEnd.position_offset session.tabs htext index, ← htabs]
    exact hplace
  · rw [LineEnd.offset, List.take_length]

/-- A tab behind an empty line, with its line ends written in two bytes and looked at from behind. -/
theorem positions_keep_line_ends_tab :
    let text : Bytes := [0x61, 0x0A, 0x0A, 0x09, 0x62]
    let lexer : Lexer (Action (Scene Bool Unit)) Unit := {}
    let session := start text .standard ()
    let later := (start (LineEnd.returnFeed.rewrite text) .standard ()).after lexer [.positionAt 7]
    0x0D ∉ text ∧ later.tabs = session.tabs ∧ LineEnd.returnFeed.offset text 4 = 6 ∧
      ∃ position, (session.perform lexer (.positionAt 4)).1 = .place position ∧
        (later.perform lexer (.positionAt 6)).1 = .place position := by
  intro text lexer session later
  have htext : 0x0D ∉ text := by decide
  obtain ⟨hplaces, -⟩ := positions_keep_line_ends .returnFeed htext lexer lexer .standard .standard
    () () [] [.positionAt 7] rfl
  exact ⟨htext, rfl, rfl, (hplaces 4).2⟩

end Session

end ShiftReduce.Stream
