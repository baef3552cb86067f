import ShiftReduce.Proofs.Lexer.Decision
import ShiftReduce.Source.Diagnostic
import ShiftReduce.Source.LineCursor

/-!
# Lexings of a text

A `Lexing` lists the tokens found in a text with their ranges, the complaint that lexing ended with,
and the offset it got to. `Lexing.From` says when it is the one that skipping ignored bytes and
trusting the first decision leads to: not by how it is found, but by what holds at every offset.

Four lemmas build lexings up from the end of the text (`From.atEnd`, `From.skip`, `From.token`,
`From.fail`). Read backwards they show that there is only one (`From.unique`), and that it skips a
byte or takes a token at a time (`From.steps`).
-/

namespace ShiftReduce

variable {τ : Type}

/-- The offset behind a range. -/
def Range.stop (range : Range) : Nat := range.index + range.size

def Range.Covers (range : Range) (offset : Nat) : Prop :=
  range.index ≤ offset ∧ offset < range.stop

/-- The diagnostic for a failure at an offset of a text. -/
def Diagnostic.at (tabs : TabStops) (text : Bytes) (offset : Nat) (message : Bytes) : Diagnostic :=
  { message, index := offset, position := (LineCursor.positionAt {} tabs text offset).1 }

/-- The tokens of a text with their ranges, the complaint after them, and the offset reached. -/
structure Lexing (τ : Type) where
  tokens : List (τ × Range)
  complaint? : Option Diagnostic
  final : Nat

namespace Lexing

/-- A lexing of what is behind the offset `start`. The tokens follow one another, each of them what
the lexer decides at its offset; whatever no token covers is ignored; and the end is the end of the
text or a failure. -/
structure From (lexer : Lexer Id τ) (text : Bytes) (start : Nat) (lexing : Lexing τ) : Prop where
  start_le : start ≤ lexing.final
  final_le : lexing.final ≤ text.length
  ordered : lexing.tokens.Pairwise fun a b => a.2.stop ≤ b.2.index
  inside : ∀ entry ∈ lexing.tokens,
    start ≤ entry.2.index ∧ entry.2.index < entry.2.stop ∧ entry.2.stop ≤ lexing.final
  decided : ∀ entry ∈ lexing.tokens, ∃ remainder,
    lexer.Decides (text.drop entry.2.index) (.success entry.1 remainder) ∧
      remainder.text = text.drop entry.2.stop
  ignored : ∀ offset, start ≤ offset → offset < lexing.final →
    (∀ entry ∈ lexing.tokens, ¬ entry.2.Covers offset) → lexer.Ignores (text.drop offset)
  complaint : ∀ complaint ∈ lexing.complaint?, lexing.final < text.length ∧
    ∃ message, lexer.Decides (text.drop lexing.final) (.failed message) ∧
      complaint = .at lexer.tabs text lexing.final message
  ended : lexing.complaint? = none → lexing.final = text.length

/-- The offset is looked at: it is up to the end of the lexing, and not in the middle of a token. -/
def Reaches (lexing : Lexing τ) (text : Bytes) (offset : Nat) : Prop :=
  offset < text.length ∧ offset ≤ lexing.final ∧
    ∀ entry ∈ lexing.tokens, entry.2.index = offset ∨ ¬ entry.2.Covers offset

namespace From

variable {lexer : Lexer Id τ} {text : Bytes} {start : Nat} {lexing : Lexing τ}

/-! ## Building lexings -/

theorem atEnd (lexer : Lexer Id τ) (text : Bytes) :
    From lexer text text.length { tokens := [], complaint? := none, final := text.length } where
  start_le := Nat.le_refl _
  final_le := Nat.le_refl _
  ordered := .nil
  inside := fun _ h => (nomatch h)
  decided := fun _ h => (nomatch h)
  ignored := fun offset hstart hfinal _ => absurd hstart (by simpa using hfinal)
  complaint := fun _ h => (nomatch h)
  ended := fun _ => rfl

theorem fail {message : Bytes} (hlt : start < text.length)
    (hdecides : lexer.Decides (text.drop start) (.failed message)) :
    From lexer text start {
      tokens := [], complaint? := some (.at lexer.tabs text start message), final := start } where
  start_le := Nat.le_refl _
  final_le := Nat.le_of_lt hlt
  ordered := .nil
  inside := fun _ h => (nomatch h)
  decided := fun _ h => (nomatch h)
  ignored := fun offset hstart hfinal _ => absurd hstart (by simpa using hfinal)
  complaint := fun _ h => ⟨hlt, message, hdecides, (Option.some.inj h).symm⟩
  ended := fun h => (nomatch h)

theorem skip {next : Nat} (h : lexing.From lexer text next) (hle : start ≤ next)
    (hignores : ∀ offset, start ≤ offset → offset < next → lexer.Ignores (text.drop offset)) :
    lexing.From lexer text start where
  start_le := Nat.le_trans hle h.start_le
  final_le := h.final_le
  ordered := h.ordered
  inside := by
    intro entry hmem
    obtain ⟨hstart, hrest⟩ := h.inside entry hmem
    exact ⟨Nat.le_trans hle hstart, hrest⟩
  decided := h.decided
  ignored := by
    intro offset hstart hfinal hcovered
    rcases Nat.lt_or_ge offset next with hlt | hge
    · exact hignores offset hstart hlt
    · exact h.ignored offset hge hfinal hcovered
  complaint := h.complaint
  ended := h.ended

theorem token {token : τ} {remainder : Remainder} {n : Nat}
    (h : lexing.From lexer text (start + n)) (hn : 0 < n)
    (hdecides : lexer.Decides (text.drop start) (.success token remainder))
    (hremainder : remainder.text = text.drop (start + n)) :
    From lexer text start {
      lexing with tokens := (token, { index := start, size := n }) :: lexing.tokens } where
  start_le := Nat.le_trans (Nat.le_add_right start n) h.start_le
  final_le := h.final_le
  ordered := List.pairwise_cons.2 ⟨fun entry hmem => (h.inside entry hmem).1, h.ordered⟩
  inside := by
    have hfirst : start < start + n := Nat.lt_add_of_pos_right hn
    refine List.forall_mem_cons.2 ⟨⟨Nat.le_refl _, hfirst, h.start_le⟩, ?_⟩
    intro entry hmem
    obtain ⟨hstart, hrest⟩ := h.inside entry hmem
    exact ⟨Nat.le_trans (Nat.le_add_right start n) hstart, hrest⟩
  decided := List.forall_mem_cons.2 ⟨⟨remainder, hdecides, hremainder⟩, h.decided⟩
  ignored := by
    intro offset hstart hfinal hcovered
    obtain ⟨hfirst, hothers⟩ := List.forall_mem_cons.1 hcovered
    have hbehind : start + n ≤ offset := Nat.le_of_not_lt fun hlt => hfirst ⟨hstart, hlt⟩
    exact h.ignored offset hbehind hfinal hothers
  complaint := h.complaint
  ended := h.ended

/-! ## Failures -/

/-- A failure that is met is the end of the lexing, and the complaint is about it. -/
theorem complaint_of_failed {offset : Nat} {message : Bytes} (h : lexing.From lexer text start)
    (hstart : start ≤ offset) (hreaches : lexing.Reaches text offset)
    (hdecides : lexer.Decides (text.drop offset) (.failed message)) :
    lexing.final = offset ∧ lexing.complaint? = some (.at lexer.tabs text offset message) := by
  obtain ⟨hlt, hle, hreached⟩ := hreaches
  have huncovered : ∀ entry ∈ lexing.tokens, ¬ entry.2.Covers offset := by
    intro entry hmem hcovers
    rcases hreached entry hmem with rfl | huncovered
    · obtain ⟨remainder, hsuccess, -⟩ := h.decided entry hmem
      exact nomatch hdecides.unique hsuccess
    · exact huncovered hcovers
  have hfinal : lexing.final = offset := by
    refine (Nat.eq_or_lt_of_le hle).elim Eq.symm fun hbefore => ?_
    exact absurd (h.ignored offset hstart hbefore huncovered) hdecides.not_ignores
  refine ⟨hfinal, ?_⟩
  cases hsome : lexing.complaint? with
  | none =>
    have := h.ended hsome
    omega
  | some complaint =>
    obtain ⟨-, other, hother, rfl⟩ := h.complaint complaint hsome
    rw [hfinal] at hother ⊢
    cases hdecides.unique hother
    rfl

/-- There is a complaint exactly if a failure is met. -/
theorem complaint_iff (h : lexing.From lexer text start) :
    lexing.complaint? ≠ none ↔ ∃ offset message, start ≤ offset ∧ lexing.Reaches text offset ∧
      lexer.Decides (text.drop offset) (.failed message) := by
  constructor
  · intro hsome
    obtain ⟨complaint, hcomplaint⟩ := Option.ne_none_iff_exists'.1 hsome
    obtain ⟨hlt, message, hdecides, -⟩ := h.complaint complaint hcomplaint
    refine ⟨lexing.final, message, h.start_le, ⟨hlt, Nat.le_refl _, ?_⟩, hdecides⟩
    exact fun entry hmem => .inr fun hcovers =>
      absurd hcovers.2 (Nat.not_lt_of_le (h.inside entry hmem).2.2)
  · rintro ⟨offset, message, hstart, hreaches, hdecides⟩ hnone
    have hsome := (h.complaint_of_failed hstart hreaches hdecides).2
    exact nomatch hnone.symm.trans hsome

/-! ## Only one lexing -/

theorem tokens_eq_nil (h : lexing.From lexer text start) (hfinal : lexing.final ≤ start) :
    lexing.tokens = [] := by
  refine List.eq_nil_iff_forall_not_mem.2 fun entry hmem => ?_
  have := h.inside entry hmem
  omega

theorem eq_of_atEnd (h : lexing.From lexer text text.length) :
    lexing = { tokens := [], complaint? := none, final := text.length } := by
  have hfinal : lexing.final = text.length := Nat.le_antisymm h.final_le h.start_le
  have htokens : lexing.tokens = [] := h.tokens_eq_nil h.final_le
  have hcomplaint : lexing.complaint? = none := by
    refine Option.eq_none_iff_forall_not_mem.2 fun complaint hmem => ?_
    have := (h.complaint complaint hmem).1
    omega
  cases lexing
  simp_all

/-- A lexing can end before the end of the text only with a failure. -/
theorem lt_final (h : lexing.From lexer text start) (hlt : start < text.length)
    (hfailed : ∀ message, ¬ lexer.Decides (text.drop start) (.failed message)) :
    start < lexing.final := by
  refine Nat.lt_of_le_of_ne h.start_le fun heq => ?_
  cases hcomplaint : lexing.complaint? with
  | none =>
    have := h.ended hcomplaint
    omega
  | some complaint =>
    obtain ⟨-, message, hdecides, -⟩ := h.complaint complaint hcomplaint
    exact hfailed message (heq ▸ hdecides)

/-- A token in the way of the offset that the lexing starts from is the first and starts there. -/
theorem exists_head (h : lexing.From lexer text start) {entry : τ × Range}
    (hmem : entry ∈ lexing.tokens) (hcovers : entry.2.Covers start) :
    entry.2.index = start ∧ ∃ others, lexing.tokens = entry :: others := by
  have hindex : entry.2.index = start := Nat.le_antisymm hcovers.1 (h.inside entry hmem).1
  refine ⟨hindex, ?_⟩
  cases htokens : lexing.tokens with
  | nil =>
    rw [htokens] at hmem
    exact nomatch hmem
  | cons first others =>
    rw [htokens] at hmem
    rcases List.mem_cons.1 hmem with rfl | hother
    · exact ⟨others, rfl⟩
    · have hordered : first.2.stop ≤ entry.2.index :=
        (List.pairwise_cons.1 (htokens ▸ h.ordered)).1 entry hother
      have hfirst := h.inside first (htokens ▸ List.mem_cons_self)
      omega

theorem of_ignores (h : lexing.From lexer text start) (hlt : start < text.length)
    (hignores : lexer.Ignores (text.drop start)) : lexing.From lexer text (start + 1) where
  start_le := h.lt_final hlt fun _ hdecides => hdecides.not_ignores hignores
  final_le := h.final_le
  ordered := h.ordered
  inside := by
    intro entry hmem
    obtain ⟨hstart, hrest⟩ := h.inside entry hmem
    refine ⟨Nat.lt_of_le_of_ne hstart ?_, hrest⟩
    rintro rfl
    obtain ⟨remainder, hdecides, -⟩ := h.decided entry hmem
    exact hdecides.not_ignores hignores
  decided := h.decided
  ignored := fun offset hstart => h.ignored offset (Nat.le_of_succ_le hstart)
  complaint := h.complaint
  ended := h.ended

theorem reaches_start (h : lexing.From lexer text start) (hlt : start < text.length) :
    lexing.Reaches text start := by
  refine ⟨hlt, h.start_le, fun entry hmem => ?_⟩
  by_cases hcovers : entry.2.Covers start
  · exact .inl (h.exists_head hmem hcovers).1
  · exact .inr hcovers

theorem eq_of_failed {message : Bytes} (h : lexing.From lexer text start)
    (hlt : start < text.length) (hdecides : lexer.Decides (text.drop start) (.failed message)) :
    lexing = {
      tokens := [], complaint? := some (.at lexer.tabs text start message), final := start } := by
  obtain ⟨hfinal, hcomplaint⟩ :=
    h.complaint_of_failed (Nat.le_refl _) (h.reaches_start hlt) hdecides
  have htokens : lexing.tokens = [] := h.tokens_eq_nil (Nat.le_of_eq hfinal)
  cases lexing
  simp_all

theorem of_success {token : τ} {remainder : Remainder} (h : lexing.From lexer text start)
    (hlt : start < text.length)
    (hdecides : lexer.Decides (text.drop start) (.success token remainder)) :
    ∃ n others, start + n + remainder.text.length = text.length ∧
      lexing.tokens = (token, { index := start, size := n }) :: others ∧
      From lexer text (start + n) { lexing with tokens := others } := by
  have hbefore : start < lexing.final :=
    h.lt_final hlt fun message hfailed => nomatch hdecides.unique hfailed
  obtain ⟨⟨value, range⟩, hmem, hcovers⟩ :
      ∃ entry ∈ lexing.tokens, entry.2.Covers start := by
    refine Classical.byContradiction fun hnone => ?_
    refine hdecides.not_ignores (h.ignored start (Nat.le_refl _) hbefore ?_)
    exact fun entry hmem hcovers => hnone ⟨entry, hmem, hcovers⟩
  obtain ⟨rfl, others, htokens⟩ := h.exists_head hmem hcovers
  obtain ⟨_, hsuccess, hremainder⟩ := h.decided _ hmem
  cases hdecides.unique hsuccess
  obtain ⟨-, -, hstop⟩ := h.inside _ hmem
  have hordered := List.pairwise_cons.1 (htokens ▸ h.ordered)
  refine ⟨range.size, others, ?_, htokens, ?_⟩
  · have := h.final_le
    rw [hremainder, List.length_drop]
    simp only [Range.stop] at hstop ⊢
    omega
  · have hothers : ∀ entry ∈ others, entry ∈ lexing.tokens := fun entry hother =>
      htokens ▸ List.mem_cons_of_mem _ hother
    exact {
      start_le := hstop
      final_le := h.final_le
      ordered := hordered.2
      inside := fun entry hother =>
        ⟨hordered.1 entry hother, (h.inside entry (hothers entry hother)).2⟩
      decided := fun entry hother => h.decided entry (hothers entry hother)
      ignored := by
        intro offset hbehind hfinal huncovered
        refine h.ignored offset (Nat.le_trans (Nat.le_add_right _ _) hbehind) hfinal ?_
        rw [htokens]
        refine List.forall_mem_cons.2 ⟨fun hcovers' => ?_, huncovered⟩
        exact absurd hcovers'.2 (Nat.not_lt_of_le hbehind)
      complaint := h.complaint
      ended := h.ended }

/-- There is only one lexing from an offset on. -/
theorem unique {a b : Lexing τ} (ha : a.From lexer text start) (hb : b.From lexer text start) :
    a = b := by
  -- by how much of the text is left; what the lexer says at `start` leaves one way to go on
  induction hn : text.length - start using Nat.strongRecOn generalizing start a b with
  | ind n ih =>
    rcases Nat.eq_or_lt_of_le (Nat.le_trans ha.start_le ha.final_le) with rfl | hlt
    · rw [ha.eq_of_atEnd, hb.eq_of_atEnd]
    · rcases lexer.ignores_or_decides (text.drop start) with hignores | ⟨decision, hdecides⟩
      · exact ih _ (by omega) (ha.of_ignores hlt hignores) (hb.of_ignores hlt hignores) rfl
      · cases decision with
        | ignored => exact absurd rfl hdecides.ne_ignored
        | failed message => rw [ha.eq_of_failed hlt hdecides, hb.eq_of_failed hlt hdecides]
        | success token remainder =>
          obtain ⟨n, others, hsize, htokens, hrest⟩ := ha.of_success hlt hdecides
          obtain ⟨n', others', hsize', htokens', hrest'⟩ := hb.of_success hlt hdecides
          obtain rfl : n' = n := by omega
          have hpos : start < start + n' :=
            ((ha.inside _ (htokens ▸ List.mem_cons_self)).2).1
          have heq := ih _ (by omega) hrest hrest' rfl
          cases a
          cases b
          simp_all

/-! ## From left to right -/

/-- The steps of a lexing: from each offset it skips a byte or takes a token, until it stops. -/
inductive Steps (lexer : Lexer Id τ) (text : Bytes) (final : Nat) :
    Nat → List (τ × Range) → Prop
  | stop : Steps lexer text final final []
  | skip {start : Nat} {tokens : List (τ × Range)} (hlt : start < text.length)
      (hignores : lexer.Ignores (text.drop start)) (h : Steps lexer text final (start + 1) tokens) :
      Steps lexer text final start tokens
  | take {start n : Nat} {tokens : List (τ × Range)} {token : τ} {remainder : Remainder}
      (hle : start + n ≤ text.length)
      (hdecides : lexer.Decides (text.drop start) (.success token remainder))
      (hremainder : remainder.text = text.drop (start + n))
      (h : Steps lexer text final (start + n) tokens) :
      Steps lexer text final start ((token, { index := start, size := n }) :: tokens)

theorem steps (h : lexing.From lexer text start) :
    Steps lexer text lexing.final start lexing.tokens := by
  induction hn : text.length - start using Nat.strongRecOn generalizing start lexing with
  | ind n ih =>
    rcases Nat.eq_or_lt_of_le (Nat.le_trans h.start_le h.final_le) with rfl | hlt
    · rw [h.eq_of_atEnd]
      exact .stop
    · rcases lexer.ignores_or_decides (text.drop start) with hignores | ⟨decision, hdecides⟩
      · exact .skip hlt hignores (ih _ (by omega) (h.of_ignores hlt hignores) rfl)
      · cases decision with
        | ignored => exact absurd rfl hdecides.ne_ignored
        | failed message =>
          rw [h.eq_of_failed hlt hdecides]
          exact .stop
        | success token remainder =>
          obtain ⟨n, others, hsize, htokens, hrest⟩ := h.of_success hlt hdecides
          obtain ⟨-, hpos, hstop⟩ := h.inside _ (htokens ▸ List.mem_cons_self)
          have hpos : start < start + n := hpos
          obtain ⟨remainder', hdecides', hremainder⟩ := h.decided _ (htokens ▸ List.mem_cons_self)
          cases hdecides.unique hdecides'
          rw [htokens]
          exact .take (by omega) hdecides hremainder (ih _ (by omega) hrest rfl)

end From

end Lexing

end ShiftReduce
