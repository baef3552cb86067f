import ShiftReduce.Proofs.Lexer.Lexing
import ShiftReduce.Proofs.Lexer.LineBound
import ShiftReduce.Proofs.Lexer.Tokens
import ShiftReduce.Proofs.Source.Lines

/-!
# Lexing one text behind another

Behind a text a lexing is the same with everything moved: the tokens as far as the text is long, and
a complaint also as many lines down as the text has line breaks (`Lexing.behind`). If the
recognizers stay inside a line and the first text ends in a line feed, then its tokens are the first
tokens of both texts together, and the lexing of the second goes on from there
(`Lexing.From.append`, `Lexing.From.of_append`). The last token of such a text is the one of its
line feed (`Lexing.From.exists_tokens_concat`).
-/

namespace ShiftReduce

variable {τ ω : Type}

/-! ## What is moved -/

/-- A range behind `n` more bytes. -/
def Range.behind (n : Nat) (range : Range) : Range := { range with index := n + range.index }

theorem Range.stop_behind (n : Nat) (range : Range) : (range.behind n).stop = n + range.stop :=
  Nat.add_assoc n range.index range.size

namespace Diagnostic

/-- The diagnostic about a text when another text that ends a line comes before it. -/
def behind (text : Bytes) (d : Diagnostic) : Diagnostic where
  message := d.message
  index := text.length + d.index
  position := { d.position with line := d.position.line + .ofNat (Bytes.lineBreaks text) }

theorem at_eq (tabs : TabStops) (text : Bytes) (offset : Nat) (message : Bytes) :
    Diagnostic.at tabs text offset message =
      { message, index := offset, position := .of tabs text offset } :=
  congrArg (fun place : Position × LineCursor => Diagnostic.mk message offset place.1)
    (LineCursor.positionAt_ofPrefix tabs text 0 offset)

theorem at_append (tabs : TabStops) {text : Bytes} (h : text.getLast? = some Bytes.lineFeed)
    (more : Bytes) (offset : Nat) (message : Bytes) :
    Diagnostic.at tabs (text ++ more) (text.length + offset) message =
      (Diagnostic.at tabs more offset message).behind text := by
  rw [at_eq, at_eq, Position.of_append tabs h]
  rfl

end Diagnostic

namespace Lexing

/-- The lexing of a text when another text that ends a line comes before it. -/
def behind (text : Bytes) (lexing : Lexing τ) : Lexing τ where
  tokens := lexing.tokens.map fun entry => (entry.1, entry.2.behind text.length)
  complaint? := lexing.complaint?.map (.behind text)
  final := text.length + lexing.final

/-- The tokens of one lexing, and then the other. -/
def append (first rest : Lexing τ) : Lexing τ :=
  { rest with tokens := first.tokens ++ rest.tokens }

namespace From

variable {lexer : Lexer Id τ} {text more : Bytes} {start : Nat} {lexing first rest whole : Lexing τ}

/-! ## Behind another text -/

theorem behind (h : lexing.From lexer more start) (htext : text.getLast? = some Bytes.lineFeed) :
    (lexing.behind text).From lexer (text ++ more) (text.length + start) where
  start_le := Nat.add_le_add_left h.start_le _
  final_le := by
    rw [List.length_append]
    exact Nat.add_le_add_left h.final_le _
  ordered := by
    apply List.pairwise_map.2
    apply h.ordered.imp
    intro a b hab
    rw [Range.stop_behind]
    exact Nat.add_le_add_left hab _
  inside := by
    intro moved hmoved
    obtain ⟨entry, hmem, rfl⟩ := List.mem_map.1 hmoved
    obtain ⟨hstart, hpos, hstop⟩ := h.inside entry hmem
    rw [Range.stop_behind]
    exact ⟨Nat.add_le_add_left hstart _, Nat.add_lt_add_left hpos _, Nat.add_le_add_left hstop _⟩
  decided := by
    intro moved hmoved
    obtain ⟨entry, hmem, rfl⟩ := List.mem_map.1 hmoved
    rw [Range.stop_behind]
    simp only [Range.behind, List.drop_length_add_append]
    exact h.decided entry hmem
  ignored := by
    intro offset hstart hfinal huncovered
    obtain ⟨k, rfl⟩ := Nat.exists_eq_add_of_le (Nat.le_trans (Nat.le_add_right _ _) hstart)
    rw [List.drop_length_add_append]
    apply h.ignored k (Nat.le_of_add_le_add_left hstart) (Nat.lt_of_add_lt_add_left hfinal)
    intro entry hmem hcovers
    apply List.forall_mem_map.1 huncovered entry hmem
    refine ⟨Nat.add_le_add_left hcovers.1 _, ?_⟩
    rw [Range.stop_behind]
    exact Nat.add_lt_add_left hcovers.2 _
  complaint := by
    intro complaint hmem
    obtain ⟨original, hsome, rfl⟩ := Option.map_eq_some_iff.1 hmem
    obtain ⟨hlt, message, hdecides, rfl⟩ := h.complaint original hsome
    refine ⟨?_, message, ?_, (Diagnostic.at_append _ htext _ _ _).symm⟩
    · rw [List.length_append]
      exact Nat.add_lt_add_left hlt _
    · rw [Lexing.behind, List.drop_length_add_append]
      exact hdecides
  ended := by
    intro hnone
    rw [List.length_append, ← h.ended (Option.map_eq_none_iff.1 hnone)]
    rfl

/-! ## One after the other -/

section Append

variable (hbound : lexer.LineBound) (htext : text.getLast? = some Bytes.lineFeed)
  (hfirst : first.From lexer text start) (hnone : first.complaint? = none)

include hbound htext hfirst hnone

theorem append (hrest : rest.From lexer (text ++ more) text.length) :
    (first.append rest).From lexer (text ++ more) start where
  start_le := by
    have hstart := hfirst.start_le
    rw [hfirst.ended hnone] at hstart
    exact Nat.le_trans hstart hrest.start_le
  final_le := hrest.final_le
  ordered := by
    refine List.pairwise_append.2 ⟨hfirst.ordered, hrest.ordered, ?_⟩
    intro a ha b hb
    have hstop := (hfirst.inside a ha).2.2
    rw [hfirst.ended hnone] at hstop
    exact Nat.le_trans hstop (hrest.inside b hb).1
  inside := by
    have hstart := hfirst.start_le
    have hfinal := hrest.start_le
    rw [hfirst.ended hnone] at hstart
    refine List.forall_mem_append.2 ⟨?_, ?_⟩
    · intro entry hmem
      obtain ⟨hbefore, hpos, hstop⟩ := hfirst.inside entry hmem
      rw [hfirst.ended hnone] at hstop
      exact ⟨hbefore, hpos, Nat.le_trans hstop hfinal⟩
    · intro entry hmem
      obtain ⟨hbefore, hpos, hstop⟩ := hrest.inside entry hmem
      exact ⟨Nat.le_trans hstart hbefore, hpos, hstop⟩
  decided := by
    refine List.forall_mem_append.2 ⟨?_, hrest.decided⟩
    intro entry hmem
    obtain ⟨-, hpos, hstop⟩ := hfirst.inside entry hmem
    obtain ⟨remainder, hdecides, hremainder⟩ := hfirst.decided entry hmem
    rw [hfirst.ended hnone] at hstop
    have hline : (text.drop entry.2.index).getLast? = some Bytes.lineFeed := by
      rw [List.getLast?_drop, if_neg (by omega), htext]
    refine ⟨remainder.extend more, ?_, ?_⟩
    · rw [List.drop_append_of_le_length (by omega)]
      exact hdecides.append hbound hline more
    · rw [List.drop_append_of_le_length hstop, Remainder.extend, hremainder]
  ignored := by
    intro offset hstart hfinal huncovered
    obtain ⟨hbefore, hbehind⟩ := List.forall_mem_append.1 huncovered
    rcases Nat.lt_or_ge offset text.length with hlt | hge
    · have hline : (text.drop offset).getLast? = some Bytes.lineFeed := by
        rw [List.getLast?_drop, if_neg (by omega), htext]
      have hignores := hfirst.ignored offset hstart (hfirst.ended hnone ▸ hlt) hbefore
      rw [List.drop_append_of_le_length (Nat.le_of_lt hlt)]
      exact hignores.append hbound hline more
    · exact hrest.ignored offset hge hfinal hbehind
  complaint := hrest.complaint
  ended := hrest.ended

end Append

/-- The lexing of two texts, the first of which ends in a line feed and without a complaint, is the
lexing of the first and then that of the second. -/
theorem of_append (hbound : lexer.LineBound) (htext : text.getLast? = some Bytes.lineFeed)
    (hfirst : first.From lexer text 0) (hnone : first.complaint? = none)
    (hrest : rest.From lexer more 0) (hwhole : whole.From lexer (text ++ more) 0) :
    whole = first.append (rest.behind text) :=
  hwhole.unique (hfirst.append hbound htext hnone (hrest.behind htext))

/-- A text that ends in a line feed has the token of the line feed as its last. -/
theorem exists_tokens_concat {token : τ} {remainder : Remainder} (hbound : lexer.LineBound)
    (htext : text.getLast? = some Bytes.lineFeed) (h : lexing.From lexer text 0)
    (hnone : lexing.complaint? = none)
    (hfeed : lexer.Decides [Bytes.lineFeed] (.success token remainder)) :
    ∃ before, lexing.tokens.map Prod.fst = before ++ [token] := by
  obtain ⟨line, rfl⟩ := List.getLast?_eq_some_iff.1 htext
  have hfinal : lexing.final = line.length + 1 := by
    rw [h.ended hnone, List.length_append, List.length_singleton]
  have hdrop : (line ++ [Bytes.lineFeed]).drop line.length = [Bytes.lineFeed] := List.drop_left
  -- the line feed is not ignored, so a token covers it
  obtain ⟨entry, hmem, hcovers⟩ : ∃ entry ∈ lexing.tokens, entry.2.Covers line.length := by
    by_contra huncovered
    push Not at huncovered
    have hignores := h.ignored line.length (Nat.zero_le _) (by omega) huncovered
    rw [hdrop] at hignores
    exact hfeed.not_ignores hignores
  obtain ⟨-, -, hstop⟩ := h.inside entry hmem
  have hend : entry.2.stop = line.length + 1 := by
    have := hcovers.2
    omega
  -- this token leaves nothing over, so it is the one of the line feed
  obtain ⟨left, hdecides, hleft⟩ := h.decided entry hmem
  have hline : ((line ++ [Bytes.lineFeed]).drop entry.2.index).getLast? = some Bytes.lineFeed := by
    have := hcovers.1
    rw [List.getLast?_drop, if_neg (by simp; omega), htext]
  have hempty : left.text = [] := by
    rw [hleft, hend]
    simp
  rw [hdecides.eq_lineFeed hbound hline hempty] at hdecides
  cases hdecides.unique hfeed
  -- and no token follows
  obtain ⟨before, after, hsplit⟩ := List.append_of_mem hmem
  cases after with
  | nil => exact ⟨before.map Prod.fst, by rw [hsplit, List.map_append]; rfl⟩
  | cons next after =>
    have hordered := h.ordered
    rw [hsplit] at hordered
    have hnext : entry.2.stop ≤ next.2.index :=
      (List.pairwise_cons.1 (List.pairwise_append.1 hordered).2.1).1 next List.mem_cons_self
    obtain ⟨-, hpos, hstop⟩ := h.inside next (by simp [hsplit])
    omega

end From

end Lexing

/-! ## Draining two texts -/

/-- Behind a text that is drained without a fault and ends in a line feed, another text is drained
as it would be alone, a complaint moved. -/
theorem Stream.drain_append {lexer : Lexer Id τ} (hbound : lexer.LineBound) {scene : Scene Bool ω}
    (hdown : scene.subject = false) {text : Bytes} (htext : text.getLast? = some Bytes.lineFeed)
    {token : τ} {remainder : Remainder}
    (hfeed : lexer.Decides [Bytes.lineFeed] (.success token remainder)) (more : Bytes) :
    ∃ first rest whole : Drained τ,
      ((ofText text).drain lexer.lift).run scene = (first, scene) ∧
      ((ofText more).drain lexer.lift).run scene = (rest, scene) ∧
      ((ofText (text ++ more)).drain lexer.lift).run scene = (whole, scene) ∧
      (first.fault? = none →
        (∃ before, first.tokens = before ++ [token]) ∧
        whole.tokens = first.tokens ++ rest.tokens ∧
        ∃ complaint? : Option Diagnostic, rest.fault? = complaint?.map .lexical ∧
          whole.fault? = (complaint?.map (.behind text)).map .lexical) := by
  have hsuffixes := hbound.leavesSuffixes
  obtain ⟨lexing, first, hlexing, hfirst, htokens, hfault⟩ := exists_drain_lift hsuffixes hdown text
  obtain ⟨lexing', rest, hlexing', hrest, htokens', hfault'⟩ :=
    exists_drain_lift hsuffixes hdown more
  obtain ⟨lexing'', whole, hlexing'', hwhole, htokens'', hfault''⟩ :=
    exists_drain_lift hsuffixes hdown (text ++ more)
  refine ⟨first, rest, whole, hfirst, hrest, hwhole, fun hnone => ?_⟩
  have hnone : lexing.complaint? = none := by
    rw [hfault] at hnone
    exact Option.map_eq_none_iff.1 hnone
  obtain rfl := Lexing.From.of_append hbound htext hlexing hnone hlexing' hlexing''
  refine ⟨?_, ?_, lexing'.complaint?, hfault', hfault''⟩
  · rw [htokens]
    exact hlexing.exists_tokens_concat hbound htext hnone hfeed
  · rw [htokens, htokens', htokens'', Lexing.append, Lexing.behind, List.map_append, List.map_map]
    rfl

end ShiftReduce
