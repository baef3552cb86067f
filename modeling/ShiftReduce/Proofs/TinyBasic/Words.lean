import Mathlib.Data.List.Basic
import Mathlib.Data.List.DropRight
import ShiftReduce.Proofs.Lexer.Tokens
import ShiftReduce.Proofs.TinyBasic.Reading

/-!
# Keywords and the words of a text

The recognizer of keywords is offered what is behind an offset, and reads the letters there to their
end. It does not see the letters before. So a token for a keyword ends a word of the text, but need
not begin it: where a word is no keyword the variables take its first letter, and the rest of the
word is looked up again (`keyword_ends_word`). In `SEND` the lexer finds the variable S and the
keyword END (`keyword_inside_word`).

A token is a letter if its last byte is a letter and one more follows
(`Token.ReadFrom.exists_letter`), so the letters between the beginning of a word and a keyword in it
are delivered one by one.
-/

namespace ShiftReduce.TinyBasic

open Ascii

variable {ω : Type} {text bytes rest : Bytes} {token : Token} {lexing : Lexing Token}

/-! ## Words -/

/-- The bytes in the range are letters, and neither the byte before nor the byte behind is one. -/
structure WholeWord (text : Bytes) (range : Range) : Prop where
  letters : ∀ b ∈ (text.drop range.index).take range.size, isAlpha b = true
  starts : ∀ b ∈ (text.take range.index).getLast?, isAlpha b = false
  ends : ∀ b ∈ (text.drop range.stop).head?, isAlpha b = false

/-- A keyword at the end of a word of the text. The letters of the word before it are variables, and
from none of them on the word is a keyword. -/
structure EndsWord (items : List (Item Token × Range)) (text : Bytes) (word : Keyword)
    (range : Range) (before letters run after : Bytes) : Prop where
  text_eq : text = before ++ (letters ++ run) ++ after
  range_eq : range = { index := (before ++ letters).length, size := run.length }
  alpha : ∀ b ∈ letters ++ run, isAlpha b = true
  starts : ∀ b ∈ before.getLast?, isAlpha b = false
  ends : ∀ b ∈ after.head?, isAlpha b = false
  folds : equalFold run word.name = true
  singles : ∀ pre b post, letters = pre ++ b :: post →
    (.token (.ofLetter b), { index := (before ++ pre).length, size := 1 }) ∈ items ∧
      ∀ other : Keyword, equalFold (b :: (post ++ run)) other.name = false

theorem mem_items_iff {last range : Range} :
    (Item.token token, range) ∈ lexing.items last ↔ (token, range) ∈ lexing.tokens := by
  simp [Lexing.items]

/-! ## Letters in a row -/

/-- A text up to its last word, which may be empty, and the word. -/
theorem exists_lastWord (text : Bytes) :
    ∃ before letters, text = before ++ letters ∧ (∀ b ∈ letters, isAlpha b = true) ∧
      ∀ b ∈ before.getLast?, isAlpha b = false := by
  refine ⟨text.rdropWhile isAlpha, text.rtakeWhile isAlpha,
    List.rdropWhile_append_rtakeWhile.symm, fun b => List.mem_rtakeWhile_imp, fun b hb => ?_⟩
  obtain ⟨hne, rfl⟩ := List.mem_getLast?_eq_getLast hb
  exact Bool.eq_false_iff.2 (List.rdropWhile_last_not _ _ hne)

theorem exists_isAlpha {before word after : Bytes} (hword : ∀ b ∈ word, isAlpha b = true) {i : Nat}
    (hle : before.length ≤ i) (hlt : i < (before ++ word).length) :
    ∃ b ∈ (before ++ word ++ after)[i]?, isAlpha b = true := by
  rw [List.getElem?_append_left hlt, List.getElem?_append_right hle]
  have hi : i - before.length < word.length := by
    rw [List.length_append] at hlt
    omega
  exact ⟨_, List.getElem?_eq_getElem hi, hword _ (List.getElem_mem hi)⟩

/-- A token that ends with a letter and has another behind it is that letter. -/
theorem Token.ReadFrom.exists_letter (h : token.ReadFrom bytes rest)
    (hlast : ∃ b ∈ bytes.getLast?, isAlpha b = true) (hnext : ∃ b ∈ rest.head?, isAlpha b = true) :
    ∃ b, bytes = [b] ∧ token = .ofLetter b ∧
      ∀ word : Keyword, equalFold ((b :: rest).takeWhile isAlpha) word.name = false := by
  obtain ⟨last, hmem, hletter⟩ := hlast
  have hbytes : last ∈ bytes := List.mem_of_getLast? hmem
  cases h with
  | @string content _ hquote =>
    rw [← List.cons_append, List.getLast?_concat] at hmem
    cases hmem
    cases hletter
  | keyword hrun hstop =>
    obtain ⟨b, hb, hletter⟩ := hnext
    exact nomatch (hstop b hb).symm.trans hletter
  | mark mark =>
    obtain rfl := List.mem_singleton.1 hbytes
    cases mark <;> cases hletter
  | number _ hdigits =>
    exact nomatch (isAlpha_of_isDigit (hdigits last hbytes)).symm.trans hletter
  | letter hletter hnone => exact ⟨_, rfl, rfl, hnone⟩
  | newline =>
    obtain rfl := List.mem_singleton.1 hbytes
    cases hletter

section Tokens

variable (h : lexing.From lexer text 0)

include h

theorem stop_le_of_lt {entry other : Token × Range} (hentry : entry ∈ lexing.tokens)
    (hother : other ∈ lexing.tokens) (hlt : entry.2.index < other.2.index) :
    entry.2.stop ≤ other.2.index := by
  obtain ⟨i, hi, rfl⟩ := List.mem_iff_getElem.1 hentry
  obtain ⟨j, hj, rfl⟩ := List.mem_iff_getElem.1 hother
  have hordered := List.pairwise_iff_getElem.1 h.ordered
  rcases Nat.lt_trichotomy i j with hij | rfl | hji
  · exact hordered i j hi hj hij
  · exact absurd hlt (Nat.lt_irrefl _)
  · have hbefore := hordered j i hj hi hji
    have hpos := (h.inside _ hother).2.1
    omega

/-- No letter is skipped. -/
theorem exists_covers {offset : Nat} (hlt : offset < lexing.final)
    (hletter : ∃ b ∈ text[offset]?, isAlpha b = true) :
    ∃ entry ∈ lexing.tokens, entry.2.Covers offset := by
  refine Classical.byContradiction fun hnone => ?_
  have hignores := h.ignored offset (Nat.zero_le _) hlt fun entry hmem hcovers =>
    hnone ⟨entry, hmem, hcovers⟩
  obtain ⟨b, hplain, -, hdrop⟩ := exists_of_skip (Nat.lt_of_lt_of_le hlt h.final_le) hignores
  obtain ⟨c, hc, hletter⟩ := hletter
  rw [← List.head?_drop, hdrop] at hc
  cases hc
  exact nomatch (Bool.or_eq_false_iff.1 hplain.alnum).1.symm.trans hletter

/-- A letter with only letters between it and a later token is a variable. -/
theorem exists_variable {entry : Token × Range} (hentry : entry ∈ lexing.tokens) {offset : Nat}
    (hlt : offset < entry.2.index)
    (hletters : ∀ i, offset ≤ i → i ≤ entry.2.index → ∃ b ∈ text[i]?, isAlpha b = true) :
    ∃ b, text[offset]? = some b ∧ (.ofLetter b, { index := offset, size := 1 }) ∈ lexing.tokens ∧
      ∀ word : Keyword, equalFold ((text.drop offset).takeWhile isAlpha) word.name = false := by
  obtain ⟨hstart, hpos, hfinal⟩ := h.inside entry hentry
  obtain ⟨⟨token, range⟩, hmem, hcovers⟩ :=
    exists_covers h (by omega) (hletters offset (Nat.le_refl _) (Nat.le_of_lt hlt))
  obtain ⟨bytes, hread, hsize, hdrop⟩ := exists_readFrom h hmem
  obtain ⟨hbegun, hended⟩ : range.index ≤ offset ∧ offset < range.stop := hcovers
  have hbefore : range.stop ≤ entry.2.index := stop_le_of_lt h hmem hentry (by simp only; omega)
  have hlast : bytes.getLast? = text[range.stop - 1]? := by
    have hpositive : 0 < bytes.length := List.length_pos_iff.2 hread.ne_nil
    have hget := congrArg (·[bytes.length - 1]?) hdrop
    simp only [List.getElem?_drop] at hget
    rw [List.getElem?_append_left (by omega), ← List.getLast?_eq_getElem?] at hget
    rw [← hget, hsize, Range.stop, Nat.add_sub_assoc (hsize ▸ hpositive)]
  obtain ⟨b, rfl, rfl, hnone⟩ := hread.exists_letter
    (by rw [hlast]; exact hletters _ (by omega) (by omega))
    (by rw [List.head?_drop]; exact hletters _ (Nat.le_of_lt hended) hbefore)
  have hone : range.size = 1 := hsize.symm
  obtain rfl : range.index = offset := by
    rw [Range.stop, hone] at hended
    omega
  rw [List.singleton_append] at hdrop
  refine ⟨b, ?_, ?_, ?_⟩
  · rw [← List.head?_drop, hdrop, List.head?_cons]
  · rwa [← hone]
  · rwa [hdrop]

/-- A variable is read from a letter. -/
theorem exists_isAlpha_of_variable {letter : Fin 26} {range : Range}
    (hmem : (.var letter, range) ∈ lexing.tokens) :
    ∃ b ∈ (text.take range.stop).getLast?, isAlpha b = true := by
  obtain ⟨bytes, hread, hsize, hdrop⟩ := exists_readFrom h hmem
  have htake : text.take range.stop = text.take range.index ++ bytes := by
    rw [Range.stop, List.take_add, hdrop, ← hsize, List.take_left]
  generalize htoken : Token.var letter = token at hread
  cases hread with
  | @letter b _ hletter =>
    rw [htake, List.getLast?_concat]
    exact ⟨b, rfl, hletter⟩
  | _ => cases htoken

section Keyword

variable {word : Keyword} {range : Range} (hmem : (.keyword word, range) ∈ lexing.tokens)

include hmem

/-- A letter of the word before the keyword is a variable. -/
theorem single_of_keyword {before pre post run after : Bytes} {b : UInt8}
    (htext : text = before ++ (pre ++ b :: post ++ run) ++ after)
    (hindex : range.index = (before ++ (pre ++ b :: post)).length) (hne : run ≠ [])
    (halpha : ∀ c ∈ pre ++ b :: post ++ run, isAlpha c = true)
    (hends : ∀ c ∈ after.head?, isAlpha c = false) :
    (.ofLetter b, { index := (before ++ pre).length, size := 1 }) ∈ lexing.tokens ∧
      ∀ other : Keyword, equalFold (b :: (post ++ run)) other.name = false := by
  have hpos : 0 < run.length := List.length_pos_iff.2 hne
  have hletters : ∀ i, (before ++ pre).length ≤ i → i ≤ range.index →
      ∃ c ∈ text[i]?, isAlpha c = true := by
    intro i hbegun hended
    simp only [List.length_append, List.length_cons] at hindex hbegun
    rw [htext]
    apply exists_isAlpha halpha
    · omega
    · simp only [List.length_append, List.length_cons]
      omega
  have hlt : (before ++ pre).length < range.index := by
    simp only [List.length_append, List.length_cons] at hindex ⊢
    omega
  have hrest : text.drop (before ++ pre).length = b :: (post ++ run) ++ after := by
    have hsplit : text = (before ++ pre) ++ (b :: (post ++ run) ++ after) := by simp [htext]
    rw [hsplit, List.drop_left]
  have hword : ∀ c ∈ b :: (post ++ run), isAlpha c = true := by
    rw [List.append_assoc] at halpha
    exact fun c hc => halpha c (List.mem_append_right pre hc)
  obtain ⟨c, hc, hvariable, hnone⟩ := exists_variable h hmem hlt hletters
  rw [← List.head?_drop, hrest] at hc
  cases hc
  rw [hrest, takeWhile_run hword hends] at hnone
  exact ⟨hvariable, hnone⟩

theorem exists_endsWord (last : Range) :
    ∃ before letters run after,
      EndsWord (lexing.items last) text word range before letters run after := by
  obtain ⟨run, hread, hsize, hdrop⟩ : ∃ run,
      (Token.keyword word).ReadFrom run (text.drop range.stop) ∧ run.length = range.size ∧
        text.drop range.index = run ++ text.drop range.stop := exists_readFrom h hmem
  obtain ⟨-, hpos, hstop⟩ : _ ∧ range.index < range.stop ∧ range.stop ≤ lexing.final :=
    h.inside _ hmem
  have hfinal := h.final_le
  generalize text.drop range.stop = after at hread hdrop
  obtain ⟨before, letters, hfront, hletters, hstarts⟩ := exists_lastWord (text.take range.index)
  have hindex : range.index = (before ++ letters).length := by
    rw [← hfront, List.length_take_of_le (by omega)]
  have htext : text = before ++ (letters ++ run) ++ after := by
    rw [← List.append_assoc, ← hfront, List.append_assoc, ← hdrop, List.take_append_drop]
  have hne := hread.ne_nil
  cases hread with
  | keyword hrun hends hfold =>
    have halpha : ∀ b ∈ letters ++ run, isAlpha b = true :=
      List.forall_mem_append.2 ⟨hletters, hrun⟩
    refine ⟨before, letters, run, after, htext, ?_, halpha, hstarts, hends, hfold, ?_⟩
    · rw [← hindex, hsize]
    · rintro pre b post rfl
      obtain ⟨hsingle, hnone⟩ := single_of_keyword h hmem htext hindex hne halpha hends
      exact ⟨mem_items_iff.2 hsingle, hnone⟩

end Keyword

end Tokens

/-! ## Keywords -/

/-- Where no letter of the word is before the keyword, it is the whole word. -/
theorem EndsWord.wholeWord_iff {items : List (Item Token × Range)} {word : Keyword} {range : Range}
    {before letters run after : Bytes}
    (h : EndsWord items text word range before letters run after) :
    WholeWord text range ↔ letters = [] := by
  have hindex : range.index = (before ++ letters).length := by rw [h.range_eq]
  have hsize : range.size = run.length := by rw [h.range_eq]
  have htext : text = (before ++ letters) ++ (run ++ after) := by simp [h.text_eq]
  have hrest : text.drop range.index = run ++ after := by rw [hindex, htext, List.drop_left]
  constructor
  · intro hwhole
    have hstarts := hwhole.starts
    rw [hindex, htext, List.take_left] at hstarts
    rcases List.eq_nil_or_concat' letters with hnil | ⟨pre, b, rfl⟩
    · exact hnil
    · have hletter : isAlpha b = true := h.alpha b (by simp)
      rw [← List.append_assoc, List.getLast?_concat] at hstarts
      exact nomatch (hstarts b rfl).symm.trans hletter
  · rintro rfl
    constructor
    · rw [hrest, hsize, List.take_left]
      exact fun b hmem => h.alpha b (List.mem_append_right _ hmem)
    · rw [hindex, htext, List.take_left, List.append_nil]
      exact h.starts
    · rw [Range.stop, ← List.drop_drop, hrest, hsize, List.drop_left]
      exact h.ends

/-- A token for a keyword ends a word of the text, and what is before it in the word are variables.
So it is a word by itself unless a variable ends where it begins. -/
theorem keyword_ends_word (text : Bytes) (world : ω) :
    let scene : Scene Bool ω := { subject := false, world }
    ∃ d : Drained Token, ((Stream.ofText text).drain lexer.lift).run scene = (d, scene) ∧
      ∀ word range, (.token (.keyword word), range) ∈ d.items →
        (∃ before letters run after,
          EndsWord d.items text word range before letters run after) ∧
        (WholeWord text range ↔ ∀ letter other, (.token (.var letter), other) ∈ d.items →
          other.stop ≠ range.index) := by
  intro scene
  obtain ⟨lexing, d, hlexing, hdrain, hitems, -⟩ :=
    Stream.exists_drain_items lexer_lineBound.leavesSuffixes
      (show scene.subject = false from rfl) text
  refine ⟨d, hdrain, fun word range hmem => ?_⟩
  rw [hitems] at hmem ⊢
  rw [mem_items_iff] at hmem
  obtain ⟨before, letters, run, after, hends⟩ := exists_endsWord hlexing hmem {}
  refine ⟨⟨before, letters, run, after, hends⟩, ?_, fun hnone => ?_⟩
  · intro hwhole letter other hvariable hstop
    obtain ⟨b, hb, hletter⟩ := exists_isAlpha_of_variable hlexing (mem_items_iff.1 hvariable)
    rw [hstop] at hb
    exact nomatch (hwhole.starts b hb).symm.trans hletter
  · rw [hends.wholeWord_iff]
    rcases List.eq_nil_or_concat' letters with hnil | ⟨pre, b, rfl⟩
    · exact hnil
    · obtain ⟨hsingle, -⟩ := hends.singles pre b [] rfl
      refine absurd ?_ (hnone _ _ hsingle)
      rw [Range.stop, hends.range_eq]
      simp [Nat.add_assoc]

/-- A keyword that is not a word by itself. -/
theorem keyword_inside_word :
    ¬ ∀ (text : Bytes) (d : Drained Token) (after : Scene Bool Unit),
      ((Stream.ofText text).drain lexer.lift).run { subject := false, world := () } = (d, after) →
      ∀ word range, (.token (.keyword word), range) ∈ d.items → WholeWord text range := by
  intro h
  have hwhole : WholeWord (.ofAscii "SEND") { index := 1, size := 3 } := by
    refine h (.ofAscii "SEND") _ _ rfl .end _ ?_
    decide
  exact nomatch hwhole.starts 0x53 rfl

end ShiftReduce.TinyBasic
