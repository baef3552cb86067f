import ShiftReduce.Proofs.Lexer.Append
import ShiftReduce.Proofs.Source.LetterCase
import ShiftReduce.Proofs.TinyBasic.Program
import ShiftReduce.Proofs.TinyBasic.Reading

/-!
# The case of letters outside of strings

BASIC does not tell upper case from lower case, except in strings. Texts that differ in no other way
(`Recased`) are lexed alike: what a token is read from still is that when its letters change their
case (`Token.ReadFrom.recased`), since runs of letters are as long as before and stand for the same
word or for none. The bytes of a string are the same in both texts, because the lexer gets to the
string outside of strings. So the lexing of the one text is that of the other (`Recased.lexing`),
and places agree as well, which leaves nothing that a program could be parsed differently by
(`lexer_ignores_case`).
-/

namespace ShiftReduce.TinyBasic

open Recognizer Ascii

variable {ω : Type} {text other bytes rest message : Bytes} {token : Token}

/-! ## Runs of bytes up to case -/

section Fold

variable {p : UInt8 → Bool} (hp : ∀ b, p (toUpper b) = p b) {run run' : Bytes}
  (hfold : run'.map toUpper = run.map toUpper)

include hp hfold

theorem forall_mem_of_fold (h : ∀ b ∈ run, p b = true) : ∀ b ∈ run', p b = true := by
  intro b hmem
  have hupper : toUpper b ∈ run.map toUpper := hfold ▸ List.mem_map_of_mem hmem
  obtain ⟨c, hc, hsame⟩ := List.mem_map.1 hupper
  rw [← hp b, ← hsame, hp c]
  exact h c hc

theorem forall_head?_of_fold (h : ∀ b ∈ run.head?, p b = false) :
    ∀ b ∈ run'.head?, p b = false := by
  intro b hmem
  have hhead := congrArg List.head? hfold
  rw [List.head?_map, List.head?_map, Option.mem_def.1 hmem] at hhead
  obtain ⟨c, hc, hsame⟩ := Option.map_eq_some_iff.1 hhead.symm
  rw [← hp b, ← hsame, hp c]
  exact h c hc

end Fold

theorem isDigit_toUpper (b : UInt8) : isDigit (toUpper b) = isDigit b := by
  rcases toUpper_eq_or b with hsame | ⟨hletter, hupper⟩
  · rw [hsame]
  · rw [isDigit_of_isAlpha hletter, isDigit_of_isAlpha hupper]

/-- Bytes that are no letters have one case only. -/
theorem eq_of_fold {run run' : Bytes} (hfold : run'.map toUpper = run.map toUpper)
    (hrun : ∀ b ∈ run, isAlpha b = false) : run' = run := by
  induction run generalizing run' with
  | nil => exact List.map_eq_nil_iff.1 hfold
  | cons b run ih =>
    obtain ⟨b', run', rfl, hb, hmore⟩ := List.map_eq_cons_iff.1 hfold
    obtain ⟨hplain, hrest⟩ := List.forall_mem_cons.1 hrun
    rw [toUpper_of_not_alpha hplain, toUpper_eq_iff hplain] at hb
    rw [hb, ih hmore hrest]

theorem quote_not_mem_of_fold (hfold : other.map toUpper = text.map toUpper) (h : quote ∉ text) :
    quote ∉ other := by
  intro hmem
  have hupper : quote ∈ text.map toUpper := hfold ▸ List.mem_map_of_mem hmem
  obtain ⟨b, hb, hsame⟩ := List.mem_map.1 hupper
  obtain rfl : b = quote := (toUpper_eq_iff rfl).1 hsame
  exact h hb

/-! ## Recased texts -/

/-- The texts differ only in the case of letters, and only in letters outside of strings: those with
an even number of quotes before them. -/
structure Recased (text other : Bytes) : Prop where
  folds : equalFold text other = true
  inside : ∀ i, (text.take i).count quote % 2 = 1 → other[i]? = text[i]?

namespace Recased

theorem map_eq (h : Recased text other) : other.map toUpper = text.map toUpper :=
  (eq_of_beq h.folds).symm

theorem length_eq (h : Recased text other) : other.length = text.length := by
  have hlength := congrArg List.length h.map_eq
  rwa [List.length_map, List.length_map] at hlength

/-- What is behind an offset outside of strings is recased too. -/
theorem drop (h : Recased text other) {i : Nat} (heven : (text.take i).count quote % 2 = 0) :
    Recased (text.drop i) (other.drop i) where
  folds := by rw [equalFold, List.map_drop, List.map_drop, h.map_eq, beq_self_eq_true]
  inside := by
    intro j hodd
    rw [List.getElem?_drop, List.getElem?_drop]
    apply h.inside
    rw [List.take_add, List.count_append]
    omega

theorem exists_split (h : Recased (bytes ++ rest) other) :
    ∃ bytes' rest', other = bytes' ++ rest' ∧ bytes'.map toUpper = bytes.map toUpper ∧
      rest'.map toUpper = rest.map toUpper := by
  have hmap := h.map_eq
  rw [List.map_append] at hmap
  exact List.map_eq_append_iff.1 hmap

/-- The strings of a text are not recased. -/
theorem string_eq {content bytes' rest' : Bytes} (hquote : quote ∉ content)
    (h : Recased (quote :: (content ++ [quote]) ++ rest) (bytes' ++ rest'))
    (hfold : bytes'.map toUpper = (quote :: (content ++ [quote])).map toUpper) :
    bytes' = quote :: (content ++ [quote]) := by
  obtain ⟨q, inner, rfl, hq, hinner⟩ := List.map_eq_cons_iff.1 hfold
  obtain rfl : q = quote := (toUpper_eq_iff rfl).1 hq
  have hlength : inner.length = (content ++ [quote]).length := by
    simpa using congrArg List.length hinner
  refine congrArg (quote :: ·) (List.ext_getElem? fun i => ?_)
  rcases Nat.lt_or_ge i inner.length with hlt | hge
  · have hle : i ≤ content.length := by
      rw [hlength, List.length_append, List.length_singleton] at hlt
      omega
    have hcount : ((quote :: (content ++ [quote]) ++ rest).take (i + 1)).count quote = 1 := by
      rw [List.cons_append, List.take_succ_cons, List.append_assoc,
        List.take_append_of_le_length hle, List.count_cons_self,
        List.count_eq_zero.2 fun hmem => hquote (List.mem_of_mem_take hmem)]
    have hsame := h.inside (i + 1) (by rw [hcount])
    rwa [List.cons_append, List.cons_append, List.getElem?_cons_succ, List.getElem?_cons_succ,
      List.getElem?_append_left hlt, List.getElem?_append_left (hlength ▸ hlt)] at hsame
  · rw [List.getElem?_eq_none hge, List.getElem?_eq_none (hlength ▸ hge)]

end Recased

/-! ## Beginnings -/

/-- A token is still read when its letters outside of strings change their case. -/
theorem Token.ReadFrom.recased (h : token.ReadFrom bytes rest)
    (hcase : Recased (bytes ++ rest) other) :
    ∃ bytes' rest', other = bytes' ++ rest' ∧ bytes'.length = bytes.length ∧
      token.ReadFrom bytes' rest' := by
  obtain ⟨bytes', rest', rfl, hbytes, hrest⟩ := hcase.exists_split
  have hlength : bytes'.length = bytes.length := by simpa using congrArg List.length hbytes
  refine ⟨bytes', rest', rfl, hlength, ?_⟩
  cases h with
  | string hquote =>
    rw [hcase.string_eq hquote hbytes]
    exact .string hquote
  | @keyword word _ _ hrun hstop hword =>
    refine .keyword (forall_mem_of_fold isAlpha_toUpper hbytes hrun)
      (forall_head?_of_fold isAlpha_toUpper hrest hstop) ?_
    rwa [equalFold, hbytes]
  | mark mark =>
    rw [eq_of_fold hbytes (List.forall_mem_singleton.2 (by cases mark <;> rfl))]
    exact .mark mark
  | number hne hdigits hstop hle =>
    rw [eq_of_fold hbytes fun b hmem => isAlpha_of_isDigit (hdigits b hmem)]
    exact .number hne hdigits (forall_head?_of_fold isDigit_toUpper hrest hstop) hle
  | @letter b _ hletter hnone =>
    obtain ⟨b', _, rfl, hb, hnil⟩ := List.map_eq_cons_iff.1 hbytes
    cases List.map_eq_nil_iff.1 hnil
    have hletter' : isAlpha b' = true := by rwa [← isAlpha_toUpper, hb, isAlpha_toUpper]
    have hrun : ((b' :: rest').takeWhile isAlpha).map toUpper =
        ((b :: rest).takeWhile isAlpha).map toUpper :=
      takeWhile_isAlpha_of_fold (by rw [List.map_cons, List.map_cons, hb, hrest])
    have hsame : Token.ofLetter b = Token.ofLetter b' := by rw [ofLetter, ofLetter, hb]
    rw [hsame]
    refine .letter hletter' fun word => ?_
    rw [equalFold, hrun]
    exact hnone word
  | newline =>
    rw [eq_of_fold hbytes (List.forall_mem_singleton.2 rfl)]
    exact .newline

theorem Refused.recased (h : Refused message bytes rest) (hcase : Recased (bytes ++ rest) other) :
    ∃ bytes' rest', other = bytes' ++ rest' ∧ Refused message bytes' rest' := by
  obtain ⟨bytes', rest', rfl, hbytes, hrest⟩ := hcase.exists_split
  refine ⟨bytes', rest', rfl, ?_⟩
  cases h with
  | unterminated hquote =>
    rw [eq_of_fold hbytes (List.forall_mem_singleton.2 rfl)]
    exact .unterminated (quote_not_mem_of_fold hrest hquote)
  | outOfRange hne hdigits hstop hlt =>
    rw [eq_of_fold hbytes fun b hmem => isAlpha_of_isDigit (hdigits b hmem)]
    exact .outOfRange hne hdigits (forall_head?_of_fold isDigit_toUpper hrest hstop) hlt

/-- A byte that is skipped has one case only, wherever it is. -/
theorem Recased.ignores (h : Recased text other) {offset : Nat} (hlt : offset < text.length)
    (hignores : lexer.Ignores (text.drop offset)) : lexer.Ignores (other.drop offset) := by
  obtain ⟨b, hplain, -, hdrop⟩ := exists_of_skip hlt hignores
  have hfold : (other.drop offset).map toUpper =
      toUpper b :: (text.drop (offset + 1)).map toUpper := by
    rw [List.map_drop, h.map_eq, ← List.map_drop, hdrop, List.map_cons]
  obtain ⟨b', rest', hother, hb, -⟩ := List.map_eq_cons_iff.1 hfold
  have hletter : isAlpha b = false := (Bool.or_eq_false_iff.1 hplain.alnum).1
  rw [toUpper_of_not_alpha hletter, toUpper_eq_iff hletter] at hb
  rw [hother, hb]
  exact lexer_ignores_of_plain hplain rest'

/-! ## Lexings -/

/-- A lexing of the text is one of the recased text. -/
theorem Recased.lexing (h : Recased text other) {lexing : Lexing Token}
    (hlexing : lexing.From lexer text 0) : lexing.From lexer other 0 := by
  obtain ⟨htokens, hfinal⟩ := Steps.even_quotes hlexing.steps rfl
  exact {
    start_le := hlexing.start_le
    final_le := h.length_eq ▸ hlexing.final_le
    ordered := hlexing.ordered
    inside := hlexing.inside
    decided := by
      intro entry hmem
      obtain ⟨bytes, hread, hsize, hdrop⟩ := exists_readFrom hlexing hmem
      have hcase := h.drop (htokens entry hmem)
      rw [hdrop] at hcase
      obtain ⟨bytes', rest', hother, hlength, hread'⟩ := hread.recased hcase
      have hdecides := hread'.decides
      rw [← hother] at hdecides
      refine ⟨_, hdecides, ?_⟩
      rw [Remainder.after, List.drop_drop, hlength, hsize, Range.stop]
    ignored := fun offset hstart hlt hcovered =>
      h.ignores (Nat.lt_of_lt_of_le hlt hlexing.final_le)
        (hlexing.ignored offset hstart hlt hcovered)
    complaint := by
      intro complaint hmem
      obtain ⟨hlt, message, hdecides, rfl⟩ := hlexing.complaint complaint hmem
      obtain ⟨bytes, rest, hrefused, hdrop⟩ := refused_of_decides hdecides
      have hcase := h.drop hfinal
      rw [hdrop] at hcase
      obtain ⟨bytes', rest', hother, hrefused'⟩ := hrefused.recased hcase
      refine ⟨h.length_eq ▸ hlt, message, hother ▸ hrefused'.decides, ?_⟩
      rw [Diagnostic.at_eq, Diagnostic.at_eq, Position.of_equalFold h.folds]
    ended := fun hnone => h.length_eq ▸ hlexing.ended hnone }

instance (text other : Bytes) : Decidable (Recased text other) :=
  decidable_of_iff (equalFold text other = true ∧ ∀ i < text.length,
    (text.take i).count quote % 2 = 1 → other[i]? = text[i]?) <| by
      constructor
      · rintro ⟨hfolds, hinside⟩
        refine ⟨hfolds, fun i hodd => ?_⟩
        rcases Nat.lt_or_ge i text.length with hlt | hge
        · exact hinside i hlt hodd
        · have hlength : other.length = text.length := by
            simpa using (congrArg List.length (eq_of_beq hfolds)).symm
          rw [List.getElem?_eq_none hge, List.getElem?_eq_none (hlength ▸ hge)]
      · exact fun h => ⟨h.folds, fun i _ => h.inside i⟩

/-- Texts that differ only in the case of letters outside of strings have the same tokens in the
same ranges, and the same complaint after them in the same place. So one is tokenized like the
other, and parsed like the other as a program, by any engine. -/
theorem lexer_ignores_case (h : Recased text other) (world : ω) :
    let scene : Scene Bool ω := { subject := false, world }
    (∃ d d' : Drained Token,
      ((Stream.ofText text).drain lexer.lift).run scene = (d, scene) ∧
      ((Stream.ofText other).drain lexer.lift).run scene = (d', scene) ∧
      d'.items = d.items ∧ d.error? = none ∧ d'.error? = none) ∧
    (lexer.lift.tokenize other).run scene = (lexer.lift.tokenize text).run scene ∧
    ∀ (ν : Type) (e : Engine (Action (Scene (Reducer Token) ν)) Token)
      (parsing : Scene (Reducer Token) ν),
      (parseProgram lexer.lift e other).run (scene, parsing) =
        (parseProgram lexer.lift e text).run (scene, parsing) := by
  intro scene
  have hdown : scene.subject = false := rfl
  have hsuffixes := lexer_lineBound.leavesSuffixes
  obtain ⟨lexing, d, hlexing, hdrain, hitems, herror⟩ :=
    Stream.exists_drain_items hsuffixes hdown text
  obtain ⟨lexing', d', hlexing', hdrain', hitems', herror'⟩ :=
    Stream.exists_drain_items hsuffixes hdown other
  obtain rfl : lexing' = lexing := hlexing'.unique (h.lexing hlexing)
  have htokens : d'.tokens = d.tokens := by
    rw [Lexing.tokens_of_items hitems', Lexing.tokens_of_items hitems]
  have hfault : d'.fault? = d.fault? := by
    rw [Lexing.fault?_of_items hitems' herror', Lexing.fault?_of_items hitems herror]
  refine ⟨⟨d, d', hdrain, hdrain', hitems'.trans hitems.symm, herror, herror'⟩, ?_,
    fun ν e => run_parseProgram_congr hdown hdrain hdrain' htokens hfault⟩
  rw [Lexer.run_tokenize hdrain, Lexer.run_tokenize hdrain', htokens, Drained.settle_congr hfault]

/-- A keyword and a variable in other cases, and a string that keeps its own. -/
theorem lexer_ignores_case_line :
    let text := Bytes.ofAscii "10 Print \"Ab\" , x\n"
    let other := Bytes.ofAscii "10 pRINT \"Ab\" , X\n"
    let scene : Scene Bool Unit := { subject := false, world := () }
    Recased text other ∧ (∃ d d' : Drained Token,
      ((Stream.ofText text).drain lexer.lift).run scene = (d, scene) ∧
      ((Stream.ofText other).drain lexer.lift).run scene = (d', scene) ∧
      d'.items = d.items ∧ d.error? = none ∧ d'.error? = none) ∧
    (lexer.lift.tokenize other).run scene = (lexer.lift.tokenize text).run scene ∧
    ∀ (ν : Type) (e : Engine (Action (Scene (Reducer Token) ν)) Token)
      (parsing : Scene (Reducer Token) ν),
      (parseProgram lexer.lift e other).run (scene, parsing) =
        (parseProgram lexer.lift e text).run (scene, parsing) := by
  intro text other scene
  have hcase : Recased text other := by decide
  exact ⟨hcase, lexer_ignores_case hcase ()⟩

end ShiftReduce.TinyBasic
