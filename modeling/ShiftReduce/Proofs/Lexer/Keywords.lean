import Mathlib.Data.List.Forall2
import ShiftReduce.Proofs.Lexer.Stock
import ShiftReduce.Proofs.Source.LetterCase

/-!
# Keywords

The recognizer of keywords looks up the leading run of letters, all of it, in its list of words. The
first entry that is the same word up to case decides (`Recognizer.FirstFor`). Two bytes are the same
up to case if they are the two forms of one letter, or one byte (`Ascii.SameLetter`); no other bytes
are, however their codes are related. Since letters in another case are letters, case decides neither
how far the run goes nor which entry is the first for it.
-/

namespace ShiftReduce

/-! ## The same word -/

namespace Ascii

variable {b c : UInt8} {x y z : Bytes}

/-- The same byte, or the capital and the small form of a letter. -/
inductive SameLetter : UInt8 → UInt8 → Prop
  | refl (b : UInt8) : SameLetter b b
  | capital {b : UInt8} (h : isUpper b = true) : SameLetter b (b + 0x20)
  | small {b : UInt8} (h : isUpper b = true) : SameLetter (b + 0x20) b

/-- The same word up to the case of letters. -/
def SameWord : Bytes → Bytes → Prop := List.Forall₂ SameLetter

theorem isLower_add (h : isUpper b = true) : isLower (b + 0x20) = true := by
  simp only [isUpper, Bool.and_eq_true, decide_eq_true_eq, UInt8.le_iff_toNat_le,
    UInt8.reduceToNat] at h
  simp only [isLower, Bool.and_eq_true, decide_eq_true_eq, UInt8.le_iff_toNat_le, UInt8.toNat_add,
    UInt8.reduceToNat]
  omega

theorem toUpper_of_isUpper (h : isUpper b = true) : toUpper b = b := by
  simp only [isUpper, Bool.and_eq_true, decide_eq_true_eq, UInt8.le_iff_toNat_le,
    UInt8.reduceToNat] at h
  refine if_neg ?_
  simp only [isLower, Bool.and_eq_true, decide_eq_true_eq, UInt8.le_iff_toNat_le,
    UInt8.reduceToNat]
  omega

theorem toUpper_add (h : isUpper b = true) : toUpper (b + 0x20) = b := by
  rw [toUpper, if_pos (isLower_add h), UInt8.add_sub_cancel]

/-- A small letter and its capital form. -/
theorem SameLetter.toUpper_of_isLower (h : isLower b = true) :
    SameLetter b (toUpper b) ∧ SameLetter (toUpper b) b := by
  have hsmall := SameLetter.small (isUpper_sub h)
  have hcapital := SameLetter.capital (isUpper_sub h)
  rw [UInt8.sub_add_cancel] at hsmall hcapital
  rw [toUpper, if_pos h]
  exact ⟨hsmall, hcapital⟩

theorem toUpper_eq_toUpper_iff : toUpper b = toUpper c ↔ SameLetter b c := by
  constructor
  · intro h
    cases hb : isLower b with
    | false =>
      have hsame : toUpper b = b := if_neg (by simp [hb])
      cases hc : isLower c with
      | false =>
        have hsame' : toUpper c = c := if_neg (by simp [hc])
        exact hsame.symm.trans (h.trans hsame') ▸ .refl b
      | true => exact hsame.symm.trans h ▸ (SameLetter.toUpper_of_isLower hc).2
    | true =>
      cases hc : isLower c with
      | false =>
        have hsame : toUpper c = c := if_neg (by simp [hc])
        exact h.trans hsame ▸ (SameLetter.toUpper_of_isLower hb).1
      | true =>
        rw [toUpper, toUpper, if_pos hb, if_pos hc] at h
        exact (UInt8.sub_left_inj 0x20).1 h ▸ .refl b
  · rintro (_ | hb | hc)
    · rfl
    · rw [toUpper_of_isUpper hb, toUpper_add hb]
    · rw [toUpper_of_isUpper hc, toUpper_add hc]

theorem equalFold_iff : equalFold x y = true ↔ SameWord x y := by
  rw [equalFold, beq_iff_eq, ← List.forall₂_eq_eq_eq, List.forall₂_map_left_iff,
    List.forall₂_map_right_iff]
  simp only [toUpper_eq_toUpper_iff, SameWord]

theorem SameWord.map_eq (h : SameWord x y) : x.map toUpper = y.map toUpper :=
  eq_of_beq (equalFold_iff.2 h)

/-- Case does not decide where a run of letters ends. -/
theorem SameWord.takeWhile (h : SameWord x y) :
    SameWord (x.takeWhile isAlpha) (y.takeWhile isAlpha) :=
  equalFold_iff.1 (beq_iff_eq.2 (takeWhile_isAlpha_of_fold h.map_eq))

/-- A word that is the same as letters is of letters. -/
theorem SameWord.all_isAlpha (h : SameWord x y) (hx : ∀ b ∈ x, isAlpha b = true) :
    ∀ b ∈ y, isAlpha b = true := by
  intro b hb
  have hupper : toUpper b ∈ x.map toUpper := h.map_eq ▸ List.mem_map_of_mem hb
  obtain ⟨c, hc, hsame⟩ := List.mem_map.1 hupper
  rw [← isAlpha_toUpper, ← hsame, isAlpha_toUpper]
  exact hx c hc

/-- No letter follows a word that is the same as the leading run of letters. -/
theorem SameWord.not_isAlpha_next (h : SameWord (x.takeWhile isAlpha) y) :
    ∀ b ∈ (x.drop y.length).head?, isAlpha b = false := by
  have hdrop : x.drop y.length = x.dropWhile isAlpha := by
    rw [← List.Forall₂.length_eq h]
    nth_rewrite 2 [← List.takeWhile_append_dropWhile (p := isAlpha) (l := x)]
    exact List.drop_left
  rw [hdrop]
  exact eq_false_of_head?_dropWhile isAlpha x

end Ascii

/-! ## The entry that decides -/

namespace Recognizer

open Ascii (SameWord)

variable {τ : Type} {words words' : List (Bytes × τ)} {run run' word : Bytes} {token : τ}

/-- The entry is the first for the run: it is the same word up to case, and none before it is. -/
structure FirstFor (words : List (Bytes × τ)) (run word : Bytes) (token : τ) : Prop where
  same : SameWord run word
  first : ∃ before after, words = before ++ (word, token) :: after ∧
    ∀ entry ∈ before, ¬ SameWord run entry.1

/-- The token of the first entry for a run. -/
def lookup (words : List (Bytes × τ)) (run : Bytes) : Option τ :=
  (words.find? fun entry => Ascii.equalFold run entry.1).map (·.2)

theorem lookup_eq_some_iff :
    lookup words run = some token ↔ ∃ word, FirstFor words run word token := by
  rw [lookup, Option.map_eq_some_iff]
  constructor
  · rintro ⟨⟨word, token⟩, hfind, rfl⟩
    obtain ⟨hsame, before, after, hwords, hbefore⟩ := List.find?_eq_some_iff_append.1 hfind
    refine ⟨word, Ascii.equalFold_iff.1 hsame, before, after, hwords, fun entry hmem h => ?_⟩
    have := hbefore entry hmem
    rw [Ascii.equalFold_iff.2 h] at this
    cases this
  · rintro ⟨word, hsame, before, after, hwords, hbefore⟩
    refine ⟨(word, token), List.find?_eq_some_iff_append.2 ⟨?_, before, after, hwords, ?_⟩, rfl⟩
    · exact Ascii.equalFold_iff.2 hsame
    · intro entry hmem
      simpa [← Ascii.equalFold_iff] using hbefore entry hmem

theorem lookup_eq_none_iff : lookup words run = none ↔ ∀ entry ∈ words, ¬ SameWord run entry.1 := by
  rw [lookup, Option.map_eq_none_iff, List.find?_eq_none]
  simp only [Ascii.equalFold_iff]

/-- The same words in other cases have the same tokens. -/
theorem lookup_congr (hrun : SameWord run run')
    (hwords : List.Forall₂ (fun entry entry' => SameWord entry.1 entry'.1 ∧ entry.2 = entry'.2)
      words words') : lookup words run = lookup words' run' := by
  induction hwords with
  | nil => rfl
  | @cons entry entry' words words' hentry _ ih =>
    have hfold : Ascii.equalFold run entry.1 = Ascii.equalFold run' entry'.1 := by
      rw [Ascii.equalFold, Ascii.equalFold, hrun.map_eq, hentry.1.map_eq]
    unfold lookup at ih ⊢
    rw [List.find?_cons, List.find?_cons, ← hfold]
    cases Ascii.equalFold run entry.1 with
    | true => exact congrArg some hentry.2
    | false => exact ih

/-! ## Runs of letters in an input -/

variable {input input' : Bytes}

/-- What is said about an input is a matter of its leading run of letters. -/
theorem run_keyword (words : List (Bytes × τ)) (input : Bytes) :
    (keyword words input).run =
      if input.takeWhile Ascii.isAlpha = [] then .ignored
      else match lookup words (input.takeWhile Ascii.isAlpha) with
        | some token => .success token (.after input (input.takeWhile Ascii.isAlpha).length)
        | none => .ignored := by
  simp only [keyword, lookup, Ascii.take_spanEnd]
  simp only [Ascii.spanEnd_eq_length, List.length_eq_zero_iff]
  split
  · rfl
  · cases words.find? fun entry => Ascii.equalFold (input.takeWhile Ascii.isAlpha) entry.1 <;> rfl

theorem run_keyword_eq_success_iff {remainder : Remainder} :
    (keyword words input).run = .success token remainder ↔
      input.takeWhile Ascii.isAlpha ≠ [] ∧
      (∃ word, FirstFor words (input.takeWhile Ascii.isAlpha) word token) ∧
      remainder = .after input (input.takeWhile Ascii.isAlpha).length := by
  rw [run_keyword, ← lookup_eq_some_iff]
  by_cases hempty : input.takeWhile Ascii.isAlpha = []
  · simp [hempty]
  · rw [if_neg hempty]
    cases lookup words (input.takeWhile Ascii.isAlpha) with
    | none => simp
    | some found => simp [hempty, eq_comm]

theorem run_keyword_eq_ignored_iff :
    (keyword words input).run = .ignored ↔ input.takeWhile Ascii.isAlpha = [] ∨
      ∀ entry ∈ words, ¬ SameWord (input.takeWhile Ascii.isAlpha) entry.1 := by
  rw [run_keyword, ← lookup_eq_none_iff]
  by_cases hempty : input.takeWhile Ascii.isAlpha = []
  · simp [hempty]
  · rw [if_neg hempty]
    cases lookup words (input.takeWhile Ascii.isAlpha) with
    | none => simp
    | some found => simp [hempty]

theorem run_keyword_ne_failed {message : Bytes} :
    (keyword words input).run ≠ .failed message := by
  intro h
  rw [run_keyword] at h
  split at h
  · cases h
  · split at h <;> cases h

/-- Letters in another case are letters, so the run ends in the same place and has the same
token. -/
theorem run_keyword_congr (hinput : SameWord input input')
    (hwords : List.Forall₂ (fun entry entry' => SameWord entry.1 entry'.1 ∧ entry.2 = entry'.2)
      words words') :
    (keyword words input).run = .ignored ∧ (keyword words' input').run = .ignored ∨
      ∃ token n, (keyword words input).run = .success token (.after input n) ∧
        (keyword words' input').run = .success token (.after input' n) := by
  have hrun := hinput.takeWhile
  have hlength := List.Forall₂.length_eq hrun
  have hempty : input.takeWhile Ascii.isAlpha = [] ↔ input'.takeWhile Ascii.isAlpha = [] := by
    rw [← List.length_eq_zero_iff, hlength, List.length_eq_zero_iff]
  rw [run_keyword, run_keyword, ← hlength, ← lookup_congr hrun hwords]
  by_cases h : input.takeWhile Ascii.isAlpha = []
  · rw [if_pos h, if_pos (hempty.1 h)]
    exact .inl ⟨rfl, rfl⟩
  · rw [if_neg h, if_neg (mt hempty.2 h)]
    cases lookup words (input.takeWhile Ascii.isAlpha) with
    | none => exact .inl ⟨rfl, rfl⟩
    | some token => exact .inr ⟨token, _, rfl, rfl⟩

/-- An input is accepted exactly if its leading run of letters, the whole of it, is one of the words
up to case: then with the token of the first such word, and with what is behind the run left over.
Any other input is ignored. The word that decides is of letters, and no letter follows it in the
input. Other cases of letters, in the input or in the words, lead to the same token and to a
remainder of the same length, or to neither. -/
theorem keyword_claims_runs (words : List (Bytes × τ)) (input : Bytes) :
    let run := input.takeWhile Ascii.isAlpha
    let outcome := (keyword words input).run
    (∀ token remainder, outcome = .success token remainder ↔
      run ≠ [] ∧ (∃ word, FirstFor words run word token) ∧ remainder = .after input run.length) ∧
    (outcome = .ignored ↔ run = [] ∨ ∀ entry ∈ words, ¬ SameWord run entry.1) ∧
    (∀ message, outcome ≠ .failed message) ∧
    (∀ entry ∈ words, run ≠ [] → SameWord run entry.1 →
      entry.1 ≠ [] ∧ (∀ b ∈ entry.1, Ascii.isAlpha b = true) ∧
      ∀ b ∈ (input.drop entry.1.length).head?, Ascii.isAlpha b = false) ∧
    ∀ words' input', SameWord input input' →
      List.Forall₂ (fun entry entry' => SameWord entry.1 entry'.1 ∧ entry.2 = entry'.2)
        words words' →
      let outcome' := (keyword words' input').run
      outcome = .ignored ∧ outcome' = .ignored ∨
        ∃ token remainder remainder', outcome = .success token remainder ∧
          outcome' = .success token remainder' ∧
          remainder'.text.length = remainder.text.length := by
  intro run outcome
  refine ⟨fun token remainder => run_keyword_eq_success_iff, run_keyword_eq_ignored_iff,
    fun message => run_keyword_ne_failed, fun entry _ hne hsame => ⟨?_, ?_, ?_⟩, ?_⟩
  · rintro hnil
    rw [hnil] at hsame
    exact hne (List.forall₂_nil_right_iff.1 hsame)
  · exact hsame.all_isAlpha (List.all_eq_true.1 List.all_takeWhile)
  · exact hsame.not_isAlpha_next
  · intro words' input' hinput hwords
    obtain hignored | ⟨token, n, hsuccess, hsuccess'⟩ := run_keyword_congr hinput hwords
    · exact .inl hignored
    · refine .inr ⟨token, _, _, hsuccess, hsuccess', ?_⟩
      rw [Remainder.after, Remainder.after, List.length_drop, List.length_drop,
        List.Forall₂.length_eq hinput]

/-- Of three entries for one word, the first. No entry claims a part of a longer run. -/
example :
    let words := [(.ofAscii "go to", 1), (.ofAscii "GO", 2), (.ofAscii "Go", 3)]
    (keyword words (.ofAscii "gO TO")).run = .success 2 ⟨.ofAscii " TO", true⟩ ∧
      (keyword words (.ofAscii "goto")).run = .ignored := by
  exact ⟨rfl, rfl⟩

end Recognizer

end ShiftReduce
