import ShiftReduce.Lexer.Basic

/-!
# What a lexer says about an input

Recognizers that only look at their input either ignore it one and all (`Lexer.Ignores`), or there
is a first one that does not, and what that one says is the decision (`Lexer.Decides`).
`Lexer.recognize` computes the decision, in every monad the lexer is lifted to.

A success is only of use if it leaves a proper suffix of its input
(`Remainder.IsProperSuffixOf`); of such a remainder `consumedFrom` counts the bytes before it.
-/

namespace ShiftReduce

variable {τ : Type}

namespace Lexer

/-! ## The first decision -/

/-- Every recognizer ignores the input. -/
def Ignores (lexer : Lexer Id τ) (input : Bytes) : Prop :=
  ∀ recognizer ∈ lexer.recognizers, (recognizer input).run = .ignored

/-- The first recognizer that does not ignore the input says `decision`. -/
def Decides (lexer : Lexer Id τ) (input : Bytes) (decision : Outcome τ) : Prop :=
  ∃ before recognizer after, lexer.recognizers = before ++ recognizer :: after ∧
    (∀ earlier ∈ before, (earlier input).run = .ignored) ∧
    (recognizer input).run = decision ∧ decision ≠ .ignored

theorem firstDecision_of_ignored {input : Bytes} {recognizer : Recognizer Id τ}
    (others : List (Recognizer Id τ)) (h : (recognizer input).run = .ignored) :
    (firstDecision input (recognizer :: others)).run = (firstDecision input others).run := by
  rw [firstDecision, Id.run_bind, h]

theorem firstDecision_of_ne_ignored {input : Bytes} {recognizer : Recognizer Id τ}
    (others : List (Recognizer Id τ)) (h : (recognizer input).run ≠ .ignored) :
    (firstDecision input (recognizer :: others)).run = (recognizer input).run := by
  rw [firstDecision, Id.run_bind]
  cases hr : (recognizer input).run with
  | success token remainder => rfl
  | ignored => exact absurd hr h
  | failed message => rfl

theorem recognize_of_ignores {lexer : Lexer Id τ} {input : Bytes} (h : lexer.Ignores input) :
    (lexer.recognize input).run = .ignored := by
  unfold Ignores at h
  unfold recognize
  generalize lexer.recognizers = recognizers at h ⊢
  induction recognizers with
  | nil => rfl
  | cons recognizer others ih =>
    obtain ⟨hfirst, hothers⟩ := List.forall_mem_cons.1 h
    rw [firstDecision_of_ignored others hfirst, ih hothers]

theorem recognize_of_decides {lexer : Lexer Id τ} {input : Bytes} {decision : Outcome τ}
    (h : lexer.Decides input decision) : (lexer.recognize input).run = decision := by
  obtain ⟨before, recognizer, after, hsplit, hbefore, hdecision, hne⟩ := h
  unfold recognize
  rw [hsplit]
  clear hsplit
  induction before with
  | nil => rw [List.nil_append, firstDecision_of_ne_ignored after (hdecision ▸ hne), hdecision]
  | cons earlier before ih =>
    obtain ⟨hfirst, hothers⟩ := List.forall_mem_cons.1 hbefore
    rw [List.cons_append, firstDecision_of_ignored _ hfirst, ih hothers]

theorem ignores_or_decides (lexer : Lexer Id τ) (input : Bytes) :
    lexer.Ignores input ∨ ∃ decision, lexer.Decides input decision := by
  unfold Ignores Decides
  induction lexer.recognizers with
  | nil => exact .inl fun _ hr => (nomatch hr)
  | cons recognizer others ih =>
    by_cases hfirst : (recognizer input).run = .ignored
    · rcases ih with hall | ⟨decision, before, next, after, hsplit, hbefore, hdecision⟩
      · exact .inl (List.forall_mem_cons.2 ⟨hfirst, hall⟩)
      · exact .inr ⟨decision, recognizer :: before, next, after, congrArg _ hsplit,
          List.forall_mem_cons.2 ⟨hfirst, hbefore⟩, hdecision⟩
    · exact .inr ⟨_, [], recognizer, others, rfl, fun _ hr => (nomatch hr), rfl, hfirst⟩

variable {lexer : Lexer Id τ} {input : Bytes}

theorem Decides.ne_ignored {decision : Outcome τ} (h : lexer.Decides input decision) :
    decision ≠ .ignored := by
  obtain ⟨_, _, _, _, _, _, hne⟩ := h
  exact hne

theorem Decides.unique {a b : Outcome τ} (ha : lexer.Decides input a)
    (hb : lexer.Decides input b) : a = b :=
  (recognize_of_decides ha).symm.trans (recognize_of_decides hb)

theorem Decides.not_ignores {decision : Outcome τ} (h : lexer.Decides input decision) :
    ¬ lexer.Ignores input := fun hall =>
  h.ne_ignored ((recognize_of_decides h).symm.trans (recognize_of_ignores hall))

theorem recognize_lift {m : Type → Type} [Monad m] [LawfulMonad m] (lexer : Lexer Id τ)
    (input : Bytes) : (lexer.lift.recognize input : m _) = pure (lexer.recognize input).run := by
  simp only [recognize, lift, map]
  induction lexer.recognizers with
  | nil => rfl
  | cons recognizer others ih =>
    rw [List.map_cons, firstDecision, pure_bind]
    cases hr : (recognizer input).run with
    | ignored => rw [firstDecision_of_ignored others hr, ← ih]
    | success token remainder =>
      rw [firstDecision_of_ne_ignored others (by simp [hr]), hr]
    | failed message => rw [firstDecision_of_ne_ignored others (by simp [hr]), hr]

end Lexer

/-! ## Proper suffixes -/

/-- What is left over is the end of the input, and not all of it. -/
structure Remainder.IsProperSuffixOf (remainder : Remainder) (input : Bytes) : Prop where
  suffix : remainder.text <:+ input
  shorter : remainder.text.length < input.length
  place : remainder.text ≠ [] → remainder.reachesEnd = true

namespace Remainder.IsProperSuffixOf

variable {remainder : Remainder} {input : Bytes}

theorem after {n : Nat} (hne : input ≠ []) (hn : 0 < n) :
    (Remainder.after input n).IsProperSuffixOf input where
  suffix := List.drop_suffix n input
  shorter := by
    have := List.length_pos_iff.2 hne
    simp only [Remainder.after, List.length_drop]
    omega
  place := fun _ => rfl

theorem consumedFrom_eq (h : remainder.IsProperSuffixOf input) :
    remainder.consumedFrom input = .ok (input.length - remainder.text.length) := by
  have hshorter := h.shorter
  unfold consumedFrom
  by_cases hempty : remainder.text = []
  · simp [hempty]
  · have hplace := h.place hempty
    have hfits : ¬(input.length < remainder.text.length ∨ remainder.reachesEnd = false) := by
      rw [hplace]
      simp
      omega
    rw [if_neg (by simpa using hempty), if_neg hfits, if_neg (by omega)]

theorem text_eq_drop (h : remainder.IsProperSuffixOf input) :
    remainder.text = input.drop (input.length - remainder.text.length) :=
  List.suffix_iff_eq_drop.1 h.suffix

end Remainder.IsProperSuffixOf

/-- Every success about an input that is not empty leaves a proper suffix of it. -/
def Lexer.LeavesSuffixes (lexer : Lexer Id τ) : Prop :=
  ∀ recognizer ∈ lexer.recognizers, ∀ input, input ≠ [] → ∀ token remainder,
    (recognizer input).run = .success token remainder → remainder.IsProperSuffixOf input

theorem Lexer.Decides.isProperSuffixOf {lexer : Lexer Id τ} {input : Bytes} {token : τ}
    {remainder : Remainder} (h : lexer.Decides input (.success token remainder))
    (hsuffixes : lexer.LeavesSuffixes) (hinput : input ≠ []) :
    remainder.IsProperSuffixOf input := by
  obtain ⟨before, recognizer, after, hsplit, _, hdecision, _⟩ := h
  refine hsuffixes recognizer ?_ input hinput token remainder hdecision
  rw [hsplit]
  exact List.mem_append_right _ List.mem_cons_self

end ShiftReduce
