import ShiftReduce.Lexer.Builder
import ShiftReduce.Lexer.Recognizer

/-!
# Adding recognizers

A list of recognizers is added one by one until one is missing (`LexerBuilder.run_addAll_all`,
`LexerBuilder.run_addAll_missing`). What was added before stays, also when that is refused; all else
of the builder is as it was, and so is all else of the lexer it builds (`LexerBuilder.extend`).
-/

namespace ShiftReduce

/-- Either nothing in a list is missing or there is a first thing that is. -/
theorem exists_leading {α : Type} (given : List (Option α)) :
    (∃ all : List α, given = all.map some) ∨
      ∃ (leading : List α) (others : List (Option α)),
        given = leading.map some ++ none :: others := by
  induction given with
  | nil => exact .inl ⟨[], rfl⟩
  | cons first given ih =>
    cases first with
    | none => exact .inr ⟨[], given, rfl⟩
    | some a =>
      rcases ih with ⟨all, rfl⟩ | ⟨leading, others, rfl⟩
      · exact .inl ⟨a :: all, rfl⟩
      · exact .inr ⟨a :: leading, others, rfl⟩

namespace LexerBuilder

variable {m : Type → Type} {τ : Type}

/-- The builder with more recognizers behind those it has. -/
def extend (builder : LexerBuilder m τ) (more : List (Recognizer m τ)) : LexerBuilder m τ :=
  { builder with recognizers := builder.recognizers ++ more }

section Extend

variable (builder : LexerBuilder m τ) (more : List (Recognizer m τ))

@[simp] theorem extend_nil : builder.extend [] = builder := by
  rw [extend, List.append_nil]

@[simp] theorem extend_extend (others : List (Recognizer m τ)) :
    (builder.extend more).extend others = builder.extend (more ++ others) := by
  simp only [extend, List.append_assoc]

@[simp] theorem size_extend : (builder.extend more).size = builder.size + more.length :=
  List.length_append

@[simp] theorem build_extend : (builder.extend more).build.1 =
    { builder.build.1 with recognizers := builder.build.1.recognizers ++ more } := rfl

end Extend

theorem run_addAll_cons (recognizer : Recognizer m τ) (others : List (Option (Recognizer m τ)))
    (builder : LexerBuilder m τ) :
    (addAll (some recognizer :: others)).run builder =
      (addAll others).run (builder.extend [recognizer]) := rfl

theorem run_addAll_append (leading : List (Recognizer m τ))
    (others : List (Option (Recognizer m τ))) (builder : LexerBuilder m τ) :
    (addAll (leading.map some ++ others)).run builder =
      (addAll others).run (builder.extend leading) := by
  induction leading generalizing builder with
  | nil => rw [List.map_nil, List.nil_append, extend_nil]
  | cons recognizer leading ih =>
    rw [List.map_cons, List.cons_append, run_addAll_cons, ih, extend_extend, List.singleton_append]

/-- A list in which nothing is missing is added as a whole. -/
theorem run_addAll_all (all : List (Recognizer m τ)) (builder : LexerBuilder m τ) :
    (addAll (all.map some)).run builder = (.ok (), builder.extend all) := by
  have h := run_addAll_append all [] builder
  rwa [List.append_nil] at h

/-- A list in which something is missing is added up to there. -/
theorem run_addAll_missing (leading : List (Recognizer m τ))
    (others : List (Option (Recognizer m τ))) (builder : LexerBuilder m τ) :
    (addAll (leading.map some ++ none :: others)).run builder =
      (.error .badRecognizer, builder.extend leading) :=
  run_addAll_append leading (none :: others) builder

/-- Adding a recognizer that is missing leaves the builder as it was. Of a list, recognizers are
appended in order up to the first that is missing, which is an error, or to the end. Nothing else of
the builder changes, nor of the lexer that it would build. -/
theorem addAll_appends_leading (builder : LexerBuilder m τ)
    (given : List (Option (Recognizer m τ))) :
    (∀ recognizer? : Option (Recognizer m τ), (add recognizer?).run builder =
      match recognizer? with
      | none => (.error .badRecognizer, builder)
      | some recognizer => (.ok (), builder.extend [recognizer])) ∧
    let (result, after) := (addAll given).run builder
    ∃ added, after = builder.extend added ∧
      after.size = builder.size + added.length ∧
      after.build.1 =
        { builder.build.1 with recognizers := builder.build.1.recognizers ++ added } ∧
      (result = .ok () ∧ given = added.map some ∨
        result = .error .badRecognizer ∧ ∃ others, given = added.map some ++ none :: others) := by
  refine ⟨fun recognizer? => by cases recognizer? <;> rfl, ?_⟩
  rcases exists_leading given with ⟨all, rfl⟩ | ⟨leading, others, rfl⟩
  · rw [run_addAll_all]
    exact ⟨all, rfl, size_extend builder all, build_extend builder all, .inl ⟨rfl, rfl⟩⟩
  · rw [run_addAll_missing]
    exact ⟨leading, rfl, size_extend builder leading, build_extend builder leading,
      .inr ⟨rfl, others, rfl⟩⟩

/-- So a list that is refused need not leave the builder as it was. -/
theorem addAll_keeps_leading :
    let builder : LexerBuilder Id Bytes := {}
    let identifier := Recognizer.identifier (.ofAscii "id:" ++ ·)
    let (result, after) := (addAll [some identifier, none]).run builder
    result = .error .badRecognizer ∧ builder.size = 0 ∧ after.size = 1 ∧
      after.build.1.recognizers = [identifier] :=
  ⟨rfl, rfl, rfl, rfl⟩

end LexerBuilder

end ShiftReduce
