import ShiftReduce.Proofs.TinyBasic.Program

/-!
# Programs and their lines

Parsing a program never builds its lines: it finishes the reducer at every newline, and at the end
of the text it looks at the depth of the stack to find out whether a line is left unfinished. Here
the lines are built first (`TinyBasic.lineGroups`), each as a list of tokens of its own, and a
program comes to what parsing these lists one by one comes to
(`CallbackEngine.parseProgram_eq_parse_groups`).

The depth is a good sign because a stack is empty only before the first token of a line: a stack has
the tokens of its line as leaves (`TinyBasic.foldl_shift_eq_nil_iff`).
-/

namespace ShiftReduce

open TinyBasic

variable {σ ω : Type}

namespace TinyBasic

/-! ## The lines as lists of tokens -/

/-- Splits tokens behind every newline. The last list has what comes after the last newline, also if
that is nothing. -/
def splitLines : List Token → List (List Token)
  | [] => [[]]
  | token :: tokens =>
    if token.isNewline then [token] :: splitLines tokens
    else (splitLines tokens).modifyHead (token :: ·)

/-- Drops the last line if it is empty, and ends it with a newline if it has none. -/
def endLastLine : List (List Token) → List (List Token)
  | [] => []
  | [line] =>
    if line = [] then [] else if line.getLast? = some .newline then [line] else [line ++ [.newline]]
  | line :: next :: lines => line :: endLastLine (next :: lines)

/-- The lines of a program. -/
def lineGroups (tokens : List Token) : List (List Token) := endLastLine (splitLines tokens)

theorem splitLines_ne_nil (tokens : List Token) : splitLines tokens ≠ [] := by
  cases tokens with
  | nil => exact List.cons_ne_nil _ _
  | cons token tokens =>
    unfold splitLines
    split
    · exact List.cons_ne_nil _ _
    · simpa using splitLines_ne_nil tokens

theorem endLastLine_cons {lines : List (List Token)} (h : lines ≠ []) (line : List Token) :
    endLastLine (line :: lines) = line :: endLastLine lines := by
  obtain ⟨next, others, rfl⟩ := List.exists_cons_of_ne_nil h
  rfl

/-- The lines of a program from the middle of a line on, with the tokens that the line has so
far. -/
def linesFrom (begun tokens : List Token) : List (List Token) :=
  endLastLine ((splitLines tokens).modifyHead (begun ++ ·))

theorem linesFrom_nil_left (tokens : List Token) : linesFrom [] tokens = lineGroups tokens := by
  unfold linesFrom lineGroups
  obtain ⟨line, lines, hsplit⟩ := List.exists_cons_of_ne_nil (splitLines_ne_nil tokens)
  rw [hsplit, List.modifyHead_cons, List.nil_append]

section Begun

variable {begun : List Token} (h : .newline ∉ begun)

include h in
/-- At the end of the tokens the line is ended, if it has begun. -/
theorem linesFrom_nil : linesFrom begun [] = if begun = [] then [] else [begun ++ [.newline]] := by
  have hlast : begun.getLast? ≠ some .newline := fun hlast => h (List.mem_of_getLast? hlast)
  simp only [linesFrom, splitLines, List.modifyHead_cons, List.append_nil, endLastLine,
    if_neg hlast]

theorem linesFrom_newline (begun tokens : List Token) :
    linesFrom begun (.newline :: tokens) = (begun ++ [.newline]) :: lineGroups tokens := by
  have hnewline : Token.isNewline .newline = true := rfl
  rw [linesFrom, splitLines, if_pos hnewline, List.modifyHead_cons,
    endLastLine_cons (splitLines_ne_nil tokens), lineGroups]

theorem linesFrom_cons {token : Token} (htoken : token ≠ .newline) (begun tokens : List Token) :
    linesFrom begun (token :: tokens) = linesFrom (begun ++ [token]) tokens := by
  have hnewline : ¬ token.isNewline = true := by simpa [Token.isNewline_iff] using htoken
  obtain ⟨line, lines, hsplit⟩ := List.exists_cons_of_ne_nil (splitLines_ne_nil tokens)
  simp only [linesFrom, splitLines, if_neg hnewline, hsplit, List.modifyHead_cons,
    List.append_assoc, List.singleton_append]

theorem newline_not_mem_concat {token : Token} (htoken : token ≠ .newline) (h : .newline ∉ begun) :
    .newline ∉ begun ++ [token] := by
  simpa [h] using htoken.symm

include h in
theorem length_linesFrom (tokens : List Token) :
    (linesFrom begun tokens).length = tokens.count .newline +
      if begun ++ tokens = [] ∨ (begun ++ tokens).getLast? = some .newline then 0 else 1 := by
  induction tokens generalizing begun with
  | nil =>
    have hlast : begun.getLast? ≠ some .newline := fun hlast => h (List.mem_of_getLast? hlast)
    rw [linesFrom_nil h, List.append_nil]
    by_cases hempty : begun = [] <;> simp [hempty, hlast]
  | cons token tokens ih =>
    by_cases htoken : token = .newline
    · subst htoken
      have hrest := ih List.not_mem_nil
      rw [linesFrom_nil_left, List.nil_append] at hrest
      have hends : begun ++ .newline :: tokens = [] ∨
          (begun ++ .newline :: tokens).getLast? = some .newline ↔
            tokens = [] ∨ tokens.getLast? = some .newline := by
        cases tokens <;> simp
      rw [linesFrom_newline, List.length_cons, hrest, List.count_cons_self]
      simp only [hends]
      omega
    · rw [linesFrom_cons htoken, ih (newline_not_mem_concat htoken h), List.append_assoc,
        List.singleton_append, List.count_cons_of_ne htoken]

include h in
/-- There is a token that a line begins with, and before it are the lines before, each with its
newline. -/
theorem exists_take_linesFrom (tokens : List Token) {k : Nat}
    (hk : k < (linesFrom begun tokens).length) :
    ∃ first after, begun ++ tokens = ((linesFrom begun tokens).take k).flatten ++ first :: after ∧
      ((linesFrom begun tokens).take k).flatten.count .newline = k := by
  induction tokens generalizing begun k with
  | nil =>
    rw [linesFrom_nil h] at hk ⊢
    split at hk
    · cases hk
    · rename_i hne
      obtain rfl : k = 0 := by simpa using hk
      obtain ⟨first, after, rfl⟩ := List.exists_cons_of_ne_nil hne
      exact ⟨first, after, List.append_nil _, rfl⟩
  | cons token tokens ih =>
    by_cases htoken : token = .newline
    · subst htoken
      rw [linesFrom_newline] at hk ⊢
      cases k with
      | zero =>
        obtain ⟨first, after, hsplit⟩ :=
          List.exists_cons_of_ne_nil (List.append_ne_nil_of_right_ne_nil begun
            (List.cons_ne_nil Token.newline tokens))
        exact ⟨first, after, hsplit, rfl⟩
      | succ k =>
        rw [← linesFrom_nil_left] at hk ⊢
        obtain ⟨first, after, hsplit, hcount⟩ :=
          ih List.not_mem_nil (Nat.lt_of_succ_lt_succ hk)
        rw [List.nil_append] at hsplit
        refine ⟨first, after, ?_, ?_⟩
        · rw [List.take_succ_cons, List.flatten_cons, List.append_assoc, List.append_assoc,
            ← hsplit, List.singleton_append]
        · simp [hcount, List.count_eq_zero.2 h]
    · rw [linesFrom_cons htoken] at hk ⊢
      have hrest := ih (newline_not_mem_concat htoken h) hk
      rwa [List.append_assoc, List.singleton_append] at hrest

end Begun

/-- There is a line for every newline, and one more if tokens follow the last newline. -/
theorem length_lineGroups (tokens : List Token) :
    (lineGroups tokens).length = tokens.count .newline +
      if tokens = [] ∨ tokens.getLast? = some .newline then 0 else 1 := by
  rw [← linesFrom_nil_left, length_linesFrom List.not_mem_nil, List.nil_append]

/-- A line begins with a token, and as many newlines are before it as there are lines. -/
theorem exists_take_lineGroups {tokens : List Token} {k : Nat}
    (hk : k < (lineGroups tokens).length) :
    ∃ first after, tokens = ((lineGroups tokens).take k).flatten ++ first :: after ∧
      ((lineGroups tokens).take k).flatten.count .newline = k := by
  rw [← linesFrom_nil_left] at hk ⊢
  exact exists_take_linesFrom List.not_mem_nil tokens hk

/-! ## The lines and the stack -/

section Shift

variable (g : Grammar Id Token) (policy : Policy)

theorem foldl_shift_eq_nil_iff {line : List Token} : line.foldl g.shift [] = [] ↔ line = [] := by
  constructor
  · intro h
    have hleaves := g.foldl_shift_leaves [] line
    rw [h] at hleaves
    exact hleaves.symm
  · rintro rfl
    rfl

/-- What a line comes to by itself. -/
def lineResult (line : List Token) : Option (Tree Token) :=
  (Reducer.split policy (line.foldl g.shift [])).1

/-- From the middle of a line on, with the tokens that the line has so far on the stack, a program
has the results of its lines. -/
theorem programLines_eq_map {begun : List Token} (h : .newline ∉ begun) (tokens : List Token) :
    programLines g policy (begun.foldl g.shift []) tokens =
      (linesFrom begun tokens).map (lineResult g policy) := by
  induction tokens generalizing begun with
  | nil =>
    rw [linesFrom_nil h, programLines]
    simp only [foldl_shift_eq_nil_iff]
    by_cases hempty : begun = []
    · rw [if_pos hempty, if_pos hempty, List.map_nil]
    · rw [if_neg hempty, if_neg hempty, List.map_singleton, lineResult, List.foldl_concat]
  | cons token tokens ih =>
    by_cases htoken : token = .newline
    · have hrest := ih List.not_mem_nil
      rw [linesFrom_nil_left, List.foldl_nil] at hrest
      rw [htoken, linesFrom_newline, List.map_cons, lineResult, List.foldl_concat, ← hrest]
      rfl
    · have hrest := ih (newline_not_mem_concat htoken h)
      rw [List.foldl_concat] at hrest
      rw [linesFrom_cons htoken, ← hrest, programLines,
        if_neg (by simpa [Token.isNewline_iff] using htoken)]

/-- A program has the results of its lines. -/
theorem programLines_eq_map_lineGroups (tokens : List Token) :
    programLines g policy [] tokens = (lineGroups tokens).map (lineResult g policy) := by
  have hbegun := programLines_eq_map g policy List.not_mem_nil tokens
  rwa [List.foldl_nil, linesFrom_nil_left] at hbegun

end Shift

end TinyBasic

/-! ## Programs -/

namespace CallbackEngine

section Groups

variable {g : Grammar Id Token} {hooks : Hooks (ReducerCallback σ Token) Token} {J : σ → Prop}
  (hcalm : (ofTotal g hooks).running.hooks.Calm J) {policy : Policy}

include hcalm

theorem Ready.run_parse {scene : Scene (Reducer Token) σ}
    (h : (ofTotal g hooks).Ready policy J scene) (line : List Token) :
    ∃ after, ((ofTotal g hooks).perform (.parse line)).run scene =
      (.ok (lineResult g policy line), after) := by
  have hagree : Engine.Agree (fun (w : σ) (_ : Unit) => J w) (fun _ _ => False)
      (ofTotal g hooks).running (.silent g) :=
    Engine.agree_silent (ofTotal_running_grammar g hooks) hcalm (running_unobtrusive _)
  obtain ⟨result, after, _, hparse, hresult, -⟩ :=
    (hagree.parse line scene ⟨scene.subject, ()⟩ ⟨rfl, h.reached.idle, h.world⟩).exists_value
  have hsilent : Engine.Idle (⟨scene.subject, ()⟩ : Scene (Reducer Token) Unit) := h.reached.idle
  cases (Engine.run_parse_silent hsilent line).symm.trans hresult
  rw [lineResult, ← h.policy_eq]
  exact ⟨after, hparse⟩

/-- Parsing lines one after the other gives the result of each. -/
theorem Ready.run_mapM_parse {scene : Scene (Reducer Token) σ}
    (h : (ofTotal g hooks).Ready policy J scene) (lines : List (List Token)) :
    ∃ after, (lines.mapM fun line => (ofTotal g hooks).perform (.parse line)).run scene =
      (.ok (lines.map (lineResult g policy)), after) := by
  induction lines generalizing scene with
  | nil => exact ⟨scene, rfl⟩
  | cons line lines ih =>
    obtain ⟨between, hline⟩ := h.run_parse hcalm line
    have hbetween := h.perform hcalm (.parse line)
    rw [hline] at hbetween
    obtain ⟨after, hlines⟩ := ih hbetween
    rw [List.mapM_cons, Action.run_bind_of_ok hline, Action.run_bind_of_ok hlines]
    exact ⟨after, rfl⟩

/-- A program ends in the error that tokenizing its text ends in. If there is none, then its lines
are what parsing the lists of tokens one by one comes to, whatever reducer of the same grammar and
policy parses them, and the stack is left empty. The recognizers share no state with predicates and
hooks, since the lexer and the reducer run in scenes of their own (`ParseScene`). -/
theorem parseProgram_eq_parse_groups {scene : Scene (Reducer Token) σ}
    (hscene : (ofTotal g hooks).Ready policy J scene)
    (lexer : Lexer (Action (Scene Bool ω)) Token) (lexing : Scene Bool ω) (text : Bytes) :
    let program := (parseProgram lexer (ofTotal g hooks).running text).run (lexing, scene)
    (∀ error lexed, (lexer.tokenize text).run lexing = (.error error, lexed) →
      program.1 = .error error) ∧
    ∀ tokens lexed, (lexer.tokenize text).run lexing = (.ok tokens, lexed) →
      ∃ lines after, program = (.ok lines, (lexed, after)) ∧ after.subject.stack = [] ∧
        (∀ other, (ofTotal g hooks).Ready policy J other →
          (((lineGroups tokens).mapM fun line =>
            (ofTotal g hooks).perform (.parse line)).run other).1 = .ok lines) ∧
        lines.length = tokens.count .newline +
          if tokens = [] ∨ tokens.getLast? = some .newline then 0 else 1 := by
  intro program
  rcases hdrain : ((Stream.ofText text).drain lexer).run lexing with ⟨d, drained⟩
  obtain ⟨emptied, after, hreset, hpush, hstack⟩ :=
    exists_pushLines_of_calm (ofTotal_running_grammar g hooks) hcalm (running_unobtrusive _)
      ⟨hscene.reached.idle, hscene.world⟩ d.tokens
  rw [Lexer.run_tokenize hdrain]
  cases hfault : d.fault? with
  | some error =>
    rw [Drained.settle_of_fault hfault]
    refine ⟨?_, fun _ _ h => (nomatch h)⟩
    rintro _ _ ⟨⟩
    exact (run_parseProgram hdrain hreset hpush).trans (Drained.settle_of_fault hfault _)
  | none =>
    rw [Drained.settle_of_no_fault hfault]
    refine ⟨fun _ _ h => (nomatch h), ?_⟩
    rintro _ _ ⟨⟩
    rw [hscene.policy_eq, programLines_eq_map_lineGroups] at hpush
    refine ⟨_, after, run_parseProgram_of_no_fault hdrain hreset hpush hfault, hstack, ?_, ?_⟩
    · intro other hother
      obtain ⟨_, hparse⟩ := hother.run_mapM_parse hcalm (lineGroups d.tokens)
      rw [hparse]
    · rw [List.length_map, length_lineGroups]

end Groups

/-- Two lines, the last of which has no line feed, parsed by a strict reducer that a program has
left with half of a line. -/
theorem parseProgram_eq_parse_groups_unended :
    let g := (LineGrammar.create { scope := 0 }).grammar
    let e : CallbackEngine Unit Token := ofTotal g .none
    let lexer : Lexer (Action (Scene Bool Unit)) Token := TinyBasic.lexer.lift
    let lexing : Scene Bool Unit := { subject := false, world := () }
    let text := Bytes.ofAscii "10 RUN\n20 END"
    let tokens : List Token := [.number 10, .keyword .run, .newline, .number 20, .keyword .end]
    let fresh : Scene (Reducer Token) Unit := ⟨{ policy := .strict }, ()⟩
    let used := (e.program lexing fresh (.ofAscii "20 PRINT \"A")).2
    (e.running.hooks.Calm (fun _ => True) ∧ e.Ready .strict (fun _ => True) used ∧
      e.Ready .strict (fun _ => True) fresh ∧
      (lexer.tokenize text).run lexing = (.ok tokens, lexing)) ∧
    lineGroups tokens =
      [[.number 10, .keyword .run, .newline], [.number 20, .keyword .end, .newline]] ∧
    ∃ lines after, (parseProgram lexer e.running text).run (lexing, used) =
        (.ok lines, (lexing, after)) ∧ after.subject.stack = [] ∧
      (((lineGroups tokens).mapM fun line => e.perform (.parse line)).run fresh).1 = .ok lines ∧
      lines.length = 2 := by
  have htokens : ((TinyBasic.lexer.lift : Lexer (Action (Scene Bool Unit)) Token).tokenize
      (Bytes.ofAscii "10 RUN\n20 END")).run { subject := false, world := () } =
        (.ok [.number 10, .keyword .run, .newline, .number 20, .keyword .end],
          { subject := false, world := () }) := by rfl
  intro g e lexer lexing text tokens fresh used
  have hcalm : e.running.Calm (fun _ => True) := running_ofTotal g ▸ Engine.calm_silent g _
  have hfresh : e.Ready .strict (fun _ => True) fresh := ⟨.fresh .strict (), rfl, trivial⟩
  have hused : e.Ready .strict (fun _ => True) used := hfresh.program hcalm.hooks lexing _
  obtain ⟨lines, after, hprogram, hstack, hgroups, hlength⟩ :=
    (parseProgram_eq_parse_groups hcalm.hooks hused lexer lexing text).2 tokens lexing htokens
  exact ⟨⟨hcalm.hooks, hused, hfresh, htokens⟩, by decide, lines, after, hprogram, hstack,
    hgroups fresh hfresh, hlength⟩

end CallbackEngine

end ShiftReduce
