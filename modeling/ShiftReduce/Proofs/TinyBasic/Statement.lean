import ShiftReduce.Proofs.Reducer.Silent
import ShiftReduce.TinyBasic.Grammar

/-!
# Statements of Tiny BASIC

The language of statements as it is written down for a reader: a command, followed by any number of
commas with an operand each (`StatementTree`). The tree of a statement has the tree of all but the
last operand as its first child.

A run of trees that a rule accepts is a whole line, or else the tokens of a command, or a statement
with one more operand (`LineGrammar.cases_of_accepts`, `LineGrammar.Run`). So every node of the
symbol `statement` that is ever built is the tree of the statement that its leaves spell
(`LineGrammar.statementTree_of_mem`).
-/

namespace ShiftReduce.TinyBasic

/-- A statement that nothing was added to yet. -/
inductive Command : List Token → Prop
  | print (text : Bytes) : Command [.keyword .print, .string text]
  | input (letter : Fin 26) : Command [.keyword .input, .var letter]
  | goto (line : UInt64) : Command [.keyword .goto, .number line]
  | gosub (line : UInt64) : Command [.keyword .gosub, .number line]
  | «let» (letter : Fin 26) (value : UInt64) :
    Command [.keyword .let, .var letter, .punctuator .equals, .number value]
  | «return» : Command [.keyword .return]
  | clear : Command [.keyword .clear]
  | list : Command [.keyword .list]
  | run : Command [.keyword .run]
  | «end» : Command [.keyword .end]

/-- What can stand behind a comma. -/
inductive Operand : Token → Prop
  | string (text : Bytes) : Operand (.string text)
  | var (letter : Fin 26) : Operand (.var letter)

/-- The tokens of a statement, and its tree over the given symbol. -/
inductive StatementTree (statement : Symbol) : List Token → Tree Token → Prop
  | command {tokens : List Token} (h : Command tokens) :
    StatementTree statement tokens (.node statement (tokens.map .leaf))
  | operand {tokens : List Token} {t : Tree Token} (h : StatementTree statement tokens t)
    {token : Token} (hoperand : Operand token) :
    StatementTree statement (tokens ++ [.punctuator .comma, token])
      (.node statement [t, .leaf (.punctuator .comma), .leaf token])

/-- The tokens of a line, without the newline that ends it, and the tree of the line. -/
inductive LineTree (line statement : Symbol) : List Token → Tree Token → Prop
  | intro (value : UInt64) {tokens : List Token} {t : Tree Token}
    (h : StatementTree statement tokens t) :
    LineTree line statement (.number value :: tokens)
      (.node line [.leaf (.number value), t, .leaf .newline])

theorem Command.ne_nil {tokens : List Token} (h : Command tokens) : tokens ≠ [] := by
  cases h <;> simp

theorem Command.newline_not_mem {tokens : List Token} (h : Command tokens) :
    Token.newline ∉ tokens := by
  cases h <;> simp

theorem StatementTree.exists_node {statement : Symbol} {tokens : List Token} {t : Tree Token}
    (h : StatementTree statement tokens t) : ∃ children, t = .node statement children := by
  cases h <;> exact ⟨_, rfl⟩

theorem StatementTree.leaves_eq {statement : Symbol} {tokens : List Token} {t : Tree Token}
    (h : StatementTree statement tokens t) : t.leaves = tokens := by
  induction h with
  | command =>
    rw [Tree.leaves_node, List.flatMap_map]
    simp only [Tree.leaves_leaf, List.flatMap_singleton']
  | operand _ _ ih => simp [ih]

theorem LineTree.symbol_eq {line statement : Symbol} {body : List Token} {t : Tree Token}
    (h : LineTree line statement body t) : t.symbol = .ok line := by
  cases h
  rfl

namespace LineGrammar

/-! ## Runs that the rules accept -/

section Accepts

variable {t : Tree Token}

theorem accepts_terminal_iff {p : Token → Bool} :
    (Schema.terminal (m := Id) p).Accepts t ↔ ∃ token, p token = true ∧ t = .leaf token := by
  cases t with
  | leaf token =>
    change p token = true ↔ _
    simp
  | node symbol children => simp [Schema.Accepts, Schema.accepts]

theorem accepts_nonterminal_iff {symbol : Symbol} :
    (Schema.nonterminal (m := Id) symbol).Accepts t ↔ ∃ children, t = .node symbol children := by
  cases t with
  | leaf token => simp [Schema.Accepts, Schema.accepts]
  | node other children => simp [Schema.Accepts, Schema.accepts]

theorem accepts_literal_iff {literal : Token} :
    (Schema.terminal (m := Id) fun token => token == literal).Accepts t ↔ t = .leaf literal := by
  rw [accepts_terminal_iff]
  simp

theorem accepts_number_iff :
    (Schema.terminal (m := Id) Token.isNumber).Accepts t ↔ ∃ value, t = .leaf (.number value) := by
  simp [accepts_terminal_iff, Token.isNumber_iff]

theorem accepts_string_iff :
    (Schema.terminal (m := Id) Token.isString).Accepts t ↔ ∃ text, t = .leaf (.string text) := by
  simp [accepts_terminal_iff, Token.isString_iff]

theorem accepts_var_iff :
    (Schema.terminal (m := Id) Token.isVar).Accepts t ↔ ∃ letter, t = .leaf (.var letter) := by
  simp [accepts_terminal_iff, Token.isVar_iff]

theorem accepts_newline_iff :
    (Schema.terminal (m := Id) Token.isNewline).Accepts t ↔ t = .leaf .newline := by
  simp [accepts_terminal_iff, Token.isNewline_iff]

end Accepts

/-- What the children of a node of the symbol `statement` are. -/
inductive Run (statement : Symbol) : List (Tree Token) → Prop
  | command {tokens : List Token} (h : Command tokens) : Run statement (tokens.map .leaf)
  | operand (children : List (Tree Token)) {token : Token} (hoperand : Operand token) :
    Run statement [.node statement children, .leaf (.punctuator .comma), .leaf token]

theorem run_of_accepts {statement : Symbol} {schemas : List (Schema Id Token)}
    {run : List (Tree Token)} (hmem : schemas ∈ statementSchemas statement)
    (h : List.Forall₂ Schema.Accepts schemas run) : Run statement run := by
  simp only [statementSchemas, List.mem_cons, List.not_mem_nil, or_false] at hmem
  rcases hmem with rfl | rfl | rfl | rfl | rfl | rfl | rfl | rfl | rfl | rfl | rfl | rfl
  all_goals
    simp only [List.forall₂_cons_left_iff, List.forall₂_nil_left_iff, word, mark,
      accepts_literal_iff, accepts_nonterminal_iff, accepts_number_iff, accepts_string_iff,
      accepts_var_iff, exists_eq_left, exists_and_left] at h
  · obtain ⟨_, ⟨_, ⟨text, rfl⟩, rfl⟩, rfl⟩ := h
    exact .command (.print text)
  · obtain ⟨_, ⟨children, rfl⟩, _, ⟨_, ⟨_, ⟨text, rfl⟩, rfl⟩, rfl⟩, rfl⟩ := h
    exact .operand children (.string text)
  · obtain ⟨_, ⟨children, rfl⟩, _, ⟨_, ⟨_, ⟨letter, rfl⟩, rfl⟩, rfl⟩, rfl⟩ := h
    exact .operand children (.var letter)
  · obtain ⟨_, ⟨_, ⟨letter, rfl⟩, rfl⟩, rfl⟩ := h
    exact .command (.input letter)
  · obtain ⟨_, ⟨_, ⟨line, rfl⟩, rfl⟩, rfl⟩ := h
    exact .command (.goto line)
  · obtain ⟨_, ⟨_, ⟨line, rfl⟩, rfl⟩, rfl⟩ := h
    exact .command (.gosub line)
  · obtain ⟨_, ⟨_, ⟨letter, rfl⟩, _, ⟨_, ⟨_, ⟨value, rfl⟩, rfl⟩, rfl⟩, rfl⟩, rfl⟩ := h
    exact .command (.let letter value)
  · exact h ▸ .command .return
  · exact h ▸ .command .clear
  · exact h ▸ .command .list
  · exact h ▸ .command .run
  · exact h ▸ .command .end

/-- A run of a statement ends in a leaf, and not in a newline. -/
theorem Run.exists_last {statement : Symbol} {run : List (Tree Token)} (h : Run statement run) :
    ∃ before token, run = before ++ [Tree.leaf token] ∧ token ≠ .newline := by
  cases h with
  | @command tokens h =>
    obtain ⟨before, token, rfl⟩ := List.eq_nil_or_concat' tokens |>.resolve_left h.ne_nil
    refine ⟨before.map .leaf, token, List.map_append, ?_⟩
    rintro rfl
    exact h.newline_not_mem (List.mem_append_right _ List.mem_cons_self)
  | @operand children token hoperand =>
    refine ⟨[.node statement children, .leaf (.punctuator .comma)], token, rfl, ?_⟩
    cases hoperand <;> exact fun h => nomatch h

/-! ## Nodes of a line -/

variable {g : Generator}

theorem line_ne_statement (g : Generator) : (create g).line ≠ (create g).statement := by
  intro h
  have hsequence : g.issued = g.issued + 1 := congrArg Symbol.sequence h
  simp at hsequence

theorem cases_of_accepts {rule : Rule Id Token} {run : List (Tree Token)}
    (hrule : rule ∈ (create g).grammar.rules) (h : List.Forall₂ Schema.Accepts rule.schemas run) :
    (rule.symbol = (create g).line ∧ ∃ value children,
      run = [.leaf (.number value), .node (create g).statement children, .leaf .newline]) ∨
    (rule.symbol = (create g).statement ∧ Run (create g).statement run) := by
  rcases List.mem_cons.1 hrule with rfl | hrule
  · refine .inl ⟨rfl, ?_⟩
    have h : List.Forall₂ Schema.Accepts (lineRule _ (create g).statement).schemas run := h
    simp only [lineRule, List.forall₂_cons_left_iff, List.forall₂_nil_left_iff,
      accepts_nonterminal_iff, accepts_number_iff, accepts_newline_iff, exists_eq_left,
      exists_and_left] at h
    obtain ⟨_, ⟨value, rfl⟩, _, ⟨_, ⟨children, rfl⟩, rfl⟩, rfl⟩ := h
    exact ⟨value, children, rfl⟩
  · obtain ⟨schemas, hschemas, rfl⟩ := List.mem_map.1 hrule
    exact .inr ⟨rfl, run_of_accepts hschemas h⟩

/-- Every node of the symbol `statement` is the tree of the statement that its leaves spell. -/
theorem statementTree_of_mem {tokens : List Token} {t : Tree Token}
    (h : t ∈ tokens.foldl (create g).grammar.shift [])
    (hsymbol : t.symbol = .ok (create g).statement) :
    StatementTree (create g).statement t.leaves t := by
  refine (create g).grammar.foldl_shift_induction
    (P := fun t => t.symbol = .ok (create g).statement →
      StatementTree (create g).statement t.leaves t)
    (fun _ h => nomatch h) (fun rule hrule run haccepts hrun hsymbol => ?_) tokens []
    (fun _ ht => (nomatch ht)) t h hsymbol
  have hstatement : rule.symbol = (create g).statement := Except.ok.inj hsymbol
  rcases cases_of_accepts hrule haccepts with ⟨hline, -⟩ | ⟨-, hcases⟩
  · exact absurd (hline.symm.trans hstatement) (line_ne_statement g)
  · have hnode : ∃ tokens, StatementTree (create g).statement tokens (.node rule.symbol run) := by
      rw [hstatement]
      cases hcases with
      | command hcommand => exact ⟨_, .command hcommand⟩
      | operand children hoperand =>
        exact ⟨_, .operand (hrun _ List.mem_cons_self rfl) hoperand⟩
    obtain ⟨tokens, hnode⟩ := hnode
    rwa [hnode.leaves_eq]

end LineGrammar

end ShiftReduce.TinyBasic
