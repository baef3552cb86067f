import ShiftReduce.Proofs.TinyBasic.Statement

/-!
# Lines of Tiny BASIC

A strict reducer accepts exactly the lines of the grammar. It looks at no token ahead and reduces as
soon as it can, which is never too soon: behind the number of a line, the tokens of a statement
leave the tree of the statement on the stack (`LineGrammar.foldl_shift_statement`), and a newline
behind it makes the line. The other way round, only a newline completes a line, and what it
completes has been a statement (`LineGrammar.shift_newline_cases`).
-/

namespace ShiftReduce

/-- A strict reducer gives a result only if it is all there is. -/
theorem Reducer.split_strict_eq_some_iff {τ : Type} {stack : List (Tree τ)} {t : Tree τ} :
    (split .strict stack).1 = some t ↔ stack = [t] := by
  match stack with
  | [] => simp [split]
  | [u] => simp [split]
  | u :: v :: stack => simp [split]

theorem Reducer.split_strict_of_eq_none {τ : Type} {stack : List (Tree τ)}
    (h : (split .strict stack).1 = none) : (split .strict stack).2 = stack := by
  have hall := split_append .strict stack
  rwa [h, Option.toList_none, List.append_nil] at hall

namespace TinyBasic.LineGrammar

variable {g : Generator}

/-! ## What is pushed is what is built -/

theorem foldl_shift_command {tokens : List Token} (h : Command tokens) (value : UInt64) :
    tokens.foldl (create g).grammar.shift [.leaf (.number value)] =
      [.leaf (.number value), .node (create g).statement (tokens.map .leaf)] := by
  cases h <;> cbv

theorem shift_comma (value : UInt64) (children : List (Tree Token)) :
    (create g).grammar.shift [.leaf (.number value), .node (create g).statement children]
        (.punctuator .comma) =
      [.leaf (.number value), .node (create g).statement children, .leaf (.punctuator .comma)] := by
  cbv

theorem shift_operand {token : Token} (h : Operand token) (value : UInt64)
    (children : List (Tree Token)) :
    (create g).grammar.shift
        [.leaf (.number value), .node (create g).statement children, .leaf (.punctuator .comma)]
        token =
      [.leaf (.number value), .node (create g).statement
        [.node (create g).statement children, .leaf (.punctuator .comma), .leaf token]] := by
  cases h <;> cbv

theorem shift_newline (value : UInt64) (children : List (Tree Token)) :
    (create g).grammar.shift [.leaf (.number value), .node (create g).statement children] .newline =
      [.node (create g).line
        [.leaf (.number value), .node (create g).statement children, .leaf .newline]] := by
  cbv

/-- Behind the number of a line, the tokens of a statement leave its tree. -/
theorem foldl_shift_statement {tokens : List Token} {t : Tree Token}
    (h : StatementTree (create g).statement tokens t) (value : UInt64) :
    tokens.foldl (create g).grammar.shift [.leaf (.number value)] = [.leaf (.number value), t] := by
  induction h with
  | command hcommand => exact foldl_shift_command hcommand value
  | @operand tokens t h token hoperand ih =>
    obtain ⟨children, rfl⟩ := h.exists_node
    rw [List.foldl_append, ih, List.foldl_cons, shift_comma, List.foldl_cons,
      shift_operand hoperand, List.foldl_nil]

theorem foldl_shift_line {body : List Token} {t : Tree Token}
    (h : LineTree (create g).line (create g).statement body t) :
    (body ++ [Token.newline]).foldl (create g).grammar.shift [] = [t] := by
  obtain ⟨value, h⟩ := h
  obtain ⟨children, rfl⟩ := h.exists_node
  have hnumber : (create g).grammar.shift [] (.number value) = [.leaf (.number value)] := by cbv
  rw [List.cons_append, List.foldl_cons, hnumber, List.foldl_append, foldl_shift_statement h,
    List.foldl_cons, shift_newline, List.foldl_nil]

/-! ## What is built was pushed -/

/-- A newline is only shifted, or it completes a line. -/
theorem shift_newline_cases (g : Generator) (stack : List (Tree Token)) :
    (create g).grammar.shift stack .newline = stack ++ [Tree.leaf Token.newline] ∨
      ∃ (below : List (Tree Token)) (value : UInt64) (children : List (Tree Token)),
        stack = below ++ [Tree.leaf (.number value), .node (create g).statement children] ∧
        (create g).grammar.shift stack .newline = below ++ [Tree.node (create g).line
          [.leaf (.number value), .node (create g).statement children, .leaf .newline]] := by
  rcases (create g).grammar.shift_cases stack .newline with
    hshift | ⟨below, run, rule, hrule, haccepts, hsplit, hshift⟩
  · exact .inl hshift
  · right
    rcases cases_of_accepts hrule haccepts with ⟨hline, value, children, rfl⟩ | ⟨-, hrun⟩
    · refine ⟨below, value, children, ?_, by rw [hshift, hline]⟩
      have hsplit : (below ++ [Tree.leaf (.number value), .node (create g).statement children]) ++
          [.leaf .newline] = stack ++ [Tree.leaf Token.newline] := by
        rw [← hsplit, List.append_assoc]
        rfl
      exact (List.append_cancel_right hsplit).symm
    · obtain ⟨before, token, rfl, hne⟩ := hrun.exists_last
      rw [← List.append_assoc] at hsplit
      have hlast := List.append_inj_right' hsplit rfl
      cases hlast
      exact absurd rfl hne

/-- A line leaves a single tree exactly if it is empty or a line of the grammar. -/
theorem foldl_shift_eq_singleton_iff {body : List Token} {t : Tree Token} :
    (body ++ [Token.newline]).foldl (create g).grammar.shift [] = [t] ↔
      (body = [] ∧ t = .leaf .newline) ∨
        LineTree (create g).line (create g).statement body t := by
  constructor
  · intro h
    have hleaves := (create g).grammar.foldl_shift_leaves [] body
    rw [List.foldl_append, List.foldl_cons, List.foldl_nil] at h
    rcases shift_newline_cases g (body.foldl (create g).grammar.shift []) with
      hshift | ⟨below, value, children, hstack, hshift⟩
    · have hsingle : [] ++ [t] = _ := h.symm.trans hshift
      obtain ⟨hempty, hleaf⟩ := List.append_inj' hsingle rfl
      rw [← hempty] at hleaves
      exact .inl ⟨hleaves.symm, (List.cons.inj hleaf).1⟩
    · have hsingle : [] ++ [t] = _ := h.symm.trans hshift
      obtain ⟨hbelow, hnode⟩ := List.append_inj' hsingle rfl
      rw [← hbelow, List.nil_append] at hstack
      have hmem : .node (create g).statement children ∈ body.foldl (create g).grammar.shift [] :=
        hstack ▸ List.mem_cons_of_mem _ List.mem_cons_self
      have hstatement := statementTree_of_mem hmem rfl
      rw [hstack] at hleaves
      have hbody : body = .number value :: (Tree.node (create g).statement children).leaves := by
        simpa using hleaves.symm
      cases hnode
      exact .inr (hbody ▸ .intro value hstatement)
  · rintro (⟨rfl, rfl⟩ | hline)
    · cbv
    · exact foldl_shift_line hline

/-- A strict reducer over the grammar, parsing tokens and the newline that ends a line, returns a
tree for a line exactly if the tokens are one, and then the tree of its derivation; the newline
itself exactly if there are no tokens; and otherwise nothing, with all the tokens left over. -/
theorem parse_line {ω : Type} (g : Generator) (r : Reducer Token) (world : ω)
    (body : List Token) :
    let basic := create g
    let e : Engine (Action (Scene (Reducer Token) ω)) Token := .silent basic.grammar
    let scene : Scene (Reducer Token) ω :=
      { subject := { r with policy := .strict, busy := false }, world }
    ∃ answer after, (e.parse (body ++ [Token.newline])).run scene = (.ok answer, after) ∧
      (∀ t, answer = some t ∧ t.symbol = .ok basic.line ↔
        LineTree basic.line basic.statement body t) ∧
      (answer = some (.leaf .newline) ↔ body = []) ∧
      (body ≠ [] → (¬ ∃ t, LineTree basic.line basic.statement body t) →
        answer = none ∧ allLeaves after.subject.residue = body ++ [Token.newline]) := by
  intro basic e scene
  let stack := (body ++ [Token.newline]).foldl basic.grammar.shift []
  have hanswer (t : Tree Token) : (Reducer.split .strict stack).1 = some t ↔
      (body = [] ∧ t = .leaf .newline) ∨ LineTree basic.line basic.statement body t :=
    Reducer.split_strict_eq_some_iff.trans foldl_shift_eq_singleton_iff
  obtain ⟨after, hrun, hresidue⟩ : ∃ after,
      (e.parse (body ++ [Token.newline])).run scene = (.ok (Reducer.split .strict stack).1, after) ∧
        after.subject.residue = (Reducer.split .strict stack).2 :=
    ⟨_, Engine.run_parse_silent rfl _, rfl⟩
  refine ⟨_, after, hrun, fun t => ?_, ?_, fun hbody hline => ?_⟩
  · constructor
    · rintro ⟨hsome, hsymbol⟩
      rcases (hanswer t).1 hsome with ⟨-, rfl⟩ | hline
      · exact nomatch hsymbol
      · exact hline
    · intro hline
      exact ⟨(hanswer t).2 (.inr hline), hline.symbol_eq⟩
  · constructor
    · intro hsome
      rcases (hanswer _).1 hsome with ⟨hbody, -⟩ | hline
      · exact hbody
      · exact nomatch hline.symbol_eq
    · rintro rfl
      exact (hanswer _).2 (.inl ⟨rfl, rfl⟩)
  · have hnone : (Reducer.split .strict stack).1 = none := by
      refine Option.eq_none_iff_forall_ne_some.2 fun t hsome => ?_
      rcases (hanswer t).1 hsome with ⟨hempty, -⟩ | htree
      · exact hbody hempty
      · exact hline ⟨t, htree⟩
    refine ⟨hnone, ?_⟩
    rw [hresidue, Reducer.split_strict_of_eq_none hnone]
    exact basic.grammar.foldl_shift_leaves [] _

end TinyBasic.LineGrammar

end ShiftReduce
