import ShiftReduce.Tree.Basic

/-!
# The leaves of trees

The pending trees of `leavesOf` contribute their leaves in order, so the leaves of a node are those
of its children, and a list of trees has the leaves of its members (`leavesOf_eq_flatMap`).
-/

namespace ShiftReduce

/-- The leaves of a list of trees, from left to right. -/
abbrev allLeaves {τ : Type} (ts : List (Tree τ)) : List τ := ts.flatMap Tree.leaves

namespace Tree

variable {τ : Type}

/-- What holds of leaves, and of a node if it holds of its children, holds of every tree. -/
@[elab_as_elim]
theorem induction {P : Tree τ → Prop} (leaf : ∀ token, P (.leaf token))
    (node : ∀ symbol children, (∀ child ∈ children, P child) → P (.node symbol children)) :
    (t : Tree τ) → P t
  | .leaf token => leaf token
  | .node symbol children => node symbol children fun child _ => induction leaf node child

theorem leavesOf_append (ts us : List (Tree τ)) :
    leavesOf (ts ++ us) = leavesOf ts ++ leavesOf us := by
  fun_induction leavesOf ts with
  | case1 => rfl
  | case2 token pending ih => rw [List.cons_append, leavesOf, ih, List.cons_append]
  | case3 symbol children pending ih => rw [List.cons_append, leavesOf, ← List.append_assoc, ih]

theorem leavesOf_eq_flatMap (ts : List (Tree τ)) : leavesOf ts = ts.flatMap leaves := by
  induction ts with
  | nil => rw [leavesOf, List.flatMap_nil]
  | cons t ts ih => rw [List.flatMap_cons, ← ih, leaves, ← leavesOf_append, List.singleton_append]

@[simp] theorem leaves_leaf (token : τ) : (leaf token).leaves = [token] := by
  rw [leaves, leavesOf, leavesOf]

@[simp] theorem leaves_node (symbol : Symbol) (children : List (Tree τ)) :
    (node symbol children).leaves = children.flatMap leaves := by
  rw [leaves, leavesOf, List.append_nil, leavesOf_eq_flatMap]

end Tree

end ShiftReduce
