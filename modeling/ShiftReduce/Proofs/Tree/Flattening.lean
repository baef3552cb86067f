import Mathlib.Data.List.Basic
import ShiftReduce.Proofs.Tree.Leaves

/-!
# Flattening

The tokens of a tree are listed in a loop over a stack of pending trees. `LeafLoop` is that loop one
turn at a time, with the top of the stack at its end, as it is pushed and popped.

A turn keeps the tokens listed so far together with the leaves of the pending trees from the top
down, and it leaves one part less of them, although it may push many (`LeafLoop.turn_spec`). So the
loop ends, with the leaves that the recursive definition gives (`leaf_loop_flattens`).
-/

namespace ShiftReduce.Tree

variable {τ : Type}

/-! ## The recursive definition -/

theorem flatten_node (symbol : Symbol) (children : List (Tree τ)) :
    (node symbol children).flatten = children.flatMap flatten := by
  rw [flatten]
  induction children with
  | nil => rw [flattenAll, List.flatMap_nil]
  | cons t ts ih => rw [flattenAll, List.flatMap_cons, ih]

theorem leaves_eq_flatten (t : Tree τ) : t.leaves = t.flatten := by
  induction t using induction with
  | leaf token => rw [leaves_leaf, flatten]
  | node symbol children ih => rw [leaves_node, flatten_node, List.flatMap_congr ih]

theorem leavesOf_eq_flatMap_flatten (pending : List (Tree τ)) :
    leavesOf pending = pending.flatMap flatten := by
  rw [leavesOf_eq_flatMap]
  exact List.flatMap_congr fun t _ => leaves_eq_flatten t

theorem sizeAll_reverse (ts : List (Tree τ)) : sizeAll ts.reverse = sizeAll ts := by
  induction ts with
  | nil => rfl
  | cons t ts ih =>
    rw [List.reverse_cons, sizeAll_append, ih]
    simp only [sizeAll]
    omega

/-! ## The loop -/

/-- The loop between two turns: the tokens listed so far, and the stack of pending trees with its
top at the end. -/
structure LeafLoop (τ : Type) where
  tokens : List τ
  pending : List (Tree τ)

namespace LeafLoop

/-- A turn takes the top off the stack. It lists the token of a leaf, and it pushes the children of
a node one by one from the last to the first. -/
def turn (l : LeafLoop τ) : Option (LeafLoop τ) :=
  match l.pending.getLast? with
  | none => none
  | some (leaf token) => some ⟨l.tokens ++ [token], l.pending.dropLast⟩
  | some (node _ children) =>
    some ⟨l.tokens, children.foldr (fun child stack => stack ++ [child]) l.pending.dropLast⟩

/-- The loop takes `n` turns until nothing is pending, and has listed `result` then. -/
inductive Ends : (n : Nat) → (l : LeafLoop τ) → (result : List τ) → Prop
  | stop {l : LeafLoop τ} (h : l.turn = none) : Ends 0 l l.tokens
  | turn {n : Nat} {l next : LeafLoop τ} {result : List τ} (h : l.turn = some next)
      (hnext : Ends n next result) : Ends (n + 1) l result

theorem foldr_push (children stack : List (Tree τ)) :
    children.foldr (fun child stack => stack ++ [child]) stack = stack ++ children.reverse := by
  induction children with
  | nil => rw [List.foldr_nil, List.reverse_nil, List.append_nil]
  | cons t ts ih => rw [List.foldr_cons, ih, List.reverse_cons, List.append_assoc]

theorem turn_leaf (tokens : List τ) (rest : List (Tree τ)) (token : τ) :
    turn ⟨tokens, rest ++ [leaf token]⟩ = some ⟨tokens ++ [token], rest⟩ := by
  simp only [turn, List.getLast?_concat, List.dropLast_concat]

theorem turn_node (tokens : List τ) (rest : List (Tree τ)) (symbol : Symbol)
    (children : List (Tree τ)) :
    turn ⟨tokens, rest ++ [node symbol children]⟩ = some ⟨tokens, rest ++ children.reverse⟩ := by
  simp only [turn, List.getLast?_concat, List.dropLast_concat, foldr_push]

/-- While trees are pending there is a turn. It takes one part off them, the leaf or the node itself,
and keeps what the loop comes to. -/
theorem turn_spec (l : LeafLoop τ) :
    l.pending = [] ∧ l.turn = none ∨
      ∃ next, l.turn = some next ∧ sizeAll l.pending = sizeAll next.pending + 1 ∧
        l.tokens ++ leavesOf l.pending.reverse = next.tokens ++ leavesOf next.pending.reverse := by
  obtain ⟨tokens, pending⟩ := l
  rcases List.eq_nil_or_concat' pending with rfl | ⟨rest, t, rfl⟩
  · exact .inl ⟨rfl, rfl⟩
  · right
    have htop : (rest ++ [t]).reverse = t :: rest.reverse := by simp
    have hsize : sizeAll (rest ++ [t]) = sizeAll rest + t.size := by simp [sizeAll_append, sizeAll]
    rw [htop, hsize]
    cases t with
    | leaf token =>
      refine ⟨_, turn_leaf tokens rest token, by rw [size], ?_⟩
      rw [leavesOf, List.append_assoc, List.singleton_append]
    | node symbol children =>
      refine ⟨_, turn_node tokens rest symbol children, ?_, ?_⟩
      · rw [size, sizeAll_append, sizeAll_reverse, Nat.add_assoc, Nat.add_comm 1]
      · rw [leavesOf, List.reverse_append, List.reverse_reverse]

/-- From wherever it stands the loop ends, after as many turns as the pending trees have parts. -/
theorem ends (l : LeafLoop τ) :
    Ends (sizeAll l.pending) l (l.tokens ++ leavesOf l.pending.reverse) := by
  induction hn : sizeAll l.pending generalizing l with
  | zero =>
    rcases turn_spec l with ⟨hpending, hturn⟩ | ⟨next, -, hsize, -⟩
    · rw [hpending, List.reverse_nil, leavesOf, List.append_nil]
      exact .stop hturn
    · omega
  | succ n ih =>
    rcases turn_spec l with ⟨hpending, -⟩ | ⟨next, hturn, hsize, hleaves⟩
    · rw [hpending] at hn
      cases hn
    · rw [hleaves]
      exact .turn hturn (ih next (by omega))

theorem Ends.unique {n m : Nat} {result result' : List τ} (h : Ends n l result)
    (h' : Ends m l result') : n = m ∧ result = result' := by
  induction h generalizing m with
  | stop h =>
    cases h' with
    | stop => exact ⟨rfl, rfl⟩
    | turn hturn => cases h.symm.trans hturn
  | turn h hnext ih =>
    cases h' with
    | stop hstop => cases hstop.symm.trans h
    | turn hturn hnext' =>
      cases h.symm.trans hturn
      obtain ⟨hn, hresult⟩ := ih hnext'
      exact ⟨congrArg (· + 1) hn, hresult⟩

end LeafLoop

/-- The tokens of a tree are those of the recursive definition, and the loop that starts with the
tree alone ends with them. Pending trees give theirs from the first to the last. The loop ends from
wherever it stands, and has appended the tokens of the pending trees from the top of the stack
down. -/
theorem leaf_loop_flattens :
    (∀ token : τ, (leaf token).flatten = [token]) ∧
    (∀ (symbol : Symbol) (children : List (Tree τ)),
      (node symbol children).flatten = children.flatMap flatten) ∧
    (∀ t : Tree τ, t.leaves = t.flatten ∧ LeafLoop.Ends t.size ⟨[], [t]⟩ t.leaves) ∧
    (∀ pending : List (Tree τ), leavesOf pending = pending.flatMap flatten) ∧
    ∀ (tokens : List τ) (pending : List (Tree τ)) (n : Nat) (result : List τ),
      LeafLoop.Ends n ⟨tokens, pending⟩ result ↔
        n = sizeAll pending ∧ result = tokens ++ pending.reverse.flatMap flatten := by
  refine ⟨fun token => by rw [flatten], flatten_node,
    fun t => ⟨leaves_eq_flatten t, LeafLoop.ends ⟨[], [t]⟩⟩, leavesOf_eq_flatMap_flatten,
    fun tokens pending n result => ?_⟩
  have hends := LeafLoop.ends ⟨tokens, pending⟩
  rw [leavesOf_eq_flatMap_flatten] at hends
  constructor
  · intro h
    exact h.unique hends
  · rintro ⟨rfl, rfl⟩
    exact hends

end ShiftReduce.Tree
