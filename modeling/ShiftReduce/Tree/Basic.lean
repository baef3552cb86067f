import ShiftReduce.Error
import ShiftReduce.Symbol.Basic

/-!
# Parse trees

A leaf holds a token; a node holds a symbol and its children in order, possibly none. `leaves` lists
the tokens of a tree from left to right. It works through a list of pending trees, so its depth does
not grow with the tree's; `flatten` is the recursive definition of the same list.
-/

namespace ShiftReduce

inductive Tree (τ : Type) where
  | leaf (token : τ)
  | node (symbol : Symbol) (children : List (Tree τ))

namespace Tree

variable {τ α : Type}

def isLeaf : Tree τ → Bool
  | leaf _ => true
  | node .. => false

def isNode (t : Tree τ) : Bool := !t.isLeaf

def token : Tree τ → Except Error τ
  | leaf token => .ok token
  | node .. => .error .badTreeAccess

def symbol : Tree τ → Except Error Symbol
  | leaf _ => .error .badTreeAccess
  | node symbol _ => .ok symbol

def children : Tree τ → Except Error (List (Tree τ))
  | leaf _ => .error .badTreeAccess
  | node _ children => .ok children

def arity : Tree τ → Nat
  | leaf _ => 0
  | node _ children => children.length

def child (t : Tree τ) (i : Nat) : Except Error (Tree τ) :=
  match t with
  | leaf _ => .error .badTreeAccess
  | node _ children =>
    match children[i]? with
    | some child => .ok child
    | none => .error .noSuchChild

/-- The tree at the end of a path of child indices. -/
def descend (t : Tree τ) : List Nat → Except Error (Tree τ)
  | [] => .ok t
  | i :: path =>
    match t.child i with
    | .ok child => child.descend path
    | .error error => .error error

mutual

/-- The number of nodes, leaves not counted. -/
def countNodes : Tree τ → Nat
  | leaf _ => 0
  | node _ children => 1 + countNodesAll children

def countNodesAll : List (Tree τ) → Nat
  | [] => 0
  | t :: ts => t.countNodes + countNodesAll ts

end

mutual

/-- The tokens of a tree from left to right, by recursion. -/
def flatten : Tree τ → List τ
  | leaf token => [token]
  | node _ children => flattenAll children

def flattenAll : List (Tree τ) → List τ
  | [] => []
  | t :: ts => t.flatten ++ flattenAll ts

end

mutual

def size : Tree τ → Nat
  | leaf _ => 1
  | node _ children => 1 + sizeAll children

def sizeAll : List (Tree τ) → Nat
  | [] => 0
  | t :: ts => t.size + sizeAll ts

end

theorem sizeAll_append (ts us : List (Tree τ)) : sizeAll (ts ++ us) = sizeAll ts + sizeAll us := by
  induction ts with
  | nil => simp [sizeAll]
  | cons t ts ih => simp only [List.cons_append, sizeAll, ih]; omega

/-- The tokens of pending trees, the first of them first. A node makes way for its children. -/
def leavesOf : List (Tree τ) → List τ
  | [] => []
  | leaf token :: pending => token :: leavesOf pending
  | node _ children :: pending => leavesOf (children ++ pending)
termination_by pending => sizeAll pending
decreasing_by
  · simp only [sizeAll, size]; omega
  · simp only [sizeAll, size, sizeAll_append]; omega

/-- The tokens of a tree from left to right. -/
def leaves (t : Tree τ) : List τ := leavesOf [t]

end Tree

end ShiftReduce
