import ShiftReduce.Tree.Basic

/-!
# Printing trees

One line for every leaf and node, parents before their children and children in order, each line
indented by two blanks per level.
-/

namespace ShiftReduce.Tree

variable {τ : Type}

def indented (level : Nat) (text : Bytes) : Bytes :=
  Bytes.line (List.replicate (level * 2) 0x20 ++ text)

mutual

def printAt (token : τ → Bytes) (name : Symbol → Bytes) (level : Nat) : Tree τ → Bytes
  | leaf t => indented level (token t)
  | node symbol children =>
    indented level (name symbol) ++ printAllAt token name (level + 1) children

def printAllAt (token : τ → Bytes) (name : Symbol → Bytes) (level : Nat) : List (Tree τ) → Bytes
  | [] => []
  | t :: ts => t.printAt token name level ++ printAllAt token name level ts

end

/-- The text of a tree. Symbols that get no other name are written `#scope.sequence`. -/
def print (token : τ → Bytes) (t : Tree τ) (name : Symbol → Bytes := Symbol.render) : Bytes :=
  t.printAt token name 0

end ShiftReduce.Tree
