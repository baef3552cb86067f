import Mathlib.Data.List.Basic
import ShiftReduce.Proofs.Tree.Leaves

/-!
# The parts of a tree

Every part of a tree has its own path from the root (`Tree.mem_parts_iff`). `Tree.parts` lists the
parts in the order of their paths, so that a node stands before its children and these stand from
left to right (`Tree.pairwise_parts`). There are as many parts as leaves and nodes
(`Tree.length_parts`).
-/

namespace ShiftReduce.Tree

variable {τ : Type}

mutual

/-- The parts of a tree, each with the path that leads to it: the tree itself, and then the parts of
its children in order. -/
def parts : Tree τ → List (List Nat × Tree τ)
  | leaf token => [([], leaf token)]
  | node symbol children => ([], node symbol children) :: partsFrom 0 children

/-- The parts of trees that are children from the index `i` on. -/
def partsFrom (i : Nat) : List (Tree τ) → List (List Nat × Tree τ)
  | [] => []
  | t :: ts => (t.parts.map fun part => (i :: part.1, part.2)) ++ partsFrom (i + 1) ts

end

theorem mem_partsFrom_iff {i : Nat} {ts : List (Tree τ)} {path : List Nat} {part : Tree τ} :
    (path, part) ∈ partsFrom i ts ↔
      ∃ j rest child, path = (i + j) :: rest ∧ ts[j]? = some child ∧
        (rest, part) ∈ child.parts := by
  induction ts generalizing i with
  | nil => simp [partsFrom]
  | cons t ts ih =>
    have hfirst : (path, part) ∈ (t.parts.map fun part => (i :: part.1, part.2)) ↔
        ∃ rest, path = i :: rest ∧ (rest, part) ∈ t.parts := by
      constructor
      · intro h
        obtain ⟨⟨rest, part⟩, hpart, heq⟩ := List.mem_map.1 h
        cases heq
        exact ⟨rest, rfl, hpart⟩
      · rintro ⟨rest, rfl, hpart⟩
        exact List.mem_map.2 ⟨(rest, part), hpart, rfl⟩
    rw [partsFrom, List.mem_append, hfirst, ih]
    constructor
    · rintro (⟨rest, rfl, hpart⟩ | ⟨j, rest, child, rfl, hchild, hpart⟩)
      · exact ⟨0, rest, t, rfl, rfl, hpart⟩
      · exact ⟨j + 1, rest, child, by rw [Nat.add_right_comm, Nat.add_assoc], hchild, hpart⟩
    · rintro ⟨j, rest, child, rfl, hchild, hpart⟩
      cases j with
      | zero =>
        cases hchild
        exact .inl ⟨rest, rfl, hpart⟩
      | succ j =>
        exact .inr ⟨j, rest, child, by rw [Nat.add_right_comm, Nat.add_assoc], hchild, hpart⟩

/-- The parts of a tree are what paths lead to. -/
theorem mem_parts_iff (t : Tree τ) (path : List Nat) (part : Tree τ) :
    (path, part) ∈ t.parts ↔ t.descend path = .ok part := by
  induction t using induction generalizing path with
  | leaf token => cases path <;> simp [parts, descend, child, eq_comm]
  | node symbol children ih =>
    cases path with
    | nil => simp [parts, descend, mem_partsFrom_iff, eq_comm]
    | cons i path =>
      have hnode : (i :: path, part) ∈ (node symbol children).parts ↔
          ∃ child, children[i]? = some child ∧ (path, part) ∈ child.parts := by
        simp [parts, mem_partsFrom_iff]
      rw [hnode, descend, child]
      cases hchild : children[i]? with
      | none => simp
      | some child => simpa using ih child (List.mem_of_getElem? hchild) path

theorem length_partsFrom {ts : List (Tree τ)}
    (h : ∀ t ∈ ts, t.parts.length = t.leaves.length + t.countNodes) (i : Nat) :
    (partsFrom i ts).length = (ts.flatMap leaves).length + countNodesAll ts := by
  induction ts generalizing i with
  | nil => rfl
  | cons t ts ih =>
    obtain ⟨hfirst, hothers⟩ := List.forall_mem_cons.1 h
    simp only [partsFrom, countNodesAll, List.flatMap_cons, List.length_append, List.length_map,
      hfirst, ih hothers]
    omega

theorem length_parts (t : Tree τ) : t.parts.length = t.leaves.length + t.countNodes := by
  induction t using induction with
  | leaf token => simp [parts, countNodes]
  | node symbol children ih =>
    simp only [parts, countNodes, leaves_node, List.length_cons, length_partsFrom ih]
    omega

theorem pairwise_partsFrom {ts : List (Tree τ)}
    (h : ∀ t ∈ ts, (t.parts.map Prod.fst).Pairwise (· < ·)) (i : Nat) :
    ((partsFrom i ts).map Prod.fst).Pairwise (· < ·) := by
  induction ts generalizing i with
  | nil => exact .nil
  | cons t ts ih =>
    obtain ⟨hfirst, hothers⟩ := List.forall_mem_cons.1 h
    have hpaths : (t.parts.map fun part => (i :: part.1, part.2)).map Prod.fst =
        (t.parts.map Prod.fst).map (i :: ·) := by simp
    rw [partsFrom, List.map_append, hpaths, List.pairwise_append]
    refine ⟨?_, ih hothers (i + 1), ?_⟩
    · refine hfirst.map _ fun path path' hlt => ?_
      exact List.cons_lt_cons_iff.2 (.inr ⟨rfl, hlt⟩)
    · intro path hpath path' hpath'
      obtain ⟨rest, -, rfl⟩ := List.mem_map.1 hpath
      obtain ⟨⟨_, part⟩, hpart, rfl⟩ := List.mem_map.1 hpath'
      obtain ⟨j, rest', child, rfl, -, -⟩ := mem_partsFrom_iff.1 hpart
      exact List.cons_lt_cons_iff.2 (.inl (by omega))

/-- The parts are listed in the order of their paths. -/
theorem pairwise_parts (t : Tree τ) : (t.parts.map Prod.fst).Pairwise (· < ·) := by
  induction t using induction with
  | leaf token => exact List.pairwise_singleton ..
  | node symbol children ih =>
    rw [parts, List.map_cons, List.pairwise_cons]
    refine ⟨?_, pairwise_partsFrom ih 0⟩
    intro path hpath
    obtain ⟨⟨_, part⟩, hpart, rfl⟩ := List.mem_map.1 hpath
    obtain ⟨j, rest, child, rfl, -, -⟩ := mem_partsFrom_iff.1 hpart
    exact List.nil_lt_cons ..

theorem leaves_subset_of_mem_parts {t part : Tree τ} {path : List Nat}
    (h : (path, part) ∈ t.parts) : part.leaves ⊆ t.leaves := by
  induction t using induction generalizing path with
  | leaf token =>
    obtain ⟨-, rfl⟩ := Prod.mk.inj (List.mem_singleton.1 h)
    exact List.Subset.refl _
  | node symbol children ih =>
    rcases List.mem_cons.1 h with h | h
    · obtain ⟨-, rfl⟩ := Prod.mk.inj h
      exact List.Subset.refl _
    · obtain ⟨j, rest, child, -, hchild, hpart⟩ := mem_partsFrom_iff.1 h
      have hmem := List.mem_of_getElem? hchild
      rw [leaves_node]
      exact fun token htoken => List.mem_flatMap.2 ⟨child, hmem, ih child hmem hpart htoken⟩

end ShiftReduce.Tree
