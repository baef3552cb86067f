import Mathlib
import ShiftReduce.Proofs.Text.Numerals
import ShiftReduce.Proofs.Tree.Parts
import ShiftReduce.Tree.Printer

/-!
# What a printed tree says

A tree is printed as an outline of its parts: each has a line, whose indentation is the length of
the path to the part (`Tree.printAt_eq_flatMap`).

Nothing but the indentation tells how the lines belong together, and it is enough. What is below a
node is what follows it and is indented deeper, so an outline can be taken apart in one way only
(`Tree.legible`). Tokens may imitate other lines, but between quotes they do not begin
with a blank, and so the text of a tree determines the tree (`Tree.print_quoted_injective`).
-/

namespace ShiftReduce

/-! ## Lines -/

namespace Bytes

/-- A text that is written line by line has these lines, if none of them has a line feed in it. -/
theorem splitOn_flatMap_line {lines : List Bytes} (h : ∀ text ∈ lines, lineFeed ∉ text) :
    (lines.flatMap line).splitOn lineFeed = lines ++ [[]] := by
  induction lines with
  | nil => rfl
  | cons text lines ih =>
    obtain ⟨htext, hlines⟩ := List.forall_mem_cons.1 h
    have hinside : ∀ b ∈ text, (b == lineFeed) = false := by
      intro b hb
      exact beq_false_of_ne fun heq => htext (heq ▸ hb)
    have hfirst : (text ++ lineFeed :: lines.flatMap line).splitOn lineFeed =
        text :: (lines.flatMap line).splitOn lineFeed :=
      List.splitOnP_append_cons_of_forall_mem hinside lineFeed (beq_self_eq_true lineFeed) _
    rw [List.flatMap_cons, line, List.append_assoc, List.singleton_append, hfirst, ih hlines,
      List.cons_append]

theorem not_mem_decimal {b : UInt8} (h : Ascii.isDigit b = false) (n : Nat) : b ∉ decimal n := by
  intro hmem
  rw [isDigit_of_mem_decimal n b hmem] at h
  cases h

end Bytes

namespace Symbol

theorem render_eq (a : Symbol) : a.render =
    0x23 :: (Bytes.decimal a.scope.toNat ++ 0x2E :: Bytes.decimal a.sequence.toNat) := by
  simp [render, Bytes.ofAscii]

theorem render_injective : Function.Injective render := by
  intro a b h
  rw [render_eq, render_eq, List.cons.injEq] at h
  obtain ⟨hscope, -, hsequence⟩ := (List.append_cons_inj_of_notMem (Bytes.not_mem_decimal rfl _)
    (Bytes.not_mem_decimal rfl _)).1 h.2
  have hscope : a.scope = b.scope := UInt64.toNat_inj.1 (Bytes.decimal_injective hscope)
  have hsequence : a.sequence = b.sequence := UInt64.toNat_inj.1 (Bytes.decimal_injective hsequence)
  cases a
  cases b
  cases hscope
  cases hsequence
  rfl

theorem lineFeed_not_mem_render (a : Symbol) : Bytes.lineFeed ∉ a.render := by
  have hnumeral (n : Nat) : Bytes.lineFeed ∉ Bytes.decimal n := Bytes.not_mem_decimal rfl n
  have hmarks : Bytes.lineFeed ≠ 0x23 ∧ Bytes.lineFeed ≠ 0x2E := by decide
  rw [render_eq]
  simp [hnumeral, hmarks]

end Symbol

namespace Tree

variable {τ : Type}

/-! ## Outlines -/

section Outline

variable (token : τ → Bytes) (name : Symbol → Bytes)

/-- What a tree has on its own line. -/
def caption : Tree τ → Bytes
  | leaf t => token t
  | node symbol _ => name symbol

/-- The captions of the parts of a tree, each with its depth, under a tree at the given level. -/
def outline (level : Nat) (t : Tree τ) : List (Nat × Bytes) :=
  t.parts.map fun part => (level + part.1.length, part.2.caption token name)

theorem map_partsFrom (level i : Nat) (ts : List (Tree τ)) :
    (partsFrom i ts).map (fun part => (level + part.1.length, part.2.caption token name)) =
      ts.flatMap (outline token name (level + 1)) := by
  induction ts generalizing i with
  | nil => rfl
  | cons t ts ih =>
    rw [partsFrom, List.map_append, List.map_map, ih, List.flatMap_cons, outline]
    simp only [Function.comp_def, List.length_cons, Nat.add_comm, Nat.add_left_comm]

theorem outline_leaf (level : Nat) (t : τ) :
    outline token name level (leaf t) = [(level, token t)] := rfl

theorem outline_node (level : Nat) (symbol : Symbol) (children : List (Tree τ)) :
    outline token name level (node symbol children) =
      (level, name symbol) :: children.flatMap (outline token name (level + 1)) := by
  rw [outline, parts, List.map_cons, map_partsFrom]
  rfl

theorem printAllAt_eq_flatMap (level : Nat) (ts : List (Tree τ)) :
    printAllAt token name level ts = ts.flatMap (printAt token name level) := by
  induction ts with
  | nil => rfl
  | cons t ts ih => rw [printAllAt, ih, List.flatMap_cons]

/-- A tree is printed as its outline. -/
theorem printAt_eq_flatMap (t : Tree τ) (level : Nat) : t.printAt token name level =
    (t.outline token name level).flatMap fun entry => indented entry.1 entry.2 := by
  induction t using induction generalizing level with
  | leaf t => simp [printAt, outline_leaf]
  | node symbol children ih =>
    rw [printAt, outline_node, List.flatMap_cons, printAllAt_eq_flatMap, List.flatMap_assoc]
    exact congrArg _ (List.flatMap_congr fun child hchild => ih child hchild (level + 1))

end Outline

/-! ## Taking an outline apart -/

section Injectivity

variable {token : τ → Bytes} {name : Symbol → Bytes} {level : Nat} {rest rest' : List (Nat × Bytes)}

/-- What follows begins above the level, if it is anything. -/
def Above (level : Nat) (rest : List (Nat × Bytes)) : Prop := ∀ entry ∈ rest.head?, entry.1 < level

theorem exists_outline_eq_cons (token : τ → Bytes) (name : Symbol → Bytes) (level : Nat)
    (t : Tree τ) :
    ∃ below, outline token name level t = (level, t.caption token name) :: below := by
  cases t with
  | leaf t => exact ⟨[], rfl⟩
  | node symbol children => exact ⟨_, outline_node token name level symbol children⟩

theorem Above.flatMap_outline (h : Above level rest) (ts : List (Tree τ)) :
    Above (level + 1) (ts.flatMap (outline token name level) ++ rest) := by
  cases ts with
  | nil =>
    intro entry hentry
    exact Nat.lt_succ_of_lt (h entry hentry)
  | cons t ts =>
    obtain ⟨below, hfirst⟩ := exists_outline_eq_cons token name level t
    rw [List.flatMap_cons, hfirst]
    rintro entry hentry
    cases hentry
    exact Nat.lt_succ_self level

theorem Above.ne_flatMap_outline (h : Above level rest) (t : Tree τ) (ts : List (Tree τ)) :
    rest ≠ (t :: ts).flatMap (outline token name level) ++ rest' := by
  rintro rfl
  obtain ⟨below, hfirst⟩ := exists_outline_eq_cons token name level t
  rw [List.flatMap_cons, hfirst] at h
  exact Nat.lt_irrefl level (h _ rfl)

/-- Followed by nothing that is indented deeper than the tree itself, the outline of the tree tells
which tree it is, and where it ends. -/
def Legible (token : τ → Bytes) (name : Symbol → Bytes) (t : Tree τ) : Prop :=
  ∀ (u : Tree τ) (level : Nat) (rest rest' : List (Nat × Bytes)),
    Above (level + 1) rest → Above (level + 1) rest' →
    outline token name level t ++ rest = outline token name level u ++ rest' → t = u ∧ rest = rest'

theorem flatMap_outline_inj {ts us : List (Tree τ)} (h : ∀ t ∈ ts, t.Legible token name)
    (hrest : Above level rest) (hrest' : Above level rest')
    (heq : ts.flatMap (outline token name level) ++ rest =
      us.flatMap (outline token name level) ++ rest') : ts = us ∧ rest = rest' := by
  induction ts generalizing us with
  | nil =>
    cases us with
    | nil => exact ⟨rfl, heq⟩
    | cons u us => exact absurd heq (hrest.ne_flatMap_outline u us)
  | cons t ts ih =>
    cases us with
    | nil => exact absurd heq.symm (hrest'.ne_flatMap_outline t ts)
    | cons u us =>
      obtain ⟨hfirst, hothers⟩ := List.forall_mem_cons.1 h
      rw [List.flatMap_cons, List.flatMap_cons, List.append_assoc, List.append_assoc] at heq
      obtain ⟨rfl, hbehind⟩ := hfirst u level _ _ (hrest.flatMap_outline ts)
        (hrest'.flatMap_outline us) heq
      obtain ⟨rfl, hsame⟩ := ih hothers hbehind
      exact ⟨rfl, hsame⟩

/-- If captions can be told apart, so can trees by their outlines. -/
theorem legible (htoken : Function.Injective token) (hname : Function.Injective name)
    (hne : ∀ t symbol, token t ≠ name symbol) (t : Tree τ) : t.Legible token name := by
  induction t using induction with
  | leaf t =>
    intro u level rest rest' hrest hrest' heq
    rw [outline_leaf] at heq
    cases u with
    | leaf u =>
      rw [outline_leaf, List.cons_append, List.cons_append, List.cons.injEq, Prod.mk.injEq] at heq
      obtain ⟨⟨-, hcaption⟩, hsame⟩ := heq
      exact ⟨congrArg leaf (htoken hcaption), hsame⟩
    | node symbol children =>
      rw [outline_node, List.cons_append, List.cons_append, List.cons.injEq, Prod.mk.injEq] at heq
      exact absurd heq.1.2 (hne t symbol)
  | node symbol children ih =>
    intro u level rest rest' hrest hrest' heq
    rw [outline_node] at heq
    cases u with
    | leaf u =>
      rw [outline_leaf, List.cons_append, List.cons_append, List.cons.injEq, Prod.mk.injEq] at heq
      exact absurd heq.1.2.symm (hne u symbol)
    | node symbol' children' =>
      rw [outline_node, List.cons_append, List.cons_append, List.cons.injEq, Prod.mk.injEq] at heq
      obtain ⟨⟨-, hcaption⟩, hbelow⟩ := heq
      obtain ⟨rfl, hsame⟩ := flatMap_outline_inj ih hrest hrest' hbelow
      rw [hname hcaption]
      exact ⟨rfl, hsame⟩

end Injectivity

/-! ## Tokens between quotes -/

/-- The depth and the caption that a line shows: half of its leading blanks, and what is behind
them. -/
def readLine (text : Bytes) : Nat × Bytes :=
  ((text.takeWhile (· == 0x20)).length / 2, text.dropWhile (· == 0x20))

theorem readLine_replicate {text : Bytes} (h : text.head? ≠ some 0x20) (level : Nat) :
    readLine (List.replicate (level * 2) 0x20 ++ text) = (level, text) := by
  have hblanks : ∀ b ∈ List.replicate (level * 2) (0x20 : UInt8), (b == 0x20) = true := by
    intro b hb
    rw [List.eq_of_mem_replicate hb]
    rfl
  have htext : text.takeWhile (· == 0x20) = [] ∧ text.dropWhile (· == 0x20) = text := by
    cases text with
    | nil => exact ⟨rfl, rfl⟩
    | cons b text =>
      have hb : (b == 0x20) = false := by simpa using h
      simp [hb]
  rw [readLine, List.takeWhile_append_of_pos hblanks, List.dropWhile_append_of_pos hblanks, htext.1,
    htext.2, List.append_nil, List.length_replicate, Nat.mul_div_cancel _ (Nat.zero_lt_two)]

/-- A token as it is printed between single quotes. -/
def quoted (token : Bytes) : Bytes := 0x27 :: (token ++ [0x27])

/-- No token has a line feed in it. -/
def OneLined (t : Tree Bytes) : Prop := ∀ token ∈ t.leaves, Bytes.lineFeed ∉ token

theorem quoted_injective : Function.Injective quoted := by
  intro a b h
  exact List.append_cancel_right (List.cons.inj h).2

theorem head?_caption_ne (t : Tree Bytes) : (t.caption quoted Symbol.render).head? ≠ some 0x20 := by
  cases t with
  | leaf token => simp [caption, quoted]
  | node symbol children => simp [caption, Symbol.render_eq]

theorem OneLined.lineFeed_not_mem_caption {t : Tree Bytes} (h : t.OneLined) {path : List Nat}
    {part : Tree Bytes} (hpart : (path, part) ∈ t.parts) :
    Bytes.lineFeed ∉ part.caption quoted Symbol.render := by
  cases part with
  | leaf token =>
    have htoken := h token (leaves_subset_of_mem_parts hpart (by simp))
    have hquote : Bytes.lineFeed ≠ 0x27 := by decide
    simp [caption, quoted, htoken, hquote]
  | node symbol children => exact symbol.lineFeed_not_mem_render

/-- The lines of a printed tree: one for each part, indented by two blanks for each step of its
path. -/
def lines (t : Tree Bytes) : List Bytes :=
  t.parts.map fun part =>
    List.replicate (part.1.length * 2) 0x20 ++ part.2.caption quoted Symbol.render

theorem OneLined.splitOn_print {t : Tree Bytes} (h : t.OneLined) :
    (t.print quoted).splitOn Bytes.lineFeed = t.lines ++ [[]] := by
  have hprint : t.print quoted = t.lines.flatMap Bytes.line := by
    rw [print, printAt_eq_flatMap, outline, lines, List.flatMap_map, List.flatMap_map]
    simp only [indented, Nat.zero_add]
  rw [hprint]
  refine Bytes.splitOn_flatMap_line fun text htext => ?_
  obtain ⟨⟨path, part⟩, hpart, rfl⟩ := List.mem_map.1 htext
  have hblank : Bytes.lineFeed ≠ 0x20 := by decide
  simp [h.lineFeed_not_mem_caption hpart, hblank]

theorem map_readLine_lines (t : Tree Bytes) :
    t.lines.map readLine = t.outline quoted Symbol.render 0 := by
  rw [lines, List.map_map, outline]
  refine List.map_congr_left fun part _ => ?_
  rw [Function.comp_apply, readLine_replicate (head?_caption_ne part.2), Nat.zero_add]

/-- A tree whose tokens have no line feed in them, printed with its tokens between quotes and its
symbols by number, has one line for each leaf and node. The lines stand in the order of the paths
that lead to these, parents before their children, and each is indented by two blanks for each step
of the path. Two such trees that have the same text are the same. -/
theorem print_quoted_injective {t : Tree Bytes} (h : t.OneLined) :
    (t.print quoted).splitOn Bytes.lineFeed = t.lines ++ [[]] ∧
      t.parts.length = t.leaves.length + t.countNodes ∧
      (t.parts.map Prod.fst).Pairwise (· < ·) ∧
      (∀ path part, (path, part) ∈ t.parts ↔ t.descend path = .ok part) ∧
      ∀ u : Tree Bytes, u.OneLined → t.print quoted = u.print quoted → t = u := by
  refine ⟨h.splitOn_print, t.length_parts, t.pairwise_parts, t.mem_parts_iff, ?_⟩
  intro u hu hprint
  have hlines : t.lines = u.lines := by
    have hpieces : t.lines ++ [[]] = u.lines ++ [[]] := by
      rw [← h.splitOn_print, ← hu.splitOn_print, hprint]
    exact List.append_cancel_right hpieces
  have houtline : t.outline quoted Symbol.render 0 = u.outline quoted Symbol.render 0 := by
    rw [← map_readLine_lines, ← map_readLine_lines, hlines]
  have hne (token : Bytes) (symbol : Symbol) : quoted token ≠ symbol.render := by
    simp [quoted, Symbol.render_eq]
  have hnothing : Above 1 [] := by simp [Above]
  exact (legible quoted_injective Symbol.render_injective hne t u 0 [] [] hnothing hnothing
    (by rw [houtline])).1

/-- A node without children and a leaf behind it, and the same leaf as a child of that node. Another
leaf looks like the node. -/
theorem print_quoted_injective_nested :
    let word : Tree Bytes := .leaf (.ofAscii "it's")
    let imitation : Tree Bytes := .leaf (.ofAscii "  #0.1")
    let t : Tree Bytes := .node ⟨0, 0⟩ [imitation, .node ⟨0, 1⟩ [], word]
    let u : Tree Bytes := .node ⟨0, 0⟩ [imitation, .node ⟨0, 1⟩ [word]]
    (t.OneLined ∧ u.OneLined) ∧
      (t.print quoted).splitOn Bytes.lineFeed = [Bytes.ofAscii "#0.0", Bytes.ofAscii "  '  #0.1'",
        Bytes.ofAscii "  #0.1", Bytes.ofAscii "  'it's'", []] ∧
      t.parts.length = t.leaves.length + t.countNodes ∧ t.print quoted ≠ u.print quoted := by
  intro word imitation t u
  have ht : t.OneLined := by
    simp only [OneLined, t, imitation, word, leaves_node, leaves_leaf, List.flatMap_cons,
      List.flatMap_nil]
    decide
  have hu : u.OneLined := by
    simp only [OneLined, u, imitation, word, leaves_node, leaves_leaf, List.flatMap_cons,
      List.flatMap_nil]
    decide
  have hne : t ≠ u := by simp [t, u]
  obtain ⟨hlines, hlength, -, -, hinjective⟩ := print_quoted_injective ht
  refine ⟨⟨ht, hu⟩, hlines.trans ?_, hlength, fun hprint => hne (hinjective u hu hprint)⟩
  cbv

end Tree

end ShiftReduce
