import Mathlib.Data.Nat.ModEq
import Mathlib.Order.Bounds.Basic
import ShiftReduce.Lexer.Stream
import ShiftReduce.Proofs.Lexer.Builder
import ShiftReduce.Proofs.Source.Columns

/-!
# Where a tab leads

A tab stop is a column that is one more than a multiple of the alignment. As long as the tab's width
behind a column fits in a word, the column after a tab is the last tab stop within the width, or the
column itself if there is none behind it (`TabStops.advance_reaches`).

The alignment that columns are counted with is the one given last, on the builder or on the lexer,
with zero taken as one (`Lexer.Configured.tabs_eq`). So no remainder is taken by zero, however a lexer
was configured, and its tabs lead to tab stops (`Lexer.tabs_reach_stops`).
-/

namespace ShiftReduce

/-! ## One tab -/

namespace TabStops

/-- How a tab leads from a column to the next one: not back, by the width at most, and if at all then
to a tab stop. If the width is not less than the alignment there is a tab stop within it, and the last
one is taken; if it is the alignment then this is the next one. -/
structure Reaches (tabs : TabStops) (column next : Nat) : Prop where
  le : column ≤ next
  le_add_width : next ≤ column + tabs.width.toNat
  stays_or_stops : next = column ∨ next ≡ 1 [MOD tabs.alignment.toNat]
  isGreatest : tabs.alignment.toNat ≤ tabs.width.toNat → column < next ∧
    IsGreatest {k | k ≤ column + tabs.width.toNat ∧ k ≡ 1 [MOD tabs.alignment.toNat]} next
  isLeast : tabs.width = tabs.alignment →
    IsLeast {k | column < k ∧ k ≡ 1 [MOD tabs.alignment.toNat]} next

theorem alignment_pos (tabs : TabStops) : 0 < tabs.alignment.toNat := by
  refine Nat.pos_of_ne_zero fun h => tabs.alignment_ne_zero ?_
  rw [← UInt32.toNat_inj, h, UInt32.toNat_zero]

/-- The last tab stop up to `far`. -/
theorem exists_stop {a far stop back : Nat} (ha : 0 < a) (hfar : 0 < far)
    (hback : back = (far - 1) % a) (hstop : stop + back = far) :
    stop ≡ 1 [MOD a] ∧ stop ≤ far ∧ far < stop + a := by
  have hlt := Nat.mod_lt (far - 1) ha
  have hsplit := Nat.div_add_mod (far - 1) a
  refine ⟨?_, by omega, by omega⟩
  have heq : stop = a * ((far - 1) / a) + 1 := by omega
  rw [heq]
  exact Nat.ModEq.modulus_mul_add

/-- A tab stop that is before `far` by less than the alignment is the last one up to there. -/
theorem isGreatest_stop {a far stop : Nat} (hstop : stop ≡ 1 [MOD a]) (hle : stop ≤ far)
    (hlt : far < stop + a) : IsGreatest {k | k ≤ far ∧ k ≡ 1 [MOD a]} stop := by
  refine ⟨⟨hle, hstop⟩, fun k ⟨hk, hkstop⟩ => ?_⟩
  by_contra hnot
  have := (hstop.trans hkstop.symm).add_le_of_lt (Nat.lt_of_not_le hnot)
  omega

/-- A tab stop that is behind a column by the alignment at most is the next one. -/
theorem isLeast_stop {a column stop : Nat} (hstop : stop ≡ 1 [MOD a]) (hlt : column < stop)
    (hle : stop ≤ column + a) : IsLeast {k | column < k ∧ k ≡ 1 [MOD a]} stop := by
  refine ⟨⟨hlt, hstop⟩, fun k ⟨hk, hkstop⟩ => ?_⟩
  by_contra hnot
  have := (hkstop.trans hstop.symm).add_le_of_lt (Nat.lt_of_not_le hnot)
  omega

theorem advance_reaches (tabs : TabStops) {column : UInt64} (hpos : 1 ≤ column.toNat)
    (h : column.toNat + tabs.width.toNat < 2 ^ 64) :
    tabs.Reaches column.toNat (tabs.advance column).toNat := by
  obtain ⟨hfar, hless, hsplit⟩ := tabs.toNat_advance hpos h
  have hback : ((column + tabs.width.toUInt64 - 1) % tabs.alignment.toUInt64).toNat =
      (column.toNat + tabs.width.toNat - 1) % tabs.alignment.toNat := by
    rw [UInt64.toNat_mod, UInt32.toNat_toUInt64]
    congr 1
    omega
  rw [hfar] at hsplit
  obtain ⟨hstop, hle, hlt⟩ := exists_stop tabs.alignment_pos (by omega) hback hsplit
  have hnext : (tabs.advance column).toNat =
      max (column + tabs.width.toUInt64 -
        (column + tabs.width.toUInt64 - 1) % tabs.alignment.toUInt64).toNat column.toNat := by
    unfold advance
    rw [toNat_max, toNat_min, hfar, Nat.min_eq_right hle]
  generalize (column + tabs.width.toUInt64 -
    (column + tabs.width.toUInt64 - 1) % tabs.alignment.toUInt64).toNat = stop at *
  rw [hnext]
  -- with room for a tab stop the last one is behind the column
  have hbehind (hroom : tabs.alignment.toNat ≤ tabs.width.toNat) :
      column.toNat < stop ∧ max stop column.toNat = stop := by omega
  refine ⟨Nat.le_max_right .., by omega, ?_, fun hroom => ?_, fun hsame => ?_⟩
  · rcases Nat.le_total column.toNat stop with hcase | hcase
    · rw [Nat.max_eq_left hcase]
      exact .inr hstop
    · exact .inl (Nat.max_eq_right hcase)
  · obtain ⟨hcolumn, hmax⟩ := hbehind hroom
    rw [hmax]
    exact ⟨hcolumn, isGreatest_stop hstop hle hlt⟩
  · rw [hsame] at hbehind hle
    obtain ⟨hcolumn, hmax⟩ := hbehind (Nat.le_refl _)
    rw [hmax]
    exact isLeast_stop hstop hcolumn hle

end TabStops

/-! ## Two positions -/

/-- A tab that is decoded as one stays on its line, and moves the column on. -/
theorem Position.of_tab (tabs : TabStops) {text : Bytes} {index : Nat}
    (htab : text[index]? = some 0x09)
    (hrune : Utf8.runes (Bytes.lastLine (text.take index) ++ [0x09]) =
      Utf8.runes (Bytes.lastLine (text.take index)) ++ ['\t']) :
    Position.of tabs text (index + 1) = {
      line := (Position.of tabs text index).line
      column := LineCursor.columnAfter tabs (Position.of tabs text index).column '\t' } := by
  have hlt : index < text.length := (List.getElem?_eq_some_iff.1 htab).1
  have hbefore : text.take (index + 1) = text.take index ++ [0x09] := by
    rw [List.take_add_one, htab]
    rfl
  have hnone : ¬((0x09 : UInt8) = 0x0D ∨
      (0x09 : UInt8) = 0x0A ∧ (text.take index).getLastD 0 ≠ 0x0D) := by
    rintro (h | ⟨h, -⟩) <;> cases h
  have hends : Bytes.endsLine 0x09 = false := rfl
  simp only [Position.of, Nat.min_eq_left hlt, Nat.min_eq_left (Nat.le_of_lt hlt), hbefore,
    Bytes.lineBreaks_concat, if_neg hnone, Nat.add_zero, Bytes.lastLine_concat, hends,
    Bool.false_eq_true, if_false, LineCursor.column, hrune, List.foldl_concat]

/-! ## Configuration -/

/-- A tab setting as it is given, to a builder or to a lexer. -/
inductive TabSetting where
  | width (value : UInt32)
  | alignment (value : UInt32)
deriving DecidableEq, Repr

namespace TabSetting

def width? : TabSetting → Option UInt32
  | width value => some value
  | alignment _ => none

def alignment? : TabSetting → Option UInt32
  | width _ => none
  | alignment value => some value

/-- The width that was given last; eight if none was. -/
def lastWidth (given : List TabSetting) : UInt32 := (given.filterMap width?).getLastD 8

/-- The alignment that was given last; eight if none was. -/
def lastAlignment (given : List TabSetting) : UInt32 := (given.filterMap alignment?).getLastD 8

@[simp] theorem lastWidth_concat_width (given : List TabSetting) (value : UInt32) :
    lastWidth (given ++ [width value]) = value := by
  simp [lastWidth, width?]

@[simp] theorem lastWidth_concat_alignment (given : List TabSetting) (value : UInt32) :
    lastWidth (given ++ [alignment value]) = lastWidth given := by
  simp [lastWidth, width?]

@[simp] theorem lastAlignment_concat_width (given : List TabSetting) (value : UInt32) :
    lastAlignment (given ++ [width value]) = lastAlignment given := by
  simp [lastAlignment, alignment?]

@[simp] theorem lastAlignment_concat_alignment (given : List TabSetting) (value : UInt32) :
    lastAlignment (given ++ [alignment value]) = value := by
  simp [lastAlignment, alignment?]

end TabSetting

variable {m : Type → Type} {τ : Type}

/-- A builder keeps a setting as it is given. -/
def LexerBuilder.set (builder : LexerBuilder m τ) : TabSetting → LexerBuilder m τ
  | .width tabWidth => { builder with tabWidth }
  | .alignment tabAlignment => { builder with tabAlignment }

/-- A lexer takes an alignment of zero as one. -/
def Lexer.set (lexer : Lexer m τ) : TabSetting → Lexer m τ
  | .width value => { lexer with tabs := lexer.tabs.withWidth value }
  | .alignment value => { lexer with tabs := lexer.tabs.withAlignment value }

/-- The builders that calls lead to, with the tab settings that they were given. Recognizers may be
missing, and a builder is used again after it has built a lexer. -/
inductive LexerBuilder.Configured : LexerBuilder m τ → List TabSetting → Prop
  | fresh : Configured {} []
  | addAll {builder : LexerBuilder m τ} {given : List TabSetting} (h : Configured builder given)
      (recognizers : List (Option (Recognizer m τ))) :
      Configured ((LexerBuilder.addAll recognizers).run builder).2 given
  | set {builder : LexerBuilder m τ} {given : List TabSetting} (h : Configured builder given)
      (setting : TabSetting) : Configured (builder.set setting) (given ++ [setting])
  | build {builder : LexerBuilder m τ} {given : List TabSetting} (h : Configured builder given) :
      Configured builder.build.2 given

/-- The lexers that calls lead to, with the tab settings given to the builder before and to the lexer
itself. -/
inductive Lexer.Configured : Lexer m τ → List TabSetting → Prop
  | fresh : Configured {} []
  | build {builder : LexerBuilder m τ} {given : List TabSetting}
      (h : builder.Configured given) : Configured builder.build.1 given
  | set {lexer : Lexer m τ} {given : List TabSetting} (h : Configured lexer given)
      (setting : TabSetting) : Configured (lexer.set setting) (given ++ [setting])

/-- Adding recognizers leaves the settings of a builder alone, also when one of them is missing. -/
theorem LexerBuilder.tabs_addAll (recognizers : List (Option (Recognizer m τ)))
    (builder : LexerBuilder m τ) :
    ((addAll recognizers).run builder).2.tabWidth = builder.tabWidth ∧
      ((addAll recognizers).run builder).2.tabAlignment = builder.tabAlignment := by
  rcases exists_leading recognizers with ⟨all, rfl⟩ | ⟨leading, others, rfl⟩
  · rw [run_addAll_all]
    exact ⟨rfl, rfl⟩
  · rw [run_addAll_missing]
    exact ⟨rfl, rfl⟩

theorem LexerBuilder.Configured.tabs_eq {builder : LexerBuilder m τ} {given : List TabSetting}
    (h : builder.Configured given) :
    builder.tabWidth = TabSetting.lastWidth given ∧
      builder.tabAlignment = TabSetting.lastAlignment given := by
  induction h with
  | fresh => exact ⟨rfl, rfl⟩
  | addAll _ recognizers ih =>
    obtain ⟨hwidth, halignment⟩ := LexerBuilder.tabs_addAll recognizers _
    exact ⟨hwidth.trans ih.1, halignment.trans ih.2⟩
  | set _ setting ih => cases setting <;> simp [LexerBuilder.set, ih]
  | build _ ih => exact ih

theorem TabStops.alignment_withAlignment (tabs : TabStops) (value : UInt32) :
    (tabs.withAlignment value).alignment = if value = 0 then 1 else value := by
  unfold withAlignment
  split <;> rfl

theorem TabStops.width_withAlignment (tabs : TabStops) (value : UInt32) :
    (tabs.withAlignment value).width = tabs.width := by
  unfold withAlignment
  split <;> rfl

/-- What was given last counts, with zero as an alignment of one. -/
theorem Lexer.Configured.tabs_eq {lexer : Lexer m τ} {given : List TabSetting}
    (h : lexer.Configured given) :
    lexer.tabs.width = TabSetting.lastWidth given ∧
      lexer.tabs.alignment =
        if TabSetting.lastAlignment given = 0 then 1 else TabSetting.lastAlignment given := by
  induction h with
  | fresh => exact ⟨rfl, rfl⟩
  | build hbuilder =>
    obtain ⟨hwidth, halignment⟩ := hbuilder.tabs_eq
    unfold LexerBuilder.build
    rw [TabStops.width_withAlignment, TabStops.alignment_withAlignment, ← hwidth, ← halignment]
    exact ⟨rfl, rfl⟩
  | set _ setting ih =>
    cases setting with
    | width value => simpa [Lexer.set, TabStops.withWidth] using ih.2
    | alignment value =>
      simpa [Lexer.set, TabStops.width_withAlignment, TabStops.alignment_withAlignment] using ih.1

/-- However a lexer was configured, the remainder that columns are computed with is not taken by zero,
and from any column a tab leads to a tab stop of the settings that were given last. So do the
positions before a tab of a text and behind it, if the tab is decoded as one. -/
theorem Lexer.tabs_reach_stops {lexer : Lexer m τ} {given : List TabSetting}
    (h : lexer.Configured given) :
    (lexer.tabs.width = TabSetting.lastWidth given ∧
      lexer.tabs.alignment =
        if TabSetting.lastAlignment given = 0 then 1 else TabSetting.lastAlignment given) ∧
    lexer.tabs.alignment.toUInt64 ≠ 0 ∧
    (∀ column : UInt64, 1 ≤ column.toNat → column.toNat + lexer.tabs.width.toNat < 2 ^ 64 →
      lexer.tabs.Reaches column.toNat (LineCursor.columnAfter lexer.tabs column '\t').toNat) ∧
    ∀ text index, text[index]? = some 0x09 →
      Utf8.runes (Bytes.lastLine (text.take index) ++ [0x09]) =
        Utf8.runes (Bytes.lastLine (text.take index)) ++ ['\t'] →
      let before := ((Stream.ofText text).positionAt lexer.tabs index).1
      let after := ((Stream.ofText text).positionAt lexer.tabs (index + 1)).1
      1 ≤ before.column.toNat → before.column.toNat + lexer.tabs.width.toNat < 2 ^ 64 →
      after.line = before.line ∧ lexer.tabs.Reaches before.column.toNat after.column.toNat := by
  have hposition (text : Bytes) (index : Nat) :
      ((Stream.ofText text).positionAt lexer.tabs index).1 = .of lexer.tabs text index :=
    congrArg Prod.fst (LineCursor.positionAt_ofPrefix lexer.tabs text 0 index)
  refine ⟨h.tabs_eq, ?_, fun column => lexer.tabs.advance_reaches, ?_⟩
  · intro hzero
    have hpos := lexer.tabs.alignment_pos
    rw [← UInt32.toNat_toUInt64, hzero, UInt64.toNat_zero] at hpos
    exact Nat.lt_irrefl 0 hpos
  · intro text index htab hrune before after hpos hroom
    have hbefore : before = .of lexer.tabs text index := hposition text index
    have hafter : after = .of lexer.tabs text (index + 1) := hposition text (index + 1)
    rw [hafter, Position.of_tab lexer.tabs htab hrune, ← hbefore]
    exact ⟨rfl, lexer.tabs.advance_reaches hpos hroom⟩

/-- The zero that the builder was given is one on the lexer it builds, until the lexer is given
another alignment; then a tab behind two letters leads to column nine, three columns before the end
of its width. -/
theorem Lexer.tabs_reach_stops_reset :
    let builder : LexerBuilder Id Unit := ({} : LexerBuilder Id Unit).set (.alignment 0)
    let lexer := (builder.build.1.set (.alignment 4)).set (.width 9)
    let text := Bytes.ofAscii "ab\tc"
    let before := ((Stream.ofText text).positionAt lexer.tabs 2).1
    let after := ((Stream.ofText text).positionAt lexer.tabs 3).1
    lexer.Configured [.alignment 0, .alignment 4, .width 9] ∧
      builder.build.1.tabs.alignment = 1 ∧ lexer.tabs.alignment = 4 ∧
      lexer.tabs.alignment.toUInt64 ≠ 0 ∧ lexer.tabs.Reaches 3 9 ∧ before.column = 3 ∧
      after.line = before.line ∧ lexer.tabs.Reaches before.column.toNat after.column.toNat := by
  intro builder lexer text before after
  have hnine : (LineCursor.columnAfter lexer.tabs 3 '\t').toNat = 9 := by decide +kernel +revert
  have hconfigured : lexer.Configured [.alignment 0, .alignment 4, .width 9] :=
    .set (.set (.build (.set .fresh (.alignment 0))) (.alignment 4)) (.width 9)
  have hrunes : Utf8.runes (Bytes.lastLine (text.take 2)) = ['a', 'b'] :=
    Utf8.runes_encode ['a', 'b']
  have htab : Utf8.runes (Bytes.lastLine (text.take 2) ++ [0x09]) = ['a', 'b', '\t'] :=
    Utf8.runes_encode ['a', 'b', '\t']
  have hthree : before.column = 3 := by
    have hcolumn : before.column = LineCursor.column lexer.tabs (Bytes.lastLine (text.take 2)) := rfl
    rw [hcolumn, LineCursor.column, hrunes]
    rfl
  obtain ⟨⟨-, halignment⟩, hmodulus, hcolumns, hpositions⟩ := Lexer.tabs_reach_stops hconfigured
  have hreaches := hcolumns 3 (by decide) (by decide)
  rw [hnine] at hreaches
  obtain ⟨hline, hplaces⟩ := hpositions text 2 rfl (htab.trans (congrArg (· ++ ['\t']) hrunes.symm))
    (by rw [hthree]; decide) (by rw [hthree]; decide)
  exact ⟨hconfigured, rfl, halignment, hmodulus, hreaches, hthree, hline, hplaces⟩

end ShiftReduce
