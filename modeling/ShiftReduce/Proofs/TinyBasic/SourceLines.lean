import ShiftReduce.Proofs.Source.Lines
import ShiftReduce.Proofs.TinyBasic.LineGroups
import ShiftReduce.Proofs.TinyBasic.Reading
import ShiftReduce.TinyBasic.CommandLine

/-!
# Line numbers of a program

The command line numbers the entries of a program, and an entry ends with a newline token. A newline
token is a line feed with an even number of quotes before it (`feedsOutside`), since the lexer reads
strings as a whole and skips neither a quote nor a line feed (`feedsOutside_take`). Positions count
line breaks: every line feed, with the carriage return before it if there is one, and every other
carriage return (`Bytes.lineBreaks_cons`).

So the number of an entry is never greater than the number of the source line that it begins on. The
two are the same exactly if every line break up to there is a line feed outside of strings, perhaps
with a carriage return (`CommandLine.entry_number_iff`).
-/

namespace ShiftReduce

open TinyBasic

/-! ## Line breaks -/

namespace Bytes

/-- A carriage return is a line break unless a line feed follows, and a line feed always is one. -/
theorem lineBreaks_cons (b : UInt8) (rest : Bytes) :
    lineBreaks (b :: rest) = (if b = 0x0D ∧ rest.head? ≠ some lineFeed then 1 else 0) +
      (if b = lineFeed then 1 else 0) + lineBreaks rest := by
  induction rest using List.reverseRecOn with
  | nil =>
    have hone : lineBreaks [b] =
        0 + if b = 0x0D ∨ b = lineFeed ∧ (0 : UInt8) ≠ 0x0D then 1 else 0 :=
      lineBreaks_concat [] b
    rw [hone]
    by_cases hreturn : b = 0x0D
    · subst hreturn
      rfl
    · simp [hreturn, lineBreaks]
  | append_singleton rest c ih =>
    have hlast : lineBreaks (b :: (rest ++ [c])) = lineBreaks (b :: rest) +
        if c = 0x0D ∨ c = lineFeed ∧ rest.getLastD b ≠ 0x0D then 1 else 0 := by
      rw [← List.cons_append, lineBreaks_concat, List.getLastD_cons]
      rfl
    have hrest : lineBreaks (rest ++ [c]) = lineBreaks rest +
        if c = 0x0D ∨ c = lineFeed ∧ rest.getLastD 0 ≠ 0x0D then 1 else 0 :=
      lineBreaks_concat rest c
    rw [hlast, ih, hrest]
    cases rest with
    | nil =>
      -- only here the first byte is the one before the last
      by_cases hreturn : b = 0x0D
      · by_cases hfeed : c = lineFeed
        · rw [hreturn, hfeed]
          rfl
        · simp [hreturn, hfeed, lineBreaks]
      · simp [hreturn, lineBreaks]
    | cons d rest =>
      have hhead : (d :: rest ++ [c]).head? = (d :: rest).head? := rfl
      rw [hhead, List.getLastD_cons, List.getLastD_cons]
      omega

end Bytes

namespace TinyBasic

open Bytes

/-- How many line feeds of the bytes have an even number of quotes before them, if `quotes` quotes
are before the bytes. -/
def feedsOutside (quotes : Nat) : Bytes → Nat
  | [] => 0
  | b :: rest =>
    (if b = lineFeed ∧ quotes % 2 = 0 then 1 else 0) +
      feedsOutside (quotes + if b = quote then 1 else 0) rest

/-- The line breaks of the bytes are line feeds outside of strings, each with a carriage return
right before it or without; `quotes` quotes are before the bytes. -/
structure PlainBreaks (quotes : Nat) (bytes : Bytes) : Prop where
  outside : ∀ i : Nat, bytes[i]? = some lineFeed → (quotes + (bytes.take i).count quote) % 2 = 0
  paired : ∀ i : Nat, bytes[i]? = some 0x0D → bytes[i + 1]? = some lineFeed

theorem count_quote_cons (quotes : Nat) (b : UInt8) (rest : Bytes) :
    quotes + (b :: rest).count quote =
      quotes + (if b = quote then 1 else 0) + rest.count quote := by
  rw [List.count_cons, Nat.add_assoc, Nat.add_comm (List.count _ _)]
  simp only [beq_iff_eq]

theorem plainBreaks_cons_iff {quotes : Nat} {b : UInt8} {rest : Bytes} :
    PlainBreaks quotes (b :: rest) ↔ (b = lineFeed → quotes % 2 = 0) ∧
      (b = 0x0D → rest.head? = some lineFeed) ∧
      PlainBreaks (quotes + if b = quote then 1 else 0) rest := by
  have hcount (i : Nat) := count_quote_cons quotes b (rest.take i)
  constructor
  · rintro ⟨houtside, hpaired⟩
    refine ⟨fun hb => houtside 0 (congrArg some hb), fun hb => ?_, fun i hi => ?_, fun i hi => ?_⟩
    · rw [List.head?_eq_getElem?]
      exact hpaired 0 (congrArg some hb)
    · rw [← hcount]
      exact houtside (i + 1) hi
    · exact hpaired (i + 1) hi
  · rintro ⟨hfeed, hreturn, houtside, hpaired⟩
    constructor
    · rintro (_ | i) hi
      · exact hfeed (Option.some.inj hi)
      · rw [List.take_succ_cons, hcount]
        exact houtside i hi
    · rintro (_ | i) hi
      · have hhead := hreturn (Option.some.inj hi)
        rwa [List.head?_eq_getElem?] at hhead
      · exact hpaired i hi

/-- No more line feeds are outside of strings than there are line breaks. -/
theorem feedsOutside_iff (quotes : Nat) (bytes : Bytes) :
    feedsOutside quotes bytes ≤ lineBreaks bytes ∧
      (feedsOutside quotes bytes = lineBreaks bytes ↔ PlainBreaks quotes bytes) := by
  induction bytes generalizing quotes with
  | nil => exact ⟨Nat.le_refl _, iff_of_true rfl ⟨nofun, nofun⟩⟩
  | cons b rest ih =>
    obtain ⟨hle, hiff⟩ := ih (quotes + if b = quote then 1 else 0)
    rw [plainBreaks_cons_iff, feedsOutside, lineBreaks_cons, ← hiff]
    clear ih hiff
    generalize feedsOutside (quotes + if b = quote then 1 else 0) rest = outside at hle ⊢
    have hne : (0x0D : UInt8) ≠ lineFeed := by decide
    by_cases hreturn : b = 0x0D
    · by_cases hpair : rest.head? = some lineFeed
      · simp [hreturn, hpair, hne, hle]
      · have hlt : outside < 1 + lineBreaks rest := by omega
        simp [hreturn, hpair, hne, hlt.le, hlt.ne]
    · by_cases hfeed : b = lineFeed
      · by_cases heven : quotes % 2 = 0
        · simp [hfeed, heven, hne.symm, hle]
        · have hlt : outside < 1 + lineBreaks rest := by omega
          simp [hfeed, heven, hne.symm, hlt.le, hlt.ne]
      · simp [hreturn, hfeed, hle]

theorem feedsOutside_append (quotes : Nat) (before after : Bytes) :
    feedsOutside quotes (before ++ after) =
      feedsOutside quotes before + feedsOutside (quotes + before.count quote) after := by
  induction before generalizing quotes with
  | nil => simp [feedsOutside]
  | cons b before ih =>
    rw [List.cons_append, feedsOutside, ih, feedsOutside, count_quote_cons, ← Nat.add_assoc]

theorem feedsOutside_of_not_mem {bytes : Bytes} (h : lineFeed ∉ bytes) (quotes : Nat) :
    feedsOutside quotes bytes = 0 := by
  induction bytes generalizing quotes with
  | nil => rfl
  | cons b rest ih =>
    obtain ⟨hb, hrest⟩ := List.ne_and_not_mem_of_not_mem_cons h
    rw [feedsOutside, if_neg (fun hfeed => hb hfeed.1.symm), ih hrest]

/-- Inside of a string no line feed counts. -/
theorem feedsOutside_of_odd {bytes : Bytes} (h : quote ∉ bytes) {quotes : Nat}
    (hodd : quotes % 2 = 1) : feedsOutside quotes bytes = 0 := by
  induction bytes with
  | nil => rfl
  | cons b rest ih =>
    obtain ⟨hb, hrest⟩ := List.ne_and_not_mem_of_not_mem_cons h
    rw [feedsOutside, if_neg (fun hfeed => by omega), if_neg hb.symm, Nat.add_zero, ih hrest]

/-! ## Tokens -/

theorem ne_lineFeed_of_isAlnum {b : UInt8} (h : Ascii.isAlnum b = true) : b ≠ lineFeed := by
  rintro rfl
  cases h

/-- Of the bytes of tokens only those of a newline have a line feed outside of strings. -/
theorem Token.ReadFrom.feedsOutside {token : Token} {bytes rest : Bytes}
    (h : token.ReadFrom bytes rest) {quotes : Nat} (heven : quotes % 2 = 0) :
    TinyBasic.feedsOutside quotes bytes = [token].count .newline := by
  -- most bytes are no line feeds
  have hplain : token ≠ .newline → (∀ b ∈ bytes, b ≠ lineFeed) →
      TinyBasic.feedsOutside quotes bytes = [token].count .newline := by
    intro htoken hbytes
    rw [feedsOutside_of_not_mem fun hmem => hbytes _ hmem rfl, List.count_singleton,
      if_neg (by simpa using htoken)]
  cases h with
  | string hquote =>
    have hodd : (quotes + 1) % 2 = 1 := by omega
    have hclosing : quote ≠ lineFeed := by decide
    rw [TinyBasic.feedsOutside, if_neg (fun hfeed => hclosing hfeed.1), if_pos rfl,
      feedsOutside_append, feedsOutside_of_odd hquote hodd,
      feedsOutside_of_not_mem (by simpa using hclosing.symm)]
    rfl
  | keyword hrun hstop hfold =>
    exact hplain nofun fun b hmem => ne_lineFeed_of_isAlnum (isAlnum_of_isAlpha (hrun b hmem))
  | mark mark =>
    refine hplain nofun (List.forall_mem_singleton.2 ?_)
    cases mark <;> decide
  | number hne hdigits hstop hle =>
    exact hplain nofun fun b hmem => ne_lineFeed_of_isAlnum (isAlnum_of_isDigit (hdigits b hmem))
  | letter hletter hnone =>
    exact hplain nofun
      (List.forall_mem_singleton.2 (ne_lineFeed_of_isAlnum (isAlnum_of_isAlpha hletter)))
  | newline => rw [TinyBasic.feedsOutside, if_pos ⟨rfl, heven⟩, TinyBasic.feedsOutside]; rfl

section Steps

variable {text : Bytes} {start : Nat}

/-- Between two offsets that a lexing gets to there are as many line feeds outside of strings as it
takes newlines. -/
theorem feedsOutside_take {final : Nat} {tokens : List (Token × Range)}
    (h : Lexing.From.Steps lexer text final start tokens)
    (heven : (text.take start).count quote % 2 = 0) {before after : List (Token × Range)}
    {entry : Token × Range} (htokens : tokens = before ++ entry :: after) :
    feedsOutside 0 (text.take entry.2.index) =
      feedsOutside 0 (text.take start) + (before.map Prod.fst).count .newline := by
  induction h generalizing before with
  | stop => simp at htokens
  | skip hlt hignores _ ih =>
    obtain ⟨b, hplain, htake, -⟩ := exists_of_skip hlt hignores
    rw [htake, List.count_append, List.count_singleton, if_neg (by simpa using hplain.quote)] at ih
    have hnone : lineFeed ∉ [b] := by simpa using hplain.feed.symm
    rw [ih heven htokens, feedsOutside_append, feedsOutside_of_not_mem hnone, Nat.add_zero]
  | take hle hdecides hremainder _ ih =>
    obtain ⟨bytes, hread, -, htake, -⟩ := exists_of_take hle hdecides hremainder
    rw [← Nat.zero_add (List.count _ _)] at heven
    have hcount := hread.even_quotes
    have hfeeds := hread.feedsOutside heven
    cases before with
    | nil =>
      cases htokens
      rfl
    | cons first before =>
      cases htokens
      rw [htake, List.count_append] at ih
      rw [ih (by omega) rfl, feedsOutside_append, hfeeds, Nat.add_assoc, ← List.count_append]
      rfl

end Steps

/-! ## The command line -/

namespace CommandLine

/-- The offset at which an entry of a program begins: that of its first token. -/
def entryStart? (text : Bytes) (k : Nat) : Option Nat :=
  let d := (((Stream.ofText text).drain lexer.lift).run start.1).1
  d.items[((lineGroups d.tokens).take k).flatten.length]?.map fun item => item.2.index

theorem engine_calm (trace : Bool) : (engine trace).hooks.Calm fun _ => True := by
  cases trace with
  | false => exact (Engine.calm_silent _ _).hooks
  | true =>
    have hobserve (event : Event Token) : Action.Calm (Scene.Flagged true fun _ => True)
        (modify fun scene => { scene with
          world := scene.world.push (traceLine lineGrammar event) } :
            Action (Scene (Reducer Token) (Array Bytes)) Unit) :=
      fun _ h => ⟨(), _, rfl, h⟩
    exact {
      onReset := fun _ => hobserve _
      onShift := fun _ _ => hobserve _
      onReduce := fun _ _ _ => hobserve _
      onFinish := fun _ _ => hobserve _ }

theorem engine_unobtrusive (trace : Bool) : (engine trace).Unobtrusive := by
  have hsilent : (engine false).Unobtrusive := Engine.silent_unobtrusive _
  cases trace with
  | false => exact hsilent
  | true =>
    exact {
      grammar := hsilent.grammar
      onReset := fun _ _ _ => rfl
      onShift := fun _ _ _ _ => rfl
      onReduce := fun _ _ _ _ _ => rfl
      onFinish := fun _ _ _ _ => rfl }

section Entries

variable {trace : Bool} {text : Bytes}

theorem run_eq_reportLines {lines : List (Option (Tree Token))} {lexed : Scene Bool Unit}
    {after : Scene (Reducer Token) (Array Bytes)}
    (h : (parseProgram lexer.lift (engine trace) text).run start = (.ok lines, (lexed, after))) :
    run trace text = reportLines lineGrammar after.world.toList.flatten lines := by
  simp only [run, h]

/-- An entry that is missing is reported by its number. -/
theorem notStatement_infix_errors (g : LineGrammar) (log : Bytes)
    {lines : List (Option (Tree Token))} {k : Nat} (h : lines[k]? = some none) :
    notStatement (k + 1) <:+: (reportLines g log lines).errors := by
  have hmem : ((none : Option (Tree Token)), k) ∈ lines.zipIdx :=
    List.mk_mem_zipIdx_iff_getElem?.2 h
  obtain ⟨before, after, hsplit⟩ := List.append_of_mem hmem
  simp only [reportLines, hsplit, List.flatMap_append, List.flatMap_cons]
  rw [← List.append_assoc, ← List.append_assoc]
  exact ⟨_, _, rfl⟩

section Tokens

variable {tokens : List Token} {after : Scene Bool Unit}
  (htokens : (lexer.lift.tokenize text).run start.1 = (.ok tokens, after))

include htokens

/-- The entries of a program are the results of its lines. -/
theorem exists_run_parseProgram (trace : Bool) :
    ∃ parsed, (parseProgram lexer.lift (engine trace) text).run start =
      (.ok ((lineGroups tokens).map (lineResult lineGrammar.grammar .strict)), parsed) := by
  obtain ⟨-, d, -, hdrain, -, hfault, rfl, -⟩ :=
    Lexer.exists_drain_of_tokenize lexer_lineBound.leavesSuffixes rfl htokens
  have hgrammar : (engine trace).grammar = lineGrammar.grammar.lift := rfl
  have hstart : start.2.Flagged false fun _ => True := ⟨rfl, trivial⟩
  obtain ⟨emptied, after, hreset, hpush, -⟩ := exists_pushLines_of_calm hgrammar
    (engine_calm trace) (engine_unobtrusive trace) hstart d.tokens
  rw [programLines_eq_map_lineGroups] at hpush
  exact ⟨_, run_parseProgram_of_no_fault hdrain hreset hpush hfault⟩

/-- As many line feeds are outside of strings before an entry as there are entries before it. -/
theorem exists_entryStart {k : Nat} (hk : k < (lineGroups tokens).length) :
    ∃ offset, entryStart? text k = some offset ∧ offset ≤ text.length ∧
      feedsOutside 0 (text.take offset) = k := by
  obtain ⟨lexing, d, hlexing, hdrain, hitems, -, rfl, -⟩ :=
    Lexer.exists_drain_of_tokenize lexer_lineBound.leavesSuffixes rfl htokens
  obtain ⟨first, after, hsplit, hcount⟩ := exists_take_lineGroups hk
  have hmap : lexing.tokens.map Prod.fst =
      ((lineGroups d.tokens).take k).flatten ++ first :: after :=
    (Lexing.tokens_of_items hitems).symm.trans hsplit
  obtain ⟨before, rest, hentries, hbefore, hrest⟩ := List.map_eq_append_iff.1 hmap
  obtain ⟨entry, others, rfl, -, -⟩ := List.map_eq_cons_iff.1 hrest
  have hinside := hlexing.inside entry (by simp [hentries])
  refine ⟨entry.2.index, ?_, ?_, ?_⟩
  · simp only [entryStart?, hdrain, hitems, Lexing.items, hentries, ← hbefore, List.length_map]
    simp
  · have := hlexing.final_le
    omega
  · rw [feedsOutside_take hlexing.steps rfl hentries, hbefore, hcount]
    exact Nat.zero_add k

/-- The number of an entry that is missing is at most the number of the source line that the entry
begins on, and it is the same number exactly if the line breaks before are line feeds outside of
strings, with or without a carriage return. -/
theorem entry_number_iff (hlength : text.length + 1 < UInt64.size) (trace : Bool) :
    ∃ entries parsed,
      (parseProgram lexer.lift (engine trace) text).run start = (.ok entries, parsed) ∧
      ∀ k, entries[k]? = some none → notStatement (k + 1) <:+: (run trace text).errors ∧
        ∃ offset, entryStart? text k = some offset ∧
          let line := ((Stream.ofText text).positionAt lexer.tabs offset).1.line.toNat
          k + 1 ≤ line ∧ (k + 1 = line ↔ PlainBreaks 0 (text.take offset)) := by
  obtain ⟨⟨lexed, after⟩, hparsed⟩ := exists_run_parseProgram htokens trace
  refine ⟨_, (lexed, after), hparsed, fun k hmissing => ?_⟩
  have hk : k < (lineGroups tokens).length := by
    simpa using (List.getElem?_eq_some_iff.1 hmissing).1
  obtain ⟨offset, hstart, hle, hfeeds⟩ := exists_entryStart htokens hk
  obtain ⟨hbound, hplain⟩ := feedsOutside_iff 0 (text.take offset)
  have hline : ((Stream.ofText text).positionAt lexer.tabs offset).1.line.toNat =
      1 + lineBreaks (text.take offset) := by
    have hposition : ((Stream.ofText text).positionAt lexer.tabs offset).1 =
        Position.of lexer.tabs text offset :=
      congrArg Prod.fst (LineCursor.positionAt_ofPrefix lexer.tabs text 0 offset)
    rw [hposition, Position.toNat_line_of _ hlength, Nat.min_eq_left hle]
  rw [hfeeds] at hbound hplain
  refine ⟨?_, offset, hstart, ?_⟩
  · rw [run_eq_reportLines hparsed]
    exact notStatement_infix_errors _ _ hmissing
  · simp only [hline, ← hplain]
    omega

end Tokens

end Entries

/-- A letter on a line by itself, behind a line that ends in a carriage return and a line feed. -/
theorem entry_number_iff_return :
    let text := Bytes.ofAscii "10 RUN\r\nB"
    let tokens : List Token := [.number 10, .keyword .run, .newline, .var 1]
    ((lexer.lift.tokenize text).run start.1 = (.ok tokens, start.1) ∧
      text.length + 1 < UInt64.size) ∧
    notStatement 2 <:+: (run false text).errors ∧ entryStart? text 1 = some 8 ∧
      ((Stream.ofText text).positionAt lexer.tabs 8).1.line.toNat = 2 ∧
      PlainBreaks 0 (text.take 8) := by
  have htokens : (lexer.lift.tokenize (.ofAscii "10 RUN\r\nB")).run start.1 =
      (.ok [.number 10, .keyword .run, .newline, .var 1], start.1) := by rfl
  have hstart : entryStart? (.ofAscii "10 RUN\r\nB") 1 = some 8 := by rfl
  have hline : ((Stream.ofText (.ofAscii "10 RUN\r\nB")).positionAt lexer.tabs 8).1.line = 2 := by
    rfl
  intro text tokens
  have hlength : text.length + 1 < UInt64.size := by decide
  have hletter : lineResult lineGrammar.grammar .strict [.var 1, .newline] = none := by rfl
  obtain ⟨entries, parsed, hparsed, hmissing⟩ := entry_number_iff htokens hlength false
  obtain ⟨_, hentries⟩ := exists_run_parseProgram htokens false
  cases hparsed.symm.trans hentries
  obtain ⟨hmessage, offset, hoffset, -, hplain⟩ := hmissing 1 (congrArg some hletter)
  cases hstart.symm.trans hoffset
  rw [hline] at hplain
  exact ⟨⟨htokens, hlength⟩, hmessage, hstart, congrArg UInt64.toNat hline, hplain.1 rfl⟩

/-- Behind a string with a line feed in it the entry on the third line is reported as the second. -/
theorem entry_number_behind_string :
    let text := Bytes.ofAscii "10 PRINT \"A\nB\"\n20 FOO\n"
    let tokens : List Token := [.number 10, .keyword .print, .string (.ofAscii "A\nB"), .newline,
      .number 20, .var 5, .var 14, .var 14, .newline]
    (lexer.lift.tokenize text).run start.1 = (.ok tokens, start.1) ∧
    (∃ first parsed,
      (parseProgram lexer.lift (engine false) text).run start = (.ok [some first, none], parsed)) ∧
    notStatement 2 <:+: (run false text).errors ∧ entryStart? text 1 = some 15 ∧
      ((Stream.ofText text).positionAt lexer.tabs 15).1.line = 3 := by
  have hstart : entryStart? (.ofAscii "10 PRINT \"A\nB\"\n20 FOO\n") 1 = some 15 := by rfl
  have hline : ((Stream.ofText (.ofAscii "10 PRINT \"A\nB\"\n20 FOO\n")).positionAt lexer.tabs
      15).1.line = 3 := by rfl
  have htokens : (lexer.lift.tokenize (.ofAscii "10 PRINT \"A\nB\"\n20 FOO\n")).run start.1 =
      (.ok [.number 10, .keyword .print, .string (.ofAscii "A\nB"), .newline, .number 20, .var 5,
        .var 14, .var 14, .newline], start.1) := by rfl
  intro text tokens
  have hprint : (lineResult lineGrammar.grammar .strict
      [.number 10, .keyword .print, .string (.ofAscii "A\nB"), .newline]).isSome = true := by rfl
  have hletters : lineResult lineGrammar.grammar .strict
      [.number 20, .var 5, .var 14, .var 14, .newline] = none := by rfl
  obtain ⟨first, hfirst⟩ := Option.isSome_iff_exists.1 hprint
  obtain ⟨parsed, hparsed⟩ := exists_run_parseProgram htokens false
  have hentries : (lineGroups tokens).map (lineResult lineGrammar.grammar .strict) =
      [some first, none] := by
    rw [← hfirst, ← hletters]
    rfl
  rw [hentries] at hparsed
  refine ⟨htokens, ⟨first, parsed, hparsed⟩, ?_, hstart, hline⟩
  rw [run_eq_reportLines hparsed]
  exact notStatement_infix_errors _ _ (k := 1) rfl

end CommandLine

end TinyBasic

end ShiftReduce
