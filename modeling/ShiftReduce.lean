import ShiftReduce.Lexer.Builder
import ShiftReduce.Lexer.Callback
import ShiftReduce.Lexer.Iterator
import ShiftReduce.Main
import ShiftReduce.Text.Input
import ShiftReduce.TinyBasic.CommandLine
import ShiftReduce.Proofs.Grammar.Builders
import ShiftReduce.Proofs.Grammar.Matching
import ShiftReduce.Proofs.Lexer.Consumers
import ShiftReduce.Proofs.Lexer.Drain
import ShiftReduce.Proofs.Lexer.Integers
import ShiftReduce.Proofs.Lexer.Keywords
import ShiftReduce.Proofs.Lexer.Positions
import ShiftReduce.Proofs.Lexer.Reentry
import ShiftReduce.Proofs.Lexer.Safety
import ShiftReduce.Proofs.Lexer.Sharing
import ShiftReduce.Proofs.Lexer.StockSafety
import ShiftReduce.Proofs.Lexer.TabStops
import ShiftReduce.Proofs.Parse.Past
import ShiftReduce.Proofs.Parse.Reentry
import ShiftReduce.Proofs.Parse.Text
import ShiftReduce.Proofs.Reducer.Agreement
import ShiftReduce.Proofs.Reducer.Exhaustive
import ShiftReduce.Proofs.Reducer.Policies
import ShiftReduce.Proofs.Reducer.Priority
import ShiftReduce.Proofs.Reducer.Questions
import ShiftReduce.Proofs.Reducer.Recording
import ShiftReduce.Proofs.Source.Columns
import ShiftReduce.Proofs.Source.Lines
import ShiftReduce.Proofs.Symbol.Uniqueness
import ShiftReduce.Proofs.Text.Decoding
import ShiftReduce.Proofs.Text.Segmentation
import ShiftReduce.Proofs.TinyBasic.Faults
import ShiftReduce.Proofs.TinyBasic.LetterCase
import ShiftReduce.Proofs.TinyBasic.Line
import ShiftReduce.Proofs.TinyBasic.LineGroups
import ShiftReduce.Proofs.TinyBasic.Rendering
import ShiftReduce.Proofs.TinyBasic.SourceLines
import ShiftReduce.Proofs.TinyBasic.Words
import ShiftReduce.Proofs.Tree.Flattening
import ShiftReduce.Proofs.Tree.Printing
