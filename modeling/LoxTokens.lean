import LoxTokens.CommandLine.Command
import LoxTokens.CommandLine.Declaration
import LoxTokens.CommandLine.Help
import LoxTokens.CommandLine.Invocation
import LoxTokens.CommandLine.Program
import LoxTokens.CommandLine.Reader
import LoxTokens.Diagnostic.Basic
import LoxTokens.Diagnostic.Log
import LoxTokens.Diagnostic.Session
import LoxTokens.Files.Input
import LoxTokens.Files.Tree
import LoxTokens.Main
import LoxTokens.Number.Binary64
import LoxTokens.Number.Decimal
import LoxTokens.Number.Rounding
import LoxTokens.Number.Shortest
import LoxTokens.Proofs.CommandLine.Grammar
import LoxTokens.Proofs.CommandLine.Laws
import LoxTokens.Proofs.CommandLine.Outcome
import LoxTokens.Proofs.CommandLine.Reader
import LoxTokens.Proofs.Cursor.Invariant
import LoxTokens.Proofs.Cursor.Machine
import LoxTokens.Proofs.Cursor.Safety
import LoxTokens.Proofs.Cursor.Turn
import LoxTokens.Proofs.Diagnostic.Automaton
import LoxTokens.Proofs.Diagnostic.History
import LoxTokens.Proofs.Diagnostic.Policy
import LoxTokens.Proofs.Diagnostic.Sink
import LoxTokens.Proofs.Number.Display
import LoxTokens.Proofs.Number.Fewest
import LoxTokens.Proofs.Number.Grid
import LoxTokens.Proofs.Number.Interval
import LoxTokens.Proofs.Number.Nearest
import LoxTokens.Proofs.Number.Numeral
import LoxTokens.Proofs.Number.ReadBack
import LoxTokens.Proofs.Number.Search
import LoxTokens.Proofs.Number.Value
import LoxTokens.Proofs.Number.Written
import LoxTokens.Proofs.Source.Blanking
import LoxTokens.Proofs.Source.Boundary
import LoxTokens.Proofs.Source.Characters
import LoxTokens.Proofs.Source.Comment
import LoxTokens.Proofs.Source.Cut
import LoxTokens.Proofs.Source.Legible
import LoxTokens.Proofs.Source.Lines
import LoxTokens.Proofs.Source.Lookahead
import LoxTokens.Proofs.Source.MaximalMunch
import LoxTokens.Proofs.Source.Newline
import LoxTokens.Proofs.Source.Outline
import LoxTokens.Proofs.Source.Respelling
import LoxTokens.Proofs.Source.Spacing
import LoxTokens.Proofs.Source.Tiling
import LoxTokens.Proofs.Text.Place
import LoxTokens.Proofs.Token.Equality
import LoxTokens.Proofs.Token.Listing
import LoxTokens.Source.Lexeme
import LoxTokens.Source.Piece
import LoxTokens.Source.Scan
import LoxTokens.Text.Position
import LoxTokens.Text.Span
import LoxTokens.Token.Basic
import LoxTokens.Token.Keyword
import LoxTokens.Token.Kind
import LoxTokens.Token.Listing
import LoxTokens.Token.Literal
import LoxTokens.Token.Symbol
