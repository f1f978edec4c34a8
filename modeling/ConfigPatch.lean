import ConfigPatch.Decimal.Binary64
import ConfigPatch.Decimal.Shortest
import ConfigPatch.Document
import ConfigPatch.Edit.Basic
import ConfigPatch.Edit.Batch
import ConfigPatch.Edit.Plan
import ConfigPatch.Error
import ConfigPatch.Json.Node
import ConfigPatch.Json.Numeral
import ConfigPatch.Json.Printer
import ConfigPatch.Json.Reader
import ConfigPatch.Json.Token
import ConfigPatch.Lexical.Bracket
import ConfigPatch.Lexical.Mode
import ConfigPatch.Literal.Entry
import ConfigPatch.Literal.Export
import ConfigPatch.Literal.Exported
import ConfigPatch.Literal.Lookup
import ConfigPatch.Options
import ConfigPatch.Path.Basic
import ConfigPatch.Path.Parser
import ConfigPatch.Placeholder
import ConfigPatch.Proofs.Document.History
import ConfigPatch.Proofs.Document.Stepwise
import ConfigPatch.Proofs.Edit.Clean
import ConfigPatch.Proofs.Edit.Frame
import ConfigPatch.Proofs.Edit.Inverse
import ConfigPatch.Proofs.Edit.Repeat
import ConfigPatch.Proofs.Json.Literal
import ConfigPatch.Proofs.Json.Refinement
import ConfigPatch.Proofs.Json.Splice
import ConfigPatch.Proofs.Lexical.Lexeme
import ConfigPatch.Proofs.Lexical.Local
import ConfigPatch.Proofs.Lexical.Loop
import ConfigPatch.Proofs.Lexical.Nesting
import ConfigPatch.Proofs.Lexical.Replace
import ConfigPatch.Proofs.Lexical.Scan
import ConfigPatch.Proofs.Lexical.Trivia
import ConfigPatch.Proofs.Literal.Alone
import ConfigPatch.Proofs.Literal.Boundary
import ConfigPatch.Proofs.Literal.Comment
import ConfigPatch.Proofs.Literal.Descent
import ConfigPatch.Proofs.Literal.Division
import ConfigPatch.Proofs.Literal.Exchange
import ConfigPatch.Proofs.Literal.Fence
import ConfigPatch.Proofs.Literal.Gap
import ConfigPatch.Proofs.Literal.Header
import ConfigPatch.Proofs.Literal.InStep
import ConfigPatch.Proofs.Literal.Layout
import ConfigPatch.Proofs.Literal.Legible
import ConfigPatch.Proofs.Literal.Local
import ConfigPatch.Proofs.Literal.Node
import ConfigPatch.Proofs.Literal.Position
import ConfigPatch.Proofs.Literal.Precedence
import ConfigPatch.Proofs.Literal.Progress
import ConfigPatch.Proofs.Literal.Reading
import ConfigPatch.Proofs.Literal.Replaceable
import ConfigPatch.Proofs.Literal.Resolve
import ConfigPatch.Proofs.Literal.Root
import ConfigPatch.Proofs.Literal.Spelling
import ConfigPatch.Proofs.Literal.Statement
import ConfigPatch.Proofs.Literal.Tidy
import ConfigPatch.Proofs.Literal.Visit
import ConfigPatch.Proofs.Literal.Walk
import ConfigPatch.Proofs.Path.Grammar
import ConfigPatch.Proofs.Path.Written
import ConfigPatch.Proofs.Placeholder.Plan
import ConfigPatch.Proofs.Placeholder.Scan
import ConfigPatch.Proofs.Text.Ascii
import ConfigPatch.Proofs.Text.Cut
import ConfigPatch.Proofs.Text.Quoted
import ConfigPatch.Proofs.Text.Replacement
import ConfigPatch.Proofs.Text.Run
import ConfigPatch.Proofs.Value.Building
import ConfigPatch.Proofs.Value.Filling
import ConfigPatch.Proofs.Value.Frame
import ConfigPatch.Proofs.Value.Overwrite
import ConfigPatch.Proofs.Value.Refusal
import ConfigPatch.Proofs.Value.Removal
import ConfigPatch.Proofs.Value.Step
import ConfigPatch.Record.Change
import ConfigPatch.Record.Edit
import ConfigPatch.Record.Options
import ConfigPatch.Span
import ConfigPatch.Text.Character
import ConfigPatch.Text.Quoted
import ConfigPatch.Text.Utf8
import ConfigPatch.Value.Basic
import ConfigPatch.Value.Fill
import ConfigPatch.Value.Remove
import ConfigPatch.Value.Set
