import RowRecipe.Mapping
import RowRecipe.Text.Blank
import RowRecipe.Text.Digit
import RowRecipe.Text.Letter
import RowRecipe.Text.Printable
import RowRecipe.Text.Case
import RowRecipe.Number.Digits
import RowRecipe.Number.Decimal
import RowRecipe.Number.Decimal.Text
import RowRecipe.Number.Double
import RowRecipe.Number.Double.Text
import RowRecipe.Unit.Kind
import RowRecipe.Unit.Error
import RowRecipe.Unit.Quantity
import RowRecipe.Text.Quoted
import RowRecipe.Number.Order
import RowRecipe.Value.Basic
import RowRecipe.Value.Text
import RowRecipe.Fault
import RowRecipe.Value.Conversion
import RowRecipe.Value.Arithmetic
import RowRecipe.Unit.Operation
import RowRecipe.Unit.Summary
import RowRecipe.Token.Basic
import RowRecipe.Usage.Basic
import RowRecipe.Usage.Bind
import RowRecipe.Store
import RowRecipe.Context
import RowRecipe.Error
import RowRecipe.Directive.Basic
import RowRecipe.Registry
import RowRecipe.Directive.Columns
import RowRecipe.Directive.ParseUnit
import RowRecipe.Directive.Aggregate
import RowRecipe.Directive.Builtin
import RowRecipe.Grammar.Literal
import RowRecipe.Grammar.Terminal
import RowRecipe.Grammar.State
import RowRecipe.Grammar.Scan
import RowRecipe.Text.Lines
import RowRecipe.Script.Lexeme
import RowRecipe.Script.Basic
import RowRecipe.Script.Read
import RowRecipe.Script.Tree
import RowRecipe.Recipe
import RowRecipe.Macro
import RowRecipe.Dialect
import RowRecipe.Migration
import RowRecipe.Compiler
import RowRecipe.CompiledRecipe
import RowRecipe.Pipeline
import RowRecipe.Table
import RowRecipe.Outcome
import RowRecipe.Text.Path
import RowRecipe.Value.Json
import RowRecipe.Settings
import RowRecipe.Logging
import RowRecipe.Proofs.Mapping
import RowRecipe.Proofs.Pipeline.Chain
import RowRecipe.Proofs.Pipeline.Lifecycle
import RowRecipe.Proofs.Macro.Origins
import RowRecipe.Proofs.Number.Range
import RowRecipe.Proofs.Unit.Conversion
import RowRecipe.Proofs.Aggregate.Totals
import RowRecipe.Proofs.Aggregate.Runs
import RowRecipe.Proofs.Grammar.Locality
import RowRecipe.Proofs.Grammar.Scanned
import RowRecipe.Proofs.Grammar.Promotion
import RowRecipe.Proofs.Migration.Insertion
import RowRecipe.Proofs.Migration.Update
import RowRecipe.Proofs.Migration.Legible
import RowRecipe.Proofs.Migration.Walk
import RowRecipe.Proofs.Script.Promotion
import RowRecipe.Proofs.Migration.Tokens
import RowRecipe.Proofs.Script.VersionPragma
import RowRecipe.Proofs.Migration.Preservation
import RowRecipe.Proofs.Directive.Link
import RowRecipe.Proofs.Compiler.Cleanup
import RowRecipe.Proofs.Pipeline.Arrivals
import RowRecipe.Proofs.Aggregate.Sharing
import RowRecipe.Proofs.Grammar.Surroundings
import RowRecipe.Proofs.Grammar.Excerpt
import RowRecipe.Proofs.Grammar.Numbers
import RowRecipe.Proofs.Grammar.Spacing
import RowRecipe.Proofs.Script.Reading
import RowRecipe.Proofs.Script.Excerpt
import RowRecipe.Proofs.Script.Joining
import RowRecipe.Proofs.Script.Meanings
import RowRecipe.Proofs.Script.Apart
import RowRecipe.Proofs.Script.Spelling
import RowRecipe.Proofs.Script.Gluing
import RowRecipe.Proofs.Script.Versions
import RowRecipe.Proofs.Migration.Written
import RowRecipe.Proofs.Migration.Reading
import RowRecipe.Proofs.Migration.Plain
import RowRecipe.Proofs.Registry.Reachable
import RowRecipe.Proofs.Registry.Coherence
import RowRecipe.Proofs.Compiler.Statements
import RowRecipe.Proofs.Compiler.Results
import RowRecipe.Proofs.Compiler.Filling
import RowRecipe.Proofs.Compiler.Legacy
import RowRecipe.Proofs.Directive.Rowwise
import RowRecipe.Proofs.Pipeline.Stream
import RowRecipe.Proofs.Aggregate.Parsed
import RowRecipe.Proofs.Compiler.Resolving
import RowRecipe.Proofs.Number.Scaling
import RowRecipe.Proofs.Store.History
import RowRecipe.Proofs.Unit.Literal
import RowRecipe.Proofs.Script.Pointing
import RowRecipe.Proofs.Number.Rounding
import RowRecipe.Proofs.Number.Quotient
import RowRecipe.Proofs.Number.Order
import RowRecipe.Proofs.Number.Positional
import RowRecipe.Proofs.Number.Stored
import RowRecipe.Proofs.Number.Shortest
import RowRecipe.Proofs.Unit.Display
import RowRecipe.Proofs.Unit.Computed
import RowRecipe.Proofs.Unit.Ladder
import RowRecipe.Proofs.Unit.Lossless
import RowRecipe.Proofs.Unit.Monotone
import RowRecipe.Proofs.Usage.Binding
import RowRecipe.Proofs.Unit.Spellings
import RowRecipe.Proofs.Script.Quantities
import RowRecipe.Proofs.Script.Items
import RowRecipe.Proofs.Script.Quoted
import RowRecipe.Proofs.Migration.Alignment
import RowRecipe.Proofs.Migration.Comment
import RowRecipe.Proofs.Migration.Lines
import RowRecipe.Proofs.Registry.Refusal
import RowRecipe.Proofs.Directive.Renaming
import RowRecipe.Proofs.Macro.Confluence
import RowRecipe.Proofs.Token.Summary
import RowRecipe.Proofs.Script.Taking
import RowRecipe.Proofs.Script.Heading
import RowRecipe.Proofs.Migration.Heading
import RowRecipe.Proofs.Compiler.Supplied
import RowRecipe.Proofs.Logging
import RowRecipe.Proofs.Migration.Piecewise
