import RstPress.Cli.Argument
import RstPress.Cli.Command
import RstPress.Cli.Disk
import RstPress.Cli.Path
import RstPress.Cli.Place
import RstPress.Cli.Program
import RstPress.Cli.Run
import RstPress.Cli.Summary
import RstPress.Document.Body
import RstPress.Document.Problem
import RstPress.Document.Reading
import RstPress.Document.Section
import RstPress.Document.Source
import RstPress.Embed
import RstPress.Error
import RstPress.Html.Element
import RstPress.Html.Render
import RstPress.Inline.Markup
import RstPress.Inline.Span
import RstPress.Inline.Token
import RstPress.Json.Read
import RstPress.Json.Token
import RstPress.Json.Value
import RstPress.Json.Write
import RstPress.Layout.Block
import RstPress.Layout.Definition
import RstPress.Layout.Heading
import RstPress.Layout.Item
import RstPress.Layout.LineBlock
import RstPress.Layout.Paragraph
import RstPress.Layout.Piece
import RstPress.Main
import RstPress.Options
import RstPress.Press
import RstPress.Source.Inset
import RstPress.Source.Line
import RstPress.Text.Blank
import RstPress.Text.Punctuation
import RstPress.Tree.Kind
import RstPress.Tree.Node
import RstPress.Tree.Statistics
import RstPress.Tree.Table
import RstPress.Wire.Json
import RstPress.Wire.Node
import RstPress.Proofs.Strictness
import RstPress.Proofs.Extension.Blank
import RstPress.Proofs.Extension.Elements
import RstPress.Proofs.Extension.Kinds
import RstPress.Proofs.Extension.Outline
import RstPress.Proofs.Extension.Source
import RstPress.Proofs.Headless
import RstPress.Proofs.Bodies.Outline
import RstPress.Proofs.Bodies.Reading
import RstPress.Proofs.Bodies.Written
import RstPress.Proofs.Marker
import RstPress.Proofs.Nesting.Order
import RstPress.Proofs.Nesting.Depth
import RstPress.Proofs.Canonical
import RstPress.Proofs.Exchange
import RstPress.Proofs.Places.Outline
import RstPress.Proofs.Places.Reading
import RstPress.Proofs.Json.Spelling
import RstPress.Proofs.Json.Written
import RstPress.Proofs.Phrases.Written
import RstPress.Proofs.Title
import RstPress.Proofs.Accounts.Text
import RstPress.Proofs.Accounts.Inline
import RstPress.Proofs.Accounts.Layout
import RstPress.Proofs.Accounts.Document
import RstPress.Proofs.Plain.Block
import RstPress.Proofs.Plain.Reading
import RstPress.Proofs.Plain.Sequence
import RstPress.Proofs.Grammar.Document
import RstPress.Proofs.Grammar.Names
import RstPress.Proofs.Tags.Mirror
import RstPress.Proofs.Statistics.Fallback
import RstPress.Proofs.Words.Report
import RstPress.Proofs.Characters.Written
import RstPress.Proofs.Embedding
import RstPress.Proofs.Spacing.Condense
import RstPress.Proofs.Spacing.Outline
import RstPress.Proofs.Normal
import RstPress.Proofs.Spacing.Reading
import RstPress.Proofs.Disk.Path
import RstPress.Proofs.Disk.Growth
import RstPress.Proofs.Disk.Filling
import RstPress.Proofs.Batch.Pages
import RstPress.Proofs.Batch.Reading
import RstPress.Proofs.Batch.Run
import RstPress.Proofs.Closing
import RstPress.Proofs.Contract
import RstPress.Proofs.Verses
import RstPress.Proofs.Failures
import RstPress.Proofs.Adornment
import RstPress.Proofs.Statistics.Merge
import RstPress.Proofs.Statistics.Width
import RstPress.Proofs.Transition
import RstPress.Proofs.Origin.Problems
import RstPress.Proofs.Indentation
import RstPress.Proofs.Tags.Alone
import RstPress.Proofs.Cursor.Progress
