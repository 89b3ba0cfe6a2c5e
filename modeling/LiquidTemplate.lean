import LiquidTemplate.Text.Basic
import LiquidTemplate.Text.Mark
import LiquidTemplate.Text.Wide
import LiquidTemplate.Text.Emoji
import LiquidTemplate.Text.Invisible
import LiquidTemplate.Text.Quoted
import LiquidTemplate.Text.Offset
import LiquidTemplate.Text.Width
import LiquidTemplate.Peg.Basic
import LiquidTemplate.Peg.Attempts
import LiquidTemplate.Peg.Parse
import LiquidTemplate.Expression.Basic
import LiquidTemplate.Expression.Render
import LiquidTemplate.Markup.Basic
import LiquidTemplate.Token
import LiquidTemplate.Grammar.Rule
import LiquidTemplate.Grammar.Expression
import LiquidTemplate.Grammar.Markup
import LiquidTemplate.Grammar.Template
import LiquidTemplate.Fault
import LiquidTemplate.Node.Basic
import LiquidTemplate.Node.Nesting
import LiquidTemplate.Node.Listing
import LiquidTemplate.Whitespace.Display
import LiquidTemplate.Whitespace.Facts
import LiquidTemplate.Options.Basic
import LiquidTemplate.Options.Decimal
import LiquidTemplate.Options.Numeral
import LiquidTemplate.Options.Decode
import LiquidTemplate.Layout.Doc
import LiquidTemplate.Layout.Render
import LiquidTemplate.Code.Basic
import LiquidTemplate.Code.Dedent
import LiquidTemplate.Print.Inline
import LiquidTemplate.Print.Gap
import LiquidTemplate.Print.Node
import LiquidTemplate.Format
import LiquidTemplate.Path
import LiquidTemplate.Proofs.Nesting.Derivation
import LiquidTemplate.Proofs.Nesting.Rooms
import LiquidTemplate.Proofs.Nesting.Run
import LiquidTemplate.Proofs.Nesting.Invariant
import LiquidTemplate.Proofs.Nesting.Strict
import LiquidTemplate.Proofs.Layout.Modes
import LiquidTemplate.Proofs.Print.TrimMarkers
import LiquidTemplate.Proofs.Nesting.Branches
import LiquidTemplate.Proofs.Print.Placed
import LiquidTemplate.Proofs.Print.MarkedTags
import LiquidTemplate.Proofs.Peg.Read
import LiquidTemplate.Proofs.Grammar.Places
import LiquidTemplate.Proofs.Grammar.Tiling
import LiquidTemplate.Proofs.Nesting.Pieces
import LiquidTemplate.Proofs.Nesting.Preorder
import LiquidTemplate.Proofs.Nesting.Tolerant
import LiquidTemplate.Proofs.Nesting.Closing
import LiquidTemplate.Proofs.Nesting.Ranges
import LiquidTemplate.Proofs.Nesting.Numbering
import LiquidTemplate.Proofs.Print.Visible
import LiquidTemplate.Proofs.Grammar.Everywhere
import LiquidTemplate.Proofs.Grammar.Words
import LiquidTemplate.Proofs.Grammar.TagNames
import LiquidTemplate.Proofs.Nesting.BranchLists
import LiquidTemplate.Proofs.Expression.Spelling
import LiquidTemplate.Proofs.Grammar.Names
import LiquidTemplate.Proofs.Peg.Unless
import LiquidTemplate.Proofs.Grammar.Readable
import LiquidTemplate.Proofs.Grammar.Spelled
import LiquidTemplate.Proofs.Grammar.Written
import LiquidTemplate.Proofs.Grammar.WrittenFilters
import LiquidTemplate.Proofs.Grammar.Delimited
import LiquidTemplate.Proofs.Print.DropsAgain
import LiquidTemplate.Proofs.Grammar.WrittenMarkup
import LiquidTemplate.Proofs.Grammar.WrittenTags
import LiquidTemplate.Proofs.Print.TagsAgain
import LiquidTemplate.Proofs.Peg.Stack
import LiquidTemplate.Proofs.Grammar.Unstuck
import LiquidTemplate.Proofs.Layout.Indentation
import LiquidTemplate.Proofs.Nesting.Sound
import LiquidTemplate.Proofs.Print.Cut
import LiquidTemplate.Proofs.Print.Checked
import LiquidTemplate.Proofs.Print.Unfailing
import LiquidTemplate.Proofs.Format.Unfailing
import LiquidTemplate.Proofs.Print.Lineage
import LiquidTemplate.Proofs.Format.Requests
import LiquidTemplate.Proofs.Text.Slices
import LiquidTemplate.Proofs.Grammar.Bodies
import LiquidTemplate.Proofs.Layout.Shown
import LiquidTemplate.Proofs.Format.Kept
import LiquidTemplate.Proofs.Text.Spacing
import LiquidTemplate.Proofs.Grammar.Edges
import LiquidTemplate.Proofs.Nesting.Moved
import LiquidTemplate.Proofs.Whitespace.Twins
import LiquidTemplate.Proofs.Print.InlineMoved
import LiquidTemplate.Proofs.Print.Respacing
import LiquidTemplate.Proofs.Print.Respaced
import LiquidTemplate.Proofs.Print.Spaced
import LiquidTemplate.Proofs.Print.Settled
import LiquidTemplate.Proofs.Grammar.Respaced
import LiquidTemplate.Proofs.Format.Respaced
import LiquidTemplate.Proofs.Format.Broken
import LiquidTemplate.Proofs.Nesting.Faults
import LiquidTemplate.Proofs.Peg.Restored
import LiquidTemplate.Proofs.Grammar.RawBodies
import LiquidTemplate.Proofs.Grammar.RawElements
import LiquidTemplate.Proofs.Whitespace.Links
import LiquidTemplate.Proofs.Whitespace.Gaps
import LiquidTemplate.Proofs.Print.InlineGaps
import LiquidTemplate.Proofs.Print.Broken
import LiquidTemplate.Proofs.Whitespace.Passes
import LiquidTemplate.Proofs.Whitespace.Repeated
import LiquidTemplate.Proofs.Nesting.Seamless
import LiquidTemplate.Proofs.Grammar.Fragments
import LiquidTemplate.Proofs.Print.InlineJoined
import LiquidTemplate.Proofs.Text.Entities
import LiquidTemplate.Proofs.Grammar.WrittenAttributes
import LiquidTemplate.Proofs.Print.AttributesAgain
import LiquidTemplate.Proofs.Format.AttributeLists
import LiquidTemplate.Proofs.Layout.LineEnds
import LiquidTemplate.Proofs.Format.LineEnds
import LiquidTemplate.Proofs.Grammar.CleanEnds
import LiquidTemplate.Proofs.Print.CleanEnds
import LiquidTemplate.Proofs.Layout.Tabs
import LiquidTemplate.Proofs.Format.Tabs
import LiquidTemplate.Proofs.Print.Reflow
import LiquidTemplate.Proofs.Peg.Notes
import LiquidTemplate.Proofs.Grammar.Stopped
import LiquidTemplate.Proofs.Text.Positions
import LiquidTemplate.Proofs.Nesting.Diagnostics
import LiquidTemplate.Proofs.Text.Columns
import LiquidTemplate.Proofs.Code.Dedent
import LiquidTemplate.Proofs.Print.ChainsAgain
import LiquidTemplate.Proofs.Print.StatementsAgain
