import MarkupBinding.Token.Scanner
import MarkupBinding.Text.Blank
import MarkupBinding.Text.Digit
import MarkupBinding.Tree.Basic
import MarkupBinding.Tree.Builder
import MarkupBinding.Tree.Markup
import MarkupBinding.Forest.Basic
import MarkupBinding.Forest.Builder
import MarkupBinding.Forest.Display
import MarkupBinding.Forest.Walk
import MarkupBinding.Insert.Basic
import MarkupBinding.Insert.Binding
import MarkupBinding.Insert.Template
import MarkupBinding.Binder
import MarkupBinding.Isolation
import MarkupBinding.Transform
import MarkupBinding.Command.Arguments
import MarkupBinding.Command.Directory
import MarkupBinding.Command.Job
import MarkupBinding.Main
import MarkupBinding.Forest.Position
import MarkupBinding.Proofs.Text.Lowercase
import MarkupBinding.Proofs.Token.Reading
import MarkupBinding.Proofs.Tree.RoundTrip
import MarkupBinding.Proofs.Forest.Frame
import MarkupBinding.Proofs.Forest.Linked
import MarkupBinding.Proofs.Forest.Outline
import MarkupBinding.Proofs.Forest.Planting
import MarkupBinding.Proofs.Forest.Trail
import MarkupBinding.Proofs.Forest.Walk
import MarkupBinding.Proofs.Isolation.Anchors
import MarkupBinding.Proofs.Insert.Search
import MarkupBinding.Proofs.Isolation.Finishes
import MarkupBinding.Proofs.Isolation.KeptText
import MarkupBinding.Proofs.Binding.Outcome
import MarkupBinding.Proofs.Placeholder.Restore
import MarkupBinding.Proofs.Placeholder.Unique
import MarkupBinding.Proofs.Binding.Covered
import MarkupBinding.Proofs.Binding.SecondPass
import MarkupBinding.Proofs.Tree.Listing
import MarkupBinding.Proofs.Text.Mark
import MarkupBinding.Proofs.Text.Collapsed
import MarkupBinding.Proofs.Token.Shape
import MarkupBinding.Proofs.Tree.Nested
import MarkupBinding.Proofs.Tree.NormalForm
import MarkupBinding.Proofs.Tree.RawText
import MarkupBinding.Proofs.Building.Invariant
import MarkupBinding.Proofs.Expression.Meaning
import MarkupBinding.Proofs.Expression.Reading
import MarkupBinding.Proofs.Forest.Rewriting
import MarkupBinding.Proofs.Binding.Marked
import MarkupBinding.Proofs.Insert.Split
import MarkupBinding.Proofs.Placeholder.Replaced
import MarkupBinding.Proofs.Token.CursorRun
import MarkupBinding.Proofs.Token.CursorBoundary
import MarkupBinding.Proofs.Building.Collapsed
import MarkupBinding.Proofs.Options.Resolution
import MarkupBinding.Proofs.Forest.Exchange
