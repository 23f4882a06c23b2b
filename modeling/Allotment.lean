import Allotment.Address.Basic
import Allotment.Address.Conversion
import Allotment.Address.Parser
import Allotment.Address.Printer
import Allotment.Address.Span
import Allotment.Attempt
import Allotment.Command.Basic
import Allotment.Command.Flags
import Allotment.Command.Folder
import Allotment.Config.Basic
import Allotment.Config.Decoder
import Allotment.Config.Decoding
import Allotment.Config.Key
import Allotment.Config.Value
import Allotment.Cut
import Allotment.Display
import Allotment.Domain
import Allotment.Dyadic
import Allotment.Expression
import Allotment.IdBlock
import Allotment.Interval
import Allotment.IntervalSet.Basic
import Allotment.IntervalSet.Cell
import Allotment.IntervalSet.Cursor
import Allotment.IntervalSet.Gaps
import Allotment.IntervalSet.Loop
import Allotment.IntervalSet.Store
import Allotment.IntervalSet.View
import Allotment.Labels
import Allotment.Main
import Allotment.Order
import Allotment.Pool.Address
import Allotment.Pool.Basic
import Allotment.Pool.Journal
import Allotment.Pool.Ledger
import Allotment.Pool.Notation
import Allotment.Pool.Shape
import Allotment.Pool.Vlan
import Allotment.Pool.Vni
import Allotment.Proofs.Address.Conversion
import Allotment.Proofs.Address.Domain
import Allotment.Proofs.Address.Neighbours
import Allotment.Proofs.Address.Place
import Allotment.Proofs.Address.Set
import Allotment.Proofs.Answer
import Allotment.Proofs.Cut
import Allotment.Proofs.Domain
import Allotment.Proofs.Expression
import Allotment.Proofs.Interval
import Allotment.Proofs.IntervalSet.Algebra
import Allotment.Proofs.IntervalSet.Bulk
import Allotment.Proofs.IntervalSet.Cell
import Allotment.Proofs.IntervalSet.Complement
import Allotment.Proofs.IntervalSet.Crossed
import Allotment.Proofs.IntervalSet.Editing
import Allotment.Proofs.IntervalSet.Equality
import Allotment.Proofs.IntervalSet.GapQueries
import Allotment.Proofs.IntervalSet.Gaps
import Allotment.Proofs.IntervalSet.Loop
import Allotment.Proofs.IntervalSet.NormalForm
import Allotment.Proofs.IntervalSet.Queries
import Allotment.Proofs.IntervalSet.Region
import Allotment.Proofs.IntervalSet.Repetition
import Allotment.Proofs.IntervalSet.Store
import Allotment.Proofs.IntervalSet.Tiling
import Allotment.Proofs.IntervalSet.Versions
import Allotment.Proofs.IntervalSet.Walk
import Allotment.Proofs.Pool.Address
import Allotment.Proofs.Pool.Admission
import Allotment.Proofs.Pool.Changes
import Allotment.Proofs.Pool.Cutting
import Allotment.Proofs.Pool.Edged
import Allotment.Proofs.Pool.Free
import Allotment.Proofs.Pool.Labelling
import Allotment.Proofs.Pool.Ledger
import Allotment.Proofs.Pool.Patience
import Allotment.Proofs.Pool.Runs
import Allotment.Proofs.Pool.Search
import Allotment.Proofs.Pool.Shape
import Allotment.Proofs.Pool.ShapeEditing
import Allotment.Proofs.Pool.ShapeReading
import Allotment.Range
import Allotment.Range.Parser
import Allotment.Range.Reading
import Allotment.Report
import Allotment.Text.Base64
import Allotment.Text.Blank
import Allotment.Text.Decimal
import Allotment.Text.Glyph
import Allotment.Text.Numeral
import Allotment.Text.Printable
import Allotment.Text.Quoted
import Allotment.Text.Utf8
import Allotment.Yaml.Comment
import Allotment.Yaml.Lexer
import Allotment.Yaml.Node
import Allotment.Yaml.Parser
import Allotment.Yaml.Problem
import Allotment.Yaml.Property
import Allotment.Yaml.Reader
import Allotment.Yaml.Scalar.Block
import Allotment.Yaml.Scalar.Plain
import Allotment.Yaml.Scalar.Quoted
import Allotment.Yaml.Tag
import Allotment.Yaml.Timestamp
import Allotment.Yaml.Token
import Allotment.Yaml.Window
import Allotment.Proofs.Pool.Recount
import Allotment.Proofs.Pool.Vlan
import Allotment.Proofs.Dyadic
import Allotment.Proofs.Number
import Allotment.Proofs.IdBlock.Basic
import Allotment.Proofs.IdBlock.Halving
import Allotment.Proofs.IdBlock.Cover
import Allotment.Proofs.IdBlock.Refusal
import Allotment.Proofs.IdBlock.Members
import Allotment.Proofs.Pool.Sameness
import Allotment.Proofs.Pool.Notation
import Allotment.Proofs.Pool.Least
import Allotment.Proofs.Pool.Sized
import Allotment.Proofs.Address.RoundTrip
import Allotment.Proofs.IntervalSet.Refusals
import Allotment.Proofs.Text.Cutting
import Allotment.Proofs.Text.Decimal
import Allotment.Proofs.Text.Words
import Allotment.Proofs.Range.Notation
import Allotment.Proofs.Range.Positions
import Allotment.Proofs.Range.Spelling
import Allotment.Proofs.Range.Algebra
import Allotment.Proofs.Range.Canonical
import Allotment.Proofs.IdBlock.Nesting
import Allotment.Proofs.Pool.Remainders
