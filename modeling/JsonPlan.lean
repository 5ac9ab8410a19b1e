import JsonPlan.Text.Blank
import JsonPlan.Text.Quoted
import JsonPlan.Capacity
import JsonPlan.Error
import JsonPlan.Json.Escape
import JsonPlan.Decimal.Fixed
import JsonPlan.Calendar.Instant
import JsonPlan.Guid
import JsonPlan.Options.Codec
import JsonPlan.Json.Render
import JsonPlan.Output.Sink
import JsonPlan.Program.Builder
import JsonPlan.Program.Nesting
import JsonPlan.Program.Listing
import JsonPlan.Shape.Category
import JsonPlan.Shape.Listing
import JsonPlan.Plan.Compile
import JsonPlan.View.Listing
import JsonPlan.Engine
import JsonPlan.Json.Reader
import JsonPlan.Layout.Tree
import JsonPlan.Layout.Fit
import JsonPlan.Layout.Cost
import JsonPlan.Layout.Actions
import JsonPlan.Layout.Visit
import JsonPlan.Plan.History
import JsonPlan.Plan.Contents
import JsonPlan.Machine.Member
import JsonPlan.Engine.History
import JsonPlan.Proofs.Layout.Actions
import JsonPlan.Proofs.Layout.Unfolding
import JsonPlan.Proofs.Plan.Compile
import JsonPlan.Proofs.Machine.Run
import JsonPlan.Proofs.Output.Trace
import JsonPlan.Proofs.Machine.Layout
import JsonPlan.Proofs.Layout.Fit
import JsonPlan.Proofs.Machine.Refinement
import JsonPlan.Proofs.Json.Pieces
import JsonPlan.Proofs.Json.Escape
import JsonPlan.Proofs.Json.Reading
import JsonPlan.Proofs.Decimal.Numeral
import JsonPlan.Proofs.Json.Numbers
import JsonPlan.Proofs.Binary.Rounding
import JsonPlan.Proofs.Binary.Error
import JsonPlan.Proofs.Decimal.Fixed
import JsonPlan.Proofs.Decimal.Shortest
import JsonPlan.Proofs.Text.Plain
import JsonPlan.Proofs.Output.Scalar
import JsonPlan.Proofs.Layout.Visit
import JsonPlan.Proofs.Machine.Document
import JsonPlan.Proofs.Encoder
import JsonPlan.Proofs.Layout.Tree
import JsonPlan.Proofs.Layout.Own
import JsonPlan.Proofs.Machine.Separator
import JsonPlan.Proofs.Shape.Defect
import JsonPlan.Proofs.Plan.Growth
import JsonPlan.Proofs.Plan.Defect
import JsonPlan.Proofs.Plan.Requests
import JsonPlan.Proofs.Plan.Contents
import JsonPlan.Proofs.Machine.Member
import JsonPlan.Proofs.Output.Writing
import JsonPlan.Proofs.Machine.Writing
import JsonPlan.Proofs.Capacity
import JsonPlan.Proofs.Entry
import JsonPlan.Proofs.Program.Regions
import JsonPlan.Proofs.Program.Cost
import JsonPlan.Proofs.Shape.Order
import JsonPlan.Proofs.Layout.Cost
import JsonPlan.Proofs.Shape.Cost
import JsonPlan.Proofs.Engine
import JsonPlan.Proofs.Estimate
import JsonPlan.Proofs.Sending
import JsonPlan.Proofs.Session
import JsonPlan.Proofs.Malformed
import JsonPlan.Proofs.Inherited
import JsonPlan.Proofs.Literal
import JsonPlan.Proofs.Decimal.Accuracy
import JsonPlan.Proofs.Decimal.Canonical
import JsonPlan.Shape.Accept
import JsonPlan.Proofs.Shape.Arrangement
import JsonPlan.Proofs.Layout.Accept
import JsonPlan.Proofs.Machine.Accept
import JsonPlan.Proofs.Acceptance
import JsonPlan.Proofs.Binary.Monotone
import JsonPlan.Proofs.Binary.Power
import JsonPlan.Proofs.Decimal.Monotone
import JsonPlan.Proofs.Decimal.Whole
import JsonPlan.Decimal.Buffer
import JsonPlan.Program.Spelling
import JsonPlan.Proofs.Capacity.Bucket
import JsonPlan.Proofs.Decimal.Buffer
import JsonPlan.Proofs.Program.Spelling
import JsonPlan.Proofs.Options.Callback
import JsonPlan.Proofs.Gate
import JsonPlan.Program.Position
import JsonPlan.Proofs.Program.Position
import JsonPlan.Proofs.Program.Quotes
import JsonPlan.Proofs.Layout.Quotes
import JsonPlan.Calendar.Gregorian
import JsonPlan.Calendar.Reading
import JsonPlan.Proofs.Calendar.Civil
import JsonPlan.Proofs.Calendar.Iso
