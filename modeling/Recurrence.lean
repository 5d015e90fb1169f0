import Recurrence.Cache.Expansion
import Recurrence.Cache.Key
import Recurrence.Cache.Timed
import Recurrence.Calendar.Date
import Recurrence.Calendar.Instant
import Recurrence.Calendar.Weekday
import Recurrence.CommandLine.Invocation
import Recurrence.CommandLine.Run
import Recurrence.CommandLine.Words
import Recurrence.Config.Basic
import Recurrence.Config.Environment
import Recurrence.Config.File
import Recurrence.Event.Record
import Recurrence.Event.Split
import Recurrence.Event.Store
import Recurrence.Expansion.Period
import Recurrence.Expansion.Scan
import Recurrence.Expansion.Series
import Recurrence.Form.Event
import Recurrence.Form.Field
import Recurrence.Form.Issue
import Recurrence.Form.Rule
import Recurrence.Form.Time
import Recurrence.Json.Reader
import Recurrence.Json.Writer
import Recurrence.Log.Level
import Recurrence.Log.Line
import Recurrence.Log.Settings
import Recurrence.Main
import Recurrence.Numeric.Binary64
import Recurrence.Numeric.Number
import Recurrence.Numeric.Numeral
import Recurrence.Numeric.Power
import Recurrence.Numeric.Shortest
import Recurrence.Proofs.Cache.Accounting
import Recurrence.Proofs.Cache.History
import Recurrence.Proofs.Cache.Hit
import Recurrence.Proofs.Cache.Key
import Recurrence.Proofs.Cache.Run
import Recurrence.Proofs.Cache.Timed
import Recurrence.Proofs.Cache.Transparent
import Recurrence.Proofs.Calendar.Date
import Recurrence.Proofs.Calendar.Instant
import Recurrence.Proofs.Calendar.Stamp
import Recurrence.Proofs.Calendar.Weekday
import Recurrence.Proofs.Config.Json
import Recurrence.Proofs.Config.Loading
import Recurrence.Proofs.Event.Cancel
import Recurrence.Proofs.Event.CancelSplit
import Recurrence.Proofs.Event.Canonical
import Recurrence.Proofs.Event.Clocks
import Recurrence.Proofs.Event.Count
import Recurrence.Proofs.Event.Exceptions
import Recurrence.Proofs.Event.Exhausted
import Recurrence.Proofs.Event.Faulty
import Recurrence.Proofs.Event.Split
import Recurrence.Proofs.Event.SplitTwice
import Recurrence.Proofs.Expansion.Clamp
import Recurrence.Proofs.Expansion.Daily
import Recurrence.Proofs.Expansion.Ending
import Recurrence.Proofs.Expansion.Instance
import Recurrence.Proofs.Expansion.Monthly
import Recurrence.Proofs.Expansion.Overrun
import Recurrence.Proofs.Expansion.Period
import Recurrence.Proofs.Expansion.Preset
import Recurrence.Proofs.Expansion.Reanchor
import Recurrence.Proofs.Expansion.Scan
import Recurrence.Proofs.Expansion.Series
import Recurrence.Proofs.Expansion.StoredClamp
import Recurrence.Proofs.Expansion.Survivors
import Recurrence.Proofs.Expansion.Tolerance
import Recurrence.Proofs.Expansion.Weekly
import Recurrence.Proofs.Expansion.Window
import Recurrence.Proofs.Expansion.Yearly
import Recurrence.Proofs.Json.Grammar
import Recurrence.Proofs.Json.Meaning
import Recurrence.Proofs.Json.Nodes
import Recurrence.Proofs.Json.Plain
import Recurrence.Proofs.Json.Reader
import Recurrence.Proofs.Json.Scalars
import Recurrence.Proofs.Json.Style
import Recurrence.Proofs.Json.Tokens
import Recurrence.Proofs.Json.Unified
import Recurrence.Proofs.Log.Root
import Recurrence.Proofs.Numeric.Binary64
import Recurrence.Proofs.Numeric.Number
import Recurrence.Proofs.Numeric.Rounding
import Recurrence.Proofs.Order
import Recurrence.Proofs.Rule.Agreement
import Recurrence.Proofs.Rule.Canonical
import Recurrence.Proofs.Rule.ClampTwice
import Recurrence.Proofs.Rule.Clamped
import Recurrence.Proofs.Rule.Reread
import Recurrence.Proofs.Rule.Respelled
import Recurrence.Proofs.Rule.Rewritten
import Recurrence.Proofs.Rule.RoundTrip
import Recurrence.Proofs.Rule.Strict
import Recurrence.Proofs.Rule.Summary
import Recurrence.Proofs.Rule.Tolerant
import Recurrence.Proofs.Rule.Verbatim
import Recurrence.Proofs.Text.Boundary
import Recurrence.Proofs.Text.Capital
import Recurrence.Proofs.Text.Numeral
import Recurrence.Proofs.Text.Steady
import Recurrence.Proofs.Text.Strip
import Recurrence.Proofs.Timestamp.Compact
import Recurrence.Proofs.Timestamp.Division
import Recurrence.Proofs.Timestamp.Iso
import Recurrence.Proofs.Timestamp.IsoPrinter
import Recurrence.Proofs.Timestamp.Survival
import Recurrence.Proofs.Yaml.Bracketed
import Recurrence.Proofs.Yaml.Flow
import Recurrence.Proofs.Yaml.FlowNode
import Recurrence.Proofs.Yaml.Meaning
import Recurrence.Proofs.Yaml.Node
import Recurrence.Proofs.Yaml.Passing
import Recurrence.Proofs.Yaml.Reader
import Recurrence.Proofs.Yaml.Token
import Recurrence.Rule.Basic
import Recurrence.Rule.Clamp
import Recurrence.Rule.Preset
import Recurrence.Rule.Reader
import Recurrence.Rule.Stored
import Recurrence.Rule.Summary
import Recurrence.Rule.Token
import Recurrence.Rule.Writer
import Recurrence.Text.Blank
import Recurrence.Text.Decimal
import Recurrence.Text.Digit
import Recurrence.Text.Printable
import Recurrence.Text.Quoted
import Recurrence.Text.Split
import Recurrence.Text.Uppercase
import Recurrence.Timestamp.Compact
import Recurrence.Timestamp.Iso
import Recurrence.Timestamp.IsoPrinter
import Recurrence.Value.Basic
import Recurrence.Value.Text
import Recurrence.Yaml.Block
import Recurrence.Yaml.Cursor
import Recurrence.Yaml.Layout
import Recurrence.Yaml.Name
import Recurrence.Yaml.Node
import Recurrence.Yaml.Plain
import Recurrence.Yaml.Quoted
import Recurrence.Yaml.Scalar
import Recurrence.Yaml.Tag
import Recurrence.Yaml.Token
import Recurrence.Yaml.Value
