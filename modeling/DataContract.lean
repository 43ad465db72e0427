import DataContract.Binary64.Basic
import DataContract.Binary64.Shortest
import DataContract.Choices
import DataContract.Combination
import DataContract.CommandLine.Answer
import DataContract.CommandLine.Arguments
import DataContract.CommandLine.Run
import DataContract.Config
import DataContract.Containment
import DataContract.Containment.Structure
import DataContract.Containment.Xml
import DataContract.Decimal.Basic
import DataContract.Decimal.Reading
import DataContract.Document
import DataContract.Engine
import DataContract.Engine.Budget
import DataContract.Error
import DataContract.Fields
import DataContract.Format.Base64
import DataContract.Format.CalendarDate
import DataContract.Format.Email
import DataContract.Format.Timestamp
import DataContract.Format.Uuid
import DataContract.Generation
import DataContract.Json.Basic
import DataContract.Json.Number
import DataContract.Json.Printer
import DataContract.Json.Reader
import DataContract.LazyList
import DataContract.Main
import DataContract.MatchResult
import DataContract.Matching
import DataContract.Matching.Structure
import DataContract.Matching.Union
import DataContract.Matching.Xml
import DataContract.Name
import DataContract.NegativePolicy
import DataContract.Negatives
import DataContract.Outcome
import DataContract.Pattern.Basic
import DataContract.Pattern.Shape
import DataContract.Pattern.Token
import DataContract.Proofs.Acceptance
import DataContract.Proofs.Agreement.Budget
import DataContract.Proofs.Agreement.Containment
import DataContract.Proofs.Agreement.Matching
import DataContract.Proofs.Agreement.Xml
import DataContract.Proofs.AliasChains
import DataContract.Proofs.Binary64.Rounding
import DataContract.Proofs.Binary64.Shortest
import DataContract.Proofs.Closed.Contracts
import DataContract.Proofs.Closed.Documents
import DataContract.Proofs.Closed.Errors
import DataContract.Proofs.Closed.Messages
import DataContract.Proofs.Closed.References
import DataContract.Proofs.Closed.Variants
import DataContract.Proofs.Closed.Verdicts
import DataContract.Proofs.Combinations.Odometer
import DataContract.Proofs.Combinations.Phases
import DataContract.Proofs.Combinations.Repetitions
import DataContract.Proofs.Containment.Arrays
import DataContract.Proofs.Containment.Enumerations
import DataContract.Proofs.Containment.Nullable
import DataContract.Proofs.Containment.Reflexivity
import DataContract.Proofs.Containment.Repetitions
import DataContract.Proofs.Containment.Resemblance
import DataContract.Proofs.Containment.Soundness
import DataContract.Proofs.Containment.Stacks
import DataContract.Proofs.Containment.Structures
import DataContract.Proofs.Containment.Texts
import DataContract.Proofs.DecimalOrder
import DataContract.Proofs.Digits
import DataContract.Proofs.Enumerations
import DataContract.Proofs.Everywhere
import DataContract.Proofs.Fillings
import DataContract.Proofs.Formats
import DataContract.Proofs.Generation.Draws
import DataContract.Proofs.Generation.Errors
import DataContract.Proofs.Generation.Inhabited
import DataContract.Proofs.Generation.Numbers
import DataContract.Proofs.Generation.References
import DataContract.Proofs.Generation.Scalars
import DataContract.Proofs.Generation.Soundness
import DataContract.Proofs.Generation.Structures
import DataContract.Proofs.JsonNumbers
import DataContract.Proofs.JsonRoundTrip
import DataContract.Proofs.Keys
import DataContract.Proofs.Layer
import DataContract.Proofs.Negatives.Containment
import DataContract.Proofs.Negatives.Encoded
import DataContract.Proofs.Negatives.Policies
import DataContract.Proofs.Negatives.Soundness
import DataContract.Proofs.Negatives.Structures
import DataContract.Proofs.Negatives.Unions
import DataContract.Proofs.ObjectKeys
import DataContract.Proofs.Outcomes
import DataContract.Proofs.PatternEquality
import DataContract.Proofs.Ranges
import DataContract.Proofs.Reading
import DataContract.Proofs.Reading.Examples
import DataContract.Proofs.Reading.Literals
import DataContract.Proofs.Reports.Exactness
import DataContract.Proofs.Reports.Lines
import DataContract.Proofs.Reports.Violations
import DataContract.Proofs.Resolution
import DataContract.Proofs.Rows
import DataContract.Proofs.Selections
import DataContract.Proofs.Shapes.Literals
import DataContract.Proofs.Shapes.Plain
import DataContract.Proofs.Termination.Budget
import DataContract.Proofs.Termination.Containment
import DataContract.Proofs.Termination.Depth
import DataContract.Proofs.Termination.Generation
import DataContract.Proofs.Termination.Guarded
import DataContract.Proofs.Termination.Steps
import DataContract.Proofs.Termination.Texts
import DataContract.Proofs.Texts
import DataContract.Proofs.Tokens.Decoding
import DataContract.Proofs.Tokens.Grammar
import DataContract.Proofs.Unions
import DataContract.Proofs.ValueEquality
import DataContract.Proofs.Variants.Arrays
import DataContract.Proofs.Variants.Inhabited
import DataContract.Proofs.Variants.Objects
import DataContract.Proofs.Variants.Repetitions
import DataContract.Proofs.Variants.Skipped
import DataContract.Proofs.Variants.Soundness
import DataContract.Proofs.Variants.Structures
import DataContract.Proofs.Verdict
import DataContract.Proofs.Xml.Containment
import DataContract.Proofs.Xml.Elements
import DataContract.Proofs.Xml.Generation
import DataContract.Proofs.Xml.Negatives
import DataContract.Proofs.Xml.Runs
import DataContract.Proofs.Xml.Soundness
import DataContract.Proofs.Xml.Splittings
import DataContract.Proofs.Xml.Texts
import DataContract.Reading
import DataContract.Resolver
import DataContract.Row
import DataContract.Scalar.Basic
import DataContract.Scalar.Containment
import DataContract.Scalar.Matching
import DataContract.Settings
import DataContract.Slots
import DataContract.Text.Alphanumeric
import DataContract.Text.Blank
import DataContract.Text.Split
import DataContract.Toml.Basic
import DataContract.Toml.Reader
import DataContract.Value.Basic
import DataContract.Value.Json
import DataContract.Value.Text
import DataContract.Variants
import DataContract.Variants.Example
