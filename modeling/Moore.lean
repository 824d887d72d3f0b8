import Moore.Bindings
import Moore.Checksum
import Moore.Command.Arguments
import Moore.Command.Basic
import Moore.Condition
import Moore.Decimal.Power
import Moore.Decimal.Reading
import Moore.Decimal.Shortest
import Moore.Definition.Basic
import Moore.Definition.Draft
import Moore.Definition.Json
import Moore.Definition.Load
import Moore.Definition.Yaml
import Moore.Diagnosis
import Moore.Diagnosis.Json
import Moore.Error
import Moore.Expr.Basic
import Moore.Expr.Error
import Moore.Expr.NormalForm
import Moore.Expr.Order
import Moore.Expr.Parser
import Moore.Expr.Printer
import Moore.Expr.Relational
import Moore.Expr.Simplify
import Moore.Expr.Substitute
import Moore.Expr.Term
import Moore.Expr.Token
import Moore.Expr.Truth
import Moore.File
import Moore.Format
import Moore.Graph
import Moore.Handle
import Moore.Identifier
import Moore.Json.Basic
import Moore.Json.Decode
import Moore.Json.Source
import Moore.Json.Writer
import Moore.Level
import Moore.Machine
import Moore.Main
import Moore.NameMap
import Moore.Ordered
import Moore.Program
import Moore.Proofs.Access
import Moore.Proofs.Assignment
import Moore.Proofs.Condition
import Moore.Proofs.Diagnosis
import Moore.Proofs.Document
import Moore.Proofs.Except
import Moore.Proofs.Expr.Canonical
import Moore.Proofs.Expr.Grammar
import Moore.Proofs.Expr.Lexeme
import Moore.Proofs.Expr.Lowering
import Moore.Proofs.Expr.NormalForm
import Moore.Proofs.Expr.Parser
import Moore.Proofs.Expr.Relational
import Moore.Proofs.Expr.Simplify
import Moore.Proofs.Expr.Substitute
import Moore.Proofs.Expr.Term
import Moore.Proofs.Expr.Truth
import Moore.Proofs.Faults
import Moore.Proofs.Graph
import Moore.Proofs.Json.Decode
import Moore.Proofs.Json.RoundTrip
import Moore.Proofs.Lookup
import Moore.Proofs.State
import Moore.Proofs.Template
import Moore.Proofs.World
import Moore.Record
import Moore.Report.Check
import Moore.Report.Condition
import Moore.Report.Transitions
import Moore.Session
import Moore.Settings.Basic
import Moore.Settings.Environment
import Moore.Settings.Json
import Moore.Settings.Load
import Moore.Settings.Yaml
import Moore.State
import Moore.State.Json
import Moore.Store
import Moore.Template
import Moore.Template.Json
import Moore.Text.Blank
import Moore.Text.Case
import Moore.Text.Paint
import Moore.Text.Quoted
import Moore.Yaml.Cursor
import Moore.Yaml.Decode
import Moore.Yaml.Node
import Moore.Yaml.Resolve
import Moore.Yaml.Text
import Moore.Yaml.Token
import Moore.Yaml.Writer
import Moore.Proofs.InPlace
import Moore.Proofs.Checks
import Moore.Proofs.History
import Moore.Proofs.Locality
import Moore.Proofs.OneLine
import Moore.Proofs.Report
import Moore.Proofs.Ordered
import Moore.Proofs.Expr.Order
import Moore.Proofs.Expr.Normal
import Moore.Proofs.Expr.Context
import Moore.Proofs.Expr.Laws
import Moore.Proofs.Knowledge
import Moore.Proofs.Expr.Forced
import Moore.Proofs.Expr.Negation
import Moore.Proofs.Expr.Irredundant
import Moore.Proofs.Expr.Distribution
import Moore.Proofs.Expr.Shape
import Moore.Proofs.Expr.Position
import Moore.Proofs.Expr.Fault
import Moore.Proofs.Expr.Malformed
import Moore.Proofs.Expr.Inputs
import Moore.Proofs.Bytes
import Moore.Proofs.Validity
import Moore.Proofs.Grouping
import Moore.Proofs.Parallel
import Moore.Proofs.NameMap
import Moore.Proofs.Expr.Minimal
import Moore.Proofs.Parts
import Moore.Proofs.Bindings
