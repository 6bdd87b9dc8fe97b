import ElispBridge.Power
import ElispBridge.Text.Digit
import ElispBridge.Text.Blank
import ElispBridge.Text.Quoted
import ElispBridge.Text.Diagnostic
import ElispBridge.Binary64.Basic
import ElispBridge.Binary64.Text
import ElispBridge.Expr.Basic
import ElispBridge.Expr.Render
import ElispBridge.Json.Basic
import ElispBridge.Json.Document
import ElispBridge.Json.Number
import ElispBridge.Convert.Options
import ElispBridge.Convert.Settings
import ElispBridge.Convert.Dictionary
import ElispBridge.Convert.Key
import ElispBridge.Convert.HostValue
import ElispBridge.Convert.Shape
import ElispBridge.Build.Call
import ElispBridge.Build.Source
import ElispBridge.Build.Snippet
import ElispBridge.Toml.Basic
import ElispBridge.Toml.Scalar
import ElispBridge.Toml.Quoted
import ElispBridge.Toml.Document
import ElispBridge.Evaluation.Path
import ElispBridge.Evaluation.Files
import ElispBridge.Evaluation.TemporaryFiles
import ElispBridge.Evaluation.Error
import ElispBridge.Evaluation.Config
import ElispBridge.Evaluation.Options
import ElispBridge.Evaluation.Settings
import ElispBridge.Evaluation.Request
import ElispBridge.Evaluation.Session
import ElispBridge.Proofs.Text.Spelling
import ElispBridge.Proofs.Text.Framing
import ElispBridge.Proofs.Binary64.Token
import ElispBridge.Proofs.Datum.Reader
import ElispBridge.Proofs.Datum.Render
import ElispBridge.Proofs.Text.Printed
import ElispBridge.Proofs.Evaluation.FileRoundTrip
import ElispBridge.Proofs.Evaluation.Route
import ElispBridge.Proofs.Evaluation.Delivery
import ElispBridge.Proofs.Convert.Parts
import ElispBridge.Proofs.Convert.Agreement
import ElispBridge.Proofs.Text.Grammar
import ElispBridge.Proofs.Convert.Printing
import ElispBridge.Proofs.Evaluation.CaughtResult
import ElispBridge.Proofs.Evaluation.Decision
import ElispBridge.Proofs.Expr.FlatQuotes
import ElispBridge.Proofs.Evaluation.Surroundings
import ElispBridge.Proofs.Expr.Reachable
import ElispBridge.Proofs.Datum.Evaluation
import ElispBridge.Proofs.Convert.Refusal
import ElispBridge.Proofs.Evaluation.History
import ElispBridge.Proofs.Expr.Erasure
import ElispBridge.Proofs.Convert.DictionaryKeys
import ElispBridge.Proofs.Convert.MapRun
import ElispBridge.Proofs.Build.Steps
import ElispBridge.Proofs.Build.FormText
import ElispBridge.Proofs.Convert.Lookup
import ElispBridge.Proofs.Text.CodePoint
import ElispBridge.Proofs.Datum.Document
import ElispBridge.Proofs.Binary64.Magnitude
import ElispBridge.Proofs.Binary64.Rounding
import ElispBridge.Proofs.Binary64.Shortest
import ElispBridge.Proofs.Binary64.Decimal
import ElispBridge.Proofs.Binary64.Ratio
import ElispBridge.Proofs.Evaluation.Sending
