import Turnstile.Batch
import Turnstile.Coverage.Record
import Turnstile.Dispatch
import Turnstile.Grammar.Program
import Turnstile.Json.Reader
import Turnstile.Main
import Turnstile.Report.Diagnostics
import Turnstile.Proofs.Program.JumpTargets
import Turnstile.Proofs.Emit.LinePreservation
import Turnstile.Proofs.Source.InterpreterLine
import Turnstile.Proofs.Json.ReadBack
import Turnstile.Proofs.Coverage.Completeness
import Turnstile.Proofs.Coverage.WireForm
import Turnstile.Proofs.Emit.PreambleLiterals
import Turnstile.Proofs.Coverage.Sharding
import Turnstile.Proofs.Coverage.MergeLaws
import Turnstile.Proofs.Batch.Steps
import Turnstile.Proofs.Report.Scopes
import Turnstile.Proofs.Batch.Delivery
import Turnstile.Proofs.Emit.Product
import Turnstile.Proofs.Session.LastSuccess
import Turnstile.Proofs.Session.Wrapping
import Turnstile.Proofs.CommandLine.Independence
import Turnstile.Proofs.CommandLine.Accounting
import Turnstile.Proofs.Emit.Interlacing
import Turnstile.Proofs.Source.PositionOrder
import Turnstile.Proofs.Program.Chains
import Turnstile.Proofs.Program.Levels
import Turnstile.Proofs.Program.PlainWalks
import Turnstile.Proofs.Source.EmbeddedLines
import Turnstile.Proofs.Options.Overriding
import Turnstile.Proofs.Dispatch.History
import Turnstile.Proofs.Program.Declarations
import Turnstile.Proofs.Program.SyntaxErrors
import Turnstile.Proofs.Options.TraceVariable
import Turnstile.Proofs.Coverage.Atomicity
import Turnstile.Proofs.Coverage.Growth
import Turnstile.Proofs.Emit.Layouts
import Turnstile.Proofs.Report.Releases
import Turnstile.Proofs.Program.SourceOrder
import Turnstile.Proofs.Batch.Attribution
