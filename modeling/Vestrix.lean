import Vestrix.Rounding.Shortest
import Vestrix.Text.Digits
import Vestrix.Json.Tree
import Vestrix.Json.Literal
import Vestrix.Json.Number
import Vestrix.Json.Grammar
import Vestrix.Json.FloatText
import Vestrix.Verifier.FloatFormat
import Vestrix.Verifier.Canonical
import Vestrix.Text.Lines
import Vestrix.Verifier.Unambiguous
import Vestrix.Python.Json
import Vestrix.Forensics.Format
import Vestrix.Record.Schema
import Vestrix.Forensics.Validation
import Vestrix.Forensics.Logger
import Vestrix.Forensics.Store
import Vestrix.Record.HashChain
import Vestrix.Interop.Values
import Vestrix.Verifier.Chain
import Vestrix.Verifier.Schema
import Vestrix.Transition
import Vestrix.Effects
import Vestrix.Forensics.Keys
import Vestrix.Collector.Enrollment
import Vestrix.Collector.Reload
import Vestrix.Collector.Payload
import Vestrix.Collector.Ingest
import Vestrix.Collector.Socket
import Vestrix.Collector.Sequence
import Vestrix.Anchor.Lifecycle
import Vestrix.Anchor.Steps
import Vestrix.Anchor.Invariant
import Vestrix.Anchor.Overlap
import Vestrix.Anchor.Failures
import Vestrix.Anchor.Crash
import Vestrix.Interop.Records
import Vestrix.Interop.Chains
import Vestrix.Verifier.Acceptance
import Vestrix.Interop.Ingestion
import Vestrix.Forensics.History
import Vestrix.Verifier.Anchor
import Vestrix.Interop.Anchored
import Vestrix.Verifier.Retained
import Vestrix.Forensics.Records
import Vestrix.Forensics.Unforgeable
import Vestrix.Forensics.Writers
import Vestrix.Interop.Completeness
import Vestrix.Interop.Schemas
import Vestrix.Verifier.FloatReading
import Vestrix.Verifier.FloatRendering
import Vestrix.Verifier.Faults
import Vestrix.Interop.Tips
import Vestrix.Anchor.Backoff
import Vestrix.Verifier.Verdict
import Vestrix.Forensics.Escapes
import Vestrix.Verifier.Cursor
import Vestrix.Verifier.Varuint
import Vestrix.Anchor.Table
import Vestrix.Anchor.Upgrade
import Vestrix.Anchor.Isolation
import Vestrix.Anchor.Schedule
import Vestrix.Soc.Escapes
import Vestrix.FileSystem
import Vestrix.Anchor.Publish
import Vestrix.Interop.Accepted
import Vestrix.Interop.Pipeline
import Vestrix.Anchor.Recovery
import Vestrix.Anchor.Pacing
import Vestrix.Json.Ascii
import Vestrix.Json.Within
import Vestrix.Python.Ascii
import Vestrix.Collector.AuditLog
import Vestrix.Collector.LogLines
import Vestrix.Collector.Shutdown
import Vestrix.Anchor.Stamp
import Vestrix.Collector.Config
import Vestrix.Verifier.Cli
import Vestrix.Verifier.Printed
