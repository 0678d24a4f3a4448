import Multicycle.Json.Reader
import Multicycle.Machine
import Multicycle.Proofs.Accounting
import Multicycle.Proofs.Arithmetic
import Multicycle.Proofs.Atomicity
import Multicycle.Proofs.Chronicle
import Multicycle.Proofs.Coherence
import Multicycle.Proofs.Columns
import Multicycle.Proofs.Consistency
import Multicycle.Proofs.Constants
import Multicycle.Proofs.DataMiss
import Multicycle.Proofs.Decimal
import Multicycle.Proofs.Decoding
import Multicycle.Proofs.Document
import Multicycle.Proofs.Drivers
import Multicycle.Proofs.Encoding
import Multicycle.Proofs.Gathering
import Multicycle.Proofs.Grammar
import Multicycle.Proofs.HiddenState
import Multicycle.Proofs.Immediate
import Multicycle.Proofs.InFlight
import Multicycle.Proofs.LastWrite
import Multicycle.Proofs.Latches
import Multicycle.Proofs.Lexing
import Multicycle.Proofs.Loading
import Multicycle.Proofs.Modified
import Multicycle.Proofs.Naming
import Multicycle.Proofs.Overrides
import Multicycle.Proofs.Parity
import Multicycle.Proofs.Parking
import Multicycle.Proofs.Parsing
import Multicycle.Proofs.Phases
import Multicycle.Proofs.Placement
import Multicycle.Proofs.Precision
import Multicycle.Proofs.Reachable
import Multicycle.Proofs.Reading
import Multicycle.Proofs.Record
import Multicycle.Proofs.Refinement
import Multicycle.Proofs.Rejection
import Multicycle.Proofs.Rendering
import Multicycle.Proofs.Runs
import Multicycle.Proofs.Script
import Multicycle.Proofs.Semantics
import Multicycle.Proofs.Snapshot
import Multicycle.Proofs.Storage
import Multicycle.Proofs.Termination
import Multicycle.Proofs.Tick
import Multicycle.Proofs.Traffic
import Multicycle.Proofs.Walks
import Multicycle.Proofs.Wiring
import Multicycle.Register.Table
