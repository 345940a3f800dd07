import TapeMachine.Definition.Written
import TapeMachine.Execution.Event
import TapeMachine.Json.Reader
import TapeMachine.Workbench.Screen
import TapeMachine.Main
import TapeMachine.Proofs.Execution.Budget
import TapeMachine.Proofs.Execution.Calls
import TapeMachine.Proofs.Execution.Chunks
import TapeMachine.Proofs.Execution.Consulted
import TapeMachine.Proofs.Execution.Log
import TapeMachine.Proofs.Execution.LookAhead
import TapeMachine.Proofs.Execution.Placement
import TapeMachine.Proofs.Execution.Reflection
import TapeMachine.Proofs.Definition.Conformance
import TapeMachine.Proofs.Definition.ErrorPlaces
import TapeMachine.Proofs.Definition.Image
import TapeMachine.Proofs.Definition.Redefinition
import TapeMachine.Proofs.Definition.Relaid
import TapeMachine.Proofs.Definition.Specimen
import TapeMachine.Proofs.Definition.Strictness
import TapeMachine.Proofs.Definition.Verdict
import TapeMachine.Proofs.Finding.Declared
import TapeMachine.Proofs.Finding.Hang
import TapeMachine.Proofs.Finding.Listing
import TapeMachine.Proofs.Finding.Unreachable
import TapeMachine.Proofs.Json.Faithful
import TapeMachine.Proofs.Catalogue.ParkHead
import TapeMachine.Proofs.Catalogue.Scanners
import TapeMachine.Proofs.Catalogue.TrailingAs
import TapeMachine.Proofs.CommandLine.Failure
import TapeMachine.Proofs.CommandLine.JsonReport
import TapeMachine.Proofs.CommandLine.Trace
import TapeMachine.Proofs.Loading
import TapeMachine.Proofs.Report.Recovery
import TapeMachine.Proofs.Table
import TapeMachine.Proofs.Workbench.AutoPlay
import TapeMachine.Proofs.Workbench.StepLimit
import TapeMachine.Proofs.Workbench.Soundness
