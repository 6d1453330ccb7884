import FetchExecute.Engine
import FetchExecute.Main
import FetchExecute.Proofs.Atomicity
import FetchExecute.Proofs.Faults
import FetchExecute.Proofs.Populated
import FetchExecute.Proofs.Refinement
import FetchExecute.Proofs.Trace
import FetchExecute.Proofs.Batch
import FetchExecute.Proofs.Catalog
import FetchExecute.Proofs.Presentation
import FetchExecute.Proofs.Dialogue
import FetchExecute.Proofs.Stepping
import FetchExecute.Proofs.Exit
import FetchExecute.Proofs.Reading
import FetchExecute.Proofs.Script
import FetchExecute.Proofs.Modes
import FetchExecute.Proofs.Split
import FetchExecute.Proofs.Prompt
import FetchExecute.Proofs.Grammar
import FetchExecute.Proofs.Selection
import FetchExecute.Proofs.Assignment
import FetchExecute.Proofs.Defect
import FetchExecute.Proofs.Causality
import FetchExecute.Proofs.Placement
import FetchExecute.Proofs.UnitStatus
import FetchExecute.Proofs.Description
import FetchExecute.Proofs.Disassembly
import FetchExecute.Proofs.Loading
import FetchExecute.Proofs.Snapshot
import FetchExecute.Proofs.Wrapping
import FetchExecute.Proofs.Screen
import FetchExecute.Proofs.Alignment
import FetchExecute.Proofs.Recall
import FetchExecute.Proofs.Pattern
