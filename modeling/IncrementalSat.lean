import IncrementalSat.Proofs.Session.Contradiction
import IncrementalSat.Proofs.Session.PartialModels
import IncrementalSat.Proofs.Session.Termination
import IncrementalSat.Service
import IncrementalSat.Session.Buffered
import IncrementalSat.Proofs.Session.Renewal
import IncrementalSat.Proofs.Session.Rejection
import IncrementalSat.Proofs.Engine.Consistency
import IncrementalSat.Proofs.Session.Readability
import IncrementalSat.Proofs.Engine.Retention
import IncrementalSat.Proofs.Session.Finality
import IncrementalSat.Proofs.SlotMap.Basic
import IncrementalSat.Proofs.SlotMap.Refinement
import IncrementalSat.Proofs.Service.Calls
import IncrementalSat.Proofs.Service.Isolation
import IncrementalSat.Proofs.Session.Readers
import IncrementalSat.Proofs.Session.Absorption
import IncrementalSat.Proofs.Engine.Quantification
import IncrementalSat.Proofs.Session.Quantification
import IncrementalSat.Proofs.Session.Propagation
import IncrementalSat.Proofs.Session.Learning
import IncrementalSat.Proofs.Session.Transience
import IncrementalSat.Proofs.Session.Freezing
import IncrementalSat.Proofs.Branching.Activity
import IncrementalSat.Proofs.Session.Addition
import IncrementalSat.Proofs.Session.Simplification
import IncrementalSat.Proofs.Session.Bounds
import IncrementalSat.Proofs.Luby
import IncrementalSat.Proofs.Engine.Passage
import IncrementalSat.Proofs.Session.Watching
import IncrementalSat.Proofs.Session.Reasons
import IncrementalSat.Proofs.Session.Storage
import IncrementalSat.Proofs.Trail.History
