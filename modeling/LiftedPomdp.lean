import LiftedPomdp.Document.Config
import LiftedPomdp.Document.Distribution
import LiftedPomdp.Document.Domain
import LiftedPomdp.Document.Instance
import LiftedPomdp.Document.Run
import LiftedPomdp.Document.Text
import LiftedPomdp.Eval.Meaning
import LiftedPomdp.Problems.Elevators
import LiftedPomdp.Problems.Recon
import LiftedPomdp.Proofs.Definition.Validation
import LiftedPomdp.Proofs.Eval.Steady
import LiftedPomdp.Proofs.Run.Replay
import LiftedPomdp.Proofs.Run.Schedule
import LiftedPomdp.Proofs.Run.StatePhase
import LiftedPomdp.Proofs.Run.Drawing
import LiftedPomdp.Proofs.Run.Lifecycle
import LiftedPomdp.Proofs.Run.Ledger
import LiftedPomdp.Proofs.Eval.Distribution
import LiftedPomdp.Proofs.Eval.Logic
import LiftedPomdp.Proofs.Run.ObservationPhase
import LiftedPomdp.Proofs.Document.Resaving
import LiftedPomdp.Proofs.Ground.Fingerprint
import LiftedPomdp.Proofs.Random.Support
import LiftedPomdp.Proofs.Ground.Extents
import LiftedPomdp.Proofs.Ground.Precedence
import LiftedPomdp.Proofs.Ground.WellFormed
import LiftedPomdp.Proofs.Run.Resolution
import LiftedPomdp.Proofs.Run.Overflow
import LiftedPomdp.Proofs.Run.Transcript
import LiftedPomdp.Proofs.Run.Constraints
import LiftedPomdp.Proofs.Run.Reordering
import LiftedPomdp.Proofs.Run.Reward
import LiftedPomdp.Proofs.Run.Wrapping
import LiftedPomdp.Proofs.Run.Lookup
import LiftedPomdp.Proofs.Problems.Elevators.Passengers
import LiftedPomdp.Proofs.Problems.Recon.Observation
import LiftedPomdp.Proofs.Run.Loading
import LiftedPomdp.Proofs.Run.Playing
import LiftedPomdp.Proofs.Eval.Counting
import LiftedPomdp.Proofs.Eval.Visits
import LiftedPomdp.Proofs.Run.Safety
import LiftedPomdp.Proofs.Eval.Hygiene
import LiftedPomdp.Proofs.Ground.Visibility
