import Hsm.Checkpoint.Binary
import Hsm.Checkpoint.Json
import Hsm.Engine.Depth
import Hsm.Engine.Journal
import Hsm.Instance.Table
import Hsm.Machine.Edit
import Hsm.ParentTable
import Hsm.Program.Text
import Hsm.Proofs.Engine.Completion
import Hsm.Proofs.Engine.Configuration
import Hsm.Script
import Hsm.Validation
import Hsm.Proofs.Engine.Failures
import Hsm.Proofs.Engine.Answers
import Hsm.Proofs.Program.Specification
import Hsm.Proofs.Instance.Restoring
import Hsm.Proofs.Engine.Offers
import Hsm.Proofs.Engine.Termination
import Hsm.Proofs.Engine.Delivery
import Hsm.Proofs.Engine.External
import Hsm.Proofs.Instance.Bookkeeping
import Hsm.Proofs.Machine.Arena
import Hsm.Proofs.Machine.Freshness
import Hsm.Proofs.Engine.Recall
import Hsm.Proofs.Topology.Links
import Hsm.Proofs.Checkpoint.Json
import Hsm.Proofs.Engine.Internal
import Hsm.Proofs.Program.Entry
import Hsm.Proofs.Engine.Leaving
import Hsm.Proofs.Engine.Junctions
import Hsm.Proofs.Machine.Removal
import Hsm.Proofs.Engine.Within
import Hsm.Proofs.Engine.Inside
import Hsm.Proofs.Engine.Copies
import Hsm.Proofs.Machine.Undoing
import Hsm.Proofs.Machine.Validation
import Hsm.Proofs.Engine.Flat
import Hsm.Proofs.Forest.Order
import Hsm.Proofs.Instance.Storing
import Hsm.Proofs.Instance.Limiting
