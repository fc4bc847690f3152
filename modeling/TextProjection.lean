import TextProjection.Solo
import TextProjection.Workspace
import TextProjection.Proofs.Layout.Shows
import TextProjection.Proofs.Layout.WellFormed
import TextProjection.Proofs.Layout.Search
import TextProjection.Proofs.Layout.Image
import TextProjection.Proofs.Layout.Normal
import TextProjection.Proofs.Layout.Drift
import TextProjection.Proofs.Layout.Meeting
import TextProjection.Proofs.Layout.Hidden
import TextProjection.Proofs.Layout.Reshape
import TextProjection.Proofs.Layout.Unique
import TextProjection.Proofs.Layout.Converge
import TextProjection.Proofs.Projection.Follow
import TextProjection.Proofs.Projection.Poised
import TextProjection.Proofs.Outcome
import TextProjection.Proofs.Session.Sound
import TextProjection.Proofs.Session.Dispatch
import TextProjection.Proofs.Session.Edit
import TextProjection.Proofs.Solo
import TextProjection.Proofs.Workspace
import TextProjection.Proofs.Workspace.Alone
import TextProjection.Proofs.Session.Passive
import TextProjection.Proofs.Session.Replace
import TextProjection.Proofs.Session.Fill
import TextProjection.Proofs.Session.Reveal
import TextProjection.Proofs.Session.Moment
import TextProjection.Proofs.Session.Stems
import TextProjection.Proofs.Session.Journal
import TextProjection.Proofs.Session.Publish
import TextProjection.Proofs.Session.Busy
import TextProjection.Proofs.Session.Pending
import TextProjection.Proofs.Session.Pairing
import TextProjection.Proofs.Session.Usual
import TextProjection.Proofs.Session.Agree
import TextProjection.Proofs.Session.Union
import TextProjection.Proofs.Session.Removal
import TextProjection.Proofs.Session.Limit
import TextProjection.Proofs.Session.Restore
import TextProjection.Proofs.Session.Trailing
import TextProjection.Proofs.Session.Nested
import TextProjection.Proofs.Session.Coupling
import TextProjection.Proofs.Projection.Compose
import TextProjection.Proofs.Solo.Told
import TextProjection.Proofs.Solo.Drafts
import TextProjection.Proofs.Solo.Mirror
import TextProjection.Proofs.Session.Compose
import TextProjection.Proofs.Session.Closed
import TextProjection.Proofs.Session.Silence
import TextProjection.Proofs.Solo.Silence
import TextProjection.Proofs.Session.Alarm
import TextProjection.Proofs.Solo.Alarm
import TextProjection.Proofs.Projection.Placed
import TextProjection.Proofs.Session.Refusal
import TextProjection.Proofs.Session.Placed
import TextProjection.Proofs.Solo.Refusal
import TextProjection.Proofs.Workspace.Refusal
import TextProjection.Proofs.Session.Rounds
import TextProjection.Proofs.Session.Budget
import TextProjection.Proofs.Session.Effort
import TextProjection.Proofs.Solo.Returns
import TextProjection.Proofs.Layout.Translation
import TextProjection.Proofs.Layout.Parts
import TextProjection.Proofs.Projection.Origins
import TextProjection.Proofs.Interval.Collection
import TextProjection.Proofs.Session.Announce
import TextProjection.Proofs.Session.Reject
import TextProjection.Proofs.Overflow
import TextProjection.Proofs.Layout.Scan
