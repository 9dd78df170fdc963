import SentinelQuoting.NullMark.Removal
import SentinelQuoting.Session.Run
import SentinelQuoting.Proofs.Assembly
import SentinelQuoting.Proofs.CodePoints
import SentinelQuoting.Proofs.CompactionLoop
import SentinelQuoting.Proofs.Concatenation
import SentinelQuoting.Proofs.FlagFrame
import SentinelQuoting.Proofs.FullRoundTrip
import SentinelQuoting.Proofs.Image
import SentinelQuoting.Proofs.ListRoundTrip
import SentinelQuoting.Proofs.Multiplicity
import SentinelQuoting.Proofs.PassOrder
import SentinelQuoting.Proofs.Repetition
import SentinelQuoting.Proofs.Reports
import SentinelQuoting.Proofs.SelectiveLists
import SentinelQuoting.Proofs.Snapshots
import SentinelQuoting.Proofs.Strides
