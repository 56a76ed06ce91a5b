import Unnest.Pipeline.Process
import Unnest.Proofs.Flatten.Account
import Unnest.Proofs.Flatten.Again
import Unnest.Proofs.Flatten.Joined
import Unnest.Proofs.Flatten.Reread
import Unnest.Proofs.Flatten.Shells
import Unnest.Proofs.Pipeline.Outcome
import Unnest.Proofs.Selector.Regroup
import Unnest.Proofs.Selector.Split
import Unnest.Proofs.Sheet.Attached
import Unnest.Proofs.Sheet.Defects
import Unnest.Proofs.Sheet.DepthFirst
import Unnest.Proofs.Sheet.Move
import Unnest.Proofs.Source.Assemble
import Unnest.Proofs.Source.Colon
import Unnest.Proofs.Source.Concat
import Unnest.Proofs.Source.Culprit
import Unnest.Proofs.Source.Progress
import Unnest.Proofs.Source.Shape
