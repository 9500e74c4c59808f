import SelfLambda.Main
import SelfLambda.Partition
import SelfLambda.Region
import SelfLambda.Text.Cursor
import SelfLambda.Proofs.Closure.BinderNames
import SelfLambda.Proofs.Closure.Calls
import SelfLambda.Proofs.Closure.Conversion
import SelfLambda.Proofs.Closure.Erasure
import SelfLambda.Proofs.Closure.Irrelevance
import SelfLambda.Proofs.Closure.Reachability
import SelfLambda.Proofs.Closure.WeakResult
import SelfLambda.Proofs.Index.Algebra
import SelfLambda.Proofs.Module.Concatenation
import SelfLambda.Proofs.Module.Directory
import SelfLambda.Proofs.Module.Persistence
import SelfLambda.Proofs.Module.Scoping
import SelfLambda.Proofs.Parser.Restoration
import SelfLambda.Proofs.Partition.Effect
import SelfLambda.Proofs.Partition.Ranks
import SelfLambda.Proofs.RadixArray.Versions
import SelfLambda.Proofs.Region.Accounting
import SelfLambda.Proofs.Session
