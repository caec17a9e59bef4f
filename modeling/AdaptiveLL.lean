import AdaptiveLL.Batch
import AdaptiveLL.Proofs.Cycles
import AdaptiveLL.Proofs.Intervals.Terms
import AdaptiveLL.Proofs.Layout.WellFormed
import AdaptiveLL.Proofs.LeftCycle
import AdaptiveLL.Proofs.Lookahead.Agreement
import AdaptiveLL.Proofs.Lookahead.Finite
import AdaptiveLL.Proofs.Merging
import AdaptiveLL.Proofs.Operator.Grouping
import AdaptiveLL.Proofs.OperatorLanguage
import AdaptiveLL.Proofs.Parser.Log
import AdaptiveLL.Proofs.Parser.Options
import AdaptiveLL.Proofs.Parser.Recoveries
import AdaptiveLL.Proofs.Parser.Retelling
import AdaptiveLL.Proofs.Pattern.Nullable
import AdaptiveLL.Proofs.Prediction.Conflicts
import AdaptiveLL.Proofs.Prediction.Exits
import AdaptiveLL.Proofs.Prediction.Expected
import AdaptiveLL.Proofs.Prediction.Termination
import AdaptiveLL.Proofs.Recovery.Alignment
import AdaptiveLL.Proofs.Recovery.Edits
import AdaptiveLL.Proofs.Stream.Cursor
import AdaptiveLL.Proofs.TreeBuilding
import AdaptiveLL.Proofs.Vocabulary.Tables
import AdaptiveLL.Script
