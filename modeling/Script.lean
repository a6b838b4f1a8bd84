import Script.Main
import Script.Proofs.Alone
import Script.Proofs.Arrows
import Script.Proofs.Covered
import Script.Proofs.Early
import Script.Proofs.Grouped
import Script.Proofs.Heads
import Script.Proofs.HoleExtents
import Script.Proofs.Holes
import Script.Proofs.Indented
import Script.Proofs.Interpolation
import Script.Proofs.Json.Trimmed
import Script.Proofs.LineFeeds
import Script.Proofs.NameTokens
import Script.Proofs.NumberTokens
import Script.Proofs.OperatorTrees
import Script.Proofs.Outlines.Statement
import Script.Proofs.PlainStrings
import Script.Proofs.Plans
import Script.Proofs.Precedence
import Script.Proofs.Relexed
import Script.Proofs.Renamed
import Script.Proofs.Safety
import Script.Proofs.SameLine
import Script.Proofs.Separators
import Script.Proofs.Shifted
import Script.Proofs.Words.Statement
import Script.Tree.Nodes
import Script.Tree.Spans
