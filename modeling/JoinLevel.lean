import JoinLevel.Bases.Json
import JoinLevel.Options.Json
import JoinLevel.Sample
import JoinLevel.Session
import JoinLevel.Proofs.CostOrder
import JoinLevel.Proofs.Keyed
import JoinLevel.Proofs.Results
import JoinLevel.Proofs.Selection
import JoinLevel.Proofs.Receiving
import JoinLevel.Proofs.Preservation
import JoinLevel.Proofs.Dominance
import JoinLevel.Proofs.Soundness
import JoinLevel.Proofs.SessionRuns
import JoinLevel.Proofs.Covering
import JoinLevel.Proofs.BatchMerge
import JoinLevel.Proofs.Grouping
import JoinLevel.Proofs.Pooling
import JoinLevel.Proofs.Batching
import JoinLevel.Proofs.Optimum
import JoinLevel.Proofs.SelectedBatches
import JoinLevel.Proofs.BaseSets
import JoinLevel.Proofs.SetTerms
import JoinLevel.Proofs.Numerals
import JoinLevel.Proofs.Tokens
import JoinLevel.Proofs.JsonForm
import JoinLevel.Proofs.Edges
import JoinLevel.Proofs.JoinTrees
import JoinLevel.Proofs.EdgeHistories
import JoinLevel.Proofs.CheapestScans
import JoinLevel.Proofs.VerifiedRuns
import JoinLevel.Proofs.Accounting
import JoinLevel.Proofs.Reordering
import JoinLevel.Proofs.MergeLaws
import JoinLevel.Proofs.Settling
import JoinLevel.Proofs.LevelSelection
import JoinLevel.Proofs.Refinishing
import JoinLevel.Proofs.IdentityTexts
