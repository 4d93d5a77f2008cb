import BcosPbft.Lib.OrdMap
import BcosPbft.Spec.Codec
import BcosPbft.Spec.Node
import BcosPbft.Spec.Engine
import BcosPbft.Spec.Step
import BcosPbft.Lib.Quorum
import BcosPbft.Lib.Ballot
import BcosPbft.Proofs.NodeList
import BcosPbft.Lib.Serial
import BcosPbft.Spec.Toy
import BcosPbft.Proofs.Certificate
import BcosPbft.Lib.Labelled
import BcosPbft.Proofs.Refine
import BcosPbft.Proofs.Handlers
import BcosPbft.Proofs.NewView
import BcosPbft.Proofs.Lock
import BcosPbft.Proofs.CheckPoint
import BcosPbft.Proofs.Authenticity
import BcosPbft.Proofs.Tally
import BcosPbft.Spec.World
import BcosPbft.Proofs.Agreement
import BcosPbft.Lib.Trail
import BcosPbft.Proofs.Views
import BcosPbft.Proofs.Prepare
import BcosPbft.Proofs.Execution
import BcosPbft.Proofs.Parents
import BcosPbft.Proofs.CommitQueue
import BcosPbft.Proofs.PrePrepareList
import BcosPbft.Proofs.Binding
import BcosPbft.Proofs.Pipeline
import BcosPbft.Proofs.Submission
import BcosPbft.Proofs.ViewTally
import BcosPbft.Proofs.ViewOrder
import BcosPbft.Proofs.NewViewOnce
import BcosPbft.Proofs.Voting
import BcosPbft.Proofs.Barrier
import BcosPbft.Proofs.Silence
import BcosPbft.Proofs.Leaders
import BcosPbft.Spec.LedgerStorage
import BcosPbft.Proofs.Recovery
import BcosPbft.Spec.Restart
import BcosPbft.Proofs.Watermark
import BcosPbft.Proofs.Window
import BcosPbft.Proofs.Reseal
import BcosPbft.Proofs.Reproposal
import BcosPbft.Proofs.Rejection
import BcosPbft.Proofs.CommitFailure
import BcosPbft.Proofs.Purge
import BcosPbft.Proofs.Restart
import BcosPbft.Proofs.Retry
import BcosPbft.Proofs.Resetting
import BcosPbft.Proofs.Selection
import BcosPbft.Proofs.RoundTrip
import BcosPbft.Proofs.Refill
import BcosPbft.Proofs.Fetch
import BcosPbft.Proofs.TallyExact
import BcosPbft.Proofs.Standing
import BcosPbft.Proofs.Confluence
import BcosPbft.Proofs.FastViewChange
import BcosPbft.Proofs.LogLevel
import BcosPbft.Proofs.Release
import BcosPbft.Spec.StateMachine
import BcosPbft.Proofs.Holder
import BcosPbft.Proofs.Dereference
import BcosPbft.Proofs.ProofBounds
import BcosPbft.Proofs.RequestRange
import BcosPbft.Proofs.Report
import BcosPbft.Proofs.Rotation
import BcosPbft.Proofs.SealRange
import BcosPbft.Proofs.Acceptance
import BcosPbft.Proofs.Availability
import BcosPbft.Lib.Replay
import BcosPbft.Proofs.Replication
import BcosPbft.Proofs.StableBlock
import BcosPbft.Proofs.Prompt
import BcosPbft.Proofs.Progress
