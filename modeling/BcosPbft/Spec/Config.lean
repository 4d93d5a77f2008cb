import BcosPbft.Spec.Types
import Mathlib.Data.List.Sort

/-! `ConsensusConfig` and `PBFTConfig`: the node list and its quorum, leaders, water marks, views and the
timeout flag. Notifications to the sealer are on the node, in `BcosPbft.Spec.Node`. -/

namespace BcosPbft

/-- `NON_CONSENSUS_NODE`, which is `(IndexType)(-1)`. -/
def nonConsensusNode : IndexType := 18446744073709551615

structure Config where
  keyPair : KeyPair
  nodeIndex : IndexType := 0
  consensusNodeNum : IndexType := 0
  consensusNodeList : List ConsensusNode := []
  nodeUpdated : Bool := false
  blockTxCountLimit : UInt64 := 1000
  /-- `nullptr` until the first `resetConfig`. -/
  committedProposal : Option PBFTProposal := none
  progressedIndex : Int := 0
  syncingState : Bool := false
  syncingHighestNumber : Int := 0
  maxFaultyQuorum : UInt64 := 0
  totalQuorum : UInt64 := 0
  minRequiredQuorum : UInt64 := 0
  view : ViewType := 0
  toView : ViewType := 0
  expectedCheckPoint : Int := 0
  lowWaterMark : Int := 0
  mSealStartIndex : Int := 0
  mSealEndIndex : Int := 0
  warterMarkLimit : Int := 10
  leaderSwitchPeriod : UInt64 := 1
  timeoutState : Bool := false
  waitResealUntil : Int := 0
  waitSealUntil : Int := 0
  connectedNodeList : List NodeID := []
  startRecovered : Bool := false
  /-- Are log lines of level INFO evaluated? One of them changes a table of view changes. -/
  infoLog : Bool := true
deriving DecidableEq, Inhabited

/-- What the ledger says of a block: its number and hash, and the settings from it on. -/
structure LedgerConfig where
  blockNumber : Int
  hash : HashType
  blockTxCountLimit : UInt64 := 1000
  consensusNodeList : List ConsensusNode
  leaderSwitchPeriod : UInt64 := 1
deriving DecidableEq, Inhabited

namespace Config

def committedIndex (c : Config) : Int := c.committedProposal.elim 0 (·.index)
def committedHash (c : Config) : HashType := c.committedProposal.elim zeroHash (·.hash)

def isConsensusNode (c : Config) : Bool := c.nodeIndex ≠ nonConsensusNode

/-! ### Node list and quorum -/

def getConsensusNodeByIndex (c : Config) (i : IndexType) : Option ConsensusNode :=
  c.consensusNodeList[i.toNat]?

def indexOfFrom (nodeID : NodeID) : List ConsensusNode → IndexType → IndexType
  | [], _ => nonConsensusNode
  | n :: t, i => if n.nodeID = nodeID then i else indexOfFrom nodeID t (i + 1)

def getNodeIndexByNodeID (c : Config) (nodeID : NodeID) : IndexType :=
  indexOfFrom nodeID c.consensusNodeList 0

def compareConsensusNode (left right : List ConsensusNode) : Bool :=
  left.length = right.length && (left.zip right).all (fun p => p.1.nodeID = p.2.nodeID && p.1.weight = p.2.weight)

def updateQuorum (c : Config) : Config :=
  let totalQuorum := c.consensusNodeList.foldl (fun t n => t + n.weight) 0
  let maxFaultyQuorum := (totalQuorum - 1) / 3
  { c with totalQuorum := totalQuorum, maxFaultyQuorum := maxFaultyQuorum
           minRequiredQuorum := totalQuorum - maxFaultyQuorum }

/-- `std::sort` with `ConsensusNodeComparator`. -/
def sortNodes (E : Env) (l : List ConsensusNode) : List ConsensusNode :=
  l.insertionSort (fun a b => E.nodeLess b a = false)

/-- `ConsensusConfig::setConsensusNodeList`; an empty list throws. -/
def setConsensusNodeList (E : Env) (c : Config) (l : List ConsensusNode) : Option Config :=
  if l.length = 0 then none
  else
    let l := sortNodes E l
    if compareConsensusNode l c.consensusNodeList then some { c with nodeUpdated := false }
    else
      let c := { c with consensusNodeList := l, nodeUpdated := true, consensusNodeNum := .ofNat l.length }
      some ({ c with nodeIndex := c.getNodeIndexByNodeID c.keyPair.publicKey }.updateQuorum)

/-! ### Leaders -/

/-- The block number is converted to `uint64_t` before the division. With a period or a node number of 0 the code divides
by zero, where this is a value like any other. -/
def leaderIndexInNewViewPeriod (c : Config) (proposalIndex : Int) (view : ViewType) : IndexType :=
  (UInt64.ofInt proposalIndex / c.leaderSwitchPeriod + view) % c.consensusNodeNum

def leaderIndex (c : Config) (proposalIndex : Int) : IndexType :=
  c.leaderIndexInNewViewPeriod proposalIndex c.view

def leaderAfterViewChange (c : Config) : Bool :=
  c.nodeIndex = c.leaderIndexInNewViewPeriod c.progressedIndex c.toView

/-! ### Water marks -/

def highWaterMark (c : Config) : Int := c.progressedIndex + c.warterMarkLimit

def setLowWaterMark (c : Config) (i : Int) : Config := { c with lowWaterMark := i }

def setExpectedCheckPoint (c : Config) (i : Int) : Config :=
  { c with expectedCheckPoint := max (c.committedIndex + 1) i }

def setCommittedProposal (c : Config) (p : PBFTProposal) : Config :=
  let progressed := p.index + 1
  { c with
    committedProposal := some p
    progressedIndex := if c.progressedIndex < progressed then progressed else c.progressedIndex
    expectedCheckPoint := if progressed > c.expectedCheckPoint then progressed else c.expectedCheckPoint
    lowWaterMark := if progressed > c.lowWaterMark then progressed else c.lowWaterMark }

def sealStartIndex (c : Config) : Int :=
  match c.committedProposal with
  | some p => max c.expectedCheckPoint (p.index + 1)
  | none => c.expectedCheckPoint

def getLeader (c : Config) : IndexType := c.leaderIndex c.sealStartIndex

def canHandleNewProposal (c : Config) : Bool :=
  !(c.waitSealUntil > c.committedIndex) && !(c.waitResealUntil > c.committedIndex)

def canHandleNewProposalMsg (c : Config) (index : Int) : Bool :=
  c.canHandleNewProposal || index ≤ c.committedIndex || index ≤ c.waitSealUntil || index ≤ c.waitResealUntil

def setWaitSealUntil (c : Config) (i : Int) : Config := { c with waitSealUntil := max c.waitSealUntil i }

/-! ### Views and the timeout state -/

def resetToView (c : Config) : Config := { c with toView := c.view }

def resetTimeoutState (c : Config) : Config := { c with timeoutState := true, toView := c.toView + 1 }

def resetNewViewState (c : Config) (view : ViewType) : Config :=
  if c.view > view then c
  else { c with startRecovered := true, timeoutState := false, view := view, toView := view }

/-- `resetTimer`: besides the timer it clears the timeout state. -/
def resetTimer (c : Config) : Config := { c with timeoutState := false }

end Config

end BcosPbft
