import BcosPbft.Lib.OrdMap
import BcosPbft.Spec.Codec
import BcosPbft.Spec.Config

/-! `PBFTCache`: the consensus state of one proposal index, with its three tallies. -/

namespace BcosPbft

/-- `CollectionCacheType`: the messages collected for each hash, by sender. -/
abbrev CollectionCache := OrdMap HashType (OrdMap IndexType PBFTMessage)

/-- `QuorumRecoderType`: the weight collected for each hash. -/
abbrev QuorumRecoder := OrdMap HashType UInt64

structure PBFTCache where
  index : Int
  submitted : Bool := false
  stableCommitted : Bool := false
  precommitted : Bool := false
  prepareCacheList : CollectionCache := ∅
  prepareReqWeight : QuorumRecoder := ∅
  commitCacheList : CollectionCache := ∅
  commitReqWeight : QuorumRecoder := ∅
  prePrepare : Option PBFTMessage := none
  precommit : Option PBFTMessage := none
  precommitWithoutData : Option PBFTMessage := none
  checkpointProposal : Option PBFTProposal := none
  checkpointCacheList : CollectionCache := ∅
  checkpointCacheWeight : QuorumRecoder := ∅
deriving DecidableEq

/-- What a step does that is seen from outside the functions: signatures, packets, calls of the other
modules, and the changes of the proposal caches and view changes that the invariants speak about. -/
inductive Action
  | sign (r : SignRecord)
  /-- Bytes for one node, or for every other consensus node. -/
  | send (dst : Option NodeID) (packet : Message) (data : Bytes)
  | storePrePrepare (index : Int) (m : PBFTMessage)
  | precommit (index : Int) (m : PBFTMessage)
  /-- `checkAndPreCommit` or `checkAndCommit` returned true for this cache, at this quorum. -/
  | reportCommit (c : PBFTCache) (minRequiredQuorum : UInt64)
  | eraseCache (index : Int)
  /-- View changes of these views were dropped, and the tables of maximal indices stay as they are. -/
  | dropViewChanges (views : List ViewType)
  /-- The tables of maximal indices were cleared, and view changes of these views stay. -/
  | clearIndexTables (views : List ViewType)
  | pushCommitted (p : PBFTProposal)
  | asyncApply (lastApplied proposal : PBFTProposal)
  | asyncCommitProposal (p : PBFTProposal)
  | asyncCommitStableCheckPoint (p : PBFTProposal)
  | asyncRemoveStabledCheckPoint (index : Int)
  | asyncResetTxsFlag (data : Bytes) (flag : Bool)
  | sealProposal (start finish : Int)
  | resetSealing
  | notifyCommittedProposalIndex (index : Int)
deriving DecidableEq

/-- `codec()->encode` followed by `asyncSendMessageByNodeIDs`, or `…ByNodeID` for a destination. -/
def sendActions (E : Env) (keyPair : KeyPair) (dst : Option NodeID) (msg : Message) : List Action :=
  let (data, packet, signed) := PBFTCodec.encode E keyPair 0 msg
  signed.map Action.sign ++ [.send dst packet data]

/-- The message object after `codec()->encode`. -/
def encodedMsg (E : Env) (keyPair : KeyPair) (m : PBFTMessage) : PBFTMessage := m.encode E keyPair

namespace PBFTCache

def existPrePrepare (c : PBFTCache) (m : PBFTMessage) : Bool :=
  match c.prePrepare with
  | none => false
  | some p => m.hash = p.hash && p.view ≥ m.view

/-! ### Tallies -/

def addCache (cfg : Config) (c : PBFTCache) (cached : CollectionCache) (weightInfo : QuorumRecoder)
    (m : PBFTMessage) : CollectionCache × QuorumRecoder :=
  if m.index ≠ c.index then (cached, weightInfo)
  else if ((cached.find? m.hash).bind (·.find? m.generatedFrom)).isSome then (cached, weightInfo)
  else
    match cfg.getConsensusNodeByIndex m.generatedFrom with
    | none => (cached, weightInfo)
    | some nodeInfo =>
      (cached.insert m.hash (((cached.find? m.hash).getD ∅).insert m.generatedFrom m),
        weightInfo.insert m.hash ((weightInfo.find? m.hash).getD 0 + nodeInfo.weight))

def addPrepareCache (cfg : Config) (c : PBFTCache) (m : PBFTMessage) : PBFTCache :=
  let r := addCache cfg c c.prepareCacheList c.prepareReqWeight m
  { c with prepareCacheList := r.1, prepareReqWeight := r.2 }

def addCommitCache (cfg : Config) (c : PBFTCache) (m : PBFTMessage) : PBFTCache :=
  let r := addCache cfg c c.commitCacheList c.commitReqWeight m
  { c with commitCacheList := r.1, commitReqWeight := r.2 }

def addCheckPointMsg (cfg : Config) (c : PBFTCache) (m : PBFTMessage) : PBFTCache :=
  let r := addCache cfg c c.checkpointCacheList c.checkpointCacheWeight m
  { c with checkpointCacheList := r.1, checkpointCacheWeight := r.2 }

def collectEnoughQuorum (cfg : Config) (hash : HashType) (weightInfo : QuorumRecoder) : Bool :=
  match weightInfo.find? hash with
  | none => false
  | some w => w ≥ cfg.minRequiredQuorum

def getCollectedCheckPointWeight (c : PBFTCache) (hash : HashType) : UInt64 :=
  (c.checkpointCacheWeight.find? hash).getD 0

/-! ### Pre-prepare, precommit and commit -/

/-- Does `addPrePrepareCache` replace `m_prePrepare`? -/
def acceptsPrePrepare (c : PBFTCache) (m : PBFTMessage) : Bool :=
  if c.stableCommitted then false
  else
    match c.checkpointProposal, c.prePrepare with
    | some _, some p => m.consensusProposal.map (·.hash) = p.consensusProposal.map (·.hash)
    | _, _ => true

def addPrePrepareCache (c : PBFTCache) (m : PBFTMessage) : PBFTCache × List Action :=
  if c.acceptsPrePrepare m then ({ c with prePrepare := some m }, [.storePrePrepare c.index m])
  else (c, [])

def conflictWithProcessedReq (cfg : Config) (c : PBFTCache) (m : PBFTMessage) : Bool :=
  if m.view < cfg.view then true
  else
    match c.prePrepare with
    | none => false
    | some p =>
      if m.view < p.view then true
      else if m.view = p.view then m.hash ≠ p.hash
      else false

def conflictWithPrecommitReq (cfg : Config) (c : PBFTCache) (m : PBFTMessage) : Bool :=
  match c.precommit with
  | none => false
  | some p =>
    if p.index < cfg.progressedIndex then false
    else m.index = p.index && m.hash ≠ p.hash

def checkPrePrepareProposalStatus (cfg : Config) (c : PBFTCache) : Bool :=
  match c.prePrepare with
  | none => false
  | some p => p.view = cfg.view

def collectEnoughPrepareReq (cfg : Config) (c : PBFTCache) : Bool :=
  checkPrePrepareProposalStatus cfg c &&
    c.prePrepare.any (fun p => collectEnoughQuorum cfg p.hash c.prepareReqWeight)

def collectEnoughCommitReq (cfg : Config) (c : PBFTCache) : Bool :=
  checkPrePrepareProposalStatus cfg c &&
    c.prePrepare.any (fun p => collectEnoughQuorum cfg p.hash c.commitReqWeight)

/-- `setSignatureList`: the proof is rewritten from the messages filed under the proposal's hash. -/
def setSignatureList (p : PBFTProposal) (cached : CollectionCache) : PBFTProposal :=
  ((cached.find? p.hash).getD ∅).entries.foldl
    (fun acc e => acc.appendSignatureProof e.1.toNat ((e.2.consensusProposal.map (·.signature)).getD []))
    p.clearSignatureProof

/-- The `operator[]` of `setSignatureList` creates an entry where there was none. -/
def touch (cached : CollectionCache) (hash : HashType) : CollectionCache :=
  if cached.contains hash then cached else cached.insert hash ∅

/-- `intoPrecommit`. `m_precommit` and `m_prePrepare` are the same object, so both get this node's index
and the proof; the copy without data has the hash fields as they were last encoded. -/
def intoPrecommit (E : Env) (cfg : Config) (c : PBFTCache) (m : PBFTMessage) (p : PBFTProposal) : PBFTCache :=
  let p' := setSignatureList p c.prepareCacheList
  let m' := (m.setGeneratedFrom cfg.nodeIndex).setConsensusProposal p'
  let withoutData := ((m'.populateWithoutProposal E).getD {}).setConsensusProposal (populateProposal p' false)
  { c with prePrepare := some m', precommit := some m', precommitWithoutData := some withoutData
           prepareCacheList := touch c.prepareCacheList p.hash }

def checkAndCommit (cfg : Config) (c : PBFTCache) : PBFTCache × Bool :=
  if c.submitted then (c, false)
  else if c.precommit.isNone then (c, false)
  else if !collectEnoughCommitReq cfg c then (c, false)
  else ({ c with submitted := true }, true)

def precommitIsCurrent (c : PBFTCache) : Bool :=
  match c.precommit, c.prePrepare with
  | some p, some q => p.view ≥ q.view
  | _, _ => false

/-- The commit vote of `checkAndPreCommit`, on the proposal without data. -/
def commitVote (E : Env) (cfg : Config) (now : Int) (p : PBFTProposal) : PBFTMessage :=
  populateVote E cfg.keyPair .CommitPacket 0 cfg.view now cfg.nodeIndex (populateProposal p false)

/-- `checkAndPreCommit`. The vote that goes into the tally is the object that `encode` completes. -/
def checkAndPreCommit (E : Env) (cfg : Config) (now : Int) (c : PBFTCache) : PBFTCache × Bool × List Action :=
  if c.precommitted then (c, false, [])
  else if c.precommitIsCurrent then (c, false, [])
  else if !collectEnoughPrepareReq cfg c then (c, false, [])
  else
    match c.prePrepare with
    | none => (c, false, [])
    | some m =>
      match m.consensusProposal with
      | none => (c, false, [])
      | some p =>
        let c := intoPrecommit E cfg c m p
        let vote := commitVote E cfg now p
        let c := { c.addCommitCache cfg (encodedMsg E cfg.keyPair vote) with precommitted := true }
        let r := checkAndCommit cfg c
        (r.1, r.2, .precommit c.index m :: .sign (.proposal p.hash) :: sendActions E cfg.keyPair none (.pbft vote))

def shouldStopTimer (cfg : Config) (c : PBFTCache) : Bool :=
  if c.index ≤ cfg.committedIndex then true else c.submitted

/-! ### View change -/

def resetCacheAfterViewChange (cached : CollectionCache) (curView : ViewType) : CollectionCache :=
  (cached.mapVal (fun _ l => l.filter (fun _ m => !(m.view < curView)))).filter (fun _ l => l.entries ≠ [])

def recalculateQuorum (cfg : Config) (cached : CollectionCache) : QuorumRecoder :=
  cached.mapVal fun _ l => l.entries.foldl (fun w e =>
    match cfg.getConsensusNodeByIndex e.2.generatedFrom with
    | none => w
    | some nodeInfo => w + nodeInfo.weight) 0

def resetCache (cfg : Config) (c : PBFTCache) (curView : ViewType) : PBFTCache × List Action :=
  let prepares := resetCacheAfterViewChange c.prepareCacheList curView
  let commits := resetCacheAfterViewChange c.commitCacheList curView
  let actions :=
    match c.precommit, c.prePrepare with
    | none, some m =>
      match m.consensusProposal with
      | some p => if m.view < curView then [Action.asyncResetTxsFlag p.data false] else []
      | none => []
    | _, _ => []
  ({ c with submitted := false, precommitted := false
            prepareCacheList := prepares, prepareReqWeight := recalculateQuorum cfg prepares
            commitCacheList := commits, commitReqWeight := recalculateQuorum cfg commits }, actions)

/-! ### Checkpoints -/

def setCheckPointProposal (cfg : Config) (c : PBFTCache) (p : PBFTProposal) : PBFTCache :=
  if p.index ≤ cfg.committedIndex then c
  else if p.index ≠ c.index then c
  else { c with checkpointProposal := some p }

def collectEnoughCheckpoint (cfg : Config) (c : PBFTCache) : Bool :=
  c.checkpointProposal.any (fun p => collectEnoughQuorum cfg p.hash c.checkpointCacheWeight)

def checkAndCommitStableCheckPoint (cfg : Config) (c : PBFTCache) : PBFTCache × Bool :=
  if c.stableCommitted || !collectEnoughCheckpoint cfg c then (c, false)
  else
    match c.checkpointProposal with
    | none => (c, false)
    | some p =>
      let p' := setSignatureList p c.checkpointCacheList
      ({ c with checkpointProposal := some p', stableCommitted := true }, !(cfg.committedIndex ≥ p'.index))

end PBFTCache

end BcosPbft
