import BcosPbft.Spec.Node

/-! The message handlers of `PBFTEngine` and what they call back into. A function that can dereference a
null pointer or read past the end of a list returns an `Option`; `none` is the crash of the process. -/

namespace BcosPbft

/-- `verifySignature` of the class of the message. -/
def Message.verifySignature (E : Env) (publicKey : NodeID) : Message → Bool
  | .pbft m => m.verifySignature E publicKey
  | .viewChange m => m.verifySignature E publicKey
  | .newView m => m.verifySignature E publicKey
  | .request m => E.crypto.verify publicKey (toHash m.base.signatureHash) m.base.signatureData

namespace Node

/-! ### Checks -/

def checkPBFTMsgState (s : Node) (m : PBFTMessage) : Bool :=
  if m.consensusProposal.isNone then false
  else if m.index < s.cfg.lowWaterMark || m.index < s.cfg.expectedCheckPoint ||
      m.index ≥ s.cfg.highWaterMark || m.index ≤ s.cfg.syncingHighestNumber then false
  else if m.view < s.cfg.view then false
  else true

def checkPrePrepareMsg (s : Node) (m : PBFTMessage) : Bool :=
  if !s.checkPBFTMsgState m then false
  else if s.existPrePrepare m then false
  else if s.conflictWithProcessedReq m then false
  else if s.conflictWithPrecommitReq m then false
  else true

def checkSignature (E : Env) (s : Node) (req : Message) : Bool :=
  match s.cfg.getConsensusNodeByIndex req.base.generatedFrom with
  | none => false
  | some nodeInfo => req.verifySignature E nodeInfo.nodeID

def checkProposalSignature (E : Env) (s : Node) (generatedFrom : IndexType) (p : Option PBFTProposal) : Bool :=
  match p with
  | none => false
  | some p =>
    if p.signature.length = 0 then false
    else
      match s.cfg.getConsensusNodeByIndex generatedFrom with
      | none => false
      | some nodeInfo => E.crypto.verify nodeInfo.nodeID p.hash p.signature

def isSyncingHigher (s : Node) : Bool :=
  !(s.cfg.syncingHighestNumber < s.cfg.committedIndex + s.cfg.warterMarkLimit)

/-! ### Pre-prepare and prepare -/

/-- The prepare vote for a stored pre-prepare: it votes for the proposal's hash at the message's index. -/
def prepareVote (E : Env) (s : Node) (m : PBFTMessage) : PBFTMessage :=
  (populateVote E s.cfg.keyPair .PreparePacket 0 s.cfg.view s.utcTime s.cfg.nodeIndex
    (m.consensusProposal.getD {})).setIndex m.index

def broadcastPrepareMsg (E : Env) (s : Node) (m : PBFTMessage) : Node :=
  let vote := s.prepareVote E m
  let s := s.addPrepareCache (encodedMsg E s.cfg.keyPair vote)
  let s := s.emit (.sign (.proposal (m.consensusProposal.getD {}).hash) ::
    sendActions E s.cfg.keyPair none (.pbft vote))
  s.checkAndPreCommit E

/-- `handlePrePrepareMsg`; `verifyProposal` answers with the event `proposalVerified`. -/
def handlePrePrepareMsg (E : Env) (s : Node) (m : PBFTMessage) (needVerifyProposal : Bool)
    (generatedFromNewView : Bool := false) (needCheckSignature : Bool := true) : Node × Bool :=
  if s.isSyncingHigher then (s, false)
  else if s.executingProposals.contains m.hash then (s, false)
  else if !s.checkPrePrepareMsg m then (s, false)
  else if !generatedFromNewView && s.cfg.leaderIndex m.index ≠ m.generatedFrom then (s, false)
  else if !generatedFromNewView && needCheckSignature && !s.checkSignature E (.pbft m) then
    (s.notifySealer m.index true, false)
  else if !needVerifyProposal then
    let s := s.asyncResetTxsFlag E (m.consensusProposal.getD {}).data true
    let s := s.addPrePrepareCache m
    let s := s.broadcastPrepareMsg E m
    (s.checkAndPreCommit E, true)
  else
    match s.cfg.getConsensusNodeByIndex m.generatedFrom with
    | none => (s, false)
    | some _ => ({ s with verifying := s.verifying ++ [(m, generatedFromNewView)] }, true)

def checkPBFTMsg (E : Env) (s : Node) (m : PBFTMessage) : Bool :=
  if !s.checkPBFTMsgState m then false
  else if m.generatedFrom = s.cfg.nodeIndex then false
  else if s.existPrePrepare m && s.conflictWithProcessedReq m then false
  else s.checkSignature E (.pbft m)

def handlePrepareMsg (E : Env) (s : Node) (m : PBFTMessage) : Node × Bool :=
  if !s.checkPBFTMsg E m then (s, false)
  else if !s.checkProposalSignature E m.generatedFrom m.consensusProposal then (s, false)
  else ((s.addPrepareCache m).checkAndPreCommit E, true)

/-! ### New view -/

def reachNewView (s : Node) (view : ViewType) : Node :=
  let s := s.setCfg (s.cfg.resetNewViewState view)
  s.resetCacheAfterViewChange s.cfg.view s.cfg.committedIndex

/-- One turn of the loop of `reHandlePrePrepareProposals`: the proposal is here, is filled from the
precommit cache, or its data is requested from the node it is said to come from. -/
def reHandlePrePrepare (E : Env) (s : Node) (m : PBFTMessage) : Option Node := do
  let p ← m.consensusProposal
  if p.data.length > 0 then return (s.handlePrePrepareMsg E m true true false).1
  else
    match s.tryToFillProposal m with
    | some m => return (s.handlePrePrepareMsg E m true true false).1
    | none =>
      let _ ← s.cfg.getConsensusNodeByIndex m.generatedFrom
      return { s with precommitRequests := s.precommitRequests ++ [m] }

def reHandlePrePrepareProposals (E : Env) (s : Node) (newView : NewViewMsg) : Option Node := do
  let s := s.reachNewView newView.view
  let s := s.notifyResetSealing none
  let maxProposalIndex := newView.prePrepareList.foldl (fun i m => max i m.index) s.cfg.committedIndex
  let s ← newView.prePrepareList.foldlM (reHandlePrePrepare E) s
  if newView.prePrepareList.length > 0 then
    return s.setCfg { s.cfg with waitResealUntil := maxProposalIndex }
  else return s.reNotifySealer (maxProposalIndex + 1)

def tryIntoNewView (E : Env) (s : Node) : Option Node := do
  let (s, newView) ← s.checkAndTryIntoNewView E
  match newView with
  | none => return s
  | some m => s.reHandlePrePrepareProposals E m

/-! ### View change -/

def generateViewChange (s : Node) : ViewChangeMsg :=
  { base := { hash := s.cfg.committedHash.val, index := s.cfg.committedIndex, version := 0
              view := s.cfg.toView, timestamp := s.utcTime, generatedFrom := s.cfg.nodeIndex }
    committedProposal := populateProposal (s.cfg.committedProposal.getD {})
    preparedProposals := s.preCommitCachesWithoutData }

/-- The common tail of `sendViewChange` and `broadcastViewChangeReq`. -/
def sendViewChangeTo (E : Env) (s : Node) (dst : Option NodeID) : Option Node :=
  let m := s.generateViewChange
  let s := s.emit (sendActions E s.cfg.keyPair dst (.viewChange m))
  -- the cached object carries the signature that `encode` set
  match (PBFTCodec.encode E s.cfg.keyPair 0 (.viewChange m)).2.1 with
  | .viewChange m => (s.addViewChangeReq m).tryIntoNewView E
  | _ => (s.addViewChangeReq m).tryIntoNewView E

def sendViewChange (E : Env) (s : Node) (dst : NodeID) : Option Node := s.sendViewChangeTo E (some dst)

def broadcastViewChangeReq (E : Env) (s : Node) : Option Node := s.sendViewChangeTo E none

def sendRecoverResponse (E : Env) (s : Node) (dst : NodeID) : Node :=
  let response : PBFTMessage :=
    { packetType := .RecoverResponse
      base := { generatedFrom := s.cfg.nodeIndex, view := s.cfg.view, timestamp := s.utcTime
                index := s.cfg.committedIndex } }
  s.emit (sendActions E s.cfg.keyPair (some dst) (.pbft response))

def triggerTimeout (E : Env) (s : Node) : Option Node :=
  let s := s.setCfg s.cfg.resetTimeoutState
  let s := s.removeInvalidViewChange s.cfg.view s.cfg.committedIndex
  let s := s.notifyCommittedProposalIndex s.cfg.committedIndex
  s.broadcastViewChangeReq E

/-- `PBFTConfig::tryTriggerFastViewChange`. Every turn adds one to `toView`, so a turn of the leaders
reaches this node itself before the fuel of `resetTimer` is spent. -/
def tryTriggerFastViewChange (E : Env) : Nat → Node → IndexType → Option Node
  | 0, s, _ => some s
  | fuel + 1, s, leaderIndex =>
    if s.cfg.connectedNodeList.length = 0 then some s
    else if !s.cfg.isConsensusNode then some s
    else if leaderIndex = s.cfg.nodeIndex then some s
    else
      match s.cfg.getConsensusNodeByIndex leaderIndex with
      | none => some s
      | some leader =>
        if s.cfg.connectedNodeList.contains leader.nodeID then some s
        else do
          let s ← s.triggerTimeout E
          tryTriggerFastViewChange E fuel s (s.cfg.leaderIndexInNewViewPeriod s.cfg.progressedIndex s.cfg.toView)

/-- `PBFTCacheProcessor::resetTimer`; only the timer differs while some proposal is in consensus. -/
def resetTimer (E : Env) (s : Node) : Option Node :=
  if s.caches.values.any (fun c => !c.shouldStopTimer s.cfg) then some s
  else s.tryTriggerFastViewChange E (2 * s.cfg.consensusNodeNum.toNat + 2) s.cfg.getLeader

/-! ### Commit -/

def checkAndCommit (E : Env) (s : Node) : Option Node := s.checkAndCommitLoop.resetTimer E

def handleCommitMsg (E : Env) (s : Node) (m : PBFTMessage) : Option (Node × Bool) :=
  if !s.checkPBFTMsg E m then some (s, false)
  else do return (← (s.addCommitReq m).checkAndCommit E, true)

/-! ### Received view changes and new views -/

/-- The answer to a node whose view change is behind, part of `isValidViewChangeMsg`. -/
def answerViewChange (E : Env) (s : Node) (fromNode : Option NodeID) (m : ViewChangeMsg) : Option Node :=
  if m.view < s.cfg.view || m.view + 1 < s.cfg.toView then
    match fromNode with
    | none => some s
    | some dst => if s.cfg.timeoutState then s.sendViewChange E dst else some (s.sendRecoverResponse E dst)
  else some s

/-- The loop over the prepared proposals of `isValidViewChangeMsg`. -/
def checkPreparedProposals (E : Env) (s : Node) : List PBFTMessage → Option Bool
  | [] => some true
  | m :: t => do if ← s.checkPrecommitMsg E m then checkPreparedProposals E s t else return false

def isValidViewChangeMsg (E : Env) (s : Node) (fromNode : Option NodeID) (m : ViewChangeMsg)
    (shouldCheckSig : Bool := true) : Option (Node × Bool) :=
  if m.committedProposal.index < s.cfg.committedIndex then some (s, false)
  else do
    let s ← s.answerViewChange E fromNode m
    if m.view < s.cfg.view then return (s, false)
    else if m.committedProposal.index = s.cfg.committedIndex && m.committedProposal.hash ≠ s.cfg.committedHash then
      return (s, false)
    else if !(← s.checkPreparedProposals E m.preparedProposals) then return (s, false)
    else if !shouldCheckSig then return (s, true)
    else return (s, s.checkSignature E (.viewChange m))

/-- A view change of the leader may start a view change here before the timer does. -/
def tryFastViewChange (E : Env) (s : Node) (m : ViewChangeMsg) : Option Node :=
  if m.generatedFrom = s.cfg.getLeader then
    let r := s.tryToTriggerFastViewChange
    if r.2 > 0 then r.1.triggerTimeout E else some r.1
  else some s

def handleViewChangeMsg (E : Env) (s : Node) (m : ViewChangeMsg) : Option (Node × Bool) := do
  let (s, valid) ← s.isValidViewChangeMsg E m.fromNode m
  if !valid then return (s, false)
  else
    let s := s.addViewChangeReq m
    let s ← s.tryFastViewChange E m
    return (← s.tryIntoNewView E, true)

/-- The loop over the view changes of `isValidNewViewMsg`: the weight collected, `none` inside when one of
them is not valid. -/
def newViewWeight (E : Env) (fromNode : Option NodeID) :
    Node → List ViewChangeMsg → UInt64 → Option (Node × Option UInt64)
  | s, [], weight => some (s, some weight)
  | s, m :: t, weight => do
    let (s, valid) ← s.isValidViewChangeMsg E fromNode m
    if !valid then return (s, none)
    else
      match s.cfg.getConsensusNodeByIndex m.generatedFrom with
      | none => newViewWeight E fromNode s t weight
      | some nodeInfo => newViewWeight E fromNode s t (weight + nodeInfo.weight)

def isValidNewViewMsg (E : Env) (s : Node) (m : NewViewMsg) : Option (Node × Bool) :=
  if s.cfg.leaderIndexInNewViewPeriod (m.index + 1) m.view ≠ m.generatedFrom then some (s, false)
  else if m.view ≤ s.cfg.view then some (s, false)
  else do
    let (s, weight) ← newViewWeight E m.fromNode s m.viewChangeMsgList 0
    match weight with
    | none => return (s, false)
    | some weight =>
      if weight < s.cfg.minRequiredQuorum then return (s, false)
      else return (s, s.checkSignature E (.newView m))

def handleNewViewMsg (E : Env) (s : Node) (m : NewViewMsg) : Option (Node × Bool) := do
  let (s, valid) ← s.isValidNewViewMsg E m
  if !valid then return (s, false) else return (← s.reHandlePrePrepareProposals E m, true)

/-! ### Checkpoints and recovery -/

def handleCheckPointMsg (E : Env) (s : Node) (m : PBFTMessage) : Node × Bool :=
  if m.index ≤ s.cfg.committedIndex then (s, false)
  else if s.isSyncingHigher then (s, false)
  else if !s.checkSignature E (.pbft m) then (s, false)
  else if !s.checkProposalSignature E m.generatedFrom m.consensusProposal then (s, false)
  else
    let s := s.addCheckPointMsg m
    let s := s.tryToApplyCommitQueue.1
    let s := s.checkAndCommitStableCheckPoint
    let (s, request) := s.shouldRequestCheckPoint m
    (if request then { s with committedRequests := s.committedRequests ++ [m.index] } else s, true)

def handleRecoverResponse (E : Env) (s : Node) (m : PBFTMessage) : Node :=
  if !s.checkSignature E (.pbft m) then s else (s.addRecoverReqCache m).checkAndTryToRecover

def handleRecoverRequest (E : Env) (s : Node) (m : PBFTMessage) : Node :=
  if !s.checkSignature E (.pbft m) then s
  else
    match m.fromNode with
    | none => s
    | some dst => s.sendRecoverResponse E dst

/-- `handleMsg`: the packet types the worker has no handler for are dropped. -/
def handleMsg (E : Env) (s : Node) (msg : Message) : Option Node :=
  match msg with
  | .pbft m =>
    match m.packetType with
    | .PrePreparePacket => some (s.handlePrePrepareMsg E m true).1
    | .PreparePacket => some (s.handlePrepareMsg E m).1
    | .CommitPacket => (s.handleCommitMsg E m).map (·.1)
    | .CheckPoint => some (s.handleCheckPointMsg E m).1
    | .RecoverRequest => some (s.handleRecoverRequest E m)
    | .RecoverResponse => some (s.handleRecoverResponse E m)
    | _ => some s
  | .viewChange m => if m.packetType = .ViewChangePacket then (s.handleViewChangeMsg E m).map (·.1) else some s
  | .newView m => (s.handleNewViewMsg E m).map (·.1)
  | .request _ => some s

end Node

end BcosPbft
