import BcosPbft.Spec.Engine

/-! The events of one node: bytes from a peer, the worker, the timers, the sealer, the ledger and the answers
to the calls the node has made. An event is one stretch of code that holds the engine's lock, or one that runs without it:
the tests of `executeWorker`, `onRecvProposal` and `asyncNotifyNewBlock`, the water mark that a failed
`loadAndVerifyProposal` computes and the one it sets, the checkpoint timer, and the broadcast of
`onProposalApplySuccess`. A callback that first compares the committed index with its message is one event with what
it then does under the lock, where the handler compares the index again, and the tests of `onRecvProposal` are one event
with what it reads for its pre-prepare. -/

namespace BcosPbft

/-- What `asyncVerifyBlock` answers. -/
inductive VerifyOutcome
  | timeout | error | result (ok : Bool)
deriving DecidableEq

namespace Node

/-! ### Configuration of a committed block -/

def setConsensusNodeList (E : Env) (s : Node) (l : List ConsensusNode) : Option Node := do
  let s := s.setCfg (← s.cfg.setConsensusNodeList E l)
  if !s.cfg.nodeUpdated then return s
  else if s.cfg.committedProposal.isSome then return s.notifyResetSealing (some s.cfg.sealStartIndex)
  else return s

def setLeaderSwitchPeriod (s : Node) (period : UInt64) : Node :=
  if period = s.cfg.leaderSwitchPeriod then s
  else
    let s := s.setCfg { s.cfg with leaderSwitchPeriod := period }
    s.notifyResetSealing (some s.cfg.sealStartIndex)

/-- The end of `resetConfig`, which tells the sealer how to go on. -/
def reSealAfterCommit (s : Node) (number : Int) : Node :=
  if s.cfg.syncingHighestNumber > number then
    (s.setCfg { s.cfg with timeoutState := true, syncingState := true }).notifyResetSealing none
  else
    let s := s.setCfg { s.cfg with syncingState := false }
    if s.cfg.timeoutState then s
    else
      let s := if s.cfg.waitResealUntil = number then
          s.reNotifySealer (max s.cfg.sealStartIndex (s.cfg.waitResealUntil + 1)) else s
      s.notifySealer s.cfg.sealStartIndex

/-- `resetConfig`; `none` is the exception of an empty node list. -/
def resetConfig (E : Env) (s : Node) (l : LedgerConfig) : Option Node :=
  if l.blockNumber ≤ s.cfg.committedIndex && s.cfg.committedIndex > 0 then some s
  else do
    let committed : PBFTProposal := { proposal := { index := l.blockNumber, hash := l.hash.val } }
    let s := s.setCfg (s.cfg.setCommittedProposal committed)
    let s := s.setCfg { s.cfg with blockTxCountLimit := l.blockTxCountLimit }
    let s ← s.setConsensusNodeList E l.consensusNodeList
    let s := s.setLeaderSwitchPeriod l.leaderSwitchPeriod
    let s := s.setCfg s.cfg.resetTimer
    return s.reSealAfterCommit l.blockNumber

def finalizeConsensus (E : Env) (s : Node) (l : LedgerConfig) (syncedBlock : Bool) : Option Node := do
  let s ← s.resetConfig E l
  let s := s.tryToApplyCommitQueue.1
  let s := s.removeConsensusedCache s.cfg.view l.blockNumber
  let s := s.tryToCommitStableCheckPoint
  let s ← s.resetTimer E
  return if syncedBlock then s.removeFutureProposals E else s

/-- The callback of `commitBlock`, `none` for an error: the error is only logged. -/
def onCommitBlock (E : Env) (s : Node) : Option LedgerConfig → Option Node
  | none => some s
  | some l => s.finalizeConsensus E l false

/-- The block number is tested before `finalizeConsensus` takes the lock. -/
def asyncNotifyNewBlock (s : Node) (l : LedgerConfig) : Node :=
  if s.cfg.committedProposal.any (fun p => p.index < l.blockNumber) then { s with newBlocks := s.newBlocks ++ [l] } else s

/-- `finalizeConsensus` of a block that has passed the test. -/
def finalizeNewBlock (E : Env) (s : Node) (l : LedgerConfig) : Option Node :=
  if s.newBlocks.contains l then { s with newBlocks := s.newBlocks.erase l }.finalizeConsensus E l true else some s

/-! ### Proposals of this node's sealer -/

def resetSealedTxs (E : Env) (s : Node) (m : PBFTMessage) : Node :=
  if m.generatedFrom ≠ s.cfg.nodeIndex then s
  else (s.notifyResetSealing none).asyncResetTxsFlag E (m.consensusProposal.getD {}).data false

/-- `encode` of the pre-prepare after it was handled: the cache holds the same object. -/
def encodePrePrepare (E : Env) (s : Node) (i : Int) : Node :=
  match s.caches.find? i with
  | none => s
  | some c =>
    let c' := { c with
      prePrepare := c.prePrepare.map (encodedMsg E s.cfg.keyPair)
      precommit := if c.precommit = c.prePrepare then c.precommit.map (encodedMsg E s.cfg.keyPair) else c.precommit }
    { s with caches := s.caches.insert i c' }

/-- The pre-prepare goes out as the handler left it: with a proof when it was precommitted at once. -/
def broadcastPrePrepare (E : Env) (s : Node) (m : PBFTMessage) (stored : Bool) : Node :=
  if stored then
    let sent := ((s.caches.find? m.index).bind (·.prePrepare)).getD m
    (s.encodePrePrepare E m.index).emit
      (sendActions E s.cfg.keyPair none (.pbft { sent with packetType := m.packetType }))
  else s.emit (sendActions E s.cfg.keyPair none (.pbft m))

/-- The pre-prepare is broadcast when the node's own handler took it. -/
def submitPrePrepare (E : Env) (s : Node) (m : PBFTMessage) : Node :=
  let stored := ((s.caches.find? m.index).getD { index := m.index }).acceptsPrePrepare m
  let r := s.handlePrePrepareMsg E m false false false
  if r.2 then r.1.broadcastPrePrepare E m stored else r.1.resetSealedTxs E m

/-- `onRecvProposal` up to the lock, which `submitPrePrepare` takes. -/
def onRecvProposal (E : Env) (s : Node) (containSysTxs : Bool) (data : Bytes) (index : Int)
    (hash : HashType) : Node :=
  if data.length = 0 then s
  else if index ≤ s.cfg.syncingHighestNumber then
    (s.notifyResetSealing (some (s.cfg.committedIndex + 1))).asyncResetTxsFlag E data false
  else if index ≤ s.cfg.committedIndex || index < s.cfg.expectedCheckPoint || index < s.cfg.lowWaterMark then s
  else if s.cfg.leaderIndex index ≠ s.cfg.nodeIndex then
    (s.notifyResetSealing (some (s.cfg.committedIndex + 1))).asyncResetTxsFlag E data false
  else if s.cfg.timeoutState then (s.notifyResetSealing none).asyncResetTxsFlag E data false
  else
    let b : SealedBlock :=
      { containSysTxs := containSysTxs, data := data, index := index, hash := hash, view := s.cfg.view
        timestamp := s.utcTime, nodeIndex := s.cfg.nodeIndex }
    { s with submitting := s.submitting ++ [b] }

/-! ### Execution -/

/-- `StateMachine::apply`: the result it reports, `none` when it reports nothing. -/
def applyProposal (E : Env) (e : Execution) (error : Bool) : Option Applied :=
  let failed : Applied :=
    { success := false, lastApplied := e.lastApplied, proposal := e.proposal, executedProposal := {} }
  if e.proposal.index ≤ e.lastApplied.index then some failed
  else
    match E.headerNumber e.proposal.data with
    | none => some failed
    | some number =>
      if error then some failed
      else
        let parent := if e.proposal.index = e.lastApplied.index + 1 then
          some (e.lastApplied.index, e.lastApplied.hash) else none
        let header := E.execute e.proposal.data parent
        if header.number ≠ number then none
        else
          let executed : PBFTProposal :=
            { proposal := { index := header.number, hash := header.hash.val, data := header.encoded
                            extraData := e.proposal.data } }
          some { success := true, lastApplied := e.lastApplied, proposal := e.proposal, executedProposal := executed }

/-- The callback of `applyStateMachine`, for the execution at position `i`. -/
def onExecuted (E : Env) (s : Node) (i : Nat) (error : Bool) : Node :=
  match s.executions[i]? with
  | none => s
  | some e =>
    let s := { s with executions := s.executions.eraseIdx i }
    match applyProposal E e error with
    | none => s
    | some r => if s.cfg.committedIndex ≥ e.proposal.index then s else { s with applied := s.applied ++ [r] }

def onProposalApplyFailed (s : Node) (p : PBFTProposal) : Node :=
  let s := if p.index ≥ s.cfg.committedIndex || p.index ≥ s.cfg.syncingHighestNumber then
      (s.eraseExecutedProposal p.hash).updateCommitQueue p else s
  let s := s.setCfg (s.cfg.setExpectedCheckPoint (s.cfg.committedIndex + 1))
  s.eraseExecutedProposal p.hash

def checkPointVote (E : Env) (s : Node) (executedProposal : PBFTProposal) : PBFTMessage :=
  populateVote E s.cfg.keyPair .CheckPoint 0 s.cfg.view s.utcTime s.cfg.nodeIndex executedProposal

/-- `onProposalApplySuccess` before the lock. -/
def announceCheckPoint (E : Env) (s : Node) (r : Applied) : Node :=
  s.emit (.asyncCommitProposal r.proposal :: .sign (.proposal r.executedProposal.hash) ::
    sendActions E s.cfg.keyPair none (.pbft (s.checkPointVote E r.executedProposal)))

/-- `onProposalApplySuccess` under the lock, with the checkpoint message sent before. -/
def recordCheckPoint (s : Node) (r : Applied) (m : PBFTMessage) : Node :=
  let s := s.addCheckPointMsg m
  let s := s.setCheckPointProposal r.executedProposal
  let s := s.setCfg (s.cfg.setExpectedCheckPoint (r.executedProposal.index + 1))
  let s := s.checkAndCommitStableCheckPoint
  let s := s.tryToApplyCommitQueue.1
  s.eraseExecutedProposal r.proposal.hash

/-- One step of the engine's single worker thread on the result at the front of its queue. -/
def onProposalApplied (E : Env) (s : Node) : Node :=
  match s.applied with
  | [] => s
  | r :: rest =>
    if !r.success then { s with applied := rest }.onProposalApplyFailed r.proposal
    else
      match r.announced with
      | none =>
        let m := encodedMsg E s.cfg.keyPair (s.checkPointVote E r.executedProposal)
        { s with applied := { r with announced := some m } :: rest }.announceCheckPoint E r
      | some m => { s with applied := rest }.recordCheckPoint r m

/-! ### Answers of the other modules -/

/-- The callback of `verifyProposal` in `handlePrePrepareMsg`. -/
def onProposalVerified (E : Env) (s : Node) (m : PBFTMessage) (generatedFromNewView : Bool)
    (outcome : VerifyOutcome) : Node :=
  if s.cfg.committedIndex ≥ m.index then s
  else
    let s := s.asyncResetTxsFlag E (m.consensusProposal.getD {}).data true
    if outcome = .result true then (s.handlePrePrepareMsg E m false generatedFromNewView false).1
    else s.notifySealer m.index true

/-- The callback of `verifyProposal` in `loadAndVerifyProposal`. A failed one has read both marks here, without the lock,
and sets the low water mark in a step of its own. -/
def onProposalLoaded (s : Node) (p : PBFTProposal) (retryTime : Nat) (outcome : VerifyOutcome) : Node :=
  match outcome with
  | .timeout => s.loadAndVerifyProposal p (retryTime + 1)
  | .result true => s.updateCommitQueue p
  | _ =>
    let waterMark := max (min s.cfg.lowWaterMark (p.index - 1)) s.cfg.progressedIndex
    { s with lowMarks := s.lowMarks ++ [waterMark] }

/-- `onRecvPrecommitResponse` for the requested pre-prepare. Data that does not decode throws; a response
without a prepared proposal is read at position 0 all the same. -/
def onRecvPrecommitResponse (E : Env) (s : Node) (m : PBFTMessage) (data : Bytes) : Option Node :=
  match PBFTCodec.decode E data with
  | some (.viewChange response) =>
    if response.packetType ≠ .PreparedProposalResponse then some s
    else do
      let precommit ← response.preparedProposals.head?
      match precommit.consensusProposal, m.consensusProposal with
      | some p, some q =>
        if p.index ≠ q.index || p.hash ≠ q.hash then return s
        else if !(← s.checkPrecommitMsg E precommit) then return s
        else return (s.handlePrePrepareMsg E (m.setConsensusProposal (q.setData p.data)) true true false).1
      | _, _ => return s
  | _ => some s

/-- `onRecvCommittedProposalsResponse`, `none` for an error of the network. -/
def onRecvCommittedProposalsResponse (E : Env) (s : Node) (index : Int) (data : Option Bytes) : Node :=
  match data with
  | none => s.eraseCommittedProposalList index
  | some data =>
    if data.length = 0 then s
    else
      match PBFTCodec.decode E data with
      | some (.pbft m) => if m.packetType ≠ .CommittedProposalResponse then s else s.initState E m.proposals
      | _ => s

/-- `PBFTCache::onCheckPointTimeout` of the cache at `i`: the checkpoint is signed and sent again, in the present view.
Whether the engine's timer runs is given by the caller. -/
def onCheckPointTimeout (E : Env) (s : Node) (i : Int) (running : Bool) : Node :=
  match (s.caches.find? i).bind (·.checkpointProposal) with
  | none => s
  | some p =>
    let s := if running then s else s.notifyCommittedProposalIndex s.cfg.committedIndex
    s.emit (.sign (.proposal p.hash) :: sendActions E s.cfg.keyPair none (.pbft (s.checkPointVote E p)))

/-! ### Messages from the network -/

def sendCommittedProposalResponse (E : Env) (s : Node) (dst : NodeID) (l : List PBFTProposal) : Node :=
  let m : PBFTMessage := { packetType := .CommittedProposalResponse, raw := { proposals := l } }
  s.emit (sendActions E s.cfg.keyPair (some dst) (.pbft m))

/-- `onReceiveCommittedProposalRequest`; what the storage has for the request is given by the caller. -/
def onReceiveCommittedProposalRequest (E : Env) (s : Node) (dst : NodeID) (r : PBFTRequest)
    (stored : List PBFTProposal) : Node :=
  match s.fetchPrecommitProposal r.base.index, decide (r.size = 1) with
  | some p, true => s.sendCommittedProposalResponse E dst [p]
  | _, _ => if stored.length = 0 then s else s.sendCommittedProposalResponse E dst stored

def onReceivePrecommitRequest (E : Env) (s : Node) (dst : NodeID) (r : PBFTRequest) : Node :=
  match s.fetchPrecommitData r.base.index (toHash r.base.hash) with
  | none => s
  | some m =>
    s.emit (sendActions E s.cfg.keyPair (some dst) (.viewChange { m with packetType := .PreparedProposalResponse }))

def onReceivePBFTMessage (E : Env) (s : Node) (fromNode : NodeID) (data : Bytes) (stored : List PBFTProposal) :
    Node :=
  if !s.cfg.isConsensusNode then s
  else
    match (PBFTCodec.decode E data).map (Message.setFrom fromNode) with
    | none => s
    | some (.request r) =>
      if r.packetType = .CommittedProposalRequest then s.onReceiveCommittedProposalRequest E fromNode r stored
      else s.onReceivePrecommitRequest E fromNode r
    | some msg => { s with msgQueue := s.msgQueue ++ [msg] }

def timeoutAllowedPacket (t : PacketType) : Bool :=
  t ≠ .PrePreparePacket && t ≠ .PreparePacket && t ≠ .CommitPacket

def consensusPacket (t : PacketType) : Bool :=
  t = .PrePreparePacket || t = .PreparePacket || t = .CommitPacket

/-- The next test of `executeWorker`, which takes no lock, or its `tryPop`. A message that may not be handled yet goes to
the end of the queue. -/
def executeWorker (s : Node) : Node :=
  match s.workerStage with
  | .start => if s.cfg.isConsensusNode then { s with workerStage := .member } else s
  | .member => { s with workerStage := if s.isSyncingHigher then .start else .synced }
  | .synced => { s with workerStage := if s.msgQueue.length = 0 then .start else .popped }
  | .admitted => s
  | stage =>
    match s.msgQueue with
    | [] => { s with workerStage := .start }
    | msg :: rest =>
      let requeued := { s with msgQueue := rest ++ [msg], workerStage := .start }
      if stage = .popped then
        if !s.cfg.timeoutState then { s with workerStage := .awake }
        else { s with workerStage := if timeoutAllowedPacket msg.packetType then .admitted else .asleep }
      else if stage = .asleep then
        if msg.base.index > s.cfg.committedIndex then requeued else { s with msgQueue := rest, workerStage := .start }
      else if consensusPacket msg.packetType && !s.cfg.canHandleNewProposalMsg msg.base.index then requeued
      else { s with workerStage := .admitted }

/-- The call of `handleMsg` at the end of `executeWorker`. -/
def handleAdmitted (E : Env) (s : Node) : Option Node :=
  match s.workerStage, s.msgQueue with
  | .admitted, msg :: rest => { s with msgQueue := rest, workerStage := .start }.handleMsg E msg
  | _, _ => some s

def onTimeout (E : Env) (s : Node) : Option Node :=
  if !s.cfg.isConsensusNode then some s
  else
    let (s, applied) := s.tryToApplyCommitQueue
    if applied then some s
    else
      let s := s.clearExpiredExecutingProposal
      if s.executingProposals.entries.length > 0 then some s else s.triggerTimeout E

end Node

/-! ### Events -/

inductive Event
  | receive (fromNode : NodeID) (data : Bytes) (stored : List PBFTProposal)
  /-- The worker comes one test further. -/
  | gate
  /-- The worker handles the message that it has admitted. -/
  | worker
  | timeout
  | checkPointTimeout (i : Int) (running : Bool)
  | submitProposal (containSysTxs : Bool) (data : Bytes) (index : Int) (hash : HashType)
  /-- `onRecvProposal` gets the lock. -/
  | proposalSubmitted (i : Nat)
  | proposalVerified (i : Nat) (outcome : VerifyOutcome)
  | proposalLoaded (i : Nat) (outcome : VerifyOutcome)
  | lowMark (i : Nat)
  | executed (i : Nat) (error : Bool)
  | proposalApplied
  /-- The finalize handler of the storage, after a stable checkpoint reached the ledger. -/
  | finalized (l : LedgerConfig)
  /-- `asyncNotifyNewBlock` of the sync module. -/
  | notifyNewBlock (l : LedgerConfig)
  | newBlock (l : LedgerConfig)
  | precommitResponse (i : Nat) (data : Bytes)
  | committedResponse (i : Nat) (data : Option Bytes)
  | sealerReset (i : Nat) (ok : Bool)
  | sealerAnswers (l : List (Option Bool))
  | resetTxsFinished (hash : HashType)
  | syncingNumber (number : Int)
  | connected (l : List NodeID)
  | clock (now : Int)
deriving DecidableEq

/-- The answer to the call at position `i` of a list of outstanding calls takes the call off the list. -/
def answer {α : Type} (l : List α) (i : Nat) (s : Node) (f : α → List α → Option Node) : Option Node :=
  match l[i]? with
  | none => some s
  | some a => f a (l.eraseIdx i)

/-- One event of a node, `none` when it crashes the process. -/
def step (E : Env) (s : Node) : Event → Option Node
  | .receive fromNode data stored => some (s.onReceivePBFTMessage E fromNode data stored)
  | .gate => some s.executeWorker
  | .worker => s.handleAdmitted E
  | .timeout => s.onTimeout E
  | .checkPointTimeout i running => some (s.onCheckPointTimeout E i running)
  | .submitProposal sys data index hash => some (s.onRecvProposal E sys data index hash)
  | .proposalSubmitted i => answer s.submitting i s fun b rest =>
      some ({ s with submitting := rest }.submitPrePrepare E b.prePrepare)
  | .proposalVerified i outcome => answer s.verifying i s fun c rest =>
      some ({ s with verifying := rest }.onProposalVerified E c.1 c.2 outcome)
  | .proposalLoaded i outcome => answer s.loading i s fun c rest =>
      some ({ s with loading := rest }.onProposalLoaded c.1 c.2 outcome)
  | .lowMark i => answer s.lowMarks i s fun waterMark rest =>
      some ({ s with lowMarks := rest }.setCfg (s.cfg.setLowWaterMark waterMark))
  | .executed i error => some (s.onExecuted E i error)
  | .proposalApplied => some (s.onProposalApplied E)
  | .finalized l => s.onCommitBlock E (some l)
  | .notifyNewBlock l => some (s.asyncNotifyNewBlock l)
  | .newBlock l => s.finalizeNewBlock E l
  | .precommitResponse i data => answer s.precommitRequests i s fun m rest =>
      { s with precommitRequests := rest }.onRecvPrecommitResponse E m data
  | .committedResponse i data => answer s.committedRequests i s fun index rest =>
      some ({ s with committedRequests := rest }.onRecvCommittedProposalsResponse E index data)
  | .sealerReset i ok => answer s.sealerResets i s fun c rest =>
      some ({ s with sealerResets := rest }.onSealerReset c.1 c.2 ok)
  | .sealerAnswers l => some { s with sealerAnswers := l }
  | .resetTxsFinished hash => some { s with resettingProposals := s.resettingProposals.erase hash }
  | .syncingNumber number => some (s.setCfg { s.cfg with syncingHighestNumber := number })
  | .connected l => some (s.setCfg { s.cfg with connectedNodeList := l })
  | .clock now => some { s with utcTime := now }

/-- The pre-prepare that an event hands to `handlePrePrepareMsg` as verified: the one a good answer of the verifier is
for, or the node's own. -/
def Event.stores (s : Node) : Event → Option PBFTMessage
  | .proposalVerified i (.result true) => (s.verifying[i]?).map Prod.fst
  | .proposalSubmitted i => (s.submitting[i]?).map SealedBlock.prePrepare
  | _ => none

/-- `PBFTImpl::init`: the configuration of the ledger's last block and the proposals the storage kept. -/
def initNode (E : Env) (keyPair : KeyPair) (l : LedgerConfig) (state : List PBFTProposal) : Option Node := do
  let s : Node := { cfg := { keyPair := keyPair, timeoutState := true } }
  let s ← s.resetConfig E l
  match state.getLast? with
  | none => return s
  | some last =>
    let s := s.initState E state
    return s.setCfg (s.cfg.setLowWaterMark (last.index + 1))

/-- The states of a node over a run, from the state `init` leaves. -/
inductive Reachable (E : Env) (s₀ : Node) : Node → Prop
  | refl : Reachable E s₀ s₀
  | step {s s' : Node} (e : Event) (h : Reachable E s₀ s) (hs : step E s e = some s') : Reachable E s₀ s'

end BcosPbft
