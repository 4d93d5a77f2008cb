import BcosPbft.Spec.Cache

/-! The state of one node and the operations of `PBFTCacheProcessor` on it, with the notifications of
`PBFTConfig` to the sealer. Calls that come back on another thread are kept in the node's lists of
outstanding calls; a later event of `BcosPbft.Spec.Engine` completes them. -/

namespace BcosPbft

/-- A proposal handed to the state machine, with the proposal it is executed on top of. -/
structure Execution where
  lastApplied : PBFTProposal
  proposal : PBFTProposal
deriving DecidableEq

/-- A result that waits in the engine's worker. -/
structure Applied where
  success : Bool
  /-- The proposal it was executed on top of. -/
  lastApplied : PBFTProposal
  proposal : PBFTProposal
  executedProposal : PBFTProposal
  /-- The checkpoint message, once `onProposalApplySuccess` has broadcast it. -/
  announced : Option PBFTMessage := none
deriving DecidableEq

/-- How far `executeWorker` has got. From `popped` on the message it holds is still the first of `msgQueue`. -/
inductive WorkerStage
  | start
  /-- The node is a consensus node. -/
  | member
  /-- It is not syncing higher blocks; `tryPop` comes next. -/
  | synced
  | popped
  /-- The node has timed out, and the packet is none that it handles then. -/
  | asleep
  /-- The node has not timed out. -/
  | awake
  /-- `handleMsg` comes next. -/
  | admitted
deriving DecidableEq

/-- A block of the sealer, with what `onRecvProposal` has read for its pre-prepare. -/
structure SealedBlock where
  containSysTxs : Bool
  data : Bytes
  index : Int
  hash : HashType
  view : ViewType
  timestamp : Int
  nodeIndex : IndexType
deriving DecidableEq

def SealedBlock.prePrepare (b : SealedBlock) : PBFTMessage :=
  let p : PBFTProposal :=
    { proposal := { data := b.data, index := b.index, hash := b.hash.val, sealerId := b.nodeIndex.toNat
                    systemProposal := b.containSysTxs } }
  populatePrePrepare .PrePreparePacket p 0 b.view b.timestamp b.nodeIndex

structure Node where
  cfg : Config
  utcTime : Int := 0
  caches : OrdMap Int PBFTCache := ∅
  viewChangeCache : OrdMap ViewType (OrdMap IndexType ViewChangeMsg) := ∅
  viewChangeWeight : OrdMap ViewType UInt64 := ∅
  maxCommittedIndex : OrdMap ViewType Int := ∅
  maxPrecommitIndex : OrdMap ViewType Int := ∅
  newViewGenerated : Bool := false
  /-- Priority queue, the smallest index on top. -/
  committedQueue : List PBFTProposal := []
  executingProposals : OrdMap HashType Int := ∅
  committedProposalList : OrdMap Int Unit := ∅
  stableCheckPointQueue : List PBFTProposal := []
  recoverReqCache : OrdMap ViewType (OrdMap IndexType PBFTMessage) := ∅
  recoverCacheWeight : OrdMap ViewType UInt64 := ∅
  maxNotifyIndex : Int := 0
  msgQueue : List Message := []
  workerStage : WorkerStage := .start
  /-- Blocks for whose pre-prepares `onRecvProposal` waits for the lock. -/
  submitting : List SealedBlock := []
  /-- `verifyProposal` calls of `handlePrePrepareMsg`: the message and `_generatedFromNewView`. -/
  verifying : List (PBFTMessage × Bool) := []
  /-- `verifyProposal` calls of `loadAndVerifyProposal`: the proposal and the retries so far. -/
  loading : List (PBFTProposal × Nat) := []
  /-- Low water marks that failed calls of `loadAndVerifyProposal` have computed and not yet set. -/
  lowMarks : List Int := []
  executions : List Execution := []
  applied : List Applied := []
  /-- Pre-prepares of a new view whose data was requested. -/
  precommitRequests : List PBFTMessage := []
  /-- Indices requested by `requestCommittedProposals`. -/
  committedRequests : List Int := []
  /-- Blocks of the sync module that wait for the lock. -/
  newBlocks : List LedgerConfig := []
  /-- `m_sealerResetNotifier` calls: the index to reseal from and the committed index of the call. -/
  sealerResets : List (Option Int × Int) := []
  /-- How the sealer answers the next of these calls: `some` inside the call, `none` (and the end of the list) later. -/
  sealerAnswers : List (Option Bool) := []
  resettingProposals : List HashType := []
  log : List Action := []
deriving DecidableEq

namespace Node

def emit (s : Node) (l : List Action) : Node := { s with log := s.log ++ l }

def setCfg (s : Node) (cfg : Config) : Node := { s with cfg := cfg }

/-! ### Sealer and validator -/

def asyncResetTxsFlag (E : Env) (s : Node) (data : Bytes) (flag : Bool) : Node :=
  if flag then
    if s.resettingProposals.contains (E.headerHash data) then s
    else { s with resettingProposals := s.resettingProposals ++ [E.headerHash data] }.emit
      [.asyncResetTxsFlag data flag]
  else s.emit [.asyncResetTxsFlag data flag]

def notifySealer (s : Node) (progressedIndex : Int) (enforce : Bool := false) : Node :=
  if s.cfg.leaderIndex progressedIndex ≠ s.cfg.nodeIndex then s
  else if !s.cfg.canHandleNewProposal then s
  else if enforce then
    ({ s with cfg := { s.cfg with
        mSealEndIndex := max progressedIndex s.cfg.mSealEndIndex
        mSealStartIndex := min progressedIndex s.cfg.mSealStartIndex } }).emit
      [.sealProposal progressedIndex progressedIndex]
  else
    -- the end of the leader's period is computed in `uint64_t` and stored in an `int64_t`
    let periodEnd := (UInt64.ofInt progressedIndex / s.cfg.leaderSwitchPeriod + 1) * s.cfg.leaderSwitchPeriod - 1
    let endProposalIndex := min periodEnd.toInt64.toInt (s.cfg.highWaterMark - 1)
    if s.cfg.mSealEndIndex ≥ endProposalIndex then s
    else
      let startSealIndex := max (s.cfg.mSealEndIndex + 1) progressedIndex
      if startSealIndex > endProposalIndex then s
      else if s.resettingProposals.length > 0 && startSealIndex > s.cfg.committedIndex + 1 then s
      else
        ({ s with cfg := { s.cfg with
            mSealStartIndex := startSealIndex, mSealEndIndex := endProposalIndex } }).emit
          [.sealProposal startSealIndex endProposalIndex]

def reNotifySealer (s : Node) (index : Int) : Node :=
  if index ≥ s.cfg.highWaterMark || index < s.cfg.committedIndex then s
  else ({ s with cfg := { s.cfg with mSealStartIndex := index - 1, mSealEndIndex := index - 1 } }).notifySealer index

/-- The answer to `notifyResetSealing`. -/
def onSealerReset (s : Node) (consIndex : Option Int) (committedIndex : Int) (ok : Bool) : Node :=
  match consIndex with
  | some i => if ok && s.cfg.waitResealUntil ≤ committedIndex then s.reNotifySealer i else s
  | none => s

/-- The call of `m_sealerResetNotifier`; an answer that does not come inside it is the event `sealerReset`. -/
def askSealerReset (s : Node) (consIndex : Option Int) : Node :=
  let committedIndex := s.cfg.committedIndex
  let t := { s with sealerAnswers := s.sealerAnswers.tail }.emit [.resetSealing]
  match s.sealerAnswers.headD none with
  | some ok => t.onSealerReset consIndex committedIndex ok
  | none => { t with sealerResets := t.sealerResets ++ [(consIndex, committedIndex)] }

def notifyResetSealing (s : Node) (consIndex : Option Int) : Node :=
  let s := s.askSealerReset consIndex
  s.setCfg { s.cfg with mSealEndIndex := s.cfg.sealStartIndex - 1, mSealStartIndex := s.cfg.sealStartIndex - 1 }

def notifyCommittedProposalIndex (s : Node) (index : Int) : Node :=
  s.emit [.notifyCommittedProposalIndex index]

def notifyMaxProposalIndex (s : Node) (index : Int) : Node :=
  if s.maxNotifyIndex < index then { s with maxNotifyIndex := index }.notifyCommittedProposalIndex index else s

/-! ### The caches of the proposals -/

/-- `addCache`: the handler runs on the cache of the message's index, created if it is missing. -/
def addCache (s : Node) (m : PBFTMessage) (handler : PBFTCache → PBFTCache × List Action) : Node :=
  let r := handler ((s.caches.find? m.index).getD { index := m.index })
  { s with caches := s.caches.insert m.index r.1 }.emit r.2

def addPrePrepareCache (s : Node) (m : PBFTMessage) : Node :=
  (s.addCache m (fun c => c.addPrePrepareCache m)).notifyMaxProposalIndex m.index

def addPrepareCache (s : Node) (m : PBFTMessage) : Node :=
  s.addCache m (fun c => (c.addPrepareCache s.cfg m, []))

def addCommitReq (s : Node) (m : PBFTMessage) : Node :=
  s.addCache m (fun c => (c.addCommitCache s.cfg m, []))

def addCheckPointMsg (s : Node) (m : PBFTMessage) : Node :=
  s.addCache m (fun c => (c.addCheckPointMsg s.cfg m, []))

def setCheckPointProposal (s : Node) (p : PBFTProposal) : Node :=
  let c := (s.caches.find? p.index).getD { index := p.index }
  { s with caches := s.caches.insert p.index (c.setCheckPointProposal s.cfg p) }

def existPrePrepare (s : Node) (m : PBFTMessage) : Bool :=
  (s.caches.find? m.index).any (·.existPrePrepare m)

def conflictWithProcessedReq (s : Node) (m : PBFTMessage) : Bool :=
  (s.caches.find? m.index).any (·.conflictWithProcessedReq s.cfg m)

def conflictWithPrecommitReq (s : Node) (m : PBFTMessage) : Bool :=
  (s.caches.find? m.index).any (·.conflictWithPrecommitReq s.cfg m)

/-- `tryToFillProposal`: the pre-prepare with the data of the precommitted proposal, if it is here. -/
def tryToFillProposal (s : Node) (m : PBFTMessage) : Option PBFTMessage := do
  let c ← s.caches.find? m.index
  let precommit ← c.precommit
  if precommit.hash = m.hash && precommit.index = m.index then
    let stored ← precommit.consensusProposal
    let p ← m.consensusProposal
    return m.setConsensusProposal (p.setData stored.data)
  else none

def preCommitCachesWithoutData (s : Node) : List PBFTMessage :=
  s.caches.values.filterMap (·.precommitWithoutData)

def fetchPrecommitProposal (s : Node) (index : Int) : Option PBFTProposal := do
  let c ← s.caches.find? index
  let precommit ← c.precommit
  precommit.consensusProposal

def fetchPrecommitData (s : Node) (index : Int) (hash : HashType) : Option ViewChangeMsg := do
  let c ← s.caches.find? index
  let precommit ← c.precommit
  if precommit.hash ≠ hash then none else return { preparedProposals := [precommit] }

/-! ### Execution queue -/

/-- Equal indices leave in the order they came. `std::priority_queue` promises no order for them. -/
def pushQueue (q : List PBFTProposal) (p : PBFTProposal) : List PBFTProposal :=
  q.orderedInsert (fun a b => a.index < b.index) p

def getAppliedCheckPointProposal (s : Node) (index : Int) : Option PBFTProposal :=
  if index = s.cfg.committedIndex then s.cfg.committedProposal
  else (s.caches.find? index).bind (·.checkpointProposal)

def notifyToSealNextBlock (s : Node) (p : PBFTProposal) : Node :=
  let next := p.index + 1
  let s := if !p.proposal.systemProposal && next < s.cfg.highWaterMark then s.notifySealer next else s
  if p.proposal.systemProposal then s.setCfg (s.cfg.setWaitSealUntil p.index) else s

def applyStateMachine (s : Node) (lastApplied proposal : PBFTProposal) : Node :=
  let s := s.notifyToSealNextBlock proposal
  let e : Execution := { lastApplied := lastApplied, proposal := proposal }
  { s with executions := s.executions ++ [e] }.emit [.asyncApply lastApplied proposal]

def dropExpired (s : Node) : Node :=
  { s with committedQueue := s.committedQueue.dropWhile (fun p => p.index < s.cfg.expectedCheckPoint) }

/-- The proposal leaves the queue and is marked as executing. -/
def takeProposal (s : Node) (p : PBFTProposal) (rest : List PBFTProposal) : Node :=
  { s with committedQueue := rest, executingProposals := s.executingProposals.insert p.hash p.index }

def tryToApplyCommitQueue (s : Node) : Node × Bool :=
  let s := s.dropExpired
  match s.committedQueue with
  | [] => (s, false)
  | p :: rest =>
    if p.index ≠ s.cfg.expectedCheckPoint then (s, false)
    else
      match s.getAppliedCheckPointProposal (s.cfg.expectedCheckPoint - 1) with
      | none => (s, false)
      | some lastApplied =>
        if s.executingProposals.contains p.hash then (s, false)
        else
          ((s.takeProposal p rest).applyStateMachine lastApplied p, true)

def updateCommitQueue (s : Node) (p : PBFTProposal) : Node :=
  if s.executingProposals.contains p.hash then s
  else
    let s := s.notifyMaxProposalIndex p.index
    let s := { s with committedQueue := pushQueue s.committedQueue p
                      committedProposalList := s.committedProposalList.insert p.index () }.emit [.pushCommitted p]
    s.tryToApplyCommitQueue.1

/-- The proposal to push when the check of the cache returned true. -/
def reported (s : Node) (c : PBFTCache) (ret : Bool) : Node × Option PBFTProposal :=
  if ret then (s.emit [.reportCommit c s.cfg.minRequiredQuorum], c.precommit.bind (·.consensusProposal))
  else (s, none)

def preCommitAt (E : Env) (s : Node) (i : Int) : Node × Option PBFTProposal :=
  match s.caches.find? i with
  | none => (s, none)
  | some c =>
    let r := c.checkAndPreCommit E s.cfg s.utcTime
    ({ s with caches := s.caches.insert i r.1 }.emit r.2.2).reported r.1 r.2.1

def checkAndPreCommitAt (E : Env) (s : Node) (i : Int) : Node :=
  let r := s.preCommitAt E i
  match r.2 with
  | none => r.1
  | some p => r.1.updateCommitQueue p

def checkAndPreCommit (E : Env) (s : Node) : Node := s.caches.keys.foldl (checkAndPreCommitAt E) s

def commitAt (s : Node) (i : Int) : Node × Option PBFTProposal :=
  match s.caches.find? i with
  | none => (s, none)
  | some c =>
    let r := c.checkAndCommit s.cfg
    { s with caches := s.caches.insert i r.1 }.reported r.1 r.2

def checkAndCommitAt (s : Node) (i : Int) : Node :=
  let r := s.commitAt i
  match r.2 with
  | none => r.1
  | some p =>
    let s := r.1.updateCommitQueue p
    s.setCfg s.cfg.resetToView

/-- The loop of `checkAndCommit`; the call of `resetTimer` after it is in the engine. -/
def checkAndCommitLoop (s : Node) : Node := s.caches.keys.foldl checkAndCommitAt s

def clearExpiredExecutingProposal (s : Node) : Node :=
  { s with executingProposals := s.executingProposals.filter (fun _ i => i > s.cfg.committedIndex) }

def eraseExecutedProposal (s : Node) (hash : HashType) : Node :=
  { s with executingProposals := s.executingProposals.erase hash }

/-! ### Fetched proposals -/

def loadAndVerifyProposal (s : Node) (p : PBFTProposal) (retryTime : Nat) : Node :=
  if retryTime > 3 then s else { s with loading := s.loading ++ [(p, retryTime)] }

def initState (E : Env) (s : Node) (l : List PBFTProposal) : Node :=
  l.foldl (fun s p =>
    if p.index ≤ s.cfg.committedIndex then s
    else (s.asyncResetTxsFlag E p.data true).loadAndVerifyProposal p 0) s

def eraseCommittedProposalList (s : Node) (i : Int) : Node :=
  { s with committedProposalList := s.committedProposalList.erase i }

/-! ### Checkpoints -/

def tryToCommitStableCheckPoint (s : Node) : Node :=
  let expired := s.stableCheckPointQueue.takeWhile (fun p => p.index ≤ s.cfg.committedIndex)
  let rest := s.stableCheckPointQueue.dropWhile (fun p => p.index ≤ s.cfg.committedIndex)
  let list := expired.foldl (fun (l : OrdMap Int Unit) p => l.erase p.index) s.committedProposalList
  let s := { s with stableCheckPointQueue := rest, committedProposalList := list }
  match s.stableCheckPointQueue with
  | [] => s
  | p :: rest =>
    if p.index ≠ s.cfg.committedIndex + 1 then s
    else
      { s with stableCheckPointQueue := rest
               committedProposalList := s.committedProposalList.erase p.index }.emit
        [.asyncCommitStableCheckPoint p]

def updateStableCheckPointQueue (s : Node) (p : PBFTProposal) : Node :=
  { s with stableCheckPointQueue := pushQueue s.stableCheckPointQueue p }.tryToCommitStableCheckPoint

def checkStableAt (acc : Node × List PBFTProposal) (i : Int) : Node × List PBFTProposal :=
  match acc.1.caches.find? i with
  | none => acc
  | some c =>
    let r := c.checkAndCommitStableCheckPoint acc.1.cfg
    ({ acc.1 with caches := acc.1.caches.insert i r.1 },
      if r.2 then acc.2 ++ r.1.checkpointProposal.toList else acc.2)

def checkAndCommitStableCheckPoint (s : Node) : Node :=
  let r := s.caches.keys.foldl checkStableAt (s, [])
  r.2.foldl updateStableCheckPointQueue r.1

/-- `shouldRequestCheckPoint`, which marks the index as requested. -/
def shouldRequestCheckPoint (s : Node) (m : PBFTMessage) : Node × Bool :=
  if m.index ≤ s.cfg.committedIndex || m.index ≤ s.cfg.syncingHighestNumber then (s, false)
  else if s.committedProposalList.contains m.index then (s, false)
  else if (s.caches.find? m.index).any (·.checkpointProposal.isSome) then (s, false)
  else if s.cfg.timeoutState then (s, true)
  else
    match s.caches.find? m.index with
    | none => (s, false)
    | some c =>
      if c.precommitted then (s, false)
      else if c.getCollectedCheckPointWeight m.hash < s.cfg.maxFaultyQuorum + 1 then (s, false)
      else ({ s with committedProposalList := s.committedProposalList.insert m.index () }, true)

/-! ### View changes -/

/-- The log line at the end of `addViewChangeReq` reads `m_maxPrecommitIndex` with `operator[]`, which creates an entry
of 0 where there was none. -/
def logMaxPrecommitIndex (cfg : Config) (table : OrdMap ViewType Int) (view : ViewType) : OrdMap ViewType Int :=
  if cfg.infoLog && !table.contains view then table.insert view 0 else table

def addViewChangeReq (s : Node) (m : ViewChangeMsg) : Node :=
  if ((s.viewChangeCache.find? m.view).bind (·.find? m.generatedFrom)).isSome then s
  else
    match s.cfg.getConsensusNodeByIndex m.generatedFrom with
    | none => s
    | some nodeInfo =>
      let committed := m.committedProposal.index
      { s with
        viewChangeCache := s.viewChangeCache.insert m.view
          (((s.viewChangeCache.find? m.view).getD ∅).insert m.generatedFrom m)
        viewChangeWeight := s.viewChangeWeight.insert m.view
          ((s.viewChangeWeight.find? m.view).getD 0 + nodeInfo.weight)
        maxCommittedIndex :=
          if (s.maxCommittedIndex.find? m.view).all (· < committed) then
            s.maxCommittedIndex.insert m.view committed else s.maxCommittedIndex
        maxPrecommitIndex := logMaxPrecommitIndex s.cfg (m.preparedProposals.foldl (fun t p =>
          if (t.find? m.view).all (· < p.index) then t.insert m.view p.index else t) s.maxPrecommitIndex) m.view }

/-- One turn of the selection loop of `generatePrePrepareMsg`. -/
def selectPrepared (maxCommitted : Int) (generatedFrom : IndexType)
    (table : OrdMap Int PBFTMessage) (proposal : PBFTMessage) : OrdMap Int PBFTMessage :=
  if proposal.index < maxCommitted then table
  else
    match table.find? proposal.index with
    | some old =>
      if old.hash ≠ proposal.hash && old.view < proposal.view then table.insert proposal.index proposal
      else table
    | none => table.insert proposal.index (proposal.setGeneratedFrom generatedFrom)

/-- The indices `from + 1 … to` of a `for` loop. -/
def indexRange (lo hi : Int) : List Int :=
  (List.range (hi - lo).toNat).map (fun (n : Nat) => lo + 1 + (n : Int))

/-- The entry of one index; `none` dereferences a prepared message without a proposal. -/
def prePrepareFor (E : Env) (s : Node) (table : OrdMap Int PBFTMessage) (i : Int) :
    Option PBFTMessage :=
  match table.find? i with
  | some m => m.consensusProposal.map fun p =>
      populatePrePrepare .PrePreparePacket p 0 s.cfg.toView s.utcTime m.generatedFrom
  | none =>
    let block := E.emptyBlock i s.cfg.nodeIndex.toNat
    some (populatePrePrepare .PrePreparePacket { proposal := { index := i, hash := block.1.val, data := block.2 } }
      0 s.cfg.toView s.utcTime s.cfg.nodeIndex)

def generatePrePrepareMsg (E : Env) (s : Node) (viewChanges : OrdMap IndexType ViewChangeMsg) :
    Option (List PBFTMessage) :=
  let maxCommitted := (s.maxCommittedIndex.find? s.cfg.toView).getD s.cfg.committedIndex
  let maxPrecommit := (s.maxPrecommitIndex.find? s.cfg.toView).getD s.cfg.progressedIndex
  let table := viewChanges.values.foldl (fun t m =>
    m.preparedProposals.foldl (selectPrepared maxCommitted m.generatedFrom) t) ∅
  (indexRange maxCommitted maxPrecommit).mapM (prePrepareFor E s table)

def checkAndTryIntoNewView (E : Env) (s : Node) : Option (Node × Option NewViewMsg) :=
  if s.cfg.committedIndex < s.cfg.syncingHighestNumber then some (s, none)
  else if s.newViewGenerated || !s.cfg.leaderAfterViewChange then some (s, none)
  else
    match s.viewChangeWeight.find? s.cfg.toView with
    | none => some (s, none)
    | some w =>
      if w < s.cfg.minRequiredQuorum then some (s, none)
      else do
        let viewChanges := (s.viewChangeCache.find? s.cfg.toView).getD ∅
        let list ← generatePrePrepareMsg E s viewChanges
        let msg : NewViewMsg := { base := { hash := s.cfg.committedHash.val, index := s.cfg.committedIndex
                                            view := s.cfg.toView, timestamp := s.utcTime
                                            generatedFrom := s.cfg.nodeIndex }
                                  viewChangeMsgList := viewChanges.values }
        let msg := msg.setPrePrepareList E list
        return ({ s with newViewGenerated := true }.emit (sendActions E s.cfg.keyPair none (.newView msg)), some msg)

/-- `tryToTriggerFastViewChange`: the view to reach, `0` for none. -/
def tryToTriggerFastViewChange (s : Node) : Node × ViewType :=
  let greater := s.viewChangeCache.entries.filter (fun e => !(e.1 ≤ s.cfg.toView))
  -- the map is walked in increasing order, so the first view above `toView` is the smallest
  let viewToReach := (greater.head?.map (·.1)).getD 0
  let weight := greater.foldl (fun w e => e.2.keys.foldl (fun w i =>
    match s.cfg.getConsensusNodeByIndex i with
    | none => w
    | some nodeInfo => w + nodeInfo.weight) w) 0
  if weight < s.cfg.maxFaultyQuorum + 1 then (s, 0)
  else if s.cfg.toView ≥ viewToReach then (s, 0)
  else if viewToReach > 0 then (s.setCfg { s.cfg with toView := viewToReach - 1 }, viewToReach)
  else (s, viewToReach)

/-- The loop of `checkPrecommitWeight`; `none` is a read past the end of the proof lists. -/
def checkProof (E : Env) (cfg : Config) (hash : HashType) : List (Option (Int × Bytes)) → UInt64 → Option Bool
  | [], weight => some (weight ≥ cfg.minRequiredQuorum)
  | none :: _, _ => none
  | some (nodeIdx, signature) :: t, weight =>
    match cfg.getConsensusNodeByIndex (.ofInt nodeIdx) with
    | none => some false
    | some nodeInfo =>
      if E.crypto.verify nodeInfo.nodeID hash signature then checkProof E cfg hash t (weight + nodeInfo.weight)
      else some false

def checkPrecommitWeight (E : Env) (s : Node) (p : PBFTProposal) : Option Bool :=
  checkProof E s.cfg p.hash ((List.range p.signatureProofSize).map p.signatureProof) 0

def checkPrecommitMsg (E : Env) (s : Node) (m : PBFTMessage) : Option Bool :=
  if s.cfg.startRecovered && m.view > s.cfg.view then some false
  else
    match m.consensusProposal with
    | none => some false
    | some p => checkPrecommitWeight E s p

/-- Only the weights of the views still in the cache are recomputed. -/
def reCalculateViewChangeWeight (s : Node) : Node :=
  { s with viewChangeWeight := s.viewChangeCache.entries.foldl (fun t e =>
      t.insert e.1 (e.2.entries.foldl (fun w c =>
        match s.cfg.getConsensusNodeByIndex c.2.generatedFrom with
        | none => w
        | some nodeInfo => w + nodeInfo.weight) 0)) s.viewChangeWeight }

/-- The views of which `removeInvalidViewChange` drops a message. -/
def invalidViews (s : Node) (view : ViewType) (latestCommitted : Int) : List ViewType :=
  (s.viewChangeCache.entries.filter fun e => e.2.entries.any fun m => e.1 ≤ view || m.2.index < latestCommitted).map (·.1)

def removeInvalidViewChange (s : Node) (view : ViewType) (latestCommitted : Int) : Node :=
  { s with
    viewChangeWeight := s.viewChangeWeight.filter
      (fun v _ => !(v ≤ view && s.viewChangeCache.contains v))
    viewChangeCache := (s.viewChangeCache.filter (fun v _ => !(v ≤ view))).mapVal
      (fun _ l => l.filter (fun _ m => !(m.index < latestCommitted)))
    }.reCalculateViewChangeWeight.emit [.dropViewChanges (s.invalidViews view latestCommitted)]

/-- The views that view changes are stored for. -/
def viewChangeViews (s : Node) : List ViewType :=
  (s.viewChangeCache.entries.filter fun e => e.2.entries ≠ []).map (·.1)

def removeInvalidRecoverCache (s : Node) (view : ViewType) : Node :=
  { s with
    recoverCacheWeight := s.recoverCacheWeight.filter (fun v _ => !(v ≤ view && s.recoverReqCache.contains v))
    recoverReqCache := s.recoverReqCache.filter (fun v _ => !(v ≤ view)) }

def removeConsensusedCache (s : Node) (view : ViewType) (number : Int) : Node :=
  let gone := s.caches.entries.filter (fun (e : Int × PBFTCache) => e.1 ≤ number || e.2.stableCommitted)
  let s := { s with caches := s.caches.filter (fun i c => !(i ≤ number || c.stableCommitted)) }.emit
    (gone.map (fun (e : Int × PBFTCache) => Action.eraseCache e.1))
  let s := s.removeInvalidViewChange view number
  { s with
    maxPrecommitIndex := ∅, maxCommittedIndex := ∅, newViewGenerated := false }.emit [.clearIndexTables s.viewChangeViews]

def resetCacheAt (view : ViewType) (s : Node) (i : Int) : Node :=
  match s.caches.find? i with
  | none => s
  | some c =>
    let r := c.resetCache s.cfg view
    { s with caches := s.caches.insert i r.1 }.emit r.2

def resetCacheAfterViewChange (s : Node) (view : ViewType) (latestCommitted : Int) : Node :=
  let s := s.caches.keys.foldl (resetCacheAt view) s
  let s := { s with maxPrecommitIndex := ∅, maxCommittedIndex := ∅, newViewGenerated := false }
  let s := s.removeInvalidViewChange view latestCommitted
  (s.emit [.clearIndexTables s.viewChangeViews]).removeInvalidRecoverCache view

def addRecoverReqCache (s : Node) (m : PBFTMessage) : Node :=
  if ((s.recoverReqCache.find? m.view).bind (·.find? m.generatedFrom)).isSome then s
  else
    let ofView := ((s.recoverReqCache.find? m.view).getD ∅).insert m.generatedFrom m
    let s := { s with recoverReqCache := s.recoverReqCache.insert m.view ofView }
    match s.cfg.getConsensusNodeByIndex m.generatedFrom with
    | none => s
    | some nodeInfo =>
      let weight := (s.recoverCacheWeight.find? m.view).getD 0 + nodeInfo.weight
      { s with recoverCacheWeight := s.recoverCacheWeight.insert m.view weight }

def checkAndTryToRecover (s : Node) : Node :=
  let recovered := s.recoverCacheWeight.entries.foldl (fun r e =>
    if e.2 ≥ s.cfg.minRequiredQuorum && r < e.1 then e.1 else r) 0
  if recovered = 0 then s
  else
    let s := s.setCfg (s.cfg.resetNewViewState recovered)
    let s := s.resetCacheAfterViewChange recovered s.cfg.committedIndex
    { s with recoverReqCache := ∅, recoverCacheWeight := ∅ }

/-! ### Synced blocks -/

/-- The loop over the caches of `removeFutureProposals`, for one cache that it erases. -/
def eraseFutureCache (E : Env) (s : Node) (e : Int × PBFTCache) : Node :=
  let s :=
    match e.2.precommit with
    | some m =>
      match m.consensusProposal with
      | some p => if m.index < s.cfg.committedIndex then s.asyncResetTxsFlag E p.data false else s
      | none => s
    | none => s
  { s with caches := s.caches.erase e.1 }.emit
    [.asyncRemoveStabledCheckPoint ((e.2.checkpointProposal.map PBFTProposal.index).getD 0), .eraseCache e.1]

/-- The transactions of the queued proposals below the committed index are handed back to the pool. -/
def resetQueuedTxs (E : Env) (s : Node) : Node :=
  s.committedQueue.foldl (fun s p =>
    if p.index ≥ s.cfg.committedIndex then s else s.asyncResetTxsFlag E p.data false) s

def clearQueues (s : Node) : Node :=
  { s with committedQueue := [], committedProposalList := ∅, stableCheckPointQueue := [] }

/-- The caches that `removeFutureProposals` erases: from the committed index on, with an executed proposal. -/
def futureCaches (s : Node) : List (Int × PBFTCache) :=
  s.caches.entries.filter (fun e => e.2.index ≥ s.cfg.committedIndex && e.2.checkpointProposal.isSome)

def removeFutureProposals (E : Env) (s : Node) : Node :=
  let s := s.setCfg (s.cfg.setExpectedCheckPoint (s.cfg.committedIndex + 1))
  let s := (s.resetQueuedTxs E).clearQueues
  s.futureCaches.foldl (eraseFutureCache E) s

end Node

end BcosPbft
