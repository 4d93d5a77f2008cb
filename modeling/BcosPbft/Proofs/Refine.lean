import BcosPbft.Lib.Labelled
import BcosPbft.Spec.World

/-! The primitive steps of a node. Every event is a sequence of them, so an invariant of the whole run is
checked once for each primitive step. A quiet step keeps the core of the state and only adds actions that no
invariant speaks about. -/

namespace BcosPbft

def Action.neutral : Action → Bool
  | .sign (.hashFields t _) => t ≠ .PreparePacket && t ≠ .CommitPacket && t ≠ .CheckPoint
  | .sign _ => true
  | .send _ (.pbft m) _ => m.packetType ≠ .PreparePacket && m.packetType ≠ .CommitPacket && m.packetType ≠ .CheckPoint
  | .send _ (.viewChange m) _ => m.packetType ≠ .ViewChangePacket
  | .send _ (.newView _) _ => false
  | .send _ _ _ => true
  | .asyncRemoveStabledCheckPoint _ | .asyncResetTxsFlag _ _ | .sealProposal _ _ | .resetSealing
  | .notifyCommittedProposalIndex _ => true
  | _ => false

/-- The fields of a node that the invariants of a run are about. -/
structure Core where
  keyPair : KeyPair
  nodeIndex : IndexType
  consensusNodeNum : IndexType
  consensusNodeList : List ConsensusNode
  totalQuorum : UInt64
  maxFaultyQuorum : UInt64
  minRequiredQuorum : UInt64
  committedProposal : Option PBFTProposal
  progressedIndex : Int
  expectedCheckPoint : Int
  lowWaterMark : Int
  view : ViewType
  toView : ViewType
  timeoutState : Bool
  leaderSwitchPeriod : UInt64
  connectedNodeList : List NodeID
  infoLog : Bool
  warterMarkLimit : Int
  waitResealUntil : Int
  caches : OrdMap Int PBFTCache
  viewChangeCache : OrdMap ViewType (OrdMap IndexType ViewChangeMsg)
  viewChangeWeight : OrdMap ViewType UInt64
  maxCommittedIndex : OrdMap ViewType Int
  maxPrecommitIndex : OrdMap ViewType Int
  committedQueue : List PBFTProposal
  executingProposals : OrdMap HashType Int
  stableCheckPointQueue : List PBFTProposal
  msgQueue : List Message
  submitting : List SealedBlock
  verifying : List (PBFTMessage × Bool)
  loading : List (PBFTProposal × Nat)
  lowMarks : List Int
  executions : List Execution
  applied : List Applied
  precommitRequests : List PBFTMessage

def Node.core (s : Node) : Core where
  keyPair := s.cfg.keyPair
  nodeIndex := s.cfg.nodeIndex
  consensusNodeNum := s.cfg.consensusNodeNum
  consensusNodeList := s.cfg.consensusNodeList
  totalQuorum := s.cfg.totalQuorum
  maxFaultyQuorum := s.cfg.maxFaultyQuorum
  minRequiredQuorum := s.cfg.minRequiredQuorum
  committedProposal := s.cfg.committedProposal
  progressedIndex := s.cfg.progressedIndex
  expectedCheckPoint := s.cfg.expectedCheckPoint
  lowWaterMark := s.cfg.lowWaterMark
  view := s.cfg.view
  toView := s.cfg.toView
  timeoutState := s.cfg.timeoutState
  leaderSwitchPeriod := s.cfg.leaderSwitchPeriod
  connectedNodeList := s.cfg.connectedNodeList
  infoLog := s.cfg.infoLog
  warterMarkLimit := s.cfg.warterMarkLimit
  waitResealUntil := s.cfg.waitResealUntil
  caches := s.caches
  viewChangeCache := s.viewChangeCache
  viewChangeWeight := s.viewChangeWeight
  maxCommittedIndex := s.maxCommittedIndex
  maxPrecommitIndex := s.maxPrecommitIndex
  committedQueue := s.committedQueue
  executingProposals := s.executingProposals
  stableCheckPointQueue := s.stableCheckPointQueue
  msgQueue := s.msgQueue
  submitting := s.submitting
  verifying := s.verifying
  loading := s.loading
  lowMarks := s.lowMarks
  executions := s.executions
  applied := s.applied
  precommitRequests := s.precommitRequests

structure Quiet (s t : Node) : Prop where
  core : t.core = s.core
  log : ∃ l, t.log = s.log ++ l ∧ ∀ a ∈ l, a.neutral = true

namespace Quiet

theorem refl (s : Node) : Quiet s s := ⟨rfl, [], by simp, by simp⟩

theorem same {s t : Node} (hcore : t.core = s.core) (hlog : t.log = s.log) : Quiet s t :=
  ⟨hcore, [], by simp [hlog], by simp⟩

theorem trans {s t u : Node} (h : Quiet s t) (h' : Quiet t u) : Quiet s u := by
  obtain ⟨l, hl, hn⟩ := h.log
  obtain ⟨l', hl', hn'⟩ := h'.log
  refine ⟨h'.core.trans h.core, l ++ l', by rw [hl', hl, List.append_assoc], fun a ha => ?_⟩
  rcases List.mem_append.1 ha with ha | ha
  · exact hn a ha
  · exact hn' a ha

theorem after {s t u : Node} (h : Quiet t u) (hcore : t.core = s.core) (hlog : t.log = s.log) : Quiet s u :=
  (same hcore hlog).trans h

theorem emit {s : Node} {l : List Action} (hl : ∀ a ∈ l, a.neutral = true) : Quiet s (s.emit l) :=
  ⟨rfl, l, rfl, hl⟩

theorem foldl {α : Type} {f : Node → α → Node} (hf : ∀ s a, Quiet s (f s a)) (l : List α) (s : Node) :
    Quiet s (l.foldl f s) := by
  induction l generalizing s with
  | nil => exact refl s
  | cons a l ih => exact (hf s a).trans (ih (f s a))

end Quiet

/-- Where a proposal for the commit queue comes from. -/
inductive PushSource
  | committed | loaded | failed
deriving DecidableEq

/-- How a pre-prepare gets to the verifier: from a packet, with the data of a peer's answer, or for an entry of a
new view, the node's own or a received one. -/
inductive VerifySource
  | packet | answer
  | entry (own : Bool) (m : PBFTMessage)

/-- The primitive steps by name. A `Bool` says that the message is the node's own. -/
inductive Label
  | quiet | mode | aim | view | expect | lowRead | lowMark
  | ledger (l : LedgerConfig)
  | nodes (l : List ConsensusNode)
  | receive (msg : Message)
  | dequeue
  | seal (b : SealedBlock)
  | store (m : PBFTMessage)
  | vote (m : PBFTMessage)
  | prepare (m : PBFTMessage)
  | commit (m : PBFTMessage)
  | checkPoint (own : Bool) (m : PBFTMessage)
  | preCommit | submit | reset | stable | reencode | erase
  | setCheckPoint (p : PBFTProposal)
  | push (source : PushSource) (p : PBFTProposal)
  | queue
  | unmark (hash : HashType)
  | expire
  | apply (lastApplied proposal : PBFTProposal)
  | executed | announce | settle | resend
  | pushStable (p : PBFTProposal)
  | popStable
  | verify (source : VerifySource) (m : PBFTMessage)
  | request (own : Bool) (m : PBFTMessage)
  | load (p : PBFTProposal)
  | answer
  | viewChange (own : Bool) (m : ViewChangeMsg)
  | sendViewChange | dropViewChanges | clearTables
  | newView (m : NewViewMsg)
  | reseal (own : Bool) (m : NewViewMsg)

def LedgerConfig.proposal (l : LedgerConfig) : PBFTProposal :=
  { proposal := { index := l.blockNumber, hash := l.hash.val } }

def PBFTCache.Purged (v : ViewType) (c : PBFTCache) : Prop :=
  ∀ tally, tally = c.prepareCacheList ∨ tally = c.commitCacheList →
    ∀ h l, tally.find? h = some l → ∀ i m, l.find? i = some m → v ≤ m.view

def Node.Generated (s : Node) (m : PBFTMessage) : Prop :=
  ∃ dst msg data, Action.send dst (.newView msg) data ∈ s.log ∧ m ∈ msg.prePrepareList

def Node.SentView (s : Node) (m : NewViewMsg) : Prop :=
  ∃ dst m' data, Action.send dst (.newView m') data ∈ s.log ∧ m'.prePrepareList = m.prePrepareList

/-- An entry of a new view is verified with its own data or with that of the precommitted proposal. -/
def Node.Sourced (s : Node) (m : PBFTMessage) : VerifySource → Prop
  | .packet | .answer => True
  | .entry own m₀ => (own = true → s.Generated m₀) ∧
      ((m = m₀ ∧ ∃ p, m₀.consensusProposal = some p ∧ p.data ≠ []) ∨ s.tryToFillProposal m₀ = some m)

def prepareVoteOf (E : Env) (cfg : Config) (now : Int) (m : PBFTMessage) : PBFTMessage :=
  encodedMsg E cfg.keyPair (({ cfg := cfg, utcTime := now } : Node).prepareVote E m)

def voteActions (E : Env) (s : Node) (m : PBFTMessage) : List Action :=
  .sign (.proposal (m.consensusProposal.getD {}).hash) ::
    sendActions E s.cfg.keyPair none (.pbft (s.prepareVote E m))

def checkPointActions (E : Env) (s : Node) (p : PBFTProposal) : List Action :=
  .sign (.proposal p.hash) :: sendActions E s.cfg.keyPair none (.pbft (s.checkPointVote E p))

/-- The primitive steps. Each is a function of the model with what is known where it is called. -/
inductive Prim (E : Env) : Label → Node → Node → Prop
  | quiet {s t : Node} (h : Quiet s t) : Prim E .quiet s t
  | mode (s : Node) (timeoutState : Bool) (leaderSwitchPeriod : UInt64) (connectedNodeList : List NodeID) :
      Prim E .mode s (s.setCfg { s.cfg with timeoutState := timeoutState, leaderSwitchPeriod := leaderSwitchPeriod
                                            connectedNodeList := connectedNodeList })
  | aim (s : Node) (toView : ViewType) (timeoutState : Bool) :
      Prim E .aim s (s.setCfg { s.cfg with toView := toView, timeoutState := timeoutState })
  | view (s : Node) {v : ViewType} (hv : s.cfg.view ≤ v) (hp : ∀ i c, s.caches.find? i = some c → c.Purged v) :
      Prim E .view s (s.setCfg (s.cfg.resetNewViewState v))
  | expect (s : Node) {i : Int} (h : i ≤ s.cfg.committedIndex + 1 ∨ ∃ c, s.caches.find? (i - 1) = some c ∧
        (c.index = i - 1 → c.checkpointProposal.isSome = true)) :
      Prim E .expect s (s.setCfg (s.cfg.setExpectedCheckPoint i))
  | lowRead (s : Node) {i : Int} (h : s.cfg.progressedIndex ≤ i) :
      Prim E .lowRead s { s with lowMarks := s.lowMarks ++ [i] }
  | lowMark (s : Node) {i : Int} (h : i ∈ s.lowMarks ∨ s.cfg.progressedIndex ≤ i) :
      Prim E .lowMark s (s.setCfg (s.cfg.setLowWaterMark i))
  | ledger (s : Node) {l : LedgerConfig}
      (h : ¬(l.blockNumber ≤ s.cfg.committedIndex ∧ s.cfg.committedIndex > 0)) :
      Prim E (.ledger l) s (s.setCfg (s.cfg.setCommittedProposal l.proposal))
  | nodes (s : Node) {l : List ConsensusNode} {c : Config} (h : s.cfg.setConsensusNodeList E l = some c) :
      Prim E (.nodes l) s (s.setCfg c)
  | receive (s : Node) (msg : Message) : Prim E (.receive msg) s { s with msgQueue := s.msgQueue ++ [msg] }
  | dequeue (s : Node) {q : List Message} (h : ∀ msg ∈ q, msg ∈ s.msgQueue) :
      Prim E .dequeue s { s with msgQueue := q }
  | seal (s : Node) {b : SealedBlock} (hview : b.view = s.cfg.view) (hnode : b.nodeIndex = s.cfg.nodeIndex) :
      Prim E (.seal b) s { s with submitting := s.submitting ++ [b] }
  | store (s : Node) {m : PBFTMessage} (h : s.checkPrePrepareMsg m = true) :
      Prim E (.store m) s (s.addCache m (fun c => c.addPrePrepareCache m))
  | vote (s : Node) {m : PBFTMessage}
      (h : ∃ c, s.caches.find? m.index = some c ∧ (c.acceptsPrePrepare m = true → c.prePrepare = some m)) :
      Prim E (.vote m) s
        ((s.addPrepareCache (prepareVoteOf E s.cfg s.utcTime m)).emit (voteActions E s m))
  | prepare (s : Node) {m : PBFTMessage} (h : s.checkPBFTMsg E m = true)
      (hp : s.checkProposalSignature E m.generatedFrom m.consensusProposal = true) :
      Prim E (.prepare m) s (s.addPrepareCache m)
  | commit (s : Node) {m : PBFTMessage} (h : s.checkPBFTMsg E m = true) : Prim E (.commit m) s (s.addCommitReq m)
  | checkPoint (s : Node) {own : Bool} {m : PBFTMessage} (h : own = false → s.checkSignature E (.pbft m) = true ∧
        s.checkProposalSignature E m.generatedFrom m.consensusProposal = true) :
      Prim E (.checkPoint own m) s (s.addCheckPointMsg m)
  | preCommit (s : Node) (i : Int) : Prim E .preCommit s (s.preCommitAt E i).1
  | submit (s : Node) (i : Int) : Prim E .submit s (s.commitAt i).1
  | reset (s : Node) (v : ViewType) (i : Int) : Prim E .reset s (Node.resetCacheAt v s i)
  | stable (s : Node) (acc : List PBFTProposal) (i : Int) : Prim E .stable s (Node.checkStableAt (s, acc) i).1
  | reencode (s : Node) (i : Int) : Prim E .reencode s (s.encodePrePrepare E i)
  | erase (s : Node) (keep : Int → PBFTCache → Bool) {l : List Action}
      (hl : ∀ i c, s.caches.find? i = some c → keep i c = false → Action.eraseCache i ∈ l)
      (hg : ∀ i, Action.eraseCache i ∈ l → (s.caches.filter keep).find? i = none)
      (hn : ∀ a ∈ l, a.neutral = true ∨ ∃ i, a = .eraseCache i) :
      Prim E .erase s ({ s with caches := s.caches.filter keep }.emit l)
  | setCheckPoint (s : Node) (p : PBFTProposal) : Prim E (.setCheckPoint p) s (s.setCheckPointProposal p)
  | push (s : Node) {source : PushSource} {p : PBFTProposal} (h : s.executingProposals.contains p.hash = false)
      (hp : source = .committed → s.Pushes p) :
      Prim E (.push source p) s
        ({ s with committedQueue := Node.pushQueue s.committedQueue p }.emit [.pushCommitted p])
  | queue (s : Node) {q : List PBFTProposal} (hq : ∀ p ∈ q, p ∈ s.committedQueue) :
      Prim E .queue s { s with committedQueue := q }
  | unmark (s : Node) (hash : HashType) : Prim E (.unmark hash) s (s.eraseExecutedProposal hash)
  | expire (s : Node) : Prim E .expire s s.clearExpiredExecutingProposal
  | apply (s : Node) {p lastApplied : PBFTProposal} {rest : List PBFTProposal} (hq : s.committedQueue = p :: rest)
      (hindex : p.index = s.cfg.expectedCheckPoint)
      (hlast : s.getAppliedCheckPointProposal (s.cfg.expectedCheckPoint - 1) = some lastApplied)
      (hx : s.executingProposals.contains p.hash = false) :
      Prim E (.apply lastApplied p) s ((s.takeProposal p rest).applyStateMachine lastApplied p)
  | executed (s : Node) (i : Nat) (error : Bool) : Prim E .executed s (s.onExecuted E i error)
  | announce (s : Node) {r : Applied} {rest : List Applied} (h : s.applied = r :: rest) (hs : r.success = true)
      (ha : r.announced = none) :
      Prim E .announce s
        ({ s with applied := { r with announced := some (encodedMsg E s.cfg.keyPair
            (s.checkPointVote E r.executedProposal)) } :: rest }.announceCheckPoint E r)
  | settle (s : Node) {r : Applied} {rest : List Applied} (h : s.applied = r :: rest) :
      Prim E .settle s { s with applied := rest }
  | resend (s : Node) {i : Int} {c : PBFTCache} {p : PBFTProposal} (hc : s.caches.find? i = some c)
      (hp : c.checkpointProposal = some p) : Prim E .resend s (s.emit (checkPointActions E s p))
  | pushStable (s : Node) {p : PBFTProposal} (h : ∃ i c, s.caches.find? i = some c ∧ c.checkpointProposal = some p ∧
        c.stableCommitted = true) :
      Prim E (.pushStable p) s { s with stableCheckPointQueue := Node.pushQueue s.stableCheckPointQueue p }
  | popStable (s : Node) {q : List PBFTProposal} {l : List Action} (hq : ∀ p ∈ q, p ∈ s.stableCheckPointQueue)
      (hl : ∀ a ∈ l, ∃ p ∈ s.stableCheckPointQueue, a = .asyncCommitStableCheckPoint p ∧ p.index = s.cfg.committedIndex + 1) :
      Prim E .popStable s ({ s with stableCheckPointQueue := q }.emit l)
  | verify (s : Node) {source : VerifySource} {m : PBFTMessage} (newView : Bool) (h : s.checkPrePrepareMsg m = true)
      (hm : s.Sourced m source) :
      Prim E (.verify source m) s { s with verifying := s.verifying ++ [(m, newView)] }
  | request (s : Node) {own : Bool} {m : PBFTMessage} (hown : own = true → s.Generated m)
      (hm : ∃ p, m.consensusProposal = some p ∧ p.data = []) :
      Prim E (.request own m) s { s with precommitRequests := s.precommitRequests ++ [m] }
  | load (s : Node) (p : PBFTProposal) (retryTime : Nat) :
      Prim E (.load p) s { s with loading := s.loading ++ [(p, retryTime)] }
  | answer (s : Node) {v : List (PBFTMessage × Bool)} {l : List (PBFTProposal × Nat)} {r : List PBFTMessage}
      {u : List SealedBlock} {k : List Int}
      (hv : ∀ c ∈ v, c ∈ s.verifying) (hl : ∀ c ∈ l, c ∈ s.loading) (hr : ∀ m ∈ r, m ∈ s.precommitRequests)
      (hu : ∀ b ∈ u, b ∈ s.submitting) (hk : ∀ i ∈ k, i ∈ s.lowMarks) :
      Prim E .answer s { s with verifying := v, loading := l, precommitRequests := r, submitting := u, lowMarks := k }
  | viewChange (s : Node) {own : Bool} {m : ViewChangeMsg}
      (hown : own = true → (PBFTCodec.encode E s.cfg.keyPair 0 (.viewChange s.generateViewChange)).2.1 = .viewChange m)
      (hsent : own = true → ∃ dst data, Action.send dst (.viewChange m) data ∈ s.log)
      (hsig : own = false → s.checkSignature E (.viewChange m) = true) :
      Prim E (.viewChange own m) s (s.addViewChangeReq m)
  | sendViewChange (s : Node) (dst : Option NodeID) :
      Prim E .sendViewChange s (s.emit (sendActions E s.cfg.keyPair dst (.viewChange s.generateViewChange)))
  | dropViewChanges (s : Node) (view : ViewType) (i : Int) :
      Prim E .dropViewChanges s (s.removeInvalidViewChange view i)
  | clearTables (s : Node) :
      Prim E .clearTables s ({ s with maxPrecommitIndex := ∅, maxCommittedIndex := ∅, newViewGenerated := false
          }.emit [.clearIndexTables s.viewChangeViews])
  | newView {s t : Node} {m : NewViewMsg} (h : s.checkAndTryIntoNewView E = some (t, some m)) :
      Prim E (.newView m) s t
  | reseal (s : Node) {own : Bool} {m : NewViewMsg} {i : Int} (hown : own = true → s.SentView m)
      (hi : i = s.cfg.committedIndex ∨ ∃ p ∈ m.prePrepareList, i = p.index) :
      Prim E (.reseal own m) s (s.setCfg { s.cfg with waitResealUntil := i })

/-- Labels that every handler may use. -/
def Label.free : Label → Bool
  | .quiet | .queue | .apply _ _ | .push .committed _ | .answer => true
  | _ => false

/-- Labels of a change of view: the node sends and collects view changes and may lead or follow into a new view. -/
def Label.viewing : Label → Bool
  | .view | .reset | .viewChange true _ | .sendViewChange | .dropViewChanges | .clearTables | .newView _ | .verify (.entry true _) _
  | .request true _ | .reseal true _ => true
  | l => l.free

abbrev Steps (E : Env) (A : Label → Prop) : Node → Node → Prop := Labelled.Steps (Prim E) A

def Open (A : Label → Prop) : Prop := ∀ l, l.free = true → A l

def Wide (A : Label → Prop) : Prop := ∀ l, l.viewing = true → A l

theorem Wide.isOpen {A : Label → Prop} (hA : Wide A) : Open A := by
  intro l hl
  refine hA l ?_
  cases l <;> first | exact hl | rfl | cases hl

theorem Quiet.steps_of {E : Env} {A : Label → Prop} (hA : A .quiet) {s t : Node} (h : Quiet s t) : Steps E A s t :=
  .single hA (.quiet h)

theorem Quiet.steps {E : Env} {A : Label → Prop} (hA : Open A) {s t : Node} (h : Quiet s t) : Steps E A s t :=
  h.steps_of (hA _ rfl)

theorem steps_after {E : Env} {A : Label → Prop} (hA : Open A) {s t u : Node} (h : Steps E A t u)
    (hcore : t.core = s.core) (hlog : t.log = s.log) : Steps E A s u :=
  (Quiet.steps hA (.same hcore hlog)).trans h

namespace Node

variable {E : Env} (s : Node)

theorem sendActions_neutral {keyPair : KeyPair} {dst : Option NodeID} {msg : Message}
    (h : ∀ m, msg = .pbft m → m.packetType ≠ .PreparePacket ∧ m.packetType ≠ .CommitPacket ∧ m.packetType ≠ .CheckPoint)
    (hchange : ∀ m, msg = .viewChange m → m.packetType ≠ .ViewChangePacket)
    (hview : ∀ m, msg ≠ .newView m) : ∀ a ∈ sendActions E keyPair dst msg, a.neutral = true := by
  intro a ha
  cases msg with
  | pbft m =>
    obtain ⟨hprepare, hcommit, hcheck⟩ := h m rfl
    simp only [sendActions, PBFTCodec.encode, PBFTMessage.encode, PBFTMessage.encodeHashFields,
      PBFTMessage.generateAndSetSignatureData, List.map_cons, List.map_nil, List.cons_append,
      List.nil_append, List.mem_cons, List.not_mem_nil, or_false] at ha
    rcases ha with rfl | rfl
    · simp [Action.neutral, hprepare, hcommit, hcheck]
    · simp [Action.neutral, hprepare, hcommit, hcheck]
  | viewChange m =>
    simp only [sendActions, PBFTCodec.encode] at ha
    split at ha <;>
      simp only [List.map_cons, List.map_nil, List.cons_append, List.nil_append, List.mem_cons,
        List.not_mem_nil, or_false] at ha
    · rcases ha with rfl | rfl
      · rfl
      · exact decide_eq_true (hchange m rfl)
    · subst ha
      exact decide_eq_true (hchange m rfl)
  | newView m => exact absurd rfl (hview m)
  | request m =>
    simp only [sendActions, PBFTCodec.encode, List.map_nil, List.nil_append, List.mem_singleton] at ha
    subst ha
    rfl

theorem asyncResetTxsFlag_quiet (data : Bytes) (flag : Bool) : Quiet s (s.asyncResetTxsFlag E data flag) := by
  unfold asyncResetTxsFlag
  split_ifs
  · exact .refl s
  · exact ⟨rfl, _, rfl, by simp [Action.neutral]⟩
  · exact .emit (by simp [Action.neutral])

theorem notifySealer_quiet (i : Int) (enforce : Bool) : Quiet s (s.notifySealer i enforce) := by
  unfold notifySealer
  split_ifs
  · exact .refl s
  · exact .refl s
  · exact ⟨rfl, _, rfl, by simp [Action.neutral]⟩
  · dsimp only
    split_ifs
    · exact .refl s
    · exact .refl s
    · exact .refl s
    · exact ⟨rfl, _, rfl, by simp [Action.neutral]⟩

theorem reNotifySealer_quiet (i : Int) : Quiet s (s.reNotifySealer i) := by
  unfold reNotifySealer
  split_ifs
  · exact .refl s
  · exact (notifySealer_quiet _ i false).after rfl rfl

theorem onSealerReset_quiet (c : Option Int) (i : Int) (ok : Bool) : Quiet s (s.onSealerReset c i ok) := by
  unfold onSealerReset
  split
  · split_ifs
    · exact reNotifySealer_quiet s _
    · exact .refl s
  · exact .refl s

theorem askSealerReset_quiet (c : Option Int) : Quiet s (s.askSealerReset c) := by
  have hasked : Quiet s ({ s with sealerAnswers := s.sealerAnswers.tail }.emit [.resetSealing]) :=
    ⟨rfl, _, rfl, by simp [Action.neutral]⟩
  unfold askSealerReset
  dsimp only
  split
  · exact hasked.trans (onSealerReset_quiet _ c _ _)
  · exact hasked.trans (.same rfl rfl)

theorem notifyResetSealing_quiet (c : Option Int) : Quiet s (s.notifyResetSealing c) :=
  (askSealerReset_quiet s c).trans (.same rfl rfl)

theorem notifyCommittedProposalIndex_quiet (i : Int) : Quiet s (s.notifyCommittedProposalIndex i) :=
  .emit (by simp [Action.neutral])

theorem notifyMaxProposalIndex_quiet (i : Int) : Quiet s (s.notifyMaxProposalIndex i) := by
  unfold notifyMaxProposalIndex
  split_ifs
  · exact (notifyCommittedProposalIndex_quiet _ i).after rfl rfl
  · exact .refl s

theorem notifyToSealNextBlock_quiet (p : PBFTProposal) : Quiet s (s.notifyToSealNextBlock p) := by
  unfold notifyToSealNextBlock
  dsimp only
  split_ifs
  · exact (notifySealer_quiet s _ false).trans (.same rfl rfl)
  · exact .same rfl rfl
  · exact notifySealer_quiet s _ false
  · exact .refl s

theorem shouldRequestCheckPoint_quiet (m : PBFTMessage) : Quiet s (s.shouldRequestCheckPoint m).1 := by
  unfold shouldRequestCheckPoint
  split_ifs
  · exact .refl s
  · exact .refl s
  · exact .refl s
  · exact .refl s
  · split
    · exact .refl s
    · split_ifs
      · exact .refl s
      · exact .refl s
      · exact .same rfl rfl

theorem checkAndTryIntoNewView_none {t : Node} (h : s.checkAndTryIntoNewView E = some (t, none)) : t = s := by
  unfold checkAndTryIntoNewView at h
  split_ifs at h
  · exact (Prod.mk.inj (Option.some.inj h)).1.symm
  · exact (Prod.mk.inj (Option.some.inj h)).1.symm
  · split at h
    · exact (Prod.mk.inj (Option.some.inj h)).1.symm
    · split_ifs at h
      · exact (Prod.mk.inj (Option.some.inj h)).1.symm
      · obtain ⟨list, -, h⟩ := Option.bind_eq_some_iff.1 h
        cases (Prod.mk.inj (Option.some.inj h)).2

/-- The new view that a node makes of the view changes it has collected. -/
def ownNewView (viewChanges : OrdMap IndexType ViewChangeMsg) (list : List PBFTMessage) : NewViewMsg :=
  NewViewMsg.setPrePrepareList E
    { base := { hash := s.cfg.committedHash.val, index := s.cfg.committedIndex, view := s.cfg.toView
                timestamp := s.utcTime, generatedFrom := s.cfg.nodeIndex }
      viewChangeMsgList := viewChanges.values } list

theorem checkAndTryIntoNewView_some {t : Node} {m : NewViewMsg}
    (h : s.checkAndTryIntoNewView E = some (t, some m)) : ∃ w list,
      s.viewChangeWeight.find? s.cfg.toView = some w ∧ s.cfg.minRequiredQuorum ≤ w ∧
      s.generatePrePrepareMsg E ((s.viewChangeCache.find? s.cfg.toView).getD ∅) = some list ∧
      m = s.ownNewView (E := E) ((s.viewChangeCache.find? s.cfg.toView).getD ∅) list ∧
      t = { s with newViewGenerated := true }.emit (sendActions E s.cfg.keyPair none (.newView m)) := by
  unfold checkAndTryIntoNewView at h
  split_ifs at h
  · cases (Prod.mk.inj (Option.some.inj h)).2
  · cases (Prod.mk.inj (Option.some.inj h)).2
  · split at h
    · cases (Prod.mk.inj (Option.some.inj h)).2
    · rename_i w hw
      split_ifs at h with hquorum
      · cases (Prod.mk.inj (Option.some.inj h)).2
      · obtain ⟨list, hlist, h⟩ := Option.bind_eq_some_iff.1 h
        obtain ⟨rfl, hm⟩ := Prod.mk.inj (Option.some.inj h)
        obtain rfl := Option.some.inj hm
        exact ⟨w, list, hw, not_lt.1 hquorum, hlist, rfl, rfl⟩

theorem tryToTriggerFastViewChange_cases : s.tryToTriggerFastViewChange.1 = s ∧ s.tryToTriggerFastViewChange.2 = 0 ∨
    ∃ v, s.cfg.toView < v ∧ s.tryToTriggerFastViewChange = (s.setCfg { s.cfg with toView := v - 1 }, v) := by
  unfold tryToTriggerFastViewChange
  dsimp only
  split_ifs with hweight hreached hpos
  · exact Or.inl ⟨rfl, rfl⟩
  · exact Or.inl ⟨rfl, rfl⟩
  · exact Or.inr ⟨_, not_le.1 hreached, rfl⟩
  · refine Or.inl ⟨rfl, ?_⟩
    exact le_antisymm (not_lt.1 hpos) (UInt64.le_iff_toNat_le.2 (Nat.zero_le _))

theorem removeInvalidRecoverCache_quiet (view : ViewType) : Quiet s (s.removeInvalidRecoverCache view) :=
  .same rfl rfl

theorem addRecoverReqCache_quiet (m : PBFTMessage) : Quiet s (s.addRecoverReqCache m) := by
  unfold addRecoverReqCache
  split_ifs
  · exact .refl s
  · dsimp only
    split <;> exact .same rfl rfl

theorem sendRecoverResponse_quiet (dst : NodeID) : Quiet s (s.sendRecoverResponse E dst) := by
  refine .emit (sendActions_neutral (fun m hm => ?_) (fun _ hm => Message.noConfusion hm) (fun _ => Message.noConfusion))
  obtain rfl := Message.pbft.inj hm
  exact ⟨PacketType.noConfusion, PacketType.noConfusion, PacketType.noConfusion⟩

end Node

namespace Node

theorem applyStateMachine_core (s : Node) (lastApplied p : PBFTProposal) :
    (s.applyStateMachine lastApplied p).core =
      { s.core with executions := s.executions ++ [{ lastApplied := lastApplied, proposal := p }] } := by
  have h := (notifyToSealNextBlock_quiet s p).core
  have hexec : (s.notifyToSealNextBlock p).executions = s.executions := congrArg Core.executions h
  rw [← h, ← hexec]
  rfl

theorem applyStateMachine_log (s : Node) (lastApplied p : PBFTProposal) :
    ∃ l, (s.applyStateMachine lastApplied p).log = s.log ++ l ++ [.asyncApply lastApplied p] ∧
      ∀ a ∈ l, a.neutral = true := by
  obtain ⟨l, hl, hn⟩ := (notifyToSealNextBlock_quiet s p).log
  exact ⟨l, by rw [← hl]; rfl, hn⟩

theorem addViewChangeReq_cfg (s : Node) (m : ViewChangeMsg) : (s.addViewChangeReq m).cfg = s.cfg := by
  unfold addViewChangeReq
  split
  · rfl
  · split <;> rfl

theorem reported_cfg (s : Node) (c : PBFTCache) (ret : Bool) : (s.reported c ret).1.cfg = s.cfg := by
  unfold reported
  split <;> rfl

theorem preCommitAt_cfg (E : Env) (s : Node) (i : Int) : (s.preCommitAt E i).1.cfg = s.cfg := by
  unfold preCommitAt
  split
  · rfl
  · exact reported_cfg _ _ _

theorem commitAt_cfg (s : Node) (i : Int) : (s.commitAt i).1.cfg = s.cfg := by
  unfold commitAt
  split
  · rfl
  · exact reported_cfg _ _ _

theorem resetCacheAt_cfg (v : ViewType) (s : Node) (i : Int) : (resetCacheAt v s i).cfg = s.cfg := by
  unfold resetCacheAt
  split <;> rfl

theorem checkStableAt_cfg (acc : Node × List PBFTProposal) (i : Int) : (checkStableAt acc i).1.cfg = acc.1.cfg := by
  unfold checkStableAt
  split <;> rfl

theorem encodePrePrepare_cfg (E : Env) (s : Node) (i : Int) : (s.encodePrePrepare E i).cfg = s.cfg := by
  unfold encodePrePrepare
  split <;> rfl

theorem onExecuted_cfg (E : Env) (s : Node) (i : Nat) (error : Bool) : (s.onExecuted E i error).cfg = s.cfg := by
  unfold onExecuted
  split
  · rfl
  · dsimp only
    split
    · rfl
    · split <;> rfl

end Node

structure Config.Agrees (c c' : Config) : Prop where
  keyPair : c'.keyPair = c.keyPair
  nodeIndex : c'.nodeIndex = c.nodeIndex
  number : c'.consensusNodeNum = c.consensusNodeNum
  list : c'.consensusNodeList = c.consensusNodeList
  total : c'.totalQuorum = c.totalQuorum
  faulty : c'.maxFaultyQuorum = c.maxFaultyQuorum
  required : c'.minRequiredQuorum = c.minRequiredQuorum
  committedProposal : c'.committedProposal = c.committedProposal
  progressedIndex : c'.progressedIndex = c.progressedIndex
  expectedCheckPoint : c'.expectedCheckPoint = c.expectedCheckPoint
  lowWaterMark : c'.lowWaterMark = c.lowWaterMark
  view : c'.view = c.view
  toView : c'.toView = c.toView
  timeoutState : c'.timeoutState = c.timeoutState
  leaderSwitchPeriod : c'.leaderSwitchPeriod = c.leaderSwitchPeriod
  connectedNodeList : c'.connectedNodeList = c.connectedNodeList
  infoLog : c'.infoLog = c.infoLog
  limit : c'.warterMarkLimit = c.warterMarkLimit
  waitResealUntil : c'.waitResealUntil = c.waitResealUntil

theorem Config.Agrees.refl (c : Config) : c.Agrees c := by
  constructor <;> rfl

theorem Config.Agrees.of_core {s t : Node} (h : t.core = s.core) : s.cfg.Agrees t.cfg where
  keyPair := congrArg Core.keyPair h
  nodeIndex := congrArg Core.nodeIndex h
  number := congrArg Core.consensusNodeNum h
  list := congrArg Core.consensusNodeList h
  total := congrArg Core.totalQuorum h
  faulty := congrArg Core.maxFaultyQuorum h
  required := congrArg Core.minRequiredQuorum h
  committedProposal := congrArg Core.committedProposal h
  progressedIndex := congrArg Core.progressedIndex h
  expectedCheckPoint := congrArg Core.expectedCheckPoint h
  lowWaterMark := congrArg Core.lowWaterMark h
  view := congrArg Core.view h
  toView := congrArg Core.toView h
  timeoutState := congrArg Core.timeoutState h
  leaderSwitchPeriod := congrArg Core.leaderSwitchPeriod h
  connectedNodeList := congrArg Core.connectedNodeList h
  infoLog := congrArg Core.infoLog h
  limit := congrArg Core.warterMarkLimit h
  waitResealUntil := congrArg Core.waitResealUntil h

/-- How a primitive step with a label changes the configuration. -/
inductive CfgStep (E : Env) : Label → Config → Config → Prop
  | same (l : Label) {c c' : Config} (h : c.Agrees c') : CfgStep E l c c'
  | mode (c : Config) (timeoutState : Bool) (leaderSwitchPeriod : UInt64) (connectedNodeList : List NodeID) :
      CfgStep E .mode c { c with timeoutState := timeoutState, leaderSwitchPeriod := leaderSwitchPeriod
                                 connectedNodeList := connectedNodeList }
  | aim (c : Config) (toView : ViewType) (timeoutState : Bool) :
      CfgStep E .aim c { c with toView := toView, timeoutState := timeoutState }
  | view (c : Config) {v : ViewType} (hv : c.view ≤ v) : CfgStep E .view c (c.resetNewViewState v)
  | expect (c : Config) (i : Int) : CfgStep E .expect c (c.setExpectedCheckPoint i)
  | lowMark (c : Config) (i : Int) : CfgStep E .lowMark c (c.setLowWaterMark i)
  | ledger (c : Config) {l : LedgerConfig} (h : ¬(l.blockNumber ≤ c.committedIndex ∧ c.committedIndex > 0)) :
      CfgStep E (.ledger l) c (c.setCommittedProposal l.proposal)
  | nodes {l : List ConsensusNode} {c c' : Config} (h : c.setConsensusNodeList E l = some c') :
      CfgStep E (.nodes l) c c'
  | reseal (c : Config) (own : Bool) (m : NewViewMsg) {i : Int}
      (hi : i = c.committedIndex ∨ ∃ p ∈ m.prePrepareList, i = p.index) :
      CfgStep E (.reseal own m) c { c with waitResealUntil := i }

theorem Prim.cfgStep {E : Env} {l : Label} {s t : Node} (h : Prim E l s t) : CfgStep E l s.cfg t.cfg := by
  have hsame : ∀ {u : Node}, u.cfg = s.cfg → CfgStep E l s.cfg u.cfg := fun heq => by
    rw [heq]
    exact .same l (.refl s.cfg)
  cases h with
  | quiet h => exact .same _ (.of_core h.core)
  | mode => exact .mode s.cfg _ _ _
  | aim => exact .aim s.cfg _ _
  | view _ hv => exact .view s.cfg hv
  | expect _ h => exact .expect s.cfg _
  | lowMark _ h => exact .lowMark s.cfg _
  | ledger _ h => exact .ledger s.cfg h
  | nodes _ h => exact .nodes h
  | reseal _ hown hi => exact .reseal s.cfg _ _ hi
  | preCommit _ i => exact hsame (s.preCommitAt_cfg E i)
  | submit _ i => exact hsame (s.commitAt_cfg i)
  | reset _ v i => exact hsame (Node.resetCacheAt_cfg v s i)
  | stable _ acc i => exact hsame (Node.checkStableAt_cfg (s, acc) i)
  | reencode _ i => exact hsame (s.encodePrePrepare_cfg E i)
  | executed _ i error => exact hsame (s.onExecuted_cfg E i error)
  | viewChange _ hown hsig => exact hsame (s.addViewChangeReq_cfg _)
  | newView h =>
    obtain ⟨w, list, -, -, -, -, rfl⟩ := s.checkAndTryIntoNewView_some h
    exact hsame rfl
  | @apply _ p lastApplied rest hq hindex hlast hx =>
    have hcore := (s.takeProposal p rest).applyStateMachine_core lastApplied p
    generalize (s.takeProposal p rest).applyStateMachine lastApplied p = t at hcore
    exact .same _ ⟨congrArg Core.keyPair hcore, congrArg Core.nodeIndex hcore,
      congrArg Core.consensusNodeNum hcore, congrArg Core.consensusNodeList hcore,
      congrArg Core.totalQuorum hcore, congrArg Core.maxFaultyQuorum hcore, congrArg Core.minRequiredQuorum hcore,
      congrArg Core.committedProposal hcore, congrArg Core.progressedIndex hcore,
      congrArg Core.expectedCheckPoint hcore, congrArg Core.lowWaterMark hcore, congrArg Core.view hcore,
      congrArg Core.toView hcore, congrArg Core.timeoutState hcore, congrArg Core.leaderSwitchPeriod hcore,
      congrArg Core.connectedNodeList hcore, congrArg Core.infoLog hcore, congrArg Core.warterMarkLimit hcore,
      congrArg Core.waitResealUntil hcore⟩
  | _ => exact hsame rfl

structure SameNodes (s t : Node) : Prop where
  keyPair : t.cfg.keyPair = s.cfg.keyPair
  nodeIndex : t.cfg.nodeIndex = s.cfg.nodeIndex
  list : t.cfg.consensusNodeList = s.cfg.consensusNodeList
  total : t.cfg.totalQuorum = s.cfg.totalQuorum
  faulty : t.cfg.maxFaultyQuorum = s.cfg.maxFaultyQuorum
  required : t.cfg.minRequiredQuorum = s.cfg.minRequiredQuorum

namespace SameNodes

theorem refl (s : Node) : SameNodes s s := by
  constructor <;> rfl

theorem trans {s t u : Node} (h : SameNodes s t) (h' : SameNodes t u) : SameNodes s u where
  keyPair := h'.keyPair.trans h.keyPair
  nodeIndex := h'.nodeIndex.trans h.nodeIndex
  list := h'.list.trans h.list
  total := h'.total.trans h.total
  faulty := h'.faulty.trans h.faulty
  required := h'.required.trans h.required

theorem getConsensusNodeByIndex {s t : Node} (h : SameNodes s t) (i : IndexType) :
    t.cfg.getConsensusNodeByIndex i = s.cfg.getConsensusNodeByIndex i := by
  rw [Config.getConsensusNodeByIndex, h.list, ← Config.getConsensusNodeByIndex]

end SameNodes

theorem SameNodes.checkSignature {E : Env} {s t : Node} (h : SameNodes s t) (req : Message) :
    t.checkSignature E req = s.checkSignature E req := by
  unfold Node.checkSignature
  rw [h.getConsensusNodeByIndex]

/-- Only a new node list changes the consensus nodes. -/
theorem Prim.sameNodes {E : Env} {l : Label} {s t : Node} (h : Prim E l s t) (hl : ∀ ls, l ≠ .nodes ls) :
    SameNodes s t := by
  have hcfg := h.cfgStep
  cases s
  cases t
  dsimp only at hcfg
  cases hcfg with
  | same _ h => exact ⟨h.keyPair, h.nodeIndex, h.list, h.total, h.faulty, h.required⟩
  | mode => exact ⟨rfl, rfl, rfl, rfl, rfl, rfl⟩
  | aim => exact ⟨rfl, rfl, rfl, rfl, rfl, rfl⟩
  | view _ v =>
    unfold Config.resetNewViewState
    split <;> exact ⟨rfl, rfl, rfl, rfl, rfl, rfl⟩
  | expect _ i => exact ⟨rfl, rfl, rfl, rfl, rfl, rfl⟩
  | lowMark _ i => exact ⟨rfl, rfl, rfl, rfl, rfl, rfl⟩
  | ledger _ h => exact ⟨rfl, rfl, rfl, rfl, rfl, rfl⟩
  | nodes h => exact absurd rfl (hl _)
  | reseal => exact ⟨rfl, rfl, rfl, rfl, rfl, rfl⟩

theorem Steps.sameNodes {E : Env} {A : Label → Prop} {s t : Node} (h : Steps E A s t)
    (hA : ∀ ls, ¬A (.nodes ls)) : SameNodes s t :=
  Labelled.Steps.preserves (I := SameNodes s)
    (fun _ _ _ hl hp hs => hs.trans (hp.sameNodes (fun ls heq => hA ls (heq ▸ hl)))) h (.refl s)

theorem sameNodes_of_viewing {E : Env} {s t : Node} (h : Steps E (fun l => l.viewing = true) s t) : SameNodes s t :=
  h.sameNodes (fun _ hviewing => Bool.noConfusion hviewing)

theorem Config.setConsensusNodeList_frame {E : Env} {c c' : Config} {l : List ConsensusNode}
    (h : c.setConsensusNodeList E l = some c') : ∃ list updated number index total faulty required,
      c' = { c with consensusNodeList := list, nodeUpdated := updated, consensusNodeNum := number, nodeIndex := index
                    totalQuorum := total, maxFaultyQuorum := faulty, minRequiredQuorum := required } := by
  unfold setConsensusNodeList at h
  split_ifs at h
  dsimp only at h
  split_ifs at h
  · exact ⟨_, _, _, _, _, _, _, (Option.some.inj h).symm⟩
  · exact ⟨_, _, _, _, _, _, _, (Option.some.inj h).symm⟩

theorem CfgStep.committedProposal_eq {E : Env} {l : Label} {c c' : Config} (h : CfgStep E l c c') (hl : ∀ b, l ≠ .ledger b) :
    c'.committedProposal = c.committedProposal := by
  cases h with
  | same _ h => exact h.committedProposal
  | view _ hv =>
    unfold Config.resetNewViewState
    split <;> rfl
  | ledger _ h => exact absurd rfl (hl _)
  | nodes h =>
    obtain ⟨_, _, _, _, _, _, _, rfl⟩ := Config.setConsensusNodeList_frame h
    rfl
  | _ => rfl

/-- Only the ledger commits a block. -/
theorem Steps.committed {E : Env} {A : Label → Prop} {s t : Node} (h : Steps E A s t) (hA : ∀ b, ¬A (.ledger b)) :
    t.cfg.committedProposal = s.cfg.committedProposal :=
  h.preserves (I := fun u => u.cfg.committedProposal = s.cfg.committedProposal)
    (fun _ _ _ hl hp hu => (hp.cfgStep.committedProposal_eq fun b hb => hA b (hb ▸ hl)).trans hu) rfl

end BcosPbft
