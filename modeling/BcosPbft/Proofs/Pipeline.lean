import BcosPbft.Proofs.Parents
import BcosPbft.Proofs.Prepare

/-! Execution in order. A proposal is executed on the result of the index below it, which the node holds as its committed
block or in the cache of that index; the cache is there as long as no committed block takes it away. -/

namespace BcosPbft

structure Filed (s : Node) : Prop where
  index : ∀ i c, s.caches.find? i = some c → c.index = i
  checkpoint : ∀ i c p, s.caches.find? i = some c → c.checkpointProposal = some p → p.index = i

section

variable {E : Env} {l : Label} {s t : Node}

theorem Prim.filed (h : Prim E l s t) (hs : Filed s) : Filed t := by
  constructor
  · intro i c hc
    rw [(h.cacheStep hc).index]
    cases hold : s.caches.find? i with
    | none => rfl
    | some d => exact hs.index i d hold
  · intro i c p hc hp
    rcases (h.cacheStep hc).checkpointProposal hp with ⟨q, hq, heq⟩ | ⟨-, hindex⟩
    · cases hold : s.caches.find? i with
      | none =>
        rw [hold] at hq
        cases hq
      | some d =>
        rw [hold, Option.getD_some] at hq
        rw [PBFTProposal.index, heq]
        exact hs.checkpoint i d q hold hq
    · exact hindex

theorem CacheStep.executed {cfg : Config} {now i : Int} {c c' : PBFTCache} (h : CacheStep E cfg now l i c c')
    (hc : c.checkpointProposal.isSome = true) : c'.checkpointProposal.isSome = true := by
  cases h with
  | preCommit =>
    rcases c.checkAndPreCommit_cases E cfg now with heq | ⟨m, p, -, -, -, -, -, heq⟩
    · rw [heq]
      exact hc
    · rw [heq]
      rcases (c.enterPrecommit E cfg now m p).checkAndCommit_cases cfg with heq' | ⟨heq', -⟩
      · rw [heq']
        exact hc
      · rw [heq']
        exact hc
  | submit =>
    rcases c.checkAndCommit_cases cfg with heq | ⟨heq, -⟩
    · rw [heq]
      exact hc
    · rw [heq]
      exact hc
  | stable =>
    rcases c.checkAndCommitStableCheckPoint_cases cfg with heq | ⟨p, w, -, -, -, -, heq⟩
    · rw [heq]
      exact hc
    · rw [heq]
      rfl
  | setCheckPoint p =>
    unfold PBFTCache.setCheckPointProposal
    split_ifs
    · exact hc
    · exact hc
    · rfl
  | _ => exact hc

theorem Filed.getApplied (hs : Filed s) {i : Int} {p : PBFTProposal} (hp : s.getAppliedCheckPointProposal i = some p) :
    p.index = i := by
  unfold Node.getAppliedCheckPointProposal at hp
  split_ifs at hp with hi
  · rw [hi, Config.committedIndex, hp]
    rfl
  · obtain ⟨c, hc, hp⟩ := Option.bind_eq_some_iff.1 hp
    exact hs.checkpoint i c p hc hp

end

/-- A call of `tryToApplyCommitQueue` executes the expected proposal on the one below it, and so did every call before; an
execution in flight takes neither of the branches of `apply` for other indices. -/
structure AppliesInOrder (s : Node) : Prop where
  filed : Filed s
  next : s.tryToApplyCommitQueue.2 = true → ∃ k lastApplied p,
    s.tryToApplyCommitQueue.1.log = s.log ++ k ++ [.asyncApply lastApplied p] ∧ (∀ a ∈ k, ∀ q r, a ≠ .asyncApply q r) ∧
      p.index = s.cfg.expectedCheckPoint ∧ lastApplied.index = p.index - 1
  idle : s.tryToApplyCommitQueue.2 = false → s.tryToApplyCommitQueue.1.log = s.log
  calls : ∀ lastApplied p, Action.asyncApply lastApplied p ∈ s.log → p.index = lastApplied.index + 1
  executions : ∀ e ∈ s.executions, e.proposal.index = e.lastApplied.index + 1

structure Ordered (s : Node) : Prop where
  filed : Filed s
  calls : ∀ lastApplied p, Action.asyncApply lastApplied p ∈ s.log → p.index = lastApplied.index + 1
  executions : ∀ e ∈ s.executions, e.proposal.index = e.lastApplied.index + 1

section

variable {E : Env} {l : Label} {s t : Node}

theorem Emits.applied {lastApplied p : PBFTProposal} (h : Emits E s l (.asyncApply lastApplied p)) :
    l = .apply lastApplied p := by
  have hsend : ∀ {dst : Option NodeID} {msg : Message},
      Action.asyncApply lastApplied p ∉ sendActions E s.cfg.keyPair dst msg := by
    intro dst msg hmem
    rcases mem_sendActions hmem with ⟨r, heq⟩ | ⟨packet, data, heq⟩ <;> cases heq
  cases h with
  | neutral _ hn => cases hn
  | apply => rfl
  | preCommit hc hm hp henough ha => simp [PBFTCache.precommitActions, hsend] at ha
  | vote ha => simp [voteActions, hsend] at ha
  | announce h hs ha => simp [announceActions, checkPointActions, hsend] at ha
  | resend hc hp ha => simp [checkPointActions, hsend] at ha
  | newView h ha => exact absurd ha hsend
  | sendViewChange ha => exact absurd ha hsend

/-- A proposal is executed on the result of the index below it. -/
theorem Prim.apply_index {lastApplied p : PBFTProposal} (h : Prim E (.apply lastApplied p) s t) (hs : Filed s) :
    p.index = lastApplied.index + 1 := by
  cases h with
  | apply _ hq hindex hlast hx =>
    rw [hs.getApplied hlast, hindex]
    omega

theorem Prim.ordered (h : Prim E l s t) (hs : Ordered s) : Ordered t := by
  refine ⟨h.filed hs.filed, fun lastApplied p hmem => ?_, fun e he => ?_⟩
  · obtain ⟨k, hk, hemits⟩ := h.log
    rw [hk] at hmem
    rcases List.mem_append.1 hmem with hmem | hmem
    · exact hs.calls lastApplied p hmem
    · obtain rfl := (hemits _ hmem).applied
      exact h.apply_index hs.filed
  · by_cases hl : l.pipeline = false
    · rw [(h.pipeline_same hl).2.2.1] at he
      exact hs.executions e he
    · cases h with
      | @apply _ p lastApplied rest hq hindex hlast hx =>
        have hexec := congrArg Core.executions ((s.takeProposal p rest).applyStateMachine_core lastApplied p)
        have hexec : ((s.takeProposal p rest).applyStateMachine lastApplied p).executions =
            s.executions ++ [{ lastApplied := lastApplied, proposal := p }] := hexec
        rw [hexec] at he
        rcases List.mem_append.1 he with he | he
        · exact hs.executions e he
        · rw [List.mem_singleton.1 he]
          exact (Prim.apply (E := E) s hq hindex hlast hx).apply_index hs.filed
      | executed _ i error =>
        unfold Node.onExecuted at he
        split at he
        · exact hs.executions e he
        · have hsub : ∀ x ∈ s.executions.eraseIdx i, x ∈ s.executions := fun x hx => (List.eraseIdx_sublist _ _).subset hx
          dsimp only at he
          split at he
          · exact hs.executions e (hsub e he)
          · split_ifs at he
            · exact hs.executions e (hsub e he)
            · exact hs.executions e (hsub e he)
      | _ => first | exact absurd rfl hl | exact hs.executions e he

/-- A call that executes nothing only drops what is expired, and one that does executes the front of the queue. -/
theorem Node.tryToApplyCommitQueue_cases (s : Node) : s.tryToApplyCommitQueue = (s.dropExpired, false) ∨
    ∃ p lastApplied rest, s.dropExpired.committedQueue = p :: rest ∧ p.index = s.cfg.expectedCheckPoint ∧
      s.getAppliedCheckPointProposal (s.cfg.expectedCheckPoint - 1) = some lastApplied ∧
      s.tryToApplyCommitQueue = ((s.dropExpired.takeProposal p rest).applyStateMachine lastApplied p, true) := by
  unfold tryToApplyCommitQueue
  dsimp only
  split
  · exact Or.inl rfl
  rename_i p rest hq
  split
  · exact Or.inl rfl
  rename_i hindex
  split
  · exact Or.inl rfl
  rename_i lastApplied hlast
  split
  · exact Or.inl rfl
  · exact Or.inr ⟨p, lastApplied, rest, hq, not_not.1 hindex, hlast, rfl⟩

theorem Ordered.inOrder (hs : Ordered s) : AppliesInOrder s := by
  refine ⟨hs.filed, fun hret => ?_, fun hret => ?_, hs.calls, hs.executions⟩
  · rcases s.tryToApplyCommitQueue_cases with heq | ⟨p, lastApplied, rest, -, hindex, hlast, heq⟩
    · rw [heq] at hret
      cases hret
    · obtain ⟨k, hk, hneutral⟩ := (s.dropExpired.takeProposal p rest).applyStateMachine_log lastApplied p
      rw [heq]
      refine ⟨k, lastApplied, p, hk, fun a ha q r hcall => ?_, hindex, ?_⟩
      · rw [hcall] at ha
        cases hneutral _ ha
      · rw [hs.filed.getApplied hlast, hindex]
  · rcases s.tryToApplyCommitQueue_cases with heq | ⟨p, lastApplied, rest, -, -, -, heq⟩
    · rw [heq]
      rfl
    · rw [heq] at hret
      cases hret

end

theorem Steps.ordered {E : Env} {A : Label → Prop} {s t : Node} (h : Steps E A s t) (hs : Ordered s) : Ordered t :=
  h.preserves (fun _ _ _ _ hp hu => hp.ordered hu) hs

theorem initNode_ordered {E : Env} {keyPair : KeyPair} {l : LedgerConfig} {state : List PBFTProposal} {s₀ : Node}
    (hinit : initNode E keyPair l state = some s₀) : Ordered s₀ := by
  obtain ⟨s, hsteps, hs⟩ := initNode_steps (A := fun _ => True) trivial trivial trivial trivial (fun _ _ => trivial) hinit
  have hordered : Ordered s := by
    refine hsteps.ordered ⟨⟨?_, ?_⟩, ?_, ?_⟩
    · intro i c hc
      cases hc
    · intro i c p hc
      cases hc
    · intro lastApplied p hmem
      cases hmem
    · intro e he
      cases he
  rcases hs with rfl | ⟨last, -, rfl⟩
  · exact hordered
  · exact ⟨⟨hordered.filed.index, hordered.filed.checkpoint⟩, hordered.calls, hordered.executions⟩

/-- In every state of a run, and in every state that the next event may go through, execution is in order. -/
theorem asyncApply_inOrder {E : Env} {keyPair : KeyPair} {l : LedgerConfig} {state : List PBFTProposal} {s₀ s u : Node}
    {e : Event} {trace : List (Node × Event)} (hinit : initNode E keyPair l state = some s₀)
    (hrun : Trail (step E) s₀ trace s) (hu : Steps E (e.allows E s) s u) : AppliesInOrder u := by
  have hs : Ordered s := hrun.preserves (fun _ _ _ (_ : True) hstep hs => (step_steps hstep).ordered hs)
    (fun _ _ => trivial) (initNode_ordered hinit)
  exact (hu.ordered hs).inOrder

/-- Node 0, a quorum by itself, runs two blocks of the leaders 1 and 2 and one of its own through the pipeline. -/
def toyPipeline : List Event :=
  let prePrepare := fun (leader : UInt8) (index : Int) =>
    (PBFTCodec.encode Toy.env (Toy.keyPair leader) 0 (.pbft (populatePrePrepare .PrePreparePacket
      { proposal := { index := index, hash := (Toy.checksum [leader, 7]).val, data := [leader, 7] } }
      0 0 0 (.ofNat leader.toNat)))).1
  Toy.atOnce [.receive [1] (prePrepare 1 1) [], .worker, .proposalVerified 0 (.result true),
    .receive [2] (prePrepare 2 2) [], .worker, .proposalVerified 0 (.result true),
    .executed 0 false, .proposalApplied, .proposalApplied, .executed 0 false, .proposalApplied, .proposalApplied,
    .submitProposal false [3, 7] 3 (Toy.checksum [3, 7])]

theorem toyPipeline_inOrder : ∃ trace s,
    Trail.states (step Toy.env) (Toy.node 0 [7, 1, 1]) toyPipeline = some (trace, s) ∧
    s.log.countP (fun a => a matches .asyncApply _ _) = 3 ∧ s.cfg.expectedCheckPoint = 3 ∧ AppliesInOrder s := by
  have hinit : initNode Toy.env (Toy.keyPair 0)
      { blockNumber := 0, hash := zeroHash, consensusNodeList := Toy.nodes [7, 1, 1] } [] = some (Toy.node 0 [7, 1, 1]) := by
    decide +kernel
  have hrun : ((Trail.states (step Toy.env) (Toy.node 0 [7, 1, 1]) toyPipeline).elim false fun r =>
      decide (r.2.log.countP (fun a => a matches .asyncApply _ _) = 3) && decide (r.2.cfg.expectedCheckPoint = 3)) = true := by
    decide +kernel
  obtain ⟨⟨trace, s⟩, hs, hcheck⟩ := Toy.exists_of_elim hrun
  simp only [Bool.and_eq_true, decide_eq_true_eq] at hcheck
  exact ⟨trace, s, hs, hcheck.1, hcheck.2, asyncApply_inOrder (e := .worker) hinit (.of_states hs) (.refl s)⟩

def Action.submission : Action → Option PBFTProposal
  | .asyncCommitStableCheckPoint p => some p
  | _ => none

def Node.submitted (s : Node) : List PBFTProposal := s.log.filterMap Action.submission

structure SameResults (s t : Node) : Prop where
  caches : t.caches = s.caches
  committedProposal : t.cfg.committedProposal = s.cfg.committedProposal
  expectedCheckPoint : t.cfg.expectedCheckPoint = s.cfg.expectedCheckPoint
  stableCheckPointQueue : t.stableCheckPointQueue = s.stableCheckPointQueue
  submitted : t.submitted = s.submitted

def Label.idle : Label → Bool
  | .quiet | .mode | .queue | .apply _ _ | .push _ _ | .answer | .nodes _ => true
  | _ => false

theorem Label.idle_open : Open (fun l => l.idle = true) := by
  intro l hl
  cases l <;> first | rfl | cases hl

theorem Action.submission_eq_some {a : Action} {p : PBFTProposal} :
    a.submission = some p ↔ a = .asyncCommitStableCheckPoint p := by
  cases a <;> simp [Action.submission]

theorem submitted_append {s t : Node} {k : List Action} (hk : t.log = s.log ++ k)
    (hnone : ∀ p, Action.asyncCommitStableCheckPoint p ∉ k) : t.submitted = s.submitted := by
  unfold Node.submitted
  rw [hk, List.filterMap_append, List.append_right_eq_self, List.filterMap_eq_nil_iff]
  intro a ha
  rw [Option.eq_none_iff_forall_not_mem]
  intro p hp
  exact hnone p (Action.submission_eq_some.1 hp ▸ ha)

theorem Emits.submitted {E : Env} {s : Node} {l : Label} {p : PBFTProposal} (h : Emits E s l (.asyncCommitStableCheckPoint p)) :
    l = .popStable ∧ p ∈ s.stableCheckPointQueue ∧ p.index = s.cfg.committedIndex + 1 := by
  have hsend : ∀ {dst : Option NodeID} {msg : Message},
      Action.asyncCommitStableCheckPoint p ∉ sendActions E s.cfg.keyPair dst msg := by
    intro dst msg hmem
    rcases mem_sendActions hmem with ⟨r, heq⟩ | ⟨packet, data, heq⟩ <;> cases heq
  cases h with
  | neutral _ hn => cases hn
  | popStable hp hindex => exact ⟨rfl, hp, hindex⟩
  | preCommit hc hm hp henough ha => simp [PBFTCache.precommitActions, hsend] at ha
  | vote ha => simp [voteActions, hsend] at ha
  | announce h hs ha => simp [announceActions, checkPointActions, hsend] at ha
  | resend hc hp ha => simp [checkPointActions, hsend] at ha
  | newView h ha => exact absurd ha hsend
  | sendViewChange ha => exact absurd ha hsend

theorem Prim.submitted {E : Env} {l : Label} {s t : Node} (h : Prim E l s t) (hl : l ≠ .popStable) :
    t.submitted = s.submitted := by
  obtain ⟨k, hk, hemits⟩ := h.log
  exact submitted_append hk fun p hp => hl (hemits _ hp).submitted.1

theorem Prim.sameResults {E : Env} {l : Label} {s t : Node} (h : Prim E l s t) (hl : l.idle = true) : SameResults s t := by
  have hcfg := h.cfgStep
  have hsubmitted := h.submitted fun heq => by
    rw [heq] at hl
    cases hl
  have hproposal : t.cfg.committedProposal = s.cfg.committedProposal := hcfg.committedProposal_eq fun b heq => by
    rw [heq] at hl
    cases hl
  have hexpected : t.cfg.expectedCheckPoint = s.cfg.expectedCheckPoint := by
    refine hcfg.expectedCheckPoint_eq (fun heq => ?_) (fun b heq => ?_)
    · rw [heq] at hl
      cases hl
    · rw [heq] at hl
      cases hl
  cases h with
  | quiet h =>
    exact ⟨congrArg Core.caches h.core, hproposal, hexpected, congrArg Core.stableCheckPointQueue h.core, hsubmitted⟩
  | @apply _ p lastApplied rest hq hindex hlast hx =>
    have hcore := (s.takeProposal p rest).applyStateMachine_core lastApplied p
    exact ⟨congrArg Core.caches hcore, hproposal, hexpected, congrArg Core.stableCheckPointQueue hcore, hsubmitted⟩
  | mode => exact ⟨rfl, hproposal, hexpected, rfl, hsubmitted⟩
  | nodes _ h => exact ⟨rfl, hproposal, hexpected, rfl, hsubmitted⟩
  | queue _ hq => exact ⟨rfl, hproposal, hexpected, rfl, hsubmitted⟩
  | push _ h hp => exact ⟨rfl, hproposal, hexpected, rfl, hsubmitted⟩
  | answer _ hv hl hr => exact ⟨rfl, hproposal, hexpected, rfl, hsubmitted⟩
  | _ => cases hl

namespace SameResults

variable {s t u : Node}

theorem refl (s : Node) : SameResults s s := by
  constructor <;> rfl

theorem trans (h : SameResults s t) (h' : SameResults t u) : SameResults s u where
  caches := h'.caches.trans h.caches
  committedProposal := h'.committedProposal.trans h.committedProposal
  expectedCheckPoint := h'.expectedCheckPoint.trans h.expectedCheckPoint
  stableCheckPointQueue := h'.stableCheckPointQueue.trans h.stableCheckPointQueue
  submitted := h'.submitted.trans h.submitted

theorem committedIndex (h : SameResults s t) : t.cfg.committedIndex = s.cfg.committedIndex := by
  rw [Config.committedIndex, h.committedProposal, Config.committedIndex]

theorem of_steps {E : Env} (h : Steps E (fun l => l.idle = true) s t) : SameResults s t :=
  Labelled.Steps.preserves (I := SameResults s) (fun _ _ _ hl hp hs => hs.trans (hp.sameResults hl)) h (refl s)

end SameResults

/-- A committed block moves the committed index, if it is new, and then takes caches and checkpoints away. -/
theorem Node.finalizeConsensus_results {E : Env} {s t : Node} {l : LedgerConfig} {synced : Bool}
    (h : s.finalizeConsensus E l synced = some t) : ∃ u v w,
      ((l.blockNumber ≤ s.cfg.committedIndex ∧ s.cfg.committedIndex > 0) ∧ u = s ∨
        ¬(l.blockNumber ≤ s.cfg.committedIndex ∧ s.cfg.committedIndex > 0) ∧
          u = s.setCfg (s.cfg.setCommittedProposal l.proposal)) ∧
      SameResults u v ∧
      (v.removeConsensusedCache v.cfg.view l.blockNumber).tryToCommitStableCheckPoint.resetTimer E = some w ∧
      t = if synced then w.removeFutureProposals E else w := by
  unfold finalizeConsensus at h
  obtain ⟨u, hu, h⟩ := Option.bind_eq_some_iff.1 h
  dsimp only at h
  obtain ⟨w, hw, h⟩ := Option.bind_eq_some_iff.1 h
  have ht := (Option.some.inj h).symm
  have hqueue : SameResults u u.tryToApplyCommitQueue.1 :=
    .of_steps (E := E) (tryToApplyCommitQueue_steps u Label.idle_open)
  rcases s.resetConfig_cases (A := fun l => l.idle = true) rfl rfl rfl hu with ⟨hold, rfl⟩ | ⟨hnew, hsteps⟩
  · exact ⟨u, _, w, Or.inl ⟨hold, rfl⟩, hqueue, hw, ht⟩
  · exact ⟨_, _, w, Or.inr ⟨hnew, rfl⟩, (SameResults.of_steps hsteps).trans hqueue, hw, ht⟩

/-- The node holds the result below the expected checkpoint. -/
def Continuous (s : Node) : Prop := (s.getAppliedCheckPointProposal (s.cfg.expectedCheckPoint - 1)).isSome = true

instance (s : Node) : Decidable (Continuous s) := inferInstanceAs (Decidable (_ = true))

/-- No block is synced, and the blocks that the ledger reports have numbers. -/
def Event.Unsynced : Event → Prop
  | .newBlock _ => False
  | .finalized l => 0 ≤ l.blockNumber
  | _ => True

/-- A block that is committed leaves the last result above it, if there is one: its checkpoint is not stable yet. -/
def Event.Retains (s : Node) : Event → Prop
  | .finalized l => max s.cfg.committedIndex l.blockNumber < s.cfg.expectedCheckPoint - 1 →
      (s.caches.find? (s.cfg.expectedCheckPoint - 1)).any (·.stableCommitted) = false
  | _ => True

instance : (e : Event) → Decidable e.Unsynced
  | .newBlock _ => inferInstanceAs (Decidable False)
  | .finalized l => inferInstanceAs (Decidable (0 ≤ l.blockNumber))
  | .receive .. | .gate | .worker | .timeout | .checkPointTimeout .. | .submitProposal .. | .proposalSubmitted _
  | .proposalVerified .. | .proposalLoaded .. | .lowMark _ | .executed .. | .proposalApplied | .notifyNewBlock _
  | .precommitResponse .. | .committedResponse .. | .sealerReset .. | .sealerAnswers _ | .resetTxsFinished _
  | .syncingNumber _ | .connected _ | .clock _ => inferInstanceAs (Decidable True)

instance (s : Node) : (e : Event) → Decidable (e.Retains s)
  | .finalized _ => inferInstanceAs (Decidable (_ → _))
  | .newBlock _ | .receive .. | .gate | .worker | .timeout | .checkPointTimeout .. | .submitProposal ..
  | .proposalSubmitted _ | .proposalVerified .. | .proposalLoaded .. | .lowMark _ | .executed .. | .proposalApplied
  | .notifyNewBlock _ | .precommitResponse .. | .committedResponse .. | .sealerReset .. | .sealerAnswers _
  | .resetTxsFinished _ | .syncingNumber _ | .connected _ | .clock _ => inferInstanceAs (Decidable True)

structure Available (s : Node) : Prop where
  filed : Filed s
  committed : s.cfg.committedProposal.isSome = true
  expected : s.cfg.committedIndex < s.cfg.expectedCheckPoint
  continuous : Continuous s

section

variable {E : Env} {l : Label} {s t : Node}

theorem continuous_iff (hcommitted : s.cfg.committedProposal.isSome = true) : Continuous s ↔
    s.cfg.expectedCheckPoint - 1 = s.cfg.committedIndex ∨ ∃ c, s.caches.find? (s.cfg.expectedCheckPoint - 1) = some c ∧
      c.checkpointProposal.isSome = true := by
  unfold Continuous Node.getAppliedCheckPointProposal
  split_ifs with heq
  · simp [heq, hcommitted]
  · cases hc : s.caches.find? (s.cfg.expectedCheckPoint - 1) with
    | none => simp [heq]
    | some c => simp [heq]

theorem Available.expect {i : Int} (hs : Available s) (h : i ≤ s.cfg.committedIndex + 1 ∨
    ∃ c, s.caches.find? (i - 1) = some c ∧ (c.index = i - 1 → c.checkpointProposal.isSome = true)) :
    Available (s.setCfg (s.cfg.setExpectedCheckPoint i)) := by
  have hcommitted : (s.setCfg (s.cfg.setExpectedCheckPoint i)).cfg.committedIndex = s.cfg.committedIndex := rfl
  have hexpected : (s.setCfg (s.cfg.setExpectedCheckPoint i)).cfg.expectedCheckPoint = max (s.cfg.committedIndex + 1) i := rfl
  have hsome : (s.setCfg (s.cfg.setExpectedCheckPoint i)).cfg.committedProposal.isSome = true := hs.committed
  refine ⟨⟨hs.filed.index, hs.filed.checkpoint⟩, hsome, ?_, (continuous_iff hsome).2 ?_⟩
  · rw [hcommitted, hexpected]
    omega
  · rw [hcommitted, hexpected]
    by_cases hi : i ≤ s.cfg.committedIndex + 1
    · left
      omega
    · obtain ⟨c, hc, hsome⟩ := h.resolve_left hi
      right
      rw [max_eq_right (by omega)]
      exact ⟨c, hc, hsome (hs.filed.index _ c hc)⟩

theorem Available.ledger {b : LedgerConfig} (hs : Available s)
    (h : ¬(b.blockNumber ≤ s.cfg.committedIndex ∧ s.cfg.committedIndex > 0)) (hb : 0 ≤ b.blockNumber) :
    Available (s.setCfg (s.cfg.setCommittedProposal b.proposal)) := by
  have hcommitted : (s.setCfg (s.cfg.setCommittedProposal b.proposal)).cfg.committedIndex = b.blockNumber := rfl
  have hexpected : (s.setCfg (s.cfg.setCommittedProposal b.proposal)).cfg.expectedCheckPoint =
      if b.blockNumber + 1 > s.cfg.expectedCheckPoint then b.blockNumber + 1 else s.cfg.expectedCheckPoint := rfl
  refine ⟨⟨hs.filed.index, hs.filed.checkpoint⟩, rfl, ?_, (continuous_iff rfl).2 ?_⟩
  · rw [hcommitted, hexpected]
    split_ifs <;> omega
  · rw [hcommitted, hexpected]
    split_ifs with hnew
    · left
      omega
    · rcases (continuous_iff hs.committed).1 hs.continuous with heq | hcached
      · left
        omega
      · exact Or.inr hcached

theorem Prim.available (h : Prim E l s t) (herase : l ≠ .erase) (hledger : ∀ b, l = .ledger b → 0 ≤ b.blockNumber)
    (hs : Available s) : Available t := by
  by_cases hexpect : l = .expect
  · subst hexpect
    cases h with
    | expect _ h => exact hs.expect h
  by_cases hblock : ∃ b, l = .ledger b
  · obtain ⟨b, rfl⟩ := hblock
    cases h with
    | ledger _ h => exact hs.ledger h (hledger b rfl)
  have hnot : ∀ b, l ≠ .ledger b := fun b heq => hblock ⟨b, heq⟩
  have hproposal := h.cfgStep.committedProposal_eq hnot
  have hcommitted := h.cfgStep.committedIndex_eq hnot
  have hexpected := h.cfgStep.expectedCheckPoint_eq hexpect hnot
  have hsome : t.cfg.committedProposal.isSome = true := by
    rw [hproposal]
    exact hs.committed
  refine ⟨h.filed hs.filed, hsome, ?_, (continuous_iff hsome).2 ?_⟩
  · rw [hcommitted, hexpected]
    exact hs.expected
  · rw [hcommitted, hexpected]
    rcases (continuous_iff hs.committed).1 hs.continuous with heq | ⟨c, hc, hexec⟩
    · exact Or.inl heq
    · obtain ⟨c', hc'⟩ := h.stays herase hc
      have hstep := h.cacheStep hc'
      rw [hc, Option.getD_some] at hstep
      exact Or.inr ⟨c', hc', hstep.executed hexec⟩

/-- Dropping the caches of a committed block keeps the last result, if its checkpoint is not stable. -/
theorem Available.removeConsensusedCache (hs : Available s) (view : ViewType) {number : Int}
    (hnumber : number ≤ s.cfg.committedIndex) (hlast : s.cfg.committedIndex < s.cfg.expectedCheckPoint - 1 →
      (s.caches.find? (s.cfg.expectedCheckPoint - 1)).any (·.stableCommitted) = false) :
    Available (s.removeConsensusedCache view number) := by
  have hfind : ∀ i c, (s.removeConsensusedCache view number).caches.find? i = some c → s.caches.find? i = some c := by
    intro i c hc
    change (s.caches.filter _).find? i = some c at hc
    rw [OrdMap.find?_filter] at hc
    exact (Option.filter_eq_some_iff.1 hc).1
  have hsome : (s.removeConsensusedCache view number).cfg.committedProposal.isSome = true := hs.committed
  refine ⟨⟨fun i c hc => hs.filed.index i c (hfind i c hc), fun i c p hc => hs.filed.checkpoint i c p (hfind i c hc)⟩,
    hsome, hs.expected, (continuous_iff hsome).2 ?_⟩
  change s.cfg.expectedCheckPoint - 1 = s.cfg.committedIndex ∨
    ∃ c, (s.caches.filter _).find? (s.cfg.expectedCheckPoint - 1) = some c ∧ c.checkpointProposal.isSome = true
  rcases (continuous_iff hs.committed).1 hs.continuous with heq | ⟨c, hc, hexec⟩
  · exact Or.inl heq
  · by_cases heq : s.cfg.expectedCheckPoint - 1 = s.cfg.committedIndex
    · exact Or.inl heq
    · have hexpected := hs.expected
      have habove : s.cfg.committedIndex < s.cfg.expectedCheckPoint - 1 := by omega
      refine Or.inr ⟨c, ?_, hexec⟩
      rw [OrdMap.find?_filter, hc, Option.filter_some, if_pos]
      have hstable := hlast habove
      rw [hc, Option.any_some] at hstable
      simp only [hstable, Bool.or_false, Bool.not_eq_true', decide_eq_false_iff_not, not_le]
      omega

end

theorem Steps.available {E : Env} {A : Label → Prop} {s t : Node} (h : Steps E A s t) (herase : ¬A .erase)
    (hledger : ∀ b, A (.ledger b) → 0 ≤ b.blockNumber) (hs : Available s) : Available t :=
  h.preserves (fun _ _ _ hl hp hu => hp.available (fun heq => herase (heq ▸ hl)) (fun b heq => hledger b (heq ▸ hl)) hu) hs

theorem SameResults.available {s t : Node} (h : SameResults s t) (hs : Available s) : Available t := by
  have hsome : t.cfg.committedProposal.isSome = true := by
    rw [h.committedProposal]
    exact hs.committed
  refine ⟨⟨?_, ?_⟩, hsome, ?_, (continuous_iff hsome).2 ?_⟩
  · rw [h.caches]
    exact hs.filed.index
  · rw [h.caches]
    exact hs.filed.checkpoint
  · rw [h.committedIndex, h.expectedCheckPoint]
    exact hs.expected
  · rw [h.committedIndex, h.expectedCheckPoint, h.caches]
    exact (continuous_iff hs.committed).1 hs.continuous

theorem Available.finalizeConsensus {E : Env} {s t : Node} {b : LedgerConfig} (hb : 0 ≤ b.blockNumber)
    (hok : (Event.finalized b).Retains s) (h : s.finalizeConsensus E b false = some t) (hs : Available s) : Available t := by
  obtain ⟨u, v, w, hu, hsame, hv, rfl⟩ := Node.finalizeConsensus_results h
  have hcommitted : u.cfg.committedIndex = max s.cfg.committedIndex b.blockNumber := by
    rcases hu with ⟨hold, rfl⟩ | ⟨hnew, rfl⟩
    · omega
    · change b.blockNumber = _
      omega
  have hlast : u.cfg.committedIndex < u.cfg.expectedCheckPoint - 1 →
      (u.caches.find? (u.cfg.expectedCheckPoint - 1)).any (·.stableCommitted) = false := by
    intro habove
    have hexpected : u.cfg.expectedCheckPoint = s.cfg.expectedCheckPoint ∧ u.caches = s.caches := by
      rcases hu with ⟨-, rfl⟩ | ⟨-, rfl⟩
      · exact ⟨rfl, rfl⟩
      · refine ⟨?_, rfl⟩
        have hset : (s.setCfg (s.cfg.setCommittedProposal b.proposal)).cfg.expectedCheckPoint =
            if b.blockNumber + 1 > s.cfg.expectedCheckPoint then b.blockNumber + 1 else s.cfg.expectedCheckPoint := rfl
        have hindex : (s.setCfg (s.cfg.setCommittedProposal b.proposal)).cfg.committedIndex = b.blockNumber := rfl
        rw [hset, hindex] at habove
        rw [hset]
        split_ifs at habove ⊢ with hnew
        · omega
        · rfl
    rw [hexpected.1, hexpected.2]
    rw [hcommitted, hexpected.1] at habove
    exact hok habove
  have hcommit : Available u := by
    rcases hu with ⟨-, rfl⟩ | ⟨hnew, rfl⟩
    · exact hs
    · exact hs.ledger hnew hb
  have hremove : Available (v.removeConsensusedCache v.cfg.view b.blockNumber) := by
    refine (hsame.available hcommit).removeConsensusedCache _ ?_ ?_
    · rw [hsame.committedIndex, hcommitted]
      exact le_max_right _ _
    · rw [hsame.committedIndex, hsame.expectedCheckPoint, hsame.caches]
      exact hlast
  have hwide : Wide (fun l => l.viewing = true ∨ l = .aim ∨ l = .popStable) := fun _ hl => Or.inl hl
  have htail := (Node.tryToCommitStableCheckPoint_steps (E := E) _ hwide.isOpen (Or.inr (Or.inr rfl))).trans
    (Node.resetTimer_steps _ hwide (Or.inr (Or.inl rfl)) hv)
  refine Steps.available htail ?_ (fun l hl => ?_) hremove
  · rintro (hl | hl | hl) <;> cases hl
  · rcases hl with hl | hl | hl <;> cases hl

theorem step_available {E : Env} {s t : Node} {e : Event} (hsync : e.Unsynced) (hok : e.Retains s)
    (h : step E s e = some t) (hs : Available s) : Available t := by
  by_cases hledger : ∃ b, e = .finalized b
  · obtain ⟨b, rfl⟩ := hledger
    exact hs.finalizeConsensus hsync hok h
  · have hnone : ∀ b, ¬(e = .finalized b ∨ e = .newBlock b) := by
      rintro b (rfl | rfl)
      · exact hledger ⟨b, rfl⟩
      · exact hsync
    refine (step_steps h).available ?_ (fun b hl => absurd hl (hnone b)) hs
    rintro ⟨b, hl⟩
    exact hnone b hl

theorem initNode_available {E : Env} {keyPair : KeyPair} {l : LedgerConfig} {state : List PBFTProposal} {s₀ : Node}
    (hinit : initNode E keyPair l state = some s₀) (hl : 0 ≤ l.blockNumber) : Available s₀ := by
  unfold initNode at hinit
  obtain ⟨s, hs, hinit⟩ := Option.bind_eq_some_iff.1 hinit
  have havailable : Available s := by
    rcases Node.resetConfig_cases (A := fun l => l.idle = true) _ rfl rfl rfl hs with ⟨⟨-, hpos⟩, -⟩ | ⟨-, hsteps⟩
    · exact absurd hpos (lt_irrefl (0 : Int))
    · refine (SameResults.of_steps hsteps).available ⟨⟨?_, ?_⟩, rfl, ?_, ?_⟩
      · intro i c hc
        cases hc
      · intro i c p hc
        cases hc
      · change l.blockNumber < if l.blockNumber + 1 > 0 then l.blockNumber + 1 else 0
        rw [if_pos (by omega)]
        omega
      · refine (continuous_iff rfl).2 (Or.inl ?_)
        change (if l.blockNumber + 1 > 0 then l.blockNumber + 1 else 0) - 1 = l.blockNumber
        rw [if_pos (by omega)]
        omega
  cases hlast : state.getLast? with
  | none =>
    simp only [hlast] at hinit
    obtain rfl := Option.some.inj hinit
    exact havailable
  | some last =>
    simp only [hlast] at hinit
    obtain rfl := Option.some.inj hinit
    have hload : Available (s.initState E state) := by
      refine (s.initState_steps (A := fun l => l = .quiet ∨ ∃ p, l = .load p) (Or.inl rfl)
        (fun p _ _ => Or.inr ⟨p, rfl⟩)).available
        ?_ (fun b hl => ?_) havailable
      · rintro (hl | ⟨p, hl⟩) <;> cases hl
      · rcases hl with hl | ⟨p, hl⟩ <;> cases hl
    exact ⟨⟨hload.filed.index, hload.filed.checkpoint⟩, hload.committed, hload.expected, hload.continuous⟩

/-- In a run without synced blocks the result below the expected checkpoint stays, as long as no block is committed while
the last result above it is stable. -/
theorem getAppliedCheckPointProposal_continuous {E : Env} {keyPair : KeyPair} {l : LedgerConfig} {state : List PBFTProposal}
    {s₀ s : Node} {trace : List (Node × Event)} (hinit : initNode E keyPair l state = some s₀) (hl : 0 ≤ l.blockNumber)
    (hrun : Trail (step E) s₀ trace s) (hsync : ∀ x ∈ trace, x.2.Unsynced) (hok : ∀ x ∈ trace, x.2.Retains x.1) :
    Continuous s := by
  have hs : Available s := hrun.preserves
    (fun u e _ (hok : e.Unsynced ∧ e.Retains u) hstep hs => step_available hok.1 hok.2 hstep hs)
    (fun x hx => ⟨hsync x hx, hok x hx⟩) (initNode_available hinit hl)
  exact hs.continuous

def toyFinalized (ahead : Bool) : List Event :=
  let block : LedgerConfig := { blockNumber := 1, hash := Toy.checksum [1, 7], consensusNodeList := Toy.nodes [7, 1, 1] }
  if ahead then
    toyPipeline.take 22 ++ Toy.atOnce [.finalized block, .submitProposal false [3, 7] 3 (Toy.checksum [3, 7])]
  else toyPipeline.take 19 ++ [.finalized block] ++ toyPipeline.drop 19

theorem toyFinalized_continuous : ∃ trace s,
    Trail.states (step Toy.env) (Toy.node 0 [7, 1, 1]) (toyFinalized false) = some (trace, s) ∧
    s.cfg.committedIndex = 1 ∧ s.cfg.expectedCheckPoint = 3 ∧ Continuous s := by
  have hinit : initNode Toy.env (Toy.keyPair 0)
      { blockNumber := 0, hash := zeroHash, consensusNodeList := Toy.nodes [7, 1, 1] } [] = some (Toy.node 0 [7, 1, 1]) := by
    decide +kernel
  have hrun : ((Trail.states (step Toy.env) (Toy.node 0 [7, 1, 1]) (toyFinalized false)).elim false fun r =>
      decide (r.2.cfg.committedIndex = 1) && decide (r.2.cfg.expectedCheckPoint = 3) &&
        r.1.all fun x => decide (x.2.Unsynced ∧ x.2.Retains x.1)) = true := by
    decide +kernel
  obtain ⟨⟨trace, s⟩, hs, hcheck⟩ := Toy.exists_of_elim hrun
  simp only [Bool.and_eq_true, decide_eq_true_eq, List.all_eq_true] at hcheck
  obtain ⟨⟨hcommitted, hexpected⟩, hok⟩ := hcheck
  exact ⟨trace, s, hs, hcommitted, hexpected, getAppliedCheckPointProposal_continuous hinit (le_refl 0) (.of_states hs)
    (fun x hx => (hok x hx).1) (fun x hx => (hok x hx).2)⟩

def Event.isFailure : Event → Bool
  | .executed _ failed => failed
  | _ => false

/-- Block 3 is the next one to execute and waits in the queue, and the result of block 2 is gone. -/
theorem toyFinalized_discontinuous : ∃ trace s,
    Trail.states (step Toy.env) (Toy.node 0 [7, 1, 1]) (toyFinalized true) = some (trace, s) ∧
    (∀ x ∈ trace, x.2.Unsynced) ∧ (∀ x ∈ trace, ∀ i, x.2 ≠ .executed i true) ∧
    s.committedQueue.map PBFTProposal.index = [s.cfg.expectedCheckPoint] ∧ ¬Continuous s := by
  have hrun : ((Trail.states (step Toy.env) (Toy.node 0 [7, 1, 1]) (toyFinalized true)).elim false fun r =>
      (r.1.all fun x => decide x.2.Unsynced && !x.2.isFailure) &&
        (decide (r.2.committedQueue.map PBFTProposal.index = [r.2.cfg.expectedCheckPoint]) &&
          decide (¬Continuous r.2))) = true := by
    decide +kernel
  obtain ⟨⟨trace, s⟩, hs, hcheck⟩ := Toy.exists_of_elim hrun
  simp only [Bool.and_eq_true, decide_eq_true_eq, List.all_eq_true] at hcheck
  obtain ⟨hevents, hqueue, hcontinuous⟩ := hcheck
  refine ⟨trace, s, hs, fun x hx => (hevents x hx).1, fun x hx i heq => ?_, hqueue, hcontinuous⟩
  have hfailure := (hevents x hx).2
  rw [heq] at hfailure
  cases hfailure

end BcosPbft
