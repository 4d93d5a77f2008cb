import BcosPbft.Lib.Trail
import BcosPbft.Proofs.CheckPoint

/-! Executions in flight. A proposal is marked when it is handed to the state machine, and the mark goes when its
result is processed. A failed proposal is pushed again between two erasures of its mark, so it can run unmarked. -/

namespace BcosPbft

/-- The proposals handed to the state machine whose completion the engine has not processed. -/
def Node.inFlight (s : Node) : List PBFTProposal :=
  s.executions.map Execution.proposal ++ s.applied.map Applied.proposal

/-- What is in flight above the committed index is marked, and nothing else in flight has its index. -/
structure Exclusive (s : Node) : Prop where
  marked : ∀ p ∈ s.inFlight, s.cfg.committedIndex < p.index → s.executingProposals.contains p.hash = true
  distinct : s.inFlight.Pairwise fun p q => s.cfg.committedIndex < p.index → p.index ≠ q.index

/-- The proposals that were pushed have one hash for an index and one index for a hash. -/
def OneHash (log : List Action) : Prop :=
  ∀ p q, Action.pushCommitted p ∈ log → Action.pushCommitted q ∈ log → (p.index = q.index ↔ p.hash = q.hash)

theorem OneHash.earlier {log k : List Action} (h : OneHash (log ++ k)) : OneHash log :=
  fun p q hp hq => h p q (List.mem_append_left k hp) (List.mem_append_left k hq)

structure Marks (x : List PBFTProposal) (s : Node) : Prop where
  queue : ∀ p ∈ s.committedQueue, Action.pushCommitted p ∈ s.log
  flight : ∀ p ∈ x ++ s.inFlight, Action.pushCommitted p ∈ s.log
  marks : ∀ h i, s.executingProposals.find? h = some i → ∃ p, Action.pushCommitted p ∈ s.log ∧ p.hash = h ∧ p.index = i
  marked : ∀ p ∈ x ++ s.inFlight, s.cfg.committedIndex < p.index → s.executingProposals.contains p.hash = true
  distinct : (x ++ s.inFlight).Pairwise fun p q => s.cfg.committedIndex < p.index → p.index ≠ q.index

theorem CfgStep.committedIndex_le {E : Env} {l : Label} {c c' : Config} (h : CfgStep E l c c')
    (hl : ∀ b, l = .ledger b → 0 ≤ b.blockNumber) : c.committedIndex ≤ c'.committedIndex := by
  cases h with
  | same _ h =>
    unfold Config.committedIndex
    rw [h.committedProposal]
  | mode => exact le_refl _
  | aim => exact le_refl _
  | view _ hv =>
    unfold Config.resetNewViewState
    split <;> exact le_refl _
  | expect _ i => exact le_refl _
  | lowMark _ h => exact le_refl _
  | reseal => exact le_refl _
  | @ledger _ b h =>
    have hb := hl b rfl
    change c.committedIndex ≤ b.blockNumber
    omega
  | nodes h =>
    obtain ⟨_, _, _, _, _, _, _, rfl⟩ := Config.setConsensusNodeList_frame h
    exact le_refl _

theorem Node.map_eraseIdx_perm {α β : Type} (f : α → β) {l : List α} {i : Nat} {a : α} (h : l[i]? = some a) :
    (f a :: (l.eraseIdx i).map f).Perm (l.map f) := by
  obtain ⟨hi, rfl⟩ := List.getElem?_eq_some_iff.1 h
  rw [← List.map_cons]
  exact (List.getElem_cons_eraseIdx_perm hi).map f

theorem Node.onExecuted_inFlight (E : Env) (s : Node) (i : Nat) (error : Bool) :
    (s.onExecuted E i error).inFlight.Subperm s.inFlight := by
  unfold onExecuted
  split
  · exact List.Subperm.refl _
  · rename_i e he
    have hperm := map_eraseIdx_perm Execution.proposal he
    have hdrop : ((s.executions.eraseIdx i).map Execution.proposal ++ s.applied.map Applied.proposal).Subperm s.inFlight :=
      (((List.eraseIdx_sublist s.executions i).map _).append (List.Sublist.refl _)).subperm
    dsimp only
    split
    · exact hdrop
    · rename_i r hr
      split
      · exact hdrop
      · refine List.Perm.subperm ?_
        unfold inFlight
        dsimp only
        rw [List.map_append, List.map_singleton, (applyProposal_cases hr).1.1, ← List.append_assoc]
        exact (List.perm_append_singleton _ _).trans (hperm.append_right _)

namespace Marks

variable {E : Env} {x : List PBFTProposal} {l : Label} {s t : Node}

theorem exclusive (h : Marks [] s) : Exclusive s := ⟨h.marked, h.distinct⟩

theorem rel_symm {c : Int} {p q : PBFTProposal} (h : c < p.index → p.index ≠ q.index) (hq : c < q.index) :
    q.index ≠ p.index := by
  intro heq
  exact h (heq ▸ hq) heq.symm

theorem mono (hs : Marks x s) (hlog : ∀ a ∈ s.log, a ∈ t.log) (hqueue : ∀ p ∈ t.committedQueue, p ∈ s.committedQueue)
    (hflight : t.inFlight.Subperm s.inFlight) (hmarks : t.executingProposals = s.executingProposals)
    (hcommitted : s.cfg.committedIndex ≤ t.cfg.committedIndex) : Marks x t := by
  have hsub : (x ++ t.inFlight).Subperm (x ++ s.inFlight) := (List.subperm_append_left x).2 hflight
  refine ⟨fun p hp => hlog _ (hs.queue p (hqueue p hp)), fun p hp => hlog _ (hs.flight p (hsub.subset hp)),
    fun h i hi => ?_, fun p hp hc => ?_, ?_⟩
  · obtain ⟨p, hp, hpi⟩ := hs.marks h i (hmarks ▸ hi)
    exact ⟨p, hlog _ hp, hpi⟩
  · rw [hmarks]
    exact hs.marked p (hsub.subset hp) (hcommitted.trans_lt hc)
  · obtain ⟨k, hperm, hsublist⟩ := hsub
    have hk := (hs.distinct.sublist hsublist).imp
      (S := fun p q => t.cfg.committedIndex < p.index → p.index ≠ q.index)
      (fun h hc => h (hcommitted.trans_lt hc))
    exact (hperm.pairwise_iff (fun h hc => rel_symm h hc)).1 hk

theorem expire (hone : OneHash s.log) (hs : Marks x s) : Marks x s.clearExpiredExecutingProposal := by
  refine ⟨hs.queue, hs.flight, fun h i hi => ?_, fun p hp hc => ?_, hs.distinct⟩
  · change (s.executingProposals.filter _).find? h = some i at hi
    rw [OrdMap.find?_filter] at hi
    exact hs.marks h i (Option.filter_eq_some_iff.1 hi).1
  · obtain ⟨i, hi⟩ := OrdMap.contains_iff.1 (hs.marked p hp hc)
    obtain ⟨q, hq, hhash, hindex⟩ := hs.marks _ i hi
    have heq := (hone p q (hs.flight p hp) hq).2 hhash.symm
    refine OrdMap.contains_iff.2 ⟨i, ?_⟩
    change (s.executingProposals.filter _).find? p.hash = some i
    rw [OrdMap.find?_filter, hi, Option.filter_some, if_pos]
    simp only [gt_iff_lt, decide_eq_true_eq]
    change s.cfg.committedIndex < p.index at hc
    omega

theorem apply (hone : OneHash t.log) {p lastApplied : PBFTProposal} {rest : List PBFTProposal}
    (hq : s.committedQueue = p :: rest) (hx : s.executingProposals.contains p.hash = false)
    (ht : t = (s.takeProposal p rest).applyStateMachine lastApplied p) (hs : Marks x s) : Marks x t := by
  have hcore := (s.takeProposal p rest).applyStateMachine_core lastApplied p
  obtain ⟨k, hk, -⟩ := (s.takeProposal p rest).applyStateMachine_log lastApplied p
  rw [← ht] at hcore hk
  have hlog : ∀ a ∈ s.log, a ∈ t.log := fun a ha => by
    rw [hk]
    exact List.mem_append_left _ (List.mem_append_left _ ha)
  have hp : Action.pushCommitted p ∈ t.log := hlog _ (hs.queue p (by rw [hq]; exact List.mem_cons_self))
  have hqueue : t.committedQueue = rest := congrArg Core.committedQueue hcore
  have hmarks : t.executingProposals = s.executingProposals.insert p.hash p.index :=
    congrArg Core.executingProposals hcore
  have hexec : t.executions = s.executions ++ [{ lastApplied := lastApplied, proposal := p }] :=
    congrArg Core.executions hcore
  have happ : t.applied = s.applied := congrArg Core.applied hcore
  have hcommitted : t.cfg.committedIndex = s.cfg.committedIndex := by
    unfold Config.committedIndex
    rw [show t.cfg.committedProposal = s.cfg.committedProposal from congrArg Core.committedProposal hcore]
  have hperm : (x ++ t.inFlight).Perm (p :: (x ++ s.inFlight)) := by
    unfold Node.inFlight
    rw [hexec, happ, List.map_append, List.map_singleton, List.append_assoc, List.singleton_append, ← List.append_assoc,
      ← List.append_assoc]
    exact List.perm_middle
  refine ⟨fun q hq' => ?_, fun q hq' => ?_, fun h i hi => ?_, fun q hq' hc => ?_, ?_⟩
  · rw [hqueue] at hq'
    exact hlog _ (hs.queue q (by rw [hq]; exact List.mem_cons_of_mem p hq'))
  · rcases List.mem_cons.1 (hperm.mem_iff.1 hq') with rfl | hq'
    · exact hp
    · exact hlog _ (hs.flight q hq')
  · rw [hmarks, OrdMap.find?_insert] at hi
    split_ifs at hi with hh
    · exact ⟨p, hp, hh.symm, Option.some.inj hi⟩
    · obtain ⟨q, hq', hqi⟩ := hs.marks h i hi
      exact ⟨q, hlog _ hq', hqi⟩
  · rw [hmarks, OrdMap.contains_iff]
    rcases List.mem_cons.1 (hperm.mem_iff.1 hq') with rfl | hq'
    · exact ⟨_, OrdMap.find?_insert_self _ _ _⟩
    · rw [OrdMap.find?_insert]
      split_ifs
      · exact ⟨_, rfl⟩
      · exact OrdMap.contains_iff.1 (hs.marked q hq' (hcommitted ▸ hc))
  · rw [hperm.pairwise_iff (fun h hc => rel_symm h hc), List.pairwise_cons, hcommitted]
    refine ⟨fun q hq' hc heq => ?_, hs.distinct⟩
    -- a second proposal of the index would have the hash of the first, which is marked
    have hhash := (hone p q hp (hlog _ (hs.flight q hq'))).1 heq
    have hmark := hs.marked q hq' (heq ▸ hc)
    rw [← hhash, hx] at hmark
    cases hmark

theorem push {p : PBFTProposal} (hs : Marks x s) :
    Marks x ({ s with committedQueue := Node.pushQueue s.committedQueue p }.emit [.pushCommitted p]) := by
  have hlog : ∀ {q}, Action.pushCommitted q ∈ s.log → Action.pushCommitted q ∈ s.log ++ [.pushCommitted p] := fun hq =>
    List.mem_append_left _ hq
  refine ⟨fun q hq => ?_, fun q hq => hlog (hs.flight q hq), fun h i hi => ?_, hs.marked, hs.distinct⟩
  · rcases mem_pushQueue hq with rfl | hq
    · exact List.mem_append_right _ List.mem_cons_self
    · exact hlog (hs.queue q hq)
  · obtain ⟨q, hq, hqi⟩ := hs.marks h i hi
    exact ⟨q, hlog hq, hqi⟩

theorem settle {r : Applied} {rest : List Applied} (h : s.applied = r :: rest) (hs : Marks x s) :
    Marks (r.proposal :: x) { s with applied := rest } := by
  have hperm : (r.proposal :: x ++ ({ s with applied := rest } : Node).inFlight).Perm (x ++ s.inFlight) := by
    unfold Node.inFlight
    rw [h, List.map_cons, List.cons_append, ← List.append_assoc, ← List.append_assoc]
    exact List.perm_middle.symm
  refine ⟨hs.queue, fun p hp => hs.flight p (hperm.mem_iff.1 hp), hs.marks, fun p hp => hs.marked p (hperm.mem_iff.1 hp), ?_⟩
  exact (hperm.pairwise_iff (fun h hc => rel_symm h hc)).2 hs.distinct

theorem hash_ne {p : PBFTProposal} (hone : OneHash s.log) (hs : Marks (p :: x) s) :
    ∀ q ∈ x ++ s.inFlight, s.cfg.committedIndex < q.index → q.hash ≠ p.hash := by
  intro q hq hc hhash
  have heq := (hone q p (hs.flight q (List.mem_cons_of_mem p hq)) (hs.flight p List.mem_cons_self)).2 hhash
  have hdistinct := hs.distinct
  rw [List.cons_append, List.pairwise_cons] at hdistinct
  exact hdistinct.1 q hq (heq ▸ hc) heq.symm

theorem drop {p : PBFTProposal} (hs : Marks (p :: x) s) : Marks x s :=
  ⟨hs.queue, fun q hq => hs.flight q (List.mem_cons_of_mem p hq), hs.marks,
    fun q hq => hs.marked q (List.mem_cons_of_mem p hq), (List.pairwise_cons.1 hs.distinct).2⟩

theorem unmark {hash : HashType} (hne : ∀ q ∈ x ++ s.inFlight, s.cfg.committedIndex < q.index → q.hash ≠ hash)
    (hs : Marks x s) : Marks x (s.eraseExecutedProposal hash) := by
  refine ⟨hs.queue, hs.flight, fun h i hi => ?_, fun p hp hc => ?_, hs.distinct⟩
  · change (s.executingProposals.erase hash).find? h = some i at hi
    rw [OrdMap.find?_erase] at hi
    split_ifs at hi
    exact hs.marks h i hi
  · have hmark := OrdMap.contains_iff.1 (hs.marked p hp hc)
    refine OrdMap.contains_iff.2 ?_
    change ∃ i, (s.executingProposals.erase hash).find? p.hash = some i
    rw [OrdMap.find?_erase, if_neg (hne p hp hc)]
    exact hmark

end Marks

def Label.running : Label → Prop
  | .settle | .unmark _ => False
  | .ledger b => 0 ≤ b.blockNumber
  | _ => True

theorem Prim.marks {E : Env} {x : List PBFTProposal} {l : Label} {s t : Node} (h : Prim E l s t) (hl : l.running)
    (hone : OneHash t.log) (hs : Marks x s) : Marks x t := by
  have hcommitted : s.cfg.committedIndex ≤ t.cfg.committedIndex := by
    refine h.cfgStep.committedIndex_le (fun b hb => ?_)
    subst hb
    exact hl
  by_cases hpipe : l.pipeline = true
  · cases h with
    | push _ h hp => exact hs.push
    | queue _ hq => exact hs.mono (fun _ ha => ha) hq (List.Subperm.refl _) rfl (le_refl _)
    | unmark => exact hl.elim
    | expire => exact hs.expire hone
    | @apply _ p lastApplied rest hq hindex hlast hx => exact hs.apply hone hq hx rfl
    | executed _ i error =>
      obtain ⟨a, b, hcore⟩ := s.onExecuted_core E i error
      refine hs.mono ((Prim.executed s i error).log_mono (E := E)) ?_ (s.onExecuted_inFlight E i error)
        (congrArg Core.executingProposals hcore) hcommitted
      intro p hp
      rw [show (s.onExecuted E i error).committedQueue = s.committedQueue from congrArg Core.committedQueue hcore] at hp
      exact hp
    | @announce _ r rest happ hsucc ha =>
      refine hs.mono (fun a ha => List.mem_append_left _ ha) (fun _ hp => hp) ?_ rfl (le_refl _)
      refine List.Perm.subperm (List.Perm.of_eq ?_)
      unfold Node.inFlight
      rw [happ]
      rfl
    | settle => exact hl.elim
    | _ => cases hpipe
  · obtain ⟨hq, hx, he, ha⟩ := h.pipeline_same (by simpa using hpipe)
    refine hs.mono h.log_mono (fun p hp => hq ▸ hp) (List.Perm.subperm (List.Perm.of_eq ?_)) hx hcommitted
    unfold Node.inFlight
    rw [he, ha]

theorem Marks.steps {E : Env} {A : Label → Prop} {x : List PBFTProposal} {s t : Node} (hA : ∀ l, A l → l.running)
    (h : Steps E A s t) (hone : OneHash t.log) (hs : Marks x s) : Marks x t := by
  refine Labelled.Steps.preserves (I := fun u => OneHash u.log → Marks x u) (fun l u v hl hp hu hone => ?_) h (fun _ => hs) hone
  obtain ⟨k, hk, -⟩ := hp.log
  exact hp.marks (hA l hl) hone (hu (OneHash.earlier (k := k) (hk ▸ hone)))

/-- The queue starts at most one execution, of the expected index on top of its executed or committed parent. -/
theorem Node.tryToApplyCommitQueue_executions (s : Node) : s.tryToApplyCommitQueue.1.executions = s.executions ∨
    ∃ lastApplied p, p.index = s.cfg.expectedCheckPoint ∧
      s.getAppliedCheckPointProposal (s.cfg.expectedCheckPoint - 1) = some lastApplied ∧
      s.tryToApplyCommitQueue.1.executions = s.executions ++ [{ lastApplied := lastApplied, proposal := p }] := by
  have hcfg : s.dropExpired.cfg = s.cfg := rfl
  have hexec : s.dropExpired.executions = s.executions := rfl
  have hparent : ∀ i, s.dropExpired.getAppliedCheckPointProposal i = s.getAppliedCheckPointProposal i := fun _ => rfl
  unfold tryToApplyCommitQueue
  dsimp only
  rw [← hcfg, ← hexec]
  simp only [← hparent]
  generalize s.dropExpired = s
  split
  · exact Or.inl rfl
  · rename_i p rest hq
    split
    · exact Or.inl rfl
    · rename_i hindex
      split
      · exact Or.inl rfl
      · rename_i lastApplied hlast
        split_ifs with hx
        · exact Or.inl rfl
        · refine Or.inr ⟨lastApplied, p, not_not.1 hindex, hlast, ?_⟩
          exact congrArg Core.executions ((s.takeProposal p rest).applyStateMachine_core lastApplied p)

theorem Node.tryToApplyCommitQueue_applied (s : Node) : s.tryToApplyCommitQueue.1.applied = s.applied := by
  have happ : s.dropExpired.applied = s.applied := rfl
  unfold tryToApplyCommitQueue
  dsimp only
  rw [← happ]
  generalize s.dropExpired = s
  split
  · rfl
  · rename_i p rest hq
    split
    · rfl
    · split
      · rfl
      · rename_i lastApplied hlast
        split
        · rfl
        · exact congrArg Core.applied ((s.takeProposal p rest).applyStateMachine_core lastApplied p)

theorem Node.updateCommitQueue_applied (s : Node) (p : PBFTProposal) : (s.updateCommitQueue p).applied = s.applied := by
  unfold updateCommitQueue
  split
  · rfl
  · dsimp only
    rw [tryToApplyCommitQueue_applied]
    exact congrArg Core.applied (notifyMaxProposalIndex_quiet s p.index).core

theorem Node.updateCommitQueue_executions (s : Node) (p : PBFTProposal) : (s.updateCommitQueue p).executions = s.executions ∨
    ∃ lastApplied q, q.index = s.cfg.expectedCheckPoint ∧
      s.getAppliedCheckPointProposal (s.cfg.expectedCheckPoint - 1) = some lastApplied ∧
      (s.updateCommitQueue p).executions = s.executions ++ [{ lastApplied := lastApplied, proposal := q }] := by
  unfold updateCommitQueue
  split_ifs
  · exact Or.inl rfl
  · have hmax := notifyMaxProposalIndex_quiet s p.index
    have hcaches : (s.notifyMaxProposalIndex p.index).caches = s.caches := congrArg Core.caches hmax.core
    have hcfg : (s.notifyMaxProposalIndex p.index).cfg = s.cfg := by
      unfold notifyMaxProposalIndex
      split <;> rfl
    have hexec : (s.notifyMaxProposalIndex p.index).executions = s.executions := congrArg Core.executions hmax.core
    dsimp only
    generalize s.notifyMaxProposalIndex p.index = u at hcaches hcfg hexec
    have h := tryToApplyCommitQueue_executions
      ({ u with committedQueue := pushQueue u.committedQueue p
                committedProposalList := u.committedProposalList.insert p.index () }.emit [.pushCommitted p])
    rw [← hcfg, ← hexec]
    simp only [getAppliedCheckPointProposal, ← hcaches, ← hcfg] at h ⊢
    exact h

/-- What the worker does with the result at the front of its queue. -/
theorem Node.onProposalApplied_cases (E : Env) (s : Node) : s.onProposalApplied E = s ∨ ∃ r rest, s.applied = r :: rest ∧
    (r.success = false ∧ s.onProposalApplied E = { s with applied := rest }.onProposalApplyFailed r.proposal ∨
      r.success = true ∧ r.announced = none ∧ s.onProposalApplied E =
        { s with applied := { r with announced := some (encodedMsg E s.cfg.keyPair
            (s.checkPointVote E r.executedProposal)) } :: rest }.announceCheckPoint E r ∨
      ∃ m, r.success = true ∧ r.announced = some m ∧
        s.onProposalApplied E = { s with applied := rest }.recordCheckPoint r m) := by
  unfold onProposalApplied
  split
  · exact Or.inl rfl
  · rename_i r rest happ
    refine Or.inr ⟨r, rest, happ, ?_⟩
    split
    · rename_i hfail
      exact Or.inl ⟨by simpa using hfail, rfl⟩
    · rename_i hsucc
      have hsucc : r.success = true := by simpa using hsucc
      split
      · rename_i hann
        exact Or.inr (Or.inl ⟨hsucc, hann, rfl⟩)
      · rename_i m hann
        exact Or.inr (Or.inr ⟨m, hsucc, hann, rfl⟩)

/-- The block numbers that the ledger reports are not negative, and a failed proposal that is pushed again is not
started again at once. -/
def Event.Settles (s : Node) : Event → Prop
  | .finalized l | .newBlock l => 0 ≤ l.blockNumber
  | .proposalApplied => ∀ r ∈ s.applied.head?, r.success = false → r.proposal.index ≠ s.cfg.expectedCheckPoint ∨
      s.getAppliedCheckPointProposal (s.cfg.expectedCheckPoint - 1) = none
  | _ => True

instance (s : Node) : (e : Event) → Decidable (e.Settles s)
  | .finalized l => inferInstanceAs (Decidable (0 ≤ l.blockNumber))
  | .newBlock l => inferInstanceAs (Decidable (0 ≤ l.blockNumber))
  | .proposalApplied => inferInstanceAs (Decidable (∀ r ∈ s.applied.head?, _))
  | .receive .. | .gate | .worker | .timeout | .checkPointTimeout .. | .submitProposal .. | .proposalSubmitted _
  | .proposalVerified .. | .proposalLoaded .. | .lowMark _ | .executed .. | .notifyNewBlock _ | .precommitResponse ..
  | .committedResponse .. | .sealerReset .. | .sealerAnswers _ | .resetTxsFinished _ | .syncingNumber _ | .connected _
  | .clock _ => inferInstanceAs (Decidable True)

namespace Marks

variable {E : Env} {s : Node}

/-- The mark of a failed proposal goes, comes back with a new start only if that is at once, and goes again. -/
theorem onProposalApplyFailed (E : Env) {p : PBFTProposal} (hs : Marks [p] s)
    (hok : p.index ≠ s.cfg.expectedCheckPoint ∨ s.getAppliedCheckPointProposal (s.cfg.expectedCheckPoint - 1) = none)
    (hone : OneHash (s.onProposalApplyFailed p).log) : Marks [] (s.onProposalApplyFailed p) := by
  unfold Node.onProposalApplyFailed at hone ⊢
  dsimp only at hone ⊢
  split at hone <;> rename_i hpush
  · rw [if_pos hpush]
    have hsteps : Steps E (fun l => l.running) (s.eraseExecutedProposal p.hash)
        ((s.eraseExecutedProposal p.hash).updateCommitQueue p) := by
      have hfailed : Label.running (.push .failed p) := trivial
      refine Node.updateCommitQueue_steps _ (fun l hfree => ?_) hfailed (fun h => PushSource.noConfusion h)
      cases l <;> trivial
    have honeP : OneHash ((s.eraseExecutedProposal p.hash).updateCommitQueue p).log := hone
    have hone₀ : OneHash s.log := by
      obtain ⟨k, hk⟩ := hsteps.log
      exact OneHash.earlier (k := k) (hk ▸ honeP)
    have hne := hs.hash_ne hone₀
    have hmarks := Marks.steps (fun l hl => hl) hsteps honeP (hs.drop.unmark hne)
    have hcommitted : s.cfg.committedIndex ≤ ((s.eraseExecutedProposal p.hash).updateCommitQueue p).cfg.committedIndex :=
      Labelled.Steps.preserves (I := fun u => s.cfg.committedIndex ≤ u.cfg.committedIndex)
        (fun l u v hl hu h => h.trans (hu.cfgStep.committedIndex_le (fun b hb => by subst hb; exact hl))) hsteps (le_refl _)
    obtain ⟨k, hk⟩ := hsteps.log
    have hp : Action.pushCommitted p ∈ ((s.eraseExecutedProposal p.hash).updateCommitQueue p).log := by
      rw [hk]
      exact List.mem_append_left k (hs.flight p List.mem_cons_self)
    have happ := Node.updateCommitQueue_applied (s.eraseExecutedProposal p.hash) p
    have hexec := Node.updateCommitQueue_executions (s.eraseExecutedProposal p.hash) p
    generalize (s.eraseExecutedProposal p.hash).updateCommitQueue p = u at hmarks honeP hcommitted hp happ hexec
    -- what is in flight now was before, or was started in place of `p`
    have hother : ∀ q ∈ u.inFlight, u.cfg.committedIndex < q.index → q.hash ≠ p.hash := by
      intro q hq hc
      have hold : q ∈ s.inFlight → q.hash ≠ p.hash := fun hq =>
        hne q (List.mem_append_right [] hq) (hcommitted.trans_lt hc)
      have hmem : q ∈ u.executions.map Execution.proposal ++ s.applied.map Applied.proposal := by
        rw [← show u.applied = s.applied from happ]
        exact hq
      rcases List.mem_append.1 hmem with hmem | hmem
      · rcases hexec with hexec | ⟨lastApplied, q', hindex, hlast, hexec⟩
        · rw [hexec] at hmem
          exact hold (List.mem_append_left _ hmem)
        · rw [hexec, List.map_append] at hmem
          rcases List.mem_append.1 hmem with hmem | hmem
          · exact hold (List.mem_append_left _ hmem)
          · obtain rfl : q = q' := List.mem_singleton.1 hmem
            intro hhash
            rcases hok with hok | hok
            · exact hok (((honeP q p (hmarks.flight q hq) hp).2 hhash).symm.trans hindex)
            · cases hok.symm.trans hlast
      · exact hold (List.mem_append_right _ hmem)
    have hexpect : Marks [] (u.setCfg (u.cfg.setExpectedCheckPoint (u.cfg.committedIndex + 1))) :=
      (Prim.expect (E := E) u (Or.inl (le_refl _))).marks trivial honeP hmarks
    exact hexpect.unmark hother
  · rw [if_neg hpush]
    have hexpect : Marks [p] (s.setCfg (s.cfg.setExpectedCheckPoint (s.cfg.committedIndex + 1))) :=
      (Prim.expect (E := E) s (Or.inl (le_refl _))).marks trivial hone hs
    exact hexpect.drop.unmark (hexpect.hash_ne hone)

theorem recordCheckPoint (E : Env) {r : Applied} {m : PBFTMessage} (hs : Marks [r.proposal] s)
    (hone : OneHash (s.recordCheckPoint r m).log) : Marks [] (s.recordCheckPoint r m) := by
  have hopen : Open fun l => l.running := fun l hfree => by
    cases l <;> trivial
  obtain ⟨u, hsteps, heq⟩ := Node.recordCheckPoint_tail_steps (E := E) s hopen trivial trivial trivial (fun _ => trivial) r m
  rw [heq] at hone ⊢
  have honeU : OneHash u.log := hone
  have hone₀ : OneHash ((s.addCheckPointMsg m).setCheckPointProposal r.executedProposal).log := by
    obtain ⟨k, hk⟩ := hsteps.log
    exact OneHash.earlier (k := k) (hk ▸ honeU)
  have hvote : Marks [r.proposal] (s.addCheckPointMsg m) := hs.mono
    (fun a ha => List.mem_append_left _ ha) (fun _ hp => hp) (List.Subperm.refl _) rfl (le_refl _)
  have hset : Marks [r.proposal] ((s.addCheckPointMsg m).setCheckPointProposal r.executedProposal) :=
    (Prim.setCheckPoint (E := E) _ _).marks trivial hone₀ hvote
  have hmarks := Marks.steps (fun l hl => hl) hsteps honeU hset
  exact hmarks.drop.unmark (hmarks.hash_ne honeU)

theorem onProposalApplied (hs : Marks [] s) (hok : Event.proposalApplied.Settles s)
    (hone : OneHash (s.onProposalApplied E).log) : Marks [] (s.onProposalApplied E) := by
  rcases s.onProposalApplied_cases E with heq | ⟨r, rest, happ, ⟨hfail, heq⟩ | ⟨hsucc, hann, heq⟩ | ⟨m, -, -, heq⟩⟩
  · rw [heq]
    exact hs
  · rw [heq] at hone ⊢
    exact (hs.settle happ).onProposalApplyFailed E (hok r (by rw [happ]; rfl) hfail) hone
  · rw [heq] at hone ⊢
    exact (Prim.announce (E := E) s happ hsucc hann).marks trivial hone hs
  · rw [heq] at hone ⊢
    exact (hs.settle happ).recordCheckPoint E hone

end Marks

theorem step_marks {E : Env} {s t : Node} {e : Event} (hok : e.Settles s) (h : step E s e = some t) (hone : OneHash t.log)
    (hs : Marks [] s) : Marks [] t := by
  by_cases he : e = .proposalApplied
  · subst he
    obtain rfl := Option.some.inj h
    exact hs.onProposalApplied hok hone
  · refine Marks.steps (fun l hl => ?_) (step_steps h) hone hs
    cases l with
    | settle =>
      obtain ⟨r, hr⟩ := hl
      exact he hr.1
    | unmark hash =>
      obtain ⟨r, hr, -⟩ := hl
      exact he hr.1
    | ledger b =>
      rcases hl with rfl | rfl
      · exact hok
      · exact hok
    | _ => trivial

theorem initNode_marks {E : Env} {keyPair : KeyPair} {l : LedgerConfig} {state : List PBFTProposal} {s₀ : Node}
    (hinit : initNode E keyPair l state = some s₀) : Marks [] s₀ := by
  let A : Label → Prop := fun label => label.pipeline = false
  let I : Node → Prop := fun u => u.committedQueue = [] ∧ u.executingProposals = ∅ ∧ u.executions = [] ∧ u.applied = []
  obtain ⟨s, hsteps, hs⟩ := initNode_steps (A := A) rfl rfl rfl rfl (fun _ _ => rfl) hinit
  have hempty : I s := by
    refine Labelled.Steps.preserves (fun l u v hl hp hu => ?_) hsteps ⟨rfl, rfl, rfl, rfl⟩
    obtain ⟨hq, hx, he, ha⟩ := hp.pipeline_same hl
    exact ⟨hq.trans hu.1, hx.trans hu.2.1, he.trans hu.2.2.1, ha.trans hu.2.2.2⟩
  have hsame : I s₀ := by
    rcases hs with rfl | ⟨last, -, rfl⟩
    · exact hempty
    · exact hempty
  obtain ⟨hq, hx, he, ha⟩ := hsame
  have hflight : s₀.inFlight = [] := by
    unfold Node.inFlight
    rw [he, ha]
    rfl
  refine ⟨?_, ?_, ?_, ?_, ?_⟩
  · simp [hq]
  · simp [hflight]
  · simp [hx]
  · simp [hflight]
  · simp [hflight]

/-- Over a run in which the pushed proposals of one index have one hash, and of one hash one index, and no failed
proposal is started again at the moment it is pushed again, what is in flight above the committed index is marked and
no two executions of one index are in flight. -/
theorem execution_exclusive {E : Env} {keyPair : KeyPair} {l : LedgerConfig} {state : List PBFTProposal} {s₀ s : Node}
    {trace : List (Node × Event)} (hinit : initNode E keyPair l state = some s₀) (hrun : Trail (step E) s₀ trace s)
    (hok : ∀ x ∈ trace, x.2.Settles x.1) (hone : OneHash s.log) : Exclusive s := by
  have hmarks : OneHash s.log → Marks [] s := by
    refine hrun.preserves (I := fun u => OneHash u.log → Marks [] u) (fun u e v (hok : e.Settles u) hstep hu hone => ?_)
      hok (fun _ => initNode_marks hinit)
    obtain ⟨k, hk⟩ := (step_steps hstep).log
    exact step_marks hok hstep hone (hu (OneHash.earlier (k := k) (hk ▸ hone)))
  exact (hmarks hone).exclusive

def toyExecuted (error : Bool) : List Event :=
  [.submitProposal false [1, 7] 1 (Toy.checksum [1, 7]), .proposalSubmitted 0, .executed 0 error, .proposalApplied]

def samePush : Action → Action → Bool
  | .pushCommitted p, .pushCommitted q => decide (p.index = q.index ↔ p.hash = q.hash)
  | _, _ => true

/-- A result that was announced is still in flight, and marked. -/
theorem toyExecuted_exclusive : ∃ trace s, Trail.states (step Toy.env) (Toy.node 0 [1]) (toyExecuted false) = some (trace, s) ∧
    s.inFlight.length = 1 ∧ Exclusive s := by
  have hinit : initNode Toy.env (Toy.keyPair 0) { blockNumber := 0, hash := zeroHash, consensusNodeList := Toy.nodes [1] }
      [] = some (Toy.node 0 [1]) := by decide +kernel
  have hrun : ((Trail.states (step Toy.env) (Toy.node 0 [1]) (toyExecuted false)).elim false fun r =>
      (decide (r.2.inFlight.length = 1) && r.1.all fun x => decide (x.2.Settles x.1)) &&
        r.2.log.all fun a => r.2.log.all (samePush a)) = true := by decide +kernel
  obtain ⟨⟨trace, s⟩, hs, hcheck⟩ := Toy.exists_of_elim hrun
  simp only [Bool.and_eq_true, decide_eq_true_eq, List.all_eq_true] at hcheck
  obtain ⟨⟨hlen, hok⟩, hone⟩ := hcheck
  refine ⟨trace, s, hs, hlen, execution_exclusive hinit (.of_states hs) hok (fun p q hp hq => ?_)⟩
  simpa [samePush] using hone _ hp _ hq

/-- A failed execution is started again and loses its mark. -/
theorem toyExecuted_unmarked : ∃ trace s, Trail (step Toy.env) (Toy.node 0 [1]) trace s ∧ ¬Exclusive s := by
  have hrun : ((Trail.states (step Toy.env) (Toy.node 0 [1]) (toyExecuted true)).elim false fun r =>
      r.2.inFlight.any fun p => decide (r.2.cfg.committedIndex < p.index) && !r.2.executingProposals.contains p.hash) =
        true := by
    decide +kernel
  obtain ⟨⟨trace, s⟩, hs, hcheck⟩ := Toy.exists_of_elim hrun
  simp only [List.any_eq_true, Bool.and_eq_true, decide_eq_true_eq, Bool.not_eq_true'] at hcheck
  obtain ⟨p, hp, hc, hmark⟩ := hcheck
  refine ⟨trace, s, .of_states hs, fun h => ?_⟩
  rw [h.marked p hp hc] at hmark
  cases hmark

end BcosPbft
