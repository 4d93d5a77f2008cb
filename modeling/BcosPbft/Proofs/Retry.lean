import BcosPbft.Proofs.CheckPoint
import BcosPbft.Proofs.Pipeline
import BcosPbft.Lib.Trail

/-! The mark that keeps an index from being requested twice. A request outside the timeout state sets it, the answer takes
it away only when the network reports an error, and the verification of what was delivered never does. -/

namespace BcosPbft

variable {E : Env} {s t u : Node} {i : Int}

/-- Index `i` is in `m_committedProposalList`. -/
def Node.Requested (s : Node) (i : Int) : Prop := s.committedProposalList.contains i = true

instance (s : Node) (i : Int) : Decidable (s.Requested i) := inferInstanceAs (Decidable (_ = _))

def Node.Pushed (s : Node) (i : Int) : Prop := ∃ p, Action.pushCommitted p ∈ s.log ∧ p.index = i

theorem Node.Pushed.mono (h : s.Pushed i) (hlog : ∃ k, t.log = s.log ++ k) : t.Pushed i := by
  obtain ⟨p, hp, hindex⟩ := h
  obtain ⟨k, hk⟩ := hlog
  exact ⟨p, by rw [hk]; exact List.mem_append_left k hp, hindex⟩

namespace Node

theorem notifySealer_list (s : Node) (index : Int) (enforce : Bool) :
    (s.notifySealer index enforce).committedProposalList = s.committedProposalList := by
  unfold notifySealer
  dsimp only
  split_ifs <;> rfl

theorem applyStateMachine_list (s : Node) (lastApplied p : PBFTProposal) :
    (s.applyStateMachine lastApplied p).committedProposalList = s.committedProposalList := by
  unfold applyStateMachine notifyToSealNextBlock
  dsimp only
  split_ifs <;> first
    | exact notifySealer_list s _ _
    | rfl

theorem tryToApplyCommitQueue_list (s : Node) :
    s.tryToApplyCommitQueue.1.committedProposalList = s.committedProposalList := by
  rcases s.tryToApplyCommitQueue_cases with heq | ⟨p, lastApplied, rest, -, -, -, heq⟩
  · rw [heq]
    rfl
  · rw [heq]
    exact applyStateMachine_list _ lastApplied p

theorem notifyMaxProposalIndex_list (s : Node) (index : Int) :
    (s.notifyMaxProposalIndex index).committedProposalList = s.committedProposalList := by
  unfold notifyMaxProposalIndex
  split_ifs <;> rfl

theorem updateCommitQueue_requested (E : Env) (s : Node) (p : PBFTProposal) (h : ¬(s.updateCommitQueue p).Pushed i) :
    (s.updateCommitQueue p).Requested i ↔ s.Requested i := by
  unfold updateCommitQueue at h ⊢
  split_ifs at h ⊢ with hexecuting
  · exact Iff.rfl
  dsimp only at h ⊢
  have hne : i ≠ p.index := by
    rintro rfl
    refine h (Pushed.mono (s := { s.notifyMaxProposalIndex p.index with
      committedQueue := pushQueue (s.notifyMaxProposalIndex p.index).committedQueue p
      committedProposalList := (s.notifyMaxProposalIndex p.index).committedProposalList.insert p.index () }.emit
        [.pushCommitted p]) ⟨p, ?_, rfl⟩ ?_)
    · exact List.mem_append_right _ List.mem_cons_self
    · exact (tryToApplyCommitQueue_steps (E := E) (A := fun _ => True) _ fun _ _ => trivial).log
  unfold Requested
  rw [tryToApplyCommitQueue_list]
  change ((s.notifyMaxProposalIndex p.index).committedProposalList.insert p.index ()).contains i = true ↔ _
  rw [notifyMaxProposalIndex_list, OrdMap.contains_iff, OrdMap.contains_iff, OrdMap.find?_insert_ne _ _ hne]

theorem onProposalLoaded_requested (E : Env) (s : Node) (p : PBFTProposal) (retryTime : Nat) (outcome : VerifyOutcome)
    (h : ¬(s.onProposalLoaded p retryTime outcome).Pushed i) :
    (s.onProposalLoaded p retryTime outcome).Requested i ↔ s.Requested i := by
  unfold onProposalLoaded at h ⊢
  split at h
  · unfold loadAndVerifyProposal
    split_ifs <;> exact Iff.rfl
  · exact updateCommitQueue_requested E s p h
  · exact Iff.rfl

theorem initState_list (E : Env) (s : Node) (l : List PBFTProposal) :
    (s.initState E l).committedProposalList = s.committedProposalList := by
  unfold initState
  induction l generalizing s with
  | nil => rfl
  | cons p l ih =>
    rw [List.foldl_cons, ih]
    unfold asyncResetTxsFlag loadAndVerifyProposal
    split_ifs <;> rfl

/-- Of all that can come back, only an error of the network takes the mark away. -/
theorem onRecvCommittedProposalsResponse_requested (E : Env) (s : Node) (i : Int) (data : Option Bytes) :
    (s.onRecvCommittedProposalsResponse E i data).Requested i ↔ data ≠ none ∧ s.Requested i := by
  unfold onRecvCommittedProposalsResponse
  split
  · unfold Requested eraseCommittedProposalList
    rw [OrdMap.contains_iff, OrdMap.find?_erase]
    simp
  · rw [and_iff_right (by simp)]
    split_ifs
    · exact Iff.rfl
    split
    · split_ifs
      · exact Iff.rfl
      · unfold Requested
        rw [initState_list]
    · exact Iff.rfl

theorem shouldRequestCheckPoint_requested {m : PBFTMessage} (h : s.shouldRequestCheckPoint m = (t, true)) :
    t.Requested m.index ↔ s.cfg.timeoutState = false := by
  unfold shouldRequestCheckPoint at h
  split_ifs at h with hold hmarked hcache htimeout
  · cases (Prod.mk.inj h).2
  · cases (Prod.mk.inj h).2
  · cases (Prod.mk.inj h).2
  · obtain ⟨rfl, -⟩ := Prod.mk.inj h
    simp [Requested, hmarked, htimeout]
  · rw [iff_true_right (by simpa using htimeout)]
    split at h
    · cases (Prod.mk.inj h).2
    · split_ifs at h
      · cases (Prod.mk.inj h).2
      · cases (Prod.mk.inj h).2
      · obtain ⟨rfl, -⟩ := Prod.mk.inj h
        unfold Requested
        rw [OrdMap.contains_iff, OrdMap.find?_insert_self]
        exact ⟨(), rfl⟩

theorem shouldRequestCheckPoint_of_requested {m : PBFTMessage} (h : s.Requested m.index) :
    s.shouldRequestCheckPoint m = (s, false) := by
  unfold shouldRequestCheckPoint
  unfold Requested at h
  split_ifs <;> rfl

end Node

/-- A step that answers a call of the verifier for a fetched proposal, or that leaves the mark of the index alone. -/
def Event.SparesMark (E : Env) (i : Int) (s : Node) (e : Event) : Prop :=
  (∃ j outcome, e = .proposalLoaded j outcome) ∨ ∀ t, step E s e = some t → (t.Requested i ↔ s.Requested i)

theorem Event.SparesMark.requested {e : Event} (h : e.SparesMark E i s) (hstep : step E s e = some t) (ht : ¬t.Pushed i) :
    t.Requested i ↔ s.Requested i := by
  rcases h with ⟨j, outcome, rfl⟩ | h
  · simp only [step, answer] at hstep
    split at hstep
    · obtain rfl := Option.some.inj hstep
      exact Iff.rfl
    · obtain rfl := Option.some.inj hstep
      exact Node.onProposalLoaded_requested E _ _ _ _ ht
  · exact h t hstep

theorem requested_of_trail {s₀ s : Node} {trace : List (Node × Event)} (h : Trail (step E) s₀ trace s)
    (hspares : ∀ x ∈ trace, x.2.SparesMark E i x.1) (hs : ¬s.Pushed i) : s.Requested i ↔ s₀.Requested i := by
  induction h with
  | nil => exact Iff.rfl
  | @snoc trace u v e hpath hstep ih =>
    have hlast := hspares (u, e) (List.mem_append_right _ List.mem_cons_self)
    have hu : ¬u.Pushed i := fun hpushed => hs (hpushed.mono (step_steps hstep).log)
    exact (hlast.requested hstep hs).trans (ih (fun x hx => hspares x (List.mem_append_left _ hx)) hu)

/-- When the outcome of a request is processed and nothing of its index was pushed, the index is free again exactly when the
outcome was an error of the network or the index was not marked, as after a request in the timeout state. -/
theorem fetch_retry_iff :
    (∀ (s t : Node) (m : PBFTMessage), s.shouldRequestCheckPoint m = (t, true) →
      (t.Requested m.index ↔ s.cfg.timeoutState = false)) ∧
    ∀ (s s' t : Node) (k : Nat) (i : Int) (data : Option Bytes) (trace : List (Node × Event)),
      s.committedRequests[k]? = some i → step E s (.committedResponse k data) = some s' →
      Trail (step E) s' trace t → (∀ x ∈ trace, x.2.SparesMark E i x.1) → ¬t.Pushed i →
      (¬t.Requested i ↔ data = none ∨ ¬s.Requested i) := by
  refine ⟨fun s t m h => Node.shouldRequestCheckPoint_requested h, ?_⟩
  intro s s' t k i data trace hrequest hstep hrun hspares hpush
  have hanswer : s'.Requested i ↔ data ≠ none ∧ s.Requested i := by
    simp only [step, answer, hrequest] at hstep
    obtain rfl := Option.some.inj hstep
    exact Node.onRecvCommittedProposalsResponse_requested E _ i data
  rw [requested_of_trail hrun hspares hpush, hanswer, not_and_or, not_not]

def Action.isPush : Action → Bool
  | .pushCommitted _ => true
  | _ => false

theorem not_pushed_of_any (h : (!s.log.any Action.isPush) = true) : ¬s.Pushed i := by
  rintro ⟨p, hp, -⟩
  rw [Bool.not_eq_true', List.any_eq_false] at h
  exact h _ hp rfl

def toyAsking : Option Node :=
  (Toy.atOnce [.receive [0] (toyCheckPoint 0) [], .worker, .receive [1] (toyCheckPoint 1) [], .worker]).foldlM
    (step Toy.env) (Toy.node 3 [1, 1, 1, 1])

theorem toyAsking_error : ∃ s s', toyAsking = some s ∧ s.committedRequests[0]? = some 1 ∧ s.Requested 1 ∧
    step Toy.env s (.committedResponse 0 none) = some s' ∧ ¬s'.Pushed 1 ∧ ¬s'.Requested 1 := by
  have hrun : (toyAsking.elim false fun s => (decide (s.committedRequests[0]? = some 1) && decide (s.Requested 1)) &&
      (step Toy.env s (.committedResponse 0 none)).elim false fun s' => !s'.log.any Action.isPush) = true := by
    decide +kernel
  obtain ⟨s, hs, hcheck⟩ := Toy.exists_of_elim hrun
  simp only [Bool.and_eq_true, decide_eq_true_eq] at hcheck
  obtain ⟨⟨hrequest, hmarked⟩, hcheck⟩ := hcheck
  obtain ⟨s', hs', hpush⟩ := Toy.exists_of_elim hcheck
  have hnone := not_pushed_of_any hpush (i := 1)
  refine ⟨s, s', hs, hrequest, hmarked, hs', hnone, ?_⟩
  exact (fetch_retry_iff.2 s s' s' 0 1 none [] hrequest hs' .nil (fun x hx => by cases hx) hnone).2 (Or.inl rfl)

/-- An empty answer is over at once, and the index stays marked: no checkpoint message makes the node ask again. -/
theorem toyAsking_empty : ∃ s s', toyAsking = some s ∧ s.committedRequests = [1] ∧
    step Toy.env s (.committedResponse 0 (some [])) = some s' ∧ s'.committedRequests = [] ∧ s'.loading = [] ∧
    ¬s'.Pushed 1 ∧ s'.Requested 1 ∧ ¬∃ m, m.index = 1 ∧ (s'.shouldRequestCheckPoint m).2 = true := by
  have hrun : (toyAsking.elim false fun s => decide (s.committedRequests = [1]) &&
      (step Toy.env s (.committedResponse 0 (some []))).elim false fun s' => decide (s'.committedRequests = []) &&
        (decide (s'.loading = []) && decide (s'.Requested 1)) && !s'.log.any Action.isPush) = true := by
    decide +kernel
  obtain ⟨s, hs, hcheck⟩ := Toy.exists_of_elim hrun
  simp only [Bool.and_eq_true, decide_eq_true_eq] at hcheck
  obtain ⟨hrequest, hcheck⟩ := hcheck
  obtain ⟨s', hs', hcheck⟩ := Toy.exists_of_elim hcheck
  simp only [Bool.and_eq_true, decide_eq_true_eq] at hcheck
  obtain ⟨⟨hleft, hloading, hmarked⟩, hpush⟩ := hcheck
  refine ⟨s, s', hs, hrequest, hs', hleft, hloading, not_pushed_of_any hpush, hmarked, ?_⟩
  rintro ⟨m, hindex, hagain⟩
  rw [Node.shouldRequestCheckPoint_of_requested (hindex ▸ hmarked)] at hagain
  cases hagain

end BcosPbft
