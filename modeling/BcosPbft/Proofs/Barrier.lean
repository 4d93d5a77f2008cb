import BcosPbft.Proofs.Agreement
import BcosPbft.Proofs.Voting

/-! The barrier of a system proposal. Only the worker tests it, for the index of the message that it takes from the
queue and before it has the lock; a verified pre-prepare and a block of the node's own sealer come past the worker. -/

namespace BcosPbft

/-- A system proposal was applied and its block is not committed yet. -/
def Node.Barred (s : Node) : Prop := s.cfg.committedIndex < s.cfg.waitSealUntil

/-- The index is behind both of the indices that the node waits for. -/
def Node.Beyond (s : Node) (i : Int) : Prop := s.cfg.waitSealUntil < i ∧ s.cfg.waitResealUntil < i

instance (s : Node) : Decidable s.Barred := inferInstanceAs (Decidable (_ < _))

instance (s : Node) : DecidablePred s.Beyond := fun _ => inferInstanceAs (Decidable (_ ∧ _))

/-- Under the barrier an event brings no pre-prepare that is beyond it and completes no prepare quorum of one. -/
def Event.Respects (E : Env) (s : Node) (e : Event) : Prop := s.Barred → e.Abstains E s.Beyond s

instance (E : Env) (s : Node) (e : Event) : Decidable (e.Respects E s) := inferInstanceAs (Decidable (_ → _))

/-- Under the barrier the worker admits no packet of the consensus that is beyond it. What it has admitted before, it handles. -/
theorem Node.executeWorker_barred {s : Node} (hbarred : s.Barred) (hstage : s.workerStage ≠ .admitted)
    (h : s.executeWorker.workerStage = .admitted) : ∃ msg rest, s.executeWorker.msgQueue = msg :: rest ∧
      (consensusPacket msg.packetType = true → ¬s.Beyond msg.base.index) := by
  have hcommitted : s.cfg.committedIndex < s.cfg.waitSealUntil := hbarred
  unfold executeWorker at h ⊢
  split at h
  · split_ifs at h
    exact absurd h hstage
  · split_ifs at h
  · split_ifs at h
  · exact absurd ‹s.workerStage = .admitted› hstage
  · split at h
    · cases h
    · rename_i msg rest hq
      dsimp only at h ⊢
      split_ifs at h ⊢ with hpopped htimeout hallowed hasleep hlater hgate
      · refine ⟨msg, rest, hq, fun hpacket => ?_⟩
        simp only [timeoutAllowedPacket, consensusPacket, Bool.and_eq_true, Bool.or_eq_true, decide_eq_true_eq] at hallowed hpacket
        exact absurd hpacket (by tauto)
      · refine ⟨msg, rest, hq, fun hpacket hbeyond => hgate ?_⟩
        obtain ⟨hseal, hreseal⟩ := hbeyond
        rw [hpacket, Bool.true_and, Bool.not_eq_true', Bool.eq_false_iff]
        simp only [Config.canHandleNewProposalMsg, Config.canHandleNewProposal, ne_eq, Bool.or_eq_true, Bool.and_eq_true,
          Bool.not_eq_true', decide_eq_true_eq, decide_eq_false_iff_not]
        omega

/-- While a system proposal is on its way, no step of a run stores or votes for what is beyond it, exactly when no event of
the run brings such a pre-prepare past the worker or completes a prepare quorum of one, with a vote the worker has admitted
earlier. -/
theorem barred_spares_iff {E : Env} {s₀ s : Node} {trace : List (Node × Event)} (hrun : Trail (step E) s₀ trace s) :
    (∀ x ∈ trace, x.1.Barred → ∀ t, step E x.1 x.2 = some t → Spares x.1.Beyond x.1 t) ↔
      ∀ x ∈ trace, x.2.Respects E x.1 := by
  refine ⟨fun h x hx hbarred => ?_, fun h x hx hbarred t ht => (step_spares_iff ht).2 (h x hx hbarred)⟩
  obtain ⟨t, ht⟩ := hrun.step_of_mem hx
  exact (step_spares_iff ht).1 (h x hx hbarred t ht)

def toySystem : Bytes :=
  let p : PBFTProposal := { proposal := { (Toy.proposal 7).proposal with systemProposal := true } }
  (PBFTCodec.encode Toy.env (Toy.keyPair 1) 0 (.pbft (populatePrePrepare .PrePreparePacket p 0 0 0 1))).1

def toyNext : Bytes :=
  let p : PBFTProposal := { proposal := { index := 2, hash := (Toy.checksum [2, 7]).val, data := [2, 7] } }
  (PBFTCodec.encode Toy.env (Toy.keyPair 2) 0 (.pbft (populatePrePrepare .PrePreparePacket p 0 0 0 2))).1

def toyBarred (late : List Event) : List Event :=
  Toy.atOnce ([.receive [1] toySystem [], .worker, .receive [2] toyNext [], .worker, .proposalVerified 0 (.result true)] ++
    [0, 1].flatMap (fun b => [Group.toyBallot .PreparePacket b 7, .worker]) ++
    [0, 1].flatMap (fun b => [Group.toyBallot .CommitPacket b 7, .worker]) ++ late)

theorem toyBarred_silent : ∃ trace s, Trail.states (step Toy.env) (Toy.node 3 [1, 1, 1, 1])
      (toyBarred [Group.toyBallot .PreparePacket 2 7, .worker]) = some (trace, s) ∧ s.Barred ∧
    ∀ x ∈ trace, x.1.Barred → ∀ t, step Toy.env x.1 x.2 = some t → Spares x.1.Beyond x.1 t := by
  have hrun : ((Trail.states (step Toy.env) (Toy.node 3 [1, 1, 1, 1])
      (toyBarred [Group.toyBallot .PreparePacket 2 7, .worker])).elim false fun r =>
        decide r.2.Barred && r.1.all fun x => decide (x.2.Respects Toy.env x.1)) = true := by
    decide +kernel
  obtain ⟨⟨trace, s⟩, hs, hcheck⟩ := Toy.exists_of_elim hrun
  simp only [Bool.and_eq_true, decide_eq_true_eq, List.all_eq_true] at hcheck
  exact ⟨trace, s, hs, hcheck.1, (barred_spares_iff (.of_states hs)).2 hcheck.2⟩

/-- The second answer comes under the barrier, and the node votes for index 2. -/
theorem toyBarred_votes : initNode Toy.env (Toy.keyPair 3)
      { blockNumber := 0, hash := zeroHash, consensusNodeList := Toy.nodes [1, 1, 1, 1] } [] = some (Toy.node 3 [1, 1, 1, 1]) ∧
    ∃ trace s t, Trail.states (step Toy.env) (Toy.node 3 [1, 1, 1, 1]) (toyBarred []) = some (trace, s) ∧ s.Barred ∧
      step Toy.env s (.proposalVerified 0 (.result true)) = some t ∧ s.Beyond 2 ∧ Node.Supports s t 2 := by
  have hrun : ((Trail.states (step Toy.env) (Toy.node 3 [1, 1, 1, 1]) (toyBarred [])).elim false fun r =>
      (decide r.2.Barred && decide (r.2.Beyond 2)) && (step Toy.env r.2 (.proposalVerified 0 (.result true))).any fun t =>
        decide (t.log = r.2.log ++ t.log.drop r.2.log.length) &&
          (t.log.drop r.2.log.length).any fun a => decide (a.supports = some 2)) = true := by
    decide +kernel
  obtain ⟨⟨trace, s⟩, hs, hcheck⟩ := Toy.exists_of_elim hrun
  rw [Bool.and_eq_true, Bool.and_eq_true, decide_eq_true_eq, decide_eq_true_eq] at hcheck
  obtain ⟨⟨hbarred, hbeyond⟩, hstep⟩ := hcheck
  obtain ⟨t, ht, hstep⟩ := (Option.any_eq_true _ _).1 hstep
  rw [Bool.and_eq_true, decide_eq_true_eq, List.any_eq_true] at hstep
  obtain ⟨hlog, a, ha, hvote⟩ := hstep
  exact ⟨by decide +kernel, trace, s, t, hs, hbarred, ht, hbeyond, _, hlog, a, ha, of_decide_eq_true hvote⟩

end BcosPbft
