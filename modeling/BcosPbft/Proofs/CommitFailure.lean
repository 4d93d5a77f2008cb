import BcosPbft.Proofs.Submission

/-! Ledger writes that fail. The checkpoint left the queue when it was handed over, and its cache has been marked or erased, so
nothing is left to hand it over again unless the index has been executed once more. -/

namespace BcosPbft

/-- The checkpoint of the index waits for the ledger, or its cache can still hand it out. -/
def Node.Resubmits (s : Node) (i : Int) : Prop :=
  (∃ p ∈ s.stableCheckPointQueue, p.index = i) ∨
    ∃ c ∈ s.caches.find? i, c.collectEnoughCheckpoint s.cfg = true ∧ c.stableCommitted = false

instance (s : Node) (i : Int) : Decidable (s.Resubmits i) :=
  inferInstanceAs (Decidable (_ ∨ ∃ c ∈ _, _))

theorem Node.Spent.not_collects {s : Node} {i : Int} {c : PBFTCache} (h : s.Spent i) (hc : s.caches.find? i = some c)
    (hstable : c.stableCommitted = false) : c.collectEnoughCheckpoint s.cfg = false := by
  rcases h c hc with hcommitted | hnone
  · exact absurd (hcommitted.symm.trans hstable) Bool.noConfusion
  · unfold PBFTCache.collectEnoughCheckpoint
    rw [hnone]
    rfl

theorem Lined.not_resubmits {failed : ℕ → Prop} {s : Node} (hs : Lined failed [] s) {p : PBFTProposal} {j : ℕ}
    (hp : (p, j) ∈ s.submitted.zipIdx) (hj : ¬failed j) (hindex : p.index = s.cfg.committedIndex + 1) :
      ¬s.Resubmits p.index := by
  have hspent : s.Spent p.index := hs.spent p.index (by omega) (Or.inl (Or.inr ⟨(p, j), hp, rfl, hj⟩))
  rintro (⟨q, hq, hqi⟩ | ⟨c, hc, hcollects, hstable⟩)
  · have hwaiting := hs.waiting q hq
    omega
  · have hnot := hspent.not_collects hc hstable
    rw [hnot] at hcollects
    cases hcollects

/-- When the ledger reports an error for the next index, the checkpoint can be handed over again exactly if it could before. In a
run that has recorded no result for an index whose checkpoint was sent, apart from the writes that failed before, it could not. -/
theorem commitBlock_error_lost {E : Env} (failed : ℕ → Prop) {keyPair : KeyPair} {l : LedgerConfig} {state : List PBFTProposal}
    {s₀ s t : Node} {trace : List (Node × Event)} (hinit : initNode E keyPair l state = some s₀)
    (hrun : Trail (step E) s₀ trace s) {p : PBFTProposal} {j : ℕ} (hp : (p, j) ∈ s.submitted.zipIdx) (hj : ¬failed j)
    (hindex : p.index = s.cfg.committedIndex + 1) (ht : s.onCommitBlock E none = some t) :
    (t.Resubmits p.index ↔ s.Resubmits p.index) ∧ ((∀ x ∈ trace, x.2.Submits failed x.1) → ¬t.Resubmits p.index) := by
  obtain rfl := Option.some.inj ht
  exact ⟨Iff.rfl, fun hok => (path_lined hinit hrun hok).2.not_resubmits hp hj hindex⟩

/-- The write of block 2 fails. -/
theorem toyWritten_lost : ∃ trace s t p, Trail.states (step Toy.env) (Toy.node 0 [7, 1, 1])
    (toyPipeline ++ [toyWritten]) = some (trace, s) ∧
    (p, 1) ∈ s.submitted.zipIdx ∧ p.index = 2 ∧ s.cfg.committedIndex = 1 ∧ s.onCommitBlock Toy.env none = some t ∧
    ¬t.Resubmits 2 := by
  have hinit : initNode Toy.env (Toy.keyPair 0)
      { blockNumber := 0, hash := zeroHash, consensusNodeList := Toy.nodes [7, 1, 1] } [] = some (Toy.node 0 [7, 1, 1]) := by
    decide +kernel
  have hrun : ((Trail.states (step Toy.env) (Toy.node 0 [7, 1, 1]) (toyPipeline ++ [toyWritten])).elim false fun r =>
      (r.2.submitted[1]?).elim false fun p => decide (p.index = 2) && decide (r.2.cfg.committedIndex = 1) &&
        r.1.all fun x => decide (x.2.Submits (fun _ => False) x.1)) = true := by
    decide +kernel
  obtain ⟨⟨trace, s⟩, hs, hcheck⟩ := Toy.exists_of_elim hrun
  obtain ⟨p, hp, hcheck⟩ := Toy.exists_of_elim hcheck
  simp only [Bool.and_eq_true, decide_eq_true_eq, List.all_eq_true] at hcheck
  obtain ⟨⟨hindex, hcommitted⟩, hok⟩ := hcheck
  have hmem : (p, 1) ∈ s.submitted.zipIdx := List.mem_zipIdx_iff_getElem?.2 hp
  have hlost := commitBlock_error_lost (fun _ => False) hinit (.of_states hs) hmem not_false
    (by rw [hindex, hcommitted]; rfl) rfl
  exact ⟨trace, s, s, p, hs, hmem, hindex, hcommitted, rfl, hindex ▸ hlost.2 hok⟩

/-- The write of block 1 fails, and the node has no way to try again. -/
theorem toyPipeline_lost : ∃ trace s t p, Trail (step Toy.env) (Toy.node 0 [7, 1, 1]) trace s ∧
    s.submitted = [p] ∧ p.index = s.cfg.committedIndex + 1 ∧ s.onCommitBlock Toy.env none = some t ∧ ¬t.Resubmits p.index := by
  have hrun : ((Trail.states (step Toy.env) (Toy.node 0 [7, 1, 1]) toyPipeline).elim false fun r =>
      decide (r.2.submitted.length = 1) && r.2.submitted.all fun p => decide (p.index = r.2.cfg.committedIndex + 1) &&
        decide (¬r.2.Resubmits p.index)) = true := by
    decide +kernel
  obtain ⟨⟨trace, s⟩, hs, hcheck⟩ := Toy.exists_of_elim hrun
  simp only [Bool.and_eq_true, decide_eq_true_eq, List.all_eq_true] at hcheck
  obtain ⟨p, hlist⟩ := List.length_eq_one_iff.1 hcheck.1
  have hp := hcheck.2 p (by rw [hlist]; exact List.mem_singleton_self p)
  exact ⟨trace, s, s, p, .of_states hs, hlist, hp.1, rfl, hp.2⟩

end BcosPbft
