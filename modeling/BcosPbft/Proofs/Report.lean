import BcosPbft.Proofs.Execution
import BcosPbft.Spec.StateMachine

/-! Reports of executions. The worker takes its results first in, first out, and the mark of a proposal is gone when it is
done with the result; what the state machine does not report stays marked. -/

namespace BcosPbft

open Labelled

/-- The proposal is committed, or is not marked as executing. -/
def Node.Concluded (s : Node) (p : PBFTProposal) : Prop :=
  p.index ≤ s.cfg.committedIndex ∨ s.executingProposals.contains p.hash = false

def Event.finishes (s : Node) : Event → Bool
  | .proposalApplied => s.applied.head?.any fun r => !r.success || r.announced.isSome
  | _ => false

def finished (trace : List (Node × Event)) : Nat := trace.countP fun x => x.2.finishes x.1

/-- A report that the callback does not drop concludes the proposal when the worker is done with it and with those before. -/
def Node.ConcludesReport (E : Env) (s : Node) (e : Execution) (r : Report) : Prop :=
  (s.onExecuteFinished e r).Concluded e.proposal ∨
    ∀ trace u w event, Trail (step E) (s.onExecuteFinished e r) trace u → step E u event = some w →
      event.finishes u = true → finished trace = s.applied.length → w.Concluded e.proposal

section

variable {E : Env} {l : Label} {s t : Node} {e : Event}

theorem Prim.applied_eq (h : Prim E l s t) (hexecuted : l ≠ .executed) (hannounce : l ≠ .announce) (hsettle : l ≠ .settle) :
    t.applied = s.applied := by
  by_cases hpipe : l.pipeline = true
  · cases h with
    | @apply _ p lastApplied rest => exact congrArg Core.applied ((s.takeProposal p rest).applyStateMachine_core lastApplied p)
    | executed => exact absurd rfl hexecuted
    | announce => exact absurd rfl hannounce
    | settle => exact absurd rfl hsettle
    | push => rfl
    | queue => rfl
    | unmark => rfl
    | expire => rfl
    | _ => cases hpipe
  · exact (h.pipeline_same (by simpa using hpipe)).2.2.2

theorem Steps.applied_eq {A : Label → Prop} (h : Steps E A s t)
    (hA : ∀ l, A l → l ≠ .executed ∧ l ≠ .announce ∧ l ≠ .settle) : t.applied = s.applied := by
  refine h.preserves (I := fun u => u.applied = s.applied) (fun l u v hl hp hu => ?_) rfl
  obtain ⟨hexecuted, hannounce, hsettle⟩ := hA l hl
  exact (hp.applied_eq hexecuted hannounce hsettle).trans hu

theorem Node.contains_eraseExecutedProposal (s : Node) (hash : HashType) :
    (s.eraseExecutedProposal hash).executingProposals.contains hash = false := by
  by_contra h
  obtain ⟨v, hv⟩ := OrdMap.contains_iff.1 (by simpa using h)
  rw [eraseExecutedProposal, OrdMap.find?_erase, if_pos rfl] at hv
  cases hv

def Label.processing (l : Label) : Prop := l ≠ .executed ∧ l ≠ .announce ∧ l ≠ .settle

theorem Label.processing_open : Open Label.processing := by
  intro l hl
  refine ⟨?_, ?_, ?_⟩ <;> rintro rfl <;> cases hl

theorem Node.onProposalApplyFailed_spec (E : Env) (s : Node) (p : PBFTProposal) : (s.onProposalApplyFailed p).applied = s.applied ∧
    (s.onProposalApplyFailed p).executingProposals.contains p.hash = false := by
  refine ⟨?_, contains_eraseExecutedProposal _ _⟩
  have hsteps : Steps E Label.processing s (s.onProposalApplyFailed p) :=
    onProposalApplyFailed_steps s Label.processing_open (by simp [Label.processing]) (by simp [Label.processing])
      (by simp [Label.processing])
  exact hsteps.applied_eq fun _ hl => hl

theorem Node.recordCheckPoint_spec (E : Env) (s : Node) (r : Applied) (m : PBFTMessage) :
    (s.recordCheckPoint r m).applied = s.applied ∧ (s.recordCheckPoint r m).executingProposals.contains r.proposal.hash = false := by
  refine ⟨?_, contains_eraseExecutedProposal _ _⟩
  have hsteps : Steps E Label.processing s (s.recordCheckPoint r m) :=
    recordCheckPoint_steps s Label.processing_open (by simp [Label.processing]) (by simp [Label.processing])
      (by simp [Label.processing]) (by simp [Label.processing]) (by simp [Label.processing]) (by simp [Label.processing])
      (by simp [Label.processing])
  exact hsteps.applied_eq fun _ hl => hl

theorem step_finishes (h : step E s e = some t) (hf : e.finishes s = true) :
    ∃ r rest, s.applied = r :: rest ∧ t.applied = rest ∧ t.executingProposals.contains r.proposal.hash = false := by
  cases e with
  | proposalApplied =>
    obtain rfl := Option.some.inj h
    unfold Event.finishes at hf
    unfold Node.onProposalApplied
    cases happ : s.applied with
    | nil =>
      rw [happ] at hf
      cases hf
    | cons r rest =>
      refine ⟨r, rest, rfl, ?_⟩
      rw [happ] at hf
      dsimp only
      cases hsucc : r.success with
      | false => exact Node.onProposalApplyFailed_spec E _ r.proposal
      | true =>
        cases hann : r.announced with
        | none => simp [hsucc, hann] at hf
        | some m => exact Node.recordCheckPoint_spec E _ r m
  | _ => cases hf

theorem step_keeps_result (h : step E s e = some t) (hf : e.finishes s = false) {k : ℕ} {r : Applied}
    (hr : s.applied[k]? = some r) : ∃ r', t.applied[k]? = some r' ∧ r'.proposal = r.proposal := by
  by_cases hexecuted : ∃ i error, e = .executed i error
  · obtain ⟨i, error, rfl⟩ := hexecuted
    obtain rfl := Option.some.inj h
    have hadds : (s.onExecuted E i error).applied = s.applied ∨ ∃ a, (s.onExecuted E i error).applied = s.applied ++ [a] := by
      unfold Node.onExecuted
      split
      · exact Or.inl rfl
      · dsimp only
        split
        · exact Or.inl rfl
        · split
          · exact Or.inl rfl
          · exact Or.inr ⟨_, rfl⟩
    rcases hadds with heq | ⟨a, heq⟩
    · exact ⟨r, heq ▸ hr, rfl⟩
    · refine ⟨r, ?_, rfl⟩
      rw [heq, List.getElem?_append_left (List.getElem?_eq_some_iff.1 hr).1, hr]
  by_cases happlied : e = .proposalApplied
  · subst happlied
    obtain rfl := Option.some.inj h
    unfold Event.finishes at hf
    unfold Node.onProposalApplied
    cases happ : s.applied with
    | nil => simp [happ] at hr
    | cons r₀ rest =>
      rw [happ] at hf hr
      simp only [List.head?_cons, Option.any_some, Bool.or_eq_false_iff, Bool.not_eq_false', Option.isSome_eq_false_iff,
        Option.isNone_iff_eq_none] at hf
      dsimp only
      rw [if_neg (by simp [hf.1]), hf.2]
      cases k with
      | zero =>
        obtain rfl := Option.some.inj hr
        exact ⟨_, rfl, rfl⟩
      | succ k => exact ⟨r, hr, rfl⟩
  · refine ⟨r, ?_, rfl⟩
    rwa [(step_steps h).applied_eq fun l hl => ⟨?_, ?_, ?_⟩]
    · rintro rfl
      exact hexecuted hl
    · rintro rfl
      obtain ⟨_, hevent, -⟩ := hl
      exact happlied hevent
    · rintro rfl
      obtain ⟨_, hevent, -⟩ := hl
      exact happlied hevent

/-- First in, first out: what was at position `k` has moved up by the number of finished results. -/
theorem result_position {trace : List (Node × Event)} (hrun : Trail (step E) s trace t) {k : ℕ} {r : Applied}
    (hr : s.applied[k]? = some r) (hk : finished trace ≤ k) :
    ∃ r', t.applied[k - finished trace]? = some r' ∧ r'.proposal = r.proposal := by
  induction hrun with
  | nil => exact ⟨r, hr, rfl⟩
  | @snoc trace u v e hpre hstep ih =>
    have hcount : finished (trace ++ [(u, e)]) = finished trace + if e.finishes u then 1 else 0 := by
      unfold finished
      rw [List.countP_append, List.countP_singleton]
    rw [hcount] at hk ⊢
    obtain ⟨r', hr', hproposal⟩ := ih (by omega)
    cases hf : e.finishes u with
    | true =>
      rw [hf, if_pos rfl] at hk
      obtain ⟨r₀, rest, hu, hv, -⟩ := step_finishes hstep hf
      refine ⟨r', ?_, hproposal⟩
      rw [if_pos rfl, hv]
      rw [hu, show k - finished trace = k - (finished trace + 1) + 1 by omega, List.getElem?_cons_succ] at hr'
      exact hr'
    | false =>
      obtain ⟨r'', hr'', heq⟩ := step_keeps_result hstep hf hr'
      exact ⟨r'', hr'', heq.trans hproposal⟩

end

theorem Node.concludesReport (E : Env) (s : Node) (e : Execution) (r : Report) : s.ConcludesReport E e r := by
  unfold ConcludesReport onExecuteFinished
  by_cases hcommitted : s.cfg.committedIndex ≥ e.proposal.index
  · rw [if_pos hcommitted]
    exact Or.inl (Or.inl hcommitted)
  · rw [if_neg hcommitted]
    refine Or.inr fun trace u w event hrun hstep hf hfinished => Or.inr ?_
    obtain ⟨r', hr', hproposal⟩ := result_position hrun (List.getElem?_concat_length ..) hfinished.le
    obtain ⟨r₀, rest, hu, -, hmark⟩ := step_finishes hstep hf
    rw [hfinished, Nat.sub_self, hu] at hr'
    obtain rfl := Option.some.inj hr'
    rwa [hproposal] at hmark

namespace StateMachine

/-- The proposal was applied before, or its block decodes, and if the scheduler executes it then under the same number. -/
def Reports (lastApplied proposal : PBFTProposal) (block : DecodedBlock)
    (executeBlock : Option (Int × HashType) → ExecuteOutcome) : Prop :=
  proposal.index ≤ lastApplied.index ∨ block = .noHeader ∨ ∃ number, block = .header number ∧
    ∀ h, executeBlock (parentInfo lastApplied proposal) = .header h → h.number = number

theorem apply_eq_singleton_iff {lastApplied proposal : PBFTProposal} {block : DecodedBlock}
    {executeBlock : Option (Int × HashType) → ExecuteOutcome} :
    (∃ r, apply lastApplied proposal block executeBlock = [r]) ↔ Reports lastApplied proposal block executeBlock := by
  unfold apply Reports
  by_cases hindex : proposal.index ≤ lastApplied.index
  · rw [if_pos hindex]
    exact iff_of_true ⟨_, rfl⟩ (Or.inl hindex)
  · rw [if_neg hindex]
    cases block with
    | thrown => simp [hindex]
    | noHeader => simp
    | header number =>
      unfold onBlockExecuted
      cases executeBlock (parentInfo lastApplied proposal) with
      | error => simp
      | header h => by_cases hnumber : h.number = number <;> simp [hnumber, hindex]

end StateMachine

/-- The node goes through the reports of blocks that decode. -/
theorem Node.onExecuted_eq (E : Env) {s : Node} {i : Nat} {e : Execution} (he : s.executions[i]? = some e) (error : Bool) :
    s.onExecuted E i error =
      (StateMachine.apply e.lastApplied e.proposal ((E.headerNumber e.proposal.data).elim .noHeader .header) fun parent =>
        if error then .error else .header (E.execute e.proposal.data parent)).foldl (fun s r => s.onExecuteFinished e r)
          { s with executions := s.executions.eraseIdx i } := by
  unfold onExecuted applyProposal StateMachine.apply
  rw [he]
  dsimp only
  by_cases hindex : e.proposal.index ≤ e.lastApplied.index
  · rw [if_pos hindex, if_pos hindex]
    rfl
  · rw [if_neg hindex, if_neg hindex]
    cases E.headerNumber e.proposal.data with
    | none => rfl
    | some number =>
      cases error with
      | true => rfl
      | false =>
        simp only [Option.elim_some, Bool.false_eq_true, if_false, StateMachine.onBlockExecuted, StateMachine.parentInfo]
        generalize (if e.proposal.index = e.lastApplied.index + 1 then some (e.lastApplied.index, e.lastApplied.hash)
          else none) = parent
        by_cases hnumber : (E.execute e.proposal.data parent).number ≠ number
        · rw [if_pos hnumber, if_pos hnumber]
          rfl
        · rw [if_neg hnumber, if_neg hnumber]
          rfl

/-- For every outcome: an execution is reported exactly once, and the report concludes the proposal in every node and run,
exactly when no exception and no other block number gets in the way. -/
theorem execution_reported_iff (E : Env) (lastApplied proposal : PBFTProposal) (block : DecodedBlock)
    (executeBlock : Option (Int × HashType) → ExecuteOutcome) :
    (∃ r, StateMachine.apply lastApplied proposal block executeBlock = [r] ∧
        ∀ s : Node, s.ConcludesReport E { lastApplied := lastApplied, proposal := proposal } r) ↔
      StateMachine.Reports lastApplied proposal block executeBlock := by
  rw [← StateMachine.apply_eq_singleton_iff]
  constructor
  · rintro ⟨r, hr, -⟩
    exact ⟨r, hr⟩
  · rintro ⟨r, hr⟩
    exact ⟨r, hr, fun s => s.concludesReport E _ r⟩

def toyMisnumbered : Env := { Toy.env with execute := fun data _ => { number := 9, hash := Toy.checksum data, encoded := data } }

/-- Neither a header with another number nor an exception is reported, and with the first the only node of a list of one
waits for its proposal: the timer does not change its view. -/
theorem toyMisnumbered_unreported :
    (¬∃ r, StateMachine.apply {} (Toy.proposal 7) (.header 1) (fun parent => .header (toyMisnumbered.execute [1, 7] parent)) =
      [r]) ∧
    (¬∃ r, StateMachine.apply {} (Toy.proposal 7) .thrown (fun _ => .error) = [r]) ∧
    ∃ trace s, Trail.states (step toyMisnumbered) (Toy.node 0 [1])
      [.submitProposal false [1, 7] 1 (Toy.checksum [1, 7]), .proposalSubmitted 0, .executed 0 false] = some (trace, s) ∧
      s.executions = [] ∧ s.applied = [] ∧ ¬s.Concluded (Toy.proposal 7) ∧ step toyMisnumbered s .timeout = some s := by
  refine ⟨?_, ?_, ?_⟩
  · rw [StateMachine.apply_eq_singleton_iff]
    rintro (hindex | hblock | ⟨number, hblock, hnumber⟩)
    · exact absurd hindex (by decide)
    · cases hblock
    · cases hblock
      exact absurd (hnumber _ rfl) (by decide)
  · rw [StateMachine.apply_eq_singleton_iff]
    rintro (hindex | hblock | ⟨number, hblock, -⟩)
    · exact absurd hindex (by decide)
    · cases hblock
    · cases hblock
  · have hrun : ((Trail.states (step toyMisnumbered) (Toy.node 0 [1])
        [.submitProposal false [1, 7] 1 (Toy.checksum [1, 7]), .proposalSubmitted 0, .executed 0 false]).elim false fun r =>
          decide (r.2.executions = []) && decide (r.2.applied = []) &&
            decide (¬(Toy.proposal 7).index ≤ r.2.cfg.committedIndex) &&
            r.2.executingProposals.contains (Toy.proposal 7).hash &&
            decide (step toyMisnumbered r.2 .timeout = some r.2)) = true := by decide +kernel
    obtain ⟨⟨trace, s⟩, hs, hcheck⟩ := Toy.exists_of_elim hrun
    simp only [Bool.and_eq_true, decide_eq_true_eq] at hcheck
    obtain ⟨⟨⟨⟨hexecutions, happlied⟩, hindex⟩, hmarked⟩, htimeout⟩ := hcheck
    refine ⟨trace, s, hs, hexecutions, happlied, ?_, htimeout⟩
    rintro (hle | hmark)
    · exact hindex hle
    · rw [hmarked] at hmark
      cases hmark

end BcosPbft
