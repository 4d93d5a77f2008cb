import Mathlib.Data.Int.Interval
import BcosPbft.Proofs.Authenticity
import BcosPbft.Proofs.Execution
import BcosPbft.Proofs.Lock
import BcosPbft.Proofs.Parents
import BcosPbft.Proofs.Restart

/-! The window of the cached indices. Pre-prepares and votes are checked against the water marks, and what a node records for
a checkpoint is not. -/

namespace BcosPbft

open Labelled

/-- Every cache is for an index above the committed block and below the high water mark. -/
structure Node.Bounded (s : Node) : Prop where
  window : ∀ i ∈ s.caches.keys, s.cfg.committedIndex < i ∧ i < s.cfg.highWaterMark
  count : s.caches.keys.length ≤ s.cfg.warterMarkLimit.toNat

def Node.TakesCheckPoint (E : Env) (s : Node) (m : PBFTMessage) : Prop :=
  s.cfg.committedIndex < m.index ∧ s.isSyncingHigher = false ∧ s.checkSignature E (.pbft m) = true ∧
    s.checkProposalSignature E m.generatedFrom m.consensusProposal = true

instance (E : Env) (s : Node) (m : PBFTMessage) : Decidable (s.TakesCheckPoint E m) :=
  inferInstanceAs (Decidable (_ ∧ _))

def Node.nextMessage (s : Node) : Option PBFTMessage :=
  match s.msgQueue with
  | .pbft m :: _ => some m
  | _ => none

/-- The checkpoint message that the step counts is below the high water mark, and the result that it records is for an
index in the window. -/
def Event.FilesInWindow (E : Env) (s : Node) : Event → Prop
  | .worker => s.workerStage = .admitted → ∀ m ∈ s.nextMessage, m.packetType = .CheckPoint → s.TakesCheckPoint E m →
      m.index < s.cfg.highWaterMark
  | .proposalApplied => ∀ r ∈ s.applied.head?, r.success = true → r.announced.isSome = true →
      s.cfg.committedIndex < r.executedProposal.index ∧ r.executedProposal.index < s.cfg.highWaterMark
  | _ => True

instance (E : Env) (s : Node) : (e : Event) → Decidable (e.FilesInWindow E s)
  | .worker => inferInstanceAs (Decidable (_ → ∀ m ∈ s.nextMessage, _))
  | .proposalApplied => inferInstanceAs (Decidable (∀ r ∈ s.applied.head?, _))
  | .receive .. | .gate | .timeout | .checkPointTimeout .. | .submitProposal .. | .proposalSubmitted _
  | .proposalVerified .. | .proposalLoaded .. | .lowMark _ | .executed .. | .finalized _ | .notifyNewBlock _ | .newBlock _
  | .precommitResponse .. | .committedResponse .. | .sealerReset .. | .sealerAnswers _ | .resetTxsFinished _
  | .syncingNumber _ | .connected _ | .clock _ => inferInstanceAs (Decidable True)

section

variable {E : Env} {l : Label} {s t : Node}

theorem Prim.caches_same (h : Prim E l s t) (hl : l.caching = false) : t.caches = s.caches := by
  cases h with
  | quiet h => exact congrArg Core.caches h.core
  | @apply _ p lastApplied rest hq hindex hlast hx =>
    exact congrArg Core.caches ((s.takeProposal p rest).applyStateMachine_core lastApplied p)
  | executed _ j error => exact s.onExecuted_caches E j error
  | viewChange _ hown hsig => exact s.addViewChangeReq_caches _
  | newView h =>
    obtain ⟨w, list, -, -, -, -, rfl⟩ := s.checkAndTryIntoNewView_some h
    rfl
  | _ => first | rfl | cases hl

theorem Steps.caches_same {A : Label → Prop} (h : Steps E A s t) (hA : ∀ l, A l → l.caching = false) : t.caches = s.caches :=
  h.preserves (I := fun u => u.caches = s.caches) (fun l _ _ hl hp hu => (hp.caches_same (hA l hl)).trans hu) rfl

/-- A cache is there already, or for a message in the window, or for a checkpoint. -/
theorem Prim.key (h : Prim E l s t) {i : Int} (hi : i ∈ t.caches.dom) :
    i ∈ s.caches.dom ∨ (∃ m : PBFTMessage, m.index = i ∧ s.checkPBFTMsgState m = true) ∨
      (∃ own m, l = .checkPoint own m ∧ m.index = i) ∨
      ∃ p, l = .setCheckPoint p ∧ p.index = i := by
  have hsame : ∀ {u : Node}, u.caches = s.caches → i ∈ u.caches.dom → i ∈ s.caches.dom := fun heq hu => by rwa [← heq]
  have hinsert : ∀ {u : Node} {j : Int} {c : PBFTCache}, u.caches = s.caches.insert j c → i ∈ u.caches.dom →
      j = i ∨ i ∈ s.caches.dom := by
    intro u j c heq hu
    rw [heq, OrdMap.dom_insert, Finset.mem_insert] at hu
    exact hu.imp_left Eq.symm
  have hkept : ∀ {u : Node} {j : Int} {c d : PBFTCache}, s.caches.find? j = some d → u.caches = s.caches.insert j c →
      i ∈ u.caches.dom → i ∈ s.caches.dom := by
    intro u j c d hd heq hu
    rcases hinsert heq hu with rfl | hold
    · exact OrdMap.mem_dom.2 ⟨d, hd⟩
    · exact hold
  by_cases hcaching : l.caching = true
  · cases h with
    | @store _ m h =>
      exact (hinsert rfl hi).elim (fun heq => Or.inr (Or.inl ⟨m, heq, (Locks.checkPrePrepareMsg_spec h).1⟩)) Or.inl
    | @vote _ m h =>
      obtain ⟨d, hd, -⟩ := h
      exact Or.inl (hkept hd rfl hi)
    | @prepare _ m h hp => exact (hinsert rfl hi).elim (fun heq => Or.inr (Or.inl ⟨m, heq, (checkPBFTMsg_spec h).1⟩)) Or.inl
    | @commit _ m h => exact (hinsert rfl hi).elim (fun heq => Or.inr (Or.inl ⟨m, heq, (checkPBFTMsg_spec h).1⟩)) Or.inl
    | @checkPoint _ own m h => exact (hinsert rfl hi).elim (fun heq => Or.inr (Or.inr (Or.inl ⟨own, m, rfl, heq⟩))) Or.inl
    | setCheckPoint _ p => exact (hinsert rfl hi).elim (fun heq => Or.inr (Or.inr (Or.inr ⟨p, rfl, heq⟩))) Or.inl
    | preCommit _ j =>
      unfold Node.preCommitAt at hi
      split at hi
      · exact Or.inl hi
      · rename_i d hd
        exact Or.inl (hkept hd (Node.reported_caches _ _ _) hi)
    | submit _ j =>
      unfold Node.commitAt at hi
      split at hi
      · exact Or.inl hi
      · rename_i d hd
        exact Or.inl (hkept hd (Node.reported_caches _ _ _) hi)
    | reset _ v j =>
      unfold Node.resetCacheAt at hi
      split at hi
      · exact Or.inl hi
      · rename_i d hd
        exact Or.inl (hkept hd rfl hi)
    | stable _ acc j =>
      unfold Node.checkStableAt at hi
      split at hi
      · exact Or.inl hi
      · rename_i d hd
        exact Or.inl (hkept hd rfl hi)
    | reencode _ j =>
      unfold Node.encodePrePrepare at hi
      split at hi
      · exact Or.inl hi
      · rename_i d hd
        exact Or.inl (hkept hd rfl hi)
    | erase _ keep hgone hg hn =>
      obtain ⟨c, hc⟩ := OrdMap.mem_dom.1 hi
      change (s.caches.filter keep).find? i = some c at hc
      rw [OrdMap.find?_filter] at hc
      exact Or.inl (OrdMap.mem_dom.2 ⟨c, (Option.filter_eq_some_iff.1 hc).1⟩)
    | _ => cases hcaching
  · exact Or.inl (hsame (h.caches_same (by simpa using hcaching)) hi)

structure Inside (s : Node) : Prop where
  watermarks : s.cfg.Watermarks
  window : ∀ i ∈ s.caches.dom, s.cfg.committedIndex < i ∧ i < s.cfg.highWaterMark

theorem CfgStep.limit_eq {c c' : Config} (h : CfgStep E l c c') : c'.warterMarkLimit = c.warterMarkLimit := by
  cases h with
  | same _ h => exact h.limit
  | view _ hv =>
    unfold Config.resetNewViewState
    split <;> rfl
  | nodes h =>
    obtain ⟨_, _, _, _, _, _, _, rfl⟩ := Config.setConsensusNodeList_frame h
    rfl
  | _ => rfl

theorem Config.Watermarks.high_le {c c' : Config} (hc : c.Watermarks) (hc' : c'.Watermarks)
    (hlimit : c'.warterMarkLimit = c.warterMarkLimit)
    (hle : c.committedIndex ≤ c'.committedIndex) : c.highWaterMark ≤ c'.highWaterMark := by
  have hprogressed := hc.progressed
  have hprogressed' := hc'.progressed
  unfold highWaterMark
  omega

theorem Steps.highWaterMark_le {A : Label → Prop} (h : Steps E A s t) (hA : ∀ b, A (.ledger b) → 0 ≤ b.blockNumber)
    (hs : s.cfg.Watermarks) : s.cfg.highWaterMark ≤ t.cfg.highWaterMark := by
  obtain ⟨ht, hle⟩ := h.watermarks hA hs
  refine hs.high_le ht ?_ hle
  exact h.preserves (I := fun u => u.cfg.warterMarkLimit = s.cfg.warterMarkLimit)
    (fun _ _ _ _ hp hu => hp.cfgStep.limit_eq.trans hu) rfl

theorem Steps.highWaterMark_eq {A : Label → Prop} (h : Steps E A s t) (hA : ∀ b, ¬A (.ledger b)) (hs : s.cfg.Watermarks) :
    t.cfg.highWaterMark = s.cfg.highWaterMark := by
  obtain ⟨ht, -⟩ := h.watermarks (fun b hb => absurd hb (hA b)) hs
  have hlimit := h.preserves (I := fun u => u.cfg.warterMarkLimit = s.cfg.warterMarkLimit)
    (fun _ _ _ _ hp hu => hp.cfgStep.limit_eq.trans hu) rfl
  unfold Config.highWaterMark
  rw [ht.progressed, hs.progressed, hlimit, Config.committedIndex, Config.committedIndex, Steps.committed h hA]

theorem Inside.prim (h : Prim E l s t) (hledger : ∀ b, l ≠ .ledger b)
    (hcheck : ∀ own m, l = .checkPoint own m → s.cfg.committedIndex < m.index ∧ m.index < s.cfg.highWaterMark)
    (hset : ∀ p, l = .setCheckPoint p → s.cfg.committedIndex < p.index ∧ p.index < s.cfg.highWaterMark) (hs : Inside s) :
    Inside t := by
  have hmarks := (h.cfgStep.watermarks (fun b hb => absurd hb (hledger b)) hs.watermarks).1
  have hcommitted : t.cfg.committedIndex = s.cfg.committedIndex := by
    unfold Config.committedIndex
    rw [h.cfgStep.committedProposal_eq hledger]
  have hhigh : t.cfg.highWaterMark = s.cfg.highWaterMark := by
    unfold Config.highWaterMark
    rw [hmarks.progressed, hs.watermarks.progressed, hcommitted, h.cfgStep.limit_eq]
  refine ⟨hmarks, fun i hi => ?_⟩
  rw [hcommitted, hhigh]
  rcases h.key hi with hold | ⟨m, rfl, hm⟩ | ⟨own, m, rfl, rfl⟩ | ⟨p, rfl, rfl⟩
  · exact hs.window i hold
  · obtain ⟨hle, hlt⟩ := checkPBFTMsgState_window hm
    have hprogressed := hs.watermarks.progressed
    have hexpected := hs.watermarks.expected
    exact ⟨by omega, hlt⟩
  · exact hcheck own m rfl
  · exact hset p rfl

def Label.inside : Label → Bool
  | .ledger _ | .checkPoint _ _ | .setCheckPoint _ => false
  | _ => true

theorem Label.inside_wide : Wide fun l => l.inside = true := by
  intro l hl
  cases l <;> first | rfl | cases hl

theorem Inside.steps {A : Label → Prop} (h : Steps E A s t) (hA : ∀ l, A l → l.inside = true) (hs : Inside s) : Inside t := by
  refine h.preserves (fun l u v hl hp hu => ?_) hs
  have hinside := hA l hl
  refine hu.prim hp (fun b hb => ?_) (fun own m hm => ?_) (fun p hp => ?_)
  · rw [hb] at hinside
    cases hinside
  · rw [hm] at hinside
    cases hinside
  · rw [hp] at hinside
    cases hinside

theorem Steps.dom_subset {A : Label → Prop} (h : Steps E A s t) (hA : ¬A .erase) {i : Int} (hi : i ∈ s.caches.dom) :
    i ∈ t.caches.dom := by
  refine h.preserves (I := fun u => i ∈ u.caches.dom) (fun l u v hl hp hu => ?_) hi
  obtain ⟨c, hc⟩ := OrdMap.mem_dom.1 hu
  exact OrdMap.mem_dom.2 (hp.stays (fun herase => hA (herase ▸ hl)) hc)

theorem dom_addCheckPointMsg (s : Node) (m : PBFTMessage) : m.index ∈ (s.addCheckPointMsg m).caches.dom := by
  change m.index ∈ (s.caches.insert m.index _).dom
  rw [OrdMap.dom_insert]
  exact Finset.mem_insert_self _ _

theorem dom_setCheckPointProposal (s : Node) (p : PBFTProposal) : p.index ∈ (s.setCheckPointProposal p).caches.dom := by
  change p.index ∈ (s.caches.insert p.index _).dom
  rw [OrdMap.dom_insert]
  exact Finset.mem_insert_self _ _

theorem Inside.finalizeConsensus {b : LedgerConfig} {synced : Bool} (hb : 0 ≤ b.blockNumber)
    (h : s.finalizeConsensus E b synced = some t)
    (hs : Inside s) : Inside t := by
  obtain ⟨u, hu, htail⟩ := s.finalizeConsensus_tail_steps Label.inside_wide rfl rfl rfl rfl h
  refine Inside.steps htail (fun _ hl => hl) ?_
  have hopen : Open fun l : Label => l.caching = false ∧ ∀ b', l ≠ .ledger b' := by
    intro l hl
    cases l <;> first | exact ⟨rfl, fun _ => Label.noConfusion⟩ | cases hl
  have hqueue := u.tryToApplyCommitQueue_steps (E := E) hopen
  have hremove := Node.removeConsensusedCache_steps (E := E) u.tryToApplyCommitQueue.1 (A := fun l => ∀ b', l ≠ .ledger b')
    (fun _ => Label.noConfusion) (fun _ => Label.noConfusion) (fun _ => Label.noConfusion) u.tryToApplyCommitQueue.1.cfg.view
    b.blockNumber
  have hrest := (hqueue.mono fun _ hl => hl.2).trans hremove
  have hkeys : ∀ i ∈ (u.tryToApplyCommitQueue.1.removeConsensusedCache u.tryToApplyCommitQueue.1.cfg.view
      b.blockNumber).caches.dom, b.blockNumber < i ∧ i ∈ u.caches.dom := by
    intro i hi
    obtain ⟨c, hc⟩ := OrdMap.mem_dom.1 hi
    change (u.tryToApplyCommitQueue.1.caches.filter _).find? i = some c at hc
    rw [OrdMap.find?_filter, Steps.caches_same hqueue fun _ hl => hl.1] at hc
    obtain ⟨hold, hkept⟩ := Option.filter_eq_some_iff.1 hc
    simp only [Bool.not_eq_true', Bool.or_eq_false_iff, decide_eq_false_iff_not, not_le] at hkept
    exact ⟨hkept.1, OrdMap.mem_dom.2 ⟨c, hold⟩⟩
  generalize u.tryToApplyCommitQueue.1.removeConsensusedCache u.tryToApplyCommitQueue.1.cfg.view b.blockNumber =
    w at hrest hkeys ⊢
  have hcommitted : w.cfg.committedIndex = u.cfg.committedIndex := by
    unfold Config.committedIndex
    rw [Steps.committed hrest fun b' hb' => hb' b' rfl]
  have hnonneg : ∀ b', (∀ b'', (Label.ledger b') ≠ .ledger b'') → 0 ≤ b'.blockNumber := fun b' hb' => absurd rfl (hb' b')
  rcases s.resetConfig_cases (A := fun l => l.caching = false ∧ ∀ b', l ≠ .ledger b') ⟨rfl, fun _ => Label.noConfusion⟩
    ⟨rfl, fun _ => Label.noConfusion⟩ ⟨rfl, fun _ => Label.noConfusion⟩ hu with ⟨-, rfl⟩ | ⟨hnew, hreset⟩
  · refine ⟨(Steps.watermarks hrest hnonneg hs.watermarks).1, fun i hi => ?_⟩
    obtain ⟨hlow, hhigh⟩ := hs.window i (hkeys i hi).2
    exact ⟨hcommitted ▸ hlow, hhigh.trans_le (Steps.highWaterMark_le hrest hnonneg hs.watermarks)⟩
  · have hledger : Prim E (.ledger b) s (s.setCfg (s.cfg.setCommittedProposal b.proposal)) := .ledger s hnew
    have hsteps : Steps E (fun l => ∀ b', l = .ledger b' → b' = b) s w := by
      refine .trans (.single (fun b' hb' => (Label.ledger.inj hb').symm) hledger) (.trans (hreset.mono ?_) (hrest.mono ?_))
      · exact fun l hl b' hb' => absurd hb' (hl.2 b')
      · exact fun l hl b' hb' => absurd hb' (hl b')
    have hb' : ∀ b', (∀ b'', Label.ledger b' = .ledger b'' → b'' =
      b) → 0 ≤ b'.blockNumber := fun b' h => by rw [h b' rfl]; exact hb
    refine ⟨(hsteps.watermarks hb' hs.watermarks).1, fun i hi => ?_⟩
    obtain ⟨hnumber, hold⟩ := hkeys i hi
    rw [Steps.caches_same hreset fun _ hl => hl.1] at hold
    refine ⟨?_, (hs.window i hold).2.trans_le (hsteps.highWaterMark_le hb' hs.watermarks)⟩
    rw [hcommitted, Config.committedIndex, Steps.committed hreset fun b' hb' => hb'.2 b' rfl]
    exact hnumber

/-- The checkpoint message of an announced result is for the index of the result. -/
def Announced (s : Node) : Prop :=
  ∀ r ∈ s.applied, ∀ m, r.announced = some m → m.index = r.executedProposal.index

theorem Announced.prim (h : Prim E l s t) (hs : Announced s) : Announced t := by
  by_cases hpipe : l.pipeline = true
  · cases h with
    | @apply _ p lastApplied rest hq hindex hlast hmark =>
      have happ : ((s.takeProposal p rest).applyStateMachine lastApplied p).applied = s.applied :=
        congrArg Core.applied ((s.takeProposal p rest).applyStateMachine_core lastApplied p)
      intro r hr
      exact hs r (happ ▸ hr)
    | executed _ i error =>
      intro r hr m hm
      rcases s.onExecuted_results i error r hr with hr | ⟨e, -, happly⟩
      · exact hs r hr m hm
      · rw [(applyProposal_cases happly).1.2.2] at hm
        cases hm
    | @announce _ r₀ rest happ hsucc ha =>
      intro r hr m hm
      rcases List.mem_cons.1 hr with rfl | hr
      · obtain rfl := Option.some.inj hm
        rfl
      · exact hs r (by rw [happ]; exact List.mem_cons_of_mem _ hr) m hm
    | @settle _ r₀ rest happ => exact fun r hr => hs r (by rw [happ]; exact List.mem_cons_of_mem _ hr)
    | push _ h hp => exact hs
    | queue _ hq => exact hs
    | unmark => exact hs
    | expire => exact hs
    | _ => cases hpipe
  · obtain ⟨-, -, -, ha⟩ := h.pipeline_same (by simpa using hpipe)
    exact fun r hr => hs r (ha ▸ hr)

theorem Announced.step {e : Event} (h : BcosPbft.step E s e = some t) (hs : Announced s) : Announced t :=
  (step_steps h).preserves (fun _ _ _ _ hp hu => hu.prim hp) hs

/-- The index of what is filed, after steps that file nothing else and erase nothing. -/
theorem Inside.filed_iff {A : Label → Prop} {i : Int} (h : Steps E A s t) (hA : ∀ l, A l → l.inside = true ∧ l ≠ .erase)
    (hi : i ∈ s.caches.dom) (hmarks : s.cfg.Watermarks)
    (hs : ∀ j ∈ s.caches.dom, j = i ∨ s.cfg.committedIndex < j ∧ j < s.cfg.highWaterMark) :
    Inside t ↔ s.cfg.committedIndex < i ∧ i < s.cfg.highWaterMark := by
  have hledger : ∀ b, ¬A (.ledger b) := fun b hb => Bool.noConfusion (hA _ hb).1
  have hcommitted : t.cfg.committedIndex = s.cfg.committedIndex := by
    unfold Config.committedIndex
    rw [Steps.committed h hledger]
  have hhigh := h.highWaterMark_eq hledger hmarks
  constructor
  · intro ht
    rw [← hcommitted, ← hhigh]
    exact ht.window i (h.dom_subset (fun herase => (hA _ herase).2 rfl) hi)
  · intro hwindow
    refine Inside.steps h (fun l hl => (hA l hl).1) ⟨hmarks, fun j hj => ?_⟩
    rcases hs j hj with rfl | hj
    · exact hwindow
    · exact hj

theorem Label.filing_open : Open fun l : Label => l.inside = true ∧ l ≠ .erase := by
  intro l hl
  cases l <;> first | exact ⟨rfl, Label.noConfusion⟩ | cases hl

theorem handleCheckPointMsg_tail_steps {A : Label → Prop} (hA : Open A) (hst : A .stable) (hpop : A .popStable)
    (hpush : ∀ p, A (.pushStable p)) {m : PBFTMessage} (h : s.TakesCheckPoint E m) :
    Steps E A (s.addCheckPointMsg m) (s.handleCheckPointMsg E m).1 := by
  obtain ⟨hindex, hsync, hsig, hprop⟩ := h
  unfold Node.handleCheckPointMsg
  simp only [if_neg (not_le.2 hindex), hsync, hsig, hprop, Bool.not_true, Bool.false_eq_true, if_false]
  refine (((Node.tryToApplyCommitQueue_steps _ hA).trans
    (Node.checkAndCommitStableCheckPoint_steps _ hA hst hpop hpush)).trans
      ((Node.shouldRequestCheckPoint_quiet _ m).steps hA)).trans ?_
  split_ifs
  · exact Quiet.steps hA (.same rfl rfl)
  · exact .refl _

theorem handleCheckPointMsg_untaken {m : PBFTMessage} (h : ¬s.TakesCheckPoint E m) : (s.handleCheckPointMsg E m).1 = s := by
  unfold Node.handleCheckPointMsg
  split_ifs with hindex hsync hsig hprop
  · rfl
  · rfl
  · rfl
  · rfl
  · exact absurd ⟨not_le.1 hindex, by simpa using hsync, by simpa using hsig, by simpa using hprop⟩ h

/-- A checkpoint message stays in the window exactly when it is below the high water mark or not counted. -/
theorem Inside.handleCheckPointMsg_iff (hs : Inside s) (m : PBFTMessage) :
    Inside (s.handleCheckPointMsg E m).1 ↔ (s.TakesCheckPoint E m → m.index < s.cfg.highWaterMark) := by
  by_cases htakes : s.TakesCheckPoint E m
  · have htail := handleCheckPointMsg_tail_steps Label.filing_open ⟨rfl, Label.noConfusion⟩ ⟨rfl, Label.noConfusion⟩
      (fun _ => ⟨rfl, Label.noConfusion⟩) htakes
    have hfiled := filed_iff htail (fun _ hl => hl) (dom_addCheckPointMsg s m) hs.watermarks fun j hj => by
      change j ∈ (s.caches.insert m.index _).dom at hj
      rw [OrdMap.dom_insert, Finset.mem_insert] at hj
      exact hj.imp_right (hs.window j)
    rw [hfiled]
    exact ⟨fun h _ => h.2, fun h => ⟨htakes.1, h htakes⟩⟩
  · rw [handleCheckPointMsg_untaken htakes]
    exact iff_of_true hs fun h => absurd h htakes

theorem Inside.recordCheckPoint_iff (E : Env) (hs : Inside s) {r : Applied} {m : PBFTMessage}
    (hm : m.index = r.executedProposal.index) :
    Inside (s.recordCheckPoint r m) ↔
      s.cfg.committedIndex < r.executedProposal.index ∧ r.executedProposal.index < s.cfg.highWaterMark := by
  obtain ⟨u, hsteps, heq⟩ := Node.recordCheckPoint_tail_steps (E := E) s Label.filing_open ⟨rfl, Label.noConfusion⟩
    ⟨rfl, Label.noConfusion⟩ ⟨rfl, Label.noConfusion⟩ (fun _ => ⟨rfl, Label.noConfusion⟩) r m
  have htail := hsteps.trans (.single ⟨rfl, Label.noConfusion⟩ (.unmark u r.proposal.hash))
  rw [heq]
  have hfiled := filed_iff htail (fun _ hl => hl) (dom_setCheckPointProposal _ _) hs.watermarks
  refine hfiled fun j hj => ?_
  change j ∈ ((s.caches.insert m.index _).insert r.executedProposal.index _).dom at hj
  rw [OrdMap.dom_insert, OrdMap.dom_insert, Finset.mem_insert, Finset.mem_insert, hm] at hj
  rcases hj with hj | hj | hj
  · exact Or.inl hj
  · exact Or.inl hj
  · exact Or.inr (hs.window j hj)

theorem Inside.onProposalApplied_iff (hs : Inside s) (hann : Announced s) :
    Inside (s.onProposalApplied E) ↔ Event.proposalApplied.FilesInWindow E s := by
  cases happ : s.applied with
  | nil =>
    have hsame : s.onProposalApplied E = s := by
      unfold Node.onProposalApplied
      rw [happ]
    rw [hsame]
    exact iff_of_true hs fun r hr => by rw [happ] at hr; cases hr
  | cons r rest =>
    have hfiles : Event.proposalApplied.FilesInWindow E s ↔ (r.success = true → r.announced.isSome = true →
        s.cfg.committedIndex < r.executedProposal.index ∧ r.executedProposal.index < s.cfg.highWaterMark) := by
      simp [Event.FilesInWindow, happ]
    have hrest : Inside { s with applied := rest } := ⟨hs.watermarks, hs.window⟩
    have hopen : Open fun l : Label => l.inside = true := Label.inside_wide.isOpen
    rw [hfiles]
    cases hsucc : r.success with
    | false =>
      have heq : s.onProposalApplied E = { s with applied := rest }.onProposalApplyFailed r.proposal := by
        simp [Node.onProposalApplied, happ, hsucc]
      rw [heq]
      exact iff_of_true (hrest.steps (Node.onProposalApplyFailed_steps (E := E) _ hopen rfl rfl rfl) fun _ hl => hl)
        fun h => by cases h
    | true =>
      cases hsome : r.announced with
      | none =>
        have hprim := Prim.announce (E := E) s happ hsucc hsome
        have heq : s.onProposalApplied E = { s with applied := { r with announced := some (encodedMsg E s.cfg.keyPair
            (s.checkPointVote E r.executedProposal)) } :: rest }.announceCheckPoint E r := by
          simp [Node.onProposalApplied, happ, hsucc, hsome]
        rw [heq]
        exact iff_of_true (hs.steps (.single (A := fun l => l.inside = true) rfl hprim) fun _ hl => hl) fun _ h => by cases h
      | some m =>
        have heq : s.onProposalApplied E = { s with applied := rest }.recordCheckPoint r m := by
          simp [Node.onProposalApplied, happ, hsucc, hsome]
        rw [heq, hrest.recordCheckPoint_iff E (hann r (by rw [happ]; exact List.mem_cons_self) m hsome)]
        simp

theorem Inside.other {e : Event} (h : step E s e = some t) (hledger : ∀ b, e ≠ .finalized b ∧ e ≠ .newBlock b)
    (he : e ≠ .proposalApplied) (hcheck : ∀ m, e.handles s (.pbft m) → m.packetType ≠ .CheckPoint)
    (hs : Inside s) : Inside t := by
  refine hs.steps (step_steps h) fun l hl => ?_
  cases l with
  | ledger b => exact absurd hl (not_or.2 (hledger b))
  | checkPoint own m =>
    cases own with
    | true =>
      obtain ⟨r, hr, -⟩ := hl
      exact absurd hr.1 he
    | false => exact absurd hl.2 (hcheck m hl.1)
  | setCheckPoint p =>
    obtain ⟨r, hr, -⟩ := hl
    exact absurd hr.1 he
  | _ => rfl

theorem Inside.worker_iff (hs : Inside s) (h : step E s .worker = some t) : Inside t ↔ Event.worker.FilesInWindow E s := by
  by_cases hfile : ∃ m rest, s.workerStage = .admitted ∧ s.msgQueue = .pbft m :: rest ∧ m.packetType = .CheckPoint
  · obtain ⟨m, rest, hstage, hq, htype⟩ := hfile
    have hfiles : Event.worker.FilesInWindow E s ↔ (s.TakesCheckPoint E m → m.index < s.cfg.highWaterMark) := by
      simp [Event.FilesInWindow, Node.nextMessage, hstage, hq, htype]
    have hrest : Inside { s with msgQueue := rest, workerStage := .start } := ⟨hs.watermarks, hs.window⟩
    have hhandled : s.handleAdmitted E = some ({ s with msgQueue := rest, workerStage := .start }.handleCheckPointMsg E m).1 := by
      simp only [Node.handleAdmitted, hstage, hq, Node.handleMsg, htype]
    obtain rfl := Option.some.inj (hhandled.symm.trans h)
    rw [hfiles]
    exact hrest.handleCheckPointMsg_iff m
  · refine iff_of_true ?_ ?_
    · refine hs.other h (fun b => ⟨Event.noConfusion, Event.noConfusion⟩) Event.noConfusion fun m hm htype => ?_
      obtain ⟨-, hstage, rest, hq⟩ := hm
      exact hfile ⟨m, rest, hstage, hq, htype⟩
    · intro hstage m hm htype
      unfold Node.nextMessage at hm
      split at hm
      · rename_i m' rest hq
        obtain rfl := Option.some.inj hm
        exact absurd ⟨m', rest, hstage, hq, htype⟩ hfile
      · cases hm

/-- From a state in the window the next step stays there exactly when it files in the window. -/
theorem Inside.step_iff {e : Event} (hs : Inside s) (hann : Announced s) (hn : e.Numbered) (h : step E s e = some t) :
    Inside t ↔ e.FilesInWindow E s := by
  cases e with
  | worker => exact hs.worker_iff h
  | proposalApplied =>
    obtain rfl := Option.some.inj h
    exact hs.onProposalApplied_iff hann
  | finalized l => exact iff_of_true (hs.finalizeConsensus hn h) trivial
  | newBlock l =>
    refine iff_of_true ?_ trivial
    rcases s.finalizeNewBlock_cases h with rfl | ⟨-, h⟩
    · exact hs
    · have hready : Inside { s with newBlocks := s.newBlocks.erase l } := ⟨hs.watermarks, hs.window⟩
      exact hready.finalizeConsensus hn h
  | _ =>
    refine iff_of_true (hs.other h (fun b => ⟨Event.noConfusion, Event.noConfusion⟩) Event.noConfusion fun m hm => ?_) trivial
    exact Event.noConfusion hm.1

end

theorem Inside.bounded {s : Node} (hs : Inside s) : s.Bounded := by
  have hwindow : ∀ i ∈ s.caches.keys, s.cfg.committedIndex < i ∧ i < s.cfg.highWaterMark := fun i hi =>
    hs.window i (OrdMap.mem_dom.2 (OrdMap.mem_keys.1 hi))
  refine ⟨hwindow, ?_⟩
  have hsub : s.caches.keys.toFinset ⊆ Finset.Ioo s.cfg.committedIndex s.cfg.highWaterMark := fun i hi =>
    Finset.mem_Ioo.2 (hwindow i (List.mem_toFinset.1 hi))
  have hcard := Finset.card_le_card hsub
  have hprogressed := hs.watermarks.progressed
  rw [List.toFinset_card_of_nodup (OrdMap.keys_nodup _), Int.card_Ioo] at hcard
  unfold Config.highWaterMark at hcard
  omega

theorem Node.Bounded.inside {s : Node} (hmarks : s.cfg.Watermarks) (hs : s.Bounded) : Inside s :=
  ⟨hmarks, fun i hi => hs.window i (OrdMap.mem_keys.2 (OrdMap.mem_dom.1 hi))⟩

theorem Inside.path_iff {E : Env} {s₀ s : Node} {trace : List (Node × Event)} (h : Trail (step E) s₀ trace s)
    (hn : ∀ x ∈ trace, x.2.Numbered) (hs : Inside s₀) (hann : Announced s₀) : s.cfg.Watermarks ∧ Announced s ∧
    (((∀ x ∈ trace, x.1.Bounded) ∧ s.Bounded) ↔ ∀ x ∈ trace, x.2.FilesInWindow E x.1) := by
  induction h with
  | nil => exact ⟨hs.watermarks, hann, iff_of_true ⟨fun x hx => (by cases hx), hs.bounded⟩ fun x hx => (by cases hx)⟩
  | @snoc trace s t e h hstep ih =>
    have hne := hn _ (List.mem_append_right _ List.mem_cons_self)
    obtain ⟨hmarks, hann', hiff⟩ := ih fun x hx => hn x (List.mem_append_left _ hx)
    have hmarks' := (step_watermarks hne hstep hmarks).1
    refine ⟨hmarks', hann'.step hstep, ?_⟩
    simp only [List.forall_mem_append, List.forall_mem_singleton]
    rw [← hiff]
    constructor
    · rintro ⟨⟨hbefore, hlast⟩, hend⟩
      exact ⟨⟨hbefore, hlast⟩, ((hlast.inside hmarks).step_iff hann' hne hstep).1 (hend.inside hmarks')⟩
    · rintro ⟨⟨hbefore, hlast⟩, hfiles⟩
      exact ⟨⟨hbefore, hlast⟩, (((hlast.inside hmarks).step_iff hann' hne hstep).2 hfiles).bounded⟩

/-- What `init` leaves: no cache and no result. -/
theorem Restart.path_inside {E : Env} {keyPair : KeyPair} {l : LedgerConfig} {state : List PBFTProposal} {r r₀ : Restart}
    {trace : List (Restart × RestartEvent)} (hl : 0 ≤ l.blockNumber) (hstate : ∀ p ∈ state, l.blockNumber < p.index)
    (hstart : start E keyPair l state = some r₀) (h : Trail (halfStep E) r₀ trace r) : Inside r.node ∧ Announced r.node := by
  have hmarked := start_marked hl hstart
  have hopen : Open fun l : Label => l.caching = false := by
    intro l hl
    cases l <;> first | rfl | cases hl
  have hquiet : Steps E (fun l => l.caching = false) (fresh keyPair) r.node :=
    .trans (start_steps rfl rfl rfl rfl hstart) (path_steps hopen rfl rfl (fun _ => rfl) (fun _ => rfl) hstate hmarked h)
  have hcaches := hquiet.caches_same fun _ hl => hl
  have hany : Open fun _ : Label => True := fun _ _ => trivial
  have hinit : Steps E (fun _ => True) (fresh keyPair) r.node :=
    (start_steps trivial trivial trivial trivial hstart).trans
      (path_steps hany trivial trivial (fun _ => trivial) (fun _ => trivial) hstate hmarked h)
  refine ⟨⟨(path_marked hstate h hmarked).level.watermarks, fun i hi => ?_⟩, hinit.preserves (fun _ _ _ _ hp hu => hu.prim hp) ?_⟩
  · rw [hcaches] at hi
    exact absurd hi (by simp [fresh])
  · exact fun r hr => absurd hr List.not_mem_nil

/-- In every run after `init`, the caches stay in the window exactly as long as every checkpoint message that is counted is
below the high water mark and every result that is recorded is for an index in the window. -/
theorem bounded_iff {E : Env} {pb : PBObject PBFTProposal} (hpb : pb.Lawful) (hempty : pb.decode [] = some {})
    {st : LedgerStorage} (hst : LedgerStorage.Written pb st) {keyPair : KeyPair} {l : LedgerConfig} (hl : 0 ≤ l.blockNumber)
    {maxError batchError : Bool} {state : Option (List PBFTProposal)}
    (hload : ((LedgerStorage.restarted st.db).loadState pb l.blockNumber maxError batchError).2 = .loaded state)
    {r₀ r : Restart}
    (hstart : Restart.start E keyPair l (state.getD []) = some r₀) {inits : List (Restart × RestartEvent)}
    (hinit : Trail (Restart.halfStep E) r₀ inits r) (_hdone : r.Initialized) {s : Node} {trace : List (Node × Event)}
    (h : Trail (step E) r.node trace s) (hn : ∀ x ∈ trace, x.2.Numbered) :
    ((∀ x ∈ trace, x.1.Bounded) ∧ s.Bounded) ↔ ∀ x ∈ trace, x.2.FilesInWindow E x.1 := by
  have hstate := hst.lt_of_loaded hpb hempty hl hload
  obtain ⟨hinside, hann⟩ := Restart.path_inside hl hstate hstart hinit
  exact (hinside.path_iff h hn hann).2.2

def toyAhead (index : Int) : List Event :=
  let m := populateVote Toy.env (Toy.keyPair 0) .CheckPoint 0 0 0 0
    { proposal := { index := index, hash := (Toy.checksum [12, 7]).val, data := [12, 7] } }
  Toy.atOnce [.receive [0] (PBFTCodec.encode Toy.env (Toy.keyPair 0) 0 (.pbft m)).1 [], .worker]

def toyFour : LedgerConfig := { blockNumber := 0, hash := zeroHash, consensusNodeList := Toy.nodes [1, 1, 1, 1] }

theorem toyAhead_bounded : ∃ r₀ trace s, Restart.start Toy.env (Toy.keyPair 3) toyFour [] = some r₀ ∧
    Trail.states (step Toy.env) r₀.node (toyAhead 10) = some (trace, s) ∧ s.caches.keys = [10] ∧ s.Bounded := by
  have hrun : ((Restart.start Toy.env (Toy.keyPair 3) toyFour []).elim false fun r₀ =>
      (Trail.states (step Toy.env) r₀.node (toyAhead 10)).elim false fun r =>
        decide (r₀.todo = [] ∧ r₀.last = none) && decide (r.2.caches.keys = [10]) &&
          r.1.all fun x => decide (x.2.Numbered ∧ x.2.FilesInWindow Toy.env x.1)) = true := by
    decide +kernel
  obtain ⟨r₀, hstart, hrun⟩ := Toy.exists_of_elim hrun
  obtain ⟨⟨trace, s⟩, htrace, hrun⟩ := Toy.exists_of_elim hrun
  simp only [Bool.and_eq_true, decide_eq_true_eq, List.all_eq_true] at hrun
  obtain ⟨⟨hdone, hkeys⟩, hok⟩ := hrun
  have hload : ((LedgerStorage.restarted ({} : LedgerStorage).db).loadState LedgerStorage.toyPb toyFour.blockNumber false false).2 =
      .loaded none := by
    decide +kernel
  have hiff := bounded_iff (Toy.object_lawful _) rfl .fresh le_rfl hload hstart .nil hdone (.of_states htrace)
    fun x hx => (hok x hx).1
  exact ⟨r₀, trace, s, hstart, htrace, hkeys, (hiff.2 fun x hx => (hok x hx).2).2⟩

/-- Index 12 is above the high water mark. -/
theorem toyAhead_unbounded : ∃ r₀ trace s, Restart.start Toy.env (Toy.keyPair 3) toyFour [] = some r₀ ∧ r₀.Initialized ∧
    Trail (step Toy.env) r₀.node trace s ∧ (∀ x ∈ trace, x.2 ∈ toyAhead 12) ∧ s.cfg.highWaterMark = 11 ∧ s.caches.keys = [12] ∧
    ¬s.Bounded := by
  have hrun : ((Restart.start Toy.env (Toy.keyPair 3) toyFour []).elim false fun r₀ =>
      (Trail.states (step Toy.env) r₀.node (toyAhead 12)).elim false fun r =>
        decide ((r₀.todo = [] ∧ r₀.last = none) ∧ r.2.cfg.highWaterMark = 11 ∧ r.2.caches.keys = [12])) = true := by
    decide +kernel
  obtain ⟨r₀, hstart, hrun⟩ := Toy.exists_of_elim hrun
  obtain ⟨⟨trace, s⟩, htrace, hrun⟩ := Toy.exists_of_elim hrun
  obtain ⟨hdone, hhigh, hkeys⟩ := of_decide_eq_true hrun
  refine ⟨r₀, trace, s, hstart, hdone, .of_states htrace, fun x hx => Trail.mem_events htrace hx, hhigh, hkeys, fun hs => ?_⟩
  have hwindow := (hs.window 12 (by simp [hkeys])).2
  rw [show s.cfg.highWaterMark = 11 from hhigh] at hwindow
  exact absurd hwindow (by decide)

end BcosPbft
