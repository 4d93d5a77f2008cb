import BcosPbft.Lib.Trail
import BcosPbft.Proofs.Handlers
import BcosPbft.Proofs.Recovery
import BcosPbft.Spec.Restart

/-! Water marks. The committed index only grows, the next index to commit is the one after it, and the expected checkpoint
does not fall below that. The low water mark does, when a failed callback sets a mark that it has read before a block was
committed. -/

namespace BcosPbft

structure Config.Watermarks (c : Config) : Prop where
  nonneg : 0 ≤ c.committedIndex
  progressed : c.progressedIndex = c.committedIndex + 1
  expected : c.progressedIndex ≤ c.expectedCheckPoint

/-- A ledger configuration that comes with the event is one of a block, whose number is not negative. -/
def Event.Numbered : Event → Prop
  | .finalized l | .newBlock l => 0 ≤ l.blockNumber
  | _ => True

instance : DecidablePred Event.Numbered := fun e =>
  match e with
  | .finalized l | .newBlock l => inferInstanceAs (Decidable (0 ≤ l.blockNumber))
  | .receive .. | .gate | .worker | .timeout | .checkPointTimeout .. | .submitProposal .. | .proposalSubmitted _
  | .proposalVerified .. | .proposalLoaded .. | .lowMark _ | .executed .. | .proposalApplied | .notifyNewBlock _
  | .precommitResponse .. | .committedResponse .. | .sealerReset .. | .sealerAnswers _ | .resetTxsFinished ..
  | .syncingNumber .. | .connected .. | .clock .. => isTrue trivial

theorem Event.Numbered.nonneg {e : Event} (he : e.Numbered) {l : LedgerConfig} (h : e = .finalized l ∨ e = .newBlock l) :
    0 ≤ l.blockNumber := by
  rcases h with rfl | rfl <;> exact he

namespace Config

theorem Watermarks.congr {c c' : Config} (hc : c.Watermarks) (hcommitted : c'.committedProposal = c.committedProposal)
    (hprogressed : c'.progressedIndex = c.progressedIndex)
    (hexpected : c'.expectedCheckPoint = c.expectedCheckPoint) : c'.Watermarks ∧ c.committedIndex ≤ c'.committedIndex := by
  have heq : c'.committedIndex = c.committedIndex := by rw [committedIndex, hcommitted, ← committedIndex]
  refine ⟨⟨?_, ?_, ?_⟩, heq.ge⟩
  · rw [heq]
    exact hc.nonneg
  · rw [heq, hprogressed]
    exact hc.progressed
  · rw [hprogressed, hexpected]
    exact hc.expected

theorem Watermarks.setLowWaterMark {c : Config} (hc : c.Watermarks) (i : Int) : (c.setLowWaterMark i).Watermarks :=
  ⟨hc.nonneg, hc.progressed, hc.expected⟩

theorem Watermarks.setCommittedProposal {c : Config} {p : PBFTProposal} (hindex : 0 ≤ p.index)
    (hle : c.committedIndex ≤ p.index)
    (hprogressed : c.progressedIndex ≤ p.index + 1) :
    (c.setCommittedProposal p).Watermarks ∧ c.committedIndex ≤ (c.setCommittedProposal p).committedIndex := by
  have heq : (c.setCommittedProposal p).committedIndex = p.index := rfl
  have hprog : (c.setCommittedProposal p).progressedIndex = p.index + 1 := by
    change (if c.progressedIndex < p.index + 1 then p.index + 1 else c.progressedIndex) = p.index + 1
    split_ifs <;> omega
  refine ⟨⟨by rw [heq]; exact hindex, by rw [hprog, heq], ?_⟩, by rw [heq]; exact hle⟩
  rw [hprog]
  change p.index + 1 ≤ if p.index + 1 > c.expectedCheckPoint then p.index + 1 else c.expectedCheckPoint
  split_ifs <;> omega

end Config

theorem CfgStep.watermarks {E : Env} {l : Label} {c c' : Config} (h : CfgStep E l c c')
    (hl : ∀ b, l = .ledger b → 0 ≤ b.blockNumber) (hc : c.Watermarks) :
    c'.Watermarks ∧ c.committedIndex ≤ c'.committedIndex := by
  cases h with
  | same _ h => exact hc.congr h.committedProposal h.progressedIndex h.expectedCheckPoint
  | mode => exact hc.congr rfl rfl rfl
  | aim => exact hc.congr rfl rfl rfl
  | reseal => exact hc.congr rfl rfl rfl
  | view _ v =>
    unfold Config.resetNewViewState
    split <;> exact hc.congr rfl rfl rfl
  | expect _ i =>
    refine ⟨⟨hc.nonneg, hc.progressed, ?_⟩, le_rfl⟩
    exact hc.progressed.le.trans (le_max_left _ i)
  | lowMark _ i => exact ⟨hc.setLowWaterMark i, le_rfl⟩
  | @ledger _ b h =>
    have hb := hl b rfl
    have hnonneg := hc.nonneg
    have hprogressed := hc.progressed
    have hle : c.committedIndex ≤ b.proposal.index := by
      change c.committedIndex ≤ b.blockNumber
      omega
    exact Config.Watermarks.setCommittedProposal hb hle (by omega)
  | nodes h =>
    obtain ⟨_, _, _, _, _, _, _, rfl⟩ := Config.setConsensusNodeList_frame h
    exact hc.congr rfl rfl rfl

theorem Steps.watermarks {E : Env} {A : Label → Prop} {s t : Node} (h : Steps E A s t)
    (hA : ∀ b, A (.ledger b) → 0 ≤ b.blockNumber) (hs : s.cfg.Watermarks) :
    t.cfg.Watermarks ∧ s.cfg.committedIndex ≤ t.cfg.committedIndex := by
  refine h.preserves (I := fun u => u.cfg.Watermarks ∧ s.cfg.committedIndex ≤ u.cfg.committedIndex)
    (fun l u v hl hp hu => ?_) ⟨hs, le_rfl⟩
  obtain ⟨hmarks, hle⟩ := hp.cfgStep.watermarks (fun b hb => hA b (hb ▸ hl)) hu.1
  exact ⟨hmarks, hu.2.trans hle⟩

theorem step_watermarks {E : Env} {s t : Node} {e : Event} (he : e.Numbered) (h : step E s e = some t) (hs : s.cfg.Watermarks) :
    t.cfg.Watermarks ∧ s.cfg.committedIndex ≤ t.cfg.committedIndex :=
  (step_steps h).watermarks (fun _ hb => he.nonneg hb) hs

theorem path_watermarks {E : Env} {s₀ s : Node} {trace : List (Node × Event)} (h : Trail (step E) s₀ trace s)
    (hn : ∀ x ∈ trace, x.2.Numbered) (h₀ : s₀.cfg.Watermarks) :
    s.cfg.Watermarks ∧ ∀ x ∈ trace, x.1.cfg.committedIndex ≤ s.cfg.committedIndex := by
  induction h with
  | nil => exact ⟨h₀, fun x hx => by cases hx⟩
  | @snoc trace s t e h hs ih =>
    obtain ⟨hmarks, hle⟩ := ih fun x hx => hn x (List.mem_append_left _ hx)
    obtain ⟨hmarks', hstep⟩ := step_watermarks (hn _ (List.mem_append_right _ List.mem_cons_self)) hs hmarks
    refine ⟨hmarks', fun x hx => ?_⟩
    rcases List.mem_append.1 hx with hx | hx
    · exact (hle x hx).trans hstep
    · rw [List.mem_singleton.1 hx]
      exact hstep

/-- Only a mark that is set can be below the progressed index: a committed block raises both. -/
theorem CfgStep.low {E : Env} {l : Label} {c c' : Config} (h : CfgStep E l c c') (hl : l ≠ .lowMark)
    (hc : c.progressedIndex ≤ c.lowWaterMark) : c'.progressedIndex ≤ c'.lowWaterMark := by
  cases h with
  | same _ h =>
    rw [h.progressedIndex, h.lowWaterMark]
    exact hc
  | view _ v =>
    unfold Config.resetNewViewState
    split <;> exact hc
  | lowMark => exact absurd rfl hl
  | @ledger _ b h =>
    change (if c.progressedIndex < b.blockNumber + 1 then b.blockNumber + 1 else c.progressedIndex) ≤
      if b.blockNumber + 1 > c.lowWaterMark then b.blockNumber + 1 else c.lowWaterMark
    split_ifs <;> omega
  | nodes h =>
    obtain ⟨_, _, _, _, _, _, _, rfl⟩ := Config.setConsensusNodeList_frame h
    exact hc
  | _ => exact hc

theorem Steps.low {E : Env} {A : Label → Prop} {s t : Node} (h : Steps E A s t) (hA : ¬A .lowMark)
    (hs : s.cfg.progressedIndex ≤ s.cfg.lowWaterMark) : t.cfg.progressedIndex ≤ t.cfg.lowWaterMark :=
  h.preserves (I := fun u => u.cfg.progressedIndex ≤ u.cfg.lowWaterMark)
    (fun _ _ _ hl hp hu => hp.cfgStep.low (fun heq => hA (heq ▸ hl)) hu) hs

/-- The low water mark that a failed callback sets with the event. -/
def Event.marks (s : Node) : Event → Option Int
  | .lowMark i => s.lowMarks[i]?
  | _ => none

theorem step_low {E : Env} {s t : Node} {e : Event} (h : step E s e = some t)
    (hs : s.cfg.progressedIndex ≤ s.cfg.lowWaterMark) :
    t.cfg.progressedIndex ≤ t.cfg.lowWaterMark ↔ ∀ mark ∈ e.marks s, s.cfg.progressedIndex ≤ mark := by
  by_cases hlow : ∃ i, e = .lowMark i
  · obtain ⟨i, rfl⟩ := hlow
    simp only [step, answer] at h
    simp only [Event.marks]
    cases hmark : s.lowMarks[i]? with
    | none =>
      rw [hmark] at h
      obtain rfl := Option.some.inj h
      exact iff_of_true hs fun mark hmark => (by cases hmark)
    | some mark =>
      rw [hmark] at h
      obtain rfl := Option.some.inj h
      exact ⟨fun hle m hm => Option.some.inj hm ▸ hle, fun hle => hle mark rfl⟩
  · refine iff_of_true ((step_steps h).low hlow hs) fun mark hmark => ?_
    unfold Event.marks at hmark
    split at hmark
    · exact absurd ⟨_, rfl⟩ hlow
    · cases hmark

/-- The low water mark keeps up with the progressed index over a run as long as no callback sets one that does not. -/
theorem path_low {E : Env} {s₀ s : Node} {trace : List (Node × Event)} (h : Trail (step E) s₀ trace s)
    (h₀ : s₀.cfg.progressedIndex ≤ s₀.cfg.lowWaterMark) :
    ((∀ x ∈ trace, x.1.cfg.progressedIndex ≤ x.1.cfg.lowWaterMark) ∧ s.cfg.progressedIndex ≤ s.cfg.lowWaterMark) ↔
      ∀ x ∈ trace, ∀ mark ∈ x.2.marks x.1, x.1.cfg.progressedIndex ≤ mark := by
  induction h with
  | nil => exact iff_of_true ⟨fun x hx => (by cases hx), h₀⟩ fun x hx => (by cases hx)
  | @snoc trace s t e h hs ih =>
    simp only [List.forall_mem_append, List.forall_mem_singleton, ih.symm]
    exact ⟨fun ⟨hall, hlast⟩ => ⟨hall, (step_low hs hall.2).1 hlast⟩, fun ⟨hall, hmark⟩ => ⟨hall, (step_low hs hall.2).2 hmark⟩⟩

/-- The committed index is still the one that `init` has found, and no mark is below the next one. -/
structure Node.Level (i : Int) (s : Node) : Prop where
  watermarks : s.cfg.Watermarks
  committed : s.cfg.committedIndex = i
  low : s.cfg.progressedIndex ≤ s.cfg.lowWaterMark
  marks : ∀ mark ∈ s.lowMarks, i < mark

theorem Node.Level.steps {E : Env} {A : Label → Prop} {i : Int} {s t : Node} (h : Steps E A s t) (hledger : ∀ b, ¬A (.ledger b))
    (hlow : ¬A .lowMark) (hs : s.Level i) : t.Level i := by
  refine h.preserves (I := fun u => u.Level i) (fun l u v hl hp hu => ?_) hs
  have hnot : ∀ b, l ≠ .ledger b := fun b hb => hledger b (hb ▸ hl)
  refine ⟨(hp.cfgStep.watermarks (fun b hb => absurd hb (hnot b)) hu.watermarks).1, ?_,
    hp.cfgStep.low (fun heq => hlow (heq ▸ hl)) hu.low, fun mark hmark => ?_⟩
  · rw [Config.committedIndex, hp.cfgStep.committedProposal_eq hnot]
    exact hu.committed
  · have hprogressed := hu.watermarks.progressed
    have hcommitted := hu.committed
    rcases hp.lowMarks hmark with hold | ⟨-, hnew⟩
    · exact hu.marks mark hold
    · omega

namespace Restart

variable {E : Env} {keyPair : KeyPair} {l : LedgerConfig} {state : List PBFTProposal} {r r₀ : Restart}

structure Marked (i : Int) (state : List PBFTProposal) (r : Restart) : Prop where
  level : r.node.Level i
  last : ∀ p ∈ r.last, p ∈ state

theorem start_marked (hl : 0 ≤ l.blockNumber) (h : start E keyPair l state = some r) : r.Marked l.blockNumber state := by
  obtain ⟨s, hs, rfl⟩ := Option.map_eq_some_iff.1 h
  rcases Node.resetConfig_cases (A := fun l => (∀ b, l ≠ .ledger b) ∧ l ≠ .lowMark) _
    ⟨fun _ => Label.noConfusion, Label.noConfusion⟩ ⟨fun _ => Label.noConfusion, Label.noConfusion⟩
    ⟨fun _ => Label.noConfusion, Label.noConfusion⟩ hs with ⟨⟨-, hpos⟩, -⟩ | ⟨-, hsteps⟩
  · cases hpos
  · have hmarks := Config.Watermarks.setCommittedProposal (c := { keyPair := keyPair, timeoutState := true }) (p := l.proposal)
      hl hl (by change 0 ≤ l.blockNumber + 1; omega)
    have hledger : CfgStep E (.ledger l) { keyPair := keyPair, timeoutState := true }
        ({ keyPair := keyPair, timeoutState := true : Config }.setCommittedProposal l.proposal) :=
      .ledger _ (by simp [Config.committedIndex])
    have hlow := hledger.low Label.noConfusion le_rfl
    exact ⟨Node.Level.steps hsteps (fun b hb => hb.1 b rfl) (fun hb => hb.2 rfl)
      ⟨hmarks.1, rfl, hlow, fun _ hmark => absurd hmark List.not_mem_nil⟩, fun p hp => List.mem_of_getLast? hp⟩

theorem halfStep_loads {A : Label → Prop} (hA : Open A) (hread : A .lowRead) (hload : ∀ p, A (.load p))
    (hpush : ∀ p, A (.push .loaded p)) {e : RestartEvent} {r' : Restart} (h : r.halfStep E e = some r') :
    (r'.last = r.last ∧ Steps E A r.node r'.node) ∨
      (∃ p, r.last = some p ∧ r' = { r with node := r.node.setCfg (r.node.cfg.setLowWaterMark (p.index + 1)), last := none }) ∨
      ∃ i, ∃ mark ∈ r.node.lowMarks, r' = { r with node := r.node.writeLowMark i mark } := by
  unfold halfStep at h
  cases e with
  | next =>
    dsimp only at h
    split at h
    · cases h
    · obtain rfl := Option.some.inj h
      refine Or.inl ⟨rfl, ?_⟩
      dsimp only
      unfold Node.initProposal
      split_ifs
      · exact .refl _
      · exact .trans ((Node.asyncResetTxsFlag_quiet _ _ true).steps hA) (Node.loadAndVerifyProposal_steps _ (hload _) 0)
  | setLowWaterMark =>
    dsimp only at h
    split at h
    · rename_i p htodo hlast
      obtain rfl := Option.some.inj h
      exact Or.inr (Or.inl ⟨p, hlast, rfl⟩)
    · cases h
  | callback j outcome =>
    obtain ⟨c, -, rfl⟩ := Option.map_eq_some_iff.1 h
    have hpop : Steps E A r.node { r.node with loading := r.node.loading.eraseIdx j } :=
      .single (hA .answer rfl) (.answer r.node (fun _ hc => hc) (fun c hc => (List.eraseIdx_sublist _ _).subset hc)
        (fun _ hm => hm) (fun _ hb => hb) (fun _ hk => hk))
    exact Or.inl ⟨rfl, hpop.trans (Node.onProposalLoaded_steps _ hA c.2 hread (fun _ => hload _) fun _ => hpush _)⟩
  | lowMark i =>
    obtain ⟨mark, hmark, rfl⟩ := Option.map_eq_some_iff.1 h
    exact Or.inr (Or.inr ⟨i, mark, List.mem_of_getElem? hmark, rfl⟩)

theorem halfStep_marked {i : Int} (hstate : ∀ p ∈ state, i < p.index) {e : RestartEvent} {r' : Restart}
    (h : r.halfStep E e = some r') (hr : r.Marked i state) : r'.Marked i state := by
  have hopen : Open fun l : Label => (∀ b, l ≠ .ledger b) ∧ l ≠ .lowMark := by
    intro l hl
    refine ⟨fun b hb => ?_, fun hb => ?_⟩ <;> (subst hb; cases hl)
  have hprogressed := hr.level.watermarks.progressed
  have hcommitted := hr.level.committed
  rcases halfStep_loads hopen ⟨nofun, nofun⟩ (fun _ => ⟨nofun, nofun⟩) (fun _ => ⟨nofun, nofun⟩) h with
    ⟨hlast, hsteps⟩ | ⟨p, hlast, rfl⟩ | ⟨j, mark, hmark, rfl⟩
  · exact ⟨Node.Level.steps hsteps (fun b hb => hb.1 b rfl) (fun hb => hb.2 rfl) hr.level, fun p hp => hr.last p (hlast ▸ hp)⟩
  · have hp := hstate p (hr.last p (Option.mem_def.2 hlast))
    refine ⟨⟨hr.level.watermarks.setLowWaterMark _, hr.level.committed, ?_, hr.level.marks⟩, nofun⟩
    change r.node.cfg.progressedIndex ≤ p.index + 1
    omega
  · have habove := hr.level.marks mark hmark
    refine ⟨⟨hr.level.watermarks.setLowWaterMark _, hr.level.committed, ?_, fun m hm => ?_⟩, hr.last⟩
    · change r.node.cfg.progressedIndex ≤ mark
      omega
    · exact hr.level.marks m ((List.eraseIdx_sublist _ _).subset hm)

theorem path_marked {i : Int} (hstate : ∀ p ∈ state, i < p.index) {trace : List (Restart × RestartEvent)}
    (h : Trail (halfStep E) r₀ trace r) (h₀ : r₀.Marked i state) : r.Marked i state :=
  h.preserves (fun _ _ _ (_ : True) hstep hr => halfStep_marked hstate hstep hr) (fun _ _ => trivial) h₀

end Restart

/-- The proposals of a restart are above the committed block. -/
theorem LedgerStorage.Written.lt_of_loaded {pb : PBObject PBFTProposal} (hpb : pb.Lawful) (hempty : pb.decode [] = some {})
    {st : LedgerStorage} (hst : Written pb st) {stabledIndex : Int} (hstable : 0 ≤ stabledIndex) {maxError batchError : Bool}
    {state : Option (List PBFTProposal)}
    (h : ((restarted st.db).loadState pb stabledIndex maxError batchError).2 = .loaded state) :
    ∀ p ∈ state.getD [], stabledIndex < p.index := by
  obtain ⟨last, hindex⟩ := hst.loaded hpb hempty hstable h
  intro p hp
  have hmem : p.index ∈ batchKeys (stabledIndex + 1) last := by
    rw [← hindex]
    exact List.mem_map_of_mem hp
  have hle := (mem_batchKeys.1 hmem).1
  omega

theorem checkPBFTMsgState_window {s : Node} {m : PBFTMessage} (h : s.checkPBFTMsgState m = true) :
    s.cfg.expectedCheckPoint ≤ m.index ∧ m.index < s.cfg.highWaterMark := by
  unfold Node.checkPBFTMsgState at h
  split_ifs at h with hnone hwindow hview
  simp only [Bool.or_eq_true, decide_eq_true_eq, not_or, not_lt, not_le] at hwindow
  exact ⟨hwindow.1.1.2, hwindow.1.2⟩

/-- Each of the marks is where it should be, and what passes `checkPBFTMsgState` is in the window. -/
def Node.InOrder (s : Node) : Prop :=
  s.cfg.progressedIndex = s.cfg.committedIndex + 1 ∧ s.cfg.progressedIndex ≤ s.cfg.lowWaterMark ∧
    s.cfg.progressedIndex ≤ s.cfg.expectedCheckPoint ∧ ∀ m, s.checkPBFTMsgState m = true →
      s.cfg.progressedIndex ≤ m.index ∧ m.index < s.cfg.progressedIndex + s.cfg.warterMarkLimit

theorem Config.Watermarks.inOrder_iff {s : Node} (hs : s.cfg.Watermarks) :
    s.InOrder ↔ s.cfg.progressedIndex ≤ s.cfg.lowWaterMark := by
  refine ⟨fun h => h.2.1, fun h => ⟨hs.progressed, h, hs.expected, fun m hm => ?_⟩⟩
  obtain ⟨hexpected, hhigh⟩ := checkPBFTMsgState_window hm
  exact ⟨hs.expected.trans hexpected, hhigh⟩

/-- In every run after `init`, with whatever the storage kept and however the callbacks of the loaded proposals were
interleaved, the committed index grows, and the marks are in order exactly as long as no block is committed that reaches the
mark which a failed callback has still to set. What passes `checkPBFTMsgState` is in the window all the same. -/
theorem watermarks_iff {E : Env} {pb : PBObject PBFTProposal} (hpb : pb.Lawful) (hempty : pb.decode [] = some {})
    {st : LedgerStorage} (hst : LedgerStorage.Written pb st) {keyPair : KeyPair} {l : LedgerConfig} (hl : 0 ≤ l.blockNumber)
    {maxError batchError : Bool} {state : Option (List PBFTProposal)}
    (hload : ((LedgerStorage.restarted st.db).loadState pb l.blockNumber maxError batchError).2 = .loaded state)
    {r₀ r : Restart}
    (hstart : Restart.start E keyPair l (state.getD []) = some r₀) {inits : List (Restart × RestartEvent)}
    (hinit : Trail (Restart.halfStep E) r₀ inits r) (_hdone : r.Initialized) {s : Node} {trace : List (Node × Event)}
    (h : Trail (step E) r.node trace s) (hn : ∀ x ∈ trace, x.2.Numbered) :
    (∀ x ∈ trace, x.1.cfg.committedIndex ≤ s.cfg.committedIndex) ∧
      (s.cfg.progressedIndex = s.cfg.committedIndex + 1 ∧ s.cfg.progressedIndex ≤ s.cfg.expectedCheckPoint ∧
        ∀ m, s.checkPBFTMsgState m = true →
          s.cfg.progressedIndex ≤ m.index ∧ m.index < s.cfg.progressedIndex + s.cfg.warterMarkLimit) ∧
      (((∀ x ∈ trace, x.1.InOrder) ∧ s.InOrder) ↔
        ∀ x ∈ trace, ∀ mark ∈ x.2.marks x.1, x.1.cfg.committedIndex < mark) := by
  have hstate := hst.lt_of_loaded hpb hempty hl hload
  have hmarked := Restart.path_marked hstate hinit (Restart.start_marked hl hstart)
  have hall := h.preserves_all (I := fun u => u.cfg.Watermarks) (fun _ _ _ he hs hu => (step_watermarks he hs hu).1) hn
    hmarked.level.watermarks
  refine ⟨(path_watermarks h hn hmarked.level.watermarks).2, ⟨hall.2.progressed, hall.2.expected, fun m hm => ?_⟩, ?_⟩
  · obtain ⟨hexpected, hhigh⟩ := checkPBFTMsgState_window hm
    exact ⟨hall.2.expected.trans hexpected, hhigh⟩
  · have hcommitted : (∀ x ∈ trace, ∀ mark ∈ x.2.marks x.1, x.1.cfg.committedIndex < mark) ↔
        ∀ x ∈ trace, ∀ mark ∈ x.2.marks x.1, x.1.cfg.progressedIndex ≤ mark :=
      forall₂_congr fun x hx => forall₂_congr fun mark _ => by rw [(hall.1 x hx).progressed, Int.add_one_le_iff]
    rw [hcommitted, ← path_low h hmarked.level.low, hall.2.inOrder_iff]
    exact and_congr_left' (forall₂_congr fun x hx => (hall.1 x hx).inOrder_iff)

def toyBlock (number : Int) : LedgerConfig :=
  { blockNumber := number, hash := zeroHash, consensusNodeList := Toy.nodes [7, 1, 1] }

def toyStored : List PBFTProposal := [Toy.proposal 7, { proposal := { index := 2, data := [2, 7] } }]

def toyLoads : List RestartEvent := [.next, .next, .setLowWaterMark, .callback 0 (.result true), .callback 0 .error]

/-- The failed callback has read the marks before block 1 is synced, and sets one before or after that. -/
def toyMarks (late : Bool) : List Event :=
  if late then [.notifyNewBlock (toyBlock 1), .newBlock (toyBlock 1), .lowMark 0]
  else [.lowMark 0, .notifyNewBlock (toyBlock 1), .newBlock (toyBlock 1)]

theorem toyCommitted_loads : ((LedgerStorage.restarted (LedgerStorage.toyCommitted true).db).loadState LedgerStorage.toyPb
    (toyBlock 0).blockNumber false false).2 = .loaded (some toyStored) := by
  decide +kernel

theorem toyMarks_inOrder : ∃ r₀ inits r trace s, Restart.start Toy.env (Toy.keyPair 0) (toyBlock 0) toyStored = some r₀ ∧
    Trail.states (Restart.halfStep Toy.env) r₀ toyLoads = some (inits, r) ∧
    Trail.states (step Toy.env) r.node (toyMarks false) = some (trace, s) ∧
    s.cfg.committedIndex = 1 ∧ (∀ x ∈ trace, x.1.InOrder) ∧ s.InOrder := by
  have hrun : ((Restart.start Toy.env (Toy.keyPair 0) (toyBlock 0) toyStored).elim false fun r₀ =>
      (Trail.states (Restart.halfStep Toy.env) r₀ toyLoads).elim false fun r =>
        decide (r.2.todo = [] ∧ r.2.last = none) && (Trail.states (step Toy.env) r.2.node (toyMarks false)).elim false fun s =>
          decide (s.2.cfg.committedIndex = 1) && s.1.all fun x => decide (x.2.Numbered ∧
            ∀ mark ∈ x.2.marks x.1, x.1.cfg.committedIndex < mark)) = true := by
    decide +kernel
  obtain ⟨r₀, hstart, hrun⟩ := Toy.exists_of_elim hrun
  obtain ⟨⟨inits, r⟩, hinits, hrun⟩ := Toy.exists_of_elim hrun
  rw [Bool.and_eq_true, decide_eq_true_eq] at hrun
  obtain ⟨hdone, hrun⟩ := hrun
  obtain ⟨⟨trace, s⟩, htrace, hcheck⟩ := Toy.exists_of_elim hrun
  simp only [Bool.and_eq_true, decide_eq_true_eq, List.all_eq_true] at hcheck
  have hst : LedgerStorage.Written LedgerStorage.toyPb (LedgerStorage.toyCommitted true) := .commit _ _ _ (.commit _ _ _ .fresh)
  obtain ⟨-, -, hiff⟩ := watermarks_iff (Toy.object_lawful _) rfl hst le_rfl toyCommitted_loads hstart (.of_states hinits) hdone
    (.of_states htrace) fun x hx => (hcheck.2 x hx).1
  exact ⟨r₀, inits, r, trace, s, hstart, hinits, htrace, hcheck.1, hiff.2 fun x hx => (hcheck.2 x hx).2⟩

/-- Set after block 1 was committed, the mark is below the progressed index. -/
theorem toyMarks_late : ∃ r₀ inits r trace s, Restart.start Toy.env (Toy.keyPair 0) (toyBlock 0) toyStored = some r₀ ∧
    ((LedgerStorage.restarted (LedgerStorage.toyCommitted true).db).loadState LedgerStorage.toyPb 0 false false).2 =
      .loaded (some toyStored) ∧
    Trail (Restart.halfStep Toy.env) r₀ inits r ∧ r.Initialized ∧ Trail (step Toy.env) r.node trace s ∧
    (∀ x ∈ trace, x.2.Numbered) ∧ s.cfg.lowWaterMark = 1 ∧ s.cfg.progressedIndex = 2 ∧ ¬s.InOrder := by
  have hrun : ((Restart.start Toy.env (Toy.keyPair 0) (toyBlock 0) toyStored).elim false fun r₀ =>
      (Trail.states (Restart.halfStep Toy.env) r₀ toyLoads).elim false fun r =>
        decide (r.2.todo = [] ∧ r.2.last = none) && (Trail.states (step Toy.env) r.2.node (toyMarks true)).elim false fun s =>
          decide (s.2.cfg.lowWaterMark = 1 ∧ s.2.cfg.progressedIndex = 2) && s.1.all fun x => decide x.2.Numbered) = true := by
    decide +kernel
  obtain ⟨r₀, hstart, hrun⟩ := Toy.exists_of_elim hrun
  obtain ⟨⟨inits, r⟩, hinits, hrun⟩ := Toy.exists_of_elim hrun
  rw [Bool.and_eq_true, decide_eq_true_eq] at hrun
  obtain ⟨hdone, hrun⟩ := hrun
  obtain ⟨⟨trace, s⟩, htrace, hcheck⟩ := Toy.exists_of_elim hrun
  simp only [Bool.and_eq_true, decide_eq_true_eq, List.all_eq_true] at hcheck
  obtain ⟨⟨hlow, hprogressed⟩, hnumbered⟩ := hcheck
  refine ⟨r₀, inits, r, trace, s, hstart, toyCommitted_loads, .of_states hinits, hdone, .of_states htrace, hnumbered, hlow,
    hprogressed, fun h => ?_⟩
  have hle := h.2.1
  omega

end BcosPbft
