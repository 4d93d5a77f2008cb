import BcosPbft.Proofs.Execution

/-! Parents of executions. An execution starts on the hash that the node holds for the index before, and a step that
replaces that hash while the execution is in flight leaves its result on a stale parent. -/

namespace BcosPbft

def Node.roots (s : Node) : List (PBFTProposal × PBFTProposal) :=
  s.executions.map (fun e => (e.lastApplied, e.proposal)) ++ s.applied.map (fun r => (r.lastApplied, r.proposal))

/-- The executed proposal that the worker announces or records next was executed on the hash that the node holds for
the index before. -/
def Node.Current (s : Node) : Prop :=
  ∀ r ∈ s.applied.head?, r.success = true →
    ∀ p ∈ s.getAppliedCheckPointProposal (r.executedProposal.index - 1), p.hash = r.lastApplied.hash

/-- The block of the ledger is the one that what is in flight on its index was executed on, a recorded proposal is the
one that the rest was executed on, and the block of a proposal has the number of the proposal. -/
def Event.Keeps (E : Env) (s : Node) : Event → Prop
  | .finalized l | .newBlock l => 0 ≤ l.blockNumber ∧
      (¬(l.blockNumber ≤ s.cfg.committedIndex ∧ s.cfg.committedIndex > 0) →
        ∀ x ∈ s.roots, x.1.index = l.blockNumber → l.hash = x.1.hash)
  | .proposalApplied => ∀ r ∈ s.applied.head?, r.success = true → r.announced.isSome →
      s.cfg.committedIndex < r.executedProposal.index → ∀ x ∈ ({ s with applied := s.applied.tail } : Node).roots,
        x.1.index = r.executedProposal.index → r.executedProposal.hash = x.1.hash
  | .executed i _ => ∀ e ∈ s.executions[i]?, ∀ n ∈ E.headerNumber e.proposal.data, n = e.proposal.index
  | _ => True

instance (E : Env) (s : Node) : (e : Event) → Decidable (e.Keeps E s)
  | .finalized _ => inferInstanceAs (Decidable (_ ∧ (¬(_ ∧ _) → _)))
  | .newBlock _ => inferInstanceAs (Decidable (_ ∧ (¬(_ ∧ _) → _)))
  | .proposalApplied => inferInstanceAs (Decidable (∀ r ∈ s.applied.head?, _))
  | .executed i _ => inferInstanceAs (Decidable (∀ e ∈ s.executions[i]?, _))
  | .receive .. | .gate | .worker | .timeout | .checkPointTimeout .. | .submitProposal .. | .proposalSubmitted _
  | .proposalVerified .. | .proposalLoaded .. | .lowMark _ | .notifyNewBlock _ | .precommitResponse ..
  | .committedResponse .. | .sealerReset .. | .sealerAnswers _ | .resetTxsFinished _ | .syncingNumber _ | .connected _
  | .clock _ => inferInstanceAs (Decidable True)

/-- What is in flight above the committed index was executed on the hash that the node holds, if it holds one. -/
structure Rooted (s : Node) : Prop where
  index : ∀ i c p, s.caches.find? i = some c → c.checkpointProposal = some p → p.index = i
  parent : ∀ x ∈ s.roots, x.1.index + 1 = x.2.index
  held : ∀ x ∈ s.roots, s.cfg.committedIndex < x.2.index →
    ∀ p, s.getAppliedCheckPointProposal x.1.index = some p → p.hash = x.1.hash
  number : ∀ r ∈ s.applied, r.success = true → r.executedProposal.index = r.proposal.index

def Node.Above (s : Node) : Prop :=
  ∀ i c p, s.caches.find? i = some c → c.checkpointProposal = some p → s.cfg.committedIndex < i

theorem CfgStep.committedIndex_eq {E : Env} {l : Label} {c c' : Config} (h : CfgStep E l c c') (hl : ∀ b, l ≠ .ledger b) :
    c'.committedIndex = c.committedIndex := by
  unfold Config.committedIndex
  rw [h.committedProposal_eq hl]

theorem CfgStep.expectedCheckPoint_eq {E : Env} {l : Label} {c c' : Config} (h : CfgStep E l c c') (hl : l ≠ .expect)
    (hledger : ∀ b, l ≠ .ledger b) : c'.expectedCheckPoint = c.expectedCheckPoint := by
  cases h with
  | same _ h => exact h.expectedCheckPoint
  | mode => rfl
  | aim => rfl
  | view _ hv =>
    unfold Config.resetNewViewState
    split <;> rfl
  | expect _ i => exact absurd rfl hl
  | lowMark _ h => rfl
  | ledger _ h => exact absurd rfl (hledger _)
  | nodes h =>
    obtain ⟨_, _, _, _, _, _, _, rfl⟩ := Config.setConsensusNodeList_frame h
    rfl
  | reseal => rfl

section

variable {E : Env} {l : Label} {s t : Node}

theorem Prim.checkpointProposal (h : Prim E l s t) (hset : ∀ p, l ≠ .setCheckPoint p) {i : Int} {c' : PBFTCache}
    {p' : PBFTProposal} (hc' : t.caches.find? i = some c') (hp' : c'.checkpointProposal = some p') :
    ∃ c p, s.caches.find? i = some c ∧ c.checkpointProposal = some p ∧ p'.proposal = p.proposal := by
  rcases (h.cacheStep hc').checkpointProposal hp' with ⟨p, hp, heq⟩ | ⟨rfl, -⟩
  · cases hc : s.caches.find? i with
    | none =>
      rw [hc] at hp
      cases hp
    | some c =>
      rw [hc, Option.getD_some] at hp
      exact ⟨c, p, rfl, hp, heq⟩
  · exact absurd rfl (hset p')

theorem Prim.getApplied (h : Prim E l s t) (hledger : ∀ b, l ≠ .ledger b) (hset : ∀ p, l ≠ .setCheckPoint p) {i : Int}
    {p' : PBFTProposal} (hp' : t.getAppliedCheckPointProposal i = some p') :
    ∃ p, s.getAppliedCheckPointProposal i = some p ∧ p'.hash = p.hash := by
  unfold Node.getAppliedCheckPointProposal at hp' ⊢
  rw [h.cfgStep.committedIndex_eq hledger, h.cfgStep.committedProposal_eq hledger] at hp'
  split_ifs at hp' ⊢
  · exact ⟨p', hp', rfl⟩
  · obtain ⟨c', hc', hp'⟩ := Option.bind_eq_some_iff.1 hp'
    obtain ⟨c, p, hc, hp, heq⟩ := h.checkpointProposal hset hc' hp'
    refine ⟨p, by rw [hc, Option.bind_some, hp], ?_⟩
    unfold PBFTProposal.hash
    rw [heq]

theorem Node.onExecuted_roots (s : Node) (i : Nat) (error : Bool) : ∀ x ∈ (s.onExecuted E i error).roots, x ∈ s.roots := by
  have hdrop : ∀ x ∈ ({ s with executions := s.executions.eraseIdx i } : Node).roots, x ∈ s.roots := fun x hx =>
    (((List.eraseIdx_sublist s.executions i).map _).append (List.Sublist.refl _)).subset hx
  unfold onExecuted
  split
  · exact fun x hx => hx
  · rename_i e he
    dsimp only
    split
    · exact hdrop
    · rename_i r hr
      split
      · exact hdrop
      · intro x hx
        unfold roots at hx
        dsimp only at hx
        rw [List.map_append, List.map_singleton, (applyProposal_cases hr).1.1, (applyProposal_cases hr).1.2.1,
          ← List.append_assoc] at hx
        rcases List.mem_append.1 hx with hx | hx
        · exact hdrop x hx
        · rw [List.mem_singleton.1 hx]
          exact List.mem_append_left _ (List.mem_map.2 ⟨e, List.mem_of_getElem? he, rfl⟩)

theorem Prim.roots (h : Prim E l s t) {x : PBFTProposal × PBFTProposal} (hx : x ∈ t.roots) :
    x ∈ s.roots ∨ l = .apply x.1 x.2 := by
  by_cases hpipe : l.pipeline = true
  · cases h with
    | @apply _ p lastApplied rest hq hindex hlast hmark =>
      have hcore := (s.takeProposal p rest).applyStateMachine_core lastApplied p
      have hexec : ((s.takeProposal p rest).applyStateMachine lastApplied p).executions =
          s.executions ++ [{ lastApplied := lastApplied, proposal := p }] := congrArg Core.executions hcore
      have happ : ((s.takeProposal p rest).applyStateMachine lastApplied p).applied = s.applied := congrArg Core.applied hcore
      unfold Node.roots at hx ⊢
      rw [hexec, happ, List.map_append, List.map_singleton] at hx
      rcases List.mem_append.1 hx with hx | hx
      · rcases List.mem_append.1 hx with hx | hx
        · exact Or.inl (List.mem_append_left _ hx)
        · right
          rw [List.mem_singleton.1 hx]
      · exact Or.inl (List.mem_append_right _ hx)
    | executed _ i error => exact Or.inl (s.onExecuted_roots i error x hx)
    | @announce _ r rest happ hsucc ha =>
      left
      unfold Node.roots at hx ⊢
      rw [happ]
      exact hx
    | @settle _ r rest happ =>
      left
      unfold Node.roots at hx ⊢
      rw [happ]
      rcases List.mem_append.1 hx with hx | hx
      · exact List.mem_append_left _ hx
      · exact List.mem_append_right _ (List.mem_cons_of_mem _ hx)
    | push _ h hp => exact Or.inl hx
    | queue _ hq => exact Or.inl hx
    | unmark => exact Or.inl hx
    | expire => exact Or.inl hx
    | _ => cases hpipe
  · obtain ⟨-, -, he, ha⟩ := h.pipeline_same (by simpa using hpipe)
    left
    unfold Node.roots at hx ⊢
    rwa [he, ha] at hx

theorem Prim.results (h : Prim E l s t) (hl : l ≠ .executed) {r : Applied} (hr : r ∈ t.applied) :
    ∃ r' ∈ s.applied, r'.success = r.success ∧ r'.proposal = r.proposal ∧ r'.executedProposal = r.executedProposal := by
  by_cases hpipe : l.pipeline = true
  · cases h with
    | @apply _ p lastApplied rest hq hindex hlast hmark =>
      have happ : ((s.takeProposal p rest).applyStateMachine lastApplied p).applied = s.applied :=
        congrArg Core.applied ((s.takeProposal p rest).applyStateMachine_core lastApplied p)
      rw [happ] at hr
      exact ⟨r, hr, rfl, rfl, rfl⟩
    | executed => exact absurd rfl hl
    | @announce _ r₀ rest happ hsucc ha =>
      rcases List.mem_cons.1 hr with rfl | hr
      · exact ⟨r₀, by rw [happ]; exact List.mem_cons_self, rfl, rfl, rfl⟩
      · exact ⟨r, by rw [happ]; exact List.mem_cons_of_mem _ hr, rfl, rfl, rfl⟩
    | @settle _ r₀ rest happ => exact ⟨r, by rw [happ]; exact List.mem_cons_of_mem _ hr, rfl, rfl, rfl⟩
    | push _ h hp => exact ⟨r, hr, rfl, rfl, rfl⟩
    | queue _ hq => exact ⟨r, hr, rfl, rfl, rfl⟩
    | unmark => exact ⟨r, hr, rfl, rfl, rfl⟩
    | expire => exact ⟨r, hr, rfl, rfl, rfl⟩
    | _ => cases hpipe
  · obtain ⟨-, -, -, ha⟩ := h.pipeline_same (by simpa using hpipe)
    exact ⟨r, ha ▸ hr, rfl, rfl, rfl⟩

theorem Node.onExecuted_results (s : Node) (i : Nat) (error : Bool) : ∀ r ∈ (s.onExecuted E i error).applied,
    r ∈ s.applied ∨ ∃ e, s.executions[i]? = some e ∧ Node.applyProposal E e error = some r := by
  intro r hr
  unfold onExecuted at hr
  split at hr
  · exact Or.inl hr
  · rename_i e he
    dsimp only at hr
    split at hr
    · exact Or.inl hr
    · rename_i r' hr'
      split at hr
      · exact Or.inl hr
      · rcases List.mem_append.1 hr with hr | hr
        · exact Or.inl hr
        · obtain rfl := List.mem_singleton.1 hr
          exact Or.inr ⟨e, he, hr'⟩

theorem Node.setCheckPointProposal_cases (s : Node) {q p : PBFTProposal} {i : Int} {c : PBFTCache}
    (hc : (s.setCheckPointProposal q).caches.find? i = some c) (hp : c.checkpointProposal = some p) :
    (∃ c₀, s.caches.find? i = some c₀ ∧ c₀.checkpointProposal = some p) ∨
      p = q ∧ q.index = i ∧ s.cfg.committedIndex < q.index := by
  change (s.caches.insert q.index _).find? i = some c at hc
  rw [OrdMap.find?_insert] at hc
  split_ifs at hc with hi
  · obtain rfl := Option.some.inj hc
    subst hi
    have hold : ((s.caches.find? q.index).getD { index := q.index }).checkpointProposal = some p →
        ∃ c₀, s.caches.find? q.index = some c₀ ∧ c₀.checkpointProposal = some p := by
      intro hp
      cases hd : s.caches.find? q.index with
      | none => simp [hd] at hp
      | some d => exact ⟨d, rfl, by simpa [hd] using hp⟩
    unfold PBFTCache.setCheckPointProposal at hp
    split_ifs at hp with hlow hindex
    · exact Or.inl (hold hp)
    · exact Or.inl (hold hp)
    · exact Or.inr ⟨(Option.some.inj hp).symm, rfl, not_le.1 hlow⟩
  · exact Or.inl ⟨c, hc, hp⟩

def Label.rooting : Label → Prop
  | .ledger _ | .setCheckPoint _ | .executed => False
  | _ => True

namespace Rooted

theorem applied_index (hs : Rooted s) {i : Int} {p : PBFTProposal} (h : s.getAppliedCheckPointProposal i = some p) :
    p.index = i := by
  unfold Node.getAppliedCheckPointProposal at h
  split at h
  · rename_i hi
    rw [hi, Config.committedIndex, h]
    rfl
  · obtain ⟨c, hc, hp⟩ := Option.bind_eq_some_iff.1 h
    exact hs.index i c p hc hp

theorem step (h : Prim E l s t) (hl : l.rooting) (hs : Rooted s) : Rooted t := by
  have hledger : ∀ b, l ≠ .ledger b := by
    rintro b rfl
    exact hl
  have hset : ∀ p, l ≠ .setCheckPoint p := by
    rintro p rfl
    exact hl
  have hexecuted : l ≠ .executed := by
    rintro rfl
    exact hl
  -- a start takes the hash that the node holds
  have hstart : ∀ x : PBFTProposal × PBFTProposal, l = .apply x.1 x.2 →
      x.1.index + 1 = x.2.index ∧ s.getAppliedCheckPointProposal x.1.index = some x.1 := by
    rintro x rfl
    cases h with
    | apply _ hq hindex hlast hmark =>
      have hi := hs.applied_index hlast
      refine ⟨by omega, ?_⟩
      rw [hi]
      exact hlast
  refine ⟨fun i c p hc hp => ?_, fun x hx => ?_, fun x hx hcommitted p hp => ?_, fun r hr hsucc => ?_⟩
  · obtain ⟨c₀, p₀, hc₀, hp₀, heq⟩ := h.checkpointProposal hset hc hp
    have hi := hs.index i c₀ p₀ hc₀ hp₀
    unfold PBFTProposal.index at hi ⊢
    rwa [heq]
  · rcases h.roots hx with hx | hx
    · exact hs.parent x hx
    · exact (hstart x hx).1
  · obtain ⟨q, hq, hhash⟩ := h.getApplied hledger hset hp
    rw [h.cfgStep.committedIndex_eq hledger] at hcommitted
    rcases h.roots hx with hx | hx
    · exact hhash.trans (hs.held x hx hcommitted q hq)
    · obtain rfl := Option.some.inj ((hstart x hx).2.symm.trans hq)
      exact hhash
  · obtain ⟨r', hr', hsucc', hproposal, hexec⟩ := h.results hexecuted hr
    rw [← hproposal, ← hexec]
    exact hs.number r' hr' (hsucc'.trans hsucc)

theorem steps {A : Label → Prop} (hA : ∀ l, A l → l.rooting) (h : Steps E A s t) (hs : Rooted s) : Rooted t :=
  Labelled.Steps.preserves (fun _ _ _ hl hp hs => hs.step hp (hA _ hl)) h hs

theorem applyProposal_number {e : Execution} {error : Bool} {r : Applied} (h : Node.applyProposal E e error = some r)
    (hn : ∀ n ∈ E.headerNumber e.proposal.data, n = e.proposal.index) (hr : r.success = true) :
    r.executedProposal.index = e.proposal.index := by
  obtain ⟨parent, -, hheader, hnumber, -⟩ := (applyProposal_cases h).2 hr
  rw [hnumber]
  exact hn _ hheader

theorem onExecuted (hs : Rooted s) {i : Nat} {error : Bool}
    (hok : ∀ e ∈ s.executions[i]?, ∀ n ∈ E.headerNumber e.proposal.data, n = e.proposal.index) :
    Rooted (s.onExecuted E i error) := by
  have hprim : Prim E .executed s (s.onExecuted E i error) := .executed s i error
  refine ⟨fun j c p hc hp => ?_, fun x hx => hs.parent x (s.onExecuted_roots i error x hx), fun x hx hcommitted p hp => ?_,
    fun r hr hsucc => ?_⟩
  · rw [s.onExecuted_caches] at hc
    exact hs.index j c p hc hp
  · obtain ⟨q, hq, hhash⟩ := hprim.getApplied (fun _ => Label.noConfusion) (fun _ => Label.noConfusion) hp
    rw [s.onExecuted_cfg] at hcommitted
    exact hhash.trans (hs.held x (s.onExecuted_roots i error x hx) hcommitted q hq)
  · rcases s.onExecuted_results i error r hr with hr | ⟨e, he, happly⟩
    · exact hs.number r hr hsucc
    · rw [(applyProposal_cases happly).1.1]
      exact applyProposal_number happly (hok e he) hsucc

/-- A block of the ledger that is the one what is in flight was executed on. -/
theorem ledger (hs : Rooted s) {l : LedgerConfig} (hl : 0 ≤ l.blockNumber)
    (hnew : ¬(l.blockNumber ≤ s.cfg.committedIndex ∧ s.cfg.committedIndex > 0))
    (hok : ∀ x ∈ s.roots, x.1.index = l.blockNumber → l.hash = x.1.hash) :
    Rooted (s.setCfg (s.cfg.setCommittedProposal l.proposal)) := by
  refine ⟨hs.index, hs.parent, fun x hx hcommitted p hp => ?_, hs.number⟩
  have hparent := hs.parent x hx
  change l.blockNumber < x.2.index at hcommitted
  change (if x.1.index = l.blockNumber then some l.proposal else
    (s.caches.find? x.1.index).bind (·.checkpointProposal)) = some p at hp
  split_ifs at hp with hi
  · obtain rfl := Option.some.inj hp
    exact (toHash_val l.hash).trans (hok x hx hi)
  · refine hs.held x hx (by omega) p ?_
    unfold Node.getAppliedCheckPointProposal
    rw [if_neg (by omega)]
    exact hp

/-- A recorded proposal that is the one what is in flight was executed on. -/
theorem setCheckPoint (hs : Rooted s) {q : PBFTProposal}
    (hok : s.cfg.committedIndex < q.index → ∀ x ∈ s.roots, x.1.index = q.index → q.hash = x.1.hash) :
    Rooted (s.setCheckPointProposal q) := by
  refine ⟨fun i c p hc hp => ?_, hs.parent, fun x hx hcommitted p hp => ?_, hs.number⟩
  · rcases s.setCheckPointProposal_cases hc hp with ⟨c₀, hc₀, hp₀⟩ | ⟨rfl, hi, -⟩
    · exact hs.index i c₀ p hc₀ hp₀
    · exact hi
  · have hheld := hs.held x hx hcommitted
    unfold Node.getAppliedCheckPointProposal at hp hheld
    change (if x.1.index = s.cfg.committedIndex then s.cfg.committedProposal else
      ((s.setCheckPointProposal q).caches.find? x.1.index).bind (·.checkpointProposal)) = some p at hp
    split_ifs at hp hheld
    · exact hheld p hp
    · obtain ⟨c, hc, hp⟩ := Option.bind_eq_some_iff.1 hp
      rcases s.setCheckPointProposal_cases hc hp with ⟨c₀, hc₀, hp₀⟩ | ⟨rfl, hi, hlow⟩
      · exact hheld p (by rw [hc₀, Option.bind_some, hp₀])
      · exact hok hlow x hx hi.symm

end Rooted

namespace Node.Above

theorem step (h : Prim E l s t) (hl : ∀ b, l ≠ .ledger b) (hs : s.Above) : t.Above := by
  intro i c p hc hp
  rw [h.cfgStep.committedIndex_eq hl]
  by_cases hset : ∃ q, l = .setCheckPoint q
  · obtain ⟨q, rfl⟩ := hset
    cases h with
    | setCheckPoint =>
      rcases s.setCheckPointProposal_cases hc hp with ⟨c₀, hc₀, hp₀⟩ | ⟨-, hi, hlow⟩
      · exact hs i c₀ p hc₀ hp₀
      · exact hi ▸ hlow
  · obtain ⟨c₀, p₀, hc₀, hp₀, -⟩ := h.checkpointProposal (fun q hq => hset ⟨q, hq⟩) hc hp
    exact hs i c₀ p₀ hc₀ hp₀

theorem steps {A : Label → Prop} (hA : ∀ l, A l → ∀ b, l ≠ .ledger b) (h : Steps E A s t) (hs : s.Above) : t.Above :=
  Labelled.Steps.preserves (fun _ _ _ hl hp hs => hs.step hp (hA _ hl)) h hs

end Node.Above

theorem Label.rooting.ledger_ne (hl : l.rooting) (b : LedgerConfig) : l ≠ .ledger b := by
  rintro rfl
  exact hl

theorem rooting_wide : Wide Label.rooting := fun l hviewing => by
  cases l <;> trivial

structure Parented (s : Node) : Prop where
  rooted : Rooted s
  above : s.Above

namespace Parented

theorem steps (h : Steps E Label.rooting s t) (hs : Parented s) : Parented t :=
  ⟨hs.rooted.steps (fun _ hl => hl) h, hs.above.steps (fun _ hl => hl.ledger_ne) h⟩

theorem single (h : Prim E l s t) (hl : l.rooting) (hs : Parented s) : Parented t :=
  ⟨hs.rooted.step h hl, hs.above.step h hl.ledger_ne⟩

theorem finalizeConsensus {b : LedgerConfig} {synced : Bool} (hb : 0 ≤ b.blockNumber)
    (hok : ¬(b.blockNumber ≤ s.cfg.committedIndex ∧ s.cfg.committedIndex > 0) →
      ∀ x ∈ s.roots, x.1.index = b.blockNumber → b.hash = x.1.hash)
    (h : s.finalizeConsensus E b synced = some t) (hs : Parented s) : Parented t := by
  obtain ⟨u, hu, htail⟩ := s.finalizeConsensus_tail_steps rooting_wide trivial trivial trivial trivial h
  refine Parented.steps htail ?_
  have hqueue := u.tryToApplyCommitQueue_steps (E := E) rooting_wide.isOpen
  have hremove := Node.removeConsensusedCache_steps (E := E) u.tryToApplyCommitQueue.1 (A := Label.rooting) trivial trivial trivial
    u.tryToApplyCommitQueue.1.cfg.view b.blockNumber
  rcases s.resetConfig_cases (A := Label.rooting) trivial trivial trivial hu with ⟨-, rfl⟩ | ⟨hnew, hreset⟩
  · exact (hs.steps hqueue).steps hremove
  · have hsteps := (hreset.trans hqueue).trans hremove
    refine ⟨(hs.rooted.ledger hb hnew (hok hnew)).steps (fun _ hl => hl) hsteps, fun i c p hc _ => ?_⟩
    have hcommitted := Labelled.Steps.preserves (I := fun v => v.cfg.committedIndex = b.blockNumber)
      (fun l v w hl hp hv => (hp.cfgStep.committedIndex_eq hl.ledger_ne).trans hv) hsteps rfl
    rw [hcommitted]
    -- the caches up to the block are gone
    change (u.tryToApplyCommitQueue.1.caches.filter _).find? i = some c at hc
    rw [OrdMap.find?_filter] at hc
    have hkept := (Option.filter_eq_some_iff.1 hc).2
    simp only [Bool.not_eq_true', Bool.or_eq_false_iff, decide_eq_false_iff_not, not_le] at hkept
    exact hkept.1

theorem recordCheckPoint (E : Env) {r : Applied} {m : PBFTMessage}
    (hok : s.cfg.committedIndex < r.executedProposal.index → ∀ x ∈ s.roots, x.1.index = r.executedProposal.index →
      r.executedProposal.hash = x.1.hash) (hs : Parented s) : Parented (s.recordCheckPoint r m) := by
  obtain ⟨u, hsteps, heq⟩ := Node.recordCheckPoint_tail_steps (E := E) s rooting_wide.isOpen trivial trivial trivial
    (fun _ => trivial) r m
  rw [heq]
  have hvote : Parented (s.addCheckPointMsg m) :=
    hs.single (Prim.checkPoint (E := E) s (fun hown => Bool.noConfusion hown)) (l := .checkPoint true m) trivial
  have hset : Parented ((s.addCheckPointMsg m).setCheckPointProposal r.executedProposal) :=
    ⟨hvote.rooted.setCheckPoint hok, hvote.above.step (Prim.setCheckPoint (E := E) _ _) (fun _ => Label.noConfusion)⟩
  exact (hset.steps hsteps).single (Prim.unmark (E := E) u _) trivial

theorem onProposalApplied (hok : Event.proposalApplied.Keeps E s) (hs : Parented s) :
    Parented (s.onProposalApplied E) := by
  rcases s.onProposalApplied_cases E with heq | ⟨r, rest, happ, ⟨-, heq⟩ | ⟨hsucc, hann, heq⟩ | ⟨m, hsucc, hann, heq⟩⟩
  · rw [heq]
    exact hs
  · rw [heq]
    exact (hs.single (Prim.settle (E := E) s happ) trivial).steps
      (Node.onProposalApplyFailed_steps (E := E) _ rooting_wide.isOpen trivial trivial trivial)
  · rw [heq]
    exact hs.single (Prim.announce (E := E) s happ hsucc hann) trivial
  · rw [heq]
    refine (hs.single (Prim.settle (E := E) s happ) trivial).recordCheckPoint E (fun hlow x hx hi => ?_)
    refine hok r (by rw [happ]; rfl) hsucc (by rw [hann]; rfl) hlow x ?_ hi
    rw [happ]
    exact hx

theorem event {e : Event} (hok : e.Keeps E s) (h : BcosPbft.step E s e = some t) (hs : Parented s) : Parented t := by
  cases e with
  | finalized b => exact hs.finalizeConsensus hok.1 hok.2 h
  | newBlock b =>
    rcases s.finalizeNewBlock_cases h with rfl | ⟨-, h⟩
    · exact hs
    · have hready : Parented { s with newBlocks := s.newBlocks.erase b } :=
        hs.single (Prim.quiet (E := E) (s.newBlocks_quiet _)) trivial
      refine Parented.finalizeConsensus hok.1 ?_ h hready
      exact hok.2
  | proposalApplied =>
    obtain rfl := Option.some.inj h
    exact hs.onProposalApplied hok
  | executed i error =>
    obtain rfl := Option.some.inj h
    exact ⟨hs.rooted.onExecuted hok, hs.above.step (.executed s i error) (fun _ => Label.noConfusion)⟩
  | _ =>
    refine hs.steps ((step_steps h).mono (fun l hl => ?_))
    cases l with
    | ledger b => rcases hl with hl | hl <;> cases hl
    | setCheckPoint p =>
      obtain ⟨r, hr, -⟩ := hl
      cases hr.1
    | executed =>
      obtain ⟨i, error, hl⟩ := hl
      cases hl
    | _ => trivial

/-- The front result was executed on what the node holds for the index before. -/
theorem current (hs : Parented s) : s.Current := by
  intro r hr hsucc p hp
  have hmem : r ∈ s.applied := List.mem_of_mem_head? hr
  have hroot : (r.lastApplied, r.proposal) ∈ s.roots :=
    List.mem_append_right _ (List.mem_map.2 ⟨r, hmem, rfl⟩)
  have hparent : r.lastApplied.index + 1 = r.proposal.index := hs.rooted.parent _ hroot
  rw [hs.rooted.number r hmem hsucc, show r.proposal.index - 1 = r.lastApplied.index by omega] at hp
  by_cases hcommitted : s.cfg.committedIndex < r.proposal.index
  · exact hs.rooted.held _ hroot hcommitted p hp
  · -- below the committed index the node holds no executed proposal
    exfalso
    unfold Node.getAppliedCheckPointProposal at hp
    rw [if_neg (by omega)] at hp
    obtain ⟨c, hc, hp⟩ := Option.bind_eq_some_iff.1 hp
    have := hs.above _ c p hc hp
    omega

end Parented

end

theorem initNode_parented {E : Env} {keyPair : KeyPair} {l : LedgerConfig} {state : List PBFTProposal} {s₀ : Node}
    (hinit : initNode E keyPair l state = some s₀) : Parented s₀ := by
  let A : Label → Prop := fun label => label.pipeline = false ∧ ∀ p, label ≠ .setCheckPoint p
  let I : Node → Prop := fun u => u.executions = [] ∧ u.applied = [] ∧
    ∀ i c, u.caches.find? i = some c → c.checkpointProposal = none
  obtain ⟨s, hsteps, hs⟩ := initNode_steps (A := A) ⟨rfl, fun _ => Label.noConfusion⟩ ⟨rfl, fun _ => Label.noConfusion⟩
    ⟨rfl, fun _ => Label.noConfusion⟩ ⟨rfl, fun _ => Label.noConfusion⟩ (fun _ _ => ⟨rfl, fun _ => Label.noConfusion⟩) hinit
  have hempty : I s := by
    refine Labelled.Steps.preserves (fun l u v hl hp hu => ?_) hsteps ⟨rfl, rfl, fun i c hc => by cases hc⟩
    obtain ⟨-, -, he, ha⟩ := hp.pipeline_same hl.1
    refine ⟨he.trans hu.1, ha.trans hu.2.1, fun i c hc => ?_⟩
    by_contra hne
    obtain ⟨p, hp'⟩ := Option.ne_none_iff_exists'.1 hne
    obtain ⟨c₀, p₀, hc₀, hp₀, -⟩ := hp.checkpointProposal hl.2 hc hp'
    rw [hu.2.2 i c₀ hc₀] at hp₀
    cases hp₀
  have hsame : I s₀ := by
    rcases hs with rfl | ⟨last, -, rfl⟩
    · exact hempty
    · exact hempty
  obtain ⟨he, ha, hc⟩ := hsame
  have hroots : s₀.roots = [] := by
    unfold Node.roots
    rw [he, ha]
    rfl
  refine ⟨⟨fun i c p hcache hp => ?_, ?_, ?_, ?_⟩, fun i c p hcache hp => ?_⟩
  · cases (hc i c hcache).symm.trans hp
  · simp [hroots]
  · simp [hroots]
  · simp [ha]
  · cases (hc i c hcache).symm.trans hp

/-- Over a run in which the blocks of the ledger and the recorded proposals are the ones that what is in flight was
executed on, the executed proposal that the worker announces or records next was executed on the hash that the node
holds for the index before. -/
theorem execution_current {E : Env} {keyPair : KeyPair} {l : LedgerConfig} {state : List PBFTProposal} {s₀ s : Node}
    {trace : List (Node × Event)} (hinit : initNode E keyPair l state = some s₀) (hrun : Trail (step E) s₀ trace s)
    (hok : ∀ x ∈ trace, x.2.Keeps E x.1) : s.Current :=
  (hrun.preserves (I := Parented) (fun s e _ (hok : e.Keeps E s) hstep hs => hs.event hok hstep) hok
    (initNode_parented hinit)).current

def toyTwoBlocks : Bytes :=
  let second : PBFTProposal := { proposal := { index := 2, hash := (Toy.checksum [2, 7]).val, data := [2, 7] } }
  (PBFTCodec.encode Toy.env (Toy.keyPair 0) 0 (.pbft { packetType := .CommittedProposalResponse,
                                                       raw := { proposals := [Toy.proposal 7, second] } })).1

/-- Node 3 fetches and executes two blocks; while the second is executed the sync module reports block 1. -/
def toyOvertaken (hash : HashType) : List Event :=
  Toy.atOnce [.timeout, .receive [0] (toyCheckPoint 0) [], .worker, .committedResponse 0 (some toyTwoBlocks),
    .proposalLoaded 0 (.result true), .proposalLoaded 0 (.result true), .executed 0 false, .proposalApplied,
    .proposalApplied, .newBlock { blockNumber := 1, hash := hash, consensusNodeList := Toy.nodes [1, 1, 1, 1] },
    .executed 0 false]

def holdsParent (s : Node) : Bool :=
  s.applied.head?.any fun r =>
    r.success && (s.getAppliedCheckPointProposal (r.executedProposal.index - 1)).isSome

theorem toyOvertaken_current : ∃ trace s, Trail.states (step Toy.env) (Toy.node 3 [1, 1, 1, 1]) (toyOvertaken (toyChain 1)) =
    some (trace, s) ∧ holdsParent s = true ∧ s.Current := by
  have hinit : initNode Toy.env (Toy.keyPair 3)
      { blockNumber := 0, hash := zeroHash, consensusNodeList := Toy.nodes [1, 1, 1, 1] } [] =
        some (Toy.node 3 [1, 1, 1, 1]) := by decide +kernel
  have hrun : ((Trail.states (step Toy.env) (Toy.node 3 [1, 1, 1, 1]) (toyOvertaken (toyChain 1))).elim false fun r =>
      holdsParent r.2 && r.1.all fun x => decide (x.2.Keeps Toy.env x.1)) = true := by decide +kernel
  obtain ⟨⟨trace, s⟩, hs, hcheck⟩ := Toy.exists_of_elim hrun
  simp only [Bool.and_eq_true, List.all_eq_true, decide_eq_true_eq] at hcheck
  exact ⟨trace, s, hs, hcheck.1, execution_current hinit (.of_states hs) hcheck.2⟩

/-- Where the synced block is another one, block 2 is announced on a parent that the node does not hold. -/
theorem toyOvertaken_stale : ∃ trace s, Trail (step Toy.env) (Toy.node 3 [1, 1, 1, 1]) trace s ∧ ¬s.Current := by
  have hrun : ((Trail.states (step Toy.env) (Toy.node 3 [1, 1, 1, 1]) (toyOvertaken zeroHash)).elim false fun r =>
      r.2.applied.head?.any fun x => x.success &&
        (r.2.getAppliedCheckPointProposal (x.executedProposal.index - 1)).any fun p => p.hash ≠ x.lastApplied.hash) = true := by
    decide +kernel
  obtain ⟨⟨trace, s⟩, hs, hcheck⟩ := Toy.exists_of_elim hrun
  refine ⟨trace, s, .of_states hs, fun h => ?_⟩
  obtain ⟨r, hr, hcheck⟩ := (Option.any_eq_true _ _).1 hcheck
  rw [Bool.and_eq_true] at hcheck
  obtain ⟨p, hp, hne⟩ := (Option.any_eq_true _ _).1 hcheck.2
  exact of_decide_eq_true hne (h r hr hcheck.1 p hp)

end BcosPbft
