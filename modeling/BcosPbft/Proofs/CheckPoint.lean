import BcosPbft.Proofs.Effects
import BcosPbft.Proofs.Handlers
import BcosPbft.Spec.Toy

/-! Checkpoints. Where every pushed proposal extends one chain of executed hashes and the ledger's blocks are on it,
whatever is executed at an index has the chain's hash, in any order of executions, failures and synced blocks. A
fetched proposal is not compared with anything, so a run can leave the chain. -/

namespace BcosPbft

/-- The block of the proposal, executed on the chain's hash before its index, has its number and the chain's hash. -/
def ExtendsChain (E : Env) (hash : Int → HashType) (p : PBFTProposal) : Prop :=
  (E.execute p.data (some (p.index - 1, hash (p.index - 1)))).number = p.index ∧
    (E.execute p.data (some (p.index - 1, hash (p.index - 1)))).hash = hash p.index

/-- The blocks that the ledger and the sync module report are those of the chain. -/
def OnChain (start : Int) (hash : Int → HashType) : Event → Prop
  | .finalized l | .newBlock l => start ≤ l.blockNumber ∧ l.hash = hash l.blockNumber
  | _ => True

inductive ReachableBy (E : Env) (ok : Event → Prop) (s₀ : Node) : Node → Prop
  | refl : ReachableBy E ok s₀ s₀
  | step {s s' : Node} (e : Event) (h : ReachableBy E ok s₀ s) (he : ok e) (hs : step E s e = some s') :
      ReachableBy E ok s₀ s'

theorem ReachableBy.foldlM {E : Env} {ok : Event → Prop} {s₀ s t : Node} {l : List Event} (h : ReachableBy E ok s₀ s)
    (hok : ∀ e ∈ l, ok e) (hrun : l.foldlM (BcosPbft.step E) s = some t) : ReachableBy E ok s₀ t := by
  induction l generalizing s with
  | nil =>
    obtain rfl : s = t := by simpa using hrun
    exact h
  | cons e l ih =>
    rw [List.foldlM_cons] at hrun
    obtain ⟨u, hu, hrun⟩ := Option.bind_eq_some_iff.1 hrun
    exact ih (.step e h (hok e List.mem_cons_self) hu) (fun e' he' => hok e' (List.mem_cons_of_mem _ he')) hrun

theorem ReachableBy.reachable {E : Env} {ok : Event → Prop} {s₀ s : Node} (h : ReachableBy E ok s₀ s) :
    Reachable E s₀ s := by
  induction h with
  | refl => exact .refl
  | step e _ _ hs ih => exact .step e ih hs

/-- Every proposal above `start` that was pushed into the commit queue extends the chain. -/
def PushesChain (E : Env) (start : Int) (hash : Int → HashType) (log : List Action) : Prop :=
  ∀ p, Action.pushCommitted p ∈ log → start < p.index → ExtendsChain E hash p

/-- No two checkpoint messages with one index and different hashes went out. -/
def NoEquivocation (log : List Action) : Prop :=
  ∀ dst dst' m m' data data', Action.send dst (.pbft m) data ∈ log → Action.send dst' (.pbft m') data' ∈ log →
    m.packetType = .CheckPoint → m'.packetType = .CheckPoint → m.index = m'.index → m.hash = m'.hash

structure Executes (E : Env) (start : Int) (hash : Int → HashType) (s : Node) : Prop where
  committed : ∀ p, s.cfg.committedProposal = some p → start ≤ p.index ∧ p.hash = hash p.index
  expected : s.cfg.committedProposal = none ∨ start < s.cfg.expectedCheckPoint
  queue : ∀ p ∈ s.committedQueue, start < p.index → ExtendsChain E hash p
  checkPoints : ∀ i c p, s.caches.find? i = some c → c.checkpointProposal = some p →
    p.index = i ∧ start < p.index ∧ p.hash = hash p.index
  executions : ∀ e ∈ s.executions, start ≤ e.lastApplied.index ∧ e.proposal.index = e.lastApplied.index + 1 ∧
    e.lastApplied.hash = hash e.lastApplied.index ∧ ExtendsChain E hash e.proposal
  applied : ∀ r ∈ s.applied, r.success = true →
    start < r.executedProposal.index ∧ r.executedProposal.hash = hash r.executedProposal.index
  log : ∀ dst m data, Action.send dst (.pbft m) data ∈ s.log → m.packetType = .CheckPoint → m.hash = hash m.index

def Label.OnChain (start : Int) (hash : Int → HashType) : Label → Prop
  | .ledger l => start ≤ l.blockNumber ∧ l.hash = hash l.blockNumber
  | .setCheckPoint p => start < p.index ∧ p.hash = hash p.index
  | _ => True

section

variable {E : Env} {start : Int} {hash : Int → HashType}

theorem applyProposal_cases {e : Execution} {error : Bool} {r : Applied} (h : Node.applyProposal E e error = some r) :
    (r.proposal = e.proposal ∧ r.lastApplied = e.lastApplied ∧ r.announced = none) ∧
      (r.success = true → ∃ parent,
        (e.proposal.index = e.lastApplied.index + 1 → parent = some (e.lastApplied.index, e.lastApplied.hash)) ∧
        E.headerNumber e.proposal.data = some (E.execute e.proposal.data parent).number ∧
        r.executedProposal.index = (E.execute e.proposal.data parent).number ∧
        r.executedProposal.hash = (E.execute e.proposal.data parent).hash) := by
  unfold Node.applyProposal at h
  split at h
  · obtain rfl := Option.some.inj h
    exact ⟨⟨rfl, rfl, rfl⟩, fun hr => Bool.noConfusion hr⟩
  split at h
  · obtain rfl := Option.some.inj h
    exact ⟨⟨rfl, rfl, rfl⟩, fun hr => Bool.noConfusion hr⟩
  rename_i number hnumber
  split at h
  · obtain rfl := Option.some.inj h
    exact ⟨⟨rfl, rfl, rfl⟩, fun hr => Bool.noConfusion hr⟩
  extract_lets failed parent header executed at h
  split at h
  · cases h
  · rename_i hheader
    obtain rfl := Option.some.inj h
    refine ⟨⟨rfl, rfl, rfl⟩, fun _ => ⟨parent, fun hindex => if_pos hindex, ?_, rfl, toHash_val _⟩⟩
    rw [hnumber, ← not_not.1 hheader]

theorem applyProposal_onChain {e : Execution} {error : Bool} {r : Applied}
    (hlast : start ≤ e.lastApplied.index) (hindex : e.proposal.index = e.lastApplied.index + 1)
    (hparent : e.lastApplied.hash = hash e.lastApplied.index) (hextends : ExtendsChain E hash e.proposal)
    (h : Node.applyProposal E e error = some r) (hr : r.success = true) :
    start < r.executedProposal.index ∧ r.executedProposal.hash = hash r.executedProposal.index := by
  obtain ⟨parent, hexec, -, hnumber, hhash⟩ := (applyProposal_cases h).2 hr
  obtain ⟨hextnumber, hexthash⟩ := hextends
  have hprev : e.lastApplied.index = e.proposal.index - 1 := by omega
  rw [hexec hindex, hparent, hprev] at hnumber hhash
  rw [hhash, hnumber, hexthash, hextnumber]
  exact ⟨by omega, rfl⟩

theorem CfgStep.onChain {l : Label} {c c' : Config} (h : CfgStep E l c c') (hl : l.OnChain start hash)
    (hcommitted : ∀ p, c.committedProposal = some p → start ≤ p.index ∧ p.hash = hash p.index)
    (hexpected : c.committedProposal = none ∨ start < c.expectedCheckPoint) :
    (∀ p, c'.committedProposal = some p → start ≤ p.index ∧ p.hash = hash p.index) ∧
      (c'.committedProposal = none ∨ start < c'.expectedCheckPoint) := by
  cases h with
  | same _ h =>
    rw [h.committedProposal, h.expectedCheckPoint]
    exact ⟨hcommitted, hexpected⟩
  | mode => exact ⟨hcommitted, hexpected⟩
  | aim => exact ⟨hcommitted, hexpected⟩
  | view _ v =>
    unfold Config.resetNewViewState
    split <;> exact ⟨hcommitted, hexpected⟩
  | expect _ i =>
    refine ⟨hcommitted, ?_⟩
    cases hp : c.committedProposal with
    | none => exact Or.inl hp
    | some p =>
      right
      have hle := (hcommitted p hp).1
      simp only [Config.setExpectedCheckPoint, Config.committedIndex, hp, Option.elim_some]
      omega
  | lowMark _ h => exact ⟨hcommitted, hexpected⟩
  | reseal => exact ⟨hcommitted, hexpected⟩
  | @ledger _ b h =>
    obtain ⟨hstart, hhash⟩ := hl
    constructor
    · intro p hp
      obtain rfl := Option.some.inj hp
      simp only [LedgerConfig.proposal, PBFTProposal.index, PBFTProposal.hash, toHash_val]
      exact ⟨hstart, hhash⟩
    · right
      simp only [Config.setCommittedProposal, LedgerConfig.proposal, PBFTProposal.index]
      split_ifs <;> omega
  | nodes h =>
    obtain ⟨_, _, _, _, _, _, _, rfl⟩ := Config.setConsensusNodeList_frame h
    exact ⟨hcommitted, hexpected⟩

theorem CacheStep.checkpointProposal {cfg : Config} {now i : Int} {l : Label} {c c' : PBFTCache}
    (h : CacheStep E cfg now l i c c') {p' : PBFTProposal} (hp' : c'.checkpointProposal = some p') :
    (∃ p, c.checkpointProposal = some p ∧ p'.proposal = p.proposal) ∨ (l = .setCheckPoint p' ∧ p'.index = i) := by
  cases h with
  | preCommit =>
    left
    rcases c.checkAndPreCommit_cases E cfg now with heq | ⟨m, p, -, -, -, -, -, heq⟩
    · rw [heq] at hp'
      exact ⟨p', hp', rfl⟩
    · rw [heq] at hp'
      rcases (c.enterPrecommit E cfg now m p).checkAndCommit_cases cfg with heq' | ⟨heq', -⟩
      · rw [heq'] at hp'
        exact ⟨p', hp', rfl⟩
      · rw [heq'] at hp'
        exact ⟨p', hp', rfl⟩
  | submit =>
    left
    rcases c.checkAndCommit_cases cfg with heq | ⟨heq, -⟩
    · rw [heq] at hp'
      exact ⟨p', hp', rfl⟩
    · rw [heq] at hp'
      exact ⟨p', hp', rfl⟩
  | stable =>
    left
    unfold PBFTCache.checkAndCommitStableCheckPoint at hp'
    split at hp'
    · exact ⟨p', hp', rfl⟩
    · split at hp'
      · exact ⟨p', hp', rfl⟩
      · rename_i p hp
        obtain rfl := Option.some.inj hp'
        exact ⟨p, hp, setSignatureList_proposal _ _⟩
  | setCheckPoint p =>
    unfold PBFTCache.setCheckPointProposal at hp'
    split at hp'
    · exact Or.inl ⟨p', hp', rfl⟩
    split at hp'
    · exact Or.inl ⟨p', hp', rfl⟩
    · obtain rfl := Option.some.inj hp'
      exact Or.inr ⟨rfl, rfl⟩
  | _ => exact Or.inl ⟨p', hp', rfl⟩

theorem send_mem_sendActions {keyPair : KeyPair} {dst dst' : Option NodeID} {v m : PBFTMessage} {data : Bytes}
    (h : Action.send dst (.pbft m) data ∈ sendActions E keyPair dst' (.pbft v)) : m = v.encode E keyPair := by
  simp only [sendActions, PBFTCodec.encode, List.map_cons, List.map_nil, List.cons_append, List.nil_append,
    List.mem_cons, List.not_mem_nil, or_false] at h
  rcases h with h | h
  · cases h
  · exact Message.pbft.inj (Action.send.inj h).2.1

theorem sendActions_pbft {keyPair : KeyPair} {dst dst' : Option NodeID} {msg : Message} {m : PBFTMessage} {data : Bytes}
    (h : Action.send dst (.pbft m) data ∈ sendActions E keyPair dst' msg) : ∃ v, msg = .pbft v := by
  simp only [sendActions, List.mem_append, List.mem_map, List.mem_singleton] at h
  rcases h with ⟨r, -, h⟩ | h
  · cases h
  · obtain ⟨-, hm, -⟩ := Action.send.inj h
    cases msg with
    | pbft v => exact ⟨v, rfl⟩
    | viewChange v => unfold PBFTCodec.encode at hm; dsimp only at hm; split at hm <;> cases hm
    | newView v => unfold PBFTCodec.encode at hm; dsimp only at hm; split at hm <;> cases hm
    | request v => cases hm

theorem checkPointActions_packet {s : Node} {p : PBFTProposal} {dst : Option NodeID} {m : PBFTMessage} {data : Bytes}
    (ha : Action.send dst (.pbft m) data ∈ checkPointActions E s p) : m.packetType = .CheckPoint := by
  rcases List.mem_cons.1 ha with ha | ha
  · cases ha
  · rw [send_mem_sendActions ha]
    rfl

theorem checkPointActions_hash {s : Node} {p : PBFTProposal} {dst : Option NodeID} {m : PBFTMessage} {data : Bytes}
    (hp : p.hash = hash p.index) (ha : Action.send dst (.pbft m) data ∈ checkPointActions E s p) :
    m.hash = hash m.index := by
  simp only [checkPointActions, List.mem_cons] at ha
  rcases ha with ha | ha
  · cases ha
  · rw [send_mem_sendActions ha]
    have hhash : ((s.checkPointVote E p).encode E s.cfg.keyPair).hash = p.hash := toHash_val p.hash
    rw [hhash, hp]
    rfl

/-- The checkpoint messages of a step are those of results and of executed proposals on the chain. -/
theorem Emits.checkPoint {s : Node} {l : Label} {dst : Option NodeID} {m : PBFTMessage} {data : Bytes}
    (h : Emits E s l (.send dst (.pbft m) data)) (hm : m.packetType = .CheckPoint)
    (happlied : ∀ r ∈ s.applied, r.success = true →
      start < r.executedProposal.index ∧ r.executedProposal.hash = hash r.executedProposal.index)
    (hcheck : ∀ i c p, s.caches.find? i = some c → c.checkpointProposal = some p → p.hash = hash p.index) :
    m.hash = hash m.index := by
  cases h with
  | neutral _ h => simp [Action.neutral, hm] at h
  | preCommit hc hm' hp henough ha =>
    simp only [PBFTCache.precommitActions, List.mem_cons] at ha
    rcases ha with ha | ha | ha
    · cases ha
    · cases ha
    · rw [send_mem_sendActions ha] at hm
      cases hm
  | vote ha =>
    simp only [voteActions, List.mem_cons] at ha
    rcases ha with ha | ha
    · cases ha
    · rw [send_mem_sendActions ha] at hm
      cases hm
  | newView h ha =>
    obtain ⟨v, hv⟩ := sendActions_pbft ha
    cases hv
  | sendViewChange ha =>
    obtain ⟨v, hv⟩ := sendActions_pbft ha
    cases hv
  | @announce r rest _ h hs ha =>
    rcases List.mem_cons.1 ha with ha | ha
    · cases ha
    · exact checkPointActions_hash (happlied r (by rw [h]; exact List.mem_cons_self) hs).2 ha
  | resend hc hp ha => exact checkPointActions_hash (hcheck _ _ _ hc hp) ha

theorem Executes.checkPoints_step {l : Label} {s t : Node} (h : Prim E l s t) (hl : l.OnChain start hash)
    (hs : Executes E start hash s) (i : Int) (c : PBFTCache) (p : PBFTProposal)
    (hc : t.caches.find? i = some c) (hp : c.checkpointProposal = some p) :
    p.index = i ∧ start < p.index ∧ p.hash = hash p.index := by
  rcases (h.cacheStep hc).checkpointProposal hp with ⟨q, hq, heq⟩ | ⟨rfl, hindex⟩
  · cases hold : s.caches.find? i with
    | none =>
      rw [hold] at hq
      cases hq
    | some d =>
      rw [hold, Option.getD_some] at hq
      have hd := hs.checkPoints i d q hold hq
      simp only [PBFTProposal.index, PBFTProposal.hash, heq] at hd ⊢
      exact hd
  · exact ⟨hindex, hl.1, hl.2⟩

theorem Executes.lastApplied {s : Node} (hs : Executes E start hash s) {i : Int} {p : PBFTProposal}
    (h : s.getAppliedCheckPointProposal i = some p) : p.index = i ∧ start ≤ p.index ∧ p.hash = hash p.index := by
  unfold Node.getAppliedCheckPointProposal at h
  split at h
  · rename_i hi
    obtain ⟨hstart, hhash⟩ := hs.committed p h
    refine ⟨?_, hstart, hhash⟩
    rw [hi, Config.committedIndex, h]
    rfl
  · obtain ⟨c, hc, hp⟩ := Option.bind_eq_some_iff.1 h
    obtain ⟨hindex, hstart, hhash⟩ := hs.checkPoints i c p hc hp
    exact ⟨hindex, hstart.le, hhash⟩

theorem Executes.onExecuted {s : Node} (hs : Executes E start hash s) (i : Nat)
    (error : Bool) : Executes E start hash (s.onExecuted E i error) := by
  have herase : ∀ e ∈ s.executions.eraseIdx i, start ≤ e.lastApplied.index ∧
      e.proposal.index = e.lastApplied.index + 1 ∧ e.lastApplied.hash = hash e.lastApplied.index ∧
      ExtendsChain E hash e.proposal := fun e he => hs.executions e ((List.eraseIdx_sublist _ _).subset he)
  unfold Node.onExecuted
  split
  · exact hs
  · rename_i e he
    obtain ⟨hstart, hindex, hparent, hextends⟩ := hs.executions e (List.mem_of_getElem? he)
    dsimp only
    split
    · exact ⟨hs.committed, hs.expected, hs.queue, hs.checkPoints, herase, hs.applied, hs.log⟩
    · rename_i r happly
      split
      · exact ⟨hs.committed, hs.expected, hs.queue, hs.checkPoints, herase, hs.applied, hs.log⟩
      · refine ⟨hs.committed, hs.expected, hs.queue, hs.checkPoints, herase, fun r' hr' hsucc => ?_, hs.log⟩
        rcases List.mem_append.1 hr' with hr' | hr'
        · exact hs.applied r' hr' hsucc
        · obtain rfl := List.mem_singleton.1 hr'
          exact applyProposal_onChain hstart hindex hparent hextends happly hsucc

theorem Prim.executes {l : Label} {s t : Node} (h : Prim E l s t)
    (hl : l.OnChain start hash) (hpush : PushesChain E start hash t.log) (hs : Executes E start hash s) :
    Executes E start hash t := by
  obtain ⟨hcommitted, hexpected⟩ := h.cfgStep.onChain hl hs.committed hs.expected
  have hcheck := Executes.checkPoints_step h hl hs
  have hlog : ∀ dst m data, Action.send dst (.pbft m) data ∈ t.log → m.packetType = .CheckPoint →
      m.hash = hash m.index := by
    intro dst m data hmem hm
    obtain ⟨k, hk, hemits⟩ := h.log
    rw [hk] at hmem
    rcases List.mem_append.1 hmem with hmem | hmem
    · exact hs.log dst m data hmem hm
    · exact (hemits _ hmem).checkPoint hm hs.applied fun i c p hc hp => (hs.checkPoints i c p hc hp).2.2
  by_cases hpipe : l.pipeline = true
  · cases h with
    | @push _ source p h =>
      refine ⟨hcommitted, hexpected, fun p' hp' => ?_, hcheck, hs.executions, hs.applied, hlog⟩
      rcases mem_pushQueue hp' with rfl | hp'
      · exact hpush p' (List.mem_append_right _ List.mem_cons_self)
      · exact hs.queue p' hp'
    | unmark _ h => exact ⟨hcommitted, hexpected, hs.queue, hcheck, hs.executions, hs.applied, hlog⟩
    | expire => exact ⟨hcommitted, hexpected, hs.queue, hcheck, hs.executions, hs.applied, hlog⟩
    | queue _ hq =>
      exact ⟨hcommitted, hexpected, fun p hp => hs.queue p (hq p hp), hcheck, hs.executions, hs.applied, hlog⟩
    | @apply _ p lastApplied rest hq hindex hlast hx =>
      have hcore := (s.takeProposal p rest).applyStateMachine_core lastApplied p
      have hqueue : ((s.takeProposal p rest).applyStateMachine lastApplied p).committedQueue = rest :=
        congrArg Core.committedQueue hcore
      have hexecs : ((s.takeProposal p rest).applyStateMachine lastApplied p).executions =
          s.executions ++ [{ lastApplied := lastApplied, proposal := p }] := congrArg Core.executions hcore
      have happ : ((s.takeProposal p rest).applyStateMachine lastApplied p).applied = s.applied :=
        congrArg Core.applied hcore
      refine ⟨hcommitted, hexpected, fun p' hp' => ?_, hcheck, fun e he => ?_, fun r hr => ?_, hlog⟩
      · rw [hqueue] at hp'
        exact hs.queue p' (by rw [hq]; exact List.mem_cons_of_mem _ hp')
      · rw [hexecs] at he
        rcases List.mem_append.1 he with he | he
        · exact hs.executions e he
        · rw [List.mem_singleton.1 he]
          obtain ⟨hi, hstart, hhash⟩ := hs.lastApplied hlast
          have hprev : p.index = lastApplied.index + 1 := by omega
          exact ⟨hstart, hprev, hhash, hs.queue p (by rw [hq]; exact List.mem_cons_self) (by omega)⟩
      · rw [happ] at hr
        exact hs.applied r hr
    | executed _ i error => exact hs.onExecuted i error
    | @announce _ r rest h hsucc ha =>
      refine ⟨hcommitted, hexpected, hs.queue, hcheck, hs.executions, fun r' hr' hsucc' => ?_, hlog⟩
      rcases List.mem_cons.1 hr' with rfl | hr'
      · exact hs.applied r (by rw [h]; exact List.mem_cons_self) hsucc
      · exact hs.applied r' (by rw [h]; exact List.mem_cons_of_mem _ hr') hsucc'
    | settle _ h =>
      refine ⟨hcommitted, hexpected, hs.queue, hcheck, hs.executions, fun r' hr' => ?_, hlog⟩
      exact hs.applied r' (by rw [h]; exact List.mem_cons_of_mem _ hr')
    | _ => cases hpipe
  · obtain ⟨hq, -, he, ha⟩ := h.pipeline_same (by simpa using hpipe)
    exact ⟨hcommitted, hexpected, by rw [hq]; exact hs.queue, hcheck, by rw [he]; exact hs.executions,
      by rw [ha]; exact hs.applied, hlog⟩

theorem PushesChain.earlier {log k : List Action} (h : PushesChain E start hash (log ++ k)) : PushesChain E start hash log :=
  fun p hp => h p (List.mem_append_left _ hp)

theorem Executes.steps {A : Label → Prop} {s t : Node}
    (hA : ∀ l, A l → l.OnChain start hash) (h : Steps E A s t) (hpush : PushesChain E start hash t.log)
    (hs : Executes E start hash s) : Executes E start hash t := by
  refine Labelled.Steps.preserves (I := fun u => PushesChain E start hash u.log → Executes E start hash u)
    (fun l u v hl hp hu hpush => ?_) h (fun _ => hs) hpush
  obtain ⟨k, hk, -⟩ := hp.log
  exact hp.executes (hA l hl) hpush (hu (PushesChain.earlier (k := k) (hk ▸ hpush)))

theorem Executes.step {s t : Node} {e : Event} (he : OnChain start hash e)
    (h : step E s e = some t) (hpush : PushesChain E start hash t.log) (hs : Executes E start hash s) :
    Executes E start hash t := by
  refine Executes.steps (fun l hl => ?_) (step_steps h) hpush hs
  cases l with
  | ledger b =>
    rcases hl with rfl | rfl
    · exact he
    · exact he
  | setCheckPoint p =>
    obtain ⟨r, ⟨-, rest, hr⟩, hsucc, rfl⟩ := hl
    exact hs.applied r (by rw [hr]; exact List.mem_cons_self) hsucc
  | _ => trivial

theorem initNode_executes {keyPair : KeyPair} {l : LedgerConfig} {state : List PBFTProposal} {s₀ : Node}
    (hfirst : l.hash = hash l.blockNumber)
    (hinit : initNode E keyPair l state = some s₀) (hpush : PushesChain E l.blockNumber hash s₀.log) :
    Executes E l.blockNumber hash s₀ := by
  let A : Label → Prop := fun label => label.OnChain l.blockNumber hash
  have hA : ∀ label, A label → label.OnChain l.blockNumber hash := fun _ h => h
  obtain ⟨s, hsteps, hs⟩ := initNode_steps (A := A) trivial trivial ⟨le_refl _, hfirst⟩ trivial (fun _ _ => trivial) hinit
  have hstart : PushesChain E l.blockNumber hash s.log → Executes E l.blockNumber hash s := fun hpush => by
    refine Executes.steps hA hsteps hpush ⟨?_, Or.inl rfl, ?_, ?_, ?_, ?_, ?_⟩
    · intro p hp
      cases hp
    · intro p hp
      cases hp
    · intro i c p hc
      cases hc
    · intro e he
      cases he
    · intro r hr
      cases hr
    · intro dst m data hmem
      cases hmem
  rcases hs with rfl | ⟨last, -, rfl⟩
  · exact hstart hpush
  · have h := hstart hpush
    exact ⟨h.committed, h.expected, h.queue, h.checkPoints, h.executions, h.applied, h.log⟩

/-- Over a run in which every pushed proposal extends one chain of executed hashes, and every block reported by the
ledger or the sync module is on it, a node sends no two checkpoint messages with one index and different hashes. -/
theorem checkPoint_unique {keyPair : KeyPair} {l : LedgerConfig} {state : List PBFTProposal} {s₀ s : Node}
    (hinit : initNode E keyPair l state = some s₀)
    (hfirst : l.hash = hash l.blockNumber) (hrun : ReachableBy E (OnChain l.blockNumber hash) s₀ s)
    (hpush : PushesChain E l.blockNumber hash s.log) : NoEquivocation s.log := by
  have hexec : Executes E l.blockNumber hash s := by
    induction hrun with
    | refl => exact initNode_executes hfirst hinit hpush
    | step e _ he hstep ih =>
      obtain ⟨k, hk⟩ := (step_steps hstep).log
      exact Executes.step he hstep hpush (ih (PushesChain.earlier (k := k) (hk ▸ hpush)))
  intro dst dst' m m' data data' hmem hmem' hm hm' hindex
  rw [hexec.log dst m data hmem hm, hexec.log dst' m' data' hmem' hm', hindex]

end

/-- The hashes of a chain of one block on an empty ledger. -/
def toyChain (i : Int) : HashType :=
  if i = 1 then (Toy.env.execute [1, 7] (some (0, zeroHash))).hash else zeroHash

/-- The only node of a list of one seals a block, which is executed and announced, and again when its timer fires. -/
def toyAnnounced : Option Node :=
  (Toy.atOnce [.submitProposal false [1, 7] 1 (Toy.checksum [1, 7]), .executed 0 false, .proposalApplied, .proposalApplied,
    .checkPointTimeout 1 true]).foldlM (step Toy.env) (Toy.node 0 [1])

def Action.isCheckPoint : Action → Bool
  | .send _ (.pbft m) _ => m.packetType = .CheckPoint
  | _ => false

def extendsToyChain : Action → Bool
  | .pushCommitted p =>
    (Toy.env.execute p.data (some (p.index - 1, toyChain (p.index - 1)))).number = p.index &&
      (Toy.env.execute p.data (some (p.index - 1, toyChain (p.index - 1)))).hash = toyChain p.index
  | _ => true

theorem toyAnnounced_unique : ∃ s, toyAnnounced = some s ∧
    (∃ dst m data, Action.send dst (.pbft m) data ∈ s.log ∧ m.packetType = .CheckPoint) ∧ NoEquivocation s.log := by
  have hinit : initNode Toy.env (Toy.keyPair 0) { blockNumber := 0, hash := zeroHash, consensusNodeList := Toy.nodes [1] }
      [] = some (Toy.node 0 [1]) := by decide +kernel
  obtain ⟨s, hs⟩ : ∃ s, toyAnnounced = some s := Option.isSome_iff_exists.1 (by decide +kernel)
  have hsent : (toyAnnounced.elim false fun s => s.log.any Action.isCheckPoint) = true := by decide +kernel
  have hpushed : (toyAnnounced.elim false fun s => s.log.all extendsToyChain) = true := by decide +kernel
  simp only [hs, Option.elim_some, List.any_eq_true, List.all_eq_true] at hsent hpushed
  have hrun : ReachableBy Toy.env (OnChain 0 toyChain) (Toy.node 0 [1]) s := by
    refine ReachableBy.refl.foldlM (fun e he => ?_) hs
    simp only [Toy.atOnce, List.flatMap_cons, List.flatMap_nil, List.cons_append, List.nil_append, List.append_nil,
      List.mem_cons, List.not_mem_nil, or_false] at he
    rcases he with rfl | rfl | rfl | rfl | rfl | rfl <;> trivial
  have hpush : PushesChain Toy.env 0 toyChain s.log := fun p hp _ => by
    simpa [ExtendsChain, extendsToyChain] using hpushed _ hp
  refine ⟨s, hs, ?_, checkPoint_unique hinit rfl hrun hpush⟩
  obtain ⟨a, ha, hmatch⟩ := hsent
  unfold Action.isCheckPoint at hmatch
  split at hmatch
  · rename_i dst m data
    exact ⟨dst, m, data, ha, by simpa using hmatch⟩
  · cases hmatch

def toyCheckPoint (sender : UInt8) : Bytes :=
  (PBFTCodec.encode Toy.env (Toy.keyPair sender) 0 (.pbft (populateVote Toy.env (Toy.keyPair sender) .CheckPoint 0 0 0
    sender.toNat.toUInt64 (Toy.proposal 7)))).1

def toyResponse (sender content : UInt8) : Bytes :=
  (PBFTCodec.encode Toy.env (Toy.keyPair sender) 0 (.pbft { packetType := .CommittedProposalResponse,
                                                            raw := { proposals := [Toy.proposal content] } })).1

/-- Node 3 asks two peers for the proposal of index 1, gets two different blocks and executes both. -/
def toyFetchTwo : Option Node :=
  (Toy.atOnce [.timeout, .receive [0] (toyCheckPoint 0) [], .worker, .receive [1] (toyCheckPoint 1) [], .worker,
    .committedResponse 0 (some (toyResponse 0 7)), .committedResponse 0 (some (toyResponse 1 8)),
    .proposalLoaded 0 (.result true), .proposalLoaded 0 (.result true), .executed 0 false, .executed 0 false,
    .proposalApplied, .proposalApplied, .proposalApplied]).foldlM (step Toy.env) (Toy.node 3 [1, 1, 1, 1])

def equivocates : Action → Action → Bool
  | .send _ (.pbft m) _, .send _ (.pbft m') _ =>
    m.packetType = .CheckPoint && m'.packetType = .CheckPoint && m.index = m'.index && m.hash ≠ m'.hash
  | _, _ => false

theorem toyFetchTwo_equivocates : ∃ s, Reachable Toy.env (Toy.node 3 [1, 1, 1, 1]) s ∧ ¬NoEquivocation s.log := by
  obtain ⟨s, hs⟩ : ∃ s, toyFetchTwo = some s := Option.isSome_iff_exists.1 (by decide +kernel)
  have hrun : ReachableBy Toy.env (fun _ => True) (Toy.node 3 [1, 1, 1, 1]) s :=
    ReachableBy.refl.foldlM (fun _ _ => trivial) hs
  have hsent : (toyFetchTwo.elim false fun s => s.log.any fun a => s.log.any fun b =>
      equivocates a b) = true := by decide +kernel
  simp only [hs, Option.elim_some, List.any_eq_true] at hsent
  obtain ⟨a, ha, b, hb, hmatch⟩ := hsent
  refine ⟨s, hrun.reachable, fun hno => ?_⟩
  unfold equivocates at hmatch
  split at hmatch
  · rename_i m data _ m' data'
    simp only [Bool.and_eq_true, decide_eq_true_eq] at hmatch
    obtain ⟨⟨⟨hm, hm'⟩, hindex⟩, hne⟩ := hmatch
    exact hne (hno _ _ _ _ _ _ ha hb hm hm' hindex)
  · cases hmatch

end BcosPbft
