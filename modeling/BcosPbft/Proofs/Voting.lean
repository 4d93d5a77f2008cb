import BcosPbft.Proofs.Prepare

/-! What makes a node store a pre-prepare or vote for one: a good answer of the verifier, a block of its own sealer, and
a prepare vote that completes a quorum. Every other event stores and votes for nothing. -/

namespace BcosPbft

/-- The index of the pre-prepare that an action stores, or of the prepare or commit vote that it sends. -/
def Action.supports : Action → Option Int
  | .storePrePrepare _ m => some m.index
  | .send _ (.pbft m) _ => if m.packetType = .PreparePacket ∨ m.packetType = .CommitPacket then some m.index else none
  | _ => none

theorem Action.neutral_supports {a : Action} (h : a.neutral = true) : a.supports = none := by
  cases a with
  | send dst packet data =>
    cases packet with
    | pbft m =>
      simp only [neutral, Bool.and_eq_true, decide_eq_true_eq] at h
      simp only [supports]
      exact if_neg (fun hvote => hvote.elim h.1.1 h.1.2)
    | _ => rfl
  | storePrePrepare => cases h
  | _ => rfl

theorem supports_sendActions {E : Env} {keyPair : KeyPair} {dst : Option NodeID} {m : PBFTMessage} {a : Action} {i : Int}
    (ha : a ∈ sendActions E keyPair dst (.pbft m)) (hi : i ∈ a.supports) : i = m.index := by
  rcases List.mem_append.1 ha with ha | ha
  · obtain ⟨r, -, rfl⟩ := List.mem_map.1 ha
    cases hi
  · obtain rfl := List.mem_singleton.1 ha
    simp only [Action.supports, Option.mem_def] at hi
    split_ifs at hi
    exact (Option.some.inj hi).symm

theorem supports_sendActions_other {E : Env} {keyPair : KeyPair} {dst : Option NodeID} {msg : Message} {a : Action}
    (hmsg : ∀ m, msg ≠ .pbft m) (ha : a ∈ sendActions E keyPair dst msg) : a.supports = none := by
  rcases List.mem_append.1 ha with ha | ha
  · obtain ⟨r, -, rfl⟩ := List.mem_map.1 ha
    rfl
  · obtain rfl := List.mem_singleton.1 ha
    cases msg with
    | pbft m => exact absurd rfl (hmsg m)
    | viewChange m =>
      simp only
      split <;> rfl
    | newView m =>
      simp only
      split <;> rfl
    | request m => rfl

/-- Between two states nothing is stored or voted for at an index in `P`. -/
def Spares (P : Int → Prop) (s t : Node) : Prop := ∃ k, t.log = s.log ++ k ∧ ∀ a ∈ k, ∀ i ∈ a.supports, ¬P i

namespace Spares

variable {P : Int → Prop} {s t u : Node}

theorem same (h : t.log = s.log) : Spares P s t := ⟨[], by rw [h, List.append_nil], by simp⟩

theorem trans (h : Spares P s t) (h' : Spares P t u) : Spares P s u := by
  obtain ⟨k, hk, hspare⟩ := h
  obtain ⟨l, hl, hspare'⟩ := h'
  refine ⟨k ++ l, by rw [hl, hk, List.append_assoc], fun a ha => ?_⟩
  rcases List.mem_append.1 ha with ha | ha
  · exact hspare a ha
  · exact hspare' a ha

theorem quiet (h : Quiet s t) : Spares P s t := by
  obtain ⟨k, hk, hn⟩ := h.log
  refine ⟨k, hk, fun a ha i hi => ?_⟩
  rw [Action.neutral_supports (hn a ha)] at hi
  cases hi

end Spares

def Label.silent : Label → Bool
  | .store _ | .vote _ | .preCommit => false
  | _ => true

theorem Label.silent_open : Open (fun l => l.silent = true) := by
  intro l hl
  cases l <;> first | rfl | cases hl

theorem supports_checkPointActions {E : Env} {s : Node} {p : PBFTProposal} {a : Action} (ha : a ∈ checkPointActions E s p) :
    a.supports = none := by
  rcases List.mem_cons.1 ha with rfl | ha
  · rfl
  rcases List.mem_append.1 ha with ha | ha
  · obtain ⟨r, -, rfl⟩ := List.mem_map.1 ha
    rfl
  · obtain rfl := List.mem_singleton.1 ha
    rfl

theorem Emits.silent {E : Env} {s : Node} {l : Label} {a : Action} (h : Emits E s l a) (hl : l.silent = true) :
    a.supports = none := by
  cases h with
  | neutral _ hn => exact Action.neutral_supports hn
  | store | vote | preCommit | reportPreCommit => cases hl
  | announce h hs ha =>
    rcases List.mem_cons.1 ha with rfl | ha
    · rfl
    · exact supports_checkPointActions ha
  | resend hc hp ha => exact supports_checkPointActions ha
  | newView h ha => exact supports_sendActions_other (fun _ => Message.noConfusion) ha
  | sendViewChange ha => exact supports_sendActions_other (fun _ => Message.noConfusion) ha
  | _ => rfl

theorem Steps.spares {E : Env} {P : Int → Prop} {A : Label → Prop} {s t : Node} (h : Steps E A s t)
    (hA : ∀ l, A l → l.silent = true) : Spares P s t := by
  refine h.preserves (I := Spares P s) (fun l u v hl hp hu => hu.trans ?_) (.same rfl)
  obtain ⟨k, hk, hemits⟩ := hp.log
  refine ⟨k, hk, fun a ha i hi => ?_⟩
  rw [(hemits a ha).silent (hA l hl)] at hi
  cases hi

/-- The index of the commit vote that `checkAndPreCommit` casts. -/
def PBFTCache.commits (cfg : Config) (c : PBFTCache) : Option Int :=
  if c.precommitted || c.precommitIsCurrent || !c.collectEnoughPrepareReq cfg then none
  else (c.prePrepare.bind PBFTMessage.consensusProposal).map PBFTProposal.index

theorem PBFTCache.commits_eq {cfg : Config} {c : PBFTCache} {m : PBFTMessage} {p : PBFTProposal} (hm : c.prePrepare = some m)
    (hp : m.consensusProposal = some p) (hnot : c.precommitted = false) (hcurrent : c.precommitIsCurrent = false)
    (henough : c.collectEnoughPrepareReq cfg = true) : c.commits cfg = some p.index := by
  unfold commits
  simp [hm, hp, hnot, hcurrent, henough]

theorem PBFTCache.commits_precommitted {cfg : Config} {c : PBFTCache} (h : c.precommitted = true) : c.commits cfg = none := by
  unfold commits
  rw [h]
  rfl

theorem PBFTCache.commits_congr {cfg cfg' : Config} (hview : cfg'.view = cfg.view)
    (hquorum : cfg'.minRequiredQuorum = cfg.minRequiredQuorum) (c : PBFTCache) : c.commits cfg' = c.commits cfg := by
  unfold commits collectEnoughPrepareReq checkPrePrepareProposalStatus collectEnoughQuorum
  rw [hview, hquorum]

/-- No cache is about to cast a commit vote at an index in `P`. -/
def Node.Idle (P : Int → Prop) (s : Node) : Prop :=
  ∀ i c, s.caches.find? i = some c → ∀ j ∈ c.commits s.cfg, ¬P j

theorem Node.Idle.congr {P : Int → Prop} {s t : Node} (hs : s.Idle P) (hcaches : t.caches = s.caches)
    (hview : t.cfg.view = s.cfg.view) (hquorum : t.cfg.minRequiredQuorum = s.cfg.minRequiredQuorum) : t.Idle P := by
  intro i c hc
  rw [hcaches] at hc
  rw [PBFTCache.commits_congr hview hquorum]
  exact hs i c hc

structure Polls (s t : Node) : Prop where
  caches : t.caches = s.caches
  view : t.cfg.view = s.cfg.view
  quorum : t.cfg.minRequiredQuorum = s.cfg.minRequiredQuorum

theorem Prim.polls {E : Env} {l : Label} {s t : Node} (h : Prim E l s t) (hl : l.free = true) : Polls s t := by
  have hcfg : s.cfg.Agrees t.cfg := by
    have hstep := h.cfgStep
    cases s
    cases t
    dsimp only at hstep
    cases hstep with
    | same _ h => exact h
    | _ => cases hl
  refine ⟨?_, hcfg.view, hcfg.required⟩
  cases h with
  | quiet h => exact congrArg Core.caches h.core
  | @apply _ p lastApplied rest hq hindex hlast hx =>
    exact congrArg Core.caches ((s.takeProposal p rest).applyStateMachine_core lastApplied p)
  | push | queue | answer => rfl
  | _ => cases hl

theorem Steps.polls {E : Env} {s t : Node} (h : Steps E (fun l => l.free = true) s t) : Polls s t := by
  refine h.preserves (I := Polls s) (fun l u v hl hp hu => ?_) ⟨rfl, rfl, rfl⟩
  have hstep := hp.polls hl
  exact ⟨hstep.caches.trans hu.caches, hstep.view.trans hu.view, hstep.quorum.trans hu.quorum⟩

theorem Label.free_silent {l : Label} (hl : l.free = true) : l.silent = true := Label.silent_open l hl

theorem supports_precommitActions {E : Env} {cfg : Config} {now i : Int} {c : PBFTCache} {m : PBFTMessage} {p : PBFTProposal}
    {a : Action} (ha : a ∈ c.precommitActions E cfg now m p) (hi : i ∈ a.supports) : i = p.index := by
  rcases List.mem_cons.1 ha with rfl | ha
  · cases hi
  rcases List.mem_cons.1 ha with rfl | ha
  · cases hi
  · have hindex : (PBFTCache.commitVote E cfg now p).index = p.index := (populateProposal_proposal p false).1
    exact (supports_sendActions ha hi).trans hindex

namespace Node

variable {E : Env} {P : Int → Prop} {s : Node}

theorem updateCommitQueue_polls (E : Env) {p : PBFTProposal} (hp : s.Pushes p) :
    Polls s (s.updateCommitQueue p) ∧ Spares P s (s.updateCommitQueue p) := by
  have hsteps : Steps E (fun l => l.free = true) s (s.updateCommitQueue p) :=
    updateCommitQueue_steps s (fun _ hl => hl) (show Label.free (.push .committed p) = true from rfl) fun _ => hp
  exact ⟨hsteps.polls, hsteps.spares fun _ hl => Label.free_silent hl⟩

theorem preCommitAt_idle (E : Env) (i : Int) (hs : s.Idle P) :
    (s.preCommitAt E i).1.Idle P ∧ Spares P s (s.preCommitAt E i).1 := by
  have hcfg := s.preCommitAt_cfg E i
  rcases s.preCommitAt_cases E i with ⟨hfind, hlog⟩ | ⟨c, m, p, k, hc, hm, hp, hnot, hcurrent, henough, hcaches, hlog, hreport⟩
  · refine ⟨fun j d hd => ?_, .same hlog⟩
    rw [hfind] at hd
    rw [hcfg]
    exact hs j d hd
  · have hspare : ¬P p.index := hs i c hc p.index (PBFTCache.commits_eq hm hp hnot hcurrent henough)
    refine ⟨fun j d hd => ?_, c.precommitActions E s.cfg s.utcTime m p ++ k, by rw [hlog, List.append_assoc],
      fun a ha j hj => ?_⟩
    · rw [hcaches, OrdMap.find?_insert] at hd
      rw [hcfg]
      split_ifs at hd
      · obtain rfl := Option.some.inj hd
        rw [PBFTCache.commits_precommitted]
        · exact fun _ hj => by cases hj
        · rcases (c.enterPrecommit E s.cfg s.utcTime m p).checkAndCommit_cases s.cfg with heq | ⟨heq, -⟩ <;> rw [heq] <;> rfl
      · exact hs j d hd
    · rcases List.mem_append.1 ha with ha | ha
      · rw [supports_precommitActions ha hj]
        exact hspare
      · obtain ⟨-, rfl⟩ := hreport a ha
        cases hj

theorem checkAndPreCommitAt_idle (E : Env) (i : Int) (hs : s.Idle P) :
    (s.checkAndPreCommitAt E i).Idle P ∧ Spares P s (s.checkAndPreCommitAt E i) := by
  obtain ⟨hidle, hspare⟩ := preCommitAt_idle E i hs
  unfold checkAndPreCommitAt
  dsimp only
  split
  · exact ⟨hidle, hspare⟩
  · rename_i p hp
    obtain ⟨hpolls, hqueue⟩ := updateCommitQueue_polls (P := P) E (preCommitAt_pushes hp)
    exact ⟨hidle.congr hpolls.caches hpolls.view hpolls.quorum, hspare.trans hqueue⟩

theorem checkAndPreCommit_idle (E : Env) (hs : s.Idle P) :
    (s.checkAndPreCommit E).Idle P ∧ Spares P s (s.checkAndPreCommit E) := by
  unfold checkAndPreCommit
  generalize s.caches.keys = keys
  induction keys generalizing s with
  | nil => exact ⟨hs, .same rfl⟩
  | cons i keys ih =>
    obtain ⟨hidle, hspare⟩ := checkAndPreCommitAt_idle E i hs
    obtain ⟨hrest, hspares⟩ := ih hidle
    exact ⟨hrest, hspare.trans hspares⟩

/-- The votes that an action which is new in the log stands for. -/
def Supports (s t : Node) (i : Int) : Prop := ∃ k, t.log = s.log ++ k ∧ ∃ a ∈ k, i ∈ a.supports

theorem Supports.not_spares {t : Node} {i : Int} (h : Supports s t i) (hspare : Spares P s t) : ¬P i := by
  obtain ⟨k, hk, a, ha, hi⟩ := h
  obtain ⟨l, hl, hspares⟩ := hspare
  obtain rfl := List.append_cancel_left (hk.symm.trans hl)
  exact hspares a ha i hi

theorem Supports.mono {s₀ s t t₁ : Node} {i : Int} (h : Supports s t i) (hs : s₀.log <+: s.log) (ht : t.log <+: t₁.log) :
    Supports s₀ t₁ i := by
  obtain ⟨k, hk, a, ha, hi⟩ := h
  obtain ⟨l, hl⟩ := hs
  obtain ⟨r, hr⟩ := ht
  refine ⟨l ++ k ++ r, ?_, a, ?_, hi⟩
  · rw [← hr, hk, ← hl]
    simp only [List.append_assoc]
  · exact List.mem_append_left _ (List.mem_append_right _ ha)

theorem log_prefix_steps {A : Label → Prop} {t : Node} (h : Steps E A s t) : s.log <+: t.log := by
  refine h.preserves (I := fun u => s.log <+: u.log) (fun l u v _ hp hu => ?_) List.prefix_rfl
  obtain ⟨k, hk, -⟩ := hp.log
  exact hu.trans ⟨k, hk.symm⟩

theorem supports_emit {m : PBFTMessage} {l r : List Action} (keyPair : KeyPair)
    (hm : m.packetType = .PreparePacket ∨ m.packetType = .CommitPacket)
    (hl : l = r ++ sendActions E keyPair none (.pbft m)) : ∃ a ∈ l, m.index ∈ a.supports := by
  refine ⟨.send none (PBFTCodec.encode E keyPair 0 (.pbft m)).2.1 (PBFTCodec.encode E keyPair 0 (.pbft m)).1, ?_, ?_⟩
  · rw [hl]
    exact List.mem_append_right _ (List.mem_append_right _ (List.mem_singleton_self _))
  · have htype : (m.encode E keyPair).packetType = .PreparePacket ∨ (m.encode E keyPair).packetType = .CommitPacket := hm
    simp only [PBFTCodec.encode, Action.supports, if_pos htype]
    rfl

theorem commits_cases {cfg : Config} {c : PBFTCache} {j : Int} (h : c.commits cfg = some j) :
    ∃ m p, c.prePrepare = some m ∧ m.consensusProposal = some p ∧ p.index = j ∧ c.precommitted = false ∧
      c.precommitIsCurrent = false ∧ c.collectEnoughPrepareReq cfg = true := by
  unfold PBFTCache.commits at h
  split_ifs at h with hnot
  simp only [Bool.or_eq_true, Bool.not_eq_true', not_or, Bool.not_eq_true, Bool.not_eq_false] at hnot
  obtain ⟨p, hbind, hindex⟩ := Option.map_eq_some_iff.1 h
  obtain ⟨m, hm, hp⟩ := Option.bind_eq_some_iff.1 hbind
  exact ⟨m, p, hm, hp, hindex, hnot.1.1, hnot.1.2, hnot.2⟩

theorem preCommitAt_supports (E : Env) {i j : Int} {c : PBFTCache} (hc : s.caches.find? i = some c)
    (hj : c.commits s.cfg = some j) : Supports s (s.preCommitAt E i).1 j := by
  obtain ⟨m, p, hm, hp, rfl, hnot, hcurrent, henough⟩ := commits_cases hj
  have hcheck : c.checkAndPreCommit E s.cfg s.utcTime = _ :=
    PBFTCache.checkAndPreCommit_enters hm hp hnot hcurrent henough
  have hvote : ∃ a ∈ c.precommitActions E s.cfg s.utcTime m p, p.index ∈ a.supports := by
    obtain ⟨a, ha, hi⟩ := supports_emit (E := E) (m := PBFTCache.commitVote E s.cfg s.utcTime p)
      (l := c.precommitActions E s.cfg s.utcTime m p)
        (r := [.precommit c.index m, .sign (.proposal p.hash)]) s.cfg.keyPair (Or.inr rfl) rfl
    rw [show (PBFTCache.commitVote E s.cfg s.utcTime p).index = p.index from (populateProposal_proposal p false).1] at hi
    exact ⟨a, ha, hi⟩
  obtain ⟨a, ha, hi⟩ := hvote
  unfold preCommitAt
  rw [hc]
  dsimp only
  rw [hcheck]
  obtain ⟨k, hk, -⟩ := reported_log
    ({ s with caches := s.caches.insert i ((c.enterPrecommit E s.cfg s.utcTime m p).checkAndCommit s.cfg).1 }.emit
      (c.precommitActions E s.cfg s.utcTime m p)) ((c.enterPrecommit E s.cfg s.utcTime m p).checkAndCommit s.cfg).1
    ((c.enterPrecommit E s.cfg s.utcTime m p).checkAndCommit s.cfg).2
  refine ⟨c.precommitActions E s.cfg s.utcTime m p ++ k, ?_, a, List.mem_append_left _ ha, hi⟩
  rw [hk, ← List.append_assoc]
  rfl

theorem checkAndPreCommitAt_polls (E : Env) (s : Node) {i k : Int} (hk : i ≠ k) :
    (s.checkAndPreCommitAt E k).caches.find? i = s.caches.find? i ∧ (s.checkAndPreCommitAt E k).cfg.view = s.cfg.view ∧
      (s.checkAndPreCommitAt E k).cfg.minRequiredQuorum = s.cfg.minRequiredQuorum ∧
      (s.preCommitAt E k).1.log <+: (s.checkAndPreCommitAt E k).log := by
  have hfind : (s.preCommitAt E k).1.caches.find? i = s.caches.find? i := by
    rcases s.preCommitAt_cases E k with ⟨hfind, -⟩ | ⟨c, m, p, l, -, -, -, -, -, -, hcaches, -, -⟩
    · exact hfind i
    · rw [hcaches, OrdMap.find?_insert_ne _ _ hk]
  have hcfg := s.preCommitAt_cfg E k
  unfold checkAndPreCommitAt
  dsimp only
  split
  · exact ⟨hfind, by rw [hcfg], by rw [hcfg], List.prefix_rfl⟩
  · rename_i p hp
    obtain ⟨hpolls, l, hl, -⟩ := updateCommitQueue_polls (P := fun _ => False) E (preCommitAt_pushes hp)
    refine ⟨by rw [hpolls.caches, hfind], by rw [hpolls.view, hcfg], by rw [hpolls.quorum, hcfg], l, hl.symm⟩

theorem checkAndPreCommit_prefix (E : Env) (s : Node) : s.log <+: (s.checkAndPreCommit E).log :=
  log_prefix_steps (checkAndPreCommit_steps (E := E) (A := fun _ => True) s (fun _ _ => trivial) trivial)

/-- A cache with its prepare quorum casts its commit vote. -/
theorem checkAndPreCommit_supports (E : Env) {i j : Int} {c : PBFTCache} (hc : s.caches.find? i = some c)
    (hj : c.commits s.cfg = some j) : Supports s (s.checkAndPreCommit E) j := by
  have hmem : i ∈ s.caches.keys := OrdMap.mem_keys.2 ⟨c, hc⟩
  unfold checkAndPreCommit
  generalize s.caches.keys = keys at hmem
  induction keys generalizing s with
  | nil => cases hmem
  | cons k keys ih =>
    have hrest : (s.checkAndPreCommitAt E k).log <+: (keys.foldl (checkAndPreCommitAt E) (s.checkAndPreCommitAt E k)).log :=
      log_prefix_steps (E := E) (A := fun _ => True)
        (.foldl (fun u i => checkAndPreCommitAt_steps u (fun _ _ => trivial) trivial i) keys _)
    by_cases hk : i = k
    · subst hk
      have hqueue : (s.preCommitAt E i).1.log <+: (s.checkAndPreCommitAt E i).log := by
        obtain ⟨-, -, -, hlog⟩ := checkAndPreCommitAt_polls E s (i := i + 1) (k := i) (by omega)
        exact hlog
      exact (preCommitAt_supports E hc hj).mono List.prefix_rfl (hqueue.trans hrest)
    · obtain ⟨hfind, hview, hquorum, hlog⟩ := checkAndPreCommitAt_polls E s hk
      have hprefix : s.log <+: (s.checkAndPreCommitAt E k).log := by
        have hpre : s.log <+: (s.preCommitAt E k).1.log :=
          log_prefix_steps (E := E) (A := fun _ => True) (.single trivial (.preCommit s k))
        exact hpre.trans hlog
      refine (ih (hfind.trans hc) ?_ ((List.mem_cons.1 hmem).resolve_left hk)).mono hprefix List.prefix_rfl
      rw [PBFTCache.commits_congr hview hquorum]
      exact hj

def accepts (s : Node) (m : PBFTMessage) (newView : Bool) : Bool :=
  !s.isSyncingHigher && !s.executingProposals.contains m.hash && s.checkPrePrepareMsg m &&
    (newView || s.cfg.leaderIndex m.index = m.generatedFrom)

/-- The node after it has stored a pre-prepare and counted its own prepare vote for it. -/
def supporting (E : Env) (s : Node) (m : PBFTMessage) : Node :=
  (s.addPrePrepareCache m).addPrepareCache (prepareVoteOf E s.cfg s.utcTime m)

theorem handlePrePrepareMsg_declined {m : PBFTMessage} {newView : Bool} (h : s.accepts m newView = false) :
    s.handlePrePrepareMsg E m false newView false = (s, false) := by
  unfold handlePrePrepareMsg
  unfold accepts at h
  split_ifs with hsync hexec hcheck hleader hsig hverify
  · rfl
  · rfl
  · rfl
  · rfl
  · simp at hsig
  · simp_all
  · simp at hverify

theorem handlePrePrepareMsg_accepted {m : PBFTMessage} {newView : Bool} (h : s.accepts m newView = true) :
    s.handlePrePrepareMsg E m false newView false =
      ((((s.asyncResetTxsFlag E (m.consensusProposal.getD {}).data true).addPrePrepareCache m).broadcastPrepareMsg
        E m).checkAndPreCommit E, true) := by
  unfold handlePrePrepareMsg
  unfold accepts at h
  simp only [Bool.and_eq_true, Bool.not_eq_true'] at h
  obtain ⟨⟨⟨hsync, hexec⟩, hcheck⟩, hleader⟩ := h
  split_ifs with h1 h2 h3 h4 h5 h6
  · rw [hsync] at h1
    cases h1
  · rw [hexec] at h2
    cases h2
  · rw [hcheck] at h3
    cases h3
  · simp_all
  · simp at h5
  · rfl
  · simp at h6

theorem supporting_congr {t : Node} (m : PBFTMessage) (hcaches : t.caches = s.caches) (hcfg : t.cfg = s.cfg)
    (htime : t.utcTime = s.utcTime) :
    (t.supporting E m).caches = (s.supporting E m).caches ∧ (t.supporting E m).cfg = (s.supporting E m).cfg := by
  have hmax : ∀ (u : Node) (i : Int), (u.notifyMaxProposalIndex i).caches = u.caches ∧
    (u.notifyMaxProposalIndex i).cfg = u.cfg := by
    intro u i
    unfold notifyMaxProposalIndex
    split_ifs <;> exact ⟨rfl, rfl⟩
  have hadd : ∀ (u v : Node) (m : PBFTMessage) (f : PBFTCache → PBFTCache × List Action), u.caches = v.caches →
      (u.addCache m f).caches = (v.addCache m f).caches := by
    intro u v m f h
    change u.caches.insert m.index (f ((u.caches.find? m.index).getD _)).1 = _
    rw [h]
    rfl
  have hstored : (t.addPrePrepareCache m).caches = (s.addPrePrepareCache m).caches := by
    unfold addPrePrepareCache
    rw [(hmax _ _).1, (hmax _ _).1]
    exact hadd t s m _ hcaches
  have hstoredCfg : (t.addPrePrepareCache m).cfg = (s.addPrePrepareCache m).cfg := by
    unfold addPrePrepareCache
    rw [(hmax _ _).2, (hmax _ _).2]
    exact hcfg
  unfold supporting addPrepareCache
  rw [hcfg, htime, hstoredCfg]
  exact ⟨hadd _ _ _ _ hstored, hstoredCfg⟩

theorem supporting_cfg (E : Env) (s : Node) (m : PBFTMessage) : (s.supporting E m).cfg = s.cfg := by
  change (s.addPrePrepareCache m).cfg = s.cfg
  unfold addPrePrepareCache notifyMaxProposalIndex
  split_ifs <;> rfl

theorem addPrePrepareCache_utcTime (s : Node) (m : PBFTMessage) : (s.addPrePrepareCache m).utcTime = s.utcTime := by
  unfold addPrePrepareCache notifyMaxProposalIndex
  split_ifs <;> rfl

theorem addPrePrepareCache_spares {m : PBFTMessage} (hm : ¬P m.index) : Spares P s (s.addPrePrepareCache m) := by
  refine Spares.trans ?_ (.quiet (notifyMaxProposalIndex_quiet _ _))
  refine ⟨_, rfl, fun a ha i hi => ?_⟩
  unfold PBFTCache.addPrePrepareCache at ha
  dsimp only at ha
  split at ha
  · obtain rfl := List.mem_singleton.1 ha
    obtain rfl := Option.some.inj hi
    exact hm
  · cases ha

theorem asyncResetTxsFlag_kept (E : Env) (s : Node) (data : Bytes) :
    (s.asyncResetTxsFlag E data true).caches = s.caches ∧ (s.asyncResetTxsFlag E data true).cfg = s.cfg ∧
      (s.asyncResetTxsFlag E data true).utcTime = s.utcTime ∧
      (s.asyncResetTxsFlag E data true).executingProposals = s.executingProposals := by
  unfold asyncResetTxsFlag
  split_ifs <;> exact ⟨rfl, rfl, rfl, rfl⟩

/-- A verified pre-prepare is stored and voted for, and then the node looks for prepare quorums. -/
theorem handlePrePrepareMsg_polls {m : PBFTMessage} {newView : Bool} (h : s.accepts m newView = true) : ∃ u,
    (s.handlePrePrepareMsg E m false newView false).1 = (u.checkAndPreCommit E).checkAndPreCommit E ∧
      u.caches = (s.supporting E m).caches ∧ u.cfg = (s.supporting E m).cfg ∧ Supports s u m.index ∧
      ∀ P : Int → Prop, ¬P m.index → Spares P s u := by
  rw [handlePrePrepareMsg_accepted h]
  dsimp only
  obtain ⟨hkept, hkeptCfg, htime, -⟩ := asyncResetTxsFlag_kept E s (m.consensusProposal.getD {}).data
  have hquiet := asyncResetTxsFlag_quiet (E := E) s (m.consensusProposal.getD {}).data true
  generalize s.asyncResetTxsFlag E (m.consensusProposal.getD {}).data true = v at hkept hkeptCfg htime hquiet
  obtain ⟨hcaches, hcfg⟩ := supporting_congr (E := E) m hkept hkeptCfg htime
  -- the vote is made with the clock and the configuration from before
  have hvote : (v.addPrePrepareCache m).addPrepareCache (encodedMsg E (v.addPrePrepareCache m).cfg.keyPair
      ((v.addPrePrepareCache m).prepareVote E m)) = v.supporting E m := by
    have hsame : (v.addPrePrepareCache m).cfg = v.cfg := supporting_cfg E v m
    unfold supporting prepareVoteOf
    rw [hsame]
    unfold prepareVote
    rw [hsame, addPrePrepareCache_utcTime]
  have hstored : Spares (· ≠ m.index) s (v.supporting E m) :=
    (Spares.quiet hquiet).trans ((addPrePrepareCache_spares (by simp)).trans (.same (List.append_nil _)))
  unfold broadcastPrepareMsg
  dsimp only
  rw [hvote]
  refine ⟨_, rfl, hcaches, hcfg, ?_, fun P hP => ?_⟩
  · obtain ⟨k, hk, -⟩ := hstored
    obtain ⟨a, ha, hi⟩ := supports_emit (E := E) (m := (v.addPrePrepareCache m).prepareVote E m)
      (r := [.sign (.proposal (m.consensusProposal.getD {}).hash)]) (v.supporting E m).cfg.keyPair (Or.inl rfl) rfl
    refine Supports.mono (s := v.supporting E m) ⟨_, rfl, a, ha, hi⟩ ⟨k, hk.symm⟩ List.prefix_rfl
  · refine ((Spares.quiet hquiet).trans ((addPrePrepareCache_spares hP).trans (.same (List.append_nil _)))).trans
      ⟨_, rfl, fun a ha i hi => ?_⟩
    rcases List.mem_cons.1 ha with rfl | ha
    · cases hi
    · rw [supports_sendActions ha hi]
      exact hP

theorem handlePrePrepareMsg_spares {m : PBFTMessage} {newView : Bool}
    (hm : s.accepts m newView = true → ¬P m.index ∧ (s.supporting E m).Idle P) :
    Spares P s (s.handlePrePrepareMsg E m false newView false).1 := by
  by_cases haccepts : s.accepts m newView = true
  · obtain ⟨hindex, hidle⟩ := hm haccepts
    obtain ⟨u, heq, hcaches, hcfg, -, hspares⟩ := handlePrePrepareMsg_polls (E := E) haccepts
    have hu : u.Idle P := hidle.congr hcaches (congrArg Config.view hcfg) (congrArg Config.minRequiredQuorum hcfg)
    obtain ⟨hfirst, hfirstSpares⟩ := checkAndPreCommit_idle E hu
    rw [heq]
    exact (hspares P hindex).trans (hfirstSpares.trans (checkAndPreCommit_idle E hfirst).2)
  · rw [handlePrePrepareMsg_declined (by simpa using haccepts)]
    exact .same rfl

/-- The node votes for the pre-prepare and casts the commit votes of the quorums that this completes. -/
structure Backs (E : Env) (s : Node) (m : PBFTMessage) (t : Node) : Prop where
  prepare : Supports s t m.index
  commit : ∀ i c, (s.supporting E m).caches.find? i = some c → ∀ j ∈ c.commits (s.supporting E m).cfg, Supports s t j

theorem Backs.mono {s₀ t t₁ : Node} {m : PBFTMessage} (h : Backs E s m t) (hcaches : s₀.caches = s.caches)
    (hcfg : s₀.cfg = s.cfg)
    (htime : s₀.utcTime = s.utcTime) (hs : s₀.log <+: s.log) (ht : t.log <+: t₁.log) : Backs E s₀ m t₁ := by
  obtain ⟨hvoted, hvotedCfg⟩ := supporting_congr (E := E) m hcaches hcfg htime
  refine ⟨h.prepare.mono hs ht, fun i c hc j hj => ?_⟩
  rw [hvoted] at hc
  rw [hvotedCfg] at hj
  exact (h.commit i c hc j hj).mono hs ht

theorem handlePrePrepareMsg_backs {m : PBFTMessage} {newView : Bool} (h : s.accepts m newView = true) :
    Backs E s m (s.handlePrePrepareMsg E m false newView false).1 := by
  obtain ⟨u, heq, hcaches, hcfg, ⟨k, hk, hsupports⟩, -⟩ := handlePrePrepareMsg_polls (E := E) h
  rw [heq]
  have hfirst := checkAndPreCommit_prefix E u
  have hrest := checkAndPreCommit_prefix E (u.checkAndPreCommit E)
  refine ⟨Supports.mono ⟨k, hk, hsupports⟩ List.prefix_rfl (hfirst.trans hrest), fun i c hc j hj => ?_⟩
  rw [← hcaches] at hc
  rw [← hcfg] at hj
  exact (checkAndPreCommit_supports E hc hj).mono ⟨k, hk.symm⟩ hrest

end Node

/-- A block of the sealer is not expired, and the node leads its index outside the timeout state. -/
def Node.admits (s : Node) (data : Bytes) (index : Int) : Bool :=
  data.length ≠ 0 && s.cfg.syncingHighestNumber < index && s.cfg.committedIndex < index && s.cfg.expectedCheckPoint ≤ index &&
    s.cfg.lowWaterMark ≤ index && s.cfg.leaderIndex index = s.cfg.nodeIndex && !s.cfg.timeoutState

def Node.sealedBlock (s : Node) (containSysTxs : Bool) (data : Bytes) (index : Int) (hash : HashType) : SealedBlock :=
  { containSysTxs := containSysTxs, data := data, index := index, hash := hash, view := s.cfg.view
    timestamp := s.utcTime, nodeIndex := s.cfg.nodeIndex }

/-- The pre-prepare that an event makes the node store and vote for. -/
def Event.offers (s : Node) : Event → Option PBFTMessage
  | .proposalVerified i (.result true) =>
    (s.verifying[i]?).bind fun c => if s.cfg.committedIndex < c.1.index && s.accepts c.1 c.2 then some c.1 else none
  | .proposalSubmitted i =>
    (s.submitting[i]?).bind fun b => if s.accepts b.prePrepare false then some b.prePrepare else none
  | _ => none

/-- The prepare vote that the worker has admitted and counts. -/
def Event.ballot (E : Env) (s : Node) : Event → Option PBFTMessage
  | .worker =>
    match s.workerStage, s.msgQueue with
    | .admitted, .pbft m :: _ =>
      if m.packetType = .PreparePacket && s.checkPBFTMsg E m && s.checkProposalSignature E m.generatedFrom m.consensusProposal
      then some m else none
    | _, _ => none
  | _ => none

/-- The state in which an event makes the node look for prepare quorums. -/
def Event.polls (E : Env) (s : Node) (e : Event) : Option Node :=
  match e.offers s with
  | some m => some (s.supporting E m)
  | none => (e.ballot E s).map s.addPrepareCache

/-- An event brings no pre-prepare with an index in `P`, and completes no prepare quorum for one. -/
structure Event.Abstains (E : Env) (P : Int → Prop) (s : Node) (e : Event) : Prop where
  offers : ∀ m ∈ e.offers s, ¬P m.index
  polls : ∀ u ∈ e.polls E s, u.Idle P

instance (P : Int → Prop) [DecidablePred P] (s : Node) : Decidable (s.Idle P) :=
  decidable_of_iff (∀ x ∈ s.caches.entries, ∀ j ∈ x.2.commits s.cfg, ¬P j)
    ⟨fun h i c hc => h (i, c) (OrdMap.find?_eq_some.1 hc), fun h x hx => h x.1 x.2 (OrdMap.find?_eq_some.2 hx)⟩

instance (E : Env) (P : Int → Prop) [DecidablePred P] (s : Node) (e : Event) : Decidable (e.Abstains E P s) :=
  decidable_of_iff ((∀ m ∈ e.offers s, ¬P m.index) ∧ ∀ u ∈ e.polls E s, u.Idle P) ⟨fun h => ⟨h.1, h.2⟩,
    fun h => ⟨h.offers, h.polls⟩⟩

section

variable {E : Env} {P : Int → Prop} {s t : Node} {e : Event}

theorem Event.allows_silent {l : Label} (hstores : e.stores s = none)
    (hprepare : ∀ m, e.handles s (.pbft m) → m.packetType ≠ .PreparePacket) (hl : e.allows E s l) : l.silent = true := by
  cases l with
  | store m =>
    have h : e.stores s = some m := hl.1
    rw [hstores] at h
    cases h
  | vote m =>
    have h : e.stores s = some m := hl.1
    rw [hstores] at h
    cases h
  | preCommit =>
    rcases hl with ⟨m, h, -⟩ | ⟨m, hhandles, htype⟩
    · rw [hstores] at h
      cases h
    · exact absurd htype (hprepare m hhandles)
  | _ => rfl

theorem Node.onProposalVerified_spares {m : PBFTMessage} {newView : Bool} {outcome : VerifyOutcome}
    (hm : outcome = .result true → s.cfg.committedIndex < m.index → s.accepts m newView = true → ¬P m.index ∧
    (s.supporting E m).Idle P) :
    Spares P s (s.onProposalVerified E m newView outcome) := by
  unfold onProposalVerified
  split
  · exact .same rfl
  rename_i hindex
  dsimp only
  refine Spares.trans (.quiet (asyncResetTxsFlag_quiet (E := E) s (m.consensusProposal.getD {}).data true)) ?_
  split
  · rename_i hok
    obtain ⟨hcaches, hcfg, htime, hexec⟩ := asyncResetTxsFlag_kept E s (m.consensusProposal.getD {}).data
    generalize s.asyncResetTxsFlag E (m.consensusProposal.getD {}).data true = u at hcaches hcfg htime hexec
    refine handlePrePrepareMsg_spares fun haccepts => ?_
    obtain ⟨hvoted, hvotedCfg⟩ := supporting_congr (E := E) m hcaches hcfg htime
    have hsame : u.accepts m newView = s.accepts m newView := by
      unfold accepts isSyncingHigher
      rw [checkPrePrepareMsg_congr hcfg hcaches, hcfg, hexec]
    obtain ⟨hspare, hidle⟩ := hm hok (not_le.1 hindex) (hsame ▸ haccepts)
    exact ⟨hspare, hidle.congr hvoted (congrArg Config.view hvotedCfg) (congrArg Config.minRequiredQuorum hvotedCfg)⟩
  · exact .quiet (notifySealer_quiet _ _ true)

/-- A block of the sealer goes on to the lock, or the node turns it down and hands it back; a block without data and one for
an index that is over are dropped. -/
theorem Node.onRecvProposal_cases (E : Env) (s : Node) (sys : Bool) (data : Bytes) (index : Int) (hash : HashType) :
    s.admits data index = true ∧
      s.onRecvProposal E sys data index hash = { s with submitting := s.submitting ++ [s.sealedBlock sys data index hash] } ∨
    s.admits data index = false ∧
      ((∃ c, s.onRecvProposal E sys data index hash = (s.notifyResetSealing c).asyncResetTxsFlag E data false) ∨
        (data = [] ∨ s.cfg.syncingHighestNumber < index ∧
          (index ≤ s.cfg.committedIndex ∨ index < s.cfg.expectedCheckPoint ∨ index < s.cfg.lowWaterMark)) ∧
        s.onRecvProposal E sys data index hash = s) := by
  unfold onRecvProposal admits
  split_ifs with hdata hsync hexpired hleader htimeout
  · exact Or.inr ⟨by simp [hdata], Or.inr ⟨Or.inl (List.length_eq_zero_iff.1 hdata), rfl⟩⟩
  · exact Or.inr ⟨by simp [hsync], Or.inl ⟨_, rfl⟩⟩
  · simp only [Bool.or_eq_true, decide_eq_true_eq] at hexpired
    refine Or.inr ⟨?_, Or.inr ⟨Or.inr ⟨by omega, by omega⟩, rfl⟩⟩
    rw [Bool.eq_false_iff]
    intro hadmits
    simp only [Bool.and_eq_true, decide_eq_true_eq] at hadmits
    omega
  · exact Or.inr ⟨by simp [hleader], Or.inl ⟨_, rfl⟩⟩
  · exact Or.inr ⟨by simp [htimeout], Or.inl ⟨_, rfl⟩⟩
  · simp only [Bool.or_eq_true, decide_eq_true_eq, not_or] at hexpired
    refine Or.inl ⟨?_, rfl⟩
    simp only [Bool.and_eq_true, decide_eq_true_eq]
    refine ⟨⟨⟨⟨⟨⟨hdata, ?_⟩, ?_⟩, ?_⟩, ?_⟩, not_not.1 hleader⟩, by simpa using htimeout⟩ <;> omega

theorem Node.submitPrePrepare_spares {m : PBFTMessage} (htype : m.packetType = .PrePreparePacket)
    (hm : s.accepts m false = true → ¬P m.index ∧ (s.supporting E m).Idle P) : Spares P s (s.submitPrePrepare E m) := by
  unfold submitPrePrepare
  refine (handlePrePrepareMsg_spares hm).trans ?_
  dsimp only
  split_ifs
  · have hA : Open (fun l => l.silent = true) := Label.silent_open
    have hreencode : (fun l : Label => l.silent = true) .reencode := rfl
    exact (broadcastPrePrepare_steps (E := E) _ hA hreencode htype _).spares fun _ hl => hl
  · exact .quiet (resetSealedTxs_quiet _ m)

theorem Node.handleAdmitted_spares (hpolls : ∀ m ∈ Event.worker.ballot E s, (s.addPrepareCache m).Idle P)
    (h : s.handleAdmitted E = some t) : Spares P s t := by
  rcases s.handleAdmitted_cases h with rfl | ⟨hstage, msg, rest, hq, h⟩
  · exact .same rfl
  have hpop : Spares P s { s with msgQueue := rest, workerStage := .start } := .same rfl
  by_cases hprepare : ∃ m, msg = .pbft m ∧ m.packetType = .PreparePacket
  · obtain ⟨m, rfl, htype⟩ := hprepare
    simp only [handleMsg, htype] at h
    obtain rfl := Option.some.inj h
    refine hpop.trans ?_
    unfold handlePrepareMsg
    split_ifs with hcheck hsig
    · exact .same rfl
    · exact .same rfl
    · have hcheck' : ({ s with msgQueue := rest, workerStage := .start } : Node).checkPBFTMsg E m = true := by simpa using hcheck
      have hsig' : ({ s with msgQueue := rest, workerStage := .start } : Node).checkProposalSignature E m.generatedFrom
          m.consensusProposal = true := by
        simpa using hsig
      change s.checkPBFTMsg E m = true at hcheck'
      change s.checkProposalSignature E m.generatedFrom m.consensusProposal = true at hsig'
      have hballot : Event.worker.ballot E s = some m := by
        simp only [Event.ballot, hstage, hq]
        rw [if_pos]
        simp [htype, hcheck', hsig']
      have hidle : (({ s with msgQueue := rest, workerStage := .start } : Node).addPrepareCache m).Idle P :=
        (hpolls m hballot).congr rfl rfl rfl
      exact Spares.trans (.same (List.append_nil _)) (checkAndPreCommit_idle E hidle).2
  · refine hpop.trans ((handleMsg_steps _ h).spares fun l hl => ?_)
    cases l with
    | store m => exact absurd (hl.2.resolve_right Bool.noConfusion) (by cases hl.1)
    | vote m => exact absurd (hl.2.resolve_right Bool.noConfusion) (by cases hl.1)
    | preCommit => exact absurd hl hprepare
    | _ => rfl

theorem Node.onProposalVerified_backs {m : PBFTMessage} {newView : Bool} (hindex : s.cfg.committedIndex < m.index)
    (h : s.accepts m newView = true) : Backs E s m (s.onProposalVerified E m newView (.result true)) := by
  unfold onProposalVerified
  rw [if_neg (not_le.2 hindex)]
  dsimp only
  rw [if_pos rfl]
  obtain ⟨hcaches, hcfg, htime, hexec⟩ := asyncResetTxsFlag_kept E s (m.consensusProposal.getD {}).data
  have hquiet := asyncResetTxsFlag_quiet (E := E) s (m.consensusProposal.getD {}).data true
  generalize s.asyncResetTxsFlag E (m.consensusProposal.getD {}).data true = u at hcaches hcfg htime hexec hquiet
  have hsame : u.accepts m newView = s.accepts m newView := by
    unfold accepts isSyncingHigher
    rw [checkPrePrepareMsg_congr hcfg hcaches, hcfg, hexec]
  obtain ⟨k, hk, -⟩ := hquiet.log
  exact (handlePrePrepareMsg_backs (hsame.trans h)).mono hcaches.symm hcfg.symm htime.symm ⟨k, hk.symm⟩ List.prefix_rfl

theorem Node.submitPrePrepare_backs {m : PBFTMessage} (htype : m.packetType = .PrePreparePacket)
    (h : s.accepts m false = true) : Backs E s m (s.submitPrePrepare E m) := by
  refine (handlePrePrepareMsg_backs h).mono rfl rfl rfl List.prefix_rfl ?_
  unfold submitPrePrepare
  dsimp only
  split_ifs
  · exact log_prefix_steps (E := E) (A := fun _ => True) (broadcastPrePrepare_steps _ (fun _ _ => trivial) trivial htype _)
  · obtain ⟨k, hk, -⟩ := (resetSealedTxs_quiet (E := E) (s.handlePrePrepareMsg E m false false false).1 m).log
    exact ⟨k, hk.symm⟩

theorem Event.ballot_cases {m : PBFTMessage} (h : e.ballot E s = some m) :
    e = .worker ∧ s.workerStage = .admitted ∧ ∃ rest, s.msgQueue = .pbft m :: rest ∧ m.packetType = .PreparePacket ∧
      s.checkPBFTMsg E m = true ∧ s.checkProposalSignature E m.generatedFrom m.consensusProposal = true := by
  unfold Event.ballot at h
  split at h
  · split at h
    · rename_i m' rest hstage hq
      split_ifs at h with hif
      obtain rfl := Option.some.inj h
      simp only [Bool.and_eq_true, decide_eq_true_eq] at hif
      exact ⟨rfl, hstage, rest, hq, hif.1.1, hif.1.2, hif.2⟩
    · cases h
  · cases h

theorem Event.ballot_supports {m : PBFTMessage} (hm : e.ballot E s = some m) (h : step E s e = some t) {i : Int} {c : PBFTCache}
    (hc : (s.addPrepareCache m).caches.find? i = some c) {j : Int} (hj : j ∈ c.commits (s.addPrepareCache m).cfg) :
    Node.Supports s t j := by
  obtain ⟨rfl, hstage, rest, hq, htype, hcheck, hsig⟩ := Event.ballot_cases hm
  change s.handleAdmitted E = some t at h
  unfold Node.handleAdmitted at h
  have hhandled : ({ s with msgQueue := rest, workerStage := .start } : Node).handlePrepareMsg E m =
      ((({ s with msgQueue := rest, workerStage := .start } : Node).addPrepareCache m).checkAndPreCommit E, true) := by
    change ({ s with msgQueue := rest, workerStage := .start } : Node).checkPBFTMsg E m = true at hcheck
    change ({ s with msgQueue := rest, workerStage := .start } : Node).checkProposalSignature E m.generatedFrom
      m.consensusProposal = true at hsig
    unfold Node.handlePrepareMsg
    rw [hcheck, hsig]
    rfl
  simp only [hstage, hq, Node.handleMsg, htype, hhandled] at h
  obtain rfl := Option.some.inj h
  refine Node.Supports.mono (s := ({ s with msgQueue := rest, workerStage := .start } : Node).addPrepareCache m)
    (Node.checkAndPreCommit_supports E hc hj) ?_ List.prefix_rfl
  exact ⟨[], rfl⟩

theorem step_spares (hok : e.Abstains E P s) (h : step E s e = some t) : Spares P s t := by
  by_cases hworker : e = .worker
  · subst hworker
    refine Node.handleAdmitted_spares (fun m hm => hok.polls _ ?_) h
    have hoffers : Event.worker.offers s = none := rfl
    rw [Event.polls, hoffers, Option.mem_def.1 hm]
    rfl
  cases hstores : e.stores s with
  | none =>
    refine (step_steps h).spares fun l hl => Event.allows_silent hstores (fun m hm => ?_) hl
    exact absurd hm.1 hworker
  | some m =>
    unfold Event.stores at hstores
    split at hstores
    · rename_i i
      obtain ⟨c, hc, rfl⟩ := Option.map_eq_some_iff.1 hstores
      simp only [step, answer, hc] at h
      obtain rfl := Option.some.inj h
      have hpop : Spares P s { s with verifying := s.verifying.eraseIdx i } := .same rfl
      refine hpop.trans (Node.onProposalVerified_spares fun _ hindex haccepts => ?_)
      have hoffers : (Event.proposalVerified i (.result true)).offers s = some c.1 := by
        simp only [Event.offers, hc, Option.bind_some]
        rw [if_pos]
        simpa using ⟨hindex, haccepts⟩
      have hidle := hok.polls (s.supporting E c.1) (by simp [Event.polls, hoffers])
      obtain ⟨hcaches, hcfg⟩ := Node.supporting_congr (E := E) (s := s)
        (t := { s with verifying := s.verifying.eraseIdx i }) c.1 rfl rfl rfl
      exact ⟨hok.offers _ hoffers, hidle.congr hcaches (congrArg Config.view hcfg) (congrArg Config.minRequiredQuorum hcfg)⟩
    · rename_i i
      obtain ⟨b, hb, rfl⟩ := Option.map_eq_some_iff.1 hstores
      simp only [step, answer, hb] at h
      obtain rfl := Option.some.inj h
      have hpop : Spares P s { s with submitting := s.submitting.eraseIdx i } := .same rfl
      refine hpop.trans (Node.submitPrePrepare_spares rfl fun haccepts => ?_)
      have hoffers : (Event.proposalSubmitted i).offers s = some b.prePrepare := by
        simp only [Event.offers, hb, Option.bind_some]
        exact if_pos haccepts
      have hidle := hok.polls (s.supporting E b.prePrepare) (by simp [Event.polls, hoffers])
      obtain ⟨hcaches, hcfg⟩ := Node.supporting_congr (E := E) (s := s)
        (t := { s with submitting := s.submitting.eraseIdx i }) b.prePrepare rfl rfl rfl
      exact ⟨hok.offers _ hoffers, hidle.congr hcaches (congrArg Config.view hcfg) (congrArg Config.minRequiredQuorum hcfg)⟩
    · cases hstores

/-- The pre-prepare that an event offers is voted for. -/
theorem Event.offers_backs {m : PBFTMessage} (hm : e.offers s = some m) (h : step E s e = some t) : Node.Backs E s m t := by
  unfold Event.offers at hm
  split at hm
  · rename_i i
    obtain ⟨c, hc, hif⟩ := Option.bind_eq_some_iff.1 hm
    split_ifs at hif with haccepts
    obtain rfl := Option.some.inj hif
    rw [Bool.and_eq_true, decide_eq_true_eq] at haccepts
    simp only [step, answer, hc] at h
    obtain rfl := Option.some.inj h
    exact (Node.onProposalVerified_backs (s := { s with verifying := s.verifying.eraseIdx i }) haccepts.1 haccepts.2).mono rfl rfl
      rfl List.prefix_rfl List.prefix_rfl
  · rename_i i
    obtain ⟨b, hb, hif⟩ := Option.bind_eq_some_iff.1 hm
    split_ifs at hif with haccepts
    obtain rfl := Option.some.inj hif
    simp only [step, answer, hb] at h
    obtain rfl := Option.some.inj h
    exact (Node.submitPrePrepare_backs (s := { s with submitting := s.submitting.eraseIdx i }) rfl haccepts).mono rfl rfl rfl
      List.prefix_rfl List.prefix_rfl
  · cases hm

/-- An event stores and votes for nothing at the indices in `P` exactly when it abstains from them. -/
theorem step_spares_iff (h : step E s e = some t) : Spares P s t ↔ e.Abstains E P s := by
  refine ⟨fun hspare => ⟨fun m hm => ?_, fun u hu i c hc j hj => ?_⟩, fun hok => step_spares hok h⟩
  · exact (Event.offers_backs hm h).prepare.not_spares hspare
  · unfold Event.polls at hu
    split at hu
    · rename_i m hm
      obtain rfl := Option.some.inj hu
      exact ((Event.offers_backs hm h).commit i c hc j hj).not_spares hspare
    · obtain ⟨m, hm, rfl⟩ := Option.map_eq_some_iff.1 hu
      exact (Event.ballot_supports hm h hc hj).not_spares hspare

end

end BcosPbft
