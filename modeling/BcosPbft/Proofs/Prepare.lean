import BcosPbft.Lib.Trail
import BcosPbft.Proofs.CheckPoint
import BcosPbft.Proofs.Lock
import BcosPbft.Proofs.Views

/-! Prepare votes. A node votes for every pre-prepare that it stores or that its cache refuses, with its own view
and not with that of the pre-prepare; it votes for one hash in a view as long as what it handles agrees with what
is stored. -/

namespace BcosPbft

def PBFTMessage.voted (m : PBFTMessage) : ViewType × Option HashType :=
  (m.view, m.consensusProposal.map PBFTProposal.hash)

theorem enterPrecommit_voted (E : Env) (cfg : Config) (now : Int) {c : PBFTCache} {m : PBFTMessage} {p : PBFTProposal}
    (hm : c.prePrepare = some m) (hp : m.consensusProposal = some p) :
    (c.enterPrecommit E cfg now m p).prePrepare.map PBFTMessage.voted = c.prePrepare.map PBFTMessage.voted := by
  have hhash : (PBFTCache.setSignatureList p c.prepareCacheList).hash = p.hash := by
    simp only [PBFTProposal.hash, setSignatureList_proposal]
  rw [PBFTCache.enterPrecommit_prePrepare, hm, Option.map_some, Option.map_some, PBFTMessage.voted, PBFTMessage.voted, hp,
    Option.map_some, ← hhash]
  rfl

theorem CacheStep.voted {E : Env} {cfg : Config} {now i : Int} {l : Label} {c c' : PBFTCache}
    (h : CacheStep E cfg now l i c c') (hl : ∀ m, l ≠ .store m) :
    c'.prePrepare.map PBFTMessage.voted = c.prePrepare.map PBFTMessage.voted := by
  cases h with
  | store m _ hacc => exact absurd rfl (hl m)
  | preCommit =>
    rcases c.checkAndPreCommit_cases E cfg now with heq | ⟨m, p, hm, hp, -, -, -, heq⟩
    · rw [heq]
    · rw [heq, ← enterPrecommit_voted E cfg now hm hp]
      rcases (c.enterPrecommit E cfg now m p).checkAndCommit_cases cfg with heq' | ⟨heq', -⟩
      · rw [heq']
      · rw [heq']
  | submit =>
    rcases c.checkAndCommit_cases cfg with heq | ⟨heq, -⟩
    · rw [heq]
    · rw [heq]
  | stable =>
    rcases c.checkAndCommitStableCheckPoint_cases cfg with heq | ⟨p, w, -, -, -, -, heq⟩
    · rw [heq]
    · rw [heq]
  | reencode =>
    simp only [PBFTCache.reencode, Option.map_map]
    rfl
  | setCheckPoint p =>
    unfold PBFTCache.setCheckPointProposal
    split_ifs <;> rfl
  | _ => rfl

def Label.trailing : Label → Bool
  | .preCommit => true
  | l => l.free

def Label.storing (m : PBFTMessage) (l : Label) : Prop := l.trailing = true ∨ l = .store m ∨ l = .vote m ∨ l = .reencode

theorem Event.allows_storing {E : Env} {s : Node} {e : Event} {m : PBFTMessage} {l : Label} (h : e.stores s = some m)
    (hl : e.allows E s l) : l.storing m := by
  have hverified : (∃ i ok, e = .proposalVerified i ok) ∨ ∃ i, e = .proposalSubmitted i := by
    unfold Event.stores at h
    split at h
    · exact Or.inl ⟨_, _, rfl⟩
    · exact Or.inr ⟨_, rfl⟩
    · cases h
  cases l with
  | store m' => exact Or.inr (Or.inl (by rw [Option.some.inj (hl.1.symm.trans h)]))
  | vote m' => exact Or.inr (Or.inr (Or.inl (by rw [Option.some.inj (hl.1.symm.trans h)])))
  | reencode => exact Or.inr (Or.inr (Or.inr rfl))
  | quiet | queue | apply | preCommit | answer => exact Or.inl rfl
  | push source p =>
    cases source with
    | committed => exact Or.inl rfl
    | _ => rcases hverified with ⟨i, ok, rfl⟩ | ⟨i, rfl⟩ <;> simp [Event.allows, Event.settles] at hl
  | verify source m' =>
    rcases source with _ | _ | ⟨_ | _⟩ <;> rcases hverified with ⟨i, ok, rfl⟩ | ⟨i, rfl⟩ <;>
      simp [Event.allows, Event.moves, Event.handles, Event.ledger] at hl
  | request own m' | viewChange own m' | checkPoint own m' | reseal own m' =>
    cases own <;> rcases hverified with ⟨i, ok, rfl⟩ | ⟨i, rfl⟩ <;>
      simp [Event.allows, Event.moves, Event.accepts, Event.handles, Event.ledger, Event.settles] at hl
  | _ =>
    rcases hverified with ⟨i, ok, rfl⟩ | ⟨i, rfl⟩ <;>
      simp [Event.allows, Event.moves, Event.aims, Event.handles, Event.settles, Event.ledger, Event.fetches] at hl

theorem CacheStep.accepts {E : Env} {cfg : Config} {now i : Int} {l : Label} {c c' : PBFTCache} {m : PBFTMessage}
    (h : CacheStep E cfg now l i c c') (hl : l.storing m) (hc : c.acceptsPrePrepare m = true) :
    c'.acceptsPrePrepare m = true := by
  have hkept : ∀ {d : PBFTCache}, d.stableCommitted = c.stableCommitted → d.checkpointProposal = c.checkpointProposal →
      (d.prePrepare.map PBFTMessage.voted = c.prePrepare.map PBFTMessage.voted ∨ d.prePrepare = some m) →
      d.acceptsPrePrepare m = true := by
    intro d hst hcheck hpre
    unfold PBFTCache.acceptsPrePrepare at hc ⊢
    rw [hst, hcheck]
    split_ifs at hc ⊢ with hstable
    split
    · rename_i p q _ hq
      rcases hpre with hpre | hpre
      · rw [hq, Option.map_some] at hpre
        obtain ⟨q', hq', hvoted⟩ := Option.map_eq_some_iff.1 hpre.symm
        simp only [‹c.checkpointProposal = some p›, hq'] at hc
        rw [← (Prod.mk.inj hvoted).2]
        exact hc
      · obtain rfl := Option.some.inj (hq.symm.trans hpre)
        simp
    · rfl
  have hsame : ∀ {d : PBFTCache}, CacheStep E cfg now l i c d → (∀ m', l ≠ .store m') →
      d.stableCommitted = c.stableCommitted → d.checkpointProposal = c.checkpointProposal → d.acceptsPrePrepare m = true :=
    fun hd hne hst hcheck => hkept hst hcheck (Or.inl (hd.voted hne))
  cases h with
  | same => exact hc
  | store m' _ hacc =>
    rcases hl with hfree | heq | heq | heq
    · cases hfree
    · obtain rfl := Label.store.inj heq
      exact hkept rfl rfl (Or.inr rfl)
    · cases heq
    · cases heq
  | vote m' => exact hsame (.vote m' c) (fun _ => Label.noConfusion) rfl rfl
  | reencode => exact hsame (.reencode i c) (fun _ => Label.noConfusion) rfl rfl
  | preCommit =>
    refine hsame (.preCommit i c) (fun _ => Label.noConfusion) ?_ ?_
    · rcases c.checkAndPreCommit_cases E cfg now with heq | ⟨m', p, -, -, -, -, -, heq⟩
      · rw [heq]
      · rw [heq]
        rcases (c.enterPrecommit E cfg now m' p).checkAndCommit_cases cfg with heq' | ⟨heq', -⟩ <;> rw [heq'] <;> rfl
    · rcases c.checkAndPreCommit_cases E cfg now with heq | ⟨m', p, -, -, -, -, -, heq⟩
      · rw [heq]
      · rw [heq]
        rcases (c.enterPrecommit E cfg now m' p).checkAndCommit_cases cfg with heq' | ⟨heq', -⟩ <;> rw [heq'] <;> rfl
  | _ => rcases hl with hfree | heq | heq | heq <;> first | cases hfree | cases heq

/-- No two prepare messages of one index and one view with different hashes went out. -/
def OnePrepare (log : List Action) : Prop :=
  ∀ dst dst' m m' data data', Action.send dst (.pbft m) data ∈ log → Action.send dst' (.pbft m') data' ∈ log →
    m.packetType = .PreparePacket → m'.packetType = .PreparePacket → m.index = m'.index → m.view = m'.view →
    m.hash = m'.hash

theorem Prim.prepare_sent {E : Env} {l : Label} {s t : Node} (h : Prim E l s t) {dst : Option NodeID} {m : PBFTMessage}
    {data : Bytes} (hmem : Action.send dst (.pbft m) data ∈ t.log) (hm : m.packetType = .PreparePacket) :
    Action.send dst (.pbft m) data ∈ s.log ∨
      ∃ m₀, l = .vote m₀ ∧ m.index = m₀.index ∧ m.view = s.cfg.view ∧ m.hash = (m₀.consensusProposal.getD {}).hash := by
  obtain ⟨k, hk, hemits⟩ := h.log
  rw [hk] at hmem
  rcases List.mem_append.1 hmem with hmem | hmem
  · exact Or.inl hmem
  right
  cases hemits _ hmem with
  | neutral _ hn => simp [Action.neutral, hm] at hn
  | @vote m₀ _ ha =>
    rcases List.mem_cons.1 ha with ha | ha
    · cases ha
    · rw [send_mem_sendActions ha]
      exact ⟨m₀, rfl, rfl, rfl, toHash_val _⟩
  | preCommit hc hm' hp henough ha =>
    simp only [PBFTCache.precommitActions, List.mem_cons] at ha
    rcases ha with ha | ha | ha
    · cases ha
    · cases ha
    · rw [send_mem_sendActions ha] at hm
      cases hm
  | announce h hs ha =>
    rcases List.mem_cons.1 ha with ha | ha
    · cases ha
    · cases hm.symm.trans (checkPointActions_packet ha)
  | resend hc hp ha => cases hm.symm.trans (checkPointActions_packet ha)
  | newView h ha =>
    obtain ⟨v, hv⟩ := sendActions_pbft ha
    cases hv
  | sendViewChange ha =>
    obtain ⟨v, hv⟩ := sendActions_pbft ha
    cases hv

theorem Prim.stored {E : Env} {l : Label} {s t : Node} (h : Prim E l s t) {i : Int} {q : PBFTMessage}
    (hmem : Action.storePrePrepare i q ∈ t.log) : Action.storePrePrepare i q ∈ s.log ∨
      l = .store q ∧ i = ((s.caches.find? q.index).getD { index := q.index }).index := by
  obtain ⟨k, hk, hemits⟩ := h.log
  rw [hk] at hmem
  rcases List.mem_append.1 hmem with hmem | hmem
  · exact Or.inl hmem
  right
  cases hemits _ hmem with
  | neutral _ hn => cases hn
  | store => exact ⟨rfl, rfl⟩
  | vote ha => cases voteActions_lockFree _ ha
  | preCommit hc hm hp henough ha =>
    rcases mem_precommitActions ha with heq | hfree
    · cases heq
    · cases hfree
  | announce h hs ha => cases announceActions_lockFree _ ha
  | resend hc hp ha => cases checkPointActions_lockFree _ ha
  | newView h ha => cases sendActions_lockFree _ ha
  | sendViewChange ha => cases sendActions_lockFree _ ha

theorem CacheStep.index {E : Env} {cfg : Config} {now i : Int} {l : Label} {c c' : PBFTCache}
    (h : CacheStep E cfg now l i c c') : c'.index = c.index := by
  by_cases hl : l.keeping = true
  · exact (h.keeps hl).index
  · cases h with
    | same => rfl
    | store => rfl
    | preCommit =>
      rcases c.checkAndPreCommit_cases E cfg now with heq | ⟨m, p, -, -, -, -, -, heq⟩
      · rw [heq]
      · rw [heq]
        exact (PBFTCache.checkAndCommit_keeps cfg _).index
    | submit => exact (c.checkAndCommit_keeps cfg).index
    | _ => exact absurd rfl hl

/-- The votes of the current view are for stored pre-prepares of this view or later ones. -/
structure Prepared (s : Node) : Prop where
  view : ∀ dst m data, Action.send dst (.pbft m) data ∈ s.log → m.packetType = .PreparePacket → m.view ≤ s.cfg.view
  held : ∀ dst m data, Action.send dst (.pbft m) data ∈ s.log → m.packetType = .PreparePacket → m.view = s.cfg.view →
    ∃ q, Action.storePrePrepare m.index q ∈ s.log ∧ s.cfg.view ≤ q.view ∧
      q.consensusProposal.map PBFTProposal.hash = some m.hash
  index : ∀ i c, s.caches.find? i = some c → c.index = i
  stored : ∀ i c q, s.caches.find? i = some c → c.prePrepare = some q →
    ∃ q', Action.storePrePrepare i q' ∈ s.log ∧ q'.voted = q.voted
  unique : OnePrepare s.log

theorem CfgStep.view_le {E : Env} {l : Label} {c c' : Config} (h : CfgStep E l c c') : c.view ≤ c'.view := by
  by_cases hl : l = .view
  · subst hl
    cases h with
    | same _ h => exact le_of_eq h.view.symm
    | @view _ v hv =>
      unfold Config.resetNewViewState
      split
      · exact le_refl _
      · exact hv
  · exact le_of_eq (h.view_eq hl).symm

namespace Prepared

variable {E : Env} {l : Label} {s t : Node}

theorem index_step (h : Prim E l s t) (hs : Prepared s) (i : Int) (c : PBFTCache) (hc : t.caches.find? i = some c) :
    c.index = i := by
  rw [(h.cacheStep hc).index]
  cases hold : s.caches.find? i with
  | none => rfl
  | some d => exact hs.index i d hold

theorem stored_step (h : Prim E l s t) (hs : Prepared s) (i : Int) (c : PBFTCache) (q : PBFTMessage)
    (hc : t.caches.find? i = some c) (hq : c.prePrepare = some q) :
    ∃ q', Action.storePrePrepare i q' ∈ t.log ∧ q'.voted = q.voted := by
  have hold : ∀ q₀, ((s.caches.find? i).getD { index := i }).prePrepare = some q₀ →
      ∃ q', Action.storePrePrepare i q' ∈ t.log ∧ q'.voted = q₀.voted := by
    intro q₀ hq₀
    cases hd : s.caches.find? i with
    | none =>
      rw [hd] at hq₀
      cases hq₀
    | some d =>
      rw [hd, Option.getD_some] at hq₀
      obtain ⟨q', hmem, heq⟩ := hs.stored i d q₀ hd hq₀
      exact ⟨q', h.log_mono _ hmem, heq⟩
  by_cases hstore : ∃ m, l = .store m
  · obtain ⟨m, rfl⟩ := hstore
    have hcache := h.cacheStep hc
    have hindex : ((s.caches.find? i).getD { index := i }).index = i := by
      cases hd : s.caches.find? i with
      | none => rfl
      | some d => exact hs.index i d hd
    generalize hi : i = j at hcache
    cases hcache with
    | same =>
      subst hi
      exact hold q hq
    | store _ _ hacc =>
      subst hi
      obtain rfl := Option.some.inj hq
      cases h with
      | store _ hcheck =>
        refine ⟨m, List.mem_append_right _ ?_, rfl⟩
        unfold PBFTCache.addPrePrepareCache
        dsimp only
        rw [if_pos hacc, hindex]
        exact List.mem_singleton.2 rfl
  · have hvoted := (h.cacheStep hc).voted (fun m heq => hstore ⟨m, heq⟩)
    rw [hq, Option.map_some] at hvoted
    obtain ⟨q₀, hq₀, heq⟩ := Option.map_eq_some_iff.1 hvoted.symm
    obtain ⟨q', hmem, heq'⟩ := hold q₀ hq₀
    exact ⟨q', hmem, heq'.trans heq⟩

theorem step (h : Prim E l s t) (hvote : ∀ m, l ≠ .vote m) (hs : Prepared s) : Prepared t := by
  have hsent : ∀ {dst m data}, Action.send dst (.pbft m) data ∈ t.log → m.packetType = .PreparePacket →
      Action.send dst (.pbft m) data ∈ s.log := by
    intro dst m data hmem hm
    rcases h.prepare_sent hmem hm with hmem | ⟨m₀, rfl, -⟩
    · exact hmem
    · exact absurd rfl (hvote m₀)
  have hview := h.cfgStep.view_le
  refine ⟨fun dst m data hmem hm => (hs.view dst m data (hsent hmem hm) hm).trans hview, fun dst m data hmem hm heq => ?_,
    hs.index_step h, hs.stored_step h,
    fun dst dst' m m' data data' hmem hmem' hm hm' => hs.unique _ _ _ _ _ _ (hsent hmem hm) (hsent hmem' hm') hm hm'⟩
  have hsame : s.cfg.view = t.cfg.view := le_antisymm hview (heq ▸ hs.view dst m data (hsent hmem hm) hm)
  obtain ⟨q, hq, hv, hhash⟩ := hs.held dst m data (hsent hmem hm) hm (heq.trans hsame.symm)
  exact ⟨q, h.log_mono _ hq, hsame ▸ hv, hhash⟩

end Prepared

def Node.storedAt (s : Node) (i : Int) : List PBFTMessage :=
  s.log.filterMap fun a =>
    match a with
    | .storePrePrepare j q => if j = i then some q else none
    | _ => none

theorem Node.mem_storedAt {s : Node} {i : Int} {q : PBFTMessage} :
    q ∈ s.storedAt i ↔ Action.storePrePrepare i q ∈ s.log := by
  unfold storedAt
  rw [List.mem_filterMap]
  constructor
  · rintro ⟨a, ha, hq⟩
    split at hq
    · split_ifs at hq with hi
      obtain rfl := Option.some.inj hq
      exact hi ▸ ha
    · cases hq
  · intro h
    exact ⟨_, h, if_pos rfl⟩

/-- The pre-prepare that an event hands over as verified agrees with what was stored: its cache takes it, and what was
stored at its index of the current view or a later one is for the same hash. -/
def Event.Agrees (s : Node) (e : Event) : Prop :=
  ∀ m ∈ e.stores s, s.checkPrePrepareMsg m = true →
    ((s.caches.find? m.index).getD { index := m.index }).acceptsPrePrepare m = true ∧
    ∀ q ∈ s.storedAt m.index, s.cfg.view ≤ q.view →
      q.consensusProposal.map PBFTProposal.hash = m.consensusProposal.map PBFTProposal.hash

instance (s : Node) (e : Event) : Decidable (e.Agrees s) :=
  inferInstanceAs (Decidable (∀ m ∈ e.stores s, _))

structure Storing (m : PBFTMessage) (v : ViewType) (s : Node) : Prop where
  prepared : Prepared s
  view : s.cfg.view = v
  accepts : ((s.caches.find? m.index).getD { index := m.index }).acceptsPrePrepare m = true
  agrees : ∀ q, Action.storePrePrepare m.index q ∈ s.log → v ≤ q.view →
    q.consensusProposal.map PBFTProposal.hash = m.consensusProposal.map PBFTProposal.hash

namespace Storing

variable {E : Env} {l : Label} {m : PBFTMessage} {v : ViewType} {s t : Node}

theorem vote (h : Prim E (.vote m) s t) (hm : v ≤ m.view) (hp : m.consensusProposal.isSome = true) (hs : Storing m v s) :
    Prepared t := by
  obtain ⟨p, hp⟩ := Option.isSome_iff_exists.1 hp
  have hview : t.cfg.view = s.cfg.view := h.cfgStep.view_eq (fun heq => by cases heq)
  have hnew : ∀ {dst m' data}, Action.send dst (.pbft m') data ∈ t.log → m'.packetType = .PreparePacket →
      Action.send dst (.pbft m') data ∈ s.log ∨ m'.index = m.index ∧ m'.view = s.cfg.view ∧ m'.hash = p.hash := by
    intro dst m' data hmem hm'
    rcases h.prepare_sent hmem hm' with hmem | ⟨m₀, heq, hindex, hv, hhash⟩
    · exact Or.inl hmem
    · obtain rfl := Label.vote.inj heq
      rw [hp, Option.getD_some] at hhash
      exact Or.inr ⟨hindex, hv, hhash⟩
  -- an earlier vote of this view is for the hash of what was stored
  have hold : ∀ {dst m' data}, Action.send dst (.pbft m') data ∈ s.log → m'.packetType = .PreparePacket →
      m'.index = m.index → m'.view = s.cfg.view → m'.hash = p.hash := by
    intro dst m' data hmem hm' hindex hv
    obtain ⟨q, hq, hqv, hhash⟩ := hs.prepared.held dst m' data hmem hm' hv
    have hagrees := hs.agrees q (hindex ▸ hq) (hs.view ▸ hqv)
    rw [hhash, hp, Option.map_some] at hagrees
    exact Option.some.inj hagrees
  refine ⟨fun dst m' data hmem hm' => ?_, fun dst m' data hmem hm' heq => ?_, hs.prepared.index_step h,
    hs.prepared.stored_step h, fun dst dst' m₁ m₂ data data' hmem hmem' h₁ h₂ hindex hv => ?_⟩
  · rw [hview]
    rcases hnew hmem hm' with hmem | ⟨-, hv, -⟩
    · exact hs.prepared.view dst m' data hmem hm'
    · exact le_of_eq hv
  · rw [hview] at heq ⊢
    rcases hnew hmem hm' with hmem | ⟨hindex, -, hhash⟩
    · obtain ⟨q, hq, hqv, hhash⟩ := hs.prepared.held dst m' data hmem hm' heq
      exact ⟨q, h.log_mono _ hq, hqv, hhash⟩
    · obtain ⟨c, hc, hstored⟩ : ∃ c, s.caches.find? m.index = some c ∧
          (c.acceptsPrePrepare m = true → c.prePrepare = some m) := by
        cases h with
        | vote _ hguard => exact hguard
      have haccepts := hs.accepts
      rw [hc, Option.getD_some] at haccepts
      obtain ⟨q, hq, hvoted⟩ := hs.prepared.stored m.index c m hc (hstored haccepts)
      obtain ⟨hqv, hqhash⟩ := Prod.mk.inj hvoted
      refine ⟨q, hindex ▸ h.log_mono _ hq, ?_, ?_⟩
      · rw [hqv, hs.view]
        exact hm
      · rw [hqhash, hp, Option.map_some, hhash]
  · rcases hnew hmem h₁ with hmem | ⟨hi₁, hv₁, hhash₁⟩
    · rcases hnew hmem' h₂ with hmem' | ⟨hi₂, hv₂, hhash₂⟩
      · exact hs.prepared.unique _ _ _ _ _ _ hmem hmem' h₁ h₂ hindex hv
      · rw [hhash₂]
        exact hold hmem h₁ (hindex.trans hi₂) (hv.trans hv₂)
    · rcases hnew hmem' h₂ with hmem' | ⟨-, -, hhash₂⟩
      · rw [hhash₁]
        exact (hold hmem' h₂ (hindex.symm.trans hi₁) (hv.symm.trans hv₁)).symm
      · rw [hhash₁, hhash₂]

theorem step (h : Prim E l s t) (hl : l.storing m) (hm : v ≤ m.view) (hp : m.consensusProposal.isSome = true)
    (hs : Storing m v s) : Storing m v t := by
  have hview : l ≠ .view := by
    rcases hl with hfree | rfl | rfl | rfl
    · rintro rfl
      cases hfree
    · exact Label.noConfusion
    · exact Label.noConfusion
    · exact Label.noConfusion
  refine ⟨?_, (h.cfgStep.view_eq hview).trans hs.view, ?_, fun q hq hqv => ?_⟩
  · by_cases hvote : l = .vote m
    · exact hs.vote (hvote ▸ h) hm hp
    · refine hs.prepared.step h ?_
      rintro m' rfl
      rcases hl with hfree | heq | heq | heq
      · cases hfree
      · cases heq
      · exact hvote heq
      · cases heq
  · cases hc' : t.caches.find? m.index with
    | none => rfl
    | some c' => exact (h.cacheStep hc').accepts hl hs.accepts
  · rcases h.stored hq with hq | ⟨rfl, -⟩
    · exact hs.agrees q hq hqv
    · rcases hl with hfree | heq | heq | heq
      · cases hfree
      · obtain rfl := Label.store.inj heq
        rfl
      · cases heq
      · cases heq

end Storing

theorem Node.checkPBFTMsgState_proposal {s : Node} {m : PBFTMessage} (h : s.checkPBFTMsgState m = true) :
    m.consensusProposal.isSome = true := by
  unfold Node.checkPBFTMsgState at h
  split at h
  · cases h
  · rename_i hsome
    simpa [Option.isSome_iff_ne_none] using hsome

theorem step_prepared {E : Env} {s t : Node} {e : Event} (hok : e.Agrees s) (h : step E s e = some t) (hs : Prepared s) :
    Prepared t := by
  by_cases hstores : ∃ m, e.stores s = some m ∧ s.checkPrePrepareMsg m = true
  · obtain ⟨m, hm, hcheck⟩ := hstores
    obtain ⟨haccepts, hagrees⟩ := hok m hm hcheck
    have hstate := (Locks.checkPrePrepareMsg_spec hcheck).1
    have hp := Node.checkPBFTMsgState_proposal hstate
    have hstoring : Storing m s.cfg.view t := by
      refine Labelled.Steps.preserves (I := Storing m s.cfg.view) (fun l u v hl hu hstoring => ?_) (step_steps h)
        ⟨hs, rfl, haccepts, fun q hq => hagrees q (Node.mem_storedAt.2 hq)⟩
      exact hstoring.step hu (Event.allows_storing hm hl) (Node.checkPBFTMsgState_view hstate) hp
    exact hstoring.prepared
  · refine Labelled.Steps.preserves (fun l u v hl hu hprepared => hprepared.step hu ?_) (step_steps h) hs
    rintro m rfl
    exact hstores ⟨m, hl⟩

theorem initNode_prepared {E : Env} {keyPair : KeyPair} {l : LedgerConfig} {state : List PBFTProposal} {s₀ : Node}
    (hinit : initNode E keyPair l state = some s₀) : Prepared s₀ := by
  obtain ⟨s, hsteps, hs⟩ := initNode_steps (A := fun l => ∀ m, l ≠ .vote m) (fun _ => Label.noConfusion)
    (fun _ => Label.noConfusion) (fun _ => Label.noConfusion) (fun _ => Label.noConfusion)
    (fun _ _ _ => Label.noConfusion) hinit
  have hprepared : Prepared s := by
    refine Labelled.Steps.preserves (fun l u v hl hp hu => hu.step hp hl) hsteps ⟨?_, ?_, ?_, ?_, ?_⟩
    · intro dst m data hmem
      cases hmem
    · intro dst m data hmem
      cases hmem
    · intro i c hc
      cases hc
    · intro i c q hc
      cases hc
    · intro dst dst' m m' data data' hmem
      cases hmem
  rcases hs with rfl | ⟨last, -, rfl⟩
  · exact hprepared
  · exact ⟨hprepared.view, hprepared.held, hprepared.index, hprepared.stored, hprepared.unique⟩

/-- Over a run in which every pre-prepare that is handed over as verified agrees with what was stored, a node sends no
two prepare messages of one index and one view with different hashes. -/
theorem prepare_unique {E : Env} {keyPair : KeyPair} {l : LedgerConfig} {state : List PBFTProposal} {s₀ s : Node}
    {trace : List (Node × Event)} (hinit : initNode E keyPair l state = some s₀) (hrun : Trail (step E) s₀ trace s)
    (hok : ∀ x ∈ trace, x.2.Agrees x.1) : OnePrepare s.log :=
  (hrun.preserves (fun s e _ (hok : e.Agrees s) hstep hs => step_prepared hok hstep hs) hok
    (initNode_prepared hinit)).unique

/-- Node 0 takes a pre-prepare of the current view and one that the same leader made for view 5. -/
def toyLeadTwice (content : UInt8) : List Event :=
  Toy.atOnce [.receive [1] (Toy.prePrepare 1 0 7) [], .worker, .proposalVerified 0 (.result true),
    .receive [1] (Toy.prePrepare 1 5 content) [], .worker, .proposalVerified 0 (.result true)]

def Action.isPrepare (hash : HashType) : Action → Bool
  | .send _ (.pbft m) _ => m.packetType = .PreparePacket && m.index = 1 && m.view = 0 && m.hash = hash
  | _ => false

theorem Action.isPrepare_spec {hash : HashType} {a : Action} (h : a.isPrepare hash = true) :
    ∃ dst m data, a = .send dst (.pbft m) data ∧ m.packetType = .PreparePacket ∧ m.index = 1 ∧ m.view = 0 ∧
      m.hash = hash := by
  unfold isPrepare at h
  split at h
  · rename_i dst m data
    simp only [Bool.and_eq_true, decide_eq_true_eq] at h
    exact ⟨dst, m, data, rfl, h.1.1.1, h.1.1.2, h.1.2, h.2⟩
  · cases h

/-- For one block the two pre-prepares give one vote, sent twice. -/
theorem toyLeadTwice_unique : ∃ trace s, Trail.states (step Toy.env) (Toy.node 0 [1, 1, 1, 1])
    (toyLeadTwice 7) = some (trace, s) ∧
    2 ≤ s.log.countP (Action.isPrepare (Toy.checksum [1, 7])) ∧ OnePrepare s.log := by
  have hinit : initNode Toy.env (Toy.keyPair 0)
      { blockNumber := 0, hash := zeroHash, consensusNodeList := Toy.nodes [1, 1, 1, 1] } [] =
        some (Toy.node 0 [1, 1, 1, 1]) := by decide +kernel
  have hrun : ((Trail.states (step Toy.env) (Toy.node 0 [1, 1, 1, 1]) (toyLeadTwice 7)).elim false fun r =>
      decide (2 ≤ r.2.log.countP (Action.isPrepare (Toy.checksum [1, 7]))) &&
        r.1.all fun x => decide (x.2.Agrees x.1)) = true := by decide +kernel
  obtain ⟨⟨trace, s⟩, hs, hcheck⟩ := Toy.exists_of_elim hrun
  simp only [Bool.and_eq_true, decide_eq_true_eq, List.all_eq_true] at hcheck
  exact ⟨trace, s, hs, hcheck.1, prepare_unique hinit (.of_states hs) hcheck.2⟩

/-- For two blocks the node votes twice in view 0. -/
theorem toyLeadTwice_equivocates : ∃ trace s, Trail (step Toy.env) (Toy.node 0 [1, 1, 1, 1]) trace s ∧ ¬OnePrepare s.log := by
  have hrun : ((Trail.states (step Toy.env) (Toy.node 0 [1, 1, 1, 1]) (toyLeadTwice 8)).elim false fun r =>
      r.2.log.any (Action.isPrepare (Toy.checksum [1, 7])) &&
        r.2.log.any (Action.isPrepare (Toy.checksum [1, 8]))) = true := by decide +kernel
  obtain ⟨⟨trace, s⟩, hs, hcheck⟩ := Toy.exists_of_elim hrun
  simp only [Bool.and_eq_true, List.any_eq_true] at hcheck
  obtain ⟨⟨a, ha, hpa⟩, b, hb, hpb⟩ := hcheck
  obtain ⟨dst, m, data, rfl, hm, hi, hv, hhash⟩ := Action.isPrepare_spec hpa
  obtain ⟨dst', m', data', rfl, hm', hi', hv', hhash'⟩ := Action.isPrepare_spec hpb
  refine ⟨trace, s, .of_states hs, fun hone => ?_⟩
  have heq := hone _ _ _ _ _ _ ha hb hm hm' (hi.trans hi'.symm) (hv.trans hv'.symm)
  rw [hhash, hhash'] at heq
  exact absurd heq (by decide +kernel)

end BcosPbft
