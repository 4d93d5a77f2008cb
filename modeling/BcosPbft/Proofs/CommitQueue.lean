import BcosPbft.Proofs.Agreement
import BcosPbft.Proofs.Certificate
import BcosPbft.Proofs.Parents

/-! Where the proposals of the commit queue come from. A commit pushes the proposal whose tally is at the quorum, a
failed execution pushes what was pushed before, and what a peer or the storage hands over is pushed with the proof it
carries: nothing looks at that proof. -/

namespace BcosPbft

/-- A commit was reported for the proposal, with the tally of its hash at the quorum. -/
def Node.CommittedHere (s : Node) (p : PBFTProposal) : Prop :=
  ∃ c quorum w, Action.reportCommit c quorum ∈ s.log ∧ c.precommit.bind PBFTMessage.consensusProposal = some p ∧
    c.commitReqWeight.find? p.hash = some w ∧ quorum ≤ w

/-- The proposal came from the storage or from a peer, with the signatures of a quorum. -/
def Delivered (E : Env) (state : List PBFTProposal) (s₀ : Node) (trace : List (Node × Event)) (p : PBFTProposal) : Prop :=
  (p ∈ state ∧ QuorumSigned E s₀.cfg p.hash p.proof) ∨
    ∃ x ∈ trace, x.2.fetches E x.1 p ∧ QuorumSigned E x.1.cfg p.hash p.proof

/-- What a stored pre-prepare is filed under is the hash of its proposal, and a fetched proposal carries the
signatures of a quorum. -/
structure Event.Vouched (E : Env) (s : Node) (e : Event) : Prop where
  stored : ∀ m ∈ e.stores s, s.checkPrePrepareMsg m = true → ∀ p ∈ m.consensusProposal, p.hash = m.hash
  fetched : ∀ p, e.fetches E s p → QuorumSigned E s.cfg p.hash p.proof

def PBFTCache.FiledByHash (c : PBFTCache) : Prop := c.Carries fun _ h p => toHash p.hash = h

structure Accounted (J : PBFTProposal → Prop) (s : Node) : Prop where
  locks : Locks s
  filed : ∀ i c, s.caches.find? i = some c → c.FiledByHash
  reports : ∀ c quorum, Action.reportCommit c quorum ∈ s.log → c.FiledByHash
  loading : ∀ c ∈ s.loading, J c.1
  queue : ∀ p ∈ s.committedQueue, Action.pushCommitted p ∈ s.log
  flight : ∀ x ∈ s.roots, Action.pushCommitted x.2 ∈ s.log
  pushed : ∀ p, Action.pushCommitted p ∈ s.log → s.CommittedHere p ∨ J p

def Label.Vouched (J : PBFTProposal → Prop) (log : List Action) : Label → Prop
  | .store m => ∀ p ∈ m.consensusProposal, p.hash = m.hash
  | .load p | .push .loaded p => J p
  | .push .failed p => .pushCommitted p ∈ log
  | _ => True

theorem Node.CommittedHere.mono {s t : Node} {p : PBFTProposal} (h : s.CommittedHere p) (hlog : ∀ a ∈ s.log, a ∈ t.log) :
    t.CommittedHere p := by
  obtain ⟨c, quorum, w, hmem, hp, hw⟩ := h
  exact ⟨c, quorum, w, hlog _ hmem, hp, hw⟩

theorem Emits.pushed {E : Env} {s : Node} {l : Label} {p : PBFTProposal} (h : Emits E s l (.pushCommitted p)) :
    ∃ source, l = .push source p := by
  have hsend : ∀ {dst : Option NodeID} {msg : Message}, Action.pushCommitted p ∉ sendActions E s.cfg.keyPair dst msg := by
    intro dst msg hmem
    rcases mem_sendActions hmem with ⟨r, heq⟩ | ⟨packet, data, heq⟩ <;> cases heq
  cases h with
  | neutral _ hn => cases hn
  | push source => exact ⟨source, rfl⟩
  | preCommit hc hm hp henough ha => simp [PBFTCache.precommitActions, hsend] at ha
  | vote ha => simp [voteActions, hsend] at ha
  | announce h hs ha => simp [announceActions, checkPointActions, hsend] at ha
  | resend hc hp ha => simp [checkPointActions, hsend] at ha
  | newView h ha => exact absurd ha hsend
  | sendViewChange ha => exact absurd ha hsend

theorem Prim.queue_pushed {E : Env} {l : Label} {s t : Node} (h : Prim E l s t)
    (hqueue : ∀ p ∈ s.committedQueue, Action.pushCommitted p ∈ s.log) :
    ∀ p ∈ t.committedQueue, Action.pushCommitted p ∈ t.log := by
  intro p hp
  rcases h.intake.queue p hp with hp | ⟨source, rfl⟩
  · exact h.log_mono _ (hqueue p hp)
  · cases h with
    | push => exact List.mem_append_right _ List.mem_cons_self

theorem Prim.flight_pushed {E : Env} {l : Label} {s t : Node} (h : Prim E l s t)
    (hqueue : ∀ p ∈ s.committedQueue, Action.pushCommitted p ∈ s.log)
    (hflight : ∀ x ∈ s.roots, Action.pushCommitted x.2 ∈ s.log) :
    ∀ x ∈ t.roots, Action.pushCommitted x.2 ∈ t.log := by
  intro x hx
  have hmono := h.log_mono
  rcases h.roots hx with hx | rfl
  · exact hmono _ (hflight x hx)
  · cases h with
    | apply _ hq => exact hmono _ (hqueue x.2 (by rw [hq]; exact List.mem_cons_self))

namespace Accounted

variable {E : Env} {J : PBFTProposal → Prop} {log : List Action} {l : Label} {s t : Node}

theorem committedHere (hs : Accounted J s) {p : PBFTProposal} (hp : s.Pushes p) : s.CommittedHere p := by
  obtain ⟨c, quorum, hmem, hp⟩ := hp
  obtain ⟨k₁, k₂, hk⟩ := List.append_of_mem hmem
  obtain ⟨h, ⟨hpre, -, w, hw, hquorum⟩, -⟩ := hs.locks.log k₁ _ k₂ hk
  obtain ⟨m, hm, hmp⟩ := Option.bind_eq_some_iff.1 hp
  have hhash : p.hash = h := by
    rw [hm, Option.map_some] at hpre
    exact (hs.reports c quorum hmem m p (Or.inr hm) hmp).trans (Option.some.inj hpre)
  exact ⟨c, quorum, w, hmem, hp, by rw [hhash, hw], hquorum⟩

theorem step (h : Prim E l s t) (hlog : ∀ a ∈ log, a ∈ s.log) (hl : l.Vouched J log) (hs : Accounted J s) :
    Accounted J t := by
  have hmono := h.log_mono
  have hfiled : ∀ i c, t.caches.find? i = some c → c.FiledByHash := by
    intro i c hc
    refine h.carries hs.filed (fun m p hm hp => ?_) hc
    subst hm
    exact hl p hp
  refine ⟨h.locks hs.locks, hfiled, fun c quorum hmem => ?_, fun c hc => ?_, fun p hp => ?_, fun x hx => ?_, fun p hp => ?_⟩
  · rcases h.reported hmem with hmem | ⟨-, i, hc⟩
    · exact hs.reports c quorum hmem
    · exact hfiled i c hc
  · rcases h.intake.loading c hc with hc | rfl
    · exact hs.loading c hc
    · exact hl
  · exact h.queue_pushed hs.queue p hp
  · exact h.flight_pushed hs.queue hs.flight x hx
  · have hold : Action.pushCommitted p ∈ s.log → t.CommittedHere p ∨ J p := fun hp =>
      (hs.pushed p hp).imp_left (fun h => h.mono hmono)
    obtain ⟨k, hk, hemits⟩ := h.log
    rw [hk] at hp
    rcases List.mem_append.1 hp with hp | hp
    · exact hold hp
    obtain ⟨source, rfl⟩ := (hemits _ hp).pushed
    cases source with
    | committed =>
      cases h with
      | push _ hx hpushes => exact Or.inl ((hs.committedHere (hpushes rfl)).mono hmono)
    | loaded => exact Or.inr hl
    | failed => exact hold (hlog _ hl)

theorem steps {A : Label → Prop} (hA : ∀ l, A l → l.Vouched J s.log) (h : Steps E A s t) (hs : Accounted J s) :
    Accounted J t := by
  refine (Labelled.Steps.preserves (I := fun u => Accounted J u ∧ ∀ a ∈ s.log, a ∈ u.log) (fun l u v hl hp hu => ?_) h
    ⟨hs, fun _ ha => ha⟩).1
  exact ⟨hu.1.step hp hu.2 (hA l hl), fun a ha => hp.log_mono a (hu.2 a ha)⟩

theorem mono {K : PBFTProposal → Prop} (hs : Accounted J s) (hJK : ∀ p, J p → K p) : Accounted K s :=
  ⟨hs.locks, hs.filed, hs.reports, fun c hc => hJK _ (hs.loading c hc), hs.queue, hs.flight,
    fun p hp => (hs.pushed p hp).imp_right (hJK p)⟩

theorem event_of_stored {e : Event} (h : BcosPbft.step E s e = some t)
    (hstored : ∀ m ∈ e.stores s, s.checkPrePrepareMsg m = true → ∀ p ∈ m.consensusProposal, p.hash = m.hash)
    (hs : Accounted J s) (hJ : ∀ p, e.fetches E s p → J p) : Accounted J t := by
  refine hs.steps (fun l hl => ?_) (step_steps h)
  cases l with
  | store m => exact hstored m hl.1 hl.2
  | load p =>
    rcases hl with ⟨i, n, -, hload⟩ | hfetch
    · exact hs.loading _ (List.mem_of_getElem? hload)
    · exact hJ p hfetch
  | push source p =>
    cases source with
    | committed => trivial
    | loaded =>
      obtain ⟨i, n, -, hload⟩ := hl
      exact hs.loading _ (List.mem_of_getElem? hload)
    | failed =>
      obtain ⟨r, ⟨-, rest, happ⟩, -, rfl⟩ := hl
      refine hs.flight (r.lastApplied, r.proposal) (List.mem_append_right _ ?_)
      rw [happ]
      exact List.mem_cons_self
  | _ => trivial

theorem event {e : Event} (h : BcosPbft.step E s e = some t) (hok : e.Vouched E s) (hs : Accounted J s)
    (hJ : ∀ p, e.fetches E s p → J p) : Accounted J t := hs.event_of_stored h hok.stored hJ

end Accounted

theorem initNode_accounted {E : Env} {keyPair : KeyPair} {l : LedgerConfig} {state : List PBFTProposal} {s₀ : Node}
    {J : PBFTProposal → Prop} (hinit : initNode E keyPair l state = some s₀) (hl : 0 ≤ l.blockNumber)
    (hstate : ∀ p ∈ state, l.blockNumber < p.index) (hJ : ∀ p ∈ state, J p) : Accounted J s₀ := by
  have hlocks := initNode_locks hinit hl hstate
  let A : Label → Prop := fun label => label.Vouched J []
  obtain ⟨s, hsteps, hs⟩ := initNode_cases (A := A) trivial trivial trivial hJ hinit
  have hstart : Accounted J { cfg := ({ keyPair := keyPair, timeoutState := true } : Config).setCommittedProposal l.proposal } := by
    refine ⟨locks_of_ledger keyPair hl, ?_, ?_, ?_, ?_, ?_, ?_⟩
    all_goals simp [Node.roots, OrdMap.find?_empty]
  have hempty := Accounted.steps (fun l hl => hl) hsteps hstart
  rcases hs with rfl | ⟨last, -, rfl⟩
  · exact hempty
  · exact ⟨hlocks, hempty.filed, hempty.reports, hempty.loading, hempty.queue, hempty.flight, hempty.pushed⟩

/-- Every proposal that was pushed was committed here or delivered with the signatures of a quorum. -/
def CommitSound (E : Env) (state : List PBFTProposal) (s₀ : Node) (trace : List (Node × Event)) (s : Node) : Prop :=
  ∀ p, Action.pushCommitted p ∈ s.log → s.CommittedHere p ∨ Delivered E state s₀ trace p

/-- Over a run in which every pre-prepare that is stored is filed under the hash of its proposal, and what the storage
and the peers hand over carries the signatures of a quorum, whatever is pushed into the commit queue was committed here
or delivered so. -/
theorem commitQueue_sound {E : Env} {keyPair : KeyPair} {l : LedgerConfig} {state : List PBFTProposal} {s₀ s : Node}
    {trace : List (Node × Event)} (hinit : initNode E keyPair l state = some s₀) (hl : 0 ≤ l.blockNumber)
    (hstate : ∀ p ∈ state, l.blockNumber < p.index ∧ QuorumSigned E s₀.cfg p.hash p.proof)
    (hrun : Trail (step E) s₀ trace s) (hok : ∀ x ∈ trace, x.2.Vouched E x.1) : CommitSound E state s₀ trace s := by
  suffices h : Accounted (Delivered E state s₀ trace) s from h.pushed
  induction hrun with
  | nil => exact initNode_accounted hinit hl (fun p hp => (hstate p hp).1) (fun p hp => Or.inl ⟨hp, (hstate p hp).2⟩)
  | @snoc trace u v e hpath hstep ih =>
    have hlast := hok (u, e) (List.mem_append_right _ List.mem_cons_self)
    have hu := ih (fun x hx => hok x (List.mem_append_left _ hx))
    have hgrow : ∀ p, Delivered E state s₀ trace p → Delivered E state s₀ (trace ++ [(u, e)]) p := by
      intro p hp
      refine hp.imp_right (fun h => ?_)
      obtain ⟨x, hx, hp⟩ := h
      exact ⟨x, List.mem_append_left _ hx, hp⟩
    refine (hu.mono hgrow).event hstep hlast (fun p hp => Or.inr ?_)
    exact ⟨(u, e), List.mem_append_right _ List.mem_cons_self, hp, hlast.fetched p hp⟩

def toyProven (signers : List UInt8) : PBFTProposal :=
  { Toy.proposal 7 with nodeList := signers.map (fun b => (b.toNat : Int))
                        signatureList := signers.map (fun b => b :: (Toy.proposal 7).hash.val) }

def toyDelivery (signers : List UInt8) : Bytes :=
  (PBFTCodec.encode Toy.env (Toy.keyPair 0) 0
    (.pbft { packetType := .CommittedProposalResponse, raw := { proposals := [toyProven signers] } })).1

def toyFetch (signers : List UInt8) : List Event :=
  Toy.atOnce [.timeout, .receive [0] (toyCheckPoint 0) [], .worker, .committedResponse 0 (some (toyDelivery signers)),
    .proposalLoaded 0 (.result true)]

def Message.delivers (l : List PBFTProposal) : Message → Bool
  | .pbft m => decide (m.proposals = l)
  | _ => false

theorem toyFetch_signed : ∃ trace s, Trail.states (step Toy.env) (Toy.node 3 [1, 1, 1, 1])
    (toyFetch [0, 1, 2]) = some (trace, s) ∧
    Action.pushCommitted (toyProven [0, 1, 2]) ∈ s.log ∧
    CommitSound Toy.env [] (Toy.node 3 [1, 1, 1, 1]) trace s := by
  have hinit : initNode Toy.env (Toy.keyPair 3)
      { blockNumber := 0, hash := zeroHash, consensusNodeList := Toy.nodes [1, 1, 1, 1] } [] =
        some (Toy.node 3 [1, 1, 1, 1]) := by decide +kernel
  have hrun : ((Trail.states (step Toy.env) (Toy.node 3 [1, 1, 1, 1]) (toyFetch [0, 1, 2])).elim false fun r =>
      decide (Action.pushCommitted (toyProven [0, 1, 2]) ∈ r.2.log) && r.1.all fun x =>
        decide (x.1.checkPrecommitWeight Toy.env (toyProven [0, 1, 2]) = some true) &&
          decide (x.1.cfg.minRequiredQuorum.toNat ≤ signerWeight x.1.cfg (toyProven [0, 1, 2]).proof)) = true := by
    decide +kernel
  have hdecode : (PBFTCodec.decode Toy.env (toyDelivery [0, 1, 2])).elim false (Message.delivers [toyProven [0, 1, 2]]) =
      true := by decide +kernel
  obtain ⟨⟨trace, s⟩, hs, hcheck⟩ := Toy.exists_of_elim hrun
  simp only [Bool.and_eq_true, decide_eq_true_eq, List.all_eq_true] at hcheck
  obtain ⟨hpush, hsigned⟩ := hcheck
  refine ⟨trace, s, hs, hpush, commitQueue_sound hinit le_rfl (by simp) (.of_states hs) (fun x hx => ⟨?_, ?_⟩)⟩
  · have hstores : x.2.stores x.1 = none := by
      have hmem := Trail.mem_events hs hx
      simp only [toyFetch, Toy.atOnce, List.flatMap_cons, List.flatMap_nil, List.replicate, List.cons_append, List.nil_append,
        List.mem_cons, List.not_mem_nil, or_false, or_self_left] at hmem
      rcases hmem with h | h | h | h | h | h <;> rw [h] <;> rfl
    simp [hstores]
  · intro p hp
    obtain ⟨i, data, he, -, -, b, m, rfl, hm, -, hmem⟩ := hp
    have hevent := Trail.mem_events hs hx
    rw [he] at hevent
    simp only [toyFetch, Toy.atOnce, List.flatMap_cons, List.flatMap_nil, List.replicate, List.cons_append, List.nil_append,
      List.mem_cons, List.not_mem_nil, or_false, reduceCtorEq, false_or, Event.committedResponse.injEq,
      Option.some.injEq] at hevent
    obtain ⟨-, rfl⟩ := hevent
    simp only [hm, Option.elim_some, Message.delivers, decide_eq_true_eq] at hdecode
    rw [hdecode, List.mem_singleton] at hmem
    subst hmem
    obtain ⟨hweight, hquorum⟩ := hsigned x hx
    exact (quorumSigned_iff (Node.checkPrecommitWeight_spec hweight)).2 hquorum

/-- Node 0 alone has the weight of the faulty nodes, and what it answers without any signature is pushed. -/
theorem toyFetch_unsigned : (Toy.node 3 [1, 1, 1, 1]).cfg.weightAt 0 ≤ (Toy.node 3 [1, 1, 1, 1]).cfg.maxFaultyQuorum.toNat ∧
    (∀ fromNode data stored, Event.receive fromNode data stored ∈ toyFetch [] → fromNode = [0]) ∧
    ∃ trace s, Trail.states (step Toy.env) (Toy.node 3 [1, 1, 1, 1]) (toyFetch []) = some (trace, s) ∧
      ¬CommitSound Toy.env [] (Toy.node 3 [1, 1, 1, 1]) trace s := by
  refine ⟨by decide +kernel, ?_, ?_⟩
  · intro fromNode data stored h
    simp only [toyFetch, Toy.atOnce, List.flatMap_cons, List.flatMap_nil, List.replicate, List.cons_append, List.nil_append,
      List.mem_cons, List.not_mem_nil, or_false, reduceCtorEq, false_or, Event.receive.injEq] at h
    exact h.1
  have hrun : ((Trail.states (step Toy.env) (Toy.node 3 [1, 1, 1, 1]) (toyFetch [])).elim false fun r =>
      (decide (Action.pushCommitted (toyProven []) ∈ r.2.log) && r.2.log.all fun a => !a.isReport) &&
        r.1.all fun x => decide (0 < x.1.cfg.minRequiredQuorum.toNat)) = true := by
    decide +kernel
  obtain ⟨⟨trace, s⟩, hs, hcheck⟩ := Toy.exists_of_elim hrun
  simp only [Bool.and_eq_true, decide_eq_true_eq, List.all_eq_true] at hcheck
  obtain ⟨⟨hpush, hreport⟩, hquorum⟩ := hcheck
  refine ⟨trace, s, hs, fun h => ?_⟩
  rcases h _ hpush with ⟨c, quorum, w, hmem, -⟩ | ⟨hstate, -⟩ | ⟨x, hx, -, hsigned⟩
  · have hno := hreport _ hmem
    cases hno
  · cases hstate
  · rw [quorumSigned_iff (fun e he => by cases he)] at hsigned
    have hpos := hquorum x hx
    have hzero : signerWeight x.1.cfg (toyProven []).proof = 0 := rfl
    omega

end BcosPbft
