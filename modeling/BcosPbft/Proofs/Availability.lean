import BcosPbft.Proofs.Binding

/-! What stands behind a committed proposal. A node precommits what it has stored, with the data, after the verifier or its
own sealer gave it; so a commit tells of honest nodes that outweigh the faulty ones and hold the block. -/

namespace BcosPbft

def Node.HasStored (s : Node) (i : Int) (h : HashType) (r : RawProposal) : Prop :=
  ∃ j m p, Action.storePrePrepare j m ∈ s.log ∧ m.index = i ∧ m.hash = h ∧ m.consensusProposal = some p ∧ p.proposal = r

theorem Node.HasStored.mono {s t : Node} {i : Int} {h : HashType} {r : RawProposal} (hs : s.HasStored i h r)
    (hlog : ∀ a ∈ s.log, a ∈ t.log) : t.HasStored i h r := by
  obtain ⟨j, m, p, hmem, hm⟩ := hs
  exact ⟨j, m, p, hlog _ hmem, hm⟩

theorem PBFTCache.Carries.mono {P Q : Int → HashType → RawProposal → Prop} {c : PBFTCache} (hc : c.Carries P)
    (hPQ : ∀ i h r, P i h r → Q i h r) : c.Carries Q :=
  fun m p hm hp => hPQ _ _ _ (hc m p hm hp)

structure Recorded (s : Node) : Prop where
  caches : ∀ i c, s.caches.find? i = some c → c.Carries s.HasStored
  precommits : ∀ i m, Action.precommit i m ∈ s.log → ∃ p, m.consensusProposal = some p ∧
    s.HasStored m.index m.hash p.proposal
  reports : ∀ c quorum, Action.reportCommit c quorum ∈ s.log → c.Carries s.HasStored

theorem Emits.precommit_proposal {E : Env} {s : Node} {l : Label} {i : Int} {m : PBFTMessage}
    (h : Emits E s l (.precommit i m)) :
    ∃ j c p, s.caches.find? j = some c ∧ c.prePrepare = some m ∧ m.consensusProposal = some p := by
  cases h with
  | neutral _ hn => cases hn
  | @preCommit j c m' p _ hc hm hp henough ha =>
    rcases mem_precommitActions ha with heq | hfree
    · obtain ⟨-, rfl⟩ := Action.precommit.inj heq
      exact ⟨j, c, p, hc, hm, hp⟩
    · cases hfree
  | vote ha => cases voteActions_lockFree _ ha
  | announce h hs ha => cases announceActions_lockFree _ ha
  | resend hc hp ha => cases checkPointActions_lockFree _ ha
  | newView h ha => cases sendActions_lockFree _ ha
  | sendViewChange ha => cases sendActions_lockFree _ ha

theorem Node.addPrePrepareCache_logged (s : Node) (m : PBFTMessage)
    (h : ((s.caches.find? m.index).getD { index := m.index }).acceptsPrePrepare m = true) :
    Action.storePrePrepare ((s.caches.find? m.index).getD { index := m.index }).index m ∈
      (s.addCache m (fun c => c.addPrePrepareCache m)).log := by
  refine List.mem_append_right _ ?_
  change _ ∈ (PBFTCache.addPrePrepareCache _ m).2
  rw [PBFTCache.addPrePrepareCache, if_pos h]
  exact List.mem_cons_self

section

variable {E : Env} {l : Label} {s t : Node}

theorem Recorded.caches_step (h : Prim E l s t) (hs : Recorded s) (i : Int) (c' : PBFTCache)
    (hc' : t.caches.find? i = some c') : c'.Carries t.HasStored := by
  have hold : ((s.caches.find? i).getD { index := i }).Carries t.HasStored := by
    cases hc : s.caches.find? i with
    | none => exact .empty i
    | some c => exact (hs.caches i c hc).mono fun _ _ _ hstored => hstored.mono h.log_mono
  by_cases hl : ∃ m, l = .store m
  · obtain ⟨m, rfl⟩ := hl
    have hlogged : ∀ d, d = (s.caches.find? m.index).getD { index := m.index } → d.acceptsPrePrepare m = true →
        ∃ j, Action.storePrePrepare j m ∈ t.log := by
      rintro d rfl haccepts
      cases h with
      | store => exact ⟨_, s.addPrePrepareCache_logged m haccepts⟩
    have hstep := h.cacheStep hc'
    generalize hd : (s.caches.find? i).getD { index := i } = d at hold hstep
    cases hstep with
    | same => exact hold
    | store _ _ haccepts =>
      obtain ⟨j, hmem⟩ := hlogged d hd.symm haccepts
      intro m' p hm' hp
      rcases hm' with hm' | hm'
      · obtain rfl := Option.some.inj hm'
        exact ⟨j, m, p, hmem, rfl, rfl, hp, rfl⟩
      · exact hold m' p (Or.inr hm') hp
  · exact (h.cacheStep hc').carries hold fun m p hm _ => absurd ⟨m, hm⟩ hl

theorem Prim.recorded (h : Prim E l s t) (hs : Recorded s) : Recorded t := by
  refine ⟨hs.caches_step h, fun i m hmem => ?_, fun c quorum hmem => ?_⟩
  · obtain ⟨k, hk, hemits⟩ := h.log
    have hmono := h.log_mono
    rw [hk] at hmem
    rcases List.mem_append.1 hmem with hmem | hmem
    · obtain ⟨p, hp, hstored⟩ := hs.precommits i m hmem
      exact ⟨p, hp, hstored.mono hmono⟩
    · obtain ⟨j, c, p, hc, hm, hp⟩ := (hemits _ hmem).precommit_proposal
      exact ⟨p, hp, (hs.caches j c hc m p (Or.inl hm) hp).mono hmono⟩
  · rcases h.reported hmem with hmem | ⟨-, i, hc⟩
    · exact (hs.reports c quorum hmem).mono fun _ _ _ hstored => hstored.mono h.log_mono
    · exact hs.caches_step h i c hc

theorem Recorded.steps {A : Label → Prop} (h : Steps E A s t) (hs : Recorded s) : Recorded t :=
  Labelled.Steps.preserves (fun _ _ _ _ hp hs => hp.recorded hs) h hs

theorem initNode_recorded {keyPair : KeyPair} {b : LedgerConfig} {state : List PBFTProposal} {s₀ : Node}
    (hinit : initNode E keyPair b state = some s₀) : Recorded s₀ := by
  obtain ⟨s, hsteps, hs⟩ := initNode_steps (A := fun _ => True) trivial trivial trivial trivial (fun _ _ => trivial) hinit
  have hstart : Recorded { cfg := { keyPair := keyPair, timeoutState := true } } := by
    refine ⟨fun i c hc => ?_, fun i m hmem => ?_, fun c quorum hmem => ?_⟩
    · cases hc
    · cases hmem
    · cases hmem
  have hrecorded := hstart.steps hsteps
  rcases hs with rfl | ⟨last, -, rfl⟩
  · exact hrecorded
  · exact ⟨hrecorded.caches, hrecorded.precommits, hrecorded.reports⟩

theorem initNode_stored {keyPair : KeyPair} {b : LedgerConfig} {state : List PBFTProposal} {s₀ : Node}
    (hinit : initNode E keyPair b state = some s₀) (i : Int) (m : PBFTMessage) : Action.storePrePrepare i m ∉ s₀.log := by
  let A : Label → Prop := fun label => ∀ m, label ≠ .store m
  have hA : ∀ label : Label, label.keeping = true → A label := by
    rintro label hl m rfl
    cases hl
  obtain ⟨s, hsteps, hs⟩ := initNode_steps (A := A) (hA _ rfl) (hA _ rfl) (hA _ rfl) (hA _ rfl) (fun _ _ => hA _ rfl) hinit
  have hnone : ∀ i m, Action.storePrePrepare i m ∉ s.log := by
    refine Labelled.Steps.preserves (I := fun n => ∀ i m, Action.storePrePrepare i m ∉ n.log)
      (fun l u v hl hp hu i m hmem => ?_) hsteps (fun i m hmem => by cases hmem)
    rcases hp.stored hmem with hmem | ⟨rfl, -⟩
    · exact hu i m hmem
    · exact hl m rfl
  rcases hs with rfl | ⟨last, -, rfl⟩ <;> exact hnone i m

end

theorem Bindings.holds {E : Env} {s : Node} (hs : Bindings E s) {i : Int} {h : HashType} {r : RawProposal}
    (hr : s.HasStored i h r) : Bounded E i h r := by
  obtain ⟨j, m, p, hmem, rfl, rfl, hp, rfl⟩ := hr
  exact (hs.stored j m hmem).2.2.bounded hp

namespace Group

variable {E : Env} {g : Group} {w₀ w : World}

def weightAt (g : Group) (E : Env) (X : IndexType) : ℕ :=
  Quorum.weightAt (fun n => n.weight.toNat) (Config.sortNodes E g.consensusNodeList) X.toNat

/-- The weights add up to a number of 64 bits, and the faulty nodes have at most what the quorum allows for. -/
structure Tolerates (g : Group) (E : Env) : Prop where
  pos : 1 ≤ Config.totalWeight g.consensusNodeList
  lt : Config.totalWeight g.consensusNodeList < 2 ^ 64
  faulty : ∑ X ∈ g.faulty, g.weightAt E X ≤ Quorum.maxFaulty (Config.totalWeight g.consensusNodeList)

theorem sum_weightAt_le (g : Group) (E : Env) (S : Finset IndexType) :
    ∑ X ∈ S, g.weightAt E X ≤ Config.totalWeight g.consensusNodeList := by
  rw [← Config.totalWeight_sortNodes E]
  exact Quorum.sum_weightAt_le_of_injective _ (fun _ _ => UInt64.toNat_inj.1) _ _

theorem Run.mono {ok ok' : World → IndexType → Event → Prop} (hok : ∀ w X e, ok w X e → ok' w X e)
    (h : g.Run E ok w₀ w) : g.Run E ok' w₀ w := by
  induction h with
  | refl => exact .refl
  | step _ hX hstep hs ih => exact ih.step hX (hok _ _ _ hstep) hs

/-- What holds of every honest node at the start, is kept by its own steps and not lost by those of the others, holds of
every honest node in the end. -/
theorem Run.each {ok : World → IndexType → Event → Prop} {I : World → Node → Prop}
    (hstep : ∀ {w X e s}, g.Honest X → ok w X e → BcosPbft.step E (w X) e = some s → (∀ Y, g.Honest Y → I w (w Y)) → I w s)
    (hmono : ∀ {w X s n}, (∀ a ∈ (w X).log, a ∈ s.log) → I w n → I (Function.update w X s) n)
    (h : g.Run E ok w₀ w) (h₀ : ∀ X, g.Honest X → I w₀ (w₀ X)) : ∀ X, g.Honest X → I w (w X) := by
  induction h with
  | refl => exact h₀
  | @step w Y e s _ hY hok hs ih =>
    intro X hX
    have hlog : ∀ a ∈ (w Y).log, a ∈ s.log := by
      obtain ⟨k, hk⟩ := (step_steps hs).log
      intro a ha
      rw [hk]
      exact List.mem_append_left k ha
    by_cases heq : X = Y
    · subst heq
      rw [Function.update_self]
      exact hmono hlog (hstep hY hok hs ih)
    · rw [Function.update_of_ne heq]
      exact hmono hlog (ih X hX)

/-- Behind a pushed proposal stands a quorum whose honest members have precommitted its hash at its index. -/
theorem Run.quorum (hpb : E.pb.baseMessage.Lawful) (hsize : g.Tolerates E) (hinit : g.Initial E w₀)
    (hrun : g.Run E (fun w X e => g.Admits E w e ∧ g.Clean E w X e) w₀ w) {X : IndexType} {p : PBFTProposal}
    (hX : g.Honest X) (hp : (w X).Pushes p) :
    ∃ S : Finset IndexType, Quorum.minRequired (Config.totalWeight g.consensusNodeList) ≤ ∑ Y ∈ S, g.weightAt E Y ∧
      ∀ Y ∈ S, Y ∉ g.faulty → g.Honest Y ∧ ∃ m, Action.precommit p.index m ∈ (w Y).log ∧ m.hash = p.hash := by
  obtain ⟨keyPair, l, state, hnode, hl, hself, hnonneg, hstate⟩ := hinit X hX
  obtain ⟨-, hlist, hco⟩ := initNode_sound (g.Votes E w) hnode hnonneg hstate
  rw [hl] at hlist
  have htotal : Config.totalWeight (w₀ X).cfg.consensusNodeList = Config.totalWeight g.consensusNodeList := by
    rw [hlist, Config.totalWeight_sortNodes]
  have hexact := htotal ▸ hco.exact (htotal ▸ hsize.pos) (htotal ▸ hsize.lt)
  obtain ⟨hsound, hsame⟩ := hrun.sound hpb hinit hX
  obtain ⟨S, hS, hbacked⟩ := hsound.pushes p hp
  rw [hsame.required, hexact.required] at hS
  simp only [Config.weightAt, hsame.list, hlist] at hS
  refine ⟨S, hS, fun Y hY hgood => ?_⟩
  obtain ⟨hlen, hb⟩ := hbacked Y hY
  rw [hsame.list, hlist, Config.sortNodes, List.length_insertionSort] at hlen
  have hhonest : g.Honest Y := ⟨hlen, hgood⟩
  have hvoted : Voted E (w Y) p.index p.hash := by
    rcases hb with hb | ⟨hYX, hv⟩
    · exact hb hhonest
    · rw [hYX, hsame.nodeIndex, hself]
      exact hv
  exact ⟨hhonest, (hrun.sound hpb hinit hhonest).1.votes _ _ hvoted⟩

/-- Two quorums of precommits have an honest member in common. -/
theorem Run.agrees (hpb : E.pb.baseMessage.Lawful) (hsize : g.Tolerates E) (hinit : g.Initial E w₀)
    (hrun : g.Run E (fun w X e => g.Admits E w e ∧ g.Clean E w X e) w₀ w) : g.Agrees w := by
  intro X Y p q hX hY hp hq hindex
  obtain ⟨S, hS, hprecommits⟩ := hrun.quorum hpb hsize hinit hX hp
  obtain ⟨S', hS', hprecommits'⟩ := hrun.quorum hpb hsize hinit hY hq
  rw [← hindex] at hprecommits'
  refine Quorum.eq_of_quorums
    (P := fun Z hash => g.Honest Z ∧ ∃ m, Action.precommit p.index m ∈ (w Z).log ∧ m.hash = hash) _ hsize.pos
    (g.sum_weightAt_le E _) hS hS' hsize.faulty hprecommits hprecommits' (fun Z _ _ hv hv' => ?_)
  obtain ⟨hZ, m, hm, hhash⟩ := hv
  obtain ⟨-, m', hm', hhash'⟩ := hv'
  rw [← hhash, ← hhash']
  exact (hrun.sound hpb hinit hZ).1.unique _ m m' hm hm'

/-- Every honest node starts with the list of the group, and what its storage kept has the number of its block. -/
def Boots (g : Group) (E : Env) (w : World) : Prop :=
  ∀ X, g.Honest X → ∃ keyPair l state, initNode E keyPair l state = some (w X) ∧
    l.consensusNodeList = g.consensusNodeList ∧ (w X).cfg.nodeIndex = X ∧ 0 ≤ l.blockNumber ∧
    ∀ p ∈ state, l.blockNumber < p.index ∧ p.Numbered E

theorem Boots.initial (h : g.Boots E w) : g.Initial E w := by
  intro X hX
  obtain ⟨keyPair, l, state, hnode, hl, hself, hnonneg, hstate⟩ := h X hX
  exact ⟨keyPair, l, state, hnode, hl, hself, hnonneg, fun p hp => (hstate p hp).1⟩

/-- The conditions of ordering agreement, for messages that are about one block each, and the verifier and the sealer let
only blocks pass that are valid. -/
structure Verifies (g : Group) (E : Env) (valid : RawProposal → Prop) (w : World) (X : IndexType) (e : Event) : Prop where
  admits : g.Admits E w e
  clean : g.Clean E w X e
  binds : e.Binds E (w X)
  verified : ∀ m ∈ e.stores (w X), (w X).checkPrePrepareMsg m = true → ∀ p ∈ m.consensusProposal, valid p.proposal

/-- The proposal is valid, and honest nodes that outweigh all that may be faulty hold a valid block of its index and hash,
with the data. -/
structure Available (g : Group) (E : Env) (valid : RawProposal → Prop) (w : World) (p : PBFTProposal) : Prop where
  accepted : valid p.proposal
  holders : ∃ H : Finset IndexType, Quorum.maxFaulty (Config.totalWeight g.consensusNodeList) < ∑ Y ∈ H, g.weightAt E Y ∧
    ∀ Y ∈ H, g.Honest Y ∧ ∃ r, (w Y).HasStored p.index p.hash r ∧ Bounded E p.index p.hash r ∧ valid r

theorem Run.stored_valid {valid : RawProposal → Prop} (hinit : g.Boots E w₀) (hrun : g.Run E (g.Verifies E valid) w₀ w)
    {X : IndexType} (hX : g.Honest X) :
    ∀ i m p, Action.storePrePrepare i m ∈ (w X).log → m.consensusProposal = some p → valid p.proposal := by
  refine hrun.each (I := fun _ n => ∀ i m p, Action.storePrePrepare i m ∈ n.log → m.consensusProposal = some p →
    valid p.proposal) (fun {w Y e s} hY hok hs ih => ?_) (fun _ h => h) (fun Y hY => ?_) X hX
  · refine Labelled.Steps.preserves (I := fun n => ∀ i m p, Action.storePrePrepare i m ∈ n.log →
      m.consensusProposal = some p → valid p.proposal) (fun l u v hl hp hu i m p hmem hm => ?_) (step_steps hs) (ih Y hY)
    rcases hp.stored hmem with hmem | ⟨rfl, -⟩
    · exact hu i m p hmem hm
    · exact hok.verified m hl.1 hl.2 p hm
  · obtain ⟨keyPair, l, state, hnode, -⟩ := hinit Y hY
    exact fun i m p hmem => absurd hmem (initNode_stored hnode i m)

theorem Verifies.ordered {valid : RawProposal → Prop} {X : IndexType} {e : Event} (h : g.Verifies E valid w X e) :
    g.Admits E w e ∧ g.Clean E w X e := ⟨h.admits, h.clean⟩

/-- Over any run of the group, whatever an honest node commits is valid, and honest nodes that outweigh all that may be
faulty have stored a valid block of that index and hash together with its data. -/
theorem commit_available {valid : RawProposal → Prop} (hpb : E.pb.baseMessage.Lawful)
    (hempty : ∀ i sealer, E.headerNumber (E.emptyBlock i sealer).2 = some i ∧
      E.headerHash (E.emptyBlock i sealer).2 = (E.emptyBlock i sealer).1)
    (hsize : g.Tolerates E) (hinit : g.Boots E w₀) (hrun : g.Run E (g.Verifies E valid) w₀ w) {X : IndexType}
    {p : PBFTProposal} (hX : g.Honest X) (hp : (w X).Pushes p) : g.Available E valid w p := by
  have hordered : g.Run E (fun w X e => g.Admits E w e ∧ g.Clean E w X e) w₀ w := hrun.mono fun _ _ _ h => h.ordered
  have hbindings : ∀ Y, g.Honest Y → Bindings E (w Y) := by
    refine hrun.each (I := fun _ n => Bindings E n) (fun hY hok hs ih => (ih _ hY).event hempty hs hok.binds)
      (fun _ h => h) (fun Y hY => ?_)
    obtain ⟨keyPair, l, state, hnode, -, -, -, hstate⟩ := hinit Y hY
    exact initNode_bindings hempty hnode fun q hq => (hstate q hq).2
  have hrecorded : ∀ Y, g.Honest Y → Recorded (w Y) := by
    refine hrun.each (I := fun _ n => Recorded n) (fun hY _ hs ih => (ih _ hY).steps (step_steps hs)) (fun _ h => h)
      (fun Y hY => ?_)
    obtain ⟨keyPair, l, state, hnode, -⟩ := hinit Y hY
    exact initNode_recorded hnode
  have hvalid : ∀ {Y i h r}, g.Honest Y → (w Y).HasStored i h r → valid r := by
    rintro Y i h r hY ⟨j, m, q, hmem, -, -, hq, rfl⟩
    exact hrun.stored_valid hinit hY j m q hmem hq
  constructor
  · obtain ⟨c, quorum, m, hmem, hm, hmp, -⟩ := (hbindings X hX).pushes hp
    exact hvalid hX ((hrecorded X hX).reports c quorum hmem m p (Or.inr hm) hmp)
  · obtain ⟨S, hS, hprecommits⟩ := hordered.quorum hpb hsize hinit.initial hX hp
    refine ⟨S \ g.faulty, Quorum.maxFaulty_lt_sdiff _ hsize.pos hS hsize.faulty, fun Y hY => ?_⟩
    obtain ⟨hYS, hgood⟩ := Finset.mem_sdiff.1 hY
    obtain ⟨hhonest, m, hmem, hhash⟩ := hprecommits Y hYS hgood
    obtain ⟨q, -, hstored⟩ := (hrecorded Y hhonest).precommits _ m hmem
    rw [((hordered.sound hpb hinit.initial hhonest).1.precommits _ m hmem).2, hhash] at hstored
    exact ⟨hhonest, q.proposal, hstored, (hbindings Y hhonest).holds hstored, hvalid hhonest hstored⟩

end Group

def toyNumberedBlock (content : UInt8) : PBFTProposal :=
  let data := Serial.int.enc 1 ++ [content]
  { proposal := { index := 1, hash := (Toy.checksum data).val, data := data } }

def toyPacket (sender : UInt8) (m : PBFTMessage) : Event :=
  .receive [sender] (PBFTCodec.encode Toy.numbered (Toy.keyPair sender) 0 (.pbft m)).1 []

def toyNumberedVote (t : PacketType) (sender content : UInt8) : Event :=
  toyPacket sender (populateVote Toy.numbered (Toy.keyPair sender) t 0 0 0 sender.toNat.toUInt64 (toyNumberedBlock content))

def toyCommit (senders : List UInt8) : List Event :=
  Toy.atOnce (toyPacket 1 (populatePrePrepare .PrePreparePacket (toyNumberedBlock 8) 0 0 0 1) :: .worker ::
    .proposalVerified 0 (.result true) :: senders.flatMap (fun b => [toyNumberedVote .PreparePacket b 8, .worker]) ++
    senders.flatMap (fun b => [toyNumberedVote .CommitPacket b 8, .worker]))

def toyValid (r : RawProposal) : Prop := Toy.numbered.headerNumber r.data = some 1

instance (r : RawProposal) : Decidable (toyValid r) := inferInstanceAs (Decidable (_ = _))

/-- The conditions on a step that can be read off the state it starts in. -/
def toyChecked (s : Node) (e : Event) : Bool :=
  Group.storesClean s e &&
    decide (∀ m ∈ e.stores s, ∀ p ∈ m.consensusProposal, toyValid p.proposal) &&
    s.msgQueue.all fun msg =>
      match msg with
      | .pbft m => m.packetType ≠ .PrePreparePacket || m.Bound Toy.numbered
      | _ => false

def Event.follows : Event → Bool
  | .receive _ _ _ | .gate | .worker | .proposalVerified _ _ | .executed _ _ | .proposalApplied | .finalized _ => true
  | _ => false

theorem toyChecked_binds {s : Node} {e : Event} (h : toyChecked s e = true) (he : e.follows = true) :
    e.Binds Toy.numbered s := by
  simp only [toyChecked, Bool.and_eq_true] at h
  have hqueue : ∀ msg, e.handles s msg → ∃ m, msg = .pbft m ∧ (m.packetType = .PrePreparePacket → m.Bound Toy.numbered) := by
    rintro msg ⟨-, -, rest, hq⟩
    have hmem := List.all_eq_true.1 h.2 msg (by rw [hq]; exact List.mem_cons_self)
    split at hmem
    · rename_i m
      refine ⟨m, rfl, fun htype => ?_⟩
      simpa [htype] using hmem
    · cases hmem
  refine ⟨?_, fun m hm htype _ => ?_, fun v hv => ?_, fun v hv => ?_, ?_, ?_⟩
  · rintro i b rfl
    cases he
  · obtain ⟨m', heq, hbound⟩ := hqueue _ hm
    obtain rfl := Message.pbft.inj heq
    exact hbound htype
  · obtain ⟨m, heq, -⟩ := hqueue _ hv
    cases heq
  · obtain ⟨m, heq, -⟩ := hqueue _ hv
    cases heq
  · rintro i data m₀ m rfl
    cases he
  · rintro p ⟨i, data, rfl, -⟩
    cases he

theorem toyNumbered_empty (i sealer : Int) : Toy.numbered.headerNumber (Toy.numbered.emptyBlock i sealer).2 = some i ∧
    Toy.numbered.headerHash (Toy.numbered.emptyBlock i sealer).2 = (Toy.numbered.emptyBlock i sealer).1 := by
  have hdec := Serial.int.dec_enc i []
  rw [List.append_nil] at hdec
  refine ⟨?_, rfl⟩
  change (Serial.int.dec (Serial.int.enc i)).map Prod.fst = some i
  rw [hdec]
  rfl

namespace Group

theorem toy_boots : toy.Boots Toy.numbered toyWorld := by
  intro X hX
  rcases toy_honest.1 hX with rfl | rfl
  · refine ⟨Toy.keyPair 0, { blockNumber := 0, hash := zeroHash, consensusNodeList := Toy.nodes [1, 1, 2] }, [], ?_, rfl, ?_,
      by simp⟩
    · decide +kernel
    · decide +kernel
  · refine ⟨Toy.keyPair 2, { blockNumber := 0, hash := zeroHash, consensusNodeList := Toy.nodes [1, 1, 2] }, [], ?_, rfl, ?_,
      by simp⟩
    · decide +kernel
    · decide +kernel

theorem toy_tolerates : toy.Tolerates Toy.numbered := ⟨by decide, by decide, by decide +kernel⟩

/-- Node 2 commits the block of the faulty leader, with its votes. -/
theorem toyCommit_available : ∃ w p, (w 2).Pushes p ∧ p.index = 1 ∧ toy.Available Toy.numbered toyValid w p := by
  have hrun : ((toyCommit [1]).foldlM (fun s e => if toyChecked s e then BcosPbft.step Toy.numbered s e else none)
      (toyWorld 2)).elim false (fun s => pushesAt s (toyNumberedBlock 8).hash) = true := by decide +kernel
  have hvotes : ∀ e ∈ toyCommit [1], e.follows = true ∧ (∀ l, e ≠ .finalized l) ∧
      ∀ m ∈ e.vote Toy.numbered, m.generatedFrom = 1 := by
    have hfollows : ∀ e ∈ toyCommit [1], e.follows = true ∧ (∀ m ∈ e.vote Toy.numbered, m.generatedFrom = 1) := by
      decide +kernel
    intro e he
    refine ⟨(hfollows e he).1, ?_, (hfollows e he).2⟩
    rintro l rfl
    simp [toyCommit, Toy.atOnce, toyNumberedVote, toyPacket, List.replicate] at he
  obtain ⟨s, hs, hpush⟩ := Toy.exists_of_elim hrun
  obtain ⟨p, hp, hindex, -⟩ := pushes_of_pushesAt hpush
  have hhonest : toy.Honest 2 := toy_honest.2 (Or.inr rfl)
  have hgroup : toy.Run Toy.numbered (toy.Verifies Toy.numbered toyValid) toyWorld (Function.update toyWorld 2 s) := by
    refine Run.foldlM hhonest (fun e he u hcheck => ?_) ?_ hs
    · obtain ⟨hfollows, hfinal, hfaulty⟩ := hvotes e he
      have hgenuine : toy.Genuine Toy.numbered (Function.update toyWorld 2 u) e := by
        intro m hm hm'
        rw [hfaulty m hm] at hm'
        exact absurd hm' (by decide)
      have hself : Function.update toyWorld 2 u 2 = u := Function.update_self ..
      have hbinds := toyChecked_binds hcheck hfollows
      simp only [toyChecked, Bool.and_eq_true, decide_eq_true_eq] at hcheck
      refine ⟨hgenuine.admits hfinal ?_, hgenuine.clean ?_, by rw [hself]; exact hbinds, ?_⟩
      · rintro l rfl
        cases hfollows
      · rw [hself]
        exact of_decide_eq_true hcheck.1.1
      · rw [hself]
        exact fun m hm _ => hcheck.1.2 m hm
    · rw [Function.update_eq_self]
      exact .refl
  have hpushed : (Function.update toyWorld 2 s 2).Pushes p := by
    rw [Function.update_self]
    exact hp
  exact ⟨_, p, hpushed, hindex, commit_available Toy.protobuf_lawful.baseMessage toyNumbered_empty toy_tolerates toy_boots
    hgroup hhonest hpushed⟩

end Group

end BcosPbft
