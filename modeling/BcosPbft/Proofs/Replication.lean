import BcosPbft.Lib.Replay
import BcosPbft.Proofs.Availability
import BcosPbft.Proofs.Submission

/-! One replicated chain. The honest nodes of a group push one block for an index, so executing the pushed blocks one after
the other gives one hash for every index; each node announces it, hands it to the ledger and takes it back as committed,
whatever the order of its messages, executions and failures. -/

namespace BcosPbft

structure Node.Replays (E : Env) (start : Int) (hash : Int → HashType) (s : Node) : Prop where
  pushed : PushesChain E start hash s.log
  announced : ∀ dst m data, Action.send dst (.pbft m) data ∈ s.log → m.packetType = .CheckPoint → m.hash = hash m.index
  submitted : ∀ p, Action.asyncCommitStableCheckPoint p ∈ s.log → start < p.index ∧ p.hash = hash p.index
  committed : ∀ p, s.cfg.committedProposal = some p → start ≤ p.index ∧ p.hash = hash p.index

structure Submits (start : Int) (hash : Int → HashType) (s : Node) : Prop where
  queue : ∀ p ∈ s.stableCheckPointQueue, start < p.index ∧ p.hash = hash p.index
  log : ∀ p, Action.asyncCommitStableCheckPoint p ∈ s.log → start < p.index ∧ p.hash = hash p.index

section

variable {E : Env} {start : Int} {hash : Int → HashType}

theorem Prim.submits {l : Label} {s t : Node} (h : Prim E l s t) (hexec : Executes E start hash s)
    (hs : Submits start hash s) : Submits start hash t := by
  constructor
  · intro p hp
    rcases h.mem_stableCheckPointQueue hp with hp | rfl
    · exact hs.queue p hp
    · cases h with
      | pushStable _ h =>
        obtain ⟨i, c, hc, hcheck, -⟩ := h
        exact (hexec.checkPoints i c p hc hcheck).2
  · intro p hp
    obtain ⟨k, hk, hemits⟩ := h.log
    rw [hk] at hp
    rcases List.mem_append.1 hp with hp | hp
    · exact hs.log p hp
    · exact hs.queue p (hemits _ hp).submitted.2.1

theorem Steps.executes_submits {A : Label → Prop} {s t : Node} (hA : ∀ l, A l → l.OnChain start hash) (h : Steps E A s t)
    (hpush : PushesChain E start hash t.log) (hs : Executes E start hash s ∧ Submits start hash s) :
    Executes E start hash t ∧ Submits start hash t := by
  refine Labelled.Steps.preserves
    (I := fun u => PushesChain E start hash u.log → Executes E start hash u ∧ Submits start hash u)
    (fun l u v hl hp hu hpush => ?_) h (fun _ => hs) hpush
  obtain ⟨k, hk, -⟩ := hp.log
  obtain ⟨hexec, hsubmits⟩ := hu (PushesChain.earlier (k := k) (hk ▸ hpush))
  exact ⟨hp.executes (hA l hl) hpush hexec, hp.submits hexec hsubmits⟩

theorem step_executes_submits {s t : Node} {e : Event} (he : OnChain start hash e) (h : step E s e = some t)
    (hpush : PushesChain E start hash t.log) (hs : Executes E start hash s ∧ Submits start hash s) :
    Executes E start hash t ∧ Submits start hash t := by
  refine Steps.executes_submits (fun l hl => ?_) (step_steps h) hpush hs
  cases l with
  | ledger b =>
    rcases hl with rfl | rfl
    · exact he
    · exact he
  | setCheckPoint p =>
    obtain ⟨r, ⟨-, rest, hr⟩, hsucc, rfl⟩ := hl
    exact hs.1.applied r (by rw [hr]; exact List.mem_cons_self) hsucc
  | _ => trivial

theorem initNode_submits {keyPair : KeyPair} {l : LedgerConfig} {state : List PBFTProposal} {s₀ : Node}
    (hinit : initNode E keyPair l state = some s₀) : Submits start hash s₀ := by
  let A : Label → Prop := fun label => label ≠ .popStable ∧ ∀ p, label ≠ .pushStable p
  obtain ⟨s, hsteps, hs⟩ := initNode_steps (A := A) ⟨nofun, nofun⟩ ⟨nofun, nofun⟩ ⟨nofun, nofun⟩ ⟨nofun, nofun⟩
    (fun _ _ => ⟨nofun, nofun⟩) hinit
  have hstart : Submits start hash s := by
    refine Labelled.Steps.preserves (I := Submits start hash) (fun label u v hl hp hu => ⟨fun p hm => ?_, fun p hm => ?_⟩)
      hsteps ⟨nofun, nofun⟩
    · exact hu.queue p ((hp.mem_stableCheckPointQueue hm).resolve_right (hl.2 p))
    · obtain ⟨k, hk, hemits⟩ := hp.log
      rw [hk] at hm
      exact hu.log p ((List.mem_append.1 hm).resolve_right fun hm => hl.1 (hemits _ hm).submitted.1)
  rcases hs with rfl | ⟨last, -, rfl⟩
  · exact hstart
  · exact ⟨hstart.queue, hstart.log⟩

end

namespace Group

variable {E : Env} {g : Group} {w₀ w : World}

/-- Some honest node has committed a proposal of this index and hash. -/
def Commits (g : Group) (w : World) (i : Int) (h : HashType) : Prop :=
  ∃ X p, g.Honest X ∧ (w X).Pushes p ∧ p.index = i ∧ p.hash = h

/-- The conditions of ordering agreement, for messages that are about one block each; a peer hands over only what some honest
node has committed, and the ledger reports only checkpoints that the node has handed to it. -/
structure Delivers (g : Group) (E : Env) (w : World) (X : IndexType) (e : Event) : Prop where
  admits : g.Admits E w e
  clean : g.Clean E w X e
  binds : e.Binds E (w X)
  fetched : ∀ p, e.fetches E (w X) p → p.Headed E ∧ g.Commits w p.index p.hash
  reported : ∀ l, e = .finalized l → ∃ p, Action.asyncCommitStableCheckPoint p ∈ (w X).log ∧ p.index = l.blockNumber ∧
    p.hash = l.hash

/-- Every honest node starts on the same block of the ledger, with nothing stored above it. -/
def StartsAt (g : Group) (E : Env) (start : Int) (first : HashType) (w : World) : Prop :=
  0 ≤ start ∧ ∀ X, g.Honest X → ∃ keyPair l, initNode E keyPair l [] = some (w X) ∧
    l.consensusNodeList = g.consensusNodeList ∧ (w X).cfg.nodeIndex = X ∧ l.blockNumber = start ∧ l.hash = first

/-- The scheduler returns the header of the block it is given, and on the pushed blocks it is a function of the block's hash
and the parent. -/
structure Schedules (g : Group) (E : Env) (w : World) : Prop where
  number : ∀ data parent n, E.headerNumber data = some n → (E.execute data parent).number = n
  deterministic : ∀ X Y p q, g.Honest X → g.Honest Y → Action.pushCommitted p ∈ (w X).log →
    Action.pushCommitted q ∈ (w Y).log → p.hash = q.hash → ∀ parent, E.execute p.data parent = E.execute q.data parent

theorem StartsAt.boots {start : Int} {first : HashType} (h : g.StartsAt E start first w) : g.Boots E w := by
  intro X hX
  obtain ⟨keyPair, l, hnode, hl, hself, rfl, -⟩ := h.2 X hX
  exact ⟨keyPair, l, [], hnode, hl, hself, h.1, by simp⟩

theorem Delivers.ordered {X : IndexType} {e : Event} (h : g.Delivers E w X e) : g.Admits E w e ∧ g.Clean E w X e :=
  ⟨h.admits, h.clean⟩

theorem Commits.update {X : IndexType} {s : Node} {i : Int} {h : HashType} (hc : g.Commits w i h)
    (hlog : ∀ a ∈ (w X).log, a ∈ s.log) : g.Commits (Function.update w X s) i h := by
  obtain ⟨Y, p, hY, ⟨c, quorum, hmem, hp⟩, hi⟩ := hc
  refine ⟨Y, p, hY, ⟨c, quorum, ?_, hp⟩, hi⟩
  by_cases heq : Y = X
  · subst heq
    rw [Function.update_self]
    exact hlog _ hmem
  · rw [Function.update_of_ne heq]
    exact hmem

/-- What an honest node pushes is headed by its index and hash, and committed by an honest node. -/
theorem Run.pushed (hempty : ∀ i sealer, E.headerNumber (E.emptyBlock i sealer).2 = some i ∧
      E.headerHash (E.emptyBlock i sealer).2 = (E.emptyBlock i sealer).1)
    {start : Int} {first : HashType} (hinit : g.StartsAt E start first w₀) (hrun : g.Run E (g.Delivers E) w₀ w)
    {X : IndexType} (hX : g.Honest X) {p : PBFTProposal} (hp : Action.pushCommitted p ∈ (w X).log) :
    p.Headed E ∧ g.Commits w p.index p.hash := by
  have hbindings : ∀ Y, g.Honest Y → Bindings E (w Y) := by
    refine hrun.each (I := fun _ n => Bindings E n) (fun hY hok hs ih => (ih _ hY).event hempty hs hok.binds)
      (fun _ h => h) (fun Y hY => ?_)
    obtain ⟨keyPair, l, hnode, -⟩ := hinit.2 Y hY
    exact initNode_bindings hempty hnode (by simp)
  have haccounted : ∀ Y, g.Honest Y → Accounted (fun q => q.Headed E ∧ g.Commits w q.index q.hash) (w Y) := by
    refine hrun.each (I := fun w n => Accounted (fun q => q.Headed E ∧ g.Commits w q.index q.hash) n)
      (fun {w Y e s} hY hok hs ih => ?_) (fun hlog h => h.mono fun q hq => ⟨hq.1, hq.2.update hlog⟩) (fun Y hY => ?_)
    · exact (ih Y hY).event_of_stored hs (fun m hm hcheck q hq => ((hok.clean.stored m hm hcheck).1 q hq).2) hok.fetched
    · obtain ⟨keyPair, l, hnode, -, -, hstart, -⟩ := hinit.2 Y hY
      exact initNode_accounted hnode (hstart ▸ hinit.1) nofun nofun
  rcases (haccounted X hX).pushed p hp with ⟨c, quorum, v, hmem, hcp, -⟩ | hdelivered
  · have hpushes : (w X).Pushes p := ⟨c, quorum, hmem, hcp⟩
    obtain ⟨-, -, m, -, -, -, hindex, hhash, hnumber, hheader⟩ := (hbindings X hX).pushes hpushes
    exact ⟨⟨hnumber.trans (congrArg some hindex.symm), hheader.trans hhash.symm⟩, X, p, hX, hpushes, rfl, rfl⟩
  · exact hdelivered

/-- While everything that is pushed extends a chain, every honest node executes and submits it. -/
theorem Run.executes {start : Int} {first : HashType} {hash : Int → HashType} (hinit : g.StartsAt E start first w₀)
    (hfirst : hash start = first) (hrun : g.Run E (g.Delivers E) w₀ w)
    (hpush : ∀ X, g.Honest X → PushesChain E start hash (w X).log) :
    ∀ X, g.Honest X → Executes E start hash (w X) ∧ Submits start hash (w X) := by
  induction hrun with
  | refl =>
    intro X hX
    obtain ⟨keyPair, l, hnode, -, -, rfl, hl⟩ := hinit.2 X hX
    exact ⟨initNode_executes (hl.trans hfirst.symm) hnode (hpush X hX), initNode_submits hnode⟩
  | @step w Y e s hrun hY hok hs ih =>
    obtain ⟨k, hk⟩ := (step_steps hs).log
    have hlog : PushesChain E start hash s.log := by
      have hpushY := hpush Y hY
      rwa [Function.update_self] at hpushY
    have hbefore := ih fun X hX => by
      by_cases heq : X = Y
      · rw [heq]
        exact PushesChain.earlier (k := k) (hk ▸ hlog)
      · have hpushX := hpush X hX
        rwa [Function.update_of_ne heq] at hpushX
    intro X hX
    by_cases heq : X = Y
    · subst heq
      rw [Function.update_self]
      refine step_executes_submits ?_ hs hlog (hbefore X hX)
      -- what the ledger reports is one of the node's own checkpoints
      cases e with
      | finalized l =>
        obtain ⟨p, hp, hindex, hhash⟩ := hok.reported l rfl
        obtain ⟨hstart, hchain⟩ := (hbefore X hX).2.log p hp
        rw [hindex] at hstart hchain
        exact ⟨hstart.le, hhash.symm.trans hchain⟩
      | newBlock l => exact absurd rfl (hok.admits.noSync l)
      | _ => trivial
    · rw [Function.update_of_ne heq]
      exact hbefore X hX

def Fills (g : Group) (w : World) (start : Int) (n : ℕ) (p : PBFTProposal) : Prop :=
  p.index = start + n + 1 ∧ ∃ X, g.Honest X ∧ Action.pushCommitted p ∈ (w X).log

/-- The hash of the executed block, on top of this parent. -/
def executedHash (E : Env) (p : PBFTProposal) (parent : HashType) : HashType :=
  (E.execute p.data (some (p.index - 1, parent))).hash

/-- The hash of the block at an index, from executing what was pushed one after the other. -/
noncomputable def chain (g : Group) (E : Env) (w : World) (start : Int) (first : HashType) (i : Int) : HashType :=
  Replay.state (g.Fills w start) (executedHash E) first (i - start).toNat

/-- Over any run of a group, there is one chain of executed blocks for all honest nodes: what a node pushes is executed on
the hash before its index, and gives the hash that every honest node announces, submits to the ledger and has committed. -/
theorem replication (hpb : E.pb.baseMessage.Lawful)
    (hempty : ∀ i sealer, E.headerNumber (E.emptyBlock i sealer).2 = some i ∧
      E.headerHash (E.emptyBlock i sealer).2 = (E.emptyBlock i sealer).1)
    (hsize : g.Tolerates E) {start : Int} {first : HashType} (hinit : g.StartsAt E start first w₀)
    (hrun : g.Run E (g.Delivers E) w₀ w) (hexec : g.Schedules E w) :
    ∃ hash : Int → HashType, hash start = first ∧ ∀ X, g.Honest X → (w X).Replays E start hash := by
  have hordered : g.Run E (fun w X e => g.Admits E w e ∧ g.Clean E w X e) w₀ w := hrun.mono fun _ _ _ h => h.ordered
  have hagrees := hordered.agrees hpb hsize hinit.boots.initial
  have halike : Replay.Alike (g.Fills w start) (executedHash E) := by
    rintro n p q ⟨hp, X, hX, hpX⟩ ⟨hq, Y, hY, hqY⟩ parent
    obtain ⟨-, X', p', hX', hp', hpi, hph⟩ := hrun.pushed hempty hinit hX hpX
    obtain ⟨-, Y', q', hY', hq', hqi, hqh⟩ := hrun.pushed hempty hinit hY hqY
    have hhash : p.hash = q.hash := by
      rw [← hph, ← hqh]
      exact hagrees X' Y' p' q' hX' hY' hp' hq' (by omega)
    unfold executedHash
    rw [hexec.deterministic X Y p q hX hY hpX hqY hhash, hp, hq]
  have hfirst : g.chain E w start first start = first := by
    rw [chain, sub_self]
    rfl
  have hpush : ∀ X, g.Honest X → PushesChain E start (g.chain E w start first) (w X).log := by
    intro X hX p hp hstart
    obtain ⟨⟨hnumber, -⟩, -⟩ := hrun.pushed hempty hinit hX hp
    refine ⟨hexec.number _ _ _ hnumber, ?_⟩
    obtain ⟨n, hn⟩ := Int.eq_ofNat_of_zero_le (show 0 ≤ p.index - 1 - start by omega)
    have hfill : g.Fills w start n p := ⟨by omega, X, hX, hp⟩
    have hnext := halike.state_succ first hfill
    rw [chain, chain, hn, show p.index - start = (n + 1 : ℕ) by omega, Int.toNat_natCast, Int.toNat_natCast]
    exact hnext.symm
  refine ⟨g.chain E w start first, hfirst, fun X hX => ?_⟩
  obtain ⟨hexecutes, hsubmits⟩ := hrun.executes hinit hfirst hpush X hX
  exact ⟨hpush X hX, hexecutes.log, hsubmits.log, hexecutes.committed⟩

end Group

def toyNumberedHeader : ExecutedHeader := Toy.numbered.execute (toyNumberedBlock 8).data (some (0, zeroHash))

def toyNumberedResult : PBFTProposal :=
  { proposal := { index := 1, hash := toyNumberedHeader.hash.val, data := toyNumberedHeader.encoded,
                  extraData := (toyNumberedBlock 8).data } }

def toyReplicated (senders : List UInt8) : List Event :=
  toyCommit senders ++ Toy.atOnce (.executed 0 false :: .proposalApplied :: .proposalApplied ::
    senders.flatMap (fun b => [toyPacket b (populateVote Toy.numbered (Toy.keyPair b) .CheckPoint 0 0 0
      b.toNat.toUInt64 toyNumberedResult), .worker]) ++
    [.finalized { blockNumber := 1, hash := toyNumberedHeader.hash, consensusNodeList := Toy.nodes [1, 1, 2] }])

def submitsBlock (l : LedgerConfig) : Action → Bool
  | .asyncCommitStableCheckPoint p => p.index = l.blockNumber && p.hash = l.hash
  | _ => false

def toyDelivers (s : Node) (e : Event) : Bool :=
  toyChecked s e &&
    match e with
    | .finalized l => s.log.any (submitsBlock l) && l.consensusNodeList = Toy.nodes [1, 1, 2]
    | _ => true

def pushesToyBlock : Action → Bool
  | .pushCommitted p => p.data = (toyNumberedBlock 8).data
  | _ => true

namespace Group

theorem toy_startsAt : toy.StartsAt Toy.numbered 0 zeroHash toyWorld := by
  refine ⟨le_rfl, fun X hX => ?_⟩
  rcases toy_honest.1 hX with rfl | rfl
  · refine ⟨Toy.keyPair 0, { blockNumber := 0, hash := zeroHash, consensusNodeList := Toy.nodes [1, 1, 2] }, ?_, rfl, ?_, rfl,
      rfl⟩
    · decide +kernel
    · decide +kernel
  · refine ⟨Toy.keyPair 2, { blockNumber := 0, hash := zeroHash, consensusNodeList := Toy.nodes [1, 1, 2] }, ?_, rfl, ?_, rfl,
      rfl⟩
    · decide +kernel
    · decide +kernel

theorem toyDelivers_spec {w : World} {X : IndexType} {e : Event} (hcheck : toyDelivers (w X) e = true)
    (hfollows : e.follows = true) (hgenuine : toy.Genuine Toy.numbered w e) : toy.Delivers Toy.numbered w X e := by
  simp only [toyDelivers, Bool.and_eq_true] at hcheck
  obtain ⟨hstep, hledger⟩ := hcheck
  have hbinds := toyChecked_binds hstep hfollows
  simp only [toyChecked, Bool.and_eq_true] at hstep
  have hsync : ∀ l, e ≠ .newBlock l := by
    rintro l rfl
    cases hfollows
  refine ⟨⟨fun l hl => ?_, hsync, ?_, ?_⟩, hgenuine.clean (of_decide_eq_true hstep.1.1), hbinds, ?_, fun l hl => ?_⟩
  · subst hl
    simp only [Bool.and_eq_true, decide_eq_true_eq] at hledger
    exact hledger.2
  · exact fun m hm hspeaks => ⟨_, (hgenuine m hm hspeaks.1).1, (vote_decode hm).1.symm⟩
  · exact fun m hm hspeaks _ data hmem => (hgenuine m hm hspeaks.1).2 _ hmem data rfl
  · rintro p ⟨i, data, rfl, -⟩
    cases hfollows
  · subst hl
    simp only [Bool.and_eq_true, decide_eq_true_eq, List.any_eq_true] at hledger
    obtain ⟨⟨a, ha, hmatch⟩, -⟩ := hledger
    unfold submitsBlock at hmatch
    split at hmatch
    · rename_i p
      simp only [Bool.and_eq_true, decide_eq_true_eq] at hmatch
      exact ⟨p, ha, hmatch⟩
    · cases hmatch

theorem toyReplicated_follows : ∀ senders, senders = [1] ∨ senders = [2] → ∀ e ∈ toyReplicated senders, e.follows = true ∧
    ∀ m ∈ e.vote Toy.numbered, m.generatedFrom = 1 ∨ senders = [2] ∧ m.generatedFrom = 2 := by
  rintro senders (rfl | rfl) <;> decide +kernel

theorem toySchedules {w : World} (hlogs : ∀ X, toy.Honest X → (w X).log.all pushesToyBlock = true) :
    toy.Schedules Toy.numbered w := by
  refine ⟨fun data parent n hn => ?_, fun X Y p q hX hY hp hq _ parent => ?_⟩
  · change ((Serial.int.dec data).map Prod.fst).getD 0 = n
    rw [show (Serial.int.dec data).map Prod.fst = some n from hn]
    rfl
  · have hdata := of_decide_eq_true (List.all_eq_true.1 (hlogs X hX) _ hp)
    have hdata' := of_decide_eq_true (List.all_eq_true.1 (hlogs Y hY) _ hq)
    rw [hdata, hdata']

/-- Node 2 runs with the votes of the faulty node 1, node 0 with those of node 2. -/
theorem toyReplicated_chain : ∃ (w : World) (hash : Int → HashType), (w 0).cfg.committedIndex = 1 ∧
    (w 2).cfg.committedIndex = 1 ∧ hash 0 = zeroHash ∧ ∀ X, toy.Honest X → (w X).Replays Toy.numbered 0 hash := by
  have hsecond : ((toyReplicated [1]).foldlM (fun s e => if toyDelivers s e then BcosPbft.step Toy.numbered s e else none)
      (toyWorld 2)).elim false (fun b => decide (b.cfg.committedIndex = 1) && (b.log.all pushesToyBlock &&
        decide (∀ e ∈ toyReplicated [2], toy.Genuine Toy.numbered (fun _ => b) e))) = true := by
    decide +kernel
  have hfirst : ((toyReplicated [2]).foldlM (fun s e => if toyDelivers s e then BcosPbft.step Toy.numbered s e else none)
      (toyWorld 0)).elim false (fun a => decide (a.cfg.committedIndex = 1) && a.log.all pushesToyBlock) = true := by
    decide +kernel
  obtain ⟨b, hb, hcheckb⟩ := Toy.exists_of_elim hsecond
  obtain ⟨a, ha, hchecka⟩ := Toy.exists_of_elim hfirst
  simp only [Bool.and_eq_true, decide_eq_true_eq] at hcheckb hchecka
  obtain ⟨hbi, hbpush, hbgenuine⟩ := hcheckb
  obtain ⟨hai, hapush⟩ := hchecka
  have hzero : toy.Honest 0 := toy_honest.2 (Or.inl rfl)
  have htwo : toy.Honest 2 := toy_honest.2 (Or.inr rfl)
  have hrunb : toy.Run Toy.numbered (toy.Delivers Toy.numbered) toyWorld (Function.update toyWorld 2 b) := by
    refine Run.foldlM htwo (fun e he u hcheck => ?_) ?_ hb
    · obtain ⟨hfollows, hvotes⟩ := toyReplicated_follows [1] (Or.inl rfl) e he
      refine toyDelivers_spec (by rw [Function.update_self]; exact hcheck) hfollows (fun m hm hm' => ?_)
      rcases hvotes m hm with hone | ⟨hsenders, -⟩
      · rw [hone] at hm'
        exact absurd hm' (by decide)
      · cases hsenders
    · rw [Function.update_eq_self]
      exact .refl
  have hrun : toy.Run Toy.numbered (toy.Delivers Toy.numbered) toyWorld
      (Function.update (Function.update toyWorld 2 b) 0 a) := by
    refine Run.foldlM hzero (fun e he u hcheck => ?_) (t := toyWorld 0) ?_ ha
    · obtain ⟨hfollows, hvotes⟩ := toyReplicated_follows [2] (Or.inr rfl) e he
      refine toyDelivers_spec (by rw [Function.update_self]; exact hcheck) hfollows (fun m hm hm' => ?_)
      rcases hvotes m hm with hone | ⟨-, hsender⟩
      · rw [hone] at hm'
        exact absurd hm' (by decide)
      · have hstate : Function.update (Function.update toyWorld 2 b) 0 u m.generatedFrom = b := by
          rw [hsender, Function.update_of_ne (by decide), Function.update_self]
        rw [hstate]
        exact hbgenuine e he m hm hm'
    · have hinit : Function.update toyWorld 2 b 0 = toyWorld 0 := Function.update_of_ne (by decide) _ _
      rw [← hinit, Function.update_eq_self]
      exact hrunb
  have hstate0 : Function.update (Function.update toyWorld 2 b) 0 a 0 = a := Function.update_self ..
  have hstate2 : Function.update (Function.update toyWorld 2 b) 0 a 2 = b := by
    rw [Function.update_of_ne (by decide), Function.update_self]
  have hexec : toy.Schedules Toy.numbered (Function.update (Function.update toyWorld 2 b) 0 a) := by
    refine toySchedules fun X hX => ?_
    rcases toy_honest.1 hX with rfl | rfl
    · rw [hstate0]
      exact hapush
    · rw [hstate2]
      exact hbpush
  obtain ⟨hash, hstart, hreplays⟩ := replication Toy.protobuf_lawful.baseMessage toyNumbered_empty toy_tolerates
    toy_startsAt hrun hexec
  exact ⟨_, hash, by rw [hstate0]; exact hai, by rw [hstate2]; exact hbi, hstart, hreplays⟩

end Group

end BcosPbft
