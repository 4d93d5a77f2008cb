import BcosPbft.Proofs.Availability
import BcosPbft.Proofs.Confluence
import BcosPbft.Proofs.Duty
import BcosPbft.Proofs.Leaders
import BcosPbft.Proofs.RoundTrip

/-! A block is committed where the network and the nodes let it. A quorum that holds the pre-prepare of a view and hears each
other's votes while it waits for the index has reported the block, whatever else has happened to its members. -/

namespace BcosPbft

/-- The node is in view `v`, waits for index `i`, and its worker has admitted the message at the head of the queue. -/
def Node.attends (s : Node) (v : ViewType) (i : Int) : Bool :=
  s.workerStage = .admitted && s.inWindow i && s.cfg.view = v

/-- The bytes of a prepare or commit vote for index `i` in view `v` that is sent to all nodes. -/
def Action.ballot (v : ViewType) (i : Int) : Action → Option Bytes
  | .send none (.pbft m) data =>
    if m.index = i ∧ m.view = v ∧ (m.packetType = .PreparePacket ∨ m.packetType = .CommitPacket) then some data else none
  | _ => none

/-- The worker handles the message of these bytes, whoever it came from, while the node is in the view and waits for the
index. -/
def Node.Hears (E : Env) (v : ViewType) (i : Int) (data : Bytes) (s : Node) (e : Event) : Prop :=
  e = .worker ∧ s.attends v i = true ∧ ∃ msg ∈ PBFTCodec.decode E data,
    s.msgQueue.head?.map (Message.setFrom []) = some (msg.setFrom [])

instance (E : Env) (v : ViewType) (i : Int) (data : Bytes) (s : Node) (e : Event) : Decidable (s.Hears E v i data e) :=
  inferInstanceAs (Decidable (_ ∧ _ ∧ ∃ msg ∈ PBFTCodec.decode E data, _))

section

variable {E : Env} {s t : Node} {v : ViewType} {i : Int} {k : VoteKind} {m : PBFTMessage}

namespace Node

theorem attends_iff : s.attends v i = true ↔ s.workerStage = .admitted ∧ s.inWindow i = true ∧ s.cfg.view = v := by
  simp [attends, and_assoc]

theorem checkPBFTMsg_of_inWindow (hw : s.inWindow i = true) (hv : s.cfg.view = v) (hindex : m.index = i) (hview : m.view = v)
    (hp : m.consensusProposal.isSome = true) (hown : m.generatedFrom ≠ s.cfg.nodeIndex)
    (haged : ∀ c, s.caches.find? i = some c → ∀ p, c.prePrepare = some p → p.view ≤ s.cfg.view)
    (hsig : s.checkSignature E (.pbft m) = true) : s.checkPBFTMsg E m = true := by
  have hstate := checkPBFTMsgState_window hw hindex (hview.trans hv.symm) hp
  have hconflict : (s.existPrePrepare m && s.conflictWithProcessedReq m) = false := by
    unfold existPrePrepare conflictWithProcessedReq
    rw [hindex]
    cases hc : s.caches.find? i with
    | none => rfl
    | some c =>
      rw [Option.any_some, Option.any_some, Bool.and_eq_false_iff, or_iff_not_imp_left, Bool.not_eq_false]
      intro hexist
      unfold PBFTCache.existPrePrepare at hexist
      cases hm : c.prePrepare with
      | none => simp [PBFTCache.conflictWithProcessedReq, hm, hview, hv]
      | some p =>
        have hage := haged c hc p hm
        rw [hm] at hexist
        simp only [Bool.and_eq_true, decide_eq_true_eq] at hexist
        rw [hv, ← hview] at hage
        have hsame : p.view = m.view := le_antisymm hage hexist.2
        simp [PBFTCache.conflictWithProcessedReq, hm, hsame, hexist.1, hview, hv]
  unfold checkPBFTMsg
  rw [hstate, hconflict, hsig]
  simp [hown]

theorem holds_addCache {f : PBFTCache → PBFTCache × List Action}
    (hf : ∀ c, (f c).1.voteTally k = PBFTCache.addCache s.cfg c (c.voteTally k).1 (c.voteTally k).2 m) (hlocks : Locks s)
    (hfresh : s.Fresh) (hindex : m.index = i) (hview : m.view = v) (hv : s.cfg.view = v)
    (hnode : (s.cfg.getConsensusNodeByIndex m.generatedFrom).isSome = true) :
    (s.addCache m f).Holds k v i m.hash m.generatedFrom := by
  subst hindex
  intro _ _
  have hpurged : ((s.caches.find? m.index).getD { index := m.index }).Purged v := by
    rw [← hv]
    cases hc : s.caches.find? m.index with
    | none => exact .of_fromView (fun _ _ hl => by cases hl) (fun _ _ hl => by cases hl)
    | some c => exact hfresh m.index c hc
  have hfrom : PBFTCache.FromView v (((s.caches.find? m.index).getD { index := m.index }).voteTally k).1 := by
    cases k with
    | prepare => exact hpurged.prepare
    | commit => exact hpurged.commit
  refine ⟨_, OrdMap.find?_insert_self _ _ _, ?_⟩
  unfold PBFTCache.Holds
  rw [hf]
  exact addCache_files (hlocks.filed_getD m.index).index.symm hnode hview.ge hfrom

end Node

theorem Node.holds_turning (E : Env) (k : VoteKind) (v : ViewType) (i : Int) (hash : HashType) (j : IndexType) :
    Turning E (fun l => l ≠ .view ∧ l ≠ .reset) (Node.Holds k v i hash j) := by
  refine Node.Holds.turning (fun l hl => ⟨?_, ?_⟩) (fun h => h.1 rfl) fun h => h.2 rfl
  · rintro rfl
    cases hl
  · rintro rfl
    cases hl

/-- What a signed vote of node `j` comes to after its way over the wire. -/
structure PBFTMessage.Received (E : Env) (k : VoteKind) (v : ViewType) (j : IndexType) (publicKey : NodeID) (p : PBFTProposal)
    (m : PBFTMessage) : Prop where
  packetType : m.packetType = k.packetType
  index : m.index = p.index
  hash : m.hash = p.hash
  view : m.view = v
  generatedFrom : m.generatedFrom = j
  proposal : ∃ q, m.consensusProposal = some q ∧ q.signature.length ≠ 0 ∧ E.crypto.verify publicKey q.hash q.signature = true
  signed : m.verifySignature E publicKey = true

theorem decode_populateVote (hpb : E.pb.Lawful) {keyPair : KeyPair} (hsign : E.crypto.Verifies keyPair)
    (hsigned : ∀ h, (E.crypto.sign keyPair h).length ≠ 0) (k : VoteKind) (v : ViewType) (now : Int) (j : IndexType)
    (p : PBFTProposal) :
    ∃ m, PBFTCodec.decode E (PBFTCodec.encode E keyPair 0 (.pbft (populateVote E keyPair k.packetType 0 v now j p))).1 =
      some (.pbft m) ∧ m.Received E k v j keyPair.publicKey p := by
  obtain ⟨m, hm, hsame, hverify⟩ := decode_encode_message hpb hsign 0 (m := populateVote E keyPair k.packetType 0 v now j p)
    (by cases k <;> rfl)
  have hbase := hsame.base
  refine ⟨m, hm, hsame.packetType, ?_, ?_, ?_, ?_, ⟨_, hsame.consensusProposal, hsigned _, ?_⟩, hverify⟩
  · rw [PBFTMessage.index, hbase]
    rfl
  · rw [PBFTMessage.hash, hbase]
    exact toHash_val p.hash
  · rw [PBFTMessage.view, hbase]
    rfl
  · rw [PBFTMessage.generatedFrom, hbase]
    rfl
  · change E.crypto.verify keyPair.publicKey (toHash p.hash.val) (E.crypto.sign keyPair p.hash) = true
    rw [toHash_val]
    exact hsign p.hash

theorem received_of_head (hpb : E.pb.Lawful) {keyPair : KeyPair} (hsign : E.crypto.Verifies keyPair)
    (hsigned : ∀ h, (E.crypto.sign keyPair h).length ≠ 0) {now : Int} {j : IndexType} {p : PBFTProposal} {msg : Message}
    {queue : List Message}
    (hdecode : PBFTCodec.decode E (PBFTCodec.encode E keyPair 0 (.pbft (populateVote E keyPair k.packetType 0 v now j p))).1 =
      some msg) (hq : queue.head?.map (Message.setFrom []) = some (msg.setFrom [])) :
    ∃ m rest, queue = .pbft m :: rest ∧ m.Received E k v j keyPair.publicKey p := by
  obtain ⟨m', hm', hreceived⟩ := decode_populateVote (E := E) hpb hsign hsigned k v now j p
  obtain rfl := Option.some.inj (hdecode.symm.trans hm')
  obtain ⟨first, hfirst, hsame⟩ := Option.map_eq_some_iff.1 hq
  obtain ⟨rest, rfl⟩ := List.head?_eq_some_iff.1 hfirst
  cases first with
  | pbft m =>
    have hfields : { m with fromNode := some [] } = { m' with fromNode := some [] } := Message.pbft.inj hsame
    have hm : m = { m' with fromNode := m.fromNode } := by
      cases m
      cases m'
      simpa using hfields
    rw [hm]
    exact ⟨_, rest, rfl, hreceived.1, hreceived.2, hreceived.3, hreceived.4, hreceived.5, hreceived.6, hreceived.7⟩
  | viewChange | newView | request => cases hsame

theorem Node.checks_received (hw : s.inWindow i = true) (hv : s.cfg.view = v) {j : IndexType} {publicKey : NodeID} {p : PBFTProposal}
    (hm : m.Received E k v j publicKey p) (hindex : p.index = i) (hkey : HasKey s j publicKey) (hown : j ≠ s.cfg.nodeIndex)
    (haged : ∀ c, s.caches.find? i = some c → ∀ q, c.prePrepare = some q → q.view ≤ s.cfg.view) :
    s.checkPBFTMsg E m = true ∧ s.checkProposalSignature E m.generatedFrom m.consensusProposal = true ∧
      (s.cfg.getConsensusNodeByIndex m.generatedFrom).isSome = true := by
  obtain ⟨node, hnode, hid⟩ := Option.map_eq_some_iff.1 hkey
  obtain ⟨q, hq, hlength, hproposal⟩ := hm.proposal
  have hsig : s.checkSignature E (.pbft m) = true := by
    have hfrom : (Message.pbft m).base.generatedFrom = j := hm.generatedFrom
    unfold Node.checkSignature
    simp only [hfrom, hnode, hid]
    exact hm.signed
  refine ⟨Node.checkPBFTMsg_of_inWindow hw hv (hm.index.trans hindex) hm.view (by rw [hq]; rfl) (hm.generatedFrom.trans_ne hown)
    haged hsig, ?_, by rw [hm.generatedFrom, hnode]; rfl⟩
  unfold Node.checkProposalSignature
  simp only [hq, hm.generatedFrom, hnode, hid, hlength, if_false]
  exact hproposal

/-- The handler of a received vote files it and leaves it filed. -/
theorem Node.handleMsg_holds (hw : s.inWindow i = true) (hv : s.cfg.view = v) {j : IndexType} {publicKey : NodeID} {p : PBFTProposal}
    (hm : m.Received E k v j publicKey p) (hindex : p.index = i) (hkey : HasKey s j publicKey) (hown : j ≠ s.cfg.nodeIndex)
    (hlocks : Locks s) (hfresh : s.Fresh)
    (haged : ∀ c, s.caches.find? i = some c → ∀ q, c.prePrepare = some q → q.view ≤ s.cfg.view)
    (h : s.handleMsg E (.pbft m) = some t) : t.Holds k v i p.hash j := by
  obtain ⟨hcheck, hproposal, hnode⟩ := checks_received hw hv hm hindex hkey hown haged
  have hI := holds_turning E k v i p.hash j
  have hfiled : ∀ {f : PBFTCache → PBFTCache × List Action},
      (∀ c, (f c).1.voteTally k = PBFTCache.addCache s.cfg c (c.voteTally k).1 (c.voteTally k).2 m) →
        (s.addCache m f).Holds k v i p.hash j := by
    intro f hf
    rw [← hm.hash, ← hm.generatedFrom]
    exact holds_addCache hf hlocks hfresh (hm.index.trans hindex) hm.view hv hnode
  unfold handleMsg at h
  cases k with
  | prepare =>
    have htype : m.packetType = .PreparePacket := hm.packetType
    simp only [htype] at h
    obtain rfl := Option.some.inj h
    unfold handlePrepareMsg
    rw [hcheck, hproposal]
    have hfile : Prim E (.prepare m) s (s.addPrepareCache m) := .prepare s hcheck hproposal
    exact hI.steps (checkAndPreCommit_steps (E := E) _ hI.moving.isOpen (hI.moving _ rfl)) (hfile.fresh hfresh)
      (hfiled fun _ => rfl)
  | commit =>
    have htype : m.packetType = .CommitPacket := hm.packetType
    simp only [htype] at h
    obtain ⟨⟨u, ret⟩, hu, rfl⟩ := Option.map_eq_some_iff.1 h
    unfold handleCommitMsg at hu
    rw [hcheck, Bool.not_true, if_neg Bool.false_ne_true] at hu
    obtain ⟨w, hw, hu⟩ := Option.bind_eq_some_iff.1 hu
    obtain ⟨rfl, -⟩ := Prod.mk.inj (Option.some.inj hu)
    have hfile : Prim E (.commit m) s (s.addCommitReq m) := .commit s hcheck
    have hloop := checkAndCommitLoop_steps (E := E) (s.addCommitReq m) hI.moving.isOpen (hI.moving _ rfl) (hI.moving _ rfl)
    exact hI.turns (hloop.turns.trans (resetTimer_turns hI.moving hw)) (hfile.fresh hfresh) (hfiled fun _ => rfl)

/-- A vote that is heard is filed. -/
theorem Node.Hears.holds (hpb : E.pb.Lawful) {keyPair : KeyPair} (hsign : E.crypto.Verifies keyPair)
    (hsigned : ∀ h, (E.crypto.sign keyPair h).length ≠ 0) {now : Int} {j : IndexType} {p : PBFTProposal} {e : Event}
    (hkey : HasKey s j keyPair.publicKey) (hown : j ≠ s.cfg.nodeIndex) (hlocks : Locks s) (hfresh : s.Fresh)
    (haged : ∀ c, s.caches.find? p.index = some c → ∀ m, c.prePrepare = some m → m.view ≤ s.cfg.view)
    (h : s.Hears E v p.index (PBFTCodec.encode E keyPair 0 (.pbft (populateVote E keyPair k.packetType 0 v now j p))).1 e)
    (hstep : step E s e = some t) : t.Holds k v p.index p.hash j := by
  obtain ⟨rfl, hattends, msg, hdecode, hhead⟩ := h
  obtain ⟨m, rest, hq, hreceived⟩ := received_of_head hpb hsign hsigned (Option.mem_def.1 hdecode) hhead
  obtain ⟨hstage, hw, hv⟩ := attends_iff.1 hattends
  have hhandled : { s with msgQueue := rest, workerStage := .start }.handleMsg E (.pbft m) = some t := by
    rw [← hstep]
    change _ = s.handleAdmitted E
    unfold handleAdmitted
    rw [hstage, hq]
  have htaken := s.admitted_steps (E := E) (A := fun _ => True) hq trivial trivial
  exact handleMsg_holds (s := { s with msgQueue := rest, workerStage := .start }) hw hv hreceived rfl hkey hown
    (hlocks.steps htaken) (hfresh.steps htaken) haged hhandled

structure Live (E : Env) (o : Node) (i : Int) (s : Node) : Prop where
  fresh : s.Fresh
  marked : s.Marked i
  stamped : s.Stamped
  prompt : Prompt none o i s
  paid : Paid E o i s

theorem Live.initial {o : Node} (hempty : o.caches = ∅) (hlocks : Locks o) (hstamped : o.Stamped) (i : Int) :
    Live E o i o := by
  have hnone : ∀ j c, o.caches.find? j ≠ some c := by
    rw [hempty]
    exact fun j c h => by cases h
  exact ⟨fun j c hc => absurd hc (hnone j c), fun c hc => absurd hc (hnone i c), hstamped,
    ⟨.refl o, fun c hc => absurd hc (hnone i c), fun c hc => absurd hc (hnone i c), fun c hc => absurd hc (hnone i c)⟩,
    ⟨⟨.refl o, hlocks, fun c hc => absurd hc (hnone i c)⟩, fun c hc => absurd hc (hnone i c)⟩⟩

/-- The events after which nothing is left to do at an index: the nodes stay the same, and the pre-prepares of the index that
come from the verifier are not ahead of the view and match their proposals. -/
def Event.Regular (E : Env) (i : Int) (s : Node) (e : Event) : Prop :=
  e.Timely E i s ∧ ∀ m ∈ e.stores s, m.index = i → m.Matches

instance (E : Env) (i : Int) (s : Node) (e : Event) : Decidable (e.Regular E i s) := inferInstanceAs (Decidable (_ ∧ _))

theorem Live.step {o : Node} (ho : o.cfg.Weighed) (hnode : (o.cfg.getConsensusNodeByIndex o.cfg.nodeIndex).isSome = true)
    {e : Event} (he : e.Regular E i s) (h : BcosPbft.step E s e = some t) (hs : Live E o i s) : Live E o i t where
  fresh := hs.fresh.steps (step_steps h)
  marked := hs.marked.step h
  stamped := (step_steps h).preserves (I := Node.Stamped) (fun _ _ _ _ hp hu => hp.stamped hu) hs.stamped
  prompt := step_prompt ho he.1 h hs.marked hs.stamped hs.prompt
  paid := step_paid ho hnode he.1 (fun m hm => he.2 m hm) h hs.marked hs.stamped hs.fresh hs.paid

theorem initNode_own {keyPair : KeyPair} {l : LedgerConfig} {state : List PBFTProposal} {s₀ : Node}
    (hinit : initNode E keyPair l state = some s₀) (hlen : s₀.cfg.consensusNodeList.length < 2 ^ 64)
    (hX : s₀.cfg.nodeIndex.toNat < s₀.cfg.consensusNodeList.length) :
    HasKey s₀ s₀.cfg.nodeIndex s₀.cfg.keyPair.publicKey := by
  let I : Node → Prop := fun n => n.cfg.consensusNodeList = [] ∨
    n.cfg.nodeIndex = n.cfg.getNodeIndexByNodeID n.cfg.keyPair.publicKey
  have hprim : ∀ {l : Label} {s t : Node}, Prim E l s t → I s → I t := by
    intro l s t h hs
    by_cases hnodes : ∃ ls, l = .nodes ls
    · obtain ⟨ls, rfl⟩ := hnodes
      cases h with
      | nodes _ hset =>
        obtain ⟨-, -, -, -, -, hderived | hsame⟩ := Config.setConsensusNodeList_derived hset
        · exact Or.inr hderived.index
        · subst hsame
          exact hs
    · have hsame := h.sameNodes fun ls heq => hnodes ⟨ls, heq⟩
      change t.cfg.consensusNodeList = [] ∨ t.cfg.nodeIndex = t.cfg.getNodeIndexByNodeID t.cfg.keyPair.publicKey
      rw [hsame.list, hsame.nodeIndex, hsame.keyPair, Config.getNodeIndexByNodeID_congr hsame.list]
      exact hs
  obtain ⟨s, hsteps, hs⟩ := initNode_steps (A := fun _ => True) trivial trivial trivial trivial (fun _ _ => trivial) hinit
  have hI : I s := hsteps.preserves (fun _ _ _ _ hp hu => hprim hp hu) (Or.inl rfl)
  have hI₀ : I s₀ := by
    rcases hs with rfl | ⟨last, -, rfl⟩
    · exact hI
    · exact hI
  have hindex := hI₀.resolve_left fun hnil => by simp [hnil] at hX
  rcases Config.indexOfFrom_spec s₀.cfg.keyPair.publicKey s₀.cfg.consensusNodeList 0 (by simpa using hlen) with
    ⟨k, hk, hid, hpos⟩ | ⟨-, hnone⟩
  · have hat : s₀.cfg.nodeIndex.toNat = k := by
      rw [hindex, Config.getNodeIndexByNodeID, hpos]
      exact Nat.zero_add k
    unfold HasKey Config.getConsensusNodeByIndex
    rw [hat, List.getElem?_eq_getElem hk, Option.map_some, hid]
  · rw [hindex, Config.getNodeIndexByNodeID, hnone] at hX
    change 2 ^ 64 - 1 < _ at hX
    omega

theorem Node.Hears.reaches {s₀ : Node} {trace : List (Node × Event)} (hrun : Trail (BcosPbft.step E) s₀ trace s)
    (hlive : ∀ x ∈ trace, Live E s₀ i x.1) (hpb : E.pb.Lawful) {keyPair : KeyPair} (hsign : E.crypto.Verifies keyPair)
    (hsigned : ∀ h, (E.crypto.sign keyPair h).length ≠ 0) {now : Int} {j : IndexType} {p : PBFTProposal}
    (hkey : HasKey s₀ j keyPair.publicKey) (hown : j ≠ s₀.cfg.nodeIndex) (hindex : p.index = i) {x : Node × Event}
    (hx : x ∈ trace)
    (h : x.1.Hears E v i (PBFTCodec.encode E keyPair 0 (.pbft (populateVote E keyPair k.packetType 0 v now j p))).1 x.2) :
    s.Holds k v i p.hash j := by
  subst hindex
  have hkeep : ∀ (u : Node) (e : Event) (w : Node), u.Fresh → BcosPbft.step E u e = some w →
      u.Holds k v p.index p.hash j → w.Holds k v p.index p.hash j := fun _ _ _ hfresh hstep hheld =>
    (Node.holds_turning E k v p.index p.hash j).step (fun _ _ hview hreset => ⟨hview, hreset⟩) hstep hfresh hheld
  refine hrun.reaches hkeep (fun y hy => (hlive y hy).fresh) hx fun t ht => ?_
  have hs := hlive x hx
  refine h.holds hpb hsign hsigned ?_ ?_ hs.paid.duty.locks hs.fresh (fun c hc m hm => ?_) ht
  · rw [HasKey, hs.prompt.same.getConsensusNodeByIndex]
    exact hkey
  · rw [hs.prompt.same.nodeIndex]
    exact hown
  · exact ((hs.prompt.cache c hc).aged m hm).1

end

namespace Group

/-- The good case for a hash at index `i` in view `v`. The members of `Q` are honest and have the weight of a quorum. Each
has come from `w₀` to `w` on a run of its own, with regular events, and ends in the view with the pre-prepare of the hash in
a cache that it has not erased. And each has heard the prepare and commit votes for the index that another one has sent in
the view. -/
structure GoodCase (g : Group) (E : Env) (Q : Finset IndexType) (v : ViewType) (i : Int) (hash : HashType) (w₀ w : World)
    (trace : IndexType → List (Node × Event)) : Prop where
  honest : ∀ X ∈ Q, g.Honest X
  quorum : Quorum.minRequired (Config.totalWeight g.consensusNodeList) ≤ ∑ X ∈ Q, g.weightAt E X
  run : ∀ X ∈ Q, Trail (step E) (w₀ X) (trace X) (w X)
  regular : ∀ X ∈ Q, ∀ x ∈ trace X, x.2.Regular E i x.1
  view : ∀ X ∈ Q, (w X).cfg.view = v
  kept : ∀ X ∈ Q, Action.eraseCache i ∉ (w X).log
  stored : ∀ X ∈ Q, ∃ c ∈ (w X).caches.find? i, ∃ m ∈ c.prePrepare, m.view = v ∧ m.hash = hash
  heard : ∀ X ∈ Q, ∀ Y ∈ Q, X ≠ Y → ∀ a ∈ (w Y).log, ∀ data ∈ a.ballot v i, ∃ x ∈ trace X, x.1.Hears E v i data x.2

variable {E : Env} {g : Group} {Q : Finset IndexType} {v : ViewType} {i : Int} {hash : HashType} {w₀ w : World}
  {trace : IndexType → List (Node × Event)}

structure Started (g : Group) (E : Env) (Q : Finset IndexType) (i : Int) (X : IndexType) (s : Node) : Prop where
  list : s.cfg.consensusNodeList = Config.sortNodes E g.consensusNodeList
  own : s.cfg.nodeIndex = X
  key : HasKey s X s.cfg.keyPair.publicKey
  weighed : s.cfg.Weighed
  quorate : s.cfg.Quorate Q
  live : Live E s i s

theorem Started.node {X : IndexType} {s : Node} (h : g.Started E Q i X s) :
    (s.cfg.getConsensusNodeByIndex s.cfg.nodeIndex).isSome = true := by
  obtain ⟨n, hn, -⟩ := Option.map_eq_some_iff.1 h.key
  rw [h.own, hn]
  rfl

/-- The groups whose weights can be added up, and whose members sign with the keys that the list has for them. -/
structure Keyed (g : Group) (E : Env) (Q : Finset IndexType) (w : World) : Prop where
  pos : 1 ≤ Config.totalWeight g.consensusNodeList
  lt : Config.totalWeight g.consensusNodeList < 2 ^ 64
  short : g.consensusNodeList.length < 2 ^ 64
  verifies : ∀ X ∈ Q, E.crypto.Verifies (w X).cfg.keyPair
  signs : ∀ X ∈ Q, ∀ h, (E.crypto.sign (w X).cfg.keyPair h).length ≠ 0

namespace GoodCase

theorem started (hkeys : g.Keyed E Q w₀) (hinit : g.Initial E w₀) (h : g.GoodCase E Q v i hash w₀ w trace) {X : IndexType}
    (hX : X ∈ Q) : g.Started E Q i X (w₀ X) := by
  obtain ⟨keyPair, l, state, hnode, hl, hself, hnumber, hstate⟩ := hinit X (h.honest X hX)
  obtain ⟨-, hlist, hco⟩ := initNode_sound (fun _ _ _ => True) hnode hnumber hstate
  rw [hl] at hlist
  have htotal : Config.totalWeight (w₀ X).cfg.consensusNodeList = Config.totalWeight g.consensusNodeList := by
    rw [hlist, Config.totalWeight_sortNodes]
  have hexact := htotal ▸ hco.exact (htotal ▸ hkeys.pos) (htotal ▸ hkeys.lt)
  have hlength : (w₀ X).cfg.consensusNodeList.length = g.consensusNodeList.length := by
    rw [hlist, Config.sortNodes, List.length_insertionSort]
  refine ⟨hlist, hself, ?_, ⟨htotal ▸ hkeys.lt, ?_⟩, ?_,
    .initial (initNode_empty hnode) (initNode_locks hnode hnumber hstate) (initNode_stamped hnode) i⟩
  · have hown := initNode_own hnode (hlength ▸ hkeys.short) (by rw [hself, hlength]; exact (h.honest X hX).1)
    rwa [hself] at hown
  · exact UInt64.lt_iff_toNat_lt.2 hco.minRequired_pos
  · unfold Config.Quorate
    rw [hexact.required]
    simp only [Config.weightAt, hlist]
    exact h.quorum

theorem lives (hkeys : g.Keyed E Q w₀) (hinit : g.Initial E w₀) (h : g.GoodCase E Q v i hash w₀ w trace) {X : IndexType}
    (hX : X ∈ Q) : (∀ x ∈ trace X, Live E (w₀ X) i x.1) ∧ Live E (w₀ X) i (w X) := by
  have hstart := h.started hkeys hinit hX
  exact (h.run X hX).preserves_all (fun _ _ _ he hstep hs => hs.step hstart.weighed hstart.node he hstep) (h.regular X hX)
    hstart.live

theorem holds (hpb : E.pb.Lawful) (hkeys : g.Keyed E Q w₀) (hinit : g.Initial E w₀)
    (h : g.GoodCase E Q v i hash w₀ w trace) {k : VoteKind}
    (hvotes : ∀ X ∈ Q, Sent E (w₀ X).cfg k v i hash (w X).log ∧
      ∀ c, (w X).caches.find? i = some c → c.Holds k v hash X) {X Y : IndexType} (hX : X ∈ Q) (hY : Y ∈ Q) {c : PBFTCache}
    (hc : (w X).caches.find? i = some c) : c.Holds k v hash Y := by
  by_cases hXY : X = Y
  · subst hXY
    exact (hvotes X hX).2 c hc
  · obtain ⟨hsX, hsY⟩ := And.intro (h.started hkeys hinit hX) (h.started hkeys hinit hY)
    obtain ⟨now, p, hindex, hhash, hsent⟩ := (hvotes Y hY).1
    rw [hsY.own] at hsent
    have hballot := hsent (List.mem_append_right _ List.mem_cons_self)
    obtain ⟨x, hx, hhears⟩ := h.heard X hX Y hY hXY _ hballot _ <| if_pos ⟨hindex, rfl, by
      cases k with
      | prepare => exact Or.inl rfl
      | commit => exact Or.inr rfl⟩
    have hkey : HasKey (w₀ X) Y (w₀ Y).cfg.keyPair.publicKey := by
      have hown := hsY.key
      unfold HasKey Config.getConsensusNodeByIndex at hown ⊢
      rwa [hsX.list, ← hsY.list]
    have hheld := hhears.reaches (h.run X hX) (h.lives hkeys hinit hX).1 hpb (hkeys.verifies Y hY) (hkeys.signs Y hY) hkey
      (by rw [hsX.own]; exact Ne.symm hXY) hindex hx
    rw [hhash] at hheld
    obtain ⟨c', hc', hfiled⟩ := hheld (h.view X hX).le (h.kept X hX)
    obtain rfl := Option.some.inj (hc.symm.trans hc')
    exact hfiled

theorem cached (hkeys : g.Keyed E Q w₀) (hinit : g.Initial E w₀) (h : g.GoodCase E Q v i hash w₀ w trace) {X : IndexType}
    (hX : X ∈ Q) {c : PBFTCache} (hc : (w X).caches.find? i = some c) :
    c.Dutiful (w₀ X).cfg v (fun k hash => Sent E (w₀ X).cfg k v i hash (w X).log) ((w X).PushedAt i) ∧ c.FiledAt i ∧
      ∃ m, c.prePrepare = some m ∧ m.view = (w X).cfg.view ∧ m.hash = hash := by
  have hpaid := (h.lives hkeys hinit hX).2.paid.duty
  have hdutiful := hpaid.cache c hc
  obtain ⟨c', hc', m, hm, hview, hhash⟩ := h.stored X hX
  obtain rfl := Option.some.inj (hc.symm.trans hc')
  rw [h.view X hX] at hdutiful ⊢
  exact ⟨hdutiful, hpaid.locks.filed i c hc, m, hm, hview, hhash⟩

/-- Votes of all members are a quorum for each of them. -/
theorem enough (hkeys : g.Keyed E Q w₀) (hinit : g.Initial E w₀) (h : g.GoodCase E Q v i hash w₀ w trace) {X : IndexType}
    (hX : X ∈ Q) {c : PBFTCache} (hc : (w X).caches.find? i = some c) {k : VoteKind}
    (hholds : ∀ Y ∈ Q, c.Holds k v hash Y) : PBFTCache.collectEnoughQuorum (w X).cfg hash (c.voteTally k).2 = true := by
  have hstart := h.started hkeys hinit hX
  have hsame := (h.lives hkeys hinit hX).2.prompt.same
  obtain ⟨hdutiful, -⟩ := h.cached hkeys hinit hX hc
  refine collectEnoughQuorum_of_holds (Q := Q) ?_ ?_ ((hdutiful.counts k).congr hsame.list) ?_ hholds
  · rw [hsame.required]
    exact hstart.weighed.positive
  · rw [hsame.list]
    exact hstart.weighed.total
  · exact (Config.Quorate.congr hsame.list hsame.required).2 hstart.quorate

theorem prepares (hkeys : g.Keyed E Q w₀) (hinit : g.Initial E w₀) (h : g.GoodCase E Q v i hash w₀ w trace) {X : IndexType}
    (hX : X ∈ Q) : Sent E (w₀ X).cfg .prepare v i hash (w X).log ∧
      ∀ c, (w X).caches.find? i = some c → c.Holds .prepare v hash X := by
  obtain ⟨c, hc, -⟩ := h.stored X hX
  obtain ⟨hdutiful, -, m, hm, hview, rfl⟩ := h.cached hkeys hinit hX hc
  have hown := (h.started hkeys hinit hX).own
  obtain ⟨hsent, hheld⟩ := hdutiful.prepared m hm (hview.trans (h.view X hX))
  refine ⟨hsent, fun c' hc' => ?_⟩
  obtain rfl := Option.some.inj (Option.mem_def.1 hc |>.symm.trans hc')
  rwa [hown] at hheld

/-- With the prepare votes of the others it has sent its commit vote. -/
theorem commits (hpb : E.pb.Lawful) (hkeys : g.Keyed E Q w₀) (hinit : g.Initial E w₀)
    (h : g.GoodCase E Q v i hash w₀ w trace) {X : IndexType} (hX : X ∈ Q) :
    Sent E (w₀ X).cfg .commit v i hash (w X).log ∧
      ∀ c, (w X).caches.find? i = some c → c.precommitIsCurrent = true ∧ c.Holds .commit v hash X := by
  obtain ⟨c, hc, -⟩ := h.stored X hX
  obtain ⟨hdutiful, hfiled, m, hm, hview, rfl⟩ := h.cached hkeys hinit hX hc
  have hown := (h.started hkeys hinit hX).own
  have henough := h.enough hkeys hinit hX hc fun Y hY =>
    h.holds hpb hkeys hinit (fun Z hZ => h.prepares hkeys hinit hZ) hX hY hc
  have hcurrent : c.precommitIsCurrent = true := by
    refine (h.lives hkeys hinit hX).2.prompt.settled c hc .prepare (Option.some_ne_none _).symm ?_
    simp only [PBFTCache.collectEnoughPrepareReq, PBFTCache.checkPrePrepareProposalStatus, hm, hview, decide_true,
      Bool.true_and, Option.any_some]
    exact henough
  obtain ⟨p, m', hp, hm', hle⟩ := PBFTCache.precommitIsCurrent_iff.1 hcurrent
  obtain rfl := Option.some.inj (hm.symm.trans hm')
  obtain ⟨-, q, hq, hhash⟩ := hfiled.precommit p hp
  obtain rfl := Option.some.inj (hm.symm.trans hq)
  have hpv : p.view = v := (le_antisymm (hdutiful.behind p m hp hm) hle).trans (hview.trans (h.view X hX))
  obtain ⟨hsent, hheld⟩ := hdutiful.committed p hp hpv
  rw [← hhash] at hsent hheld
  refine ⟨hsent, fun c' hc' => ?_⟩
  obtain rfl := Option.some.inj (Option.mem_def.1 hc |>.symm.trans hc')
  rw [hown] at hheld
  exact ⟨hcurrent, hheld⟩

end GoodCase

/-- In the good case every member has pushed a proposal of the hash at the index to its commit queue. -/
theorem progress (hpb : E.pb.Lawful) (hkeys : g.Keyed E Q w₀) (hinit : g.Initial E w₀)
    (h : g.GoodCase E Q v i hash w₀ w trace) : ∀ X ∈ Q, ∃ p, (w X).Pushes p ∧ p.index = i ∧ p.hash = hash := by
  intro X hX
  obtain ⟨c, hc, -⟩ := h.stored X hX
  obtain ⟨-, -, m, hm, hview, rfl⟩ := h.cached hkeys hinit hX hc
  have henough := h.enough hkeys hinit hX hc fun Y hY =>
    h.holds hpb hkeys hinit (fun Z hZ => ⟨(h.commits hpb hkeys hinit hZ).1, fun d hd =>
      ((h.commits hpb hkeys hinit hZ).2 d hd).2⟩) hX hY hc
  refine (h.lives hkeys hinit hX).2.paid.told c hc ((h.commits hpb hkeys hinit hX).2 c hc).1 ?_ m hm
  exact PBFTCache.collectEnoughCommitReq_iff.2 ⟨m, hm, hview, henough⟩

def toyQuorum (X : IndexType) : List Event := toyEvents (toyPrePrepare 8 8) (if X = 0 then [2] else [0])

def toyMember (r : List (Node × Event) × Node) (log : List Action) : Bool :=
  decide (∀ x ∈ r.1, x.2.Regular Toy.env 1 x.1) && decide (r.2.cfg.view = 0) && decide (Action.eraseCache 1 ∉ r.2.log) &&
    decide (∃ c ∈ r.2.caches.find? 1, ∃ m ∈ c.prePrepare, m.view = 0 ∧ m.hash = (Toy.proposal 8).hash) &&
      decide (∀ a ∈ log, ∀ data ∈ a.ballot 0 1, ∃ x ∈ r.1, x.1.Hears Toy.env 0 1 data x.2)

theorem toyQuorum_progress : ∃ w : World, ∀ X ∈ ({0, 2} : Finset IndexType),
    ∃ p, (w X).Pushes p ∧ p.index = 1 ∧ p.hash = (Toy.proposal 8).hash := by
  have hrun : ((Trail.states (step Toy.env) (toyWorld 0) (toyQuorum 0)).elim false fun a =>
      (Trail.states (step Toy.env) (toyWorld 2) (toyQuorum 2)).elim false fun b =>
        toyMember a b.2.log && toyMember b a.2.log) = true := by
    decide +kernel
  obtain ⟨a, ha, hrun⟩ := Toy.exists_of_elim hrun
  obtain ⟨b, hb, hrun⟩ := Toy.exists_of_elim hrun
  obtain ⟨hamember, hbmember⟩ := Bool.and_eq_true_iff.1 hrun
  unfold toyMember at hamember hbmember
  simp only [Bool.and_eq_true, decide_eq_true_eq] at hamember hbmember
  obtain ⟨⟨⟨⟨haregular, haview⟩, hakept⟩, hastored⟩, haheard⟩ := hamember
  obtain ⟨⟨⟨⟨hbregular, hbview⟩, hbkept⟩, hbstored⟩, hbheard⟩ := hbmember
  have hmember : ∀ {P : IndexType → Prop}, P 0 → P 2 → ∀ X ∈ ({0, 2} : Finset IndexType), P X := by
    intro P h0 h2 X hX
    rcases Finset.mem_insert.1 hX with rfl | hX
    · exact h0
    · rw [Finset.mem_singleton.1 hX]
      exact h2
  have hpair : ∀ X ∈ ({0, 2} : Finset IndexType), ∃ n, (toyWorld X).cfg.keyPair = Toy.keyPair n :=
    hmember ⟨0, by decide +kernel⟩ ⟨2, by decide +kernel⟩
  have hkeys : toy.Keyed Toy.env {0, 2} toyWorld := by
    refine ⟨by decide, by decide, by decide, fun X hX h => ?_, fun X hX h => ?_⟩
    · obtain ⟨n, hn⟩ := hpair X hX
      rw [hn]
      exact decide_eq_true rfl
    · obtain ⟨n, hn⟩ := hpair X hX
      rw [hn]
      exact Nat.succ_ne_zero _
  have hcase : toy.GoodCase Toy.env {0, 2} 0 1 (Toy.proposal 8).hash toyWorld (fun X => if X = 0 then a.2 else b.2)
      (fun X => if X = 0 then a.1 else b.1) :=
    { honest := hmember (toy_honest.2 (Or.inl rfl)) (toy_honest.2 (Or.inr rfl))
      quorum := by decide +kernel
      run := hmember (.of_states ha) (.of_states hb)
      regular := hmember haregular hbregular
      view := hmember haview hbview
      kept := hmember hakept hbkept
      stored := hmember hastored hbstored
      heard := hmember (hmember (fun h => absurd rfl h) fun _ => haheard) (hmember (fun _ => hbheard) fun h => absurd rfl h) }
  exact ⟨_, progress Toy.protobuf_lawful hkeys toy_initial hcase⟩

end Group

end BcosPbft
