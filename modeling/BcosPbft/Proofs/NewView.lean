import BcosPbft.Proofs.Certificate
import BcosPbft.Proofs.Handlers

/-! What an accepted new view shows. The check counts one weight for each entry of the view-change list and
does not look at the views of the entries or at the pre-prepare list; the leader's own tally counts a sender
once for each view. -/

namespace BcosPbft

open Config

def Config.viewChangesWeight (cfg : Config) (l : OrdMap IndexType ViewChangeMsg) : UInt64 :=
  l.entries.foldl (fun w c =>
    match cfg.getConsensusNodeByIndex c.2.generatedFrom with
    | none => w
    | some nodeInfo => w + nodeInfo.weight) 0

namespace Node

theorem find?_removeInvalidViewChange_weight (s : Node) (view : ViewType) (latest : Int) (v : ViewType) :
    (s.removeInvalidViewChange view latest).viewChangeWeight.find? v =
      ((s.removeInvalidViewChange view latest).viewChangeCache.find? v).elim
        ((s.viewChangeWeight.filter (fun v _ => !(v ≤ view && s.viewChangeCache.contains v))).find? v)
        (fun l => some (s.cfg.viewChangesWeight l)) :=
  OrdMap.find?_foldl_insert _ s.cfg.viewChangesWeight _ v

def viewChangeSenders (s : Node) (view : ViewType) : Finset IndexType :=
  ((s.viewChangeCache.find? view).getD ∅).dom

theorem mem_viewChangeSenders {s : Node} {view : ViewType} {i : IndexType} :
    i ∈ s.viewChangeSenders view ↔ ((s.viewChangeCache.find? view).bind (·.find? i)).isSome = true := by
  unfold viewChangeSenders
  rw [OrdMap.mem_dom]
  cases s.viewChangeCache.find? view with
  | none => simp
  | some l => simp [Option.isSome_iff_exists]

theorem mem_viewChangeSenders_addViewChangeReq {s : Node} {m : ViewChangeMsg} {view : ViewType} {i : IndexType} :
    i ∈ (s.addViewChangeReq m).viewChangeSenders view ↔
      i ∈ s.viewChangeSenders view ∨
        (∃ node, s.cfg.getConsensusNodeByIndex i = some node) ∧ m.generatedFrom = i ∧ m.view = view := by
  unfold addViewChangeReq
  split
  · rename_i hpresent
    refine ⟨Or.inl, ?_⟩
    rintro (h | ⟨-, rfl, rfl⟩)
    · exact h
    · exact mem_viewChangeSenders.2 hpresent
  · rename_i hnew
    split
    · rename_i hnone
      refine ⟨Or.inl, ?_⟩
      rintro (h | ⟨⟨node, hnode⟩, rfl, -⟩)
      · exact h
      · rw [hnone] at hnode
        cases hnode
    · rename_i node hnode
      simp only [viewChangeSenders, OrdMap.find?_insert]
      by_cases hv : view = m.view
      · subst hv
        rw [if_pos rfl, Option.getD_some, OrdMap.dom_insert, Finset.mem_insert]
        constructor
        · rintro (rfl | h)
          · exact Or.inr ⟨⟨node, hnode⟩, rfl, rfl⟩
          · exact Or.inl h
        · rintro (h | ⟨-, rfl, -⟩)
          · exact Or.inr h
          · exact Or.inl rfl
      · rw [if_neg hv]
        refine ⟨Or.inl, ?_⟩
        rintro (h | ⟨-, -, h⟩)
        · exact h
        · exact absurd h.symm hv

end Node

/-- The senders that count for a view when a leader with this configuration collects the list. -/
def leaderTally (cfg : Config) (l : List ViewChangeMsg) (view : ViewType) : Finset IndexType :=
  (l.foldl Node.addViewChangeReq { cfg := cfg }).viewChangeSenders view

theorem mem_foldl_addViewChangeReq {s : Node} {l : List ViewChangeMsg} {view : ViewType} {i : IndexType} :
    i ∈ (l.foldl Node.addViewChangeReq s).viewChangeSenders view ↔
      i ∈ s.viewChangeSenders view ∨ (∃ node, s.cfg.getConsensusNodeByIndex i = some node) ∧
        ∃ m ∈ l, m.generatedFrom = i ∧ m.view = view := by
  induction l generalizing s with
  | nil => simp
  | cons m l ih =>
    rw [List.foldl_cons, ih, Node.mem_viewChangeSenders_addViewChangeReq, Node.addViewChangeReq_cfg]
    simp only [List.mem_cons, exists_eq_or_imp]
    tauto

theorem mem_leaderTally {cfg : Config} {l : List ViewChangeMsg} {view : ViewType} {i : IndexType} :
    i ∈ leaderTally cfg l view ↔ (∃ node, cfg.getConsensusNodeByIndex i = some node) ∧
      ∃ m ∈ l, m.generatedFrom = i ∧ m.view = view := by
  rw [leaderTally, mem_foldl_addViewChangeReq]
  have hempty : i ∉ ({ cfg := cfg } : Node).viewChangeSenders view := Finset.notMem_empty i
  tauto

namespace Node

theorem checkSignature_node {E : Env} {s : Node} {req : Message} (h : s.checkSignature E req = true) :
    ∃ node, s.cfg.getConsensusNodeByIndex req.base.generatedFrom = some node ∧
      req.verifySignature E node.nodeID = true := by
  unfold checkSignature at h
  split at h
  · simp at h
  · exact ⟨_, ‹_›, h⟩

theorem isValidViewChangeMsg_signed {E : Env} {s t : Node} {fromNode : Option NodeID} {m : ViewChangeMsg}
    (h : s.isValidViewChangeMsg E fromNode m = some (t, true)) :
    ∃ node, t.cfg.getConsensusNodeByIndex m.generatedFrom = some node ∧ m.verifySignature E node.nodeID = true := by
  obtain ⟨node, hnode, hverify⟩ := checkSignature_node (isValidViewChangeMsg_checkSignature h)
  exact ⟨node, hnode, hverify⟩

theorem isValidViewChangeMsg_sameNodes {E : Env} {s t : Node} {fromNode : Option NodeID} {m : ViewChangeMsg}
    {sig ret : Bool} (h : s.isValidViewChangeMsg E fromNode m sig = some (t, ret)) : SameNodes s t :=
  sameNodes_of_viewing (isValidViewChangeMsg_steps s (fun _ hl => hl) h)

/-- The loop over an accepted list adds up the weights of the senders, entry by entry. -/
theorem newViewWeight_eq {E : Env} {s t : Node} {fromNode : Option NodeID} {l : List ViewChangeMsg} {w w' : UInt64}
    (h : newViewWeight E fromNode s l w = some (t, some w')) :
    SameNodes s t ∧ w' = (l.map (·.generatedFrom)).foldl (fun t i => t + s.cfg.weightOf i) w ∧
      ∀ m ∈ l, ∃ node, s.cfg.getConsensusNodeByIndex m.generatedFrom = some node := by
  induction l generalizing s w with
  | nil =>
    obtain ⟨rfl, hw⟩ := Prod.mk.inj (Option.some.inj h)
    exact ⟨.refl _, (Option.some.inj hw).symm, by simp⟩
  | cons m l ih =>
    unfold newViewWeight at h
    obtain ⟨⟨u, valid⟩, hu, h⟩ := Option.bind_eq_some_iff.1 h
    dsimp only at h
    split at h
    · simp at h
    rename_i hvalid
    obtain rfl : valid = true := by simpa using hvalid
    have hsame := isValidViewChangeMsg_sameNodes hu
    obtain ⟨node, hnode, -⟩ := isValidViewChangeMsg_signed hu
    simp only [hnode] at h
    obtain ⟨hsame', hw, hnodes⟩ := ih h
    have hweight : ∀ i, u.cfg.weightOf i = s.cfg.weightOf i := fun i => by
      unfold weightOf
      rw [hsame.getConsensusNodeByIndex]
    rw [hsame.getConsensusNodeByIndex] at hnode
    refine ⟨hsame.trans hsame', ?_, ?_⟩
    · rw [hw, List.map_cons, List.foldl_cons]
      have hm : s.cfg.weightOf m.generatedFrom = node.weight := by simp [weightOf, hnode]
      simp only [hweight, hm]
    · intro m' hm'
      rcases List.mem_cons.1 hm' with rfl | hm'
      · exact ⟨node, hnode⟩
      · rw [← hsame.getConsensusNodeByIndex]
        exact hnodes m' hm'

theorem isValidNewViewMsg_spec {E : Env} {s t : Node} {m : NewViewMsg}
    (h : s.isValidNewViewMsg E m = some (t, true)) :
    SameNodes s t ∧ s.cfg.minRequiredQuorum ≤
        (m.viewChangeMsgList.map (·.generatedFrom)).foldl (fun t i => t + s.cfg.weightOf i) 0 ∧
      ∀ vc ∈ m.viewChangeMsgList, ∃ node, s.cfg.getConsensusNodeByIndex vc.generatedFrom = some node := by
  rcases isValidNewViewMsg_cases s h with ⟨-, hret⟩ | ⟨-, -, r, hr, hvalid⟩
  · exact Bool.noConfusion hret
  · obtain ⟨w, rfl, hquorum, -⟩ := hvalid rfl
    obtain ⟨hsame, hw, hnodes⟩ := newViewWeight_eq hr
    refine ⟨hsame, ?_, hnodes⟩
    rw [← hsame.required, ← hw]
    exact hquorum

end Node

/-- Pairwise distinct consensus nodes of total weight at least `minRequiredQuorum` with a view change for the
new view in the list. -/
def NewViewQuorum (cfg : Config) (m : NewViewMsg) : Prop :=
  ∃ S : Finset IndexType, (∀ i ∈ S, (∃ node, cfg.getConsensusNodeByIndex i = some node) ∧
      ∃ vc ∈ m.viewChangeMsgList, vc.generatedFrom = i ∧ vc.view = m.view) ∧
    cfg.minRequiredQuorum.toNat ≤ ∑ i ∈ S, cfg.weightAt i.toNat

theorem newViewQuorum_iff {cfg : Config} {m : NewViewMsg} :
    NewViewQuorum cfg m ↔ cfg.minRequiredQuorum.toNat ≤
      ∑ i ∈ leaderTally cfg m.viewChangeMsgList m.view, cfg.weightAt i.toNat := by
  constructor
  · rintro ⟨S, hS, hweight⟩
    exact hweight.trans (Finset.sum_le_sum_of_subset (fun i hi => mem_leaderTally.2 (hS i hi)))
  · intro hweight
    exact ⟨_, fun i hi => mem_leaderTally.1 hi, hweight⟩

theorem newViewQuorum_congr {s t : Node} (h : SameNodes s t) {m : NewViewMsg} :
    NewViewQuorum t.cfg m ↔ NewViewQuorum s.cfg m := by
  unfold NewViewQuorum
  simp only [h.getConsensusNodeByIndex, h.required, weightAt, h.list]

/-- A new view that is accepted has its quorum exactly when the leader's tally of the same list, which counts
a sender once and only for the new view, reaches it; so it has if no sender is repeated and every entry is for
the new view. -/
theorem isValidNewViewMsg_quorum_iff {E : Env} {s t : Node} {m : NewViewMsg}
    (h : s.isValidNewViewMsg E m = some (t, true)) :
    (NewViewQuorum t.cfg m ↔ s.cfg.minRequiredQuorum.toNat ≤
        ∑ i ∈ leaderTally s.cfg m.viewChangeMsgList m.view, s.cfg.weightAt i.toNat) ∧
      ((m.viewChangeMsgList.map (·.generatedFrom)).Nodup → (∀ vc ∈ m.viewChangeMsgList, vc.view = m.view) →
        NewViewQuorum t.cfg m) := by
  obtain ⟨hsame, hquorum, hnodes⟩ := Node.isValidNewViewMsg_spec h
  have hiff := newViewQuorum_congr hsame (m := m)
  refine ⟨hiff.trans newViewQuorum_iff, fun hnd hview => ?_⟩
  rw [hiff]
  refine ⟨(m.viewChangeMsgList.map (·.generatedFrom)).toFinset, fun i hi => ?_, ?_⟩
  · obtain ⟨vc, hvc, rfl⟩ := List.mem_map.1 (List.mem_toFinset.1 hi)
    exact ⟨hnodes vc hvc, vc, hvc, rfl, hview vc hvc⟩
  · exact (UInt64.le_iff_toNat_le.1 hquorum).trans (s.cfg.toNat_tally_le hnd)

def toyViewChange (sender : UInt8) (view : ViewType) : ViewChangeMsg :=
  { base := { view := view, generatedFrom := sender.toNat.toUInt64, signatureData := sender :: zeroHash.val }
    committedProposal := { proposal := { hash := zeroHash.val } } }

def toyNewView (viewChanges : List ViewChangeMsg) : NewViewMsg :=
  { base := { view := 1, generatedFrom := 2, signatureData := 2 :: zeroHash.val }, viewChangeMsgList := viewChanges }

def accepts (r : Option (Node × Bool)) : Bool := (r.map (·.2)).getD false

theorem accepts_iff {r : Option (Node × Bool)} : accepts r = true ↔ ∃ t, r = some (t, true) := by
  cases r with
  | none => simp [accepts]
  | some p => simp [accepts, Prod.ext_iff]

theorem accepted_without_quorum {E : Env} {s : Node} {m : NewViewMsg}
    (hacc : accepts (s.isValidNewViewMsg E m) = true) (hlow : ¬s.cfg.minRequiredQuorum.toNat ≤
      ∑ i ∈ leaderTally s.cfg m.viewChangeMsgList m.view, s.cfg.weightAt i.toNat) :
    ∃ t, s.isValidNewViewMsg E m = some (t, true) ∧ ¬NewViewQuorum t.cfg m := by
  obtain ⟨t, ht⟩ := accepts_iff.1 hacc
  have hsame := (Node.isValidNewViewMsg_spec ht).1
  refine ⟨t, ht, fun hq => hlow ?_⟩
  rw [newViewQuorum_congr hsame, newViewQuorum_iff] at hq
  exact hq

theorem toyNewView_quorum :
    ∃ t, (Toy.node 3 [1, 1, 1, 1]).isValidNewViewMsg Toy.env
        (toyNewView [toyViewChange 0 1, toyViewChange 1 1, toyViewChange 2 1]) = some (t, true) ∧
      NewViewQuorum t.cfg (toyNewView [toyViewChange 0 1, toyViewChange 1 1, toyViewChange 2 1]) := by
  have hacc : accepts ((Toy.node 3 [1, 1, 1, 1]).isValidNewViewMsg Toy.env
      (toyNewView [toyViewChange 0 1, toyViewChange 1 1, toyViewChange 2 1])) = true := by decide +kernel
  obtain ⟨t, ht⟩ := accepts_iff.1 hacc
  refine ⟨t, ht, (isValidNewViewMsg_quorum_iff ht).1.2 ?_⟩
  decide +kernel

/-- A new view is accepted on one node's view change three times, or on three view changes for view 7. -/
theorem toyNewView_no_quorum :
    (∃ t, (Toy.node 3 [1, 1, 1, 1]).isValidNewViewMsg Toy.env
        (toyNewView [toyViewChange 0 1, toyViewChange 0 1, toyViewChange 0 1]) = some (t, true) ∧
      ¬NewViewQuorum t.cfg (toyNewView [toyViewChange 0 1, toyViewChange 0 1, toyViewChange 0 1])) ∧
    (∃ t, (Toy.node 3 [1, 1, 1, 1]).isValidNewViewMsg Toy.env
        (toyNewView [toyViewChange 0 7, toyViewChange 1 7, toyViewChange 2 7]) = some (t, true) ∧
      ¬NewViewQuorum t.cfg (toyNewView [toyViewChange 0 7, toyViewChange 1 7, toyViewChange 2 7])) := by
  exact ⟨accepted_without_quorum (by decide +kernel) (by decide +kernel),
    accepted_without_quorum (by decide +kernel) (by decide +kernel)⟩

namespace NewViewMsg

def prepared (m : NewViewMsg) : List PBFTMessage := m.viewChangeMsgList.flatMap (·.preparedProposals)

def HighestAt (m : NewViewMsg) (p : PBFTMessage) : Prop :=
  p ∈ m.prepared ∧ ∀ q ∈ m.prepared, q.index = p.index → q.view ≤ p.view

/-- The list has to cover the index: it is above every committed one and at most a prepared one. -/
def Covers (m : NewViewMsg) (i : Int) : Prop :=
  (∀ vc ∈ m.viewChangeMsgList, vc.committedProposal.index < i) ∧ ∃ p ∈ m.prepared, i ≤ p.index

/-- The pre-prepare list is the one the view-change list justifies: one entry for each index it has to cover, with the hash of
a certificate of the highest view where there is one. -/
structure Justified (m : NewViewMsg) : Prop where
  nodup : (m.prePrepareList.map (·.index)).Nodup
  covers : ∀ i, i ∈ m.prePrepareList.map (·.index) ↔ m.Covers i
  highest : ∀ e ∈ m.prePrepareList, (∃ p ∈ m.prepared, p.index = e.index) →
    ∃ p, m.HighestAt p ∧ p.index = e.index ∧ p.hash = e.hash

end NewViewMsg

theorem Node.mem_indexRange {lo hi i : Int} : i ∈ Node.indexRange lo hi ↔ lo < i ∧ i ≤ hi := by
  simp only [Node.indexRange, List.mem_map, List.mem_range]
  constructor
  · rintro ⟨n, hn, rfl⟩
    omega
  · rintro ⟨hlo, hhi⟩
    exact ⟨(i - lo - 1).toNat, by omega, by omega⟩

/-- The check of a new view reads its view changes and its signature, never the pre-prepare list. -/
theorem isValidNewViewMsg_prePrepareList (E : Env) (s : Node) (m : NewViewMsg) (l : List PBFTMessage) :
    s.isValidNewViewMsg E { m with prePrepareList := l } = s.isValidNewViewMsg E m := rfl

theorem foldlM_reHandlePrePrepare_isSome (E : Env) {l : List PBFTMessage}
    (hl : ∀ m ∈ l, ∃ p, m.consensusProposal = some p ∧ p.data.length > 0) (s : Node) :
    (l.foldlM (Node.reHandlePrePrepare E) s).isSome = true := by
  induction l generalizing s with
  | nil => rfl
  | cons m l ih =>
    obtain ⟨p, hp, hdata⟩ := hl m List.mem_cons_self
    have hone : Node.reHandlePrePrepare E s m = some (s.handlePrePrepareMsg E m true true false).1 := by
      simp [Node.reHandlePrePrepare, hp, hdata]
    rw [List.foldlM_cons, hone]
    exact ih (fun m' hm' => hl m' (List.mem_cons_of_mem m hm')) _

theorem reHandlePrePrepareProposals_of_data (E : Env) (s : Node) {m : NewViewMsg}
    (hl : ∀ e ∈ m.prePrepareList, ∃ p, e.consensusProposal = some p ∧ p.data.length > 0) :
    ∃ t, s.reHandlePrePrepareProposals E m = some t := by
  have hloop := foldlM_reHandlePrePrepare_isSome E hl ((s.reachNewView m.view).notifyResetSealing none)
  obtain ⟨u, hu⟩ := Option.isSome_iff_exists.1 hloop
  unfold Node.reHandlePrePrepareProposals
  simp only [Option.bind_eq_bind, hu, Option.bind_some]
  split_ifs
  · exact ⟨_, rfl⟩
  · exact ⟨_, rfl⟩

/-- A new view whose view changes are accepted is accepted with any list of entries that have their data. -/
theorem handleNewViewMsg_accepts {E : Env} {s u : Node} {m : NewViewMsg} (h : s.isValidNewViewMsg E m = some (u, true))
    {l : List PBFTMessage} (hl : ∀ e ∈ l, ∃ p, e.consensusProposal = some p ∧ p.data.length > 0) :
    ∃ t, s.handleNewViewMsg E { m with prePrepareList := l } = some (t, true) := by
  obtain ⟨t, ht⟩ := reHandlePrePrepareProposals_of_data E u (m := { m with prePrepareList := l }) hl
  refine ⟨t, ?_⟩
  unfold Node.handleNewViewMsg
  rw [isValidNewViewMsg_prePrepareList, h, Option.bind_eq_bind, Option.bind_some]
  simp [ht]

def unjustifiedEntry : PBFTMessage := PBFTMessage.setConsensusProposal {} { proposal := { data := [0] } }

/-- Whatever is accepted with the list of a new view is justified by its view changes only where nothing is accepted, as the
view changes themselves or the signature are turned down: no list makes the difference. -/
theorem handleNewViewMsg_justified_iff {E : Env} {s : Node} {m : NewViewMsg} :
    (∀ l t, s.handleNewViewMsg E { m with prePrepareList := l } = some (t, true) →
      NewViewMsg.Justified { m with prePrepareList := l }) ↔ ∀ t, s.isValidNewViewMsg E m ≠ some (t, true) := by
  constructor
  · intro hall u hu
    by_cases hcovers : ∃ i, m.Covers i
    · -- the empty list leaves the index out
      obtain ⟨i, hi⟩ := hcovers
      obtain ⟨t, ht⟩ := handleNewViewMsg_accepts hu (l := []) nofun
      exact List.not_mem_nil (((hall [] t ht).covers i).2 hi)
    · -- an entry covers an index that no list may cover
      obtain ⟨t, ht⟩ := handleNewViewMsg_accepts hu (l := [unjustifiedEntry]) fun e he => by
        rw [List.mem_singleton.1 he]
        exact ⟨_, rfl, Nat.one_pos⟩
      exact hcovers ⟨_, ((hall _ t ht).covers unjustifiedEntry.index).1 List.mem_cons_self⟩
  · intro hnot l t ht
    obtain ⟨⟨u, valid⟩, hu, hrest⟩ := Option.bind_eq_some_iff.1 ht
    rw [isValidNewViewMsg_prePrepareList] at hu
    cases valid with
    | false => simp at hrest
    | true => exact absurd hu (hnot u)

/-- Three view changes, the first with a certificate of nodes 0, 1 and 2 for the zero hash at index 1. -/
def toyPreparedView (prePrepares : List PBFTMessage) : NewViewMsg :=
  { toyNewView [{ toyViewChange 0 1 with preparedProposals := [Node.preparedMsg 1 [0, 1, 2]] }, toyViewChange 1 1,
      toyViewChange 2 1] with prePrepareList := prePrepares }

def toyUnprepared : PBFTMessage :=
  populatePrePrepare .PrePreparePacket { proposal := { index := 1, hash := List.replicate 32 1, data := [1] } } 0 1 0 2

/-- A new view is accepted though its entry for a prepared index carries another hash, and though it covers no
index at all. -/
theorem toyPreparedView_unjustified :
    (∃ t, (Toy.node 3 [1, 1, 1, 1]).handleNewViewMsg Toy.env (toyPreparedView [toyUnprepared]) = some (t, true)) ∧
      ¬(toyPreparedView [toyUnprepared]).Justified ∧
    (∃ t, (Toy.node 3 [1, 1, 1, 1]).handleNewViewMsg Toy.env (toyPreparedView []) = some (t, true)) ∧
      ¬(toyPreparedView []).Justified := by
  refine ⟨accepts_iff.1 (by decide +kernel), fun h => ?_, accepts_iff.1 (by decide +kernel), fun h => ?_⟩
  · obtain ⟨p, ⟨hp, -⟩, -, hhash⟩ := h.highest toyUnprepared List.mem_cons_self
      ⟨Node.preparedMsg 1 [0, 1, 2], List.mem_cons_self, by decide +kernel⟩
    obtain rfl := List.mem_singleton.1 hp
    exact absurd hhash (by decide +kernel)
  · refine List.not_mem_nil ((h.covers 1).2 ⟨?_, Node.preparedMsg 1 [0, 1, 2], List.mem_cons_self, ?_⟩)
    · decide +kernel
    · decide +kernel

end BcosPbft
