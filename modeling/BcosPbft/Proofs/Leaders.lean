import BcosPbft.Proofs.NodeList
import BcosPbft.Proofs.Watermark

/-! Leaders. Nodes that were last given the same nodes, in whatever order, sort them to the same list and derive the same
number of nodes and quorum, so the formulas for the leader name the same node on all of them. -/

namespace BcosPbft

namespace Config

structure Derived (c : Config) : Prop extends Coherent c where
  number : c.consensusNodeNum = .ofNat c.consensusNodeList.length
  index : c.nodeIndex = c.getNodeIndexByNodeID c.keyPair.publicKey

structure SameLedger (c c' : Config) : Prop where
  keyPair : c'.keyPair = c.keyPair
  nodeIndex : c'.nodeIndex = c.nodeIndex
  number : c'.consensusNodeNum = c.consensusNodeNum
  list : c'.consensusNodeList = c.consensusNodeList
  total : c'.totalQuorum = c.totalQuorum
  faulty : c'.maxFaultyQuorum = c.maxFaultyQuorum
  required : c'.minRequiredQuorum = c.minRequiredQuorum
  committedProposal : c'.committedProposal = c.committedProposal
  progressedIndex : c'.progressedIndex = c.progressedIndex

/-- The configurations of a node with this key, with the argument of the last call of `setConsensusNodeList`: the list is
set, a block is committed, and whatever has to do with neither changes, in any order. -/
inductive Managed (E : Env) (keyPair : KeyPair) : Option (List ConsensusNode) → Config → Prop
  | init {c : Config} (hkey : c.keyPair = keyPair) (hlist : c.consensusNodeList = []) (hcommitted : c.committedProposal = none)
      (hprogressed : c.progressedIndex = 0) : Managed E keyPair none c
  | setList {c c' : Config} {last : Option (List ConsensusNode)} (l : List ConsensusNode) (hc : Managed E keyPair last c)
      (h : c.setConsensusNodeList E l = some c') : Managed E keyPair (some l) c'
  | commit {c : Config} {last : Option (List ConsensusNode)} {p : PBFTProposal} (hc : Managed E keyPair last c)
      (hp : 0 ≤ p.index) (h : ¬(p.index ≤ c.committedIndex ∧ c.committedIndex > 0)) :
      Managed E keyPair last (c.setCommittedProposal p)
  | other {c c' : Config} {last : Option (List ConsensusNode)} (hc : Managed E keyPair last c) (h : c.SameLedger c') :
      Managed E keyPair last c'

theorem getNodeIndexByNodeID_congr {c c' : Config} (h : c'.consensusNodeList = c.consensusNodeList) (nodeID : NodeID) :
    c'.getNodeIndexByNodeID nodeID = c.getNodeIndexByNodeID nodeID := by
  unfold getNodeIndexByNodeID
  rw [h]

theorem Derived.congr {c c' : Config} (hc : c.Derived) (h : c.SameLedger c') : c'.Derived where
  toCoherent := hc.toCoherent.congr h.list h.total h.faulty h.required
  number := by rw [h.number, h.list, hc.number]
  index := by rw [h.nodeIndex, h.keyPair, getNodeIndexByNodeID_congr h.list, hc.index]

theorem setConsensusNodeList_derived {E : Env} {c c' : Config} {l : List ConsensusNode}
    (h : c.setConsensusNodeList E l = some c') : l ≠ [] ∧ c'.consensusNodeList = sortNodes E l ∧ c'.keyPair = c.keyPair ∧
      c'.committedProposal = c.committedProposal ∧ c'.progressedIndex = c.progressedIndex ∧
      (c'.Derived ∨ c' = { c with nodeUpdated := false }) := by
  unfold setConsensusNodeList at h
  split_ifs at h with hnil
  have hne : l ≠ [] := by
    intro heq
    exact hnil (by rw [heq, List.length_nil])
  dsimp only at h
  split_ifs at h with hcmp
  · obtain rfl := Option.some.inj h
    exact ⟨hne, (compareConsensusNode_eq hcmp).symm, rfl, rfl, rfl, Or.inr rfl⟩
  · obtain rfl := Option.some.inj h
    refine ⟨hne, rfl, rfl, rfl, rfl, Or.inl { toCoherent := updateQuorum_coherent _, number := ?_, index := rfl }⟩
    change UInt64.ofNat (sortNodes E l).length = UInt64.ofNat (sortNodes E l).length
    rfl

theorem length_sortNodes (E : Env) (l : List ConsensusNode) : (sortNodes E l).length = l.length :=
  (List.perm_insertionSort _ l).length_eq

theorem sortNodes_ne_nil {E : Env} {l : List ConsensusNode} (h : l ≠ []) : sortNodes E l ≠ [] := by
  rw [← List.length_pos_iff, length_sortNodes, List.length_pos_iff]
  exact h

namespace Managed

variable {E : Env} {keyPair : KeyPair} {last : Option (List ConsensusNode)} {c : Config} {l : List ConsensusNode}

theorem key (h : Managed E keyPair last c) : c.keyPair = keyPair := by
  induction h with
  | init hkey => exact hkey
  | setList l hc h ih => exact (setConsensusNodeList_derived h).2.2.1.trans ih
  | commit hc hp h ih => exact ih
  | other hc h ih => exact h.keyPair.trans ih

theorem nodes (h : Managed E keyPair last c) : (last = none ∧ c.consensusNodeList = []) ∨
    ∃ l, last = some l ∧ l ≠ [] ∧ c.consensusNodeList = sortNodes E l ∧ c.Derived := by
  induction h with
  | init hkey hlist => exact Or.inl ⟨rfl, hlist⟩
  | setList l hc h ih =>
    obtain ⟨hne, hlist, -, -, -, hder | rfl⟩ := setConsensusNodeList_derived h
    · exact Or.inr ⟨l, rfl, hne, hlist, hder⟩
    · refine Or.inr ⟨l, rfl, hne, hlist, ?_⟩
      rcases ih with ⟨-, hnil⟩ | ⟨l₀, -, -, -, hder⟩
      · exact absurd (hlist.symm.trans hnil) (sortNodes_ne_nil hne)
      · exact hder.congr ⟨rfl, rfl, rfl, rfl, rfl, rfl, rfl, rfl, rfl⟩
  | @commit c last p hc hp h ih =>
    refine ih.imp_right ?_
    rintro ⟨l, hlast, hne, hlist, hder⟩
    refine ⟨l, hlast, hne, hlist, ?_⟩
    exact ⟨⟨hder.total, hder.faulty, hder.required⟩, hder.number, hder.index⟩
  | other hc h ih =>
    rcases ih with ⟨hlast, hnil⟩ | ⟨l, hlast, hne, hlist, hder⟩
    · exact Or.inl ⟨hlast, h.list.trans hnil⟩
    · exact Or.inr ⟨l, hlast, hne, h.list.trans hlist, hder.congr h⟩

theorem derived (h : Managed E keyPair (some l) c) : c.consensusNodeList = sortNodes E l ∧ c.Derived := by
  rcases h.nodes with ⟨hlast, -⟩ | ⟨l', hlast, -, hlist, hder⟩
  · cases hlast
  · obtain rfl := Option.some.inj hlast
    exact ⟨hlist, hder⟩

theorem progressed (h : Managed E keyPair last c) : (c.committedProposal = none ∧ c.progressedIndex = 0) ∨
    ∃ p, c.committedProposal = some p ∧ 0 ≤ p.index ∧ c.progressedIndex = p.index + 1 := by
  induction h with
  | init hkey hlist hcommitted hprogressed => exact Or.inl ⟨hcommitted, hprogressed⟩
  | setList l hc h ih =>
    obtain ⟨-, -, -, hcommitted, hprogressed, -⟩ := setConsensusNodeList_derived h
    rw [hcommitted, hprogressed]
    exact ih
  | @commit c last p hc hp h ih =>
    refine Or.inr ⟨p, rfl, hp, ?_⟩
    change (if c.progressedIndex < p.index + 1 then p.index + 1 else c.progressedIndex) = p.index + 1
    split_ifs with hlt
    · rfl
    · rcases ih with ⟨-, hprogressed⟩ | ⟨q, hq, hnonneg, hprogressed⟩
      · omega
      · have hindex : c.committedIndex = q.index := by rw [committedIndex, hq]; rfl
        omega
  | other hc h ih =>
    rw [h.committedProposal, h.progressedIndex]
    exact ih

end Managed

/-- In a strict total order there is one sorted list of the same nodes. -/
theorem sortNodes_congr {E : Env} (hless : IsStrictTotalOrder ConsensusNode (fun a b => E.nodeLess a b = true))
    {l l' : List ConsensusNode} (h : l.Perm l') : sortNodes E l = sortNodes E l' := by
  have hcases : ∀ a b, E.nodeLess a b = true ∨ a = b ∨ E.nodeLess b a = true := by
    intro a b
    by_contra hnone
    simp only [not_or] at hnone
    exact hnone.2.1 (hless.trichotomous a b hnone.1 hnone.2.2)
  have hasymm : ∀ {a b}, E.nodeLess a b = true → E.nodeLess b a = false := by
    intro a b hab
    by_contra hba
    rw [Bool.not_eq_false] at hba
    exact hless.irrefl a (hless.trans a b a hab hba)
  have htotal : Std.Total (fun a b => E.nodeLess b a = false) := by
    constructor
    intro a b
    rcases hcases a b with hlt | rfl | hlt
    · exact Or.inl (hasymm hlt)
    · exact Or.inl (by simpa using hless.irrefl a)
    · exact Or.inr (hasymm hlt)
  have htrans : IsTrans ConsensusNode (fun a b => E.nodeLess b a = false) := by
    constructor
    intro a b c hab hbc
    rcases hcases a b with hlt | rfl | hlt
    · by_contra hca
      rw [Bool.not_eq_false] at hca
      have hcb : E.nodeLess c b = true := hless.trans c a b hca hlt
      rw [hcb] at hbc
      cases hbc
    · exact hbc
    · rw [hlt] at hab
      cases hab
  have hperm : (sortNodes E l).Perm (sortNodes E l') :=
    (List.perm_insertionSort _ l).trans (h.trans (List.perm_insertionSort _ l').symm)
  refine hperm.eq_of_pairwise (fun a b _ _ hab hba => ?_) (List.pairwise_insertionSort _ l) (List.pairwise_insertionSort _ l')
  rcases hcases a b with hlt | heq | hlt
  · rw [hlt] at hba
    cases hba
  · exact heq
  · rw [hlt] at hab
    cases hab

theorem indexOfFrom_spec (nodeID : NodeID) (l : List ConsensusNode) (i : IndexType) (h : i.toNat + l.length < 2 ^ 64) :
    (∃ (k : ℕ) (hk : k < l.length), l[k].nodeID = nodeID ∧ (indexOfFrom nodeID l i).toNat = i.toNat + k) ∨
      (∀ n ∈ l, n.nodeID ≠ nodeID) ∧ indexOfFrom nodeID l i = nonConsensusNode := by
  induction l generalizing i with
  | nil => exact Or.inr ⟨by simp, rfl⟩
  | cons n l ih =>
    rw [List.length_cons] at h
    unfold indexOfFrom
    split_ifs with hn
    · exact Or.inl ⟨0, by simp, hn, by simp⟩
    · have hsucc : (i + 1).toNat = i.toNat + 1 := by
        rw [UInt64.toNat_add]
        exact Nat.mod_eq_of_lt (by change i.toNat + 1 < 2 ^ 64; omega)
      rcases ih (i + 1) (by omega) with ⟨k, hk, hid, hpos⟩ | ⟨hall, hnone⟩
      · refine Or.inl ⟨k + 1, by simpa using hk, by simpa using hid, ?_⟩
        rw [hpos, hsucc]
        omega
      · refine Or.inr ⟨fun m hm => ?_, hnone⟩
        rcases List.mem_cons.1 hm with rfl | hm
        · exact hn
        · exact hall m hm

def nodeIDAt (c : Config) (i : IndexType) : Option NodeID := (c.getConsensusNodeByIndex i).map (·.nodeID)

theorem nodeIDAt_congr {c c' : Config} (h : c'.consensusNodeList = c.consensusNodeList) (i : IndexType) :
    c'.nodeIDAt i = c.nodeIDAt i := by
  unfold nodeIDAt getConsensusNodeByIndex
  rw [h]

theorem Derived.own {c : Config} (hc : c.Derived) (hlen : c.consensusNodeList.length < 2 ^ 64) :
    c.nodeIDAt c.nodeIndex = some c.keyPair.publicKey ∨
      (∀ n ∈ c.consensusNodeList, n.nodeID ≠ c.keyPair.publicKey) ∧ c.nodeIndex = nonConsensusNode := by
  rcases indexOfFrom_spec c.keyPair.publicKey c.consensusNodeList 0 (by simpa using hlen) with
    ⟨k, hk, hid, hpos⟩ | ⟨hall, hnone⟩
  · left
    have hindex : c.nodeIndex.toNat = k := by
      rw [hc.index, getNodeIndexByNodeID, hpos]
      exact Nat.zero_add k
    unfold nodeIDAt getConsensusNodeByIndex
    rw [hindex, List.getElem?_eq_getElem hk, Option.map_some, hid]
  · exact Or.inr ⟨hall, hc.index.trans hnone⟩

theorem Derived.leader_lt {c : Config} (hc : c.Derived) (hne : c.consensusNodeList ≠ [])
    (hlen : c.consensusNodeList.length < 2 ^ 64) (i : Int) (v : ViewType) :
    (c.leaderIndexInNewViewPeriod i v).toNat < c.consensusNodeList.length := by
  have hpos : 0 < c.consensusNodeList.length := List.length_pos_iff.2 hne
  have hnum : c.consensusNodeNum.toNat = c.consensusNodeList.length := by
    rw [hc.number]
    exact Nat.mod_eq_of_lt hlen
  unfold leaderIndexInNewViewPeriod
  rw [UInt64.toNat_mod, hnum]
  exact Nat.mod_lt _ hpos

theorem Derived.leader_isSome {c : Config} (hc : c.Derived) (hne : c.consensusNodeList ≠ [])
    (hlen : c.consensusNodeList.length < 2 ^ 64) (i : Int) (v : ViewType) :
    (c.nodeIDAt (c.leaderIndexInNewViewPeriod i v)).isSome = true := by
  unfold nodeIDAt getConsensusNodeByIndex
  rw [List.getElem?_eq_getElem (hc.leader_lt hne hlen i v)]
  rfl

theorem Derived.leader_own {c : Config} (hc : c.Derived) (hne : c.consensusNodeList ≠ [])
    (hlen : c.consensusNodeList.length < 2 ^ 64) {i : Int} {v : ViewType}
    (h : c.nodeIndex = c.leaderIndexInNewViewPeriod i v) : c.nodeIDAt (c.leaderIndexInNewViewPeriod i v) =
      some c.keyPair.publicKey := by
  rcases hc.own hlen with hown | ⟨-, hnone⟩
  · rw [← h]
    exact hown
  · have hlt := hc.leader_lt hne hlen i v
    rw [← h, hnone] at hlt
    exact absurd hlt (by change ¬(2 ^ 64 - 1 < _); omega)

/-- The formulas for the leader on two nodes. -/
structure LeadersMatch (a b : Config) : Prop where
  leader : ∀ i, a.view = b.view → a.leaderIndex i = b.leaderIndex i ∧
    a.nodeIDAt (a.leaderIndex i) = b.nodeIDAt (b.leaderIndex i)
  /-- The node that leads into the view of `m` is the leader that the receiver of `m` expects. -/
  expected : ∀ (m : NewViewMsg) p, a.committedProposal = some p → p.index = m.index → a.toView = m.view →
    (a.leaderAfterViewChange = true ↔ a.nodeIndex = b.leaderIndexInNewViewPeriod (m.index + 1) m.view)
  /-- It is the leader of the next index once the view is installed. -/
  installed : ∀ m : NewViewMsg, a.view = m.view →
    a.leaderIndex (m.index + 1) = b.leaderIndexInNewViewPeriod (m.index + 1) m.view

/-- The leaders are nodes of the list, and a node that takes itself for the leader is the one they name. -/
structure NamesLeaders (a b : Config) : Prop where
  named : ∀ i v, (b.nodeIDAt (b.leaderIndexInNewViewPeriod i v)).isSome = true
  own : ∀ (m : NewViewMsg) p, a.committedProposal = some p → p.index = m.index → a.toView = m.view →
    a.leaderAfterViewChange = true → b.nodeIDAt (b.leaderIndexInNewViewPeriod (m.index + 1) m.view) = some a.keyPair.publicKey

theorem leaderIndexInNewViewPeriod_congr {a b : Config} (hnum : a.consensusNodeNum = b.consensusNodeNum)
    (hperiod : a.leaderSwitchPeriod = b.leaderSwitchPeriod) (i : Int) (v : ViewType) :
    a.leaderIndexInNewViewPeriod i v = b.leaderIndexInNewViewPeriod i v := by
  unfold leaderIndexInNewViewPeriod
  rw [hnum, hperiod]

section

variable {E : Env} {keyPair keyPair' : KeyPair} {l l' : List ConsensusNode} {a b : Config}

theorem Managed.leaderAfterViewChange_iff {last : Option (List ConsensusNode)} (h : Managed E keyPair last a) {p : PBFTProposal}
    (hp : a.committedProposal = some p) {i : Int} (hi : p.index = i) {v : ViewType} (hv : a.toView = v) :
    a.leaderAfterViewChange = true ↔ a.nodeIndex = a.leaderIndexInNewViewPeriod (i + 1) v := by
  have hprogressed : a.progressedIndex = i + 1 := by
    rcases h.progressed with ⟨hnone, -⟩ | ⟨q, hq, -, hprogressed⟩
    · rw [hnone] at hp
      cases hp
    · rw [hp] at hq
      rw [hprogressed, ← Option.some.inj hq, hi]
  unfold leaderAfterViewChange
  rw [decide_eq_true_iff, hprogressed, hv]

theorem Managed.leadersMatch (ha : Managed E keyPair (some l) a) (hnum : a.consensusNodeNum = b.consensusNodeNum)
    (hlist : a.consensusNodeList = b.consensusNodeList) (hperiod : a.leaderSwitchPeriod = b.leaderSwitchPeriod) :
    a.LeadersMatch b := by
  have hleader := leaderIndexInNewViewPeriod_congr hnum hperiod
  refine ⟨fun i hview => ?_, fun m p hp hi hv => ?_, fun m hv => ?_⟩
  · have heq : a.leaderIndex i = b.leaderIndex i := by
      rw [leaderIndex, leaderIndex, hview]
      exact hleader i b.view
    exact ⟨heq, by rw [heq, nodeIDAt_congr hlist]⟩
  · rw [ha.leaderAfterViewChange_iff hp hi hv, hleader]
  · rw [leaderIndex, hv]
    exact hleader _ _

theorem Managed.list_ne_nil (h : Managed E keyPair (some l) a) : a.consensusNodeList ≠ [] := by
  rcases h.nodes with ⟨hlast, -⟩ | ⟨l', hlast, hne, hlist, -⟩
  · cases hlast
  · rw [hlist]
    exact sortNodes_ne_nil hne

theorem Managed.namesLeaders (ha : Managed E keyPair (some l) a) (hb : Managed E keyPair' (some l') b)
    (hnum : a.consensusNodeNum = b.consensusNodeNum) (hlist : a.consensusNodeList = b.consensusNodeList)
    (hperiod : a.leaderSwitchPeriod = b.leaderSwitchPeriod) (hlen : a.consensusNodeList.length < 2 ^ 64) :
    a.NamesLeaders b := by
  refine ⟨hb.derived.2.leader_isSome hb.list_ne_nil (hlist ▸ hlen), fun m p hp hi hv hleads => ?_⟩
  rw [ha.leaderAfterViewChange_iff hp hi hv] at hleads
  have hown := ha.derived.2.leader_own ha.list_ne_nil hlen hleads
  rwa [← nodeIDAt_congr hlist, ← leaderIndexInNewViewPeriod_congr hnum hperiod]

/-- Two nodes whose last lists have the same nodes, under one leader period: the derived fields are those of the list, and
every formula for the leader gives the same node on both. -/
theorem leaders_agree (hless : IsStrictTotalOrder ConsensusNode (fun a b => E.nodeLess a b = true))
    (ha : Managed E keyPair (some l) a) (hb : Managed E keyPair' (some l') b) (hl : l.Perm l')
    (hperiod : a.leaderSwitchPeriod = b.leaderSwitchPeriod) (_hpos : 1 ≤ a.leaderSwitchPeriod) :
    a.consensusNodeList = sortNodes E l ∧ b.consensusNodeList = sortNodes E l' ∧ a.Derived ∧ b.Derived ∧
      a.LeadersMatch b ∧ b.LeadersMatch a ∧ (l.length < 2 ^ 64 → a.NamesLeaders b ∧ b.NamesLeaders a) := by
  obtain ⟨hlista, hdera⟩ := ha.derived
  obtain ⟨hlistb, hderb⟩ := hb.derived
  have hsort := sortNodes_congr hless hl
  have hlist : a.consensusNodeList = b.consensusNodeList := by rw [hlista, hlistb, hsort]
  have hnum : a.consensusNodeNum = b.consensusNodeNum := by rw [hdera.number, hderb.number, hlist]
  refine ⟨hlista, hlistb, hdera, hderb, ha.leadersMatch hnum hlist hperiod, hb.leadersMatch hnum.symm hlist.symm hperiod.symm,
    fun hlen => ?_⟩
  have hlen : a.consensusNodeList.length < 2 ^ 64 := by
    rw [hlista, length_sortNodes]
    exact hlen
  exact ⟨ha.namesLeaders hb hnum hlist hperiod hlen, hb.namesLeaders ha hnum.symm hlist.symm hperiod.symm (hlist ▸ hlen)⟩

end

def toyOrdered : Env :=
  { Toy.env with nodeLess := fun a b => decide (a.nodeID < b.nodeID ∨ a.nodeID = b.nodeID ∧ a.weight < b.weight) }

theorem toyOrdered_total : IsStrictTotalOrder ConsensusNode (fun a b => toyOrdered.nodeLess a b = true) where
  trichotomous a b hab hba := by
    simp only [toyOrdered, decide_eq_true_eq, not_or, not_and, not_lt] at hab hba
    have hid : a.nodeID = b.nodeID := le_antisymm hba.1 hab.1
    have hweight : a.weight = b.weight := le_antisymm (hba.2 hid.symm) (hab.2 hid)
    cases a
    cases b
    simp_all
  irrefl a h := by simp [toyOrdered] at h
  trans a b c hab hbc := by
    simp only [toyOrdered, decide_eq_true_eq] at hab hbc ⊢
    rcases hab with hab | ⟨hid, hab⟩ <;> rcases hbc with hbc | ⟨hid', hbc⟩
    · exact Or.inl (hab.trans hbc)
    · exact Or.inl (hid' ▸ hab)
    · exact Or.inl (hid ▸ hbc)
    · exact Or.inr ⟨hid.trans hid', hab.trans hbc⟩

/-- A node after block 0 and a list of three nodes, the second call with the same nodes in another order. -/
def toyMember (b : UInt8) : Option Config :=
  ((({ keyPair := Toy.keyPair b } : Config).setCommittedProposal {}).setConsensusNodeList toyOrdered (Toy.nodes [1, 1, 1])).bind
    fun c => c.setConsensusNodeList toyOrdered (Toy.nodes [1, 1, 1]).reverse

/-- Both agree on the leader of block 5, which is node 2. -/
theorem toyMember_agree : ∃ a b, toyMember 0 = some a ∧ toyMember 1 = some b ∧ a.LeadersMatch b ∧
    a.leaderIndex 5 = 2 ∧ a.nodeIndex = 0 ∧ b.nodeIndex = 1 := by
  have hmanaged : ∀ b c, toyMember b = some c → Managed toyOrdered (Toy.keyPair b) (some (Toy.nodes [1, 1, 1]).reverse) c := by
    intro b c h
    obtain ⟨c', hc', h⟩ := Option.bind_eq_some_iff.1 h
    have hcommit := (Managed.init (E := toyOrdered) (c := { keyPair := Toy.keyPair b }) rfl rfl rfl rfl).commit (p := {}) le_rfl
      (fun hlt => absurd hlt.2 (lt_irrefl _))
    exact (hcommit.setList _ hc').setList _ h
  have hrun : ((toyMember 0).elim false fun a => (toyMember 1).elim false fun b => decide (a.leaderSwitchPeriod = 1 ∧
      b.leaderSwitchPeriod = 1 ∧ a.leaderIndex 5 = 2 ∧ a.nodeIndex = 0 ∧ b.nodeIndex = 1)) = true := by decide +kernel
  obtain ⟨a, ha, hrun⟩ := Toy.exists_of_elim hrun
  obtain ⟨b, hb, hrun⟩ := Toy.exists_of_elim hrun
  obtain ⟨hperiod, hperiod', hrest⟩ := of_decide_eq_true hrun
  obtain ⟨-, -, -, -, hsame, -⟩ := leaders_agree toyOrdered_total (hmanaged 0 a ha) (hmanaged 1 b hb) (.refl _)
    (hperiod.trans hperiod'.symm) (by rw [hperiod])
  exact ⟨a, b, ha, hb, hsame, hrest⟩

end Config

open Config

theorem CfgStep.managed {E : Env} {keyPair : KeyPair} {l : Label} {c c' : Config} (h : CfgStep E l c c')
    (hl : ∀ b, l = .ledger b → 0 ≤ b.blockNumber) (hc : ∃ last, Managed E keyPair last c) :
    ∃ last, Managed E keyPair last c' := by
  obtain ⟨last, hc⟩ := hc
  cases h with
  | same _ h => exact ⟨last, hc.other ⟨h.keyPair, h.nodeIndex, h.number, h.list, h.total, h.faulty, h.required,
      h.committedProposal, h.progressedIndex⟩⟩
  | view _ v =>
    refine ⟨last, hc.other ?_⟩
    unfold resetNewViewState
    split <;> exact ⟨rfl, rfl, rfl, rfl, rfl, rfl, rfl, rfl, rfl⟩
  | ledger _ h => exact ⟨last, hc.commit (hl _ rfl) h⟩
  | nodes h => exact ⟨_, hc.setList _ h⟩
  | _ => exact ⟨last, hc.other ⟨rfl, rfl, rfl, rfl, rfl, rfl, rfl, rfl, rfl⟩⟩

theorem Steps.managed {E : Env} {A : Label → Prop} {keyPair : KeyPair} {s t : Node} (h : Steps E A s t)
    (hA : ∀ b, A (.ledger b) → 0 ≤ b.blockNumber) (hs : ∃ last, Managed E keyPair last s.cfg) :
    ∃ last, Managed E keyPair last t.cfg :=
  h.preserves (I := fun u => ∃ last, Managed E keyPair last u.cfg)
    (fun _ _ _ hl hp hu => hp.cfgStep.managed (fun b hb => hA b (hb ▸ hl)) hu) hs

/-- The configurations of every run of a node are managed ones. -/
theorem path_managed {E : Env} {keyPair : KeyPair} {l : LedgerConfig} {state : List PBFTProposal} {s₀ s : Node}
    {trace : List (Node × Event)} (hl : 0 ≤ l.blockNumber) (hinit : initNode E keyPair l state = some s₀)
    (h : Trail (step E) s₀ trace s) (hn : ∀ x ∈ trace, x.2.Numbered) : ∃ last, Managed E keyPair last s.cfg := by
  refine h.preserves (I := fun u => ∃ last, Managed E keyPair last u.cfg)
    (fun u e v (he : e.Numbered) hstep hu => (step_steps hstep).managed (fun _ hb => Event.Numbered.nonneg he hb) hu) hn ?_
  obtain ⟨u, hsteps, hs⟩ := initNode_steps (A := fun x => ∀ b, x = .ledger b → b = l) (fun b hb => by cases hb)
    (fun b hb => by cases hb) (fun b hb => (Label.ledger.inj hb).symm) (fun b hb => by cases hb)
    (fun _ _ b hb => by cases hb) hinit
  have hu := hsteps.managed (fun b hb => by rw [hb b rfl]; exact hl) ⟨none, .init rfl rfl rfl rfl⟩
  rcases hs with rfl | ⟨last, -, rfl⟩
  · exact hu
  · obtain ⟨l', hu⟩ := hu
    exact ⟨l', hu.other ⟨rfl, rfl, rfl, rfl, rfl, rfl, rfl, rfl, rfl⟩⟩

end BcosPbft
