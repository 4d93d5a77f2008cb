import BcosPbft.Lib.Trail
import BcosPbft.Proofs.NewViewOnce

/-! Rejected messages. A handler that refuses a message has answered it at most, and an answer to a view change puts the
node's own view change into its table. -/

namespace BcosPbft

/-- The calls of the message handlers. A pre-prepare may come from a packet or a new view. -/
inductive Call
  | prePrepare (m : PBFTMessage) (needVerifyProposal generatedFromNewView needCheckSignature : Bool)
  | prepare (m : PBFTMessage)
  | commit (m : PBFTMessage)
  | viewChange (m : ViewChangeMsg)
  | newView (m : NewViewMsg)
  | checkPoint (m : PBFTMessage)

/-- What a handler leaves of the state, and what it returns. -/
def Node.call (E : Env) (s : Node) : Call → Option (Node × Bool)
  | .prePrepare m needVerifyProposal generatedFromNewView needCheckSignature =>
    some (s.handlePrePrepareMsg E m needVerifyProposal generatedFromNewView needCheckSignature)
  | .prepare m => some (s.handlePrepareMsg E m)
  | .commit m => s.handleCommitMsg E m
  | .viewChange m => s.handleViewChangeMsg E m
  | .newView m => s.handleNewViewMsg E m
  | .checkPoint m => some (s.handleCheckPointMsg E m)

/-- The part of the state that the consensus runs on. The tallies of the proposals are in their caches. -/
structure Observed where
  view : ViewType
  toView : ViewType
  timeoutState : Bool
  sealStartIndex : Int
  sealEndIndex : Int
  caches : OrdMap Int PBFTCache
  viewChangeCache : OrdMap ViewType (OrdMap IndexType ViewChangeMsg)
  viewChangeWeight : OrdMap ViewType UInt64
  maxCommittedIndex : OrdMap ViewType Int
  maxPrecommitIndex : OrdMap ViewType Int
  newViewGenerated : Bool

def Node.observed (s : Node) : Observed where
  view := s.cfg.view
  toView := s.cfg.toView
  timeoutState := s.cfg.timeoutState
  sealStartIndex := s.cfg.mSealStartIndex
  sealEndIndex := s.cfg.mSealEndIndex
  caches := s.caches
  viewChangeCache := s.viewChangeCache
  viewChangeWeight := s.viewChangeWeight
  maxCommittedIndex := s.maxCommittedIndex
  maxPrecommitIndex := s.maxPrecommitIndex
  newViewGenerated := s.newViewGenerated

namespace Node

def AnswersChange (s : Node) (fromNode : Option NodeID) (m : ViewChangeMsg) : Prop :=
  s.cfg.committedIndex ≤ m.committedProposal.index ∧ (m.view < s.cfg.view ∨ m.view + 1 < s.cfg.toView) ∧
    fromNode.isSome = true ∧ s.cfg.timeoutState = true

instance (s : Node) (fromNode : Option NodeID) (m : ViewChangeMsg) : Decidable (s.AnswersChange fromNode m) :=
  inferInstanceAs (Decidable (_ ∧ _))

def Unrecorded (s : Node) : Prop :=
  ((s.viewChangeCache.find? s.cfg.toView).bind (·.find? s.cfg.nodeIndex)) = none ∧
    (s.cfg.getConsensusNodeByIndex s.cfg.nodeIndex).isSome = true

instance (s : Node) : Decidable s.Unrecorded := inferInstanceAs (Decidable (_ ∧ _))

def Elected (s : Node) : Prop :=
  s.cfg.syncingHighestNumber ≤ s.cfg.committedIndex ∧ s.newViewGenerated = false ∧ s.cfg.leaderAfterViewChange = true ∧
    ∃ w ∈ s.viewChangeWeight.find? s.cfg.toView, s.cfg.minRequiredQuorum ≤ w

instance (s : Node) : Decidable s.Elected := inferInstanceAs (Decidable (_ ∧ _ ∧ _ ∧ ∃ w ∈ _, _))

/-- The node answers the view change, and its answer counts for the node itself. -/
def Reacts (s : Node) (fromNode : Option NodeID) (m : ViewChangeMsg) : Prop :=
  s.AnswersChange fromNode m ∧ (s.Unrecorded ∨ s.Elected)

instance (s : Node) (fromNode : Option NodeID) (m : ViewChangeMsg) : Decidable (s.Reacts fromNode m) :=
  inferInstanceAs (Decidable (_ ∧ _))

def passes (E : Env) (s : Node) (m : ViewChangeMsg) : Bool :=
  s.cfg.committedIndex ≤ m.committedProposal.index && s.cfg.view ≤ m.view &&
    !(m.committedProposal.index = s.cfg.committedIndex && m.committedProposal.hash ≠ s.cfg.committedHash) &&
    s.checkPreparedProposals E m.preparedProposals = some true && s.checkSignature E (.viewChange m)

def ReactsToList (E : Env) (s : Node) (fromNode : Option NodeID) : List ViewChangeMsg → Prop
  | [] => False
  | m :: l => s.Reacts fromNode m ∨ s.passes E m = true ∧ ReactsToList E s fromNode l

instance (E : Env) (s : Node) (fromNode : Option NodeID) : (l : List ViewChangeMsg) → Decidable (s.ReactsToList E fromNode l)
  | [] => inferInstanceAs (Decidable False)
  | _ :: l =>
    have := instDecidableReactsToList E s fromNode l
    inferInstanceAs (Decidable (_ ∨ _ ∧ _))

end Node

/-- The handler does more before it returns than to send messages. -/
def Call.Reacts (E : Env) (s : Node) : Call → Prop
  | .prePrepare m _ generatedFromNewView needCheckSignature =>
    generatedFromNewView = false ∧ needCheckSignature = true ∧ s.isSyncingHigher = false ∧
      s.executingProposals.contains m.hash = false ∧ s.checkPrePrepareMsg m = true ∧ s.checkSignature E (.pbft m) = false ∧
      s.cfg.leaderIndex m.index = m.generatedFrom ∧ m.generatedFrom = s.cfg.nodeIndex ∧ s.cfg.canHandleNewProposal = true ∧
        ¬(s.cfg.mSealStartIndex ≤ m.index ∧ m.index ≤ s.cfg.mSealEndIndex)
  | .viewChange m => s.Reacts m.fromNode m
  | .newView m => s.cfg.leaderIndexInNewViewPeriod (m.index + 1) m.view = m.generatedFrom ∧ s.cfg.view < m.view ∧
      s.ReactsToList E m.fromNode m.viewChangeMsgList
  | .prepare _ | .commit _ | .checkPoint _ => False

/-- The node has put its own view change into its tables and done nothing else. -/
def Node.Records (s t : Node) : Prop :=
  ∃ m, m.generatedFrom = s.cfg.nodeIndex ∧ m.view = s.cfg.toView ∧ t.observed = (s.addViewChangeReq m).observed

/-- The node has entered the view it has aimed at. -/
def Node.Enters (s t : Node) : Prop :=
  t.cfg.view = s.cfg.toView ∧ t.cfg.toView = s.cfg.toView ∧ t.cfg.timeoutState = false

section

variable {E : Env} {s t : Node}

theorem checkAndTryIntoNewView_not_elected (h : ¬s.Elected) : s.checkAndTryIntoNewView E = some (s, none) := by
  unfold Node.checkAndTryIntoNewView
  split
  · rfl
  rename_i hsync
  split
  · rfl
  rename_i hlead
  split
  · rfl
  · rename_i w hw
    refine if_pos (not_le.1 fun hle => h ⟨not_lt.1 hsync, ?_, ?_, w, hw, hle⟩)
    · simp_all
    · simp_all

theorem addViewChangeReq_recorded {m : ViewChangeMsg} (hview : m.view = s.cfg.toView)
    (hfrom : m.generatedFrom = s.cfg.nodeIndex)
    (h : ¬s.Unrecorded) : s.addViewChangeReq m = s := by
  unfold Node.addViewChangeReq
  split_ifs with hseen
  · rfl
  · rw [hview, hfrom, Option.not_isSome_iff_eq_none] at hseen
    cases hnode : s.cfg.getConsensusNodeByIndex s.cfg.nodeIndex with
    | none => simp only [hfrom, hnode]
    | some nodeInfo => exact absurd ⟨hseen, by rw [hnode]; rfl⟩ h

theorem sendViewChangeTo_idle {dst : Option NodeID} (h : ¬(s.Unrecorded ∨ s.Elected)) (ht : s.sendViewChangeTo E dst = some t) :
    ∃ k, t = s.emit k := by
  obtain ⟨m, -, hview, hfrom, ht⟩ := Node.sendViewChangeTo_cases s ht
  generalize sendActions E s.cfg.keyPair dst (.viewChange s.generateViewChange) = k at ht
  have hrecorded : ¬(s.emit k).Unrecorded := fun hu => h (Or.inl hu)
  have helected : ¬(s.emit k).Elected := fun he => h (Or.inr he)
  have hsame : (s.emit k).addViewChangeReq m = s.emit k := addViewChangeReq_recorded hview hfrom hrecorded
  rw [hsame] at ht
  simp only [Node.tryIntoNewView, checkAndTryIntoNewView_not_elected helected] at ht
  exact ⟨k, (Option.some.inj ht).symm⟩

theorem answerViewChange_idle {fromNode : Option NodeID} {m : ViewChangeMsg}
    (hle : s.cfg.committedIndex ≤ m.committedProposal.index)
    (h : ¬s.Reacts fromNode m) (ht : s.answerViewChange E fromNode m = some t) : ∃ k, t = s.emit k := by
  rcases Node.answerViewChange_cases s ht with rfl | ⟨hbehind, dst, rfl, ⟨hwait, ht⟩ | ⟨-, rfl⟩⟩
  · exact ⟨[], by simp [Node.emit]⟩
  · exact sendViewChangeTo_idle (fun hsend => h ⟨⟨hle, hbehind, rfl, hwait⟩, hsend⟩) ht
  · exact ⟨_, rfl⟩

theorem checkPreparedProposals_emit (k : List Action) (l : List PBFTMessage) :
    (s.emit k).checkPreparedProposals E l = s.checkPreparedProposals E l := by
  induction l with
  | nil => rfl
  | cons m l ih =>
    unfold Node.checkPreparedProposals
    rw [ih]
    rfl

/-- A view change that the node does not react to is checked as it is, and the state is the one before. -/
theorem isValidViewChangeMsg_idle {fromNode : Option NodeID} {m : ViewChangeMsg} {valid : Bool} (h : ¬s.Reacts fromNode m)
    (ht : s.isValidViewChangeMsg E fromNode m = some (t, valid)) : (∃ k, t = s.emit k) ∧ valid = s.passes E m := by
  have hnone : ∃ k, s = s.emit k := ⟨[], by simp [Node.emit]⟩
  unfold Node.isValidViewChangeMsg at ht
  split at ht
  · rename_i hlow
    obtain ⟨rfl, rfl⟩ := Prod.mk.inj (Option.some.inj ht)
    exact ⟨hnone, by simp [Node.passes, not_le.2 hlow]⟩
  · rename_i hle
    rw [not_lt] at hle
    obtain ⟨u, hu, ht⟩ := Option.bind_eq_some_iff.1 ht
    obtain ⟨k, rfl⟩ := answerViewChange_idle hle h hu
    split at ht
    · rename_i hview
      obtain ⟨rfl, rfl⟩ := Prod.mk.inj (Option.some.inj ht)
      exact ⟨⟨k, rfl⟩, by simp [Node.passes, not_le.2 (show m.view < s.cfg.view from hview)]⟩
    rename_i hview
    have hview : s.cfg.view ≤ m.view := not_lt.1 hview
    split at ht
    · rename_i hhash
      change (decide (m.committedProposal.index = s.cfg.committedIndex) &&
        decide (m.committedProposal.hash ≠ s.cfg.committedHash)) = true at hhash
      obtain ⟨rfl, rfl⟩ := Prod.mk.inj (Option.some.inj ht)
      exact ⟨⟨k, rfl⟩, by simp only [Node.passes, hhash, Bool.not_true, Bool.and_false, Bool.false_and]⟩
    rename_i hhash
    have hhash : (decide (m.committedProposal.index = s.cfg.committedIndex) &&
      decide (m.committedProposal.hash ≠ s.cfg.committedHash)) = false := Bool.eq_false_iff.2 hhash
    obtain ⟨prepared, hprepared, ht⟩ := Option.bind_eq_some_iff.1 ht
    rw [checkPreparedProposals_emit] at hprepared
    have hpasses : s.passes E m = (prepared && s.checkSignature E (.viewChange m)) := by
      simp only [Node.passes, hle, hview, hhash, hprepared, decide_true, Bool.not_false, Bool.true_and]
      cases prepared <;> simp
    rw [hpasses]
    cases prepared with
    | false =>
      obtain ⟨rfl, rfl⟩ := Prod.mk.inj (Option.some.inj ht)
      exact ⟨⟨k, rfl⟩, rfl⟩
    | true =>
      obtain ⟨rfl, rfl⟩ := Prod.mk.inj (Option.some.inj ht)
      exact ⟨⟨k, rfl⟩, rfl⟩

end

section

variable {E : Env} {s t u : Node}

def Node.Moved (s t : Node) : Prop := s.Enters t ∨ s.Unrecorded ∧ s.Records t ∧ ¬t.Unrecorded ∧ ¬t.Elected

theorem Node.Moved.emit (h : s.Moved t) (k : List Action) : s.Moved (t.emit k) := h

theorem addViewChangeReq_records {m : ViewChangeMsg} (h : (s.cfg.getConsensusNodeByIndex m.generatedFrom).isSome = true) :
    (((s.addViewChangeReq m).viewChangeCache.find? m.view).bind (·.find? m.generatedFrom)).isSome = true := by
  unfold Node.addViewChangeReq
  split_ifs with hseen
  · exact hseen
  · obtain ⟨nodeInfo, hnode⟩ := Option.isSome_iff_exists.1 h
    simp only [hnode, OrdMap.find?_insert_self, Option.bind_some, Option.isSome_some]

theorem elected_newView {r : Option NewViewMsg} (h : s.Elected) (ht : s.checkAndTryIntoNewView E = some (t, r)) :
    r.isSome = true := by
  obtain ⟨hsync, hgenerated, hleads, w, hw, hquorum⟩ := h
  unfold Node.checkAndTryIntoNewView at ht
  rw [if_neg (not_lt.2 hsync), hgenerated, hleads, Bool.not_true, Bool.or_false, if_neg Bool.false_ne_true] at ht
  rw [Option.mem_def] at hw
  simp only [hw, if_neg (UInt64.not_lt.2 hquorum)] at ht
  obtain ⟨list, -, ht⟩ := Option.bind_eq_some_iff.1 ht
  rw [← (Prod.mk.inj (Option.some.inj ht)).2]
  rfl

theorem Node.Moved.isValidViewChangeMsg {fromNode : Option NodeID} {m : ViewChangeMsg} {valid : Bool} (h : s.Moved t)
    (hu : t.isValidViewChangeMsg E fromNode m = some (u, valid)) : s.Moved u := by
  have hidle : ¬t.Reacts fromNode m := by
    rintro ⟨⟨-, -, -, htimeout⟩, heffect⟩
    rcases h with ⟨-, -, hentered⟩ | ⟨-, -, hrecorded, helected⟩
    · exact absurd (hentered.symm.trans htimeout) Bool.noConfusion
    · exact heffect.elim hrecorded helected
  obtain ⟨⟨k, rfl⟩, -⟩ := isValidViewChangeMsg_idle hidle hu
  exact h.emit k

theorem Node.Moved.newViewWeight {fromNode : Option NodeID} {l : List ViewChangeMsg} {weight : UInt64} {r : Option UInt64}
    (h : s.Moved t) (hu : Node.newViewWeight E fromNode t l weight = some (u, r)) : s.Moved u := by
  induction l generalizing t weight with
  | nil =>
    obtain ⟨rfl, -⟩ := Prod.mk.inj (Option.some.inj hu)
    exact h
  | cons m l ih =>
    rcases Node.newViewWeight_cons t hu with ⟨hv, -⟩ | ⟨v, w, hv, hu⟩
    · exact h.isValidViewChangeMsg hv
    · exact ih (h.isValidViewChangeMsg hv) hu

end

end BcosPbft
