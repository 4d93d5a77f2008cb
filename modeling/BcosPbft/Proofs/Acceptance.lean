import BcosPbft.Proofs.Rejection
import BcosPbft.Proofs.Reproposal
import BcosPbft.Proofs.RoundTrip
import BcosPbft.Proofs.ViewTally

/-! New views of honest leaders at honest receivers. The leader has checked the view changes against its own committed block
and its own view, the receiver checks them once more against its own, and one of them is enough to reject the message. -/

namespace BcosPbft

/-- The view change is signed by the node it names, and the proofs of its prepared proposals are complete. -/
def Node.Vouches (E : Env) (s : Node) (m : ViewChangeMsg) : Prop :=
  s.checkSignature E (.viewChange m) = true ∧
    ∀ p ∈ m.preparedProposals, ∃ q, p.consensusProposal = some q ∧ s.checkPrecommitWeight E q = some true

/-- What the view change says agrees with the receiver's committed block and its view. -/
structure Node.Follows (s : Node) (m : ViewChangeMsg) : Prop where
  committed : s.cfg.committedIndex ≤ m.committedProposal.index
  hash : m.committedProposal.index = s.cfg.committedIndex → m.committedProposal.hash = s.cfg.committedHash
  prepared : s.cfg.startRecovered = true → ∀ p ∈ m.preparedProposals, p.view ≤ s.cfg.view

section

variable {E : Env} {s t : Node} {fromNode : Option NodeID}

theorem checkPrecommitMsg_iff {p : PBFTMessage} : s.checkPrecommitMsg E p = some true ↔
    (s.cfg.startRecovered = true → p.view ≤ s.cfg.view) ∧
      ∃ q, p.consensusProposal = some q ∧ s.checkPrecommitWeight E q = some true := by
  unfold Node.checkPrecommitMsg
  split
  · rename_i hahead
    have hahead : s.cfg.startRecovered = true ∧ s.cfg.view < p.view := by simpa using hahead
    refine ⟨fun h => Bool.noConfusion (Option.some.inj h), fun h => absurd (h.1 hahead.1) (not_le.2 hahead.2)⟩
  · rename_i hahead
    have hview : s.cfg.startRecovered = true → p.view ≤ s.cfg.view := fun hstart =>
      not_lt.1 fun hlt => hahead (by simpa using ⟨hstart, hlt⟩)
    cases p.consensusProposal with
    | none => simp
    | some q =>
      refine ⟨fun h => ⟨hview, q, rfl, h⟩, ?_⟩
      rintro ⟨-, q', hq, h⟩
      obtain rfl := Option.some.inj hq
      exact h

theorem checkPreparedProposals_iff {l : List PBFTMessage} :
    s.checkPreparedProposals E l = some true ↔ ∀ p ∈ l, s.checkPrecommitMsg E p = some true := by
  induction l with
  | nil => exact ⟨fun _ p hp => absurd hp List.not_mem_nil, fun _ => rfl⟩
  | cons p l ih =>
    have heq : s.checkPreparedProposals E (p :: l) = (s.checkPrecommitMsg E p).bind fun ok =>
      if ok then s.checkPreparedProposals E l else some false := rfl
    rw [List.forall_mem_cons, ← ih, heq]
    cases s.checkPrecommitMsg E p with
    | none => simp
    | some ok => cases ok <;> simp

theorem passes_iff {m : ViewChangeMsg} :
    s.passes E m = true ↔ s.cfg.view ≤ m.view ∧ s.Follows m ∧ s.Vouches E m := by
  have hprepared : s.checkPreparedProposals E m.preparedProposals = some true ↔
      (s.cfg.startRecovered = true → ∀ p ∈ m.preparedProposals, p.view ≤ s.cfg.view) ∧
        ∀ p ∈ m.preparedProposals, ∃ q, p.consensusProposal = some q ∧ s.checkPrecommitWeight E q = some true := by
    rw [checkPreparedProposals_iff]
    simp only [checkPrecommitMsg_iff]
    exact ⟨fun h => ⟨fun hstart p hp => (h p hp).1 hstart, fun p hp => (h p hp).2⟩,
      fun h p hp => ⟨fun hstart => h.1 hstart p hp, h.2 p hp⟩⟩
  unfold Node.passes
  simp only [Bool.and_eq_true, decide_eq_true_eq, Bool.not_eq_true', Bool.and_eq_false_iff, decide_eq_false_iff_not, not_not,
    hprepared]
  constructor
  · rintro ⟨⟨⟨⟨hcommitted, hview⟩, hhash⟩, hpreparedView, hproofs⟩, hsig⟩
    exact ⟨hview, ⟨hcommitted, fun heq => hhash.resolve_left fun hne => hne heq, hpreparedView⟩, hsig, hproofs⟩
  · rintro ⟨hview, ⟨hcommitted, hhash, hpreparedView⟩, hsig, hproofs⟩
    exact ⟨⟨⟨⟨hcommitted, hview⟩, or_iff_not_imp_left.2 fun heq => hhash (not_not.1 heq)⟩, hpreparedView, hproofs⟩, hsig⟩

theorem passes_congr (hcfg : t.cfg = s.cfg) (m : ViewChangeMsg) : t.passes E m = s.passes E m := by
  have hproof : ∀ q, t.checkPrecommitWeight E q = s.checkPrecommitWeight E q := fun q => by
    unfold Node.checkPrecommitWeight
    rw [hcfg]
  have hsig : t.checkSignature E (.viewChange m) = s.checkSignature E (.viewChange m) := by
    unfold Node.checkSignature
    rw [hcfg]
  have hiff : t.passes E m = true ↔ s.passes E m = true := by
    rw [passes_iff, passes_iff, hcfg]
    refine and_congr_right fun _ => and_congr ?_ ?_
    · exact ⟨fun h => ⟨hcfg ▸ h.committed, hcfg ▸ h.hash, hcfg ▸ h.prepared⟩,
        fun h => ⟨hcfg.symm ▸ h.committed, hcfg.symm ▸ h.hash, hcfg.symm ▸ h.prepared⟩⟩
    · unfold Node.Vouches
      simp only [hproof, hsig]
  exact Bool.eq_iff_iff.2 hiff

end

namespace Node

/-- The node does not lead into the view it aims at, not even with its own view change recorded. -/
def Waits (s : Node) : Prop := ¬(s.addViewChangeReq s.generateViewChange).Elected

instance (s : Node) : Decidable s.Waits := inferInstanceAs (Decidable ¬_)

/-- The answer to a view change for `view` does not make the node enter a view of its own. -/
def Undisturbed (s : Node) (view : ViewType) (fromNode : Option NodeID) : Prop :=
  fromNode.isSome = true → s.cfg.timeoutState = true → view + 1 < s.cfg.toView → s.Waits

instance (s : Node) (view : ViewType) (fromNode : Option NodeID) : Decidable (s.Undisturbed view fromNode) :=
  inferInstanceAs (Decidable (_ → _ → _ → _))

end Node

section

variable {E : Env} {s t : Node} {fromNode : Option NodeID} {view : ViewType}

theorem elected_addViewChangeReq {m m' : ViewChangeMsg} (k : List Action) (hview : m'.view = m.view)
    (hfrom : m'.generatedFrom = m.generatedFrom) :
    ((s.emit k).addViewChangeReq m').Elected ↔ (s.addViewChangeReq m).Elected := by
  have hseen : (((s.emit k).viewChangeCache.find? m'.view).bind (·.find? m'.generatedFrom)) =
      ((s.viewChangeCache.find? m.view).bind (·.find? m.generatedFrom)) := by
    rw [hview, hfrom]
    rfl
  have hnode : (s.emit k).cfg.getConsensusNodeByIndex m'.generatedFrom = s.cfg.getConsensusNodeByIndex m.generatedFrom := by
    rw [hfrom]
    rfl
  unfold Node.addViewChangeReq
  rw [hseen, hnode]
  split
  · exact Iff.rfl
  · split
    · exact Iff.rfl
    · unfold Node.Elected
      rw [hview]
      exact Iff.rfl

theorem sendViewChangeTo_waits (E : Env) (dst : Option NodeID) (h : s.Waits) :
    ∃ u, s.sendViewChangeTo E dst = some u ∧ u.cfg = s.cfg ∧ u.Waits := by
  obtain ⟨m, -, hview, hfrom, heq⟩ := Node.sendViewChangeTo_eq s E dst
  generalize sendActions E s.cfg.keyPair dst (.viewChange s.generateViewChange) = k at heq
  have hidle : ¬((s.emit k).addViewChangeReq m).Elected := fun he =>
    h ((elected_addViewChangeReq k hview hfrom).1 he)
  have hcfg : ((s.emit k).addViewChangeReq m).cfg = s.cfg := Node.addViewChangeReq_cfg _ m
  refine ⟨(s.emit k).addViewChangeReq m, ?_, hcfg, ?_⟩
  · rw [heq]
    simp only [Node.tryIntoNewView, checkAndTryIntoNewView_not_elected hidle]
    rfl
  · -- the second time the view change is there already
    generalize hu : (s.emit k).addViewChangeReq m = u at hidle hcfg
    have hrecorded : ¬u.Unrecorded := by
      rintro ⟨hnone, hnode⟩
      have hknown : ((s.emit k).cfg.getConsensusNodeByIndex m.generatedFrom).isSome = true := by
        rw [hfrom]
        rwa [hcfg] at hnode
      have hsome := addViewChangeReq_records hknown
      rw [hu, hview, hfrom, ← hcfg, hnone] at hsome
      cases hsome
    have hsame : u.addViewChangeReq u.generateViewChange = u := addViewChangeReq_recorded rfl rfl hrecorded
    unfold Node.Waits
    rwa [hsame]

theorem sendViewChangeTo_enters {dst : Option NodeID} (hview : s.cfg.view ≤ s.cfg.toView) (h : ¬s.Waits)
    (ht : s.sendViewChangeTo E dst = some t) : t.cfg.view = s.cfg.toView := by
  obtain ⟨m, -, hm, hfrom, ht⟩ := Node.sendViewChangeTo_cases s ht
  generalize sendActions E s.cfg.keyPair dst (.viewChange s.generateViewChange) = k at ht
  have helected : ((s.emit k).addViewChangeReq m).Elected := (elected_addViewChangeReq k hm hfrom).2 (not_not.1 h)
  have hcfg : ((s.emit k).addViewChangeReq m).cfg = s.cfg := Node.addViewChangeReq_cfg _ m
  generalize (s.emit k).addViewChangeReq m = u at ht helected hcfg
  obtain ⟨⟨v, r⟩, hv, ht⟩ := Option.bind_eq_some_iff.1 ht
  obtain ⟨nv, rfl⟩ := Option.isSome_iff_exists.1 (elected_newView helected hv)
  obtain ⟨w, list, -, -, -, rfl, rfl⟩ := u.checkAndTryIntoNewView_some hv
  rw [(Node.reHandlePrePrepareProposals_views_eq ht).1]
  change (u.cfg.resetNewViewState u.cfg.toView).view = s.cfg.toView
  rw [(Config.resetNewViewState_views (by rw [hcfg]; exact hview)).1, hcfg]

theorem answerViewChange_undisturbed {m : ViewChangeMsg} (hview : s.cfg.view ≤ m.view) (h : s.Undisturbed m.view fromNode) :
    ∃ u, s.answerViewChange E fromNode m = some u ∧ u.cfg = s.cfg ∧ u.Undisturbed m.view fromNode := by
  unfold Node.answerViewChange
  split
  · rename_i hbehind
    have hahead : m.view + 1 < s.cfg.toView := by simpa [not_lt.2 hview] using hbehind
    split
    · exact ⟨s, rfl, rfl, h⟩
    · rename_i dst
      split
      · rename_i hwait
        obtain ⟨u, hu, hcfg, hwaits⟩ := sendViewChangeTo_waits E (some dst) (h rfl hwait hahead)
        exact ⟨u, hu, hcfg, fun _ _ _ => hwaits⟩
      · rename_i hwait
        exact ⟨_, rfl, rfl, fun _ htimeout => absurd htimeout hwait⟩
  · exact ⟨s, rfl, rfl, h⟩

/-- Where the answer is undisturbed, a view change is valid when it passes the checks. -/
theorem isValidViewChangeMsg_iff {m : ViewChangeMsg} {u : Node} (hu : s.answerViewChange E fromNode m = some u)
    (hcfg : u.cfg = s.cfg) : s.isValidViewChangeMsg E fromNode m = some (u, true) ↔ s.passes E m = true := by
  rw [← passes_congr hcfg]
  unfold Node.isValidViewChangeMsg Node.passes
  rw [hu, hcfg]
  by_cases hlow : m.committedProposal.index < s.cfg.committedIndex
  · simp [hlow, not_le.2 hlow]
  by_cases hview : m.view < s.cfg.view
  · simp [hlow, hcfg, hview, not_le.2 hview]
  cases hprepared : u.checkPreparedProposals E m.preparedProposals with
  | none => simp [hlow, hcfg, hview, hprepared]
  | some ok =>
    cases ok with
    | false => simp [hlow, hcfg, hview, hprepared]
    | true =>
      by_cases hhash : m.committedProposal.index = s.cfg.committedIndex ∧ m.committedProposal.hash ≠ s.cfg.committedHash
      · simp [hcfg, hview, hhash]
      · have hagrees : m.committedProposal.index = s.cfg.committedIndex → m.committedProposal.hash = s.cfg.committedHash := by
          simpa using hhash
        simp [hlow, hcfg, hview, hprepared, not_lt.1 hlow, not_lt.1 hview, hhash, ← imp_iff_not_or]
        exact fun _ => hagrees

/-- A view change is valid only where the answer does not disturb the node. -/
theorem isValidViewChangeMsg_undisturbed {m : ViewChangeMsg} {u : Node} (hbehind : s.cfg.view ≤ s.cfg.toView)
    (hmax : m.view ≠ -1) (h : s.isValidViewChangeMsg E fromNode m = some (u, true)) :
    s.cfg.view ≤ m.view ∧ s.Undisturbed m.view fromNode := by
  rcases Node.isValidViewChangeMsg_cases h with ⟨-, -, hret⟩ | ⟨-, hanswer, hvalid⟩
  · exact Bool.noConfusion hret
  have hle : u.cfg.view ≤ m.view := (hvalid rfl).1
  have hmono : s.cfg.view ≤ u.cfg.view :=
    Labelled.Steps.preserves (I := fun v => s.cfg.view ≤ v.cfg.view) (fun _ _ _ _ hp hv => hv.trans hp.cfgStep.view_le)
      (Node.answerViewChange_steps (A := fun _ => True) s (fun _ _ => trivial) hanswer) le_rfl
  refine ⟨hmono.trans hle, fun hfrom hwait hahead => ?_⟩
  by_contra hnot
  obtain ⟨dst, rfl⟩ := Option.isSome_iff_exists.1 hfrom
  have hsent : s.sendViewChangeTo E (some dst) = some u := by
    unfold Node.answerViewChange at hanswer
    rw [if_pos (by simp [hahead])] at hanswer
    simp only [hwait, if_true] at hanswer
    exact hanswer
  -- the view it enters is above the one of the view change
  have henters := sendViewChangeTo_enters hbehind hnot hsent
  have hsucc : m.view < m.view + 1 := UInt64.lt_add_one hmax
  exact absurd (henters ▸ hle) (not_le.2 (hsucc.trans hahead))

theorem newViewWeight_of_passes {l : List ViewChangeMsg} (w : UInt64) (hviews : ∀ m ∈ l, m.view = view)
    (hpasses : ∀ m ∈ l, s.passes E m = true) (h : l ≠ [] → s.Undisturbed view fromNode) :
    ∃ u r, Node.newViewWeight E fromNode s l w = some (u, some r) ∧ u.cfg = s.cfg := by
  induction l generalizing s w with
  | nil => exact ⟨s, w, rfl, rfl⟩
  | cons m l ih =>
    obtain ⟨hview, hviews⟩ := List.forall_mem_cons.1 hviews
    obtain ⟨hpass, hpasses⟩ := List.forall_mem_cons.1 hpasses
    subst hview
    obtain ⟨u, hu, hcfg, hun⟩ := answerViewChange_undisturbed (E := E) (passes_iff.1 hpass).1 (h (List.cons_ne_nil m l))
    have hvalid := (isValidViewChangeMsg_iff hu hcfg).2 hpass
    have hrest : ∀ w, ∃ v r, Node.newViewWeight E fromNode u l w = some (v, some r) ∧ v.cfg = u.cfg := fun w =>
      ih w hviews (fun m hm => (passes_congr hcfg m).trans (hpasses m hm)) (fun _ => hun)
    unfold Node.newViewWeight
    rw [hvalid]
    cases hnode : u.cfg.getConsensusNodeByIndex m.generatedFrom with
    | none =>
      obtain ⟨v, r, hv, hcfg'⟩ := hrest w
      exact ⟨v, r, by simpa [hnode] using hv, hcfg'.trans hcfg⟩
    | some node =>
      obtain ⟨v, r, hv, hcfg'⟩ := hrest (w + node.weight)
      exact ⟨v, r, by simpa [hnode] using hv, hcfg'.trans hcfg⟩

theorem newViewWeight_passes {l : List ViewChangeMsg} {w r : UInt64} {u : Node} (hbehind : s.cfg.view ≤ s.cfg.toView)
    (hmax : view ≠ -1) (hviews : ∀ m ∈ l, m.view = view) (h : Node.newViewWeight E fromNode s l w = some (u, some r)) :
    (∀ m ∈ l, s.passes E m = true) ∧ (l ≠ [] → s.Undisturbed view fromNode) := by
  induction l generalizing s w with
  | nil => exact ⟨fun m hm => absurd hm List.not_mem_nil, fun hne => absurd rfl hne⟩
  | cons m l ih =>
    obtain ⟨hview, hviews⟩ := List.forall_mem_cons.1 hviews
    subst hview
    rcases Node.newViewWeight_cons s h with ⟨-, hnone⟩ | ⟨v, w', hv, h⟩
    · cases hnone
    obtain ⟨hle, hun⟩ := isValidViewChangeMsg_undisturbed hbehind hmax hv
    obtain ⟨v', hv', hcfg, -⟩ := answerViewChange_undisturbed (E := E) hle hun
    obtain rfl : v' = v := by
      rcases Node.isValidViewChangeMsg_cases hv with ⟨-, -, hret⟩ | ⟨-, hanswer, -⟩
      · exact Bool.noConfusion hret
      · exact Option.some.inj (hv'.symm.trans hanswer)
    have hrest := (ih (by rw [hcfg]; exact hbehind) hviews h).1
    refine ⟨List.forall_mem_cons.2 ⟨(isValidViewChangeMsg_iff hv' hcfg).1 hv, fun m hm => ?_⟩, fun _ => hun⟩
    rw [← passes_congr hcfg]
    exact hrest m hm

end

structure NewViewMsg.Sound (E : Env) (c : Config) (m : NewViewMsg) : Prop where
  leader : c.leaderIndexInNewViewPeriod (m.index + 1) m.view = m.generatedFrom
  views : ∀ v ∈ m.viewChangeMsgList, v.view = m.view
  quorum : c.minRequiredQuorum ≤ (m.viewChangeMsgList.map (·.generatedFrom)).foldl (fun w i => w + c.weightOf i) 0
  signed : ∃ n, c.getConsensusNodeByIndex m.generatedFrom = some n ∧ m.verifySignature E n.nodeID = true

structure Config.SameGroup (c c' : Config) : Prop where
  number : c'.consensusNodeNum = c.consensusNodeNum
  list : c'.consensusNodeList = c.consensusNodeList
  required : c'.minRequiredQuorum = c.minRequiredQuorum
  period : c'.leaderSwitchPeriod = c.leaderSwitchPeriod

theorem checkProof_congr {E : Env} {c c' : Config} (hlist : c'.consensusNodeList = c.consensusNodeList)
    (hrequired : c'.minRequiredQuorum = c.minRequiredQuorum) (hash : HashType) (l : List (Option (Int × Bytes))) (w : UInt64) :
    Node.checkProof E c' hash l w = Node.checkProof E c hash l w := by
  induction l generalizing w with
  | nil =>
    unfold Node.checkProof
    rw [hrequired]
  | cons x l ih =>
    cases x with
    | none => rfl
    | some x =>
      unfold Node.checkProof
      simp only [Config.getConsensusNodeByIndex_congr hlist, ih]

theorem Node.Vouches.congr {E : Env} {s t : Node} (hlist : t.cfg.consensusNodeList = s.cfg.consensusNodeList)
    (hrequired : t.cfg.minRequiredQuorum = s.cfg.minRequiredQuorum) {m : ViewChangeMsg} (hm : s.Vouches E m) : t.Vouches E m := by
  obtain ⟨hsig, hproofs⟩ := hm
  refine ⟨?_, fun p hp => ?_⟩
  · unfold Node.checkSignature at hsig ⊢
    rwa [Config.getConsensusNodeByIndex_congr hlist]
  · obtain ⟨q, hq, hproof⟩ := hproofs p hp
    refine ⟨q, hq, ?_⟩
    unfold Node.checkPrecommitWeight at hproof ⊢
    rwa [checkProof_congr hlist hrequired]

namespace Config.SameGroup

variable {E : Env} {c c' c'' : Config}

theorem refl (c : Config) : c.SameGroup c := by
  constructor <;> rfl

theorem symm (h : c.SameGroup c') : c'.SameGroup c := ⟨h.number.symm, h.list.symm, h.required.symm, h.period.symm⟩

theorem trans (h : c.SameGroup c') (h' : c'.SameGroup c'') : c.SameGroup c'' :=
  ⟨h'.number.trans h.number, h'.list.trans h.list, h'.required.trans h.required, h'.period.trans h.period⟩

theorem sound (h : c.SameGroup c') {m : NewViewMsg} (hm : m.Sound E c) : m.Sound E c' where
  leader := (Config.leaderIndexInNewViewPeriod_congr h.number h.period _ _).trans hm.leader
  views := hm.views
  quorum := by
    rw [h.required, Config.weightOf_congr h.list]
    exact hm.quorum
  signed := by
    rw [Config.getConsensusNodeByIndex_congr h.list]
    exact hm.signed

end Config.SameGroup

section

variable {E : Env} {s : Node}

/-- A sound new view for a higher view is accepted when its view changes pass and the first answer is undisturbed. -/
theorem isValidNewViewMsg_of_passes {m : NewViewMsg} (hm : m.Sound E s.cfg) (hview : s.cfg.view < m.view)
    (hpasses : ∀ v ∈ m.viewChangeMsgList, s.passes E v = true)
    (hun : m.viewChangeMsgList ≠ [] → s.Undisturbed m.view m.fromNode) :
    ∃ t, s.isValidNewViewMsg E m = some (t, true) := by
  obtain ⟨u, r, hu, hcfg⟩ := newViewWeight_of_passes (E := E) 0 hm.views hpasses hun
  obtain ⟨-, hr, -⟩ := Node.newViewWeight_eq hu
  have hquorum : ¬r < u.cfg.minRequiredQuorum := by
    rw [hr, hcfg]
    exact not_lt.2 hm.quorum
  have hsig : u.checkSignature E (.newView m) = true := by
    obtain ⟨n, hn, hverify⟩ := hm.signed
    have hnode : u.cfg.getConsensusNodeByIndex (Message.newView m).base.generatedFrom = some n := by
      rw [hcfg]
      exact hn
    unfold Node.checkSignature
    rw [hnode]
    exact hverify
  refine ⟨u, ?_⟩
  unfold Node.isValidNewViewMsg
  rw [if_neg (not_not.2 hm.leader), if_neg (not_le.2 hview), hu]
  simp [hquorum, hsig]

theorem isValidNewViewMsg_passes {m : NewViewMsg} {t : Node} (hviews : ∀ v ∈ m.viewChangeMsgList, v.view = m.view)
    (hbehind : s.cfg.view ≤ s.cfg.toView) (hmax : m.view ≠ -1) (h : s.isValidNewViewMsg E m = some (t, true)) :
    (∀ v ∈ m.viewChangeMsgList, s.passes E v = true) ∧ (m.viewChangeMsgList ≠ [] → s.Undisturbed m.view m.fromNode) := by
  rcases Node.isValidNewViewMsg_cases s h with ⟨-, hret⟩ | ⟨-, -, r, hr, hvalid⟩
  · exact Bool.noConfusion hret
  · obtain ⟨w, rfl, -⟩ := hvalid rfl
    exact newViewWeight_passes hbehind hmax hviews hr

end

namespace Node

structure Files (s : Node) : Prop where
  views : ∀ v, s.viewChangeWeight.contains v = s.viewChangeCache.contains v
  filed : ∀ v l i m, s.viewChangeCache.find? v = some l → l.find? i = some m → m.view = v ∧ m.generatedFrom = i

def Tallied (s : Node) : Prop := ViewTallies { s with recoverReqCache := ∅, recoverCacheWeight := ∅ }

variable {E : Env} {s t : Node}

theorem Tallied.files (hs : s.Tallied) : s.Files := ⟨hs.changeViews, hs.changeFiled⟩

theorem Tallied.same (hs : s.Tallied) (hlist : t.cfg.consensusNodeList = s.cfg.consensusNodeList)
    (hcache : t.viewChangeCache = s.viewChangeCache) (hweight : t.viewChangeWeight = s.viewChangeWeight) : t.Tallied :=
  ViewTallies.same (s := { s with recoverReqCache := ∅, recoverCacheWeight := ∅ }) ⟨hlist, hcache, hweight, rfl, rfl⟩ hs

theorem tallied_of_empty (hcache : s.viewChangeCache = ∅) (hweight : s.viewChangeWeight = ∅) : s.Tallied :=
  Untallied.viewTallies ⟨hcache, hweight, rfl, rfl⟩

theorem Tallied.addViewChangeReq (hs : s.Tallied) (m : ViewChangeMsg) : (s.addViewChangeReq m).Tallied := by
  have hadd := ViewTallies.addViewChangeReq m hs
  unfold Node.addViewChangeReq at hadd ⊢
  split
  · exact hs
  · rename_i hnew
    rw [if_neg hnew] at hadd
    split
    · exact hs
    · rename_i node hnode
      simp only [hnode] at hadd
      exact hadd

/-- The weights are recomputed, under whatever list the view changes were weighed before. -/
theorem Files.removeInvalidViewChange (hs : s.Files) (view : ViewType) (latest : Int) :
    (s.removeInvalidViewChange view latest).Tallied := by
  refine ViewTallies.removeInvalidViewChange_of_filed (s := { s with recoverReqCache := ∅, recoverCacheWeight := ∅ })
    view latest hs.views hs.filed (fun _ _ _ _ hl => ?_) (fun v => ?_) (fun _ _ hw => ?_)
  · cases hl
  · refine ⟨fun h => Bool.noConfusion h, ?_⟩
    rintro ⟨i, hi, -⟩
    obtain ⟨l, m, hl, -⟩ := Ballot.mem_senders.1 hi
    cases hl
  · cases hw

theorem Files.removeConsensusedCache (hs : s.Files) (view : ViewType) (number : Int) :
    (s.removeConsensusedCache view number).Tallied := by
  unfold Node.removeConsensusedCache
  extract_lets gone u v
  have hu : u.Files := ⟨hs.views, hs.filed⟩
  exact Tallied.same (s := v) (hu.removeInvalidViewChange view number) rfl rfl rfl

end Node

section

variable {E : Env} {l : Label} {s t : Node}

theorem Prim.tallied (h : Prim E l s t) (hl : ∀ ls, l ≠ .nodes ls) (hs : s.Tallied) : t.Tallied := by
  have hlist := (h.sameNodes hl).list
  by_cases htabling : l.tabling = false
  · obtain ⟨hcache, hweight, -, -⟩ := h.tables_same htabling
    exact hs.same hlist hcache hweight
  cases h with
  | viewChange => exact hs.addViewChangeReq _
  | dropViewChanges _ view i => exact hs.files.removeInvalidViewChange view i
  | clearTables => exact hs.same rfl rfl rfl
  | _ => exact absurd rfl htabling

theorem CfgStep.list_ne_nil {c c' : Config} (h : CfgStep E l c c') (hc : c.consensusNodeList ≠ []) :
    c'.consensusNodeList ≠ [] := by
  cases h with
  | same _ h => rwa [h.list]
  | view _ v =>
    unfold Config.resetNewViewState
    split <;> exact hc
  | nodes h =>
    obtain ⟨hne, hlist, -⟩ := Config.setConsensusNodeList_derived h
    rw [hlist]
    exact Config.sortNodes_ne_nil hne
  | _ => exact hc

end

structure Node.Presides (E : Env) (keyPair : KeyPair) (s : Node) : Prop where
  tallied : s.Tallied
  managed : ∃ last, Config.Managed E keyPair last s.cfg
  list : s.cfg.consensusNodeList ≠ []
  committed : s.cfg.committedProposal.isSome = true

def SendsSound (E : Env) (c : Config) (k : List Action) : Prop :=
  ∀ dst m data, Action.send dst (.newView m) data ∈ k → m.Sound E c

section

variable {E : Env} {keyPair : KeyPair} {l : Label} {s t : Node}

theorem send_newView_signed {dst dst' : Option NodeID} {m m' : NewViewMsg} {data : Bytes} (hm : m.base.signatureData = [])
    (htype : m.packetType = .NewViewPacket)
    (h : Action.send dst' (.newView m') data ∈ sendActions E keyPair dst (.newView m)) :
    ∃ hash, m' = m.setSignature hash (E.crypto.sign keyPair hash) := by
  have hsigned : (PBFTCodec.shouldHandleSignature m.packetType && m.base.signatureData.length = 0) = true := by
    rw [htype, hm]
    rfl
  simp only [sendActions, PBFTCodec.encode, hsigned, if_true, List.map_cons, List.map_nil, List.cons_append, List.nil_append,
    List.mem_cons, List.not_mem_nil, or_false] at h
  rcases h with h | h
  · cases h
  · exact ⟨_, Message.newView.inj (Action.send.inj h).2.1⟩

theorem Node.Presides.derived (hs : s.Presides E keyPair) : s.cfg.Derived := by
  obtain ⟨last, hmanaged⟩ := hs.managed
  rcases hmanaged.nodes with ⟨-, hnil⟩ | ⟨-, -, -, -, hder⟩
  · exact absurd hnil hs.list
  · exact hder

/-- A new view that is made has a quorum of view changes for its view and the signature of the leader. -/
theorem Node.Presides.sound (hs : s.Presides E keyPair) (hlen : s.cfg.consensusNodeList.length < 2 ^ 64)
    (hsign : E.crypto.Verifies keyPair) {dst dst' : Option NodeID} {m₀ m : NewViewMsg} {data : Bytes}
    (h : s.checkAndTryIntoNewView E = some (t, some m₀))
    (hsent : Action.send dst' (.newView m) data ∈ sendActions E s.cfg.keyPair dst (.newView m₀)) : m.Sound E s.cfg := by
  obtain ⟨last, hmanaged⟩ := hs.managed
  have helected : s.Elected := by
    by_contra hnot
    rw [checkAndTryIntoNewView_not_elected hnot] at h
    cases (Prod.mk.inj (Option.some.inj h)).2
  obtain ⟨hviews, hsenders⟩ := ViewTallies.newView_filed hs.tallied.files.filed h
  obtain ⟨w, list, hw, hquorum, -, rfl, -⟩ := s.checkAndTryIntoNewView_some h
  obtain ⟨hash, rfl⟩ := send_newView_signed rfl rfl hsent
  obtain ⟨p, hp⟩ := Option.isSome_iff_exists.1 hs.committed
  have hindex : s.cfg.committedIndex = p.index := by
    unfold Config.committedIndex
    rw [hp]
    rfl
  have hown : s.cfg.nodeIndex = s.cfg.leaderIndexInNewViewPeriod (p.index + 1) s.cfg.toView :=
    (hmanaged.leaderAfterViewChange_iff hp rfl rfl).1 helected.2.2.1
  have hder := hs.derived
  refine ⟨?_, hviews, ?_, ?_⟩
  · change s.cfg.leaderIndexInNewViewPeriod (s.cfg.committedIndex + 1) s.cfg.toView = s.cfg.nodeIndex
    rw [hindex, hown]
  · have hweight : w = Ballot.weight s.cfg.weightOf s.viewChangeCache s.cfg.toView := hs.tallied.changeWeight _ w hw
    subst hweight
    change s.cfg.minRequiredQuorum ≤ ((s.ownNewView (E := E) _ list).viewChangeMsgList.map (·.generatedFrom)).foldl _ 0
    rw [hsenders, Quorum.foldl_add_eq_wrapSum]
    exact hquorum
  · obtain ⟨n, hn, hid⟩ := Option.map_eq_some_iff.1 (hder.leader_own hs.list hlen hown)
    refine ⟨n, ?_, ?_⟩
    · rw [← hown] at hn
      exact hn
    · rw [hid, hmanaged.key]
      exact hmanaged.key ▸ hsign _

end

section

variable {E : Env} {keyPair : KeyPair} {A : Label → Prop} {l : Label} {s t : Node}

theorem CfgStep.committed_isSome {c c' : Config} (h : CfgStep E l c c') (hc : c.committedProposal.isSome = true) :
    c'.committedProposal.isSome = true := by
  by_cases hl : ∀ b, l ≠ .ledger b
  · rwa [h.committedProposal_eq hl]
  · cases h with
    | same _ h => rwa [h.committedProposal]
    | ledger => rfl
    | _ => exact absurd (fun b => Label.noConfusion) hl

theorem Prim.presides (h : Prim E l s t) (hledger : ∀ b, l = .ledger b → 0 ≤ b.blockNumber) (hnodes : ∀ ls, l ≠ .nodes ls)
    (hs : s.Presides E keyPair) : t.Presides E keyPair where
  tallied := h.tallied hnodes hs.tallied
  managed := h.cfgStep.managed hledger hs.managed
  list := h.cfgStep.list_ne_nil hs.list
  committed := h.cfgStep.committed_isSome hs.committed

theorem SendsSound.append {c : Config} {k k' : List Action} (h : SendsSound E c k) (h' : SendsSound E c k') :
    SendsSound E c (k ++ k') :=
  fun dst m data hm => (List.mem_append.1 hm).elim (h dst m data) (h' dst m data)

theorem Steps.presides (h : Steps E A s t) (hA : ∀ l, A l → l.steady = true) (hs : s.Presides E keyPair) :
    t.Presides E keyPair ∧ s.cfg.SameGroup t.cfg ∧ ∃ k, t.log = s.log ++ k ∧
      (E.crypto.Verifies keyPair → s.cfg.consensusNodeList.length < 2 ^ 64 → SendsSound E s.cfg k) := by
  refine h.preserves (I := fun u => u.Presides E keyPair ∧ s.cfg.SameGroup u.cfg ∧ ∃ k, u.log = s.log ++ k ∧
      (E.crypto.Verifies keyPair → s.cfg.consensusNodeList.length < 2 ^ 64 → SendsSound E s.cfg k)) (fun l u v hl hp hu => ?_)
    ⟨hs, .refl s.cfg, [], (List.append_nil _).symm, fun _ _ _ _ _ hm => absurd hm List.not_mem_nil⟩
  obtain ⟨hu, hgroup, k, hk, hsound⟩ := hu
  have hsteady := hA l hl
  have hnodes : ∀ ls, l ≠ .nodes ls := fun ls heq => by
    rw [heq] at hsteady
    cases hsteady
  have hledger : ∀ b, l = .ledger b → 0 ≤ b.blockNumber := fun b heq => by
    rw [heq] at hsteady
    cases hsteady
  have hleaders := hp.cfgStep.sameLeaders hsteady
  obtain ⟨k', hk', hemits⟩ := hp.log
  refine ⟨hp.presides hledger hnodes hu, hgroup.trans ⟨hleaders.number, hleaders.list, (hp.sameNodes hnodes).required,
    hleaders.period⟩, k ++ k', by rw [hk', hk, List.append_assoc],
    fun hsign hlen => (hsound hsign hlen).append fun dst m data hm => ?_⟩
  obtain ⟨w, m₀, -, hmade, hmem⟩ := (hemits _ hm).newView_mem
  exact hgroup.symm.sound (hu.sound (by rw [hgroup.list]; exact hlen) hsign hmade hmem)

theorem Steps.sends_none (h : Steps E A s t) (hA : ∀ m, ¬A (.newView m)) :
    ∃ k, t.log = s.log ++ k ∧ ∀ c, SendsSound E c k := by
  refine h.preserves (I := fun u => ∃ k, u.log = s.log ++ k ∧ ∀ c, SendsSound E c k) (fun l u v hl hp hu => ?_)
    ⟨[], (List.append_nil _).symm, fun _ _ _ _ hm => absurd hm List.not_mem_nil⟩
  obtain ⟨k, hk, hnone⟩ := hu
  obtain ⟨k', hk', hemits⟩ := hp.log
  refine ⟨k ++ k', by rw [hk', hk, List.append_assoc], fun c => (hnone c).append fun dst m data hm => ?_⟩
  obtain ⟨w, m₀, rfl, -⟩ := (hemits _ hm).newView_mem
  exact absurd hl (hA m₀)

/-- A block may bring a new list, under which the stored view changes are weighed again before a new view is made. -/
theorem finalizeConsensus_presides {b : LedgerConfig} (hb : 0 ≤ b.blockNumber) {synced : Bool}
    (h : s.finalizeConsensus E b synced = some t) (hs : s.Presides E keyPair) :
    t.Presides E keyPair ∧ ∃ k, t.log = s.log ++ k ∧
      (E.crypto.Verifies keyPair → t.cfg.consensusNodeList.length < 2 ^ 64 → SendsSound E t.cfg k) := by
  obtain ⟨u, hu, htail⟩ := Node.finalizeConsensus_tail_steps s (A := fun l => l.steady = true) Label.steady_wide rfl rfl rfl rfl h
  -- up to the committed queue no table changes
  let B : Label → Prop := fun l => l.tabling = false ∧ (∀ m, l ≠ .newView m) ∧ ∀ b', l = .ledger b' → b' = b
  have hB : ∀ l : Label, l.tabling = false → (∀ m, l ≠ .newView m) → (∀ b', l = .ledger b' → b' = b) → B l :=
    fun _ h₁ h₂ h₃ => ⟨h₁, h₂, h₃⟩
  have hopen : Open B := by
    intro l hl
    cases l <;> first | exact ⟨rfl, fun _ => Label.noConfusion, fun _ h => Label.noConfusion h⟩ | cases hl
  have hset : Steps E B s u.tryToApplyCommitQueue.1 :=
    (Node.resetConfig_steps s (hopen _ rfl) (hB _ rfl (by simp) (by simp))
      (hB _ rfl (by simp) (fun _ h => (Label.ledger.inj h).symm)) (hB _ rfl (by simp) (by simp)) hu).trans (Node.tryToApplyCommitQueue_steps u hopen)
  generalize u.tryToApplyCommitQueue.1 = v at hset htail
  have hfiles : v.Files := hset.preserves (I := Node.Files) (fun l w x hl hp hw => by
    obtain ⟨hcache, hweight, -, -⟩ := hp.tables_same hl.1
    exact ⟨by rw [hcache, hweight]; exact hw.views, by rw [hcache]; exact hw.filed⟩) hs.tallied.files
  have hdrop := Node.removeConsensusedCache_steps (E := E) (A := fun l => l = .erase ∨ l = .dropViewChanges ∨ l = .clearTables)
    v (Or.inl rfl) (Or.inr (Or.inl rfl)) (Or.inr (Or.inr rfl)) v.cfg.view b.blockNumber
  have htallied := hfiles.removeConsensusedCache v.cfg.view b.blockNumber
  generalize v.removeConsensusedCache v.cfg.view b.blockNumber = w at hdrop htallied htail
  have hall : Steps E (fun l => (∀ m, l ≠ .newView m) ∧ ∀ b', l = .ledger b' → b' = b) s w := by
    refine (hset.mono fun l hl => hl.2).trans (hdrop.mono fun l hl => ?_)
    rcases hl with rfl | rfl | rfl <;> exact ⟨fun _ => Label.noConfusion, fun _ h => Label.noConfusion h⟩
  have hkeeps : w.cfg.consensusNodeList ≠ [] ∧ w.cfg.committedProposal.isSome = true :=
    hall.preserves (I := fun x => x.cfg.consensusNodeList ≠ [] ∧ x.cfg.committedProposal.isSome = true)
      (fun l x y _ hp hx => ⟨hp.cfgStep.list_ne_nil hx.1, hp.cfgStep.committed_isSome hx.2⟩) ⟨hs.list, hs.committed⟩
  have hw : w.Presides E keyPair :=
    ⟨htallied, hall.managed (fun b' hb' => by rw [hb'.2 b' rfl]; exact hb) hs.managed, hkeeps.1, hkeeps.2⟩
  obtain ⟨k, hk, hnone⟩ := hall.sends_none (fun m hm => hm.1 m rfl)
  obtain ⟨ht, hgroup, k', hk', hsound⟩ := htail.presides (fun _ hl => hl) hw
  refine ⟨ht, k ++ k', by rw [hk', hk, List.append_assoc], fun hsign hlen => (hnone _).append fun dst m data hm => ?_⟩
  exact hgroup.sound (hsound hsign (by rw [← hgroup.list]; exact hlen) dst m data hm)

end

section

variable {E : Env} {keyPair : KeyPair} {s t : Node}

/-- Only a block and a list of connected nodes change the nodes and the leaders. -/
theorem Event.allows_steady {e : Event} (hledger : ¬e.ledger) (hconnected : ∀ l, e ≠ .connected l) (l : Label)
    (hl : e.allows E s l) : l.steady = true := by
  cases l with
  | mode =>
    rcases hl with hl | ⟨l, hl⟩
    · exact absurd hl hledger
    · exact absurd hl (hconnected l)
  | ledger b => exact absurd ⟨b, hl⟩ hledger
  | nodes ls =>
    obtain ⟨b, -, hl⟩ := hl
    exact absurd ⟨b, hl⟩ hledger
  | _ => rfl

theorem step_presides {e : Event} (he : e.Numbered) (h : step E s e = some t) (hs : s.Presides E keyPair) :
    t.Presides E keyPair ∧ ∃ k, t.log = s.log ++ k ∧
      (E.crypto.Verifies keyPair → t.cfg.consensusNodeList.length < 2 ^ 64 → SendsSound E t.cfg k) := by
  have hnone : ∀ {c : Config}, SendsSound E c [] := fun _ _ _ hm => absurd hm List.not_mem_nil
  by_cases hledger : e.ledger
  · obtain ⟨b, rfl | rfl⟩ := hledger
    · exact finalizeConsensus_presides he h hs
    · rcases s.finalizeNewBlock_cases h with rfl | ⟨-, h⟩
      · exact ⟨hs, [], (List.append_nil _).symm, fun _ _ => hnone⟩
      have hpop : Prim E .quiet s { s with newBlocks := s.newBlocks.erase b } := .quiet (.same rfl rfl)
      exact finalizeConsensus_presides (s := { s with newBlocks := s.newBlocks.erase b }) he h
        (hpop.presides (fun _ => Label.noConfusion) (fun _ => Label.noConfusion) hs)
  by_cases hconnected : ∀ l, e ≠ .connected l
  · obtain ⟨ht, hgroup, k, hk, hsound⟩ := (step_steps h).presides (Event.allows_steady hledger hconnected) hs
    refine ⟨ht, k, hk, fun hsign hlen dst m data hm => hgroup.sound (hsound hsign ?_ dst m data hm)⟩
    rw [← hgroup.list]
    exact hlen
  · simp only [not_forall, not_not] at hconnected
    obtain ⟨l, rfl⟩ := hconnected
    obtain rfl := Option.some.inj h
    have hmode : Prim E .mode s (s.setCfg { s.cfg with connectedNodeList := l }) := .mode s _ _ l
    exact ⟨hmode.presides (fun _ h => Label.noConfusion h) (fun _ => Label.noConfusion) hs, [], (List.append_nil _).symm,
      fun _ _ => hnone⟩

/-- A block that is not old leaves a list of nodes and a committed proposal. -/
theorem Node.resetConfig_started {b : LedgerConfig} (hnew : ¬(b.blockNumber ≤ s.cfg.committedIndex ∧ s.cfg.committedIndex > 0))
    (h : s.resetConfig E b = some t) : t.cfg.consensusNodeList ≠ [] ∧ t.cfg.committedProposal.isSome = true := by
  let A : Label → Prop := fun l => l = .quiet ∨ l = .mode
  have hquiet : A .quiet := Or.inl rfl
  have hmode : A .mode := Or.inr rfl
  unfold Node.resetConfig at h
  rw [if_neg (by simpa using hnew)] at h
  obtain ⟨u, hu, h⟩ := Option.bind_eq_some_iff.1 h
  obtain rfl := Option.some.inj h
  unfold Node.setConsensusNodeList at hu
  obtain ⟨c, hc, hu⟩ := Option.bind_eq_some_iff.1 hu
  obtain ⟨hne, hlist, -, hcommitted, -⟩ := Config.setConsensusNodeList_derived hc
  have hperiod := setLeaderSwitchPeriod_steps (E := E) u hquiet hmode b.leaderSwitchPeriod
  generalize u.setLeaderSwitchPeriod b.leaderSwitchPeriod = v at hperiod
  have htimer : Steps E A v (v.setCfg v.cfg.resetTimer) := .single hmode (.mode v false _ _)
  have hseal := reSealAfterCommit_steps (E := E) (v.setCfg v.cfg.resetTimer) hquiet hmode b.blockNumber
  refine ((hperiod.trans htimer).trans hseal).preserves
    (I := fun w => w.cfg.consensusNodeList ≠ [] ∧ w.cfg.committedProposal.isSome = true)
    (fun l w x _ hp hw => ⟨hp.cfgStep.list_ne_nil hw.1, hp.cfgStep.committed_isSome hw.2⟩) ?_
  have hstarted : c.consensusNodeList ≠ [] ∧ c.committedProposal.isSome = true := by
    refine ⟨by rw [hlist]; exact Config.sortNodes_ne_nil hne, ?_⟩
    rw [hcommitted]
    rfl
  have hreset : ∀ (v : Node) (i : Option Int), v.cfg = c →
      (v.notifyResetSealing i).cfg.consensusNodeList ≠ [] ∧ (v.notifyResetSealing i).cfg.committedProposal.isSome = true := by
    rintro v i rfl
    have hp : Prim E .quiet v (v.notifyResetSealing i) := .quiet (Node.notifyResetSealing_quiet v i)
    exact ⟨hp.cfgStep.list_ne_nil hstarted.1, hp.cfgStep.committed_isSome hstarted.2⟩
  dsimp only at hu
  split_ifs at hu <;> obtain rfl := Option.some.inj hu
  · exact hstarted
  · exact hreset _ _ rfl
  · exact hstarted

theorem initNode_presides {b : LedgerConfig} (hb : 0 ≤ b.blockNumber) {state : List PBFTProposal} {s₀ : Node}
    (hinit : initNode E keyPair b state = some s₀) : s₀.Presides E keyPair := by
  -- `init` neither collects view changes nor drops any
  let A : Label → Prop := fun l => l.tabling = false ∧ ∀ b', l = .ledger b' → b' = b
  have hA : ∀ l : Label, l.tabling = false → (∀ b', l = .ledger b' → b' = b) → A l := fun _ h h' => ⟨h, h'⟩
  obtain ⟨s, hsteps, hs⟩ := initNode_steps (A := A) (hA _ rfl (by simp)) (hA _ rfl (by simp))
    (hA _ rfl (fun _ h => (Label.ledger.inj h).symm)) (hA _ rfl (by simp)) (fun _ _ => hA _ rfl (by simp)) hinit
  have htables : s.viewChangeCache = ∅ ∧ s.viewChangeWeight = ∅ :=
    hsteps.preserves (I := fun u => u.viewChangeCache = ∅ ∧ u.viewChangeWeight = ∅) (fun l u v hl hp hu => by
      obtain ⟨hcache, hweight, -, -⟩ := hp.tables_same hl.1
      rw [hcache, hweight]
      exact hu) ⟨rfl, rfl⟩
  have hmanaged : ∃ last, Config.Managed E keyPair last s.cfg :=
    hsteps.managed (fun b' hb' => by rw [hb'.2 b' rfl]; exact hb) ⟨none, .init rfl rfl rfl rfl⟩
  have hstarted : s₀.cfg.consensusNodeList ≠ [] ∧ s₀.cfg.committedProposal.isSome = true := by
    unfold initNode at hinit
    obtain ⟨u, hu, hinit⟩ := Option.bind_eq_some_iff.1 hinit
    have hfresh := Node.resetConfig_started (by simp [Config.committedIndex]) hu
    cases hlast : state.getLast? with
    | none =>
      simp only [hlast] at hinit
      obtain rfl := Option.some.inj hinit
      exact hfresh
    | some last =>
      simp only [hlast] at hinit
      obtain rfl := Option.some.inj hinit
      exact (u.initState_steps (E := E) (A := fun _ => True) trivial (fun _ _ _ => trivial)).preserves
        (I := fun w => w.cfg.consensusNodeList ≠ [] ∧ w.cfg.committedProposal.isSome = true)
        (fun l w x _ hp hw => ⟨hp.cfgStep.list_ne_nil hw.1, hp.cfgStep.committed_isSome hw.2⟩) hfresh
  rcases hs with rfl | ⟨last, -, rfl⟩
  · exact ⟨Node.tallied_of_empty htables.1 htables.2, hmanaged, hstarted.1, hstarted.2⟩
  · obtain ⟨l', hmanaged⟩ := hmanaged
    exact ⟨Node.tallied_of_empty htables.1 htables.2, ⟨l', hmanaged.other ⟨rfl, rfl, rfl, rfl, rfl, rfl, rfl, rfl, rfl⟩⟩,
      hstarted.1, hstarted.2⟩

theorem path_presides {b : LedgerConfig} {state : List PBFTProposal} {s₀ : Node} {trace : List (Node × Event)}
    (hb : 0 ≤ b.blockNumber) (hinit : initNode E keyPair b state = some s₀) (hrun : Trail (step E) s₀ trace s)
    (hn : ∀ x ∈ trace, x.2.Numbered) : s.Presides E keyPair :=
  hrun.preserves (I := Node.Presides E keyPair)
    (fun _ e _ (he : e.Numbered) hstep hs => (step_presides he hstep hs).1) hn (initNode_presides hb hinit)

end

def Event.admits (E : Env) (s : Node) (e : Event) (m : ViewChangeMsg) : Prop :=
  e = .worker ∧ s.workerStage = .admitted ∧ ∃ rest u, s.msgQueue = .viewChange m :: rest ∧
    { s with msgQueue := rest, workerStage := .start }.isValidViewChangeMsg E m.fromNode m = some (u, true)

def Node.SentChange (s : Node) (m : ViewChangeMsg) : Prop := ∃ dst data, Action.send dst (.viewChange m) data ∈ s.log

/-- The node has accepted the view change on its way to this state, or has made and sent it. -/
def Gathered (E : Env) (trace : List (Node × Event)) (s : Node) (m : ViewChangeMsg) : Prop :=
  (∃ x ∈ trace, x.2.admits E x.1 m) ∨ s.SentChange m

structure Node.Gathers (P : ViewChangeMsg → Prop) (s : Node) : Prop where
  stored : ∀ v m, s.StoresViewChange v m → P m
  sent : ∀ dst m data, Action.send dst (.newView m) data ∈ s.log → ∀ v ∈ m.viewChangeMsgList, P v

section

variable {E : Env} {keyPair : KeyPair} {P : ViewChangeMsg → Prop} {A : Label → Prop} {s t : Node}

theorem Event.admits.vouches {e : Event} {m : ViewChangeMsg} (h : e.admits E s m)
    (hlist : t.cfg.consensusNodeList = s.cfg.consensusNodeList) (hrequired : t.cfg.minRequiredQuorum = s.cfg.minRequiredQuorum) :
    t.Vouches E m := by
  obtain ⟨-, -, rest, u, -, hvalid⟩ := h
  have hsame := Node.isValidViewChangeMsg_sameNodes hvalid
  rcases Node.isValidViewChangeMsg_cases hvalid with ⟨-, -, hret⟩ | ⟨-, -, hchecks⟩
  · exact Bool.noConfusion hret
  obtain ⟨-, hprepared, hsig⟩ := hchecks rfl
  refine Node.Vouches.congr (hlist.trans hsame.list.symm) (hrequired.trans hsame.required.symm) ⟨hsig rfl, fun p hp => ?_⟩
  exact (checkPrecommitMsg_iff.1 (checkPreparedProposals_iff.1 hprepared p hp)).2

theorem Prim.gathers {l : Label} (h : Prim E l s t) (hl : ∀ m, l = .viewChange false m → P m)
    (hown : ∀ m, s.SentChange m → P m) (hs : s.Gathers P) : t.Gathers P where
  stored := fun v m hm => by
    rcases h.storesViewChange hm with hm | ⟨own, rfl⟩
    · exact hs.stored v m hm
    · cases own with
      | false => exact hl m rfl
      | true =>
        cases h with
        | viewChange _ _ hsent => exact hown m (hsent rfl)
  sent := fun dst m data hm v hv => by
    obtain ⟨k, hk, hemits⟩ := h.log
    rw [hk] at hm
    rcases List.mem_append.1 hm with hm | hm
    · exact hs.sent dst m data hm v hv
    · obtain ⟨w, m₀, -, hmade, -, hlist, -⟩ := (hemits _ hm).sends_newView
      obtain ⟨_, list, -, -, -, rfl, -⟩ := s.checkAndTryIntoNewView_some hmade
      rw [hlist] at hv
      exact hs.stored _ v (Node.mem_values_viewChanges.1 hv)

theorem Steps.gathers (h : Steps E A s t) (hA : ∀ m, A (.viewChange false m) → P m) (hown : ∀ m, t.SentChange m → P m)
    (hs : s.Gathers P) : t.Gathers P := by
  refine h.preserves (I := fun u => (∀ m, u.SentChange m → P m) → u.Gathers P) (fun l u v hl hp hu hv => ?_) (fun _ => hs) hown
  have hbefore : ∀ m, u.SentChange m → P m := by
    rintro m ⟨dst, data, hm⟩
    exact hv m ⟨dst, data, hp.log_mono _ hm⟩
  exact hp.gathers (fun m hm => hA m (hm ▸ hl)) hbefore (hu hbefore)

theorem step_gathers {e : Event} (h : step E s e = some t) (hadmits : ∀ m, e.admits E s m → P m)
    (hown : ∀ m, t.SentChange m → P m) (hs : s.Gathers P) : t.Gathers P := by
  by_cases hhandles : ∃ m, e.handles s (.viewChange m)
  · obtain ⟨m, rfl, -, rest, hq⟩ := hhandles
    rcases s.handleAdmitted_cases h with rfl | ⟨hstage, msg, rest', hq', h⟩
    · exact hs
    obtain ⟨rfl, rfl⟩ := List.cons.inj (hq.symm.trans hq')
    have hs' : ({ s with msgQueue := rest, workerStage := .start } : Node).Gathers P := ⟨hs.stored, hs.sent⟩
    simp only [Node.handleMsg] at h
    split_ifs at h with htype
    · obtain ⟨⟨u, ret⟩, hu, rfl⟩ := Option.map_eq_some_iff.1 h
      rcases Node.handleViewChangeMsg_cases _ hu with hu | ⟨w, x, hw, -, -⟩
      · -- it is not valid, so it is not stored
        exact (Node.isValidViewChangeMsg_steps _ (fun _ hl => hl) hu).gathers
          (fun m hm => Bool.noConfusion (show false = true from hm)) hown hs'
      · refine (Node.handleViewChangeMsg_steps (A := fun l => l.viewing = true ∨ l = .aim ∨ l = .viewChange false m) _
          (fun _ hl => Or.inl hl) (Or.inr (Or.inl rfl)) (fun _ => Or.inr (Or.inr rfl)) hu).gathers (fun m' hm' => ?_) hown hs'
        rcases hm' with hm' | hm' | hm'
        · cases hm'
        · cases hm'
        · obtain ⟨-, rfl⟩ := Label.viewChange.inj hm'
          exact hadmits m' ⟨rfl, hstage, rest, w, hq, hw⟩
    · obtain rfl := Option.some.inj h
      exact hs'
  · exact (step_steps h).gathers (fun m hm => absurd ⟨m, hm.1⟩ hhandles) hown hs

theorem initNode_gathers {keyPair : KeyPair} {b : LedgerConfig} {state : List PBFTProposal} {s₀ : Node}
    (hinit : initNode E keyPair b state = some s₀) (hown : ∀ m, s₀.SentChange m → P m) : s₀.Gathers P := by
  obtain ⟨s, hsteps, hs⟩ := initNode_steps (A := fun l => ∀ m, l ≠ .viewChange false m) (fun m => Label.noConfusion)
    (fun m => Label.noConfusion) (fun m => Label.noConfusion) (fun m => Label.noConfusion) (fun _ _ m => Label.noConfusion) hinit
  have hfresh : ({ cfg := { keyPair := keyPair, timeoutState := true } } : Node).Gathers P := by
    refine ⟨?_, fun dst m data hm => absurd hm List.not_mem_nil⟩
    rintro v m ⟨l, i, hl, -⟩
    cases hl
  rcases hs with rfl | ⟨last, -, rfl⟩
  · exact hsteps.gathers (fun m hm => absurd rfl (hm m)) hown hfresh
  · have hgathers : s.Gathers P := hsteps.gathers (fun m hm => absurd rfl (hm m)) hown hfresh
    exact ⟨hgathers.stored, hgathers.sent⟩

/-- What the node stores, and what its new views carry, it has accepted or sent. -/
theorem path_gathers {keyPair : KeyPair} {b : LedgerConfig} {state : List PBFTProposal} {s₀ : Node}
    {trace : List (Node × Event)} (hinit : initNode E keyPair b state = some s₀) (hrun : Trail (step E) s₀ trace s) :
    s.Gathers (Gathered E trace s) := by
  induction hrun with
  | nil => exact initNode_gathers hinit (fun _ hm => Or.inr hm)
  | @snoc trace s t e hrun hstep ih =>
    obtain ⟨k, hk⟩ := (step_steps hstep).log
    have hmono : ∀ m, Gathered E trace s m → Gathered E (trace ++ [(s, e)]) t m := by
      rintro m (⟨x, hx, hadmits⟩ | ⟨dst, data, hm⟩)
      · exact Or.inl ⟨x, List.mem_append_left _ hx, hadmits⟩
      · exact Or.inr ⟨dst, data, by rw [hk]; exact List.mem_append_left k hm⟩
    have hs : s.Gathers (Gathered E (trace ++ [(s, e)]) t) :=
      ⟨fun v m hm => hmono m (ih.stored v m hm), fun dst m data hm v hv => hmono v (ih.sent dst m data hm v hv)⟩
    exact step_gathers hstep (fun m hm => Or.inl ⟨(s, e), List.mem_append_right _ List.mem_cons_self, hm⟩)
      (fun _ hm => Or.inr hm) hs

end

/-- When a receiver accepts a new view of a node with this run: no view change is behind its committed block or names another
one there, none has a proposal prepared above its view once its view is recovered, those that the leader did not accept under
the receiver's nodes are signed and proven, and its answers do not take it into a view of its own. -/
structure Node.Welcomes (E : Env) (s : Node) (trace : List (Node × Event)) (m : NewViewMsg) : Prop where
  follows : ∀ v ∈ m.viewChangeMsgList, s.Follows v
  vouched : ∀ v ∈ m.viewChangeMsgList, (∀ x ∈ trace, x.2.admits E x.1 v →
    ¬(x.1.cfg.consensusNodeList = s.cfg.consensusNodeList ∧ x.1.cfg.minRequiredQuorum = s.cfg.minRequiredQuorum)) → s.Vouches E v
  undisturbed : m.viewChangeMsgList ≠ [] → s.Undisturbed m.view m.fromNode

section

variable {E : Env} {s t : Node} {trace : List (Node × Event)} {m : NewViewMsg}

theorem Node.Welcomes.vouches (h : s.Welcomes E trace m) {v : ViewChangeMsg} (hv : v ∈ m.viewChangeMsgList) : s.Vouches E v := by
  by_cases hadmits : ∃ x ∈ trace, x.2.admits E x.1 v ∧
      x.1.cfg.consensusNodeList = s.cfg.consensusNodeList ∧ x.1.cfg.minRequiredQuorum = s.cfg.minRequiredQuorum
  · obtain ⟨x, -, hadmits, hlist, hrequired⟩ := hadmits
    exact hadmits.vouches hlist.symm hrequired.symm
  · exact h.vouched v hv fun x hx hx' hsame => hadmits ⟨x, hx, hx', hsame⟩

theorem NewViewMsg.Sound.accepted_iff (hm : m.Sound E s.cfg) (hview : s.cfg.view < m.view) (trace : List (Node × Event)) :
    (s.Welcomes E trace m → ∃ u, s.isValidNewViewMsg E m = some (u, true)) ∧
      (s.cfg.view ≤ s.cfg.toView → m.view ≠ -1 → (∃ u, s.isValidNewViewMsg E m = some (u, true)) → s.Welcomes E trace m) := by
  refine ⟨fun h => isValidNewViewMsg_of_passes hm hview (fun v hv => ?_) h.undisturbed, fun hbehind hmax h => ?_⟩
  · refine passes_iff.2 ⟨?_, h.follows v hv, h.vouches hv⟩
    rw [hm.views v hv]
    exact hview.le
  · obtain ⟨u, hu⟩ := h
    obtain ⟨hpasses, hun⟩ := isValidNewViewMsg_passes hm.views hbehind hmax hu
    exact ⟨fun v hv => (passes_iff.1 (hpasses v hv)).2.1, fun v hv _ => (passes_iff.1 (hpasses v hv)).2.2, hun⟩

theorem sameGroup_of_reached {keyPair keyPair' : KeyPair} (hs : s.Presides E keyPair) (ht : t.Presides E keyPair')
    (hlist : t.cfg.consensusNodeList = s.cfg.consensusNodeList) (hperiod : t.cfg.leaderSwitchPeriod = s.cfg.leaderSwitchPeriod) :
    s.cfg.SameGroup t.cfg := by
  have hders := hs.derived
  have hdert := ht.derived
  refine ⟨by rw [hders.number, hdert.number, hlist], hlist, ?_, hperiod⟩
  rw [hders.required, hdert.required, hders.faulty, hdert.faulty, hders.total, hdert.total, hlist]

/-- A new view that a node sends on its run rests on view changes that it has accepted or sent itself, and another node
with the same nodes and leader period, whose view is lower, accepts it if and only if it welcomes the view changes. -/
theorem newView_accepted_iff {keyPair : KeyPair} {b : LedgerConfig} {state : List PBFTProposal} {s₀ R : Node} {e : Event}
    {dst fromNode : Option NodeID} {data : Bytes} (hsign : E.crypto.Verifies keyPair) (hb : 0 ≤ b.blockNumber)
    (hinit : initNode E keyPair b state = some s₀) (hrun : Trail (step E) s₀ trace s) (hn : ∀ x ∈ trace, x.2.Numbered)
    (he : e.Numbered) (hstep : step E s e = some t) (hsent : Action.send dst (.newView m) data ∈ t.log.drop s.log.length)
    (hR : R.Reached E) (hlist : R.cfg.consensusNodeList = t.cfg.consensusNodeList)
    (hperiod : R.cfg.leaderSwitchPeriod = t.cfg.leaderSwitchPeriod) (hlen : R.cfg.consensusNodeList.length < 2 ^ 64)
    (hview : R.cfg.view < m.view) :
    (∀ v ∈ m.viewChangeMsgList, Gathered E (trace ++ [(s, e)]) t v) ∧
      (R.Welcomes E (trace ++ [(s, e)]) { m with fromNode := fromNode } →
        ∃ u, R.isValidNewViewMsg E { m with fromNode := fromNode } = some (u, true)) ∧
      (R.cfg.view ≤ R.cfg.toView → m.view ≠ -1 → (∃ u, R.isValidNewViewMsg E { m with fromNode := fromNode } = some (u, true)) →
        R.Welcomes E (trace ++ [(s, e)]) { m with fromNode := fromNode }) := by
  obtain ⟨ht, k, hk, hsound⟩ := step_presides he hstep (path_presides hb hinit hrun hn)
  have hmem : Action.send dst (.newView m) data ∈ k := by
    rwa [hk, List.drop_left] at hsent
  obtain ⟨keyPair', b', state', r₀, trace', hb', hinit', hrun', hn'⟩ := hR
  have hgroup := sameGroup_of_reached ht (path_presides hb' hinit' hrun' hn') hlist hperiod
  have hm : ({ m with fromNode := fromNode } : NewViewMsg).Sound E R.cfg := by
    have hm := hgroup.sound (hsound hsign (by rw [← hlist]; exact hlen) dst m data hmem)
    exact ⟨hm.leader, hm.views, hm.quorum, hm.signed⟩
  refine ⟨(path_gathers hinit (hrun.snoc hstep)).sent dst m data ?_, hm.accepted_iff hview (trace ++ [(s, e)])⟩
  rw [hk]
  exact List.mem_append_right _ hmem

end

def Action.newViewMsg : Action → Option NewViewMsg
  | .send _ (.newView m) _ => some m
  | _ => none

/-- Node 2 takes the view changes of nodes 0 and 1 for view 1: its run up to the last step, the states before and after that
step, and the new view that it sends in it. -/
def toyLed : Option (List (Node × Event) × Node × Node × NewViewMsg) := do
  let (trace, s) ← Trail.states (step Toy.env) (Toy.node 2 [1, 1, 1, 1]) (toyChanges [0, 1]).dropLast
  let t ← step Toy.env s .worker
  let m ← (t.log.drop s.log.length).findSome? Action.newViewMsg
  return (trace, s, t, m)

theorem toyLed_spec {trace : List (Node × Event)} {s t : Node} {m : NewViewMsg} (h : toyLed = some (trace, s, t, m)) :
    Trail (step Toy.env) (Toy.node 2 [1, 1, 1, 1]) trace s ∧ (∀ x ∈ trace, x.2.Numbered) ∧ step Toy.env s .worker = some t ∧
      ∃ dst data, Action.send dst (.newView m) data ∈ t.log.drop s.log.length := by
  unfold toyLed at h
  obtain ⟨⟨trace', s'⟩, hs, h⟩ := Option.bind_eq_some_iff.1 h
  obtain ⟨t', ht, h⟩ := Option.bind_eq_some_iff.1 h
  obtain ⟨m', hm, h⟩ := Option.bind_eq_some_iff.1 h
  cases h
  obtain ⟨a, hmem, ha⟩ := List.exists_of_findSome?_eq_some hm
  refine ⟨.of_states hs, fun x hx => ?_, ht, ?_⟩
  · have hnumbered : (toyChanges [0, 1]).dropLast.all fun e => decide e.Numbered := by decide +kernel
    exact of_decide_eq_true (List.all_eq_true.1 hnumbered x.2 (Trail.mem_events hs hx))
  · unfold Action.newViewMsg at ha
    split at ha
    · rename_i dst m' data
      obtain rfl := Option.some.inj ha
      exact ⟨dst, data, hmem⟩
    · cases ha

/-- Node 3, which has committed as much as node 2, accepts its new view. -/
theorem toyLed_accepted : ∃ trace s t m, toyLed = some (trace, s, t, m) ∧
    ∃ u, (Toy.node 3 [1, 1, 1, 1]).isValidNewViewMsg Toy.env { m with fromNode := some [2] } = some (u, true) := by
  have hrun : (toyLed.elim false fun r =>
      decide ((Toy.node 3 [1, 1, 1, 1]).cfg.consensusNodeList = r.2.2.1.cfg.consensusNodeList ∧
        (Toy.node 3 [1, 1, 1, 1]).cfg.leaderSwitchPeriod = r.2.2.1.cfg.leaderSwitchPeriod ∧
        (Toy.node 3 [1, 1, 1, 1]).cfg.view < r.2.2.2.view ∧
        (Toy.node 3 [1, 1, 1, 1]).Undisturbed r.2.2.2.view (some [2])) &&
      r.2.2.2.viewChangeMsgList.all fun v => (Toy.node 3 [1, 1, 1, 1]).passes Toy.env v) = true := by
    decide +kernel
  obtain ⟨⟨trace, s, t, m⟩, hr, hcheck⟩ := Toy.exists_of_elim hrun
  simp only [Bool.and_eq_true, decide_eq_true_eq, List.all_eq_true] at hcheck
  obtain ⟨⟨hlist, hperiod, hview, hun⟩, hpasses⟩ := hcheck
  obtain ⟨htrail, hn, hstep, dst, data, hsent⟩ := toyLed_spec hr
  have hsign : Toy.env.crypto.Verifies (Toy.keyPair 2) := fun h => decide_eq_true rfl
  have hinit : ∀ i, i = 2 ∨ i = 3 → initNode Toy.env (Toy.keyPair i)
      { blockNumber := 0, hash := zeroHash, consensusNodeList := Toy.nodes [1, 1, 1, 1] } [] =
        some (Toy.node i [1, 1, 1, 1]) := by
    rintro i (rfl | rfl) <;> decide +kernel
  have hreached : (Toy.node 3 [1, 1, 1, 1]).Reached Toy.env :=
    ⟨_, _, _, _, [], le_rfl, hinit 3 (Or.inr rfl), .nil, fun x hx => absurd hx List.not_mem_nil⟩
  have he : Event.worker.Numbered := trivial
  have hlen : (Toy.node 3 [1, 1, 1, 1]).cfg.consensusNodeList.length < 2 ^ 64 := by decide +kernel
  have haccept : (Toy.node 3 [1, 1, 1, 1]).Welcomes Toy.env (trace ++ [(s, .worker)]) { m with fromNode := some [2] } →
      ∃ u, (Toy.node 3 [1, 1, 1, 1]).isValidNewViewMsg Toy.env { m with fromNode := some [2] } = some (u, true) :=
    (newView_accepted_iff hsign le_rfl (hinit 2 (Or.inl rfl)) htrail hn he hstep hsent hreached hlist hperiod hlen hview).2.1
  refine ⟨trace, s, t, m, hr, haccept ⟨fun v hv => ?_, fun v hv _ => ?_, fun _ => hun⟩⟩
  · exact (passes_iff.1 (hpasses v hv)).2.1
  · exact (passes_iff.1 (hpasses v hv)).2.2

end BcosPbft
