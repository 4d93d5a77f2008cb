import BcosPbft.Proofs.Prepare
import BcosPbft.Lib.Trail
import BcosPbft.Spec.Toy
import Mathlib.Algebra.Ring.Nat

/-! The view of a node and the view it aims at. Both only rise, apart from the retreat of a commit to the view itself,
so the first stays below the second until the 64-bit view that is aimed at wraps around. -/

namespace BcosPbft

/-- The view is at most the view the node aims at. -/
def Node.Behind (s : Node) : Prop := s.cfg.view ≤ s.cfg.toView

instance (s : Node) : Decidable s.Behind := inferInstanceAs (Decidable (_ ≤ _))

theorem CfgStep.toView_eq {E : Env} {l : Label} {c c' : Config} (h : CfgStep E l c c') (hview : l ≠ .view) (haim : l ≠ .aim) :
    c'.toView = c.toView := by
  cases h with
  | same _ h => exact h.toView
  | mode => rfl
  | aim => exact absurd rfl haim
  | view _ hv => exact absurd rfl hview
  | expect _ i => rfl
  | lowMark _ h => rfl
  | ledger _ h => rfl
  | reseal => rfl
  | nodes h =>
    obtain ⟨_, _, _, _, _, _, _, rfl⟩ := Config.setConsensusNodeList_frame h
    rfl

theorem Config.resetNewViewState_views {c : Config} {v : ViewType} (hv : c.view ≤ v) :
    (c.resetNewViewState v).view = v ∧ (c.resetNewViewState v).toView = v := by
  unfold Config.resetNewViewState
  rw [if_neg (not_lt.2 hv)]
  exact ⟨rfl, rfl⟩

theorem Prim.behind {E : Env} {l : Label} {s t : Node} (h : Prim E l s t) (haim : l ≠ .aim) (hs : s.Behind) : t.Behind := by
  by_cases hview : l = .view
  · subst hview
    cases h with
    | view _ hv =>
      obtain ⟨hv, hto⟩ := Config.resetNewViewState_views hv
      exact le_of_eq (hv.trans hto.symm)
  · unfold Node.Behind
    rw [h.cfgStep.view_eq hview, h.cfgStep.toView_eq hview haim]
    exact hs

theorem Steps.behind {E : Env} {A : Label → Prop} {s t : Node} (h : Steps E A s t) (haim : ¬A .aim) (hs : s.Behind) :
    t.Behind :=
  h.preserves (fun _ _ _ hl hp hu => hp.behind (fun heq => haim (heq ▸ hl)) hu) hs

theorem Steps.views_eq {E : Env} {A : Label → Prop} {s t : Node} (h : Steps E A s t) (haim : ¬A .aim) (hview : ¬A .view) :
    t.cfg.view = s.cfg.view ∧ t.cfg.toView = s.cfg.toView := by
  refine h.preserves (I := fun u => u.cfg.view = s.cfg.view ∧ u.cfg.toView = s.cfg.toView) (fun l u v hl hp hu => ?_) ⟨rfl, rfl⟩
  have hne : l ≠ .view := fun heq => hview (heq ▸ hl)
  exact ⟨(hp.cfgStep.view_eq hne).trans hu.1, (hp.cfgStep.toView_eq hne (fun heq => haim (heq ▸ hl))).trans hu.2⟩

structure Config.SameLeaders (c c' : Config) : Prop where
  nodeIndex : c'.nodeIndex = c.nodeIndex
  number : c'.consensusNodeNum = c.consensusNodeNum
  list : c'.consensusNodeList = c.consensusNodeList
  progressedIndex : c'.progressedIndex = c.progressedIndex
  period : c'.leaderSwitchPeriod = c.leaderSwitchPeriod
  connected : c'.connectedNodeList = c.connectedNodeList

theorem Config.SameLeaders.refl (c : Config) : c.SameLeaders c := by
  constructor <;> rfl

theorem Config.SameLeaders.trans {c c' c'' : Config} (h : c.SameLeaders c') (h' : c'.SameLeaders c'') : c.SameLeaders c'' where
  nodeIndex := h'.nodeIndex.trans h.nodeIndex
  number := h'.number.trans h.number
  list := h'.list.trans h.list
  progressedIndex := h'.progressedIndex.trans h.progressedIndex
  period := h'.period.trans h.period
  connected := h'.connected.trans h.connected

def Label.steady : Label → Bool
  | .mode | .ledger _ | .nodes _ => false
  | _ => true

theorem Label.steady_wide : Wide (fun l => l.steady = true) := by
  intro l hl
  cases l <;> first | rfl | cases hl

theorem CfgStep.sameLeaders {E : Env} {l : Label} {c c' : Config} (h : CfgStep E l c c') (hl : l.steady = true) :
    c.SameLeaders c' := by
  cases h with
  | same _ h => exact ⟨h.nodeIndex, h.number, h.list, h.progressedIndex, h.leaderSwitchPeriod, h.connectedNodeList⟩
  | view _ v =>
    unfold Config.resetNewViewState
    split <;> exact ⟨rfl, rfl, rfl, rfl, rfl, rfl⟩
  | aim | expect | lowMark | reseal => exact ⟨rfl, rfl, rfl, rfl, rfl, rfl⟩
  | mode | ledger | nodes => cases hl

theorem Steps.sameLeaders {E : Env} {A : Label → Prop} {s t : Node} (h : Steps E A s t) (hA : ∀ l, A l → l.steady = true) :
    s.cfg.SameLeaders t.cfg :=
  h.preserves (I := fun u => s.cfg.SameLeaders u.cfg) (fun l _ _ hl hp hu => hu.trans (hp.cfgStep.sameLeaders (hA l hl)))
    (.refl s.cfg)

namespace Config

/-- The leader at this index is known not to be connected. -/
def skips (c : Config) (leaderIndex : IndexType) : Bool :=
  !(c.connectedNodeList.length = 0) && c.isConsensusNode && !(leaderIndex = c.nodeIndex) &&
    (c.getConsensusNodeByIndex leaderIndex).any (fun n => !c.connectedNodeList.contains n.nodeID)

def skipped (c : Config) : Nat → ViewType → IndexType → Nat
  | 0, _, _ => 0
  | fuel + 1, toView, leaderIndex =>
    if c.skips leaderIndex then
      c.skipped fuel (toView + 1) (c.leaderIndexInNewViewPeriod c.progressedIndex (toView + 1)) + 1
    else 0

theorem SameLeaders.skips {c c' : Config} (h : c.SameLeaders c') (i : IndexType) : c'.skips i = c.skips i := by
  simp only [Config.skips, isConsensusNode, getConsensusNodeByIndex, h.nodeIndex, h.list, h.connected]

theorem SameLeaders.leader {c c' : Config} (h : c.SameLeaders c') (i : Int) (v : ViewType) :
    c'.leaderIndexInNewViewPeriod i v = c.leaderIndexInNewViewPeriod i v := by
  simp only [leaderIndexInNewViewPeriod, h.number, h.period]

theorem SameLeaders.skipped {c c' : Config} (h : c.SameLeaders c') (fuel : Nat) (toView : ViewType) (i : IndexType) :
    c'.skipped fuel toView i = c.skipped fuel toView i := by
  induction fuel generalizing toView i with
  | zero => rfl
  | succ fuel ih => simp only [Config.skipped, h.skips, h.leader, h.progressedIndex, ih]

end Config

namespace Node

variable {E : Env} {s t : Node}

theorem reachNewView_cfg (s : Node) (v : ViewType) : (s.reachNewView v).cfg = s.cfg.resetNewViewState v :=
  resetCacheAt_fold_cfg (s.setCfg (s.cfg.resetNewViewState v)) _ _

theorem reHandlePrePrepareProposals_views_eq {m : NewViewMsg} (h : s.reHandlePrePrepareProposals E m = some t) :
    t.cfg.view = (s.cfg.resetNewViewState m.view).view ∧ t.cfg.toView = (s.cfg.resetNewViewState m.view).toView := by
  have hA : Open (fun l => l ≠ .aim ∧ l ≠ .view) := by
    intro l hl
    cases l <;> first | exact ⟨Label.noConfusion, Label.noConfusion⟩ | cases hl
  have htail := Steps.views_eq (reHandlePrePrepareProposals_tail_steps s hA
    (fun _ _ _ => ⟨Label.noConfusion, Label.noConfusion⟩) (fun _ _ => ⟨Label.noConfusion, Label.noConfusion⟩)
    ⟨Label.noConfusion, Label.noConfusion⟩ (fun (hown : false = true) => Bool.noConfusion hown) h) (by simp) (by simp)
  rwa [reachNewView_cfg] at htail

theorem reHandlePrePrepareProposals_views {m : NewViewMsg} (hm : s.cfg.view ≤ m.view)
    (h : s.reHandlePrePrepareProposals E m = some t) : t.cfg.view = m.view ∧ t.cfg.toView = m.view := by
  have heq := reHandlePrePrepareProposals_views_eq h
  obtain ⟨hview, hto⟩ := Config.resetNewViewState_views hm
  exact ⟨heq.1.trans hview, heq.2.trans hto⟩

theorem tryIntoNewView_views (h : s.tryIntoNewView E = some t) :
    t.cfg.toView = s.cfg.toView ∧ (s.Behind → t.Behind) := by
  rcases tryIntoNewView_cases s h with rfl | ⟨u, m, hu, h⟩
  · exact ⟨rfl, id⟩
  · obtain ⟨w, list, -, -, -, hm, hu⟩ := s.checkAndTryIntoNewView_some hu
    have hcfg : u.cfg = s.cfg := by
      rw [hu]
      rfl
    have hmv : m.view = s.cfg.toView := by
      rw [hm]
      rfl
    constructor
    · have hto := (reHandlePrePrepareProposals_views_eq h).2
      rw [hto, hcfg, hmv, Config.resetNewViewState]
      split_ifs <;> rfl
    · intro hs
      obtain ⟨hview, hto⟩ := reHandlePrePrepareProposals_views (by rw [hcfg, hmv]; exact hs) h
      exact le_of_eq (hview.trans hto.symm)

theorem sendViewChangeTo_views {dst : Option NodeID} (h : s.sendViewChangeTo E dst = some t) :
    t.cfg.toView = s.cfg.toView ∧ (s.Behind → t.Behind) := by
  obtain ⟨m, -, -, -, h⟩ := sendViewChangeTo_cases s h
  have hadd : ((s.emit (sendActions E s.cfg.keyPair dst (.viewChange s.generateViewChange))).addViewChangeReq m).cfg = s.cfg :=
    addViewChangeReq_cfg _ m
  obtain ⟨hto, hbehind⟩ := tryIntoNewView_views h
  rw [hadd] at hto
  refine ⟨hto, fun hs => hbehind ?_⟩
  unfold Behind
  rw [hadd]
  exact hs

/-- A timeout aims one view higher, whatever the view change leads to. -/
theorem triggerTimeout_aim (h : s.triggerTimeout E = some t) : t.cfg.toView = s.cfg.toView + 1 := by
  unfold triggerTimeout at h
  dsimp only at h
  exact (sendViewChangeTo_views h).1

theorem triggerTimeout_toView (hs : s.Behind) (hroom : s.cfg.toView.toNat + 1 < 2 ^ 64) (h : s.triggerTimeout E = some t) :
    t.cfg.toView = s.cfg.toView + 1 ∧ t.Behind := by
  refine ⟨triggerTimeout_aim h, ?_⟩
  unfold triggerTimeout at h
  dsimp only at h
  refine (sendViewChangeTo_views h).2 ?_
  change s.cfg.view ≤ s.cfg.toView + 1
  have hle := UInt64.le_iff_toNat_le.1 hs
  rw [UInt64.le_iff_toNat_le, UInt64.toNat_add]
  change _ ≤ (_ + 1) % 2 ^ 64
  omega

/-- The search goes on as long as the leader is skipped. -/
theorem tryTriggerFastViewChange_succ (fuel : Nat) (s : Node) (leader : IndexType) :
    tryTriggerFastViewChange E (fuel + 1) s leader =
      if s.cfg.skips leader then (s.triggerTimeout E).bind fun u => tryTriggerFastViewChange E fuel u
        (u.cfg.leaderIndexInNewViewPeriod u.cfg.progressedIndex u.cfg.toView)
      else some s := by
  rw [tryTriggerFastViewChange, Config.skips]
  by_cases hempty : s.cfg.connectedNodeList.length = 0
  · simp [hempty]
  by_cases hnode : s.cfg.isConsensusNode = true
  · by_cases hown : leader = s.cfg.nodeIndex
    · simp [hown]
    · cases hn : s.cfg.getConsensusNodeByIndex leader with
      | none => simp
      | some n =>
        dsimp only
        rw [if_neg hempty, if_neg (by simp [hnode]), if_neg hown, Option.any_some]
        by_cases hconnected : s.cfg.connectedNodeList.contains n.nodeID = true
        · rw [if_pos hconnected, if_neg (by rw [hconnected]; simp)]
        · rw [if_neg hconnected, if_pos (by simpa [hempty, hnode, hown] using hconnected)]
          rfl
  · simp [hnode]

/-- What a timeout keeps the search for a connected leader keeps, if the views it skips are there. -/
theorem tryTriggerFastViewChange_keeps {I : Node → Prop} (hI : ∀ {u v : Node}, u.Behind → u.cfg.toView.toNat + 1 < 2 ^ 64 →
      u.triggerTimeout E = some v → I u → I v) {fuel : Nat} {leader : IndexType} (hs : s.Behind)
    (hroom : s.cfg.toView.toNat + s.cfg.skipped fuel s.cfg.toView leader < 2 ^ 64) (hi : I s)
    (h : tryTriggerFastViewChange E fuel s leader = some t) : t.Behind ∧ I t := by
  induction fuel generalizing s leader with
  | zero =>
    obtain rfl := Option.some.inj h
    exact ⟨hs, hi⟩
  | succ fuel ih =>
    rw [tryTriggerFastViewChange_succ] at h
    split_ifs at h with hskips
    · obtain ⟨u, hu, h⟩ := Option.bind_eq_some_iff.1 h
      rw [Config.skipped, if_pos hskips] at hroom
      have hroom' : s.cfg.toView.toNat + 1 < 2 ^ 64 := by omega
      obtain ⟨hto, hu'⟩ := triggerTimeout_toView hs hroom' hu
      have hsame : s.cfg.SameLeaders u.cfg :=
        Steps.sameLeaders (triggerTimeout_steps s Label.steady_wide rfl hu) (fun _ hl => hl)
      refine ih hu' ?_ (hI hs hroom' hu hi) h
      rw [hsame.skipped, hsame.leader, hsame.progressedIndex, hto]
      have hone : (s.cfg.toView + 1).toNat = s.cfg.toView.toNat + 1 := by
        rw [UInt64.toNat_add]
        change (_ + 1) % 2 ^ 64 = _
        omega
      omega
    · obtain rfl := Option.some.inj h
      exact ⟨hs, hi⟩

def skipped (s : Node) : Nat :=
  if s.caches.values.any (fun c => !c.shouldStopTimer s.cfg) then 0
  else s.cfg.skipped (2 * s.cfg.consensusNodeNum.toNat + 2) s.cfg.toView s.cfg.getLeader

theorem resetTimer_keeps {I : Node → Prop} (hI : ∀ {u v : Node}, u.Behind → u.cfg.toView.toNat + 1 < 2 ^ 64 →
      u.triggerTimeout E = some v → I u → I v) (hs : s.Behind) (hroom : s.cfg.toView.toNat + s.skipped < 2 ^ 64) (hi : I s)
    (h : s.resetTimer E = some t) : t.Behind ∧ I t := by
  unfold resetTimer at h
  unfold skipped at hroom
  split_ifs at h hroom
  · obtain rfl := Option.some.inj h
    exact ⟨hs, hi⟩
  · exact tryTriggerFastViewChange_keeps hI hs hroom hi h

theorem resetTimer_behind (hs : s.Behind) (hroom : s.cfg.toView.toNat + s.skipped < 2 ^ 64)
    (h : s.resetTimer E = some t) : t.Behind :=
  (resetTimer_keeps (I := fun _ => True) (fun _ _ _ _ => trivial) hs hroom trivial h).1

theorem checkAndCommitLoop_behind (hs : s.Behind) : s.checkAndCommitLoop.Behind := by
  unfold checkAndCommitLoop
  generalize s.caches.keys = keys
  induction keys generalizing s with
  | nil => exact hs
  | cons i keys ih =>
    refine ih ?_
    have hcommit : (s.commitAt i).1.Behind := by
      unfold Behind
      rw [commitAt_cfg]
      exact hs
    unfold checkAndCommitAt
    dsimp only
    split
    · exact hcommit
    · -- a commit takes the view aimed at back to the view
      exact le_refl _

theorem pred_of_lt {u v : ViewType} (h : u < v) : u ≤ v - 1 ∧ (v - 1).toNat + 1 < 2 ^ 64 := by
  have hlt := UInt64.lt_iff_toNat_lt.1 h
  have hone : (1 : ViewType) ≤ v := by
    rw [UInt64.le_iff_toNat_le]
    change 1 ≤ v.toNat
    omega
  have hpred : (v - 1).toNat = v.toNat - 1 := UInt64.toNat_sub_of_le v 1 hone
  have hbound := v.toNat_lt
  refine ⟨?_, by omega⟩
  rw [UInt64.le_iff_toNat_le]
  omega

theorem tryFastViewChange_behind {m : ViewChangeMsg} (hs : s.Behind) (h : s.tryFastViewChange E m = some t) : t.Behind := by
  rcases tryFastViewChange_cases s h with rfl | ⟨v, hv, h⟩
  · exact hs
  · obtain ⟨hle, hroom⟩ := pred_of_lt hv
    exact (triggerTimeout_toView (s := s.setCfg { s.cfg with toView := v - 1 }) (hs.trans hle) hroom h).2

theorem handleViewChangeMsg_behind {m : ViewChangeMsg} {ret : Bool} (hs : s.Behind)
    (h : s.handleViewChangeMsg E m = some (t, ret)) : t.Behind := by
  have hA : Wide (fun l => l.viewing = true) := fun _ hl => hl
  have hchecked : ∀ {u r}, s.isValidViewChangeMsg E m.fromNode m = some (u, r) → u.Behind := fun hu =>
    Steps.behind (isValidViewChangeMsg_steps s hA hu) (by simp [Label.viewing, Label.free]) hs
  rcases handleViewChangeMsg_cases s h with hu | ⟨u, v, hu, hv, ht⟩
  · exact hchecked hu
  · have hadd : (u.addViewChangeReq m).Behind := by
      unfold Behind
      rw [addViewChangeReq_cfg]
      exact hchecked hu
    exact (tryIntoNewView_views ht).2 (tryFastViewChange_behind hadd hv)

/-- Nothing is left to execute when the timer expires, so it starts a view change. -/
def fires (s : Node) : Bool :=
  s.cfg.isConsensusNode && !s.tryToApplyCommitQueue.2 &&
    s.tryToApplyCommitQueue.1.clearExpiredExecutingProposal.executingProposals.entries.isEmpty

theorem onTimeout_cases (h : s.onTimeout E = some t) : ∃ u, Steps E (fun l => l.free = true ∨ l = .expire) s u ∧
    (t = u ∨ s.fires = true ∧ u.triggerTimeout E = some t) := by
  have happly : Steps E (fun l => l.free = true ∨ l = .expire) s s.tryToApplyCommitQueue.1 :=
    tryToApplyCommitQueue_steps s (fun _ hl => Or.inl hl)
  unfold onTimeout at h
  split at h
  · obtain rfl := Option.some.inj h
    exact ⟨s, .refl s, Or.inl rfl⟩
  rename_i hnode
  dsimp only at h
  split at h
  · obtain rfl := Option.some.inj h
    exact ⟨_, happly, Or.inl rfl⟩
  rename_i hleft
  have hclear := happly.trans (.single (Or.inr rfl) (.expire _))
  split at h
  · obtain rfl := Option.some.inj h
    exact ⟨_, hclear, Or.inl rfl⟩
  · rename_i hexec
    refine ⟨_, hclear, Or.inr ⟨?_, h⟩⟩
    unfold fires
    simp only [Bool.and_eq_true, Bool.not_eq_true', List.isEmpty_iff]
    refine ⟨⟨by simpa using hnode, by simpa using hleft⟩, ?_⟩
    exact List.length_eq_zero_iff.1 (Nat.eq_zero_of_not_pos hexec)

theorem room_of_ne {v : ViewType} (h : v ≠ 18446744073709551615) : v.toNat + 1 < 2 ^ 64 := by
  have hmax : v.toNat ≠ 18446744073709551615 := fun heq => h (UInt64.toNat_inj.1 heq)
  have hbound := v.toNat_lt
  omega

theorem onTimeout_behind (hok : s.fires = true → s.cfg.toView ≠ 18446744073709551615) (hs : s.Behind)
    (h : s.onTimeout E = some t) : t.Behind := by
  obtain ⟨u, hsteps, hu⟩ := onTimeout_cases h
  have hviews := Steps.views_eq hsteps (by simp [Label.free]) (by simp [Label.free])
  have hbehind : u.Behind := by
    unfold Behind
    rw [hviews.1, hviews.2]
    exact hs
  rcases hu with rfl | ⟨hfires, h⟩
  · exact hbehind
  · exact (triggerTimeout_toView hbehind (hviews.2 ▸ room_of_ne (hok hfires)) h).2

def recordBlock (E : Env) (s : Node) (l : LedgerConfig) : Option Node :=
  (s.resetConfig E l).map fun s =>
    let s := s.tryToApplyCommitQueue.1
    (s.removeConsensusedCache s.cfg.view l.blockNumber).tryToCommitStableCheckPoint

theorem finalizeConsensus_recordBlock {l : LedgerConfig} {synced : Bool} (h : s.finalizeConsensus E l synced = some t) :
    ∃ u w, s.recordBlock E l = some u ∧ u.resetTimer E = some w ∧ t = if synced then w.removeFutureProposals E else w := by
  unfold finalizeConsensus at h
  obtain ⟨u, hu, h⟩ := Option.bind_eq_some_iff.1 h
  dsimp only at h
  obtain ⟨w, hw, h⟩ := Option.bind_eq_some_iff.1 h
  exact ⟨_, w, by rw [recordBlock, hu, Option.map_some], hw, (Option.some.inj h).symm⟩

theorem recordBlock_steps (s : Node) {A : Label → Prop} (hA : Open A) (hmode : A .mode) {l : LedgerConfig} (hl : A (.ledger l))
    (hn : A (.nodes l.consensusNodeList)) (he : A .erase) (hdrop : A .dropViewChanges) (hclear : A .clearTables)
    (hpop : A .popStable) (h : s.recordBlock E l = some t) : Steps E A s t := by
  unfold recordBlock at h
  obtain ⟨u, hu, rfl⟩ := Option.map_eq_some_iff.1 h
  exact ((resetConfig_steps s (hA _ rfl) hmode hl hn hu).trans (tryToApplyCommitQueue_steps u hA)).trans
    ((removeConsensusedCache_steps _ he hdrop hclear u.tryToApplyCommitQueue.1.cfg.view l.blockNumber).trans
      (tryToCommitStableCheckPoint_steps _ hA hpop))

theorem finalizeConsensus_behind {l : LedgerConfig} {synced : Bool}
    (hok : ∀ u, s.recordBlock E l = some u → u.cfg.toView.toNat + u.skipped < 2 ^ 64) (hs : s.Behind)
    (h : s.finalizeConsensus E l synced = some t) : t.Behind := by
  obtain ⟨u, w, hu, hw, rfl⟩ := finalizeConsensus_recordBlock h
  have hA : Open (fun l => l ≠ .aim) := by
    intro l hl
    cases l <;> first | exact Label.noConfusion | cases hl
  have hsteps := recordBlock_steps s (A := fun l => l ≠ .aim) hA Label.noConfusion Label.noConfusion Label.noConfusion
    Label.noConfusion Label.noConfusion Label.noConfusion Label.noConfusion hu
  have hreset : w.Behind := resetTimer_behind (Steps.behind hsteps (fun h => h rfl) hs) (hok u hu) hw
  split_ifs
  · exact Steps.behind (removeFutureProposals_steps w hA Label.noConfusion Label.noConfusion Label.noConfusion)
      (fun h => h rfl) hreset
  · exact hreset

end Node

/-- The state in which an event calls `resetTimer`. -/
def Event.resets (E : Env) (s : Node) : Event → Option Node
  | .worker =>
    match s.workerStage, s.msgQueue with
    | .admitted, .pbft m :: rest =>
      if m.packetType = .CommitPacket then
        some ({ s with msgQueue := rest, workerStage := .start }.addCommitReq m).checkAndCommitLoop
      else none
    | _, _ => none
  | .finalized l => s.recordBlock E l
  | .newBlock l =>
    if s.newBlocks.contains l then { s with newBlocks := s.newBlocks.erase l }.recordBlock E l else none
  | _ => none

/-- The condition under which the view aimed at does not wrap around: no timer starts a view change at the last of the
64-bit views, and fewer leaders are skipped in turn than views are left. -/
structure Event.Climbs (E : Env) (s : Node) (e : Event) : Prop where
  timer : e = .timeout → s.fires = true → s.cfg.toView ≠ 18446744073709551615
  search : ∀ u ∈ e.resets E s, u.cfg.toView.toNat + u.skipped < 2 ^ 64

instance (E : Env) (s : Node) (e : Event) : Decidable (e.Climbs E s) :=
  decidable_of_iff ((e = .timeout → s.fires = true → s.cfg.toView ≠ 18446744073709551615) ∧
    ∀ u ∈ e.resets E s, u.cfg.toView.toNat + u.skipped < 2 ^ 64) ⟨fun h => ⟨h.1, h.2⟩, fun h => ⟨h.timer, h.search⟩⟩

theorem handleAdmitted_behind {E : Env} {s t : Node} (hok : Event.worker.Climbs E s) (hs : s.Behind)
    (h : s.handleAdmitted E = some t) : t.Behind := by
  rcases s.handleAdmitted_cases h with rfl | ⟨hstage, msg, rest, hq, h⟩
  · exact hs
  have hu : ({ s with msgQueue := rest, workerStage := .start } : Node).Behind := hs
  by_cases haim : msg.aims = true
  · cases msg with
    | pbft m =>
      have htype : m.packetType = .CommitPacket := by simpa [Message.aims] using haim
      have hreset : Event.worker.resets E s =
          some ({ s with msgQueue := rest, workerStage := .start }.addCommitReq m).checkAndCommitLoop := by
        simp only [Event.resets, hstage, hq, if_pos htype]
      have hroom := hok.search _ hreset
      generalize ({ s with msgQueue := rest, workerStage := .start } : Node) = u at hu hroom h
      simp only [Node.handleMsg, htype] at h
      obtain ⟨⟨v, ret⟩, hv, rfl⟩ := Option.map_eq_some_iff.1 h
      unfold Node.handleCommitMsg at hv
      split_ifs at hv
      · obtain ⟨rfl, -⟩ := Prod.mk.inj (Option.some.inj hv)
        exact hu
      · obtain ⟨w, hw, hv⟩ := Option.bind_eq_some_iff.1 hv
        obtain ⟨rfl, -⟩ := Prod.mk.inj (Option.some.inj hv)
        exact Node.resetTimer_behind (Node.checkAndCommitLoop_behind (s := u.addCommitReq m) hu) hroom hw
    | viewChange m =>
      simp only [Node.handleMsg] at h
      split_ifs at h
      · obtain ⟨⟨v, ret⟩, hv, rfl⟩ := Option.map_eq_some_iff.1 h
        exact Node.handleViewChangeMsg_behind hu hv
      · obtain rfl := Option.some.inj h
        exact hu
    | newView m => cases haim
    | request m => cases haim
  · exact Steps.behind (Node.handleMsg_steps _ h) haim hu

theorem step_behind {E : Env} {s t : Node} {e : Event} (hok : e.Climbs E s) (h : step E s e = some t) (hs : s.Behind) :
    t.Behind := by
  by_cases haim : e.aims s
  · rcases haim with ⟨msg, ⟨rfl, -⟩, -⟩ | rfl | ⟨l, rfl | rfl⟩
    · exact handleAdmitted_behind hok hs h
    · exact Node.onTimeout_behind (hok.timer rfl) hs h
    · exact Node.finalizeConsensus_behind hok.search hs h
    · rcases s.finalizeNewBlock_cases h with rfl | ⟨hnew, h⟩
      · exact hs
      · have hready : ({ s with newBlocks := s.newBlocks.erase l } : Node).Behind := hs
        refine Node.finalizeConsensus_behind (fun u hu => hok.search u ?_) hready h
        simp only [Event.resets, List.contains_iff_mem, if_pos hnew]
        exact hu
  · exact Steps.behind (step_steps h) haim hs

theorem initNode_behind {E : Env} {keyPair : KeyPair} {l : LedgerConfig} {state : List PBFTProposal} {s₀ : Node}
    (hinit : initNode E keyPair l state = some s₀) : s₀.Behind := by
  obtain ⟨s, hsteps, hs⟩ := initNode_steps (A := fun label => label ≠ .aim) Label.noConfusion Label.noConfusion
    Label.noConfusion Label.noConfusion (fun _ _ => Label.noConfusion) hinit
  have hbehind : s.Behind := Steps.behind hsteps (fun h => h rfl) (le_refl (0 : ViewType))
  rcases hs with rfl | ⟨last, -, rfl⟩
  · exact hbehind
  · exact hbehind

theorem step_view_le {E : Env} {s t : Node} {e : Event} (h : step E s e = some t) : s.cfg.view ≤ t.cfg.view :=
  (step_steps h).preserves (I := fun u => s.cfg.view ≤ u.cfg.view) (fun _ _ _ _ hp hu => hu.trans hp.cfgStep.view_le)
    (le_refl _)

/-- The view never decreases, and it stays at most the view aimed at, in runs in which that view does not wrap around. -/
theorem view_le_toView {E : Env} {keyPair : KeyPair} {l : LedgerConfig} {state : List PBFTProposal} {s₀ s : Node}
    {trace : List (Node × Event)} (hinit : initNode E keyPair l state = some s₀) (hrun : Trail (step E) s₀ trace s)
    (hok : ∀ x ∈ trace, x.2.Climbs E x.1) :
    s.cfg.view ≤ s.cfg.toView ∧ ∀ x ∈ trace, x.1.cfg.view ≤ s.cfg.view := by
  refine ⟨hrun.preserves (I := Node.Behind) (fun _ _ _ hok hstep hs => step_behind hok hstep hs) hok (initNode_behind hinit), ?_⟩
  clear hok
  induction hrun with
  | nil => exact fun _ hx => by cases hx
  | snoc _ hstep ih =>
    intro x hx
    have hle := step_view_le hstep
    rcases List.mem_append.1 hx with hx | hx
    · exact (ih x hx).trans hle
    · obtain rfl := List.mem_singleton.1 hx
      exact hle

def toySignedChange (sender : UInt8) : ViewChangeMsg :=
  let m : ViewChangeMsg := { base := { view := 1, generatedFrom := sender.toNat.toUInt64 }
                             committedProposal := { proposal := { hash := zeroHash.val } } }
  match (PBFTCodec.encode Toy.env (Toy.keyPair sender) 0 (.viewChange m)).2.1 with
  | .viewChange m => m
  | _ => m

def negateView (m : RawNewViewMessage) : RawNewViewMessage :=
  { m with message := { m.message with view := 0 - m.message.view } }

theorem negateView_negateView (m : RawNewViewMessage) : negateView (negateView m) = m := by
  cases m
  simp [negateView]

/-- The environment in which the view of a new view is written as its distance to `2 ^ 64`. -/
def toyDistant : Env :=
  { Toy.env with pb := { Toy.protobuf with
      rawNewView := Toy.object (Toy.rawNewView.map negateView negateView negateView_negateView) } }

def toyEntered (E : Env) (leader : UInt8) (view : ViewType) : List Event :=
  let m : NewViewMsg := { base := { view := view, generatedFrom := leader.toNat.toUInt64 }
                          viewChangeMsgList := [toySignedChange 0, toySignedChange 1, toySignedChange 2] }
  Toy.atOnce [.receive [leader] (PBFTCodec.encode E (Toy.keyPair leader) 0 (.newView m)).1 [], .worker, .timeout]

theorem toyEntered_view : ∃ trace s, Trail.states (step Toy.env) (Toy.node 3 [1, 1, 1, 1])
    (toyEntered Toy.env 2 1) = some (trace, s) ∧
    s.cfg.view = 1 ∧ s.cfg.toView = 2 ∧ s.cfg.view ≤ s.cfg.toView ∧ ∀ x ∈ trace, x.1.cfg.view ≤ s.cfg.view := by
  have hinit : initNode Toy.env (Toy.keyPair 3)
      { blockNumber := 0, hash := zeroHash, consensusNodeList := Toy.nodes [1, 1, 1, 1] } [] =
        some (Toy.node 3 [1, 1, 1, 1]) := by
    decide +kernel
  have hrun : ((Trail.states (step Toy.env) (Toy.node 3 [1, 1, 1, 1]) (toyEntered Toy.env 2 1)).elim false fun r =>
      (decide (r.2.cfg.view = 1) && decide (r.2.cfg.toView = 2)) && r.1.all fun x => decide (x.2.Climbs Toy.env x.1)) =
        true := by
    decide +kernel
  obtain ⟨⟨trace, s⟩, hs, hcheck⟩ := Toy.exists_of_elim hrun
  simp only [Bool.and_eq_true, decide_eq_true_eq, List.all_eq_true] at hcheck
  obtain ⟨⟨hview, hto⟩, hok⟩ := hcheck
  exact ⟨trace, s, hs, hview, hto, view_le_toView hinit (.of_states hs) hok⟩

/-- One faulty leader takes node 3 into the last view, and the next timeout aims at view 0. -/
theorem toyEntered_wrapped : initNode toyDistant (Toy.keyPair 3)
      { blockNumber := 0, hash := zeroHash, consensusNodeList := Toy.nodes [1, 1, 1, 1] } [] = some (Toy.node 3 [1, 1, 1, 1]) ∧
    ∃ trace s, Trail.states (step toyDistant) (Toy.node 3 [1, 1, 1, 1])
      (toyEntered toyDistant 0 18446744073709551615) = some (trace, s) ∧
    s.cfg.toView = 0 ∧ ¬s.cfg.view ≤ s.cfg.toView := by
  have hrun : ((Trail.states (step toyDistant) (Toy.node 3 [1, 1, 1, 1])
      (toyEntered toyDistant 0 18446744073709551615)).elim false fun r =>
        decide (r.2.cfg.toView = 0) && decide (¬r.2.cfg.view ≤ r.2.cfg.toView)) = true := by
    decide +kernel
  obtain ⟨⟨trace, s⟩, hs, hcheck⟩ := Toy.exists_of_elim hrun
  simp only [Bool.and_eq_true, decide_eq_true_eq] at hcheck
  exact ⟨by decide +kernel, trace, s, hs, hcheck.1, hcheck.2⟩

end BcosPbft
