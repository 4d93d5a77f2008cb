import BcosPbft.Proofs.PrePrepareList
import BcosPbft.Proofs.ViewOrder

/-! The new views that one node sends. A new view is made of the stored view changes of the view aimed at; entering that
view drops them, so a second new view for it needs view changes that are collected after it was entered. -/

namespace BcosPbft

def Action.newView : Action → Option ViewType
  | .send _ (.newView m) _ => some m.view
  | _ => none

def Node.newViews (s : Node) : List ViewType := s.log.filterMap Action.newView

/-- The new views sent so far are those of entered views, and no view change is stored that could repeat one. -/
structure Once (s : Node) : Prop where
  nodup : s.newViews.Nodup
  entered : ∀ v ∈ s.newViews, v ≤ s.cfg.view
  stored : ∀ v l, s.viewChangeCache.find? v = some l → s.cfg.view ≤ v ∧ (v = s.cfg.view → v ∉ s.newViews)
  weighed : ∀ v w, s.viewChangeWeight.find? v = some w → ∃ l, s.viewChangeCache.find? v = some l

def Message.newViews : Message → List ViewType
  | .newView m => [m.view]
  | _ => []

theorem newViews_sendActions (E : Env) (keyPair : KeyPair) (dst : Option NodeID) (msg : Message) :
    (sendActions E keyPair dst msg).filterMap Action.newView = msg.newViews := by
  cases msg with
  | pbft m => rfl
  | viewChange m =>
    simp only [sendActions, PBFTCodec.encode]
    split <;> rfl
  | newView m =>
    simp only [sendActions, PBFTCodec.encode]
    split <;> rfl
  | request m => rfl

theorem Emits.no_newView {E : Env} {s : Node} {l : Label} {a : Action} (h : Emits E s l a) (hl : ∀ m, l ≠ .newView m) :
    a.newView = none := by
  have hsend : ∀ {dst : Option NodeID} {msg : Message}, (∀ m, msg ≠ .newView m) →
      a ∈ sendActions E s.cfg.keyPair dst msg → a.newView = none := by
    intro dst msg hmsg hmem
    have hnone : (sendActions E s.cfg.keyPair dst msg).filterMap Action.newView = [] := by
      rw [newViews_sendActions]
      cases msg with
      | newView m => exact absurd rfl (hmsg m)
      | _ => rfl
    exact List.filterMap_eq_nil_iff.1 hnone a hmem
  cases h with
  | neutral _ hn =>
    cases a with
    | send dst packet data => cases packet <;> first | rfl | cases hn
    | _ => rfl
  | preCommit hc hm hp henough ha =>
    rcases List.mem_cons.1 ha with rfl | ha
    · rfl
    rcases List.mem_cons.1 ha with rfl | ha
    · rfl
    exact hsend (fun _ => Message.noConfusion) ha
  | vote ha =>
    rcases List.mem_cons.1 ha with rfl | ha
    · rfl
    exact hsend (fun _ => Message.noConfusion) ha
  | announce h hs ha =>
    rcases List.mem_cons.1 ha with rfl | ha
    · rfl
    rcases List.mem_cons.1 ha with rfl | ha
    · rfl
    exact hsend (fun _ => Message.noConfusion) ha
  | resend hc hp ha =>
    rcases List.mem_cons.1 ha with rfl | ha
    · rfl
    exact hsend (fun _ => Message.noConfusion) ha
  | sendViewChange ha => exact hsend (fun _ => Message.noConfusion) ha
  | newView h ha => exact absurd rfl (hl _)
  | _ => rfl

theorem newViews_append {s t : Node} {k : List Action} (hk : t.log = s.log ++ k) (hnone : ∀ a ∈ k, a.newView = none) :
    t.newViews = s.newViews := by
  unfold Node.newViews
  rw [hk, List.filterMap_append, List.append_right_eq_self, List.filterMap_eq_nil_iff]
  exact hnone

def Label.calm : Label → Bool
  | .view | .newView _ | .viewChange _ _ => false
  | _ => true

structure Calm (s t : Node) : Prop where
  view : t.cfg.view = s.cfg.view
  newViews : t.newViews = s.newViews
  stored : ∀ v l, t.viewChangeCache.find? v = some l → ∃ l', s.viewChangeCache.find? v = some l'
  weighed : (∀ v w, s.viewChangeWeight.find? v = some w → ∃ l, s.viewChangeCache.find? v = some l) →
    ∀ v w, t.viewChangeWeight.find? v = some w → ∃ l, t.viewChangeCache.find? v = some l

namespace Calm

variable {s t u : Node}

theorem refl (s : Node) : Calm s s := ⟨rfl, rfl, fun _ l h => ⟨l, h⟩, fun h => h⟩

theorem same (hview : t.cfg.view = s.cfg.view) (hlog : t.newViews = s.newViews) (hcache : t.viewChangeCache = s.viewChangeCache)
    (hweight : t.viewChangeWeight = s.viewChangeWeight) : Calm s t := by
  refine ⟨hview, hlog, ?_, ?_⟩
  · rw [hcache]
    exact fun _ l h => ⟨l, h⟩
  · rw [hcache, hweight]
    exact fun h => h

theorem trans (h : Calm s t) (h' : Calm t u) : Calm s u where
  view := h'.view.trans h.view
  newViews := h'.newViews.trans h.newViews
  stored := fun v l hl => by
    obtain ⟨l', hl'⟩ := h'.stored v l hl
    exact h.stored v l' hl'
  weighed := fun hs => h'.weighed (h.weighed hs)

end Calm

theorem Once.calm {s t : Node} (h : Calm s t) (hs : Once s) : Once t where
  nodup := h.newViews ▸ hs.nodup
  entered := by
    rw [h.newViews, h.view]
    exact hs.entered
  stored := fun v l hl => by
    obtain ⟨l', hl'⟩ := h.stored v l hl
    rw [h.view, h.newViews]
    exact hs.stored v l' hl'
  weighed := h.weighed hs.weighed

theorem find?_removeInvalidViewChange {s : Node} {view : ViewType} {latest : Int} {v : ViewType}
    {l : OrdMap IndexType ViewChangeMsg}
    (h : (s.removeInvalidViewChange view latest).viewChangeCache.find? v = some l) :
    view < v ∧ ∃ l', s.viewChangeCache.find? v = some l' := by
  change ((s.viewChangeCache.filter _).mapVal _).find? v = some l at h
  rw [OrdMap.find?_mapVal, OrdMap.find?_filter] at h
  obtain ⟨l', hl', -⟩ := Option.map_eq_some_iff.1 h
  obtain ⟨hl', hview⟩ := Option.filter_eq_some_iff.1 hl'
  exact ⟨by simpa using hview, l', hl'⟩

theorem weighed_removeInvalidViewChange {s : Node} (view : ViewType) (latest : Int)
    (hs : ∀ v w, s.viewChangeWeight.find? v = some w → ∃ l, s.viewChangeCache.find? v = some l) (v : ViewType) (w : UInt64)
    (h : (s.removeInvalidViewChange view latest).viewChangeWeight.find? v = some w) :
    ∃ l, (s.removeInvalidViewChange view latest).viewChangeCache.find? v = some l := by
  have hfold := s.find?_removeInvalidViewChange_weight view latest v
  cases hl : (s.removeInvalidViewChange view latest).viewChangeCache.find? v with
  | some l => exact ⟨l, rfl⟩
  | none =>
    exfalso
    rw [hfold, hl, Option.elim_none, OrdMap.find?_filter] at h
    obtain ⟨hw, hkept⟩ := Option.filter_eq_some_iff.1 h
    obtain ⟨l, hstored⟩ := hs v w hw
    change ((s.viewChangeCache.filter _).mapVal _).find? v = none at hl
    rw [OrdMap.find?_mapVal, Option.map_eq_none_iff, OrdMap.find?_filter, hstored, Option.filter_eq_none_iff] at hl
    have hle : v ≤ view := by simpa using hl l rfl
    simp [hle, OrdMap.contains, hstored] at hkept

theorem Prim.calm {E : Env} {l : Label} {s t : Node} (h : Prim E l s t) (hl : l.calm = true) : Calm s t := by
  have hview : t.cfg.view = s.cfg.view := h.cfgStep.view_eq fun heq => by
    rw [heq] at hl
    cases hl
  have hlog : t.newViews = s.newViews := by
    obtain ⟨k, hk, hemits⟩ := h.log
    refine newViews_append hk fun a ha => (hemits a ha).no_newView fun m heq => ?_
    rw [heq] at hl
    cases hl
  by_cases htabling : l.tabling = false
  · obtain ⟨hcache, hweight, -⟩ := h.tables_same htabling
    exact .same hview hlog hcache hweight
  · cases h with
    | viewChange => cases hl
    | dropViewChanges _ view i =>
      exact ⟨hview, hlog, fun v l hl => (find?_removeInvalidViewChange hl).2, weighed_removeInvalidViewChange view i⟩
    | clearTables => exact .same hview hlog rfl rfl
    | _ => exact absurd rfl htabling

theorem Steps.calm {E : Env} {A : Label → Prop} {s t : Node} (h : Steps E A s t) (hA : ∀ l, A l → l.calm = true) : Calm s t :=
  h.preserves (I := Calm s) (fun _ _ _ hl hp hu => hu.trans (hp.calm (hA _ hl))) (.refl s)

theorem CfgStep.timeoutState_eq {E : Env} {l : Label} {c c' : Config} (h : CfgStep E l c c') (hmode : l ≠ .mode)
    (haim : l ≠ .aim) (hview : l ≠ .view) : c'.timeoutState = c.timeoutState := by
  cases h with
  | same _ h => exact h.timeoutState
  | mode => exact absurd rfl hmode
  | aim => exact absurd rfl haim
  | view _ hv => exact absurd rfl hview
  | expect _ i => rfl
  | lowMark _ h => rfl
  | ledger _ h => rfl
  | reseal => rfl
  | nodes h =>
    obtain ⟨_, _, _, _, _, _, _, rfl⟩ := Config.setConsensusNodeList_frame h
    rfl

def Label.still : Label → Bool
  | .mode | .aim => false
  | l => l.calm

theorem Label.still_open : Open (fun l => l.still = true) := by
  intro l hl
  cases l <;> first | rfl | cases hl

theorem Label.still_calm {l : Label} (hl : l.still = true) : l.calm = true := by
  cases l <;> first | rfl | cases hl

structure Still (s t : Node) : Prop where
  calm : Calm s t
  toView : t.cfg.toView = s.cfg.toView
  timeoutState : t.cfg.timeoutState = s.cfg.timeoutState

theorem Still.refl (s : Node) : Still s s := ⟨.refl s, rfl, rfl⟩

theorem Steps.still {E : Env} {A : Label → Prop} {s t : Node} (h : Steps E A s t)
    (hA : ∀ l, A l → l.still = true) : Still s t := by
  refine h.preserves (I := Still s) (fun l u v hl hp hu => ?_) (.refl s)
  have hstill := hA l hl
  have hne : l ≠ .mode ∧ l ≠ .aim ∧ l ≠ .view := by
    refine ⟨?_, ?_, ?_⟩ <;> rintro rfl <;> cases hstill
  exact ⟨hu.calm.trans (hp.calm (Label.still_calm hstill)), (hp.cfgStep.toView_eq hne.2.2 hne.2.1).trans hu.toView,
    (hp.cfgStep.timeoutState_eq hne.1 hne.2.1 hne.2.2).trans hu.timeoutState⟩

theorem Quiet.still (E : Env) {s t : Node} (h : Quiet s t) : Still s t :=
  Steps.still (E := E) (h.steps Label.still_open) (fun _ hl => hl)

theorem Node.newViews_addViewChangeReq (s : Node) (m : ViewChangeMsg) : (s.addViewChangeReq m).newViews = s.newViews := by
  unfold addViewChangeReq
  split
  · rfl
  · split <;> rfl

/-- A view change may be stored, if it is not for a view that the node has sent a new view for. -/
theorem Once.addViewChangeReq {s : Node} {m : ViewChangeMsg} (hview : s.cfg.view ≤ m.view)
    (hnew : m.view = s.cfg.view → s.cfg.view ∉ s.newViews) (hs : Once s) : Once (s.addViewChangeReq m) := by
  have hcfg := s.addViewChangeReq_cfg m
  have hlog := s.newViews_addViewChangeReq m
  refine ⟨hlog ▸ hs.nodup, ?_, ?_, ?_⟩
  · rw [hlog, hcfg]
    exact hs.entered
  · rw [hlog, hcfg]
    intro v l hl
    unfold Node.addViewChangeReq at hl
    split at hl
    · exact hs.stored v l hl
    split at hl
    · exact hs.stored v l hl
    · change (s.viewChangeCache.insert m.view _).find? v = some l at hl
      rw [OrdMap.find?_insert] at hl
      split_ifs at hl with hv
      · subst hv
        exact ⟨hview, fun heq => heq ▸ hnew heq⟩
      · exact hs.stored v l hl
  · intro v w hw
    unfold Node.addViewChangeReq at hw ⊢
    split
    · rename_i hold
      rw [if_pos hold] at hw
      exact hs.weighed v w hw
    rename_i hold
    rw [if_neg hold] at hw
    split
    · rename_i hnode
      rw [hnode] at hw
      exact hs.weighed v w hw
    · rename_i node hnode
      rw [hnode] at hw
      change (s.viewChangeWeight.insert m.view _).find? v = some w at hw
      change ∃ l, (s.viewChangeCache.insert m.view _).find? v = some l
      rw [OrdMap.find?_insert] at hw ⊢
      split_ifs at hw ⊢
      · exact ⟨_, rfl⟩
      · exact hs.weighed v w hw

theorem resetCacheAfterViewChange_still (E : Env) (s : Node) (v : ViewType) (i : Int) :
    Still s (s.resetCacheAfterViewChange v i) := by
  let A : Label → Prop := fun l => l.still = true
  have hreset : A .reset := rfl
  have hfold : Steps E A s (s.caches.keys.foldl (Node.resetCacheAt v) s) :=
    .foldl (fun s j => .single hreset (.reset s v j)) _ s
  exact Steps.still (hfold.trans (Node.dropViewChanges_steps _ Label.still_open rfl rfl v i)) (fun _ hl => hl)

theorem Once.enter (E : Env) {s : Node} {v : ViewType} {i : Int} (hnodup : s.newViews.Nodup)
    (hentered : ∀ w ∈ s.newViews, w ≤ s.cfg.view)
    (hweighed : ∀ v w, s.viewChangeWeight.find? v = some w → ∃ l, s.viewChangeCache.find? v = some l) (hv : s.cfg.view ≤ v) :
    Once (s.resetCacheAfterViewChange v i) := by
  have hcalm := (resetCacheAfterViewChange_still E s v i).calm
  refine ⟨hcalm.newViews ▸ hnodup, ?_, fun w l hl => ?_, hcalm.weighed hweighed⟩
  · rw [hcalm.newViews, hcalm.view]
    exact hentered
  · have habove : v < w := by
      unfold Node.resetCacheAfterViewChange at hl
      exact (find?_removeInvalidViewChange hl).1
    rw [hcalm.view]
    have hlt := lt_of_le_of_lt hv habove
    exact ⟨hlt.le, fun heq => absurd heq hlt.ne'⟩

namespace Node

variable {E : Env} {s t : Node}

theorem reachNewView_once (E : Env) {v : ViewType} (hnodup : s.newViews.Nodup) (hentered : ∀ w ∈ s.newViews, w ≤ v)
    (hweighed : ∀ v w, s.viewChangeWeight.find? v = some w → ∃ l, s.viewChangeCache.find? v = some l)
    (hv : s.cfg.view ≤ v) : Once (s.reachNewView v) := by
  obtain ⟨hview, -⟩ := Config.resetNewViewState_views hv
  refine Once.enter E (s := s.setCfg (s.cfg.resetNewViewState v)) hnodup ?_ hweighed (le_refl _)
  intro w hw
  change w ≤ (s.cfg.resetNewViewState v).view
  rw [hview]
  exact hentered w hw

theorem reachNewView_calm (E : Env) {v : ViewType} (hv : v < s.cfg.view) : Calm s (s.reachNewView v) := by
  have hsame : s.cfg.resetNewViewState v = s.cfg := by
    unfold Config.resetNewViewState
    rw [if_pos hv]
  unfold reachNewView
  rw [hsame]
  exact (resetCacheAfterViewChange_still E s _ _).calm

theorem reHandlePrePrepareProposals_still {m : NewViewMsg} (h : s.reHandlePrePrepareProposals E m = some t) :
    Still (s.reachNewView m.view) t :=
  Steps.still (reHandlePrePrepareProposals_tail_steps s Label.still_open (fun _ _ _ => rfl) (fun _ _ => rfl) rfl
    (fun (hown : false = true) => Bool.noConfusion hown) h) (fun _ hl => hl)

theorem reHandlePrePrepareProposals_timeoutState {m : NewViewMsg} (hm : s.cfg.view ≤ m.view)
    (h : s.reHandlePrePrepareProposals E m = some t) : t.cfg.timeoutState = false := by
  rw [(reHandlePrePrepareProposals_still h).timeoutState, reachNewView_cfg, Config.resetNewViewState, if_neg (not_lt.2 hm)]

end Node

/-- The node may send a view change of its own: it aims above its view, or has sent no new view for it. -/
def Node.MaySend (s : Node) : Prop := s.cfg.view < s.cfg.toView ∨ s.cfg.view ∉ s.newViews

structure Renewing (s : Node) : Prop where
  behind : s.Behind
  once : Once s
  waits : s.cfg.timeoutState = true → s.MaySend

theorem Once.still {s t : Node} (h : Still s t) (hs : Once s) : Once t := hs.calm h.calm

theorem Renewing.still {s t : Node} (h : Still s t) (hs : Renewing s) : Renewing t := by
  refine ⟨?_, hs.once.still h, fun hwait => ?_⟩
  · unfold Node.Behind
    rw [h.calm.view, h.toView]
    exact hs.behind
  · unfold Node.MaySend
    rw [h.calm.view, h.toView, h.calm.newViews]
    exact hs.waits (h.timeoutState ▸ hwait)

namespace Node

variable {E : Env} {s t : Node}

/-- A new view is for a view that none was sent for, and the node enters it. -/
theorem tryIntoNewView_once (hb : s.Behind) (hs : Once s) (h : s.tryIntoNewView E = some t) :
    Once t ∧ (t = s ∨ t.cfg.timeoutState = false ∧ t.cfg.view = s.cfg.toView) := by
  rcases tryIntoNewView_cases s h with rfl | ⟨u, m, hu, h⟩
  · exact ⟨hs, Or.inl rfl⟩
  · obtain ⟨w, list, hw, -, -, hm, hu⟩ := s.checkAndTryIntoNewView_some hu
    have hmv : m.view = s.cfg.toView := by
      rw [hm]
      rfl
    have hnew : s.cfg.toView ∉ s.newViews := by
      obtain ⟨l, hl⟩ := hs.weighed _ w hw
      obtain ⟨-, hfresh⟩ := hs.stored _ l hl
      intro hmem
      exact hfresh (le_antisymm (hs.entered _ hmem) hb) hmem
    have hviews : u.newViews = s.newViews ++ [m.view] := by
      rw [hu]
      unfold newViews emit
      rw [List.filterMap_append, newViews_sendActions]
      rfl
    have hcfg : u.cfg = s.cfg := by
      rw [hu]
      rfl
    have hle : u.cfg.view ≤ m.view := by
      rw [hcfg, hmv]
      exact hb
    have hreach : Once (u.reachNewView m.view) := by
      refine reachNewView_once E ?_ ?_ ?_ hle
      · rw [hviews, List.nodup_append]
        refine ⟨hs.nodup, List.nodup_singleton _, fun a ha b hb' heq => hnew ?_⟩
        obtain rfl := List.mem_singleton.1 hb'
        rw [← hmv, ← heq]
        exact ha
      · rw [hviews]
        intro v hv
        rcases List.mem_append.1 hv with hv | hv
        · exact (hs.entered v hv).trans (hmv ▸ hb)
        · exact le_of_eq (List.mem_singleton.1 hv)
      · rw [hu]
        exact hs.weighed
    refine ⟨hreach.still (reHandlePrePrepareProposals_still h), Or.inr ⟨reHandlePrePrepareProposals_timeoutState hle h, ?_⟩⟩
    rw [(reHandlePrePrepareProposals_views hle h).1, hmv]

theorem sendViewChangeTo_renewing {dst : Option NodeID} (hb : s.Behind) (hs : Once s) (hsend : s.MaySend)
    (h : s.sendViewChangeTo E dst = some t) :
    Renewing t ∧ (t.cfg.view = s.cfg.view ∧ t.newViews = s.newViews ∨ t.cfg.view = s.cfg.toView) := by
  have hbehind := (sendViewChangeTo_views h).2 hb
  obtain ⟨m, -, hmv, -, h⟩ := sendViewChangeTo_cases s h
  have hemit : Calm s (s.emit (sendActions E s.cfg.keyPair dst (.viewChange s.generateViewChange))) := by
    refine .same rfl (newViews_append (k := sendActions E s.cfg.keyPair dst (.viewChange s.generateViewChange)) rfl ?_) rfl rfl
    exact List.filterMap_eq_nil_iff.1 (newViews_sendActions E s.cfg.keyPair dst (.viewChange s.generateViewChange))
  have hcfg : (s.emit (sendActions E s.cfg.keyPair dst (.viewChange s.generateViewChange))).cfg = s.cfg := rfl
  generalize s.emit (sendActions E s.cfg.keyPair dst (.viewChange s.generateViewChange)) = u at hemit hcfg h
  have hadd : Once (u.addViewChangeReq m) := by
    refine (hs.calm hemit).addViewChangeReq ?_ fun heq => ?_
    · rw [hcfg, hmv]
      exact hb
    · rw [hcfg, hemit.newViews]
      rw [hcfg, hmv] at heq
      exact hsend.resolve_left (fun hlt => absurd heq hlt.ne')
  have hadd' : (u.addViewChangeReq m).Behind := by
    unfold Behind
    rw [addViewChangeReq_cfg, hcfg]
    exact hb
  obtain ⟨honce, rfl | ⟨hstate, hentered⟩⟩ := tryIntoNewView_once hadd' hadd h
  · refine ⟨⟨hbehind, honce, fun _ => ?_⟩, Or.inl ?_⟩
    · unfold MaySend
      rw [addViewChangeReq_cfg, newViews_addViewChangeReq, hcfg, hemit.newViews]
      exact hsend
    · rw [addViewChangeReq_cfg, newViews_addViewChangeReq, hcfg, hemit.newViews]
      exact ⟨rfl, rfl⟩
  · rw [addViewChangeReq_cfg, hcfg] at hentered
    exact ⟨⟨hbehind, honce, fun hwait => by rw [hstate] at hwait; cases hwait⟩, Or.inr hentered⟩

theorem triggerTimeout_renewing (hb : s.Behind) (hs : Once s) (hroom : s.cfg.toView.toNat + 1 < 2 ^ 64)
    (h : s.triggerTimeout E = some t) : Renewing t := by
  unfold triggerTimeout at h
  dsimp only at h
  have habove : s.cfg.view < s.cfg.toView + 1 := by
    have hle := UInt64.le_iff_toNat_le.1 hb
    rw [UInt64.lt_iff_toNat_lt, UInt64.toNat_add]
    change _ < (_ + 1) % 2 ^ 64
    omega
  let A : Label → Prop := fun l => l.calm = true
  have hquiet : A .quiet := rfl
  have haim : A .aim := rfl
  have hdrop : A .dropViewChanges := rfl
  have hcalm : Calm s (((s.setCfg s.cfg.resetTimeoutState).removeInvalidViewChange s.cfg.view
      s.cfg.committedIndex).notifyCommittedProposalIndex s.cfg.committedIndex) := by
    refine Steps.calm (E := E) (A := A) ?_ (fun _ hl => hl)
    refine .trans (.single (t := s.setCfg s.cfg.resetTimeoutState) haim (.aim s _ _)) ?_
    exact .trans (.single hdrop (.dropViewChanges _ _ _)) ((notifyCommittedProposalIndex_quiet _ _).steps_of hquiet)
  refine (sendViewChangeTo_renewing ?_ (hs.calm hcalm) (Or.inl habove) h).1
  exact habove.le

theorem resetTimer_once (hb : s.Behind) (hs : Once s) (hroom : s.cfg.toView.toNat + s.skipped < 2 ^ 64)
    (h : s.resetTimer E = some t) : Once t :=
  (resetTimer_keeps (fun hb' hroom' h' hs' => (triggerTimeout_renewing hb' hs' hroom' h').once) hb hroom hs h).2

/-- `isValidViewChangeMsg` answers this view change, if the node is in the timeout state with one of its own. -/
def Outdated (s : Node) (m : ViewChangeMsg) : Prop := m.view < s.cfg.view ∨ m.view + 1 < s.cfg.toView

instance (s : Node) (m : ViewChangeMsg) : Decidable (s.Outdated m) := inferInstanceAs (Decidable (_ ∨ _))

structure Checked (s : Node) (m : ViewChangeMsg) (t : Node) : Prop where
  same : ¬s.Outdated m → t = s
  renewing : s.Outdated m → Renewing t
  views : t.cfg.view = s.cfg.view ∧ t.newViews = s.newViews ∨ s.Outdated m ∧ t.cfg.view = s.cfg.toView

theorem Checked.refl {m : ViewChangeMsg} (hb : s.Behind) (hs : Once s)
    (hsend : s.cfg.timeoutState = true → s.Outdated m → s.MaySend) : s.Checked m s :=
  ⟨fun _ => rfl, fun hold => ⟨hb, hs, fun hwait => hsend hwait hold⟩, Or.inl ⟨rfl, rfl⟩⟩

theorem Checked.once {m : ViewChangeMsg} (h : s.Checked m t) (hb : s.Behind) (hs : Once s) : t.Behind ∧ Once t := by
  by_cases hold : s.Outdated m
  · exact ⟨(h.renewing hold).behind, (h.renewing hold).once⟩
  · rw [h.same hold]
    exact ⟨hb, hs⟩

theorem answerViewChange_checked {fromNode : Option NodeID} {m : ViewChangeMsg} (hb : s.Behind) (hs : Once s)
    (hsend : s.cfg.timeoutState = true → s.Outdated m → s.MaySend) (h : s.answerViewChange E fromNode m = some t) :
    s.Checked m t := by
  have hrefl : s.Checked m s := .refl hb hs hsend
  rcases answerViewChange_cases s h with rfl | ⟨hold, dst, -, ⟨hwait, h⟩ | ⟨-, rfl⟩⟩
  · exact hrefl
  · obtain ⟨hrenewing, hviews⟩ := sendViewChangeTo_renewing hb hs (hsend hwait hold) h
    exact ⟨fun hnot => absurd hold hnot, fun _ => hrenewing, hviews.imp_right (fun hentered => ⟨hold, hentered⟩)⟩
  · have hstill := Quiet.still E (sendRecoverResponse_quiet (E := E) s dst)
    exact ⟨fun hnot => absurd hold hnot, fun _ => (hrefl.renewing hold).still hstill,
      Or.inl ⟨hstill.calm.view, hstill.calm.newViews⟩⟩

/-- A view change that is valid is not for a view before that of the node. -/
theorem isValidViewChangeMsg_checked {fromNode : Option NodeID} {m : ViewChangeMsg} {sig ret : Bool} (hb : s.Behind)
    (hs : Once s) (hsend : s.cfg.timeoutState = true → s.Outdated m → s.MaySend)
    (h : s.isValidViewChangeMsg E fromNode m sig = some (t, ret)) : s.Checked m t ∧ (ret = true → t.cfg.view ≤ m.view) := by
  rcases isValidViewChangeMsg_cases h with ⟨-, rfl, rfl⟩ | ⟨-, hanswer, hvalid⟩
  · exact ⟨.refl hb hs hsend, fun hret => Bool.noConfusion hret⟩
  · exact ⟨answerViewChange_checked hb hs hsend hanswer, fun hret => (hvalid hret).1⟩

theorem tryFastViewChange_once {m : ViewChangeMsg} (hb : s.Behind) (hs : Once s) (h : s.tryFastViewChange E m = some t) :
    Once t := by
  rcases tryFastViewChange_cases s h with rfl | ⟨v, hv, h⟩
  · exact hs
  · obtain ⟨hle, hroom⟩ := pred_of_lt hv
    have hcalm : Calm s (s.setCfg { s.cfg with toView := v - 1 }) := .same rfl rfl rfl rfl
    exact (triggerTimeout_renewing (s := s.setCfg { s.cfg with toView := v - 1 }) (hb.trans hle) (hs.calm hcalm) hroom h).once

/-- The view change is signed by the node it names and is not behind with what is committed. -/
structure Collects (E : Env) (s : Node) (m : ViewChangeMsg) : Prop where
  committed : s.cfg.committedIndex ≤ m.committedProposal.index
  signed : s.checkSignature E (.viewChange m) = true

instance (s : Node) (m : ViewChangeMsg) : Decidable (s.Collects E m) :=
  decidable_of_iff (s.cfg.committedIndex ≤ m.committedProposal.index ∧ s.checkSignature E (.viewChange m) = true)
    ⟨fun h => ⟨h.1, h.2⟩, fun h => ⟨h.committed, h.signed⟩⟩

theorem isValidViewChangeMsg_collects {fromNode : Option NodeID} {m : ViewChangeMsg}
    (h : s.isValidViewChangeMsg E fromNode m = some (t, true)) : s.Collects E m := by
  rcases isValidViewChangeMsg_cases h with ⟨-, -, hret⟩ | ⟨hle, -, -⟩
  · exact Bool.noConfusion hret
  · have hsame := sameNodes_of_viewing (isValidViewChangeMsg_steps s (fun _ hl => hl) h)
    exact ⟨hle, hsame.checkSignature _ ▸ isValidViewChangeMsg_checkSignature h⟩

theorem handleViewChangeMsg_once {m : ViewChangeMsg} {ret : Bool} (hb : s.Behind) (hs : Once s)
    (hsend : s.cfg.timeoutState = true → s.Outdated m → s.MaySend)
    (hnew : s.Collects E m → m.view = s.cfg.view → s.cfg.view ∉ s.newViews)
    (hlast : m.view = 18446744073709551615 → s.Outdated m → s.cfg.toView ≠ m.view)
    (h : s.handleViewChangeMsg E m = some (t, ret)) : Once t := by
  rcases handleViewChangeMsg_cases s h with hu | ⟨u, w, hu, hw, hx⟩
  · exact ((isValidViewChangeMsg_checked hb hs hsend hu).1.once hb hs).2
  · obtain ⟨hchecked, hvalid⟩ := isValidViewChangeMsg_checked hb hs hsend hu
    obtain ⟨hub, hus⟩ := hchecked.once hb hs
    have hle := hvalid rfl
    have hadd : Once (u.addViewChangeReq m) := by
      refine hus.addViewChangeReq hle fun heq => ?_
      rcases hchecked.views with ⟨hview, hviews⟩ | ⟨hold, hview⟩
      · rw [hviews, hview]
        exact hnew (isValidViewChangeMsg_collects hu) (heq.trans hview)
      · -- the node entered the view it aimed at, which an outdated view change cannot be for
        exfalso
        rw [hview] at heq
        rcases hold with hlt | hlt
        · rw [heq] at hlt
          exact absurd hb (not_le.2 hlt)
        · by_cases hmax : m.view = 18446744073709551615
          · exact hlast hmax (Or.inr hlt) heq.symm
          · have hne : m.view.toNat ≠ 18446744073709551615 := fun heq' => hmax (UInt64.toNat_inj.1 heq')
            have hbound := m.view.toNat_lt
            rw [heq, UInt64.lt_iff_toNat_lt, UInt64.toNat_add] at hlt
            rw [heq] at hne hbound
            change (_ + 1) % 2 ^ 64 < _ at hlt
            omega
    have haddb : (u.addViewChangeReq m).Behind := by
      unfold Behind
      rw [addViewChangeReq_cfg]
      exact hub
    exact (tryIntoNewView_once (tryFastViewChange_behind haddb hw) (tryFastViewChange_once haddb hadd hw) hx).1

theorem newViewWeight_once {fromNode : Option NodeID} {l : List ViewChangeMsg} {w : UInt64} {r : Option UInt64}
    (hb : s.Behind) (hs : Once s)
    (hsend : s.cfg.timeoutState = true → (∃ m ∈ l, s.Outdated m) → s.MaySend)
    (h : newViewWeight E fromNode s l w = some (t, r)) : t.Behind ∧ Once t := by
  induction l generalizing s w with
  | nil =>
    obtain ⟨rfl, -⟩ := Prod.mk.inj (Option.some.inj h)
    exact ⟨hb, hs⟩
  | cons m l ih =>
    have hcheck : ∀ {u ret}, s.isValidViewChangeMsg E fromNode m = some (u, ret) → s.Checked m u := fun hu =>
      (isValidViewChangeMsg_checked hb hs (fun hwait hold => hsend hwait ⟨m, List.mem_cons_self, hold⟩) hu).1
    rcases newViewWeight_cons s h with ⟨hu, -⟩ | ⟨u, w', hu, h⟩
    · exact (hcheck hu).once hb hs
    · have hchecked := hcheck hu
      obtain ⟨hub, hus⟩ := hchecked.once hb hs
      have hrest : u.cfg.timeoutState = true → (∃ m' ∈ l, u.Outdated m') → u.MaySend := by
        by_cases hold : s.Outdated m
        · exact fun hwait _ => (hchecked.renewing hold).waits hwait
        · obtain rfl := hchecked.same hold
          rintro hwait ⟨m', hm', hold'⟩
          exact hsend hwait ⟨m', List.mem_cons_of_mem m hm', hold'⟩
      exact ih hub hus hrest h

theorem isValidNewViewMsg_once {m : NewViewMsg} {ret : Bool} (hb : s.Behind) (hs : Once s)
    (hsend : s.cfg.timeoutState = true → (∃ c ∈ m.viewChangeMsgList, s.Outdated c) → s.MaySend)
    (h : s.isValidNewViewMsg E m = some (t, ret)) : t.Behind ∧ Once t := by
  rcases isValidNewViewMsg_cases s h with ⟨rfl, -⟩ | ⟨-, -, r, hr, -⟩
  · exact ⟨hb, hs⟩
  · exact newViewWeight_once hb hs hsend hr

theorem handleNewViewMsg_once {m : NewViewMsg} {ret : Bool} (hb : s.Behind) (hs : Once s)
    (hsend : s.cfg.timeoutState = true → (∃ c ∈ m.viewChangeMsgList, s.Outdated c) → s.MaySend)
    (h : s.handleNewViewMsg E m = some (t, ret)) : Once t := by
  rcases handleNewViewMsg_cases s h with hu | ⟨u, hu, hw⟩
  · exact (isValidNewViewMsg_once hb hs hsend hu).2
  · obtain ⟨-, hus⟩ := isValidNewViewMsg_once hb hs hsend hu
    refine Once.still (reHandlePrePrepareProposals_still hw) ?_
    by_cases hle : u.cfg.view ≤ m.view
    · exact reachNewView_once E hus.nodup (fun v hv => (hus.entered v hv).trans hle) hus.weighed hle
    · exact hus.calm (reachNewView_calm E (not_le.1 hle))

theorem checkAndTryToRecover_once (E : Env) (hs : Once s) : Once s.checkAndTryToRecover := by
  unfold checkAndTryToRecover
  extract_lets recovered u v
  split
  · exact hs
  have hv : Once v := by
    by_cases hle : s.cfg.view ≤ recovered
    · obtain ⟨hview, -⟩ := Config.resetNewViewState_views hle
      refine Once.enter E (s := u) hs.nodup (fun w hw => ?_) hs.weighed (le_of_eq hview)
      change w ≤ (s.cfg.resetNewViewState recovered).view
      rw [hview]
      exact (hs.entered w hw).trans hle
    · have hsame : u = s := by
        change s.setCfg (s.cfg.resetNewViewState recovered) = s
        rw [Config.resetNewViewState, if_pos (not_le.1 hle)]
        rfl
      have hcalm := (resetCacheAfterViewChange_still E u recovered u.cfg.committedIndex).calm
      rw [hsame] at hcalm
      change Once (u.resetCacheAfterViewChange recovered u.cfg.committedIndex)
      rw [hsame]
      exact hs.calm hcalm
  exact Once.calm (s := v) (.same rfl rfl rfl rfl) hv

theorem finalizeConsensus_once {l : LedgerConfig} {synced : Bool}
    (hok : ∀ u, s.recordBlock E l = some u → u.cfg.toView.toNat + u.skipped < 2 ^ 64) (hb : s.Behind) (hs : Once s)
    (h : s.finalizeConsensus E l synced = some t) : Once t := by
  obtain ⟨u, w, hu, hw, rfl⟩ := finalizeConsensus_recordBlock h
  have hA : Open (fun l => l.calm = true) := fun l hl => Label.still_calm (Label.still_open l hl)
  have hcalm : Calm s u := by
    refine Steps.calm (recordBlock_steps s (A := fun l => l.calm = true) hA rfl rfl rfl rfl rfl rfl rfl hu) (fun _ hl => hl)
  have hbu : u.Behind := Steps.behind (recordBlock_steps s (A := fun l => l ≠ .aim) ?_ Label.noConfusion Label.noConfusion
    Label.noConfusion Label.noConfusion Label.noConfusion Label.noConfusion Label.noConfusion hu) (fun h => h rfl) hb
  have hreset := resetTimer_once hbu (hs.calm hcalm) (hok u hu) hw
  split_ifs
  · exact hreset.calm (Steps.calm (removeFutureProposals_steps (E := E) w hA rfl rfl rfl) (fun _ hl => hl))
  · exact hreset
  · intro l hl
    cases l <;> first | exact Label.noConfusion | cases hl

theorem onTimeout_once (hok : s.fires = true → s.cfg.toView ≠ 18446744073709551615) (hb : s.Behind) (hs : Once s)
    (h : s.onTimeout E = some t) : Once t := by
  obtain ⟨u, hsteps, hu⟩ := onTimeout_cases h
  have hstill := Steps.still hsteps fun l hl => by
    rcases hl with hl | rfl
    · exact Label.still_open l hl
    · rfl
  have hbehind : u.Behind := by
    unfold Behind
    rw [hstill.calm.view, hstill.toView]
    exact hb
  rcases hu with rfl | ⟨hfires, h⟩
  · exact hs.still hstill
  · exact (triggerTimeout_renewing hbehind (hs.still hstill) (hstill.toView ▸ room_of_ne (hok hfires)) h).once

end Node

/-- The condition under which a message brings no second new view about: a view change that is collected is not for a view
that the node has sent a new view for, and neither is the one that it sends as an answer. -/
def Message.Renews (E : Env) (s : Node) : Message → Prop
  | .viewChange m => (s.Collects E m → m.view = s.cfg.view → s.cfg.view ∉ s.newViews) ∧
      (m.view = 18446744073709551615 → s.Outdated m → s.cfg.toView ≠ m.view) ∧
      (s.cfg.timeoutState = true → s.Outdated m → s.MaySend)
  | .newView m => s.cfg.timeoutState = true → (∃ c ∈ m.viewChangeMsgList, s.Outdated c) → s.MaySend
  | _ => True

instance (s : Node) : Decidable s.MaySend := inferInstanceAs (Decidable (_ ∨ _))

instance (E : Env) (s : Node) : (msg : Message) → Decidable (msg.Renews E s)
  | .viewChange _ => inferInstanceAs (Decidable (_ ∧ _ ∧ _))
  | .newView _ => inferInstanceAs (Decidable (_ → _))
  | .pbft _ | .request _ => inferInstanceAs (Decidable True)

def Event.Renews (E : Env) (s : Node) (e : Event) : Prop :=
  e = .worker → s.workerStage = .admitted → ∀ msg ∈ s.msgQueue.head?, msg.Renews E s

instance (E : Env) (s : Node) (e : Event) : Decidable (e.Renews E s) := inferInstanceAs (Decidable (_ → _ → _))

theorem Message.Renews.dequeued {E : Env} {s : Node} {msg : Message} (rest : List Message) (h : msg.Renews E s) :
    msg.Renews E { s with msgQueue := rest, workerStage := .start } := by
  cases msg with
  | viewChange m => exact ⟨fun hcollects => h.1 ⟨hcollects.committed, hcollects.signed⟩, h.2⟩
  | _ => exact h

theorem Message.allows_calm {E : Env} {s : Node} {msg : Message} {l : Label} (hmoves : msg.moves ≠ true)
    (hl : msg.allows E s l) :
    l.calm = true := by
  cases l with
  | view => exact absurd (hl.2.resolve_right Bool.noConfusion) hmoves
  | newView m => exact absurd (hl.2.resolve_right Bool.noConfusion) hmoves
  | viewChange own m =>
    cases own with
    | false =>
      obtain ⟨rfl, -⟩ := hl
      exact absurd rfl hmoves
    | true => exact absurd (hl.2.resolve_right Bool.noConfusion) hmoves
  | _ => rfl

theorem Event.allows_calm {E : Env} {s : Node} {e : Event} {l : Label} (hmoves : ¬e.moves s) (hl : e.allows E s l) :
    l.calm = true := by
  cases l with
  | view => exact absurd hl hmoves
  | newView m => exact absurd hl hmoves
  | viewChange own m =>
    cases own with
    | false => exact absurd (Or.inl ⟨_, hl.1, rfl⟩) hmoves
    | true => exact absurd hl hmoves
  | _ => rfl

namespace Node

variable {E : Env} {s t : Node}

theorem handleCommitMsg_once {m : PBFTMessage} {ret : Bool} (hb : s.Behind) (hs : Once s)
    (hroom : (s.addCommitReq m).checkAndCommitLoop.cfg.toView.toNat + (s.addCommitReq m).checkAndCommitLoop.skipped < 2 ^ 64)
    (h : s.handleCommitMsg E m = some (t, ret)) : Once t := by
  unfold handleCommitMsg at h
  split_ifs at h with hcheck
  · obtain ⟨rfl, -⟩ := Prod.mk.inj (Option.some.inj h)
    exact hs
  · obtain ⟨w, hw, h⟩ := Option.bind_eq_some_iff.1 h
    obtain ⟨rfl, -⟩ := Prod.mk.inj (Option.some.inj h)
    let A : Label → Prop := fun l => l.calm = true
    have hA : Open A := fun l hl => Label.still_calm (Label.still_open l hl)
    have hcommit : A (.commit m) := rfl
    have hadd : Steps E A s (s.addCommitReq m) := .single hcommit (.commit s (by simpa using hcheck))
    have hcalm : Calm s (s.addCommitReq m).checkAndCommitLoop :=
      Steps.calm (hadd.trans (checkAndCommitLoop_steps _ hA rfl rfl)) (fun _ hl => hl)
    exact resetTimer_once (checkAndCommitLoop_behind (s := s.addCommitReq m) hb) (hs.calm hcalm) hroom hw

theorem handleMsg_once {msg : Message} (hok : msg.Renews E s) (hb : s.Behind) (hs : Once s)
    (hroom : ∀ m, msg = .pbft m → m.packetType = .CommitPacket →
      (s.addCommitReq m).checkAndCommitLoop.cfg.toView.toNat + (s.addCommitReq m).checkAndCommitLoop.skipped < 2 ^ 64)
    (h : s.handleMsg E msg = some t) : Once t := by
  by_cases hmoves : msg.moves = true
  · cases msg with
    | pbft m =>
      by_cases htype : m.packetType = .CommitPacket
      · simp only [handleMsg, htype] at h
        obtain ⟨⟨v, ret⟩, hv, rfl⟩ := Option.map_eq_some_iff.1 h
        exact handleCommitMsg_once hb hs (hroom m rfl htype) hv
      · have hrecover : m.packetType = .RecoverResponse := by
          simp only [Message.moves, Bool.or_eq_true, decide_eq_true_eq] at hmoves
          exact hmoves.resolve_left htype
        simp only [handleMsg, hrecover] at h
        obtain rfl := Option.some.inj h
        unfold handleRecoverResponse
        split_ifs
        · exact hs
        · exact checkAndTryToRecover_once E (hs.still (Quiet.still E (addRecoverReqCache_quiet s m)))
    | viewChange m =>
      simp only [handleMsg] at h
      split_ifs at h
      · obtain ⟨⟨v, ret⟩, hv, rfl⟩ := Option.map_eq_some_iff.1 h
        exact handleViewChangeMsg_once hb hs hok.2.2 hok.1 hok.2.1 hv
      · obtain rfl := Option.some.inj h
        exact hs
    | newView m =>
      simp only [handleMsg] at h
      obtain ⟨⟨v, ret⟩, hv, rfl⟩ := Option.map_eq_some_iff.1 h
      exact handleNewViewMsg_once hb hs hok hv
    | request m =>
      obtain rfl := Option.some.inj h
      exact hs
  · exact hs.calm (Steps.calm (handleMsg_steps _ h) fun l hl => Message.allows_calm hmoves hl)

theorem handleAdmitted_once (hclimbs : Event.worker.Climbs E s) (hok : Event.worker.Renews E s) (hb : s.Behind) (hs : Once s)
    (h : s.handleAdmitted E = some t) : Once t := by
  rcases s.handleAdmitted_cases h with rfl | ⟨hstage, msg, rest, hq, h⟩
  · exact hs
  have hrenews := (hok rfl hstage msg (by rw [hq]; rfl)).dequeued rest
  refine handleMsg_once hrenews hb (Once.calm (s := s) (.same rfl rfl rfl rfl) hs) ?_ h
  intro m hmsg htype
  subst hmsg
  exact hclimbs.search _ (by simp only [Event.resets, hstage, hq, if_pos htype]; rfl)

end Node

theorem step_once {E : Env} {s t : Node} {e : Event} (hclimbs : e.Climbs E s) (hok : e.Renews E s) (h : step E s e = some t)
    (hb : s.Behind) (hs : Once s) : Once t := by
  by_cases hmoves : e.moves s
  · rcases hmoves with ⟨msg, ⟨rfl, -⟩, -⟩ | rfl | ⟨l, rfl | rfl⟩
    · exact Node.handleAdmitted_once hclimbs hok hb hs h
    · exact Node.onTimeout_once (hclimbs.timer rfl) hb hs h
    · exact Node.finalizeConsensus_once hclimbs.search hb hs h
    · rcases s.finalizeNewBlock_cases h with rfl | ⟨hmem, h⟩
      · exact hs
      have hready : ∀ u, ({ s with newBlocks := s.newBlocks.erase l } : Node).recordBlock E l = some u →
          u.cfg.toView.toNat + u.skipped < 2 ^ 64 := by
        intro u hu
        refine hclimbs.search u ?_
        simp only [Event.resets, if_pos (List.contains_iff_mem.2 hmem)]
        exact hu
      have hpopped : Once { s with newBlocks := s.newBlocks.erase l } := Once.calm (s := s) (.same rfl rfl rfl rfl) hs
      exact Node.finalizeConsensus_once hready hb hpopped h
  · exact hs.calm (Steps.calm (step_steps h) fun l hl => Event.allows_calm hmoves hl)

theorem initNode_once {E : Env} {keyPair : KeyPair} {l : LedgerConfig} {state : List PBFTProposal} {s₀ : Node}
    (hinit : initNode E keyPair l state = some s₀) : Once s₀ := by
  let A : Label → Prop := fun label => label.calm = true
  have hquiet : A .quiet := rfl
  obtain ⟨s, hsteps, hs⟩ := initNode_steps hquiet rfl rfl rfl (fun _ _ => rfl) hinit
  have hempty : Once { cfg := { keyPair := keyPair, timeoutState := true } } := by
    refine ⟨List.nodup_nil, fun v hv => ?_, fun v l hl => ?_, fun v w hw => ?_⟩
    · cases hv
    · cases hl
    · cases hw
  have hs' : Once s := hempty.calm (hsteps.calm fun _ hl => hl)
  rcases hs with rfl | ⟨last, -, rfl⟩
  · exact hs'
  · exact Once.calm (s := s) (.same rfl rfl rfl rfl) hs'

/-- No view has two new views, in runs in which no view change is collected for a view that has had its new view. -/
theorem newViews_nodup {E : Env} {keyPair : KeyPair} {l : LedgerConfig} {state : List PBFTProposal} {s₀ s : Node}
    {trace : List (Node × Event)} (hinit : initNode E keyPair l state = some s₀) (hrun : Trail (step E) s₀ trace s)
    (hok : ∀ x ∈ trace, x.2.Climbs E x.1 ∧ x.2.Renews E x.1) : s.newViews.Nodup := by
  have hstep : ∀ u e w, e.Climbs E u ∧ e.Renews E u → step E u e = some w → u.Behind ∧ Once u → w.Behind ∧ Once w := by
    intro u e w hok hstep hu
    exact ⟨step_behind hok.1 hstep hu.1, step_once hok.1 hok.2 hstep hu.1 hu.2⟩
  exact (hrun.preserves hstep hok ⟨initNode_behind hinit, initNode_once hinit⟩).2.nodup

def toyChanges (senders : List UInt8) : List Event :=
  Toy.atOnce (senders.flatMap fun i =>
    [.receive [i] (PBFTCodec.encode Toy.env (Toy.keyPair i) 0 (.viewChange (toySignedChange i))).1 [], .worker])

theorem toyChanges_once : ∃ trace s, Trail.states (step Toy.env) (Toy.node 2 [1, 1, 1, 1])
    (toyChanges [0, 1]) = some (trace, s) ∧
    s.cfg.view = 1 ∧ s.newViews = [1] ∧ s.newViews.Nodup := by
  have hinit : initNode Toy.env (Toy.keyPair 2)
      { blockNumber := 0, hash := zeroHash, consensusNodeList := Toy.nodes [1, 1, 1, 1] } [] =
        some (Toy.node 2 [1, 1, 1, 1]) := by
    decide +kernel
  have hrun : ((Trail.states (step Toy.env) (Toy.node 2 [1, 1, 1, 1]) (toyChanges [0, 1])).elim false fun r =>
      (decide (r.2.cfg.view = 1) && decide (r.2.newViews = [1])) &&
        r.1.all fun x => decide (x.2.Climbs Toy.env x.1) && decide (x.2.Renews Toy.env x.1)) = true := by
    decide +kernel
  obtain ⟨⟨trace, s⟩, hs, hcheck⟩ := Toy.exists_of_elim hrun
  simp only [Bool.and_eq_true, decide_eq_true_eq, List.all_eq_true] at hcheck
  obtain ⟨⟨hview, hviews⟩, hok⟩ := hcheck
  exact ⟨trace, s, hs, hview, hviews, newViews_nodup hinit (.of_states hs) hok⟩

/-- The view change of node 3 comes late and those of nodes 0 and 1 come twice. -/
theorem toyChanges_twice : initNode Toy.env (Toy.keyPair 2)
      { blockNumber := 0, hash := zeroHash, consensusNodeList := Toy.nodes [1, 1, 1, 1] } [] = some (Toy.node 2 [1, 1, 1, 1]) ∧
    ∃ trace s, Trail.states (step Toy.env) (Toy.node 2 [1, 1, 1, 1]) (toyChanges [0, 1, 3, 0, 1]) = some (trace, s) ∧
    s.newViews = [1, 1] ∧ ¬s.newViews.Nodup := by
  have hrun : ((Trail.states (step Toy.env) (Toy.node 2 [1, 1, 1, 1]) (toyChanges [0, 1, 3, 0, 1])).elim false fun r =>
      decide (r.2.newViews = [1, 1])) = true := by
    decide +kernel
  obtain ⟨⟨trace, s⟩, hs, hcheck⟩ := Toy.exists_of_elim hrun
  rw [decide_eq_true_eq] at hcheck
  refine ⟨by decide +kernel, trace, s, hs, hcheck, ?_⟩
  rw [hcheck]
  decide

end BcosPbft
