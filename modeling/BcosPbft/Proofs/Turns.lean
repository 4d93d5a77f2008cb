import BcosPbft.Proofs.Views

/-! An event with every change of view taken as one step. The primitive steps of a change of view purge the caches and
then set the view, and no longer say that the one was done for the other; here the two stay together. -/

namespace BcosPbft

/-- A primitive step with a label in `A`, or one of the two functions that change the view. -/
inductive TurnIn (E : Env) (A : Label → Prop) : Node → Node → Prop
  | prim {l : Label} {s t : Node} (hl : A l) (h : Prim E l s t) : TurnIn E A s t
  | reach (s : Node) (view : ViewType) : TurnIn E A s (s.reachNewView view)
  | recover (s : Node) : TurnIn E A s s.checkAndTryToRecover

abbrev TurnsIn (E : Env) (A : Label → Prop) : Node → Node → Prop := Relation.ReflTransGen (TurnIn E A)

def Label.viewless (l : Label) : Prop := l ≠ .view

abbrev Turn (E : Env) : Node → Node → Prop := TurnIn E Label.viewless

abbrev Turns (E : Env) : Node → Node → Prop := Relation.ReflTransGen (Turn E)

def Label.moving : Label → Bool
  | .view | .reset | .nodes _ | .store _ | .vote _ | .prepare _ | .commit _ | .checkPoint _ _ | .setCheckPoint _ => false
  | _ => true

def Moving (A : Label → Prop) : Prop := ∀ l, l.moving = true → A l

theorem Moving.isOpen {A : Label → Prop} (hA : Moving A) : Open A := by
  intro l hl
  refine hA l ?_
  cases l <;> first | rfl | cases hl

variable {E : Env} {A : Label → Prop} {s t : Node}

theorem Steps.turns (h : Steps E A s t) : TurnsIn E A s t :=
  h.preserves (I := TurnsIn E A s) (fun _ _ _ hl hp hs => hs.tail (.prim hl hp)) .refl

theorem Prim.turns {l : Label} (h : Prim E l s t) (hl : A l) : TurnsIn E A s t := .single (.prim hl h)

namespace Node

theorem reHandlePrePrepareProposals_turns (hA : Moving A) {m : NewViewMsg} (h : s.reHandlePrePrepareProposals E m = some t) :
    TurnsIn E A s t := by
  have htail : Steps E A (s.reachNewView m.view) t :=
    reHandlePrePrepareProposals_tail_steps s hA.isOpen (fun _ _ _ => hA _ rfl) (fun _ _ => hA _ rfl) (hA _ rfl)
      (fun hown : false = true => Bool.noConfusion hown) h
  exact .head (.reach s m.view) htail.turns

theorem tryIntoNewView_turns (hA : Moving A) (h : s.tryIntoNewView E = some t) : TurnsIn E A s t := by
  rcases tryIntoNewView_cases s h with rfl | ⟨u, m, hu, h⟩
  · exact .refl
  · have hnew : TurnsIn E A s u := (Prim.newView hu).turns (hA _ rfl)
    exact hnew.trans (reHandlePrePrepareProposals_turns hA h)

theorem sendViewChangeTo_turns (hA : Moving A) {dst : Option NodeID} (h : s.sendViewChangeTo E dst = some t) :
    TurnsIn E A s t := by
  obtain ⟨m, hm, -, -, h⟩ := sendViewChangeTo_cases s h
  have hemit : TurnsIn E A s (s.emit (sendActions E s.cfg.keyPair dst (.viewChange s.generateViewChange))) :=
    (Prim.sendViewChange s dst).turns (hA _ rfl)
  exact (hemit.trans ((ownViewChange_prim s hm).turns (hA _ rfl))).trans (tryIntoNewView_turns hA h)

theorem triggerTimeout_turns (hA : Moving A) (h : s.triggerTimeout E = some t) : TurnsIn E A s t := by
  unfold triggerTimeout at h
  dsimp only at h
  have haim : TurnsIn E A s (s.setCfg s.cfg.resetTimeoutState) := (Prim.aim s _ _).turns (hA _ rfl)
  refine haim.trans ?_
  generalize s.setCfg s.cfg.resetTimeoutState = u at h ⊢
  have hdrop : TurnsIn E A u (u.removeInvalidViewChange u.cfg.view u.cfg.committedIndex) :=
    (Prim.dropViewChanges u _ _).turns (hA _ rfl)
  refine hdrop.trans (.trans ?_ (sendViewChangeTo_turns hA h))
  exact (Prim.quiet (notifyCommittedProposalIndex_quiet _ _)).turns (hA _ rfl)

theorem tryTriggerFastViewChange_turns (hA : Moving A) {fuel : Nat} {leader : IndexType}
    (h : tryTriggerFastViewChange E fuel s leader = some t) : TurnsIn E A s t := by
  apply tryTriggerFastViewChange_run s (fun _ => .refl) _ h
  intro u v w hu hvw
  exact (triggerTimeout_turns hA hu).trans hvw

theorem resetTimer_turns (hA : Moving A) (h : s.resetTimer E = some t) : TurnsIn E A s t := by
  unfold resetTimer at h
  split_ifs at h
  · obtain rfl := Option.some.inj h
    exact .refl
  · exact tryTriggerFastViewChange_turns hA h

theorem handleCommitMsg_turns (hA : Moving A) {m : PBFTMessage} (hm : A (.commit m)) {ret : Bool}
    (h : s.handleCommitMsg E m = some (t, ret)) : TurnsIn E A s t := by
  unfold handleCommitMsg at h
  split_ifs at h with hcheck
  · obtain ⟨rfl, -⟩ := Prod.mk.inj (Option.some.inj h)
    exact .refl
  · obtain ⟨u, hu, h⟩ := Option.bind_eq_some_iff.1 h
    obtain ⟨rfl, -⟩ := Prod.mk.inj (Option.some.inj h)
    have hcount : TurnsIn E A s (s.addCommitReq m) := (Prim.commit s (by simpa using hcheck)).turns hm
    have hloop : Steps E A (s.addCommitReq m) (s.addCommitReq m).checkAndCommitLoop :=
      checkAndCommitLoop_steps _ hA.isOpen (hA _ rfl) (hA _ rfl)
    exact (hcount.trans hloop.turns).trans (resetTimer_turns hA hu)

theorem answerViewChange_turns (hA : Moving A) {fromNode : Option NodeID} {m : ViewChangeMsg}
    (h : s.answerViewChange E fromNode m = some t) : TurnsIn E A s t := by
  rcases answerViewChange_cases s h with rfl | ⟨-, dst, -, ⟨-, h⟩ | ⟨-, rfl⟩⟩
  · exact .refl
  · exact sendViewChangeTo_turns hA h
  · exact (Prim.quiet (sendRecoverResponse_quiet s dst)).turns (hA _ rfl)

theorem isValidViewChangeMsg_turns (hA : Moving A) {fromNode : Option NodeID} {m : ViewChangeMsg} {sig ret : Bool}
    (h : s.isValidViewChangeMsg E fromNode m sig = some (t, ret)) : TurnsIn E A s t := by
  rcases isValidViewChangeMsg_cases h with ⟨-, rfl, -⟩ | ⟨-, hanswer, -⟩
  · exact .refl
  · exact answerViewChange_turns hA hanswer

theorem tryFastViewChange_turns (hA : Moving A) {m : ViewChangeMsg} (h : s.tryFastViewChange E m = some t) :
    TurnsIn E A s t := by
  rcases tryFastViewChange_cases s h with rfl | ⟨v, -, h⟩
  · exact .refl
  · have haim : TurnsIn E A s (s.setCfg { s.cfg with toView := v - 1 }) := (Prim.aim s (v - 1) _).turns (hA _ rfl)
    exact haim.trans (triggerTimeout_turns hA h)

theorem handleViewChangeMsg_turns (hA : Moving A) {m : ViewChangeMsg} {ret : Bool}
    (h : s.handleViewChangeMsg E m = some (t, ret)) : TurnsIn E A s t := by
  rcases handleViewChangeMsg_cases s h with hu | ⟨u, v, hu, hv, ht⟩
  · exact isValidViewChangeMsg_turns hA hu
  · have hadd : Prim E (.viewChange false m) u (u.addViewChangeReq m) :=
      .viewChange u nofun nofun (fun _ => isValidViewChangeMsg_checkSignature hu)
    have hcollect : TurnsIn E A s (u.addViewChangeReq m) := (isValidViewChangeMsg_turns hA hu).trans (hadd.turns (hA _ rfl))
    exact (hcollect.trans (tryFastViewChange_turns hA hv)).trans (tryIntoNewView_turns hA ht)

theorem newViewWeight_turns (hA : Moving A) {fromNode : Option NodeID} {l : List ViewChangeMsg} {w : UInt64}
    {r : Option UInt64} (h : newViewWeight E fromNode s l w = some (t, r)) : TurnsIn E A s t := by
  induction l generalizing s w with
  | nil =>
    obtain ⟨rfl, -⟩ := Prod.mk.inj (Option.some.inj h)
    exact .refl
  | cons m l ih =>
    rcases newViewWeight_cons s h with ⟨hu, -⟩ | ⟨u, w', hu, h⟩
    · exact isValidViewChangeMsg_turns hA hu
    · exact (isValidViewChangeMsg_turns hA hu).trans (ih h)

theorem isValidNewViewMsg_turns (hA : Moving A) {m : NewViewMsg} {ret : Bool}
    (h : s.isValidNewViewMsg E m = some (t, ret)) : TurnsIn E A s t := by
  rcases isValidNewViewMsg_cases s h with ⟨rfl, -⟩ | ⟨-, -, r, hr, -⟩
  · exact .refl
  · exact newViewWeight_turns hA hr

theorem handleNewViewMsg_turns (hA : Moving A) {m : NewViewMsg} {ret : Bool} (h : s.handleNewViewMsg E m = some (t, ret)) :
    TurnsIn E A s t := by
  rcases handleNewViewMsg_cases s h with hu | ⟨u, hu, h⟩
  · exact isValidNewViewMsg_turns hA hu
  · exact (isValidNewViewMsg_turns hA hu).trans (reHandlePrePrepareProposals_turns hA h)

theorem handleRecoverResponse_turns (hA : Moving A) (m : PBFTMessage) : TurnsIn E A s (s.handleRecoverResponse E m) := by
  unfold handleRecoverResponse
  split_ifs
  · exact .refl
  · exact ((Prim.quiet (addRecoverReqCache_quiet s m)).turns (hA _ rfl)).tail (.recover _)

/-- A message on which no view is changed is handled in primitive steps. -/
theorem handleMsg_turns (hA : Moving A) {msg : Message}
    (hallows : ∀ l, msg.allows E s l → l ≠ .view → l ≠ .reset → A l) (h : s.handleMsg E msg = some t) : TurnsIn E A s t := by
  by_cases hmoves : msg.moves = true
  · cases msg with
    | pbft m =>
      simp only [Message.moves, Bool.or_eq_true, decide_eq_true_eq] at hmoves
      rcases hmoves with htype | htype
      · simp only [handleMsg, htype] at h
        obtain ⟨⟨u, ret⟩, hu, rfl⟩ := Option.map_eq_some_iff.1 h
        exact handleCommitMsg_turns hA (hallows _ ⟨rfl, htype⟩ Label.noConfusion Label.noConfusion) hu
      · simp only [handleMsg, htype] at h
        obtain rfl := Option.some.inj h
        exact handleRecoverResponse_turns hA m
    | viewChange m =>
      simp only [handleMsg] at h
      split_ifs at h
      · obtain ⟨⟨u, ret⟩, hu, rfl⟩ := Option.map_eq_some_iff.1 h
        exact handleViewChangeMsg_turns hA hu
      · obtain rfl := Option.some.inj h
        exact .refl
    | newView m =>
      obtain ⟨⟨u, ret⟩, hu, rfl⟩ := Option.map_eq_some_iff.1 h
      exact handleNewViewMsg_turns hA hu
    | request m =>
      obtain rfl := Option.some.inj h
      exact .refl
  · refine Steps.turns ((handleMsg_steps s h).mono fun l hl => hallows l hl ?_ ?_)
    · rintro rfl
      exact hl.2.elim hmoves fun hfree => by cases hfree
    · rintro rfl
      exact hl.2.elim hmoves fun hfree => by cases hfree

theorem handleAdmitted_turns (hA : Moving A) (hallows : ∀ l, Event.worker.allows E s l → l ≠ .view → l ≠ .reset → A l)
    (h : s.handleAdmitted E = some t) : TurnsIn E A s t := by
  rcases s.handleAdmitted_cases h with rfl | ⟨hstage, msg, rest, hq, h⟩
  · exact .refl
  · exact (Steps.turns (s.admitted_steps hq (hA _ rfl) (hA _ rfl))).trans
      (handleMsg_turns hA (fun l hl => hallows l (Event.allows_message E hstage hq l hl)) h)

theorem onTimeout_turns (hA : Moving A) (h : s.onTimeout E = some t) : TurnsIn E A s t := by
  unfold onTimeout at h
  split at h
  · obtain rfl := Option.some.inj h
    exact .refl
  dsimp only at h
  have happly : TurnsIn E A s s.tryToApplyCommitQueue.1 := Steps.turns (tryToApplyCommitQueue_steps s hA.isOpen)
  split at h
  · obtain rfl := Option.some.inj h
    exact happly
  have hclear := happly.trans ((Prim.expire _).turns (hA _ rfl))
  split at h
  · obtain rfl := Option.some.inj h
    exact hclear
  · exact hclear.trans (triggerTimeout_turns hA h)

theorem finalizeConsensus_turns (hA : Moving A) {l : LedgerConfig} (hl : A (.nodes l.consensusNodeList)) {synced : Bool}
    (h : s.finalizeConsensus E l synced = some t) : TurnsIn E A s t := by
  unfold finalizeConsensus at h
  obtain ⟨u, hu, h⟩ := Option.bind_eq_some_iff.1 h
  dsimp only at h
  obtain ⟨v, hv, h⟩ := Option.bind_eq_some_iff.1 h
  obtain rfl := Option.some.inj h
  have hopen := hA.isOpen
  have hconfig : Steps E A s u := resetConfig_steps s (hA _ rfl) (hA _ rfl) (hA _ rfl) hl hu
  have hremove := removeConsensusedCache_steps (E := E) u.tryToApplyCommitQueue.1 (A := A) (hA _ rfl) (hA _ rfl) (hA _ rfl)
    u.tryToApplyCommitQueue.1.cfg.view l.blockNumber
  have hbefore := ((hconfig.trans (tryToApplyCommitQueue_steps u hopen)).trans hremove).trans
    (tryToCommitStableCheckPoint_steps _ hopen (hA _ rfl))
  refine ((Steps.turns hbefore).trans (resetTimer_turns hA hv)).trans ?_
  split_ifs
  · exact Steps.turns (removeFutureProposals_steps v hopen (hA _ rfl) (hA _ rfl) (hA _ rfl))
  · exact .refl

end Node

/-- An event is a sequence of turns with the moving labels and those it allows. -/
theorem step_turnsIn {e : Event} (hA : Moving A) (hallows : ∀ l, e.allows E s l → l ≠ .view → l ≠ .reset → A l)
    (h : step E s e = some t) : TurnsIn E A s t := by
  by_cases hmoves : e.moves s
  · rcases hmoves with ⟨msg, ⟨rfl, -⟩, -⟩ | rfl | ⟨l, rfl | rfl⟩
    · exact Node.handleAdmitted_turns hA hallows h
    · exact Node.onTimeout_turns hA h
    · have hl : A (.nodes l.consensusNodeList) := hallows _ ⟨l, rfl, Or.inl rfl⟩ Label.noConfusion Label.noConfusion
      exact Node.finalizeConsensus_turns hA hl h
    · have hl : A (.nodes l.consensusNodeList) := hallows _ ⟨l, rfl, Or.inr rfl⟩ Label.noConfusion Label.noConfusion
      rcases s.finalizeNewBlock_cases h with rfl | ⟨-, h⟩
      · exact .refl
      · exact ((Prim.quiet (s.newBlocks_quiet _)).turns (hA _ rfl)).trans (Node.finalizeConsensus_turns hA hl h)
  · refine Steps.turns ((step_steps h).mono fun l hl => hallows l hl ?_ ?_)
    · rintro rfl
      exact hmoves hl
    · rintro rfl
      exact hmoves hl

theorem step_turns {e : Event} (h : step E s e = some t) : Turns E s t :=
  step_turnsIn (A := Label.viewless) (fun l hl hview => by subst hview; cases hl) (fun _ _ hview _ => hview) h

def Label.casts : Label → Bool
  | .vote _ | .preCommit => true
  | _ => false

/-- `I` is kept by the primitive steps with labels in `A` and by the two parts of a change of view: the view rises, and
caches are purged for a view the node has reached. Where the node casts a vote, all older votes are purged. -/
structure Turning (E : Env) (A : Label → Prop) (I : Node → Prop) : Prop where
  moving : Moving A
  prim : ∀ {l : Label} {s t : Node}, A l → Prim E l s t → (l.casts = true → s.Fresh) → I s → I t
  raise : ∀ {s : Node} {v : ViewType}, s.cfg.view ≤ v → I s → I (s.setCfg (s.cfg.resetNewViewState v))
  purge : ∀ {s : Node} {v : ViewType} (i : Int), v ≤ s.cfg.view → I s → I (Node.resetCacheAt v s i)

theorem TurnIn.fresh (h : TurnIn E A s t) (hs : s.Fresh) : t.Fresh := by
  have hwide : Wide fun _ => True := fun _ _ => trivial
  cases h with
  | prim hl hp => exact hp.fresh hs
  | reach _ view => exact hs.steps (Node.reachNewView_steps (E := E) s hwide view)
  | recover => exact hs.steps (Node.checkAndTryToRecover_steps (E := E) s hwide)

namespace Turning

variable {I : Node → Prop}

/-- A lower view is not entered, but the caches are purged for it all the same. -/
theorem enterView (hI : Turning E A I) (hs : I s) (v : ViewType) {w : ViewType}
    (hw : w ≤ (s.cfg.resetNewViewState v).view) (n : Int) :
    I ((s.setCfg (s.cfg.resetNewViewState v)).resetCacheAfterViewChange w n) := by
  have hraised : I (s.setCfg (s.cfg.resetNewViewState v)) := by
    by_cases hv : s.cfg.view ≤ v
    · exact hI.raise hv hs
    · have hsame : s.cfg.resetNewViewState v = s.cfg := if_pos (not_le.1 hv)
      rw [hsame]
      exact hs
  unfold Node.resetCacheAfterViewChange
  have htail : ∀ u, I u → I (({ u with maxPrecommitIndex := ∅, maxCommittedIndex := ∅, newViewGenerated := false
      }.removeInvalidViewChange w n).emit [.clearIndexTables (u.removeInvalidViewChange w n).viewChangeViews]
      |>.removeInvalidRecoverCache w) := by
    intro u hu
    have hdrops := Node.dropViewChanges_steps (E := E) u (A := fun l => l.moving = true ∧ l.casts = false)
      (fun l hl => by cases l <;> first | exact ⟨rfl, rfl⟩ | cases hl) ⟨rfl, rfl⟩ ⟨rfl, rfl⟩ w n
    refine hdrops.preserves (fun l _ _ hl hp hu => hI.prim (hI.moving l hl.1) hp (fun hcast => ?_) hu) hu
    rw [hl.2] at hcast
    cases hcast
  refine htail _ ?_
  generalize (s.setCfg (s.cfg.resetNewViewState v)).caches.keys = keys
  have hview : w ≤ (s.setCfg (s.cfg.resetNewViewState v)).cfg.view := hw
  generalize s.setCfg (s.cfg.resetNewViewState v) = u at hraised hview
  induction keys generalizing u with
  | nil => exact hraised
  | cons i keys ih =>
    refine ih (Node.resetCacheAt w u i) (hI.purge i hview hraised) ?_
    rwa [Node.resetCacheAt_cfg]

theorem turn (hI : Turning E A I) (h : TurnIn E A s t) (hfresh : s.Fresh) (hs : I s) : I t := by
  cases h with
  | prim hl hp => exact hI.prim hl hp (fun _ => hfresh) hs
  | reach _ view => exact hI.enterView hs view (le_refl _) _
  | recover =>
    unfold Node.checkAndTryToRecover
    dsimp only
    generalize s.recoverCacheWeight.entries.foldl _ (0 : ViewType) = recovered
    split_ifs
    · exact hs
    · have hview : recovered ≤ (s.cfg.resetNewViewState recovered).view := by
        unfold Config.resetNewViewState
        split_ifs with hlower
        · exact hlower.le
        · exact le_refl recovered
      have hentered := hI.enterView hs recovered hview (s.setCfg (s.cfg.resetNewViewState recovered)).cfg.committedIndex
      generalize (s.setCfg _).resetCacheAfterViewChange recovered _ = u at hentered ⊢
      exact hI.prim (s := u) (hI.moving .quiet rfl) (.quiet (.same rfl rfl)) (fun h => Bool.noConfusion h) hentered

theorem turns (hI : Turning E A I) (h : TurnsIn E A s t) (hfresh : s.Fresh) (hs : I s) : I t := by
  have hboth : t.Fresh ∧ I t := by
    induction h with
    | refl => exact ⟨hfresh, hs⟩
    | tail _ hturn ih => exact ⟨hturn.fresh ih.1, hI.turn hturn ih.1 ih.2⟩
  exact hboth.2

theorem steps (hI : Turning E A I) (h : Steps E A s t) (hfresh : s.Fresh) (hs : I s) : I t := hI.turns h.turns hfresh hs

theorem step (hI : Turning E A I) {e : Event} (hallows : ∀ l, e.allows E s l → l ≠ .view → l ≠ .reset → A l)
    (h : BcosPbft.step E s e = some t) (hfresh : s.Fresh) (hs : I s) : I t :=
  hI.turns (step_turnsIn hI.moving hallows h) hfresh hs

end Turning

end BcosPbft
