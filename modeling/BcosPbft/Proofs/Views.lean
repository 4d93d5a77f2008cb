import BcosPbft.Proofs.Effects
import BcosPbft.Proofs.Handlers
import BcosPbft.Spec.Toy

/-! Votes and views. A vote is cached with at least the view of the node, and the view only rises over caches that
were purged for it, so no tally ever counts a vote of an earlier view. -/

namespace BcosPbft

namespace PBFTCache

def FromView (v : ViewType) (tally : CollectionCache) : Prop :=
  ∀ h l, tally.find? h = some l → ∀ i m, l.find? i = some m → v ≤ m.view

theorem Purged.of_fromView {v : ViewType} {c : PBFTCache} (hp : FromView v c.prepareCacheList)
    (hc : FromView v c.commitCacheList) : c.Purged v := by
  rintro tally (rfl | rfl)
  · exact hp
  · exact hc

theorem Purged.prepare {v : ViewType} {c : PBFTCache} (h : c.Purged v) : FromView v c.prepareCacheList :=
  h _ (Or.inl rfl)

theorem Purged.commit {v : ViewType} {c : PBFTCache} (h : c.Purged v) : FromView v c.commitCacheList :=
  h _ (Or.inr rfl)

theorem Purged.congr {v : ViewType} {c c' : PBFTCache} (h : c.Purged v) (hp : c'.prepareCacheList = c.prepareCacheList)
    (hc : c'.commitCacheList = c.commitCacheList) : c'.Purged v :=
  .of_fromView (hp ▸ h.prepare) (hc ▸ h.commit)

theorem addCache_fromView {cfg : Config} {c : PBFTCache} {tally : CollectionCache} {weight : QuorumRecoder}
    {m : PBFTMessage} {v : ViewType} (h : FromView v tally) (hm : v ≤ m.view) :
    FromView v (addCache cfg c tally weight m).1 := by
  unfold addCache
  split
  · exact h
  split
  · exact h
  split
  · exact h
  · intro hash l hl i m' hm'
    rw [OrdMap.find?_insert] at hl
    split_ifs at hl
    · obtain rfl := Option.some.inj hl
      rw [OrdMap.find?_insert] at hm'
      split_ifs at hm'
      · obtain rfl := Option.some.inj hm'
        exact hm
      · cases hold : tally.find? m.hash with
        | none => simp [hold] at hm'
        | some l' =>
          rw [hold, Option.getD_some] at hm'
          exact h m.hash l' hold i m' hm'
    · exact h hash l hl i m' hm'

theorem touch_fromView {tally : CollectionCache} {hash : HashType} {v : ViewType} (h : FromView v tally) :
    FromView v (touch tally hash) := by
  unfold touch
  split
  · exact h
  · intro hash' l hl i m hm
    rw [OrdMap.find?_insert] at hl
    split_ifs at hl
    · obtain rfl := Option.some.inj hl
      simp at hm
    · exact h hash' l hl i m hm

theorem resetCacheAfterViewChange_fromView {tally : CollectionCache} {v w : ViewType} (h : FromView v tally) :
    FromView v (resetCacheAfterViewChange tally w) := by
  intro hash l hl i m hm
  rw [resetCacheAfterViewChange, OrdMap.find?_filter, OrdMap.find?_mapVal] at hl
  obtain ⟨l', hl', rfl⟩ := Option.map_eq_some_iff.1 (Option.filter_eq_some_iff.1 hl).1
  rw [OrdMap.find?_filter] at hm
  exact h hash l' hl' i m (Option.filter_eq_some_iff.1 hm).1

/-- The commit vote that the cache adds of its own has the view of the configuration. -/
theorem enterPrecommit_purged {E : Env} {cfg : Config} {now : Int} {c : PBFTCache} {m : PBFTMessage} {p : PBFTProposal}
    (h : c.Purged cfg.view) : (c.enterPrecommit E cfg now m p).Purged cfg.view :=
  .of_fromView (touch_fromView h.prepare) (addCache_fromView h.commit (le_refl cfg.view))

end PBFTCache

/-- The step of a cache stores no vote from before the view of the configuration. -/
theorem CacheStep.purged {E : Env} {cfg : Config} {now i : Int} {l : Label} {c c' : PBFTCache}
    (h : CacheStep E cfg now l i c c') (hc : c.Purged cfg.view)
    (hl : ∀ m, l = .prepare m ∨ l = .commit m → cfg.view ≤ m.view) : c'.Purged cfg.view := by
  cases h with
  | same => exact hc
  | store m => exact hc.congr rfl rfl
  | vote m => exact .of_fromView (PBFTCache.addCache_fromView hc.prepare (le_refl cfg.view)) hc.commit
  | prepare m => exact .of_fromView (PBFTCache.addCache_fromView hc.prepare (hl m (Or.inl rfl))) hc.commit
  | commit m => exact .of_fromView hc.prepare (PBFTCache.addCache_fromView hc.commit (hl m (Or.inr rfl)))
  | checkPoint own m => exact hc.congr rfl rfl
  | preCommit =>
    rcases c.checkAndPreCommit_cases E cfg now with heq | ⟨m, p, -, -, -, -, -, heq⟩
    · rw [heq]
      exact hc
    · rw [heq]
      rcases (c.enterPrecommit E cfg now m p).checkAndCommit_cases cfg with heq' | ⟨heq', -⟩
      · rw [heq']
        exact PBFTCache.enterPrecommit_purged hc
      · rw [heq']
        exact (PBFTCache.enterPrecommit_purged hc).congr rfl rfl
  | submit =>
    rcases c.checkAndCommit_cases cfg with heq | ⟨heq, -⟩
    · rw [heq]
      exact hc
    · rw [heq]
      exact hc.congr rfl rfl
  | reset v =>
    exact .of_fromView (PBFTCache.resetCacheAfterViewChange_fromView hc.prepare)
      (PBFTCache.resetCacheAfterViewChange_fromView hc.commit)
  | stable =>
    rcases c.checkAndCommitStableCheckPoint_cases cfg with heq | ⟨p, w, -, -, -, -, heq⟩
    · rw [heq]
      exact hc
    · rw [heq]
      exact hc.congr rfl rfl
  | reencode => exact hc.congr rfl rfl
  | setCheckPoint p =>
    unfold PBFTCache.setCheckPointProposal
    split_ifs
    · exact hc
    · exact hc
    · exact hc.congr rfl rfl

/-- No cached vote is from before the view of the node. -/
def Node.Fresh (s : Node) : Prop := ∀ i c, s.caches.find? i = some c → c.Purged s.cfg.view

theorem Node.checkPBFTMsgState_view {s : Node} {m : PBFTMessage} (h : s.checkPBFTMsgState m = true) :
    s.cfg.view ≤ m.view := by
  unfold checkPBFTMsgState at h
  split at h
  · cases h
  split at h
  · cases h
  split at h
  · cases h
  · rename_i hview
    exact not_lt.1 hview

theorem Node.checkPBFTMsg_view {E : Env} {s : Node} {m : PBFTMessage} (h : s.checkPBFTMsg E m = true) :
    s.cfg.view ≤ m.view := by
  unfold checkPBFTMsg at h
  split at h
  · cases h
  · rename_i hstate
    exact checkPBFTMsgState_view (by simpa using hstate)

/-- Only a step into a new view changes the view. -/
theorem CfgStep.view_eq {E : Env} {l : Label} {c c' : Config} (h : CfgStep E l c c') (hl : l ≠ .view) :
    c'.view = c.view := by
  cases h with
  | same _ h => exact h.view
  | mode => rfl
  | aim => rfl
  | view _ hv => exact absurd rfl hl
  | expect _ i => rfl
  | lowMark _ h => rfl
  | ledger _ h => rfl
  | reseal => rfl
  | nodes h =>
    obtain ⟨_, _, _, _, _, _, _, rfl⟩ := Config.setConsensusNodeList_frame h
    rfl

theorem Prim.fresh {E : Env} {l : Label} {s t : Node} (h : Prim E l s t) (hs : s.Fresh) : t.Fresh := by
  by_cases hview : l = .view
  · subst hview
    cases h with
    | @view _ v hv hp =>
      intro i c hc
      have heq : (s.cfg.resetNewViewState v).view = v := by
        unfold Config.resetNewViewState
        rw [if_neg (not_lt.2 hv)]
      change c.Purged (s.cfg.resetNewViewState v).view
      rw [heq]
      exact hp i c hc
  · intro i c' hc'
    rw [h.cfgStep.view_eq hview]
    refine (h.cacheStep hc').purged ?_ (fun m hm => ?_)
    · cases hc : s.caches.find? i with
      | none => exact .of_fromView (fun _ _ hl => by cases hl) (fun _ _ hl => by cases hl)
      | some c => exact hs i c hc
    · rcases hm with rfl | rfl
      · cases h with
        | prepare _ hcheck => exact Node.checkPBFTMsg_view hcheck
      · cases h with
        | commit _ hcheck => exact Node.checkPBFTMsg_view hcheck

theorem Node.Fresh.steps {E : Env} {A : Label → Prop} {s t : Node} (h : Steps E A s t) (hs : s.Fresh) : t.Fresh :=
  Labelled.Steps.preserves (fun _ _ _ _ hp hs => hp.fresh hs) h hs

theorem initNode_fresh {E : Env} {keyPair : KeyPair} {l : LedgerConfig} {state : List PBFTProposal} {s₀ : Node}
    (hinit : initNode E keyPair l state = some s₀) : s₀.Fresh := by
  obtain ⟨s, hsteps, hs⟩ := initNode_steps (A := fun _ => True) trivial trivial trivial trivial (fun _ _ => trivial) hinit
  have hfresh : s.Fresh := by
    refine Node.Fresh.steps hsteps (fun i c hc => ?_)
    cases hc
  rcases hs with rfl | ⟨last, -, rfl⟩
  · exact hfresh
  · exact hfresh

theorem collectEnoughPrepareReq_view {cfg : Config} {c : PBFTCache} (h : c.collectEnoughPrepareReq cfg = true) :
    ∃ m, c.prePrepare = some m ∧ m.view = cfg.view := by
  unfold PBFTCache.collectEnoughPrepareReq PBFTCache.checkPrePrepareProposalStatus at h
  cases hm : c.prePrepare with
  | none => simp [hm] at h
  | some m =>
    simp only [hm, Bool.and_eq_true, decide_eq_true_eq] at h
    exact ⟨m, rfl, h.1⟩

/-- In every reachable state the cached prepare and commit votes are from the current view or a later one, and
whenever one of the two checks does something to a cache, it acts on a pre-prepare of exactly the current view. -/
theorem votes_current {E : Env} {keyPair : KeyPair} {l : LedgerConfig} {state : List PBFTProposal} {s₀ s : Node}
    (hinit : initNode E keyPair l state = some s₀) (hrun : Reachable E s₀ s) :
    (∀ i c, s.caches.find? i = some c → c.Purged s.cfg.view) ∧
      ∀ (c : PBFTCache) (cfg : Config) (now : Int),
        ((c.checkAndPreCommit E cfg now ≠ (c, false, []) ∨ (c.checkAndCommit cfg).2 = true) →
          ∃ m, c.prePrepare = some m ∧ m.view = cfg.view) := by
  have hfresh : s.Fresh := by
    induction hrun with
    | refl => exact initNode_fresh hinit
    | step e _ hstep ih => exact ih.steps (step_steps hstep)
  refine ⟨hfresh, fun c cfg now hact => ?_⟩
  rcases hact with hpre | hcommit
  · rcases c.checkAndPreCommit_cases E cfg now with heq | ⟨m, p, -, -, -, -, henough, -⟩
    · exact absurd heq hpre
    · exact collectEnoughPrepareReq_view henough
  · rcases c.checkAndCommit_cases cfg with heq | ⟨-, -, m, w, hm, hview, -⟩
    · rw [heq] at hcommit
      cases hcommit
    · exact ⟨m, hm, hview⟩

def toyVoted : Option Node :=
  [Event.submitProposal false [1, 7] 1 (Toy.checksum [1, 7]), .proposalSubmitted 0, .timeout].foldlM (step Toy.env)
    (Toy.node 1 [1, 1, 1, 1])

theorem toyVoted_current : ∃ s c l m, toyVoted = some s ∧ s.caches.find? 1 = some c ∧
    c.prepareCacheList.find? (Toy.checksum [1, 7]) = some l ∧ l.find? 1 = some m ∧ s.cfg.view ≤ m.view := by
  have hinit : initNode Toy.env (Toy.keyPair 1)
      { blockNumber := 0, hash := zeroHash, consensusNodeList := Toy.nodes [1, 1, 1, 1] } [] =
        some (Toy.node 1 [1, 1, 1, 1]) := by decide +kernel
  obtain ⟨s, hs⟩ : ∃ s, toyVoted = some s := Option.isSome_iff_exists.1 (by decide +kernel)
  have hvote : (toyVoted.elim false fun s => (((s.caches.find? 1).bind fun c =>
      c.prepareCacheList.find? (Toy.checksum [1, 7])).bind fun l => l.find? 1).isSome) = true := by decide +kernel
  simp only [hs, Option.elim_some] at hvote
  obtain ⟨m, hm⟩ := Option.isSome_iff_exists.1 hvote
  obtain ⟨l, hl, hm⟩ := Option.bind_eq_some_iff.1 hm
  obtain ⟨c, hc, hl⟩ := Option.bind_eq_some_iff.1 hl
  have hrun : Reachable Toy.env (Toy.node 1 [1, 1, 1, 1]) s := by
    rw [toyVoted, List.foldlM_cons] at hs
    obtain ⟨u, hu, hs⟩ := Option.bind_eq_some_iff.1 hs
    rw [List.foldlM_cons] at hs
    obtain ⟨v, hv, hs⟩ := Option.bind_eq_some_iff.1 hs
    rw [List.foldlM_cons] at hs
    obtain ⟨x, hx, hs⟩ := Option.bind_eq_some_iff.1 hs
    obtain rfl : x = s := by simpa using hs
    exact .step _ (.step _ (.step _ .refl hu) hv) hx
  exact ⟨s, c, l, m, hs, hc, hl, hm, (votes_current hinit hrun).1 1 c hc _ (Or.inl rfl) _ l hl 1 m hm⟩

end BcosPbft
