import BcosPbft.Lib.Trail
import BcosPbft.Proofs.Turns
import BcosPbft.Proofs.Views
import BcosPbft.Proofs.Voting

/-! Sealed transactions that go back to the pool. A proposal that a node gives up is a refused submission, an entry of a
queue that a synced block clears, or a pre-prepare that a new view or another pre-prepare puts aside; each of them has to
be handed back to the pool in the step that gives it up. -/

namespace BcosPbft

def Action.flagOf (data : Bytes) : Action → Option Bool
  | .asyncResetTxsFlag d flag => if d = data then some flag else none
  | _ => none

namespace Node

/-- The last flag that the node asked the pool to set for the transactions of a block is `true`. -/
def marked (s : Node) (data : Bytes) : Bool := (s.log.filterMap (Action.flagOf data)).getLast? = some true

/-- The transactions of a block are handed back on the way to `t`. -/
def Released (s t : Node) (data : Bytes) : Prop := ∃ k, t.log = s.log ++ k ∧ .asyncResetTxsFlag data false ∈ k

def invalidIndex (s : Node) (index : Int) : Bool :=
  s.cfg.syncingHighestNumber < index &&
    (index ≤ s.cfg.committedIndex || index < s.cfg.expectedCheckPoint || index < s.cfg.lowWaterMark)

def Stores (s : Node) (i : Int) (r : RawProposal) : Prop :=
  ∃ c m, s.caches.find? i = some c ∧ c.prePrepare = some m ∧ m.consensusProposal.map PBFTProposal.proposal = some r

/-- A pre-prepare of the view is stored with this proposal, without a precommit. -/
def Pending (s : Node) (i : Int) (v : ViewType) (r : RawProposal) : Prop :=
  ∃ c m, s.caches.find? i = some c ∧ c.prePrepare = some m ∧ c.precommit = none ∧ m.view = v ∧
    m.consensusProposal.map PBFTProposal.proposal = some r

instance (s : Node) (i : Int) (r : RawProposal) : Decidable (s.Stores i r) :=
  decidable_of_iff ((s.caches.find? i).any (fun c => c.prePrepare.any fun m =>
      m.consensusProposal.map PBFTProposal.proposal = some r) = true) (by simp [Stores, Option.any_eq_true])

instance (s : Node) (i : Int) (v : ViewType) (r : RawProposal) : Decidable (s.Pending i v r) :=
  decidable_of_iff ((s.caches.find? i).any (fun c => c.prePrepare.any fun m => c.precommit = none && m.view = v &&
      m.consensusProposal.map PBFTProposal.proposal = some r) = true) (by simp [Pending, Option.any_eq_true, and_assoc])

end Node

def PBFTCache.executedData (c : PBFTCache) : Option Bytes :=
  match c.precommit.bind (·.consensusProposal) with
  | some p => some p.data
  | none => c.checkpointProposal.map (·.proposal.extraData)

def Event.submission : Event → Option (Bytes × Int)
  | .submitProposal _ data index _ => some (data, index)
  | _ => none

/-- The local block whose pre-prepare is turned down under the lock. -/
def Event.declined (s : Node) : Event → Option SealedBlock
  | .proposalSubmitted i => (s.submitting[i]?).filter fun b => !s.accepts b.prePrepare false
  | _ => none

def Event.synced (E : Env) (s : Node) : Event → Option Node
  | .newBlock l =>
    if s.newBlocks.contains l then { s with newBlocks := s.newBlocks.erase l }.finalizeConsensus E l false else none
  | _ => none

/-- The blocks of the proposals that a step from `s` to `t` gives up while their transactions are marked as sealed. -/
inductive Discards (E : Env) (s : Node) (e : Event) (t : Node) : Bytes → Prop
  | refused {sys : Bool} {data : Bytes} {index : Int} {hash : HashType} (he : e = .submitProposal sys data index hash)
      (hdata : data ≠ []) (h : s.admits data index = false) : Discards E s e t data
  | declined {b : SealedBlock} (hb : e.declined s = some b) : Discards E s e t b.data
  | queued {w : Node} {p : PBFTProposal} (hw : e.synced E s = some w) (hp : p ∈ w.committedQueue)
      (hindex : w.cfg.committedIndex < p.index) (hmarked : w.marked p.data = true) : Discards E s e t p.data
  | executed {w : Node} {x : Int × PBFTCache} {data : Bytes} (hw : e.synced E s = some w) (hx : x ∈ w.futureCaches)
      (hindex : w.cfg.committedIndex < x.2.index) (hdata : x.2.executedData = some data) (hmarked : w.marked data = true) :
      Discards E s e t data
  | outdated {i : Int} {v : ViewType} {r : RawProposal} (h : t.Pending i v r) (hold : s.cfg.view ≤ v)
      (hnew : v < t.cfg.view) : Discards E s e t r.data
  | replaced {i : Int} {v : ViewType} {r r' : RawProposal} (h : s.Pending i v r) (h' : t.Stores i r')
      (hhash : toHash r'.hash ≠ toHash r.hash) (hmarked : s.marked r.data = true) : Discards E s e t r.data

/-- `removeFutureProposals` clears an entry above the committed index that is marked. -/
def Node.clearsMarked (w : Node) : Bool :=
  w.committedQueue.any (fun p => w.cfg.committedIndex < p.index && w.marked p.data) ||
    w.futureCaches.any (fun x => w.cfg.committedIndex < x.2.index && x.2.executedData.any w.marked)

/-- `addPrePrepareCache` puts the pre-prepare in the place of a marked one with another hash that is not precommitted. -/
def Node.replacesMarked (s : Node) (m : PBFTMessage) : Bool :=
  (s.caches.find? m.index).any fun c => c.precommit.isNone && c.acceptsPrePrepare m &&
    (c.prePrepare.bind (·.consensusProposal)).any fun p =>
      s.marked p.data && m.consensusProposal.map PBFTProposal.hash ≠ some p.hash

/-- The event takes a branch that gives a proposal up without a word to the pool. -/
def Event.forgets (E : Env) (s : Node) (e : Event) : Bool :=
  e.submission.any (fun x => x.1 ≠ [] && s.invalidIndex x.2) ||
    (e.declined s).any (fun b => b.nodeIndex ≠ s.cfg.nodeIndex) || (e.synced E s).any Node.clearsMarked ||
    (e.offers s).any s.replacesMarked

variable {E : Env} {s t u v : Node} {i : Int} {data : Bytes} {r r' : RawProposal}

namespace Node

theorem Released.mono (h : Released u v data) (hs : s.log <+: u.log) (ht : v.log <+: t.log) : Released s t data := by
  obtain ⟨k, hk, hmem⟩ := h
  obtain ⟨k₁, hk₁⟩ := hs
  obtain ⟨k₂, hk₂⟩ := ht
  refine ⟨k₁ ++ k ++ k₂, ?_, List.mem_append_left k₂ (List.mem_append_right k₁ hmem)⟩
  rw [← hk₂, hk, ← hk₁]
  simp only [List.append_assoc]

theorem resetSealing_released (E : Env) (s : Node) (c : Option Int) (data : Bytes) :
    Released s ((s.notifyResetSealing c).asyncResetTxsFlag E data false) data := by
  obtain ⟨k, hk, -⟩ := (notifyResetSealing_quiet s c).log
  refine ⟨k ++ [.asyncResetTxsFlag data false], ?_, List.mem_append_right k (List.mem_singleton_self _)⟩
  rw [← List.append_assoc, ← hk]
  rfl

theorem onRecvProposal_released {sys : Bool} {index : Int} {hash : HashType} (hdata : data ≠ [])
    (hrefuses : s.admits data index = false) (hindex : s.invalidIndex index = false) :
    Released s (s.onRecvProposal E sys data index hash) data := by
  rcases s.onRecvProposal_cases E sys data index hash with ⟨hadmits, -⟩ | ⟨-, ⟨c, heq⟩ | ⟨hdropped, -⟩⟩
  · rw [hrefuses] at hadmits
    cases hadmits
  · rw [heq]
    exact resetSealing_released E s c data
  · exfalso
    obtain ⟨hsync, hover⟩ := hdropped.resolve_left hdata
    simp only [invalidIndex, Bool.and_eq_false_iff, Bool.or_eq_false_iff, decide_eq_false_iff_not] at hindex
    omega

/-- A block that is turned down under the lock is handed back, if the node still has the index it was made with. -/
theorem submitPrePrepare_released {b : SealedBlock} (hdeclined : s.accepts b.prePrepare false = false)
    (hnode : b.nodeIndex = s.cfg.nodeIndex) : Released s (s.submitPrePrepare E b.prePrepare) b.data := by
  have hreset : s.resetSealedTxs E b.prePrepare = (s.notifyResetSealing none).asyncResetTxsFlag E b.data false := by
    unfold resetSealedTxs
    exact if_neg (not_not.2 hnode)
  unfold submitPrePrepare
  rw [handlePrePrepareMsg_declined hdeclined]
  dsimp only
  rw [if_neg Bool.false_ne_true, hreset]
  exact resetSealing_released E s none b.data

end Node

theorem PBFTCache.Keeps.stored {c c' : PBFTCache} (h : c.Keeps c') {m' : PBFTMessage} (hm' : c'.prePrepare = some m') :
    ∃ m, c.prePrepare = some m ∧ m'.view = m.view ∧
      m'.consensusProposal.map PBFTProposal.proposal = m.consensusProposal.map PBFTProposal.proposal ∧
      (c'.precommit = none → c.precommit = none) := by
  obtain ⟨m, hm, hbase, hproposal⟩ := h.prePrepare_eq hm'
  refine ⟨m, hm, congrArg BaseMessage.view hbase, by rw [hproposal], fun hnone => ?_⟩
  have hprecommit := h.precommit
  rw [hnone, Option.map_none] at hprecommit
  exact Option.map_eq_none_iff.1 hprecommit.symm

theorem CacheStep.stored {cfg : Config} {now : Int} {l : Label} {c c' : PBFTCache} (h : CacheStep E cfg now l i c c')
    {m' : PBFTMessage} (hm' : c'.prePrepare = some m') : l = .store m' ∨
    ∃ m, c.prePrepare = some m ∧ m'.view = m.view ∧
      m'.consensusProposal.map PBFTProposal.proposal = m.consensusProposal.map PBFTProposal.proposal ∧
      (c'.precommit = none → c.precommit = none) := by
  by_cases hkeeping : l.keeping = true
  · exact Or.inr ((h.keeps hkeeping).stored hm')
  · cases h with
    | same => exact Or.inr ⟨m', hm', rfl, rfl, id⟩
    | store m _ _ =>
      obtain rfl := Option.some.inj hm'
      exact Or.inl rfl
    | submit => exact Or.inr ((c.checkAndCommit_keeps cfg).stored hm')
    | preCommit =>
      rcases c.checkAndPreCommit_cases E cfg now with heq | ⟨m, p, hm, hp, -, -, -, heq⟩
      · rw [heq] at hm' ⊢
        exact Or.inr ⟨m', hm', rfl, rfl, id⟩
      · rw [heq] at hm' ⊢
        -- the pre-prepare and the precommit become the same object
        obtain ⟨m₁, hm₁, hview, hproposal, hprecommit⟩ := (PBFTCache.checkAndCommit_keeps cfg _).stored hm'
        rw [PBFTCache.enterPrecommit_prePrepare] at hm₁
        obtain rfl := Option.some.inj hm₁
        refine Or.inr ⟨m, hm, hview, ?_, fun hnone => ?_⟩
        · rw [hproposal, hp]
          exact congrArg some (setSignatureList_proposal p _)
        · have hnot := hprecommit hnone
          rw [PBFTCache.enterPrecommit_precommit] at hnot
          cases hnot
    | _ => exact absurd rfl hkeeping

theorem Prim.prePrepare_cases {l : Label} (h : Prim E l s t) {c' : PBFTCache} {m' : PBFTMessage}
    (hc' : t.caches.find? i = some c') (hm' : c'.prePrepare = some m') :
    (l = .store m' ∧ s.checkPrePrepareMsg m' = true) ∨
    ∃ c m, s.caches.find? i = some c ∧ c.prePrepare = some m ∧ m'.view = m.view ∧
      m'.consensusProposal.map PBFTProposal.proposal = m.consensusProposal.map PBFTProposal.proposal ∧
      (c'.precommit = none → c.precommit = none) := by
  rcases (h.cacheStep hc').stored hm' with rfl | ⟨m, hm, hrest⟩
  · cases h with
    | store _ h => exact Or.inl ⟨rfl, h⟩
  · cases hc : s.caches.find? i with
    | none =>
      rw [hc] at hm
      cases hm
    | some c =>
      rw [hc] at hm hrest
      exact Or.inr ⟨c, m, rfl, hm, hrest⟩

def Label.storeless (l : Label) : Prop := ∀ m, l ≠ .store m

theorem Label.storeless_open : Open Label.storeless := by
  intro l hl m heq
  subst heq
  cases hl

theorem Prim.stores {l : Label} (h : Prim E l s t) (hl : l.storeless) (ht : t.Stores i r) : s.Stores i r := by
  obtain ⟨c', m', hc', hm', hr⟩ := ht
  rcases h.prePrepare_cases hc' hm' with ⟨hstore, -⟩ | ⟨c, m, hc, hm, -, hproposal, -⟩
  · exact absurd hstore (hl m')
  · exact ⟨c, m, hc, hm, by rw [← hproposal, hr]⟩

theorem Steps.stores (h : Steps E Label.storeless s t) (ht : t.Stores i r) : s.Stores i r := by
  refine h.preserves (I := fun u => u.Stores i r → s.Stores i r) (fun l u v hl hp hu hv => ?_) id ht
  exact hu (hp.stores hl hv)

theorem Quiet.stores (h : Quiet s t) (ht : t.Stores i r) : s.Stores i r := by
  obtain ⟨c, m, hc, hrest⟩ := ht
  exact ⟨c, m, (congrArg (OrdMap.find? · i) (congrArg Core.caches h.core)).symm.trans hc, hrest⟩

/-- A pre-prepare is not stored when its view is below that of the node. -/
theorem Prim.pending {l : Label} (h : Prim E l s t) {view : ViewType} (ht : t.Pending i view r) :
    s.Pending i view r ∨ (∃ m, l = .store m) ∧ s.cfg.view ≤ view := by
  obtain ⟨c', m', hc', hm', hnone, rfl, hr⟩ := ht
  rcases h.prePrepare_cases hc' hm' with ⟨hstore, hcheck⟩ | ⟨c, m, hc, hm, hview, hproposal, hprecommit⟩
  · exact Or.inr ⟨⟨m', hstore⟩, Node.checkPBFTMsgState_view (Locks.checkPrePrepareMsg_spec hcheck).1⟩
  · exact Or.inl ⟨c, m, hc, hm, hprecommit hnone, hview.symm, by rw [← hproposal, hr]⟩

namespace Node

theorem resetCacheAt_pending (E : Env) {w view : ViewType} {j : Int} (h : (resetCacheAt w s j).Pending i view r) :
    s.Pending i view r := by
  rcases (Prim.reset (E := E) s w j).pending h with h | ⟨⟨m, hm⟩, -⟩
  · exact h
  · cases hm

theorem resetCacheAt_released {w view : ViewType} (h : s.Pending i view r) (hview : view < w) :
    Released s (resetCacheAt w s i) r.data := by
  obtain ⟨c, m, hc, hm, hnone, rfl, hr⟩ := h
  obtain ⟨p, hp, rfl⟩ := Option.map_eq_some_iff.1 hr
  unfold resetCacheAt
  rw [hc]
  refine ⟨(c.resetCache s.cfg w).2, rfl, ?_⟩
  simp only [PBFTCache.resetCache, hm, hnone, hp, if_pos hview]
  exact List.mem_singleton.2 rfl

theorem resetCacheAt_fold_pending (E : Env) {w view : ViewType} (l : List Int)
    (h : (l.foldl (resetCacheAt w) s).Pending i view r) : s.Pending i view r := by
  induction l generalizing s with
  | nil => exact h
  | cons j l ih => exact resetCacheAt_pending E (ih h)

theorem resetCacheAt_fold_log (E : Env) (w : ViewType) (l : List Int) (s : Node) :
    s.log <+: (l.foldl (resetCacheAt w) s).log :=
  log_prefix_steps (E := E) (A := fun _ => True) (.foldl (fun u j => .single trivial (.reset u w j)) l s)

/-- The loop of `resetCacheAfterViewChange` hands every pre-prepare of an earlier view back that is still there. -/
theorem resetCacheAt_fold_released (E : Env) {w view : ViewType} {l : List Int} (hi : i ∈ l)
    (h : (l.foldl (resetCacheAt w) s).Pending i view r) (hview : view < w) :
    Released s (l.foldl (resetCacheAt w) s) r.data := by
  induction l generalizing s with
  | nil => cases hi
  | cons j l ih =>
    by_cases hj : i = j
    · subst hj
      have hpending : s.Pending i view r := resetCacheAt_pending E (resetCacheAt_fold_pending E l h)
      exact (resetCacheAt_released hpending hview).mono List.prefix_rfl (resetCacheAt_fold_log E w l _)
    · have hreset : s.log <+: (resetCacheAt w s j).log := resetCacheAt_fold_log E w [j] s
      exact (ih ((List.mem_cons.1 hi).resolve_left hj) h).mono hreset List.prefix_rfl

end Node

structure HandsBack (s t : Node) : Prop where
  log : s.log <+: t.log
  view : s.cfg.view ≤ t.cfg.view
  released : ∀ i view r, t.Pending i view r → s.cfg.view ≤ view → view < t.cfg.view → Node.Released s t r.data

namespace HandsBack

theorem refl (s : Node) : HandsBack s s :=
  ⟨List.prefix_rfl, le_rfl, fun _ _ _ _ hold hnew => absurd hnew (not_lt.2 hold)⟩

theorem prim {l : Label} (h : HandsBack s u) (hl : l ≠ .view) (hp : Prim E l u v) : HandsBack s v := by
  have hsame : v.cfg.view = u.cfg.view := hp.cfgStep.view_eq hl
  obtain ⟨k, hk, -⟩ := hp.log
  have hlog : u.log <+: v.log := ⟨k, hk.symm⟩
  refine ⟨h.log.trans hlog, by rw [hsame]; exact h.view, fun i view r hpending hold hnew => ?_⟩
  rw [hsame] at hnew
  rcases hp.pending hpending with hpending | ⟨-, hle⟩
  · exact (h.released i view r hpending hold hnew).mono List.prefix_rfl hlog
  · exact absurd hnew (not_lt.2 hle)

theorem enterView (E : Env) (h : HandsBack s u) {view w : ViewType} (hw : u.cfg.view ≤ view → w = view) (i : Int) :
    HandsBack s ((u.setCfg (u.cfg.resetNewViewState view)).resetCacheAfterViewChange w i) := by
  have hlog : u.log <+: ((u.setCfg (u.cfg.resetNewViewState view)).resetCacheAfterViewChange w i).log :=
    Node.log_prefix_steps (Node.enterView_steps (E := E) (A := fun _ => True) u (fun _ _ => trivial) hw i)
  have hcfg : ((u.setCfg (u.cfg.resetNewViewState view)).resetCacheAfterViewChange w i).cfg =
      u.cfg.resetNewViewState view :=
    Node.resetCacheAt_fold_cfg (u.setCfg (u.cfg.resetNewViewState view)) w _
  have hpending : ∀ {j : Int} {x : ViewType} {r : RawProposal},
      ((u.setCfg (u.cfg.resetNewViewState view)).resetCacheAfterViewChange w i).Pending j x r →
      (u.caches.keys.foldl (Node.resetCacheAt w) (u.setCfg (u.cfg.resetNewViewState view))).Pending j x r := fun h => h
  have hfold : (u.caches.keys.foldl (Node.resetCacheAt w) (u.setCfg (u.cfg.resetNewViewState view))).log <+:
      ((u.setCfg (u.cfg.resetNewViewState view)).resetCacheAfterViewChange w i).log :=
    ⟨_, (List.append_assoc _ _ _).symm⟩
  by_cases hle : u.cfg.view ≤ view
  · obtain rfl := hw hle
    have hview : (u.cfg.resetNewViewState w).view = w := by
      unfold Config.resetNewViewState
      rw [if_neg (not_lt.2 hle)]
    refine ⟨h.log.trans hlog, ?_, fun j x r hj hold hnew => ?_⟩
    · rw [hcfg, hview]
      exact h.view.trans hle
    · rw [hcfg, hview] at hnew
      obtain ⟨c, m, hc, -⟩ := Node.resetCacheAt_fold_pending E _ (hpending hj)
      exact (Node.resetCacheAt_fold_released E (OrdMap.mem_keys.2 ⟨c, hc⟩) (hpending hj) hnew).mono h.log hfold
  · have hsame : u.cfg.resetNewViewState view = u.cfg := by
      unfold Config.resetNewViewState
      rw [if_pos (not_le.1 hle)]
    refine ⟨h.log.trans hlog, ?_, fun j x r hj hold hnew => ?_⟩
    · rw [hcfg, hsame]
      exact h.view
    · rw [hcfg, hsame] at hnew
      have hbefore := Node.resetCacheAt_fold_pending E _ (hpending hj)
      exact (h.released j x r hbefore hold hnew).mono List.prefix_rfl hlog

theorem turn (h : HandsBack s u) (hturn : Turn E u v) : HandsBack s v := by
  cases hturn with
  | prim hl hp => exact h.prim hl hp
  | reach _ view =>
    refine h.enterView E (fun hle => ?_) _
    simp only [Node.setCfg, Config.resetNewViewState]
    rw [if_neg (not_lt.2 hle)]
  | recover =>
    unfold Node.checkAndTryToRecover
    dsimp only
    generalize u.recoverCacheWeight.entries.foldl _ (0 : ViewType) = recovered
    split_ifs
    · exact h
    · have hentered := h.enterView E (fun _ : u.cfg.view ≤ recovered => rfl)
        (u.setCfg (u.cfg.resetNewViewState recovered)).cfg.committedIndex
      exact ⟨hentered.log, hentered.view, hentered.released⟩

theorem step {e : Event} (h : step E s e = some t) : HandsBack s t := by
  have hturns := step_turns h
  clear h
  induction hturns with
  | refl => exact .refl s
  | tail _ hturn ih => exact ih.turn hturn

end HandsBack

namespace Node

theorem addPrepareCache_stores {m : PBFTMessage} (h : (s.addPrepareCache m).Stores i r) : s.Stores i r := by
  obtain ⟨c', m', hc', hm', hr⟩ := h
  change (s.caches.insert m.index _).find? i = some c' at hc'
  rw [OrdMap.find?_insert] at hc'
  split_ifs at hc' with hi
  · subst hi
    obtain rfl := Option.some.inj hc'
    cases hc : s.caches.find? m.index with
    | none =>
      rw [hc] at hm'
      cases hm'
    | some c =>
      rw [hc] at hm'
      exact ⟨c, m', hc, hm', hr⟩
  · exact ⟨c', m', hc', hm', hr⟩

theorem addPrePrepareCache_stores {m : PBFTMessage} (h : (s.addPrePrepareCache m).Stores i r) : s.Stores i r ∨
    m.index = i ∧ ((s.caches.find? i).getD { index := i }).acceptsPrePrepare m = true ∧
      m.consensusProposal.map PBFTProposal.proposal = some r := by
  obtain ⟨c', m', hc', hm', hr⟩ := h
  have hcaches : (s.addPrePrepareCache m).caches = (s.addCache m fun c => c.addPrePrepareCache m).caches := by
    unfold addPrePrepareCache notifyMaxProposalIndex
    split_ifs <;> rfl
  rw [hcaches] at hc'
  change (s.caches.insert m.index _).find? i = some c' at hc'
  rw [OrdMap.find?_insert] at hc'
  split_ifs at hc' with hi
  · subst hi
    obtain rfl := Option.some.inj hc'
    unfold PBFTCache.addPrePrepareCache at hm'
    dsimp only at hm'
    split_ifs at hm' with haccepts
    · obtain rfl := Option.some.inj hm'
      exact Or.inr ⟨rfl, haccepts, hr⟩
    · left
      cases hc : s.caches.find? m.index with
      | none =>
        rw [hc] at hm'
        cases hm'
      | some c =>
        rw [hc] at hm'
        exact ⟨c, m', hc, hm', hr⟩
  · exact Or.inl ⟨c', m', hc', hm', hr⟩

theorem handlePrePrepareMsg_stores {m : PBFTMessage} {newView : Bool}
    (h : (s.handlePrePrepareMsg E m false newView false).1.Stores i r) : s.Stores i r ∨
    s.accepts m newView = true ∧ m.index = i ∧ ((s.caches.find? i).getD { index := i }).acceptsPrePrepare m = true ∧
      m.consensusProposal.map PBFTProposal.proposal = some r := by
  by_cases haccepts : s.accepts m newView = true
  · obtain ⟨w, heq, hcaches, -⟩ := handlePrePrepareMsg_polls (E := E) haccepts
    rw [heq] at h
    have hpolls : ∀ x : Node, Steps E Label.storeless x (x.checkAndPreCommit E) := fun x =>
      checkAndPreCommit_steps x Label.storeless_open fun _ => Label.noConfusion
    have hw : w.Stores i r := Steps.stores ((hpolls w).trans (hpolls _)) h
    have hsupporting : (s.supporting E m).Stores i r := by
      unfold Stores at hw ⊢
      rwa [hcaches] at hw
    rcases addPrePrepareCache_stores (addPrepareCache_stores hsupporting) with hs | hm
    · exact Or.inl hs
    · exact Or.inr ⟨haccepts, hm⟩
  · rw [handlePrePrepareMsg_declined (by simpa using haccepts)] at h
    exact Or.inl h

/-- What is accepted or stored is read from a part of the state that the flags of transactions do not touch. -/
theorem asyncResetTxsFlag_accepts (E : Env) (s : Node) (data : Bytes) (m : PBFTMessage) (newView : Bool) :
    (s.asyncResetTxsFlag E data true).accepts m newView = s.accepts m newView := by
  obtain ⟨hcaches, hcfg, -, hexec⟩ := asyncResetTxsFlag_kept E s data
  unfold accepts isSyncingHigher
  rw [checkPrePrepareMsg_congr hcfg hcaches, hcfg, hexec]

theorem onProposalVerified_stores {m : PBFTMessage} {newView : Bool} {outcome : VerifyOutcome}
    (h : (s.onProposalVerified E m newView outcome).Stores i r) : s.Stores i r ∨
    outcome = .result true ∧ s.cfg.committedIndex < m.index ∧ s.accepts m newView = true ∧ m.index = i ∧
      ((s.caches.find? i).getD { index := i }).acceptsPrePrepare m = true ∧
      m.consensusProposal.map PBFTProposal.proposal = some r := by
  unfold onProposalVerified at h
  split at h
  · exact Or.inl h
  rename_i hindex
  dsimp only at h
  have hcaches := (asyncResetTxsFlag_kept E s (m.consensusProposal.getD {}).data).1
  have hmark := asyncResetTxsFlag_quiet (E := E) s (m.consensusProposal.getD {}).data true
  split at h
  · rename_i hok
    rcases handlePrePrepareMsg_stores h with hs | ⟨haccepts, hi, hcache, hr⟩
    · exact Or.inl (hmark.stores hs)
    · rw [asyncResetTxsFlag_accepts] at haccepts
      rw [hcaches] at hcache
      exact Or.inr ⟨hok, not_le.1 hindex, haccepts, hi, hcache, hr⟩
  · exact Or.inl ((hmark.trans (notifySealer_quiet _ _ true)).stores h)

theorem submitPrePrepare_stores {m : PBFTMessage} (htype : m.packetType = .PrePreparePacket)
    (h : (s.submitPrePrepare E m).Stores i r) : s.Stores i r ∨
    s.accepts m false = true ∧ m.index = i ∧ ((s.caches.find? i).getD { index := i }).acceptsPrePrepare m = true ∧
      m.consensusProposal.map PBFTProposal.proposal = some r := by
  unfold submitPrePrepare at h
  dsimp only at h
  refine handlePrePrepareMsg_stores (E := E) ?_
  split_ifs at h
  · exact Steps.stores (broadcastPrePrepare_steps _ Label.storeless_open (fun _ => Label.noConfusion) htype _) h
  · exact (resetSealedTxs_quiet _ m).stores h

end Node

/-- The pre-prepare of a cache changes in a step only when the event offers one that the cache takes. -/
theorem step_stores {e : Event} (h : step E s e = some t) (ht : t.Stores i r) : s.Stores i r ∨
    ∃ m, e.offers s = some m ∧ m.index = i ∧ ((s.caches.find? i).getD { index := i }).acceptsPrePrepare m = true ∧
      m.consensusProposal.map PBFTProposal.proposal = some r := by
  by_cases hstores : e.stores s = none
  · left
    refine Steps.stores ((step_steps h).mono fun l hl m heq => ?_) ht
    subst heq
    have hm : e.stores s = some m := hl.1
    rw [hstores] at hm
    cases hm
  · cases e with
    | proposalSubmitted k =>
      simp only [step, answer] at h
      split at h
      · obtain rfl := Option.some.inj h
        exact Or.inl ht
      · rename_i b hb
        obtain rfl := Option.some.inj h
        rcases Node.submitPrePrepare_stores rfl ht with hs | ⟨haccepts, hi, hrest⟩
        · exact Or.inl hs
        · have hsame : s.accepts b.prePrepare false = true := haccepts
          exact Or.inr ⟨b.prePrepare, by simp [Event.offers, hb, hsame], hi, hrest⟩
    | proposalVerified k outcome =>
      simp only [step, answer] at h
      split at h
      · obtain rfl := Option.some.inj h
        exact Or.inl ht
      · rename_i c hc
        obtain rfl := Option.some.inj h
        rcases Node.onProposalVerified_stores ht with hs | ⟨rfl, hindex, haccepts, hi, hrest⟩
        · exact Or.inl hs
        · refine Or.inr ⟨c.1, ?_, hi, hrest⟩
          have hsame : s.accepts c.1 c.2 = true := haccepts
          have hlt : s.cfg.committedIndex < c.1.index := hindex
          simp [Event.offers, hc, hsame, hlt]
    | _ => exact absurd rfl hstores

theorem Event.forgets_eq_false {e : Event} : e.forgets E s = false ↔
    (∀ x ∈ e.submission, x.1 ≠ [] → s.invalidIndex x.2 = false) ∧ (∀ b ∈ e.declined s, b.nodeIndex = s.cfg.nodeIndex) ∧
      (∀ w ∈ e.synced E s, w.clearsMarked = false) ∧ ∀ m ∈ e.offers s, s.replacesMarked m = false := by
  unfold forgets
  simp [Option.any_eq_false, and_assoc]

/-- Where none of the four branches is taken, a step hands back what it gives up. -/
theorem step_released {e : Event} (h : step E s e = some t) (hforgets : e.forgets E s = false)
    (hdiscards : Discards E s e t data) : Node.Released s t data := by
  obtain ⟨hsubmitted, hsame, hcleared, hreplaced⟩ := Event.forgets_eq_false.1 hforgets
  cases hdiscards with
  | refused he hdata hrefuses =>
    subst he
    obtain rfl := Option.some.inj h
    exact Node.onRecvProposal_released hdata hrefuses (hsubmitted _ rfl hdata)
  | @declined b hb =>
    cases e with
    | proposalSubmitted k =>
      obtain ⟨hget, hdeclined⟩ := Option.filter_eq_some_iff.1 hb
      have hturned : s.accepts b.prePrepare false = false := by simpa using hdeclined
      simp only [step, answer, hget] at h
      obtain rfl := Option.some.inj h
      exact Node.submitPrePrepare_released (s := { s with submitting := s.submitting.eraseIdx k }) hturned (hsame b hb)
    | _ => cases hb
  | queued hw hp hindex hmarked =>
    exfalso
    have hnone := hcleared _ hw
    simp only [Node.clearsMarked, Bool.or_eq_false_iff, List.any_eq_false] at hnone
    exact hnone.1 _ hp (by simp [hindex, hmarked])
  | executed hw hx hindex hdata hmarked =>
    exfalso
    have hnone := hcleared _ hw
    simp only [Node.clearsMarked, Bool.or_eq_false_iff, List.any_eq_false] at hnone
    exact hnone.2 _ hx (by simp [hindex, hdata, hmarked])
  | outdated hpending hold hnew => exact (HandsBack.step h).released _ _ _ hpending hold hnew
  | @replaced i view r r' hpending hstores hhash hmarked =>
    exfalso
    obtain ⟨c, m₀, hc, hm₀, hnone, -, hr⟩ := hpending
    obtain ⟨p, hp, rfl⟩ := Option.map_eq_some_iff.1 hr
    rcases step_stores h hstores with ⟨c', m', hc', hm', hr'⟩ | ⟨m, hoffers, rfl, haccepts, hr'⟩
    · -- the pre-prepare was stored before the step
      obtain rfl := Option.some.inj (hc.symm.trans hc')
      obtain rfl := Option.some.inj (hm₀.symm.trans hm')
      exact hhash (congrArg (fun x => toHash x.hash) (Option.some.inj (hr'.symm.trans hr)))
    · obtain ⟨q, hq, rfl⟩ := Option.map_eq_some_iff.1 hr'
      have hkept := hreplaced m hoffers
      rw [hc, Option.getD_some] at haccepts
      simp only [Node.replacesMarked, hc, Option.any_some, hnone, haccepts, hm₀, Option.bind_some, hp, hq] at hkept
      have hdata : s.marked p.data = true := hmarked
      have hsame : q.hash = p.hash := by simpa [hdata] using hkept
      exact hhash hsame

/-- In a run whose steps take none of the four branches, every step hands the transactions of each proposal back that it
gives up. -/
theorem discards_released {s₀ : Node} {trace : List (Node × Event)} (hrun : Trail (step E) s₀ trace s)
    (hforgets : ∀ x ∈ trace, x.2.forgets E x.1 = false) :
    ∀ x ∈ trace, ∃ t, step E x.1 x.2 = some t ∧ ∀ data, Discards E x.1 x.2 t data → Node.Released x.1 t data := by
  intro x hx
  obtain ⟨t, ht⟩ := hrun.step_of_mem hx
  exact ⟨t, ht, fun data hdiscards => step_released ht (hforgets x hx) hdiscards⟩

def toyRecoverResponse (b : UInt8) : Bytes :=
  (PBFTCodec.encode Toy.env (Toy.keyPair b) 0
    (.pbft { packetType := .RecoverResponse, base := { generatedFrom := .ofNat b.toNat, view := 1 } })).1

/-- Node 3 stores a block of node 1 in view 0, and its peers then tell it that they are in view 1. -/
def toyRecovering : List Event :=
  Toy.atOnce [.receive [1] (Toy.prePrepare 1 0 7) [], .worker, .proposalVerified 0 (.result true),
    .receive [0] (toyRecoverResponse 0) [], .worker, .receive [1] (toyRecoverResponse 1) [], .worker,
    .receive [2] (toyRecoverResponse 2) [], .worker]

theorem toyRecovering_released : ∃ trace s, Trail.states (step Toy.env) (Toy.node 3 [1, 1, 1, 1]) toyRecovering = some (trace, s) ∧
    s.cfg.view = 1 ∧ .asyncResetTxsFlag [1, 7] false ∈ s.log ∧ ∀ x ∈ trace, ∃ t, step Toy.env x.1 x.2 = some t ∧
      ∀ data, Discards Toy.env x.1 x.2 t data → Node.Released x.1 t data := by
  have hrun : ((Trail.states (step Toy.env) (Toy.node 3 [1, 1, 1, 1]) toyRecovering).elim false fun r =>
      decide (r.2.cfg.view = 1) && r.2.log.contains (.asyncResetTxsFlag [1, 7] false) &&
        r.1.all fun x => !x.2.forgets Toy.env x.1) = true := by
    decide +kernel
  obtain ⟨⟨trace, s⟩, hs, hcheck⟩ := Toy.exists_of_elim hrun
  simp only [Bool.and_eq_true, decide_eq_true_eq, List.contains_iff_mem, List.all_eq_true, Bool.not_eq_true'] at hcheck
  obtain ⟨⟨hview, hlog⟩, hforgets⟩ := hcheck
  exact ⟨trace, s, hs, hview, hlog, discards_released (.of_states hs) hforgets⟩

/-- After these events the node gives a block up in a step and does not hand it back. -/
def Strands (s₀ : Node) (l : List Event) (e : Event) (data : Bytes) : Prop :=
  ∃ trace s t, Trail.states (step Toy.env) s₀ l = some (trace, s) ∧ step Toy.env s e = some t ∧
    Discards Toy.env s e t data ∧ ¬Node.Released s t data

theorem strands_of_check {s₀ : Node} {l : List Event} {e : Event} (check : Node → Node → Bool)
    (hrun : ((Trail.states (step Toy.env) s₀ l).elim false fun r => (step Toy.env r.2 e).elim false fun t =>
      check r.2 t && !t.log.contains (.asyncResetTxsFlag data false)) = true)
    (hcheck : ∀ s t, check s t = true → Discards Toy.env s e t data) : Strands s₀ l e data := by
  obtain ⟨⟨trace, s⟩, hs, hstep⟩ := Toy.exists_of_elim hrun
  obtain ⟨t, ht, hlog⟩ := Toy.exists_of_elim hstep
  simp only [Bool.and_eq_true, Bool.not_eq_true', List.contains_eq_mem, decide_eq_false_iff_not] at hlog
  refine ⟨trace, s, t, hs, ht, hcheck s t hlog.1, ?_⟩
  rintro ⟨k, hk, hmem⟩
  apply hlog.2
  rw [hk]
  exact List.mem_append_right _ hmem

def toyLedger : LedgerConfig :=
  { blockNumber := 1, hash := Toy.checksum [1, 3], consensusNodeList := Toy.nodes [1, 1, 1, 1] }

def toyKept : PBFTProposal := { proposal := { index := 4, hash := (Toy.checksum [4, 7]).val, data := [4, 7] } }

def toyRestarted : Node :=
  (initNode Toy.env (Toy.keyPair 0)
    { blockNumber := 0, hash := zeroHash, consensusNodeList := Toy.nodes [1, 1, 1, 1] } [toyKept]).getD
    { cfg := { keyPair := Toy.keyPair 0 } }

/-- The sealer submits a block for the index that was just synced; a loaded proposal above the synced block is cleared from
the queue; a pre-prepare of the next view comes into the place of the one of this view. -/
theorem toyForgotten_stranded :
    Strands (Toy.node 0 [1, 1, 1, 1]) [.notifyNewBlock toyLedger, .newBlock toyLedger]
      (.submitProposal false [1, 7] 1 (Toy.checksum [1, 7])) [1, 7] ∧
    Strands toyRestarted [.proposalLoaded 0 (.result true), .notifyNewBlock toyLedger] (.newBlock toyLedger) [4, 7] ∧
    Strands (Toy.node 3 [1, 1, 1, 1]) (Toy.atOnce [.receive [1] (Toy.prePrepare 1 0 7) [], .worker,
      .proposalVerified 0 (.result true), .receive [1] (Toy.prePrepare 1 1 8) [], .worker])
      (.proposalVerified 0 (.result true)) [1, 7] := by
  refine ⟨strands_of_check (fun s _ => !s.admits [1, 7] 1) (by decide +kernel)
    fun s t h => .refused rfl (by decide) (by simpa using h), ?_, ?_⟩
  · refine strands_of_check (fun s _ => ((Event.newBlock toyLedger).synced Toy.env s).any fun w =>
      w.committedQueue.contains toyKept && decide (w.cfg.committedIndex < 4) && w.marked [4, 7]) (by decide +kernel)
      fun s t h => ?_
    obtain ⟨w, hw, h⟩ := (Option.any_eq_true _ _).1 h
    simp only [Bool.and_eq_true, List.contains_iff_mem, decide_eq_true_eq] at h
    exact .queued hw h.1.1 h.1.2 h.2
  · refine strands_of_check (fun s t => decide (s.Pending 1 0 (Toy.proposal 7).proposal) &&
      decide (t.Stores 1 (Toy.proposal 8).proposal) && s.marked [1, 7]) (by decide +kernel) fun s t h => ?_
    simp only [Bool.and_eq_true, decide_eq_true_eq] at h
    exact .replaced h.1.1 h.1.2 (by decide +kernel) h.2

end BcosPbft
