import BcosPbft.Proofs.CommitQueue
import BcosPbft.Proofs.Standing
import BcosPbft.Proofs.ViewOrder
import BcosPbft.Proofs.Voting
import BcosPbft.Proofs.Window
import BcosPbft.Spec.Toy

/-! The votes of one index and view in every order. A delivery counts its message and looks for quorums, and each of these
leaves the cache standing with the voters delivered so far, so the flags at the end depend on who voted and not on when. -/

namespace BcosPbft

/-- A pre-prepare whose block has been verified, or a vote. -/
inductive Delivery
  | prePrepare (m : PBFTMessage) (generatedFromNewView : Bool)
  | prepare (m : PBFTMessage)
  | commit (m : PBFTMessage)
deriving DecidableEq

namespace Delivery

def isVote : Delivery → Bool
  | prePrepare _ _ => false
  | _ => true

def prepares (H : HashType) : Delivery → Option IndexType
  | prepare m => if m.hash = H then some m.generatedFrom else none
  | _ => none

def commits (H : HashType) : Delivery → Option IndexType
  | commit m => if m.hash = H then some m.generatedFrom else none
  | _ => none

end Delivery

def prepareSenders (H : HashType) (l : List Delivery) : Finset IndexType := (l.filterMap (Delivery.prepares H)).toFinset

def commitSenders (H : HashType) (l : List Delivery) : Finset IndexType := (l.filterMap (Delivery.commits H)).toFinset

def Action.pushesHash (H : HashType) : Action → Bool
  | .pushCommitted p => p.hash = H
  | _ => false

def Action.clearsTables : Action → Bool
  | .clearIndexTables _ => true
  | _ => false

namespace Node

def deliver (E : Env) (s : Node) : Delivery → Option Node
  | .prePrepare m generatedFromNewView => some (s.handlePrePrepareMsg E m false generatedFromNewView false).1
  | .prepare m => some (s.handlePrepareMsg E m).1
  | .commit m => (s.handleCommitMsg E m).map (·.1)

/-- The messages of this index are neither too old nor too new, and the node does not lag behind a higher peer. -/
def inWindow (s : Node) (i : Int) : Bool :=
  s.cfg.lowWaterMark ≤ i && s.cfg.expectedCheckPoint ≤ i && i < s.cfg.highWaterMark && s.cfg.syncingHighestNumber < i &&
    !s.isSyncingHigher

/-- How often the tables of the view changes were cleared, which a delivery does when it enters a new view. -/
def viewsEntered (s : Node) : Nat := s.log.countP Action.clearsTables

def pushes (s : Node) (H : HashType) : Nat := s.log.countP (Action.pushesHash H)

/-- A delivery for an index in the window, in which the view does not change. -/
def deliverAt (E : Env) (i : Int) (s : Node) (d : Delivery) : Option Node :=
  if s.inWindow i then (s.deliver E d).filter fun t => t.viewsEntered = s.viewsEntered else none

def cacheAt (s : Node) (i : Int) : PBFTCache := (s.caches.find? i).getD { index := i }

def Unqueued (s : Node) (H : HashType) : Prop :=
  s.executingProposals.contains H = false ∧ ∀ p ∈ s.committedQueue, p.hash ≠ H

end Node

/-- The messages are for the index and the view of the node; the votes are signed by their senders, and the pre-prepare is
for `H` and comes from the leader. -/
def Delivery.Valid (E : Env) (s : Node) (i : Int) (H : HashType) : Delivery → Prop
  | prePrepare m generatedFromNewView => m.index = i ∧ m.view = s.cfg.view ∧ m.hash = H ∧
      (∃ p ∈ m.consensusProposal, p.hash = H ∧ p.index = i) ∧
      (generatedFromNewView = true ∨ s.cfg.leaderIndex i = m.generatedFrom)
  | prepare m => m.index = i ∧ m.view = s.cfg.view ∧ s.checkSignature E (.pbft m) = true ∧
      s.checkProposalSignature E m.generatedFrom m.consensusProposal = true
  | commit m => m.index = i ∧ m.view = s.cfg.view ∧ m.consensusProposal.isSome = true ∧
      s.checkSignature E (.pbft m) = true

/-- The node knows nothing of `H` and has no pre-prepare and no vote for index `i`. -/
structure Node.Untouched (s : Node) (i : Int) (H : HashType) : Prop where
  cache : s.cacheAt i = { index := i, checkpointProposal := (s.cacheAt i).checkpointProposal
                          checkpointCacheList := (s.cacheAt i).checkpointCacheList
                          checkpointCacheWeight := (s.cacheAt i).checkpointCacheWeight }
  others : ∀ k c, k ≠ i → s.caches.find? k = some c → c.Carries fun _ _ p => toHash p.hash ≠ H
  unqueued : s.Unqueued H

/-- What the voters of index `i` have brought about: the precommit and the submission need a quorum each, and one submission
is one push. -/
structure Outcome (s : Node) (i : Int) (H : HashType) (votes : List Delivery) (t : Node) : Prop where
  precommitted : (t.cacheAt i).precommitted = true ↔ s.cfg.Quorate (insert s.cfg.nodeIndex (prepareSenders H votes))
  submitted : (t.cacheAt i).submitted = true ↔
    (t.cacheAt i).precommitted = true ∧ s.cfg.Quorate (insert s.cfg.nodeIndex (commitSenders H votes))
  pushes : t.pushes H = s.pushes H + (t.cacheAt i).submitted.toNat

/-- A step beside the cache of index `i`: leaders, quorum and view stay, no proposal with hash `H` comes in. -/
structure Beside (i : Int) (H : HashType) (s t : Node) : Prop where
  leaders : s.cfg.SameLeaders t.cfg
  required : t.cfg.minRequiredQuorum = s.cfg.minRequiredQuorum
  view : t.cfg.view = s.cfg.view
  others : (∀ k c, k ≠ i → s.caches.find? k = some c → c.Carries fun _ _ p => toHash p.hash ≠ H) →
    ∀ k c, k ≠ i → t.caches.find? k = some c → c.Carries fun _ _ p => toHash p.hash ≠ H
  unqueued : s.Unqueued H → t.Unqueued H
  pushes : t.pushes H = s.pushes H

namespace Beside

variable {i : Int} {H : HashType} {s t u : Node}

theorem refl (s : Node) : Beside i H s s := ⟨.refl _, rfl, rfl, id, id, rfl⟩

theorem trans (h : Beside i H s t) (h' : Beside i H t u) : Beside i H s u where
  leaders := h.leaders.trans h'.leaders
  required := h'.required.trans h.required
  view := h'.view.trans h.view
  others := fun hs => h'.others (h.others hs)
  unqueued := fun hs => h'.unqueued (h.unqueued hs)
  pushes := h'.pushes.trans h.pushes

end Beside

def Label.beside (H : HashType) : Label → Prop
  | .push _ p => p.hash ≠ H
  | .view | .store _ => False
  | l => l.steady = true

section

variable {E : Env} {l : Label} {s t : Node} {i : Int} {H : HashType}

theorem Emits.pushesHash {a : Action} (h : Emits E s l a) (hl : l.beside H) : a.pushesHash H = false := by
  by_contra hpush
  cases a with
  | pushCommitted p =>
    obtain ⟨source, rfl⟩ := h.pushed
    have hne : p.hash ≠ H := hl
    exact hpush (decide_eq_false hne)
  | _ => exact hpush rfl

theorem Prim.pushes (h : Prim E l s t) (hl : l.beside H) : t.pushes H = s.pushes H := by
  obtain ⟨k, hk, hemits⟩ := h.log
  have hnone : k.countP (Action.pushesHash H) = 0 := by
    rw [List.countP_eq_zero]
    intro a ha
    rw [(hemits a ha).pushesHash hl]
    exact Bool.noConfusion
  unfold Node.pushes
  rw [hk, List.countP_append, hnone, Nat.add_zero]

theorem Prim.unqueued (h : Prim E l s t) (hl : l.beside H) (hs : s.Unqueued H) : t.Unqueued H := by
  constructor
  · by_cases hpipe : l.pipeline = true
    · rw [← Bool.not_eq_true, OrdMap.contains_iff]
      rintro ⟨n, hn⟩
      have hnone : ∀ n, s.executingProposals.find? H ≠ some n := fun n hn => by
        have hcontains := OrdMap.contains_iff.2 ⟨n, hn⟩
        rw [hs.1] at hcontains
        cases hcontains
      cases h with
      | unmark _ hash =>
        change (s.executingProposals.erase hash).find? H = some n at hn
        rw [OrdMap.find?_erase] at hn
        split_ifs at hn
        exact hnone n hn
      | expire =>
        change (s.executingProposals.filter _).find? H = some n at hn
        rw [OrdMap.find?_filter] at hn
        exact hnone n (Option.filter_eq_some_iff.1 hn).1
      | @apply _ p lastApplied rest hq hindex hlast hx =>
        have hmarks : _ = s.executingProposals.insert p.hash p.index :=
          congrArg Core.executingProposals ((s.takeProposal p rest).applyStateMachine_core lastApplied p)
        rw [show ((s.takeProposal p rest).applyStateMachine lastApplied p).executingProposals = _ from hmarks,
          OrdMap.find?_insert_ne _ _ (hs.2 p (by rw [hq]; exact List.mem_cons_self)).symm] at hn
        exact hnone n hn
      | executed _ j error =>
        obtain ⟨a, b, hcore⟩ := s.onExecuted_core E j error
        have hmarks : (s.onExecuted E j error).executingProposals = s.executingProposals :=
          congrArg Core.executingProposals hcore
        rw [hmarks] at hn
        exact hnone n hn
      | _ => first | exact hnone n hn | cases hpipe
    · rw [(h.pipeline_same (by simpa using hpipe)).2.1]
      exact hs.1
  · intro p hp
    rcases h.intake.queue p hp with hp | ⟨source, rfl⟩
    · exact hs.2 p hp
    · exact hl

theorem Prim.beside (h : Prim E l s t) (hl : l.beside H) : Beside i H s t := by
  have hsteady : l.steady = true := by cases l <;> first | exact hl | rfl
  have hview : l ≠ .view := fun heq => by subst heq; exact hl
  refine ⟨h.cfgStep.sameLeaders hsteady, ?_, h.cfgStep.view_eq hview, fun hs k c hk hc => ?_, h.unqueued hl, h.pushes hl⟩
  · refine (h.sameNodes fun ls heq => ?_).required
    subst heq
    cases hl
  · refine (h.cacheStep hc).carries ?_ fun m p heq => ?_
    · cases hold : s.caches.find? k with
      | none => exact .empty k
      | some c => exact hs k c hk hold
    · subst heq
      cases hl

theorem Steps.beside {A : Label → Prop} (h : Steps E A s t) (hA : ∀ l, A l → l.beside H) : Beside i H s t :=
  h.preserves (I := Beside i H s) (fun l _ _ hl hp hu => hu.trans (hp.beside (hA l hl))) (.refl s)

end

/-- The cache of the index stands with the voters so far, the rest of the node is beside it, and a submission is one push. -/
structure Held (s₀ : Node) (i : Int) (H : HashType) (P C : Finset IndexType) (seen : Bool) (s : Node) : Prop where
  leaders : s₀.cfg.SameLeaders s.cfg
  required : s.cfg.minRequiredQuorum = s₀.cfg.minRequiredQuorum
  view : s.cfg.view = s₀.cfg.view
  others : ∀ k c, k ≠ i → s.caches.find? k = some c → c.Carries fun _ _ p => toHash p.hash ≠ H
  cache : (s.cacheAt i).Standing s₀.cfg i H P C seen
  unqueued : (s.cacheAt i).submitted = false → s.Unqueued H
  pushes : s.pushes H = s₀.pushes H + (s.cacheAt i).submitted.toNat

section

variable {s₀ s t : Node} {i : Int} {H : HashType} {P C P' C' : Finset IndexType} {seen seen' : Bool}

namespace Held

theorem current (hs : Held s₀ i H P C seen s) : (s.cacheAt i).Standing s.cfg i H P C seen :=
  hs.cache.congr hs.leaders.list hs.required hs.leaders.nodeIndex hs.view

theorem original (hs : Held s₀ i H P C seen s) {c : PBFTCache} (hc : c.Standing s.cfg i H P' C' seen') :
    c.Standing s₀.cfg i H P' C' seen' :=
  hc.congr hs.leaders.list.symm hs.required.symm hs.leaders.nodeIndex.symm hs.view.symm

theorem decided (hs : Held s₀ i H P C seen s) (c : PBFTCache) :
    (c.PrepareDecided s.cfg P seen ↔ c.PrepareDecided s₀.cfg P seen) ∧
      (c.CommitDecided s.cfg C ↔ c.CommitDecided s₀.cfg C) :=
  PBFTCache.decided_congr hs.leaders.list hs.required hs.leaders.nodeIndex

theorem beside (hs : Held s₀ i H P C seen s) (h : Beside i H s t) (hcache : (t.cacheAt i).Standing s₀.cfg i H P' C' seen')
    (hsubmitted : (t.cacheAt i).submitted = (s.cacheAt i).submitted) : Held s₀ i H P' C' seen' t where
  leaders := hs.leaders.trans h.leaders
  required := h.required.trans hs.required
  view := h.view.trans hs.view
  others := h.others hs.others
  cache := hcache
  unqueued := fun hno => h.unqueued (hs.unqueued (hsubmitted.symm.trans hno))
  pushes := by rw [h.pushes, hs.pushes, hsubmitted]

theorem same (hs : Held s₀ i H P C seen s) (h : Beside i H s t) (hcache : t.cacheAt i = s.cacheAt i) :
    Held s₀ i H P C seen t := hs.beside h (by rw [hcache]; exact hs.cache) (by rw [hcache])

end Held

def Label.queueing (p : PBFTProposal) (l : Label) : Prop :=
  l = .quiet ∨ l = .queue ∨ (∃ lastApplied q, l = .apply lastApplied q) ∨ l = .push .committed p

theorem Label.queueing.cases {p : PBFTProposal} {l : Label} (h : l.queueing p) : l.steady = true ∧ l.caching = false ∧
    l ≠ .aim ∧ l ≠ .view := by
  rcases h with rfl | rfl | ⟨_, _, rfl⟩ | rfl <;> exact ⟨rfl, rfl, Label.noConfusion, Label.noConfusion⟩

theorem Label.queueing_applying (p : PBFTProposal) : Node.Applying (Label.queueing p) :=
  ⟨Or.inl rfl, Or.inr (Or.inl rfl), fun _ _ => Or.inr (Or.inr (Or.inl ⟨_, _, rfl⟩))⟩

namespace Node

theorem cacheAt_congr (h : t.caches = s.caches) : t.cacheAt i = s.cacheAt i := by
  unfold cacheAt
  rw [h]

theorem cacheAt_cases (s : Node) (i : Int) : i ∈ s.caches.keys ∨ s.cacheAt i = { index := i } := by
  unfold cacheAt
  cases hc : s.caches.find? i with
  | none => exact Or.inr rfl
  | some c => exact Or.inl (OrdMap.mem_keys.2 ⟨c, hc⟩)

theorem cacheAt_insert {c : PBFTCache} (hcaches : t.caches = s.caches.insert i c) : t.cacheAt i = c := by
  unfold cacheAt
  rw [hcaches, OrdMap.find?_insert_self]
  rfl

theorem updateCommitQueue_queueing (E : Env) {p : PBFTProposal} (hp : s.Pushes p) :
    Steps E (Label.queueing p) s (s.updateCommitQueue p) :=
  updateCommitQueue_steps_of s (Label.queueing_applying p) (Or.inr (Or.inr (Or.inr rfl))) fun _ => hp

theorem updateCommitQueue_caches {p : PBFTProposal} (E : Env) (hp : s.Pushes p) :
    (s.updateCommitQueue p).caches = s.caches :=
  (updateCommitQueue_queueing E hp).caches_same fun _ hl => hl.cases.2.1

theorem updateCommitQueue_beside {p : PBFTProposal} (E : Env) (hp : s.Pushes p) (hne : p.hash ≠ H) :
    Beside i H s (s.updateCommitQueue p) := by
  refine (updateCommitQueue_queueing E hp).beside fun l hl => ?_
  rcases hl with rfl | rfl | ⟨_, _, rfl⟩ | rfl
  · rfl
  · rfl
  · rfl
  · exact hne

theorem updateCommitQueue_pushes {p : PBFTProposal} (E : Env) (hx : s.executingProposals.contains p.hash = false) :
    (s.updateCommitQueue p).pushes p.hash = s.pushes p.hash + 1 := by
  have hmax := notifyMaxProposalIndex_quiet s p.index
  have hmaxPushes : (s.notifyMaxProposalIndex p.index).pushes p.hash = s.pushes p.hash :=
    (Prim.quiet (E := E) hmax).pushes rfl
  have happly : ∀ u : Node, u.tryToApplyCommitQueue.1.pushes p.hash = u.pushes p.hash := by
    intro u
    have hsteps : Steps E (fun l => l = .quiet ∨ l = .queue ∨ ∃ lastApplied q, l = .apply lastApplied q) u
        u.tryToApplyCommitQueue.1 :=
      tryToApplyCommitQueue_steps_of u ⟨Or.inl rfl, Or.inr (Or.inl rfl), fun _ _ => Or.inr (Or.inr ⟨_, _, rfl⟩)⟩
    refine (hsteps.beside (i := 0) fun l hl => ?_).pushes
    rcases hl with rfl | rfl | ⟨_, _, rfl⟩ <;> rfl
  unfold updateCommitQueue
  rw [if_neg (by rw [hx]; exact Bool.noConfusion)]
  dsimp only
  rw [happly, ← hmaxPushes]
  unfold pushes emit
  rw [List.countP_append]
  simp [Action.pushesHash]

end Node

namespace Held

def handed (c : PBFTCache) (ret : Bool) : Option PBFTProposal :=
  if ret then c.precommit.bind PBFTMessage.consensusProposal else none

theorem report (hs : Held s₀ i H P C seen s) (h : Beside i H s t) {c' : PBFTCache} {ret : Bool}
    (hc' : t.cacheAt i = c') (hchecks : PBFTCache.Standing.Checks s.cfg i H P C seen (s.cacheAt i) c' ret)
    (hpushes : ∀ p ∈ handed c' ret, t.Pushes p) (E : Env) :
    Held s₀ i H P C seen ((handed c' ret).elim t t.updateCommitQueue) ∧
      ((handed c' ret).elim t t.updateCommitQueue).cacheAt i = c' := by
  have hstanding := hs.original hchecks.standing
  cases ret with
  | false =>
    have hsame : (t.cacheAt i).submitted = (s.cacheAt i).submitted := by rw [hc', hchecks.submits, Bool.or_false]
    exact ⟨hs.beside h (hc' ▸ hstanding) hsame, hc'⟩
  | true =>
    have hsubmitted : c'.submitted = true := by rw [hchecks.submits, Bool.or_true]
    have hpre := (hstanding.late hsubmitted).1
    obtain ⟨m, p, hm, -, -, hp, hhash, -⟩ := hstanding.stored (hstanding.early hpre).1
    have hhanded : handed c' true = some p := by
      unfold handed
      rw [if_pos rfl, hstanding.precommit, if_pos hpre, hm]
      exact hp
    have hp := hpushes p hhanded
    rw [hhanded, Option.elim_some]
    have hcaches := Node.updateCommitQueue_caches E hp
    have hsteps := Node.updateCommitQueue_queueing E hp
    have hqueued := h.unqueued (hs.unqueued (hchecks.once rfl))
    have hcache : (t.updateCommitQueue p).cacheAt i = c' := (Node.cacheAt_congr hcaches).trans hc'
    have hframe : t.cfg.SameLeaders (t.updateCommitQueue p).cfg ∧ SameNodes t (t.updateCommitQueue p) ∧
        (t.updateCommitQueue p).cfg.view = t.cfg.view := by
      exact ⟨hsteps.sameLeaders fun l hl => hl.cases.1, hsteps.sameNodes fun ls hl => Bool.noConfusion hl.cases.1,
        (hsteps.views_eq (fun hl => hl.cases.2.2.1 rfl) fun hl => hl.cases.2.2.2 rfl).1⟩
    obtain ⟨hleaders, hnodes, hview⟩ := hframe
    refine ⟨⟨(hs.leaders.trans h.leaders).trans hleaders, hnodes.required.trans (h.required.trans hs.required),
      hview.trans (h.view.trans hs.view), ?_, ?_, fun hno => ?_, ?_⟩, hcache⟩
    · rw [hcaches]
      exact h.others hs.others
    · rw [hcache]
      exact hstanding
    · rw [hcache, hsubmitted] at hno
      cases hno
    · have hone := Node.updateCommitQueue_pushes E (s := t) (p := p) (by rw [hhash]; exact hqueued.1)
      rw [hhash] at hone
      rw [hone, h.pushes, hs.pushes, hchecks.once rfl, hcache, hsubmitted]
      rfl

theorem turn (hs : Held s₀ i H P C seen s) (h : Beside i H s t) {k : Int} {c' : PBFTCache} {ret : Bool}
    (hcaches : t.caches = s.caches.insert k c') (hpushes : ∀ p ∈ handed c' ret, t.Pushes p)
    (hchecks : k = i → PBFTCache.Standing.Checks s.cfg i H P C seen (s.cacheAt i) c' ret) (E : Env) :
    Held s₀ i H P C seen ((handed c' ret).elim t t.updateCommitQueue) ∧
      ((handed c' ret).elim t t.updateCommitQueue).cacheAt i = if k = i then c' else s.cacheAt i := by
  by_cases hk : k = i
  · subst hk
    rw [if_pos rfl]
    exact hs.report h (Node.cacheAt_insert hcaches) (hchecks rfl) hpushes E
  · rw [if_neg hk]
    have hcache : t.cacheAt i = s.cacheAt i := by
      unfold Node.cacheAt
      rw [hcaches, OrdMap.find?_insert_ne _ _ (Ne.symm hk)]
    cases ho : handed c' ret with
    | none => exact ⟨hs.same h hcache, hcache⟩
    | some p =>
      rw [Option.elim_some]
      have hp := hpushes p ho
      -- what another cache submits has another hash
      have hne : p.hash ≠ H := by
        unfold handed at ho
        split_ifs at ho
        obtain ⟨m, hm, hmp⟩ := Option.bind_eq_some_iff.1 ho
        exact h.others hs.others k c' hk (by rw [hcaches, OrdMap.find?_insert_self]) m p (Or.inr hm) hmp
      have hsame := (Node.cacheAt_congr (i := i) (Node.updateCommitQueue_caches E hp)).trans hcache
      exact ⟨hs.same (h.trans (Node.updateCommitQueue_beside E hp hne)) hsame, hsame⟩

end Held

namespace Node

theorem reported_handed (s : Node) (c : PBFTCache) (ret : Bool) : (s.reported c ret).2 = Held.handed c ret := by
  unfold reported Held.handed
  split_ifs <;> rfl

theorem checkAndPreCommitAt_held (E : Env) (hs : Held s₀ i H P C seen s) (k : Int) :
    Held s₀ i H P C seen (s.checkAndPreCommitAt E k) ∧
      ((s.cacheAt i).CommitDecided s₀.cfg C → ((s.checkAndPreCommitAt E k).cacheAt i).CommitDecided s₀.cfg C) ∧
      ((s.cacheAt i).PrepareDecided s₀.cfg P seen ∨ k = i →
        ((s.checkAndPreCommitAt E k).cacheAt i).PrepareDecided s₀.cfg P seen) := by
  cases hc : s.caches.find? k with
  | none =>
    have hidle : s.checkAndPreCommitAt E k = s := by
      unfold checkAndPreCommitAt preCommitAt
      rw [hc]
    rw [hidle]
    refine ⟨hs, id, fun h => ?_⟩
    rcases h with h | rfl
    · exact h
    · intro hseen
      obtain ⟨m, -, hm, -⟩ := hs.cache.stored hseen
      rw [cacheAt, hc] at hm
      cases hm
  | some c =>
    have hprim : Prim E .preCommit s (s.preCommitAt E k).1 := .preCommit s k
    have hcaches : (s.preCommitAt E k).1.caches = s.caches.insert k (c.checkAndPreCommit E s.cfg s.utcTime).1 := by
      unfold preCommitAt
      rw [hc]
      exact reported_caches _ _ _
    have hhanded : (s.preCommitAt E k).2 =
        Held.handed (c.checkAndPreCommit E s.cfg s.utcTime).1 (c.checkAndPreCommit E s.cfg s.utcTime).2.1 := by
      unfold preCommitAt
      rw [hc]
      exact reported_handed _ _ _
    have hturn : s.checkAndPreCommitAt E k =
        (s.preCommitAt E k).2.elim (s.preCommitAt E k).1 (s.preCommitAt E k).1.updateCommitQueue := by
      unfold checkAndPreCommitAt
      dsimp only
      split <;> rename_i ho <;> rw [ho] <;> rfl
    have hcurrent : k = i → c = s.cacheAt i := by
      rintro rfl
      rw [cacheAt, hc]
      rfl
    obtain ⟨hchecks, hprepared, hcommitted⟩ := hs.current.checkAndPreCommit E s.utcTime
    rw [(hs.decided _).1] at hprepared
    rw [(hs.decided _).2, (hs.decided _).2] at hcommitted
    obtain ⟨hheld, hcache⟩ := hs.turn (hprim.beside rfl) hcaches
      (fun p hp => preCommitAt_pushes (hhanded.trans hp)) (fun hk => by rw [hcurrent hk]; exact hchecks) E
    rw [hturn, hhanded, hcache]
    split_ifs with hk
    · rw [hcurrent hk] at hheld ⊢
      exact ⟨hheld, hcommitted, fun _ => hprepared⟩
    · exact ⟨hheld, id, fun h => h.resolve_right hk⟩

theorem checkAndCommitAt_held (E : Env) (hs : Held s₀ i H P C seen s) (k : Int) :
    Held s₀ i H P C seen (s.checkAndCommitAt k) ∧
      ((s.cacheAt i).PrepareDecided s₀.cfg P seen → ((s.checkAndCommitAt k).cacheAt i).PrepareDecided s₀.cfg P seen) ∧
      ((s.cacheAt i).CommitDecided s₀.cfg C ∨ k = i → ((s.checkAndCommitAt k).cacheAt i).CommitDecided s₀.cfg C) := by
  cases hc : s.caches.find? k with
  | none =>
    have hidle : s.checkAndCommitAt k = s := by
      unfold checkAndCommitAt commitAt
      rw [hc]
    rw [hidle]
    refine ⟨hs, id, fun h => ?_⟩
    rcases h with h | rfl
    · exact h
    · intro hpre
      rw [cacheAt, hc] at hpre
      cases hpre
  | some c =>
    have hprim : Prim E .submit s (s.commitAt k).1 := .submit s k
    have hcaches : (s.commitAt k).1.caches = s.caches.insert k (c.checkAndCommit s.cfg).1 := by
      unfold commitAt
      rw [hc]
      exact reported_caches _ _ _
    have hhanded : (s.commitAt k).2 = Held.handed (c.checkAndCommit s.cfg).1 (c.checkAndCommit s.cfg).2 := by
      unfold commitAt
      rw [hc]
      exact reported_handed _ _ _
    have hcurrent : k = i → c = s.cacheAt i := by
      rintro rfl
      rw [cacheAt, hc]
      rfl
    obtain ⟨hchecks, hpre, hcommitted⟩ := hs.current.checkAndCommit
    rw [(hs.decided _).2] at hcommitted
    obtain ⟨hheld, hcache⟩ := hs.turn (hprim.beside rfl) hcaches
      (fun p hp => commitAt_pushes (hhanded.trans hp)) (fun hk => by rw [hcurrent hk]; exact hchecks) E
    -- after a push the node aims at its own view again
    have hturn :
        Beside i H ((s.commitAt k).2.elim (s.commitAt k).1 (s.commitAt k).1.updateCommitQueue) (s.checkAndCommitAt k) ∧
          (s.checkAndCommitAt k).caches =
            ((s.commitAt k).2.elim (s.commitAt k).1 (s.commitAt k).1.updateCommitQueue).caches := by
      unfold checkAndCommitAt
      dsimp only
      split
      · rename_i ho
        rw [ho]
        exact ⟨.refl _, rfl⟩
      · rename_i p ho
        rw [ho, Option.elim_some]
        generalize (s.commitAt k).1.updateCommitQueue p = u
        have haim : Prim E .aim u (u.setCfg u.cfg.resetToView) := .aim u _ _
        exact ⟨haim.beside rfl, rfl⟩
    rw [hhanded] at hturn
    have hsame := cacheAt_congr (i := i) hturn.2
    refine ⟨hheld.same hturn.1 hsame, ?_⟩
    rw [hsame, hcache]
    split_ifs with hk
    · rw [hcurrent hk]
      refine ⟨fun h hseen hquorum => ?_, fun _ => hcommitted⟩
      rw [hpre]
      exact h hseen hquorum
    · exact ⟨id, fun h => h.resolve_right hk⟩

/-- What every turn keeps and the turn of an index establishes holds after a loop over that index. -/
theorem foldl_decides {I Q : Node → Prop} {f : Node → Int → Node}
    (hkeep : ∀ s k, I s → I (f s k) ∧ (Q s ∨ k = i → Q (f s k)))
    (keys : List Int) {s : Node} (hs : I s) (hi : Q s ∨ i ∈ keys) : I (keys.foldl f s) ∧ Q (keys.foldl f s) := by
  induction keys generalizing s with
  | nil => exact ⟨hs, hi.resolve_right List.not_mem_nil⟩
  | cons k keys ih =>
    obtain ⟨hnext, hdecides⟩ := hkeep s k hs
    refine ih hnext ?_
    rcases hi with hi | hi
    · exact Or.inl (hdecides (Or.inl hi))
    · rcases List.mem_cons.1 hi with rfl | hi
      · exact Or.inl (hdecides (Or.inr rfl))
      · exact Or.inr hi

theorem checkAndPreCommit_held (E : Env) (hs : Held s₀ i H P C seen s) (hcommitted : (s.cacheAt i).CommitDecided s₀.cfg C) :
    Held s₀ i H P C seen (s.checkAndPreCommit E) ∧ ((s.checkAndPreCommit E).cacheAt i).CommitDecided s₀.cfg C ∧
      ((s.checkAndPreCommit E).cacheAt i).PrepareDecided s₀.cfg P seen := by
  have hempty : s.cacheAt i = { index := i } → (s.cacheAt i).PrepareDecided s₀.cfg P seen := by
    intro hnone hseen
    obtain ⟨m, -, hm, -⟩ := hs.cache.stored hseen
    rw [hnone] at hm
    cases hm
  have hloop := foldl_decides (i := i) (f := checkAndPreCommitAt E)
    (I := fun u => Held s₀ i H P C seen u ∧ (u.cacheAt i).CommitDecided s₀.cfg C)
    (Q := fun u => (u.cacheAt i).PrepareDecided s₀.cfg P seen) (fun u k hu => by
      obtain ⟨hheld, hcommitted, hprepared⟩ := checkAndPreCommitAt_held E hu.1 k
      exact ⟨⟨hheld, hcommitted hu.2⟩, hprepared⟩) s.caches.keys ⟨hs, hcommitted⟩ ((s.cacheAt_cases i).symm.imp_left hempty)
  exact ⟨hloop.1.1, hloop.1.2, hloop.2⟩

theorem checkAndCommitLoop_held (E : Env) (hs : Held s₀ i H P C seen s)
    (hprepared : (s.cacheAt i).PrepareDecided s₀.cfg P seen) :
    Held s₀ i H P C seen s.checkAndCommitLoop ∧ (s.checkAndCommitLoop.cacheAt i).PrepareDecided s₀.cfg P seen ∧
      (s.checkAndCommitLoop.cacheAt i).CommitDecided s₀.cfg C := by
  have hempty : s.cacheAt i = { index := i } → (s.cacheAt i).CommitDecided s₀.cfg C := by
    intro hnone hpre
    rw [hnone] at hpre
    cases hpre
  have hloop := foldl_decides (i := i) (f := checkAndCommitAt)
    (I := fun u => Held s₀ i H P C seen u ∧ (u.cacheAt i).PrepareDecided s₀.cfg P seen)
    (Q := fun u => (u.cacheAt i).CommitDecided s₀.cfg C) (fun u k hu => by
      obtain ⟨hheld, hprepared, hcommitted⟩ := checkAndCommitAt_held E hu.1 k
      exact ⟨⟨hheld, hprepared hu.2⟩, hcommitted⟩) s.caches.keys ⟨hs, hprepared⟩ ((s.cacheAt_cases i).symm.imp_left hempty)
  exact ⟨hloop.1.1, hloop.1.2, hloop.2⟩

end Node

end

def Label.timing : Label → Prop
  | .quiet | .aim | .sendViewChange | .dropViewChanges | .viewChange true _ | .newView _ => True
  | _ => False

theorem Prim.timing {E : Env} {l : Label} {s t : Node} (h : Prim E l s t) (hl : l.timing) : Steps E Label.timing s t :=
  .single hl h

namespace Node

variable {E : Env} {s t u : Node}

theorem viewsEntered_mono {A : Label → Prop} (h : Steps E A s t) : s.viewsEntered ≤ t.viewsEntered :=
  (log_prefix_steps h).sublist.countP_le

theorem reHandlePrePrepareProposals_enters {m : NewViewMsg} (h : s.reHandlePrePrepareProposals E m = some t) :
    s.viewsEntered < t.viewsEntered := by
  have htail : Steps E (fun _ => True) (s.reachNewView m.view) t :=
    reHandlePrePrepareProposals_tail_steps s (fun _ _ => trivial) (fun _ _ _ => trivial) (fun _ _ => trivial) trivial
      (fun hown : false = true => Bool.noConfusion hown) h
  refine lt_of_lt_of_le ?_ (viewsEntered_mono htail)
  unfold reachNewView resetCacheAfterViewChange
  dsimp only
  generalize hu : (s.setCfg (s.cfg.resetNewViewState m.view)).caches.keys.foldl _ _ = u
  have hfold : Steps E (fun _ => True) (s.setCfg (s.cfg.resetNewViewState m.view)) u := by
    rw [← hu]
    exact .foldl (fun v j => .single trivial (.reset v _ j)) _ _
  have hmono : s.viewsEntered ≤ u.viewsEntered := by
    have hfoldMono := viewsEntered_mono hfold
    exact hfoldMono
  unfold viewsEntered at hmono ⊢
  simp only [removeInvalidRecoverCache, removeInvalidViewChange, reCalculateViewChangeWeight, emit, List.countP_append,
    List.countP_singleton, Action.clearsTables, Bool.false_eq_true, if_false, if_true]
  omega

theorem tryIntoNewView_timing (h : s.tryIntoNewView E = some t) (hstay : t.viewsEntered ≤ s.viewsEntered) :
    Steps E Label.timing s t := by
  rcases tryIntoNewView_cases s h with rfl | ⟨u, m, hu, h⟩
  · exact .refl t
  · have hnew : Steps E (fun _ => True) s u := .single trivial (.newView hu)
    exact absurd (reHandlePrePrepareProposals_enters h) (not_lt.2 (hstay.trans (viewsEntered_mono hnew)))

theorem sendViewChangeTo_timing {dst : Option NodeID} (h : s.sendViewChangeTo E dst = some t)
    (hstay : t.viewsEntered ≤ s.viewsEntered) : Steps E Label.timing s t := by
  obtain ⟨m, hm, -, -, h⟩ := sendViewChangeTo_cases s h
  have hemit := (Prim.sendViewChange (E := E) s dst).timing trivial
  have hsteps := hemit.trans ((ownViewChange_prim s hm).timing trivial)
  exact hsteps.trans (tryIntoNewView_timing h (hstay.trans (viewsEntered_mono hsteps)))

theorem triggerTimeout_timing (h : s.triggerTimeout E = some t) (hstay : t.viewsEntered ≤ s.viewsEntered) :
    Steps E Label.timing s t := by
  unfold triggerTimeout at h
  dsimp only at h
  have haim : Steps E Label.timing s (s.setCfg s.cfg.resetTimeoutState) := (Prim.aim s _ _).timing trivial
  generalize s.setCfg s.cfg.resetTimeoutState = u at h haim
  have hdrop : Steps E Label.timing u (u.removeInvalidViewChange u.cfg.view u.cfg.committedIndex) :=
    (Prim.dropViewChanges u _ _).timing trivial
  generalize u.removeInvalidViewChange u.cfg.view u.cfg.committedIndex = v at h hdrop
  have hnotify : Steps E Label.timing v (v.notifyCommittedProposalIndex v.cfg.committedIndex) :=
    (Prim.quiet (notifyCommittedProposalIndex_quiet _ _)).timing trivial
  have hsteps := (haim.trans hdrop).trans hnotify
  exact hsteps.trans (sendViewChangeTo_timing h (hstay.trans (viewsEntered_mono hsteps)))

theorem tryTriggerFastViewChange_timing {fuel : Nat} {leader : IndexType}
    (h : tryTriggerFastViewChange E fuel s leader = some t) (hstay : t.viewsEntered ≤ s.viewsEntered) :
    Steps E Label.timing s t := by
  have hrun : Steps E (fun _ => True) s t ∧ (t.viewsEntered ≤ s.viewsEntered → Steps E Label.timing s t) := by
    apply tryTriggerFastViewChange_run (R := fun u w => Steps E (fun _ => True) u w ∧
      (w.viewsEntered ≤ u.viewsEntered → Steps E Label.timing u w)) s (fun u => ⟨.refl u, fun _ => .refl u⟩) _ h
    intro u v w hu hvw
    have hfirst : Steps E (fun _ => True) u v := triggerTimeout_steps u (fun _ _ => trivial) trivial hu
    refine ⟨hfirst.trans hvw.1, fun hstay => ?_⟩
    exact (triggerTimeout_timing hu ((viewsEntered_mono hvw.1).trans hstay)).trans
      (hvw.2 (hstay.trans (viewsEntered_mono hfirst)))
  exact hrun.2 hstay

/-- The timer leaves the caches as long as no view is entered. -/
theorem resetTimer_beside {i : Int} {H : HashType} (h : s.resetTimer E = some t) (hstay : t.viewsEntered ≤ s.viewsEntered) :
    Beside i H s t ∧ t.caches = s.caches := by
  unfold resetTimer at h
  split_ifs at h
  · obtain rfl := Option.some.inj h
    exact ⟨.refl s, rfl⟩
  · have hsteps := tryTriggerFastViewChange_timing h hstay
    constructor
    · refine hsteps.beside fun l hl => ?_
      cases l <;> first | rfl | cases hl
    · refine hsteps.caches_same fun l hl => ?_
      cases l <;> first | rfl | cases hl

end Node

section

variable {E : Env} {s₀ s t : Node} {i : Int} {H : HashType} {P C : Finset IndexType} {seen : Bool} {m : PBFTMessage}

namespace Node

theorem emit_beside {l : List Action} (hl : ∀ a ∈ l, a.pushesHash H = false) : Beside i H s (s.emit l) := by
  refine ⟨.refl _, rfl, rfl, id, id, ?_⟩
  have hnone : l.countP (Action.pushesHash H) = 0 := by
    rw [List.countP_eq_zero]
    intro a ha
    rw [hl a ha]
    exact Bool.noConfusion
  unfold pushes emit
  rw [List.countP_append, hnone, Nat.add_zero]

theorem addCache_beside (hindex : m.index = i) {f : PBFTCache → PBFTCache × List Action}
    (hf : ∀ a ∈ (f (s.cacheAt i)).2, a.pushesHash H = false) :
    Beside i H s (s.addCache m f) ∧ (s.addCache m f).cacheAt i = (f (s.cacheAt i)).1 := by
  subst hindex
  constructor
  · refine Beside.trans (t := { s with caches := s.caches.insert m.index (f (s.cacheAt m.index)).1 }) ?_ (emit_beside hf)
    refine ⟨.refl _, rfl, rfl, fun hs k c hk hc => ?_, id, rfl⟩
    change (s.caches.insert m.index _).find? k = some c at hc
    rw [OrdMap.find?_insert_ne _ _ hk] at hc
    exact hs k c hk hc
  · exact cacheAt_insert rfl

theorem checkPBFTMsgState_window (hw : s.inWindow i = true) (hindex : m.index = i) (hview : m.view = s.cfg.view)
    (hp : m.consensusProposal.isSome = true) : s.checkPBFTMsgState m = true := by
  unfold inWindow at hw
  simp only [Bool.and_eq_true, decide_eq_true_eq] at hw
  obtain ⟨⟨⟨⟨hlow, hexpected⟩, hhigh⟩, hsyncing⟩, -⟩ := hw
  unfold checkPBFTMsgState
  rw [hindex, hview, if_neg, if_neg, if_neg (lt_irrefl _)]
  · simp only [Bool.or_eq_true, decide_eq_true_eq]
    omega
  · rw [Option.isNone_eq_false_iff.2 hp]
    exact Bool.noConfusion

/-- A signed vote of the view for an index in the window is taken, unless it is said to come from the node itself. -/
theorem checkPBFTMsg_eq (hs : Held s₀ i H P C seen s) (hw : s.inWindow i = true) (hindex : m.index = i)
    (hview : m.view = s₀.cfg.view) (hp : m.consensusProposal.isSome = true)
    (hsig : s₀.checkSignature E (.pbft m) = true) :
    s.checkPBFTMsg E m = !decide (m.generatedFrom = s₀.cfg.nodeIndex) := by
  have hstate := checkPBFTMsgState_window hw hindex (hview.trans hs.view.symm) hp
  have hconflict : (s.existPrePrepare m && s.conflictWithProcessedReq m) = false := by
    unfold existPrePrepare conflictWithProcessedReq
    rw [hindex]
    have hno := hs.current.no_conflict (m := m) (by rw [hview, hs.view])
    unfold cacheAt at hno
    cases hc : s.caches.find? i with
    | none => rfl
    | some c =>
      rw [hc, Option.getD_some] at hno
      exact hno
  have hsame : s.checkSignature E (.pbft m) = true := by
    unfold checkSignature Config.getConsensusNodeByIndex at hsig ⊢
    rw [hs.leaders.list]
    exact hsig
  unfold checkPBFTMsg
  rw [hstate, hconflict, hsame, hs.leaders.nodeIndex]
  by_cases hown : m.generatedFrom = s₀.cfg.nodeIndex <;> simp [hown]

end Node

structure Settled (s₀ : Node) (i : Int) (H : HashType) (P C : Finset IndexType) (seen : Bool) (s : Node) : Prop where
  held : Held s₀ i H P C seen s
  prepared : (s.cacheAt i).PrepareDecided s₀.cfg P seen
  committed : (s.cacheAt i).CommitDecided s₀.cfg C

namespace Settled

theorem voters_congr {P' C' : Finset IndexType} (hs : Settled s₀ i H P C seen s)
    (hP : insert s₀.cfg.nodeIndex P' = insert s₀.cfg.nodeIndex P)
    (hC : insert s₀.cfg.nodeIndex C' = insert s₀.cfg.nodeIndex C) :
    Settled s₀ i H P' C' seen s where
  held := { hs.held with cache := hs.held.cache.voters_congr hP hC }
  prepared := by
    unfold PBFTCache.PrepareDecided
    rw [hP]
    exact hs.prepared
  committed := by
    unfold PBFTCache.CommitDecided
    rw [hC]
    exact hs.committed

theorem insert_voters {S : Finset IndexType} {j : IndexType} (hown : m.generatedFrom = j) :
    insert j (PBFTCache.Standing.voters H S m) = insert j S := by
  unfold PBFTCache.Standing.voters
  split_ifs
  · rw [hown, Finset.insert_idem]
  · rfl

theorem prepare (hs : Settled s₀ i H P C seen s) (hw : s.inWindow i = true)
    (hm : (Delivery.prepare m).Valid E s₀ i H) :
    Settled s₀ i H (PBFTCache.Standing.voters H P m) C seen (s.handlePrepareMsg E m).1 := by
  obtain ⟨hindex, hview, hsig, hproposal⟩ := hm
  have hp : m.consensusProposal.isSome = true := by
    unfold Node.checkProposalSignature at hproposal
    cases hp : m.consensusProposal with
    | none =>
      rw [hp] at hproposal
      cases hproposal
    | some p => rfl
  have hcheck := Node.checkPBFTMsg_eq hs.held hw hindex hview hp hsig
  have hsame : s.checkProposalSignature E m.generatedFrom m.consensusProposal = true := by
    unfold Node.checkProposalSignature Config.getConsensusNodeByIndex at hproposal ⊢
    rw [hs.held.leaders.list]
    exact hproposal
  unfold Node.handlePrepareMsg
  rw [hcheck, hsame]
  by_cases hown : m.generatedFrom = s₀.cfg.nodeIndex
  · rw [if_pos (by simp [hown])]
    exact hs.voters_congr (insert_voters hown) rfl
  · rw [if_neg (by simp [hown]), if_neg (by simp)]
    obtain ⟨hbeside, hcache⟩ := Node.addCache_beside (H := H) (s := s) hindex
      (f := fun c => (c.addPrepareCache s.cfg m, [])) (fun a ha => by cases ha)
    have hstanding := hs.held.current.addPrepareCache hindex (by rw [hs.held.leaders.nodeIndex]; exact hown)
    have hheld : Held s₀ i H (PBFTCache.Standing.voters H P m) C seen (s.addPrepareCache m) :=
      hs.held.beside hbeside (hcache ▸ hs.held.original hstanding) (hcache ▸ rfl)
    have hcommitted : ((s.addPrepareCache m).cacheAt i).CommitDecided s₀.cfg C := by
      rw [show (s.addPrepareCache m).cacheAt i = _ from hcache]
      exact hs.committed
    obtain ⟨hdone, hlast, hprepared⟩ := Node.checkAndPreCommit_held E hheld hcommitted
    exact ⟨hdone, hprepared, hlast⟩

theorem commit (hs : Settled s₀ i H P C seen s) (hw : s.inWindow i = true)
    (hm : (Delivery.commit m).Valid E s₀ i H) {ret : Bool} (h : s.handleCommitMsg E m = some (t, ret))
    (hstay : t.viewsEntered = s.viewsEntered) : Settled s₀ i H P (PBFTCache.Standing.voters H C m) seen t := by
  obtain ⟨hindex, hview, hp, hsig⟩ := hm
  have hcheck := Node.checkPBFTMsg_eq hs.held hw hindex hview hp hsig
  unfold Node.handleCommitMsg at h
  rw [hcheck] at h
  by_cases hown : m.generatedFrom = s₀.cfg.nodeIndex
  · rw [if_pos (by simp [hown])] at h
    obtain ⟨rfl, -⟩ := Prod.mk.inj (Option.some.inj h)
    exact hs.voters_congr rfl (insert_voters hown)
  · rw [if_neg (by simp [hown])] at h
    obtain ⟨u, hu, h⟩ := Option.bind_eq_some_iff.1 h
    obtain ⟨rfl, -⟩ := Prod.mk.inj (Option.some.inj h)
    obtain ⟨hbeside, hcache⟩ := Node.addCache_beside (H := H) (s := s) hindex
      (f := fun c => (c.addCommitCache s.cfg m, [])) (fun a ha => by cases ha)
    have hstanding := hs.held.current.addCommitCache hindex (by rw [hs.held.leaders.nodeIndex]; exact hown)
    have hheld : Held s₀ i H P (PBFTCache.Standing.voters H C m) seen (s.addCommitReq m) :=
      hs.held.beside hbeside (hcache ▸ hs.held.original hstanding) (hcache ▸ rfl)
    have hprepared : ((s.addCommitReq m).cacheAt i).PrepareDecided s₀.cfg P seen := by
      rw [show (s.addCommitReq m).cacheAt i = _ from hcache]
      exact hs.prepared
    obtain ⟨hdone, hlast, hcommitted⟩ := Node.checkAndCommitLoop_held E hheld hprepared
    have hloop : s.viewsEntered ≤ (s.addCommitReq m).checkAndCommitLoop.viewsEntered := by
      have hsteps : Steps E (fun _ => True) (s.addCommitReq m) (s.addCommitReq m).checkAndCommitLoop :=
        Node.checkAndCommitLoop_steps _ (fun _ _ => trivial) trivial trivial
      have hlog : (s.addCommitReq m).log = s.log := List.append_nil _
      exact (congrArg (List.countP Action.clearsTables) hlog).symm.le.trans (Node.viewsEntered_mono hsteps)
    obtain ⟨hbeside, hcaches⟩ := Node.resetTimer_beside (i := i) (H := H) hu (hstay.le.trans hloop)
    have hsame := Node.cacheAt_congr (i := i) hcaches
    refine ⟨hdone.same hbeside hsame, ?_, ?_⟩
    · rw [hsame]
      exact hlast
    · rw [hsame]
      exact hcommitted

theorem accepts_prePrepare {newView : Bool} (hs : Held s₀ i H P C false s) (hw : s.inWindow i = true)
    (hm : (Delivery.prePrepare m newView).Valid E s₀ i H) : s.accepts m newView = true := by
  obtain ⟨hindex, hview, hhash, ⟨p, hp, -⟩, hleader⟩ := hm
  have hview : m.view = s.cfg.view := hview.trans hs.view.symm
  have hpre := hs.cache.unseen_precommitted
  have hnone : ∀ c, s.caches.find? i = some c → c.prePrepare = none ∧ c.precommit = none := by
    intro c hc
    have hcache : s.cacheAt i = c := by
      rw [Node.cacheAt, hc]
      rfl
    rw [← hcache, hs.cache.precommit, hpre]
    exact ⟨(hs.cache.unseen rfl).1, rfl⟩
  have hchecked : s.checkPrePrepareMsg m = true := by
    unfold Node.checkPrePrepareMsg Node.existPrePrepare Node.conflictWithProcessedReq Node.conflictWithPrecommitReq
    rw [Node.checkPBFTMsgState_window hw hindex hview (by rw [hp]; rfl), hindex]
    cases hc : s.caches.find? i with
    | none => rfl
    | some c =>
      obtain ⟨hnone, hnoPrecommit⟩ := hnone c hc
      simp [PBFTCache.existPrePrepare, PBFTCache.conflictWithProcessedReq, PBFTCache.conflictWithPrecommitReq, hnone,
        hnoPrecommit, hview]
  have hsub : (s.cacheAt i).submitted = false := by
    by_contra hsub
    have hdone := (hs.cache.late (by simpa using hsub)).1
    rw [hpre] at hdone
    cases hdone
  have hsync : s.isSyncingHigher = false := by
    unfold Node.inWindow at hw
    simpa using (Bool.and_eq_true_iff.1 hw).2
  have hled : (newView || s.cfg.leaderIndex m.index = m.generatedFrom) = true := by
    rcases hleader with rfl | hleader
    · rfl
    · have hsame : s.cfg.leaderIndex i = s₀.cfg.leaderIndex i := by
        unfold Config.leaderIndex
        rw [hs.leaders.leader, hs.view]
      rw [hindex, hsame, hleader]
      simp
  unfold Node.accepts
  rw [hsync, hhash, (hs.unqueued hsub).1, hchecked, hled]
  rfl

/-- Without a precommit nothing is submitted, and two looks for prepare quorums do what one does. -/
theorem of_held (hs : Held s₀ i H P C seen s) (hnot : (s.cacheAt i).precommitted = false) :
    Settled s₀ i H P C seen ((s.checkAndPreCommit E).checkAndPreCommit E) := by
  obtain ⟨hfirst, hcommitted, -⟩ := Node.checkAndPreCommit_held E hs (fun h => by rw [hnot] at h; cases h)
  obtain ⟨hlast, hcommitted, hprepared⟩ := Node.checkAndPreCommit_held E hfirst hcommitted
  exact ⟨hlast, hprepared, hcommitted⟩

theorem prePrepare {newView : Bool} (hs : Settled s₀ i H P C false s) (hw : s.inWindow i = true)
    (hm : (Delivery.prePrepare m newView).Valid E s₀ i H) :
    Settled s₀ i H P C true (s.handlePrePrepareMsg E m false newView false).1 := by
  rw [Node.handlePrePrepareMsg_accepted (accepts_prePrepare hs.held hw hm)]
  obtain ⟨hindex, hview, hhash, ⟨p, hp, hphash, hpindex⟩, -⟩ := hm
  have hflag := Node.asyncResetTxsFlag_quiet (E := E) s (m.consensusProposal.getD {}).data true
  dsimp only
  generalize s.asyncResetTxsFlag E (m.consensusProposal.getD {}).data true = u at hflag ⊢
  have hstored : Beside i H s (u.addPrePrepareCache m) ∧
      (u.addPrePrepareCache m).cacheAt i = ((s.cacheAt i).addPrePrepareCache m).1 := by
    have hsame : u.cacheAt i = s.cacheAt i := Node.cacheAt_congr (congrArg Core.caches hflag.core)
    obtain ⟨hbeside, hcache⟩ := Node.addCache_beside (H := H) (s := u) hindex (f := fun c => c.addPrePrepareCache m) (by
      intro a ha
      unfold PBFTCache.addPrePrepareCache at ha
      split_ifs at ha
      · rw [List.mem_singleton.1 ha]
        rfl
      · cases ha)
    have hmax := Node.notifyMaxProposalIndex_quiet (u.addCache m fun c => c.addPrePrepareCache m) m.index
    refine ⟨(((Prim.quiet (E := E) hflag).beside rfl).trans hbeside).trans ((Prim.quiet (E := E) hmax).beside rfl), ?_⟩
    rw [hsame] at hcache
    exact (Node.cacheAt_congr (congrArg Core.caches hmax.core)).trans hcache
  generalize u.addPrePrepareCache m = v at hstored ⊢
  obtain ⟨hbeside, hcache⟩ := hstored
  -- the own vote is for the hash of the proposal
  have hvote : (encodedMsg E v.cfg.keyPair (v.prepareVote E m)).hash = H := by
    change toHash (m.consensusProposal.getD {}).hash.val = H
    rw [toHash_val, show m.consensusProposal = some p from hp, Option.getD_some]
    exact hphash
  obtain ⟨hadd, haddCache⟩ := Node.addCache_beside (i := i) (H := H) (s := v)
    (m := encodedMsg E v.cfg.keyPair (v.prepareVote E m)) hindex
    (f := fun c => (c.addPrepareCache v.cfg (encodedMsg E v.cfg.keyPair (v.prepareVote E m)), [])) (fun a ha => by cases ha)
  have hleaders := hs.held.leaders.trans hbeside.leaders
  have hrequired := hbeside.required.trans hs.held.required
  have hsameView := hbeside.view.trans hs.held.view
  have hbefore := hs.held.cache.congr hleaders.list hrequired hleaders.nodeIndex hsameView
  have hstored : (((s.cacheAt i).addPrePrepareCache m).1.addPrepareCache v.cfg
      (encodedMsg E v.cfg.keyPair (v.prepareVote E m))).Standing v.cfg i H P C true :=
    hbefore.store hhash (hview.trans hsameView.symm) hp hphash hpindex hindex hvote rfl
  have hstanding := hstored.congr hleaders.list.symm hrequired.symm hleaders.nodeIndex.symm hsameView.symm
  have hsigned : ∀ a ∈ Action.sign (.proposal (m.consensusProposal.getD {}).hash) ::
      sendActions E v.cfg.keyPair none (.pbft (v.prepareVote E m)), a.pushesHash H = false := by
    intro a ha
    rcases List.mem_cons.1 ha with rfl | ha
    · rfl
    · rcases mem_sendActions ha with ⟨r, rfl⟩ | ⟨packet, data, rfl⟩ <;> rfl
  have hvoted : (v.addPrepareCache (encodedMsg E v.cfg.keyPair (v.prepareVote E m))).cacheAt i =
      ((s.cacheAt i).addPrePrepareCache m).1.addPrepareCache v.cfg (encodedMsg E v.cfg.keyPair (v.prepareVote E m)) := by
    rw [← hcache]
    exact haddCache
  have hflags : ((s.cacheAt i).addPrePrepareCache m).1.submitted = (s.cacheAt i).submitted ∧
      ((s.cacheAt i).addPrePrepareCache m).1.precommitted = (s.cacheAt i).precommitted := by
    unfold PBFTCache.addPrePrepareCache
    split_ifs <;> exact ⟨rfl, rfl⟩
  refine of_held (hs.held.beside ((hbeside.trans hadd).trans (Node.emit_beside hsigned)) ?_ ?_) ?_
  · change ((v.addPrepareCache _).cacheAt i).Standing s₀.cfg i H P C true
    rw [hvoted]
    exact hstanding
  · change ((v.addPrepareCache _).cacheAt i).submitted = _
    rw [hvoted]
    exact hflags.1
  · change ((v.addPrepareCache _).cacheAt i).precommitted = _
    rw [hvoted]
    exact hflags.2.trans hs.held.cache.unseen_precommitted

theorem start (hs : s.Untouched i H) (hcoherent : s.cfg.Coherent)
    (hmax : Config.totalWeight s.cfg.consensusNodeList < 2 ^ 64) : Settled s i H ∅ ∅ false s := by
  obtain ⟨hcache, hothers, hunqueued⟩ := hs
  have hempty : ∀ j, j ∉ PBFTCache.senders ∅ H := by
    intro j hj
    cases hj
  have hnot : (s.cacheAt i).precommitted = false := by rw [hcache]
  have hsub : (s.cacheAt i).submitted = false := by rw [hcache]
  refine ⟨⟨.refl _, rfl, rfl, hothers, ?_, fun _ => hunqueued, by rw [hsub]; rfl⟩, fun h => Bool.noConfusion h, fun h => ?_⟩
  · rw [hcache]
    refine ⟨hcoherent.minRequired_pos, hmax, rfl, .empty, .empty, fun j => ?_, fun j => ?_, fun _ => ⟨rfl, rfl⟩,
      fun h => Bool.noConfusion h, rfl, fun h => Bool.noConfusion h, fun h => Bool.noConfusion h⟩
    · simp [hempty]
    · simp [hempty]
  · rw [hnot] at h
    cases h

end Settled

theorem mem_prepareSenders {l : List Delivery} {j : IndexType} :
    j ∈ prepareSenders H l ↔ ∃ d ∈ l, d.prepares H = some j := by
  unfold prepareSenders
  rw [List.mem_toFinset, List.mem_filterMap]

theorem mem_commitSenders {l : List Delivery} {j : IndexType} : j ∈ commitSenders H l ↔ ∃ d ∈ l, d.commits H = some j := by
  unfold commitSenders
  rw [List.mem_toFinset, List.mem_filterMap]

theorem senders_snoc (l : List Delivery) (d : Delivery) (j : IndexType) :
    (j ∈ prepareSenders H (l ++ [d]) ↔ d.prepares H = some j ∨ j ∈ prepareSenders H l) ∧
      (j ∈ commitSenders H (l ++ [d]) ↔ d.commits H = some j ∨ j ∈ commitSenders H l) := by
  simp only [mem_prepareSenders, mem_commitSenders, List.mem_append, List.mem_singleton, or_and_right, exists_or,
    exists_eq_left]
  exact ⟨or_comm, or_comm⟩

theorem mem_voters_prepares {S : Finset IndexType} {j : IndexType} :
    j ∈ PBFTCache.Standing.voters H S m ↔ (Delivery.prepare m).prepares H = some j ∨ j ∈ S := by
  rw [PBFTCache.Standing.mem_voters]
  unfold Delivery.prepares
  dsimp only
  split_ifs with hhash <;> simp [hhash, eq_comm]

/-- A delivery adds its sender to the voters. -/
theorem deliverAt_settled {l : List Delivery} {d : Delivery}
    (hs : Settled s₀ i H (prepareSenders H l) (commitSenders H l) (l.any fun d => !d.isVote) s)
    (hd : d.Valid E s₀ i H) (hone : d.isVote = false → (l.any fun d => !d.isVote) = false)
    (h : s.deliverAt E i d = some t) : Settled s₀ i H (prepareSenders H (l ++ [d])) (commitSenders H (l ++ [d]))
      ((l ++ [d]).any fun d => !d.isVote) t := by
  unfold Node.deliverAt at h
  split_ifs at h with hw
  obtain ⟨h, hstay⟩ := Option.filter_eq_some_iff.1 h
  have hstay : t.viewsEntered = s.viewsEntered := by simpa using hstay
  have hsenders := senders_snoc (H := H) l d
  have hseen : (l ++ [d]).any (fun d => !d.isVote) = (l.any (fun d => !d.isVote) || !d.isVote) := by simp
  rw [hseen]
  cases d with
  | prePrepare m newView =>
    obtain rfl := Option.some.inj h
    rw [hone rfl] at hs ⊢
    have hP : prepareSenders H (l ++ [.prePrepare m newView]) = prepareSenders H l := by
      ext j
      exact (hsenders j).1.trans (or_iff_right fun h => by cases h)
    have hC : commitSenders H (l ++ [.prePrepare m newView]) = commitSenders H l := by
      ext j
      exact (hsenders j).2.trans (or_iff_right fun h => by cases h)
    rw [hP, hC]
    exact hs.prePrepare hw hd
  | prepare m =>
    obtain rfl := Option.some.inj h
    have hP : prepareSenders H (l ++ [.prepare m]) = PBFTCache.Standing.voters H (prepareSenders H l) m := by
      ext j
      exact (hsenders j).1.trans mem_voters_prepares.symm
    have hC : commitSenders H (l ++ [.prepare m]) = commitSenders H l := by
      ext j
      exact (hsenders j).2.trans (or_iff_right fun h => by cases h)
    rw [hP, hC, show (!(Delivery.prepare m).isVote) = false from rfl, Bool.or_false]
    exact hs.prepare hw hd
  | commit m =>
    obtain ⟨⟨u, ret⟩, hu, rfl⟩ := Option.map_eq_some_iff.1 h
    have hP : prepareSenders H (l ++ [.commit m]) = prepareSenders H l := by
      ext j
      exact (hsenders j).1.trans (or_iff_right fun h => by cases h)
    have hC : commitSenders H (l ++ [.commit m]) = PBFTCache.Standing.voters H (commitSenders H l) m := by
      ext j
      exact (hsenders j).2.trans mem_voters_prepares.symm
    rw [hP, hC, show (!(Delivery.commit m).isVote) = false from rfl, Bool.or_false]
    exact hs.commit hw hd hu hstay

theorem run_settled (hs : Settled s₀ i H ∅ ∅ false s₀) {trace : List (Node × Delivery)}
    (h : Trail (Node.deliverAt E i) s₀ trace t) (hvalid : ∀ x ∈ trace, x.2.Valid E s₀ i H)
    (hone : (trace.map Prod.snd).countP (fun d => !d.isVote) ≤ 1) :
    Settled s₀ i H (prepareSenders H (trace.map Prod.snd)) (commitSenders H (trace.map Prod.snd))
      ((trace.map Prod.snd).any fun d => !d.isVote) t := by
  induction h with
  | nil => exact hs
  | @snoc trace u v d h hd ih =>
    rw [List.map_append, List.countP_append] at hone
    have hbefore := ih (fun x hx => hvalid x (List.mem_append_left _ hx)) (by omega)
    rw [List.map_append]
    refine deliverAt_settled hbefore (hvalid (u, d) (List.mem_append_right _ List.mem_cons_self)) (fun hvote => ?_) hd
    have hlast : ([(u, d)].map Prod.snd).countP (fun d => !d.isVote) = 1 := by simp [hvote]
    have hnone : (trace.map Prod.snd).countP (fun d => !d.isVote) = 0 := by omega
    rw [List.countP_eq_zero] at hnone
    rw [List.any_eq_false]
    exact hnone

/-- The flags and the push in terms of the voters, for votes that come in any order around one pre-prepare. -/
theorem outcome_of_run {votes : List Delivery} {newView : Bool} (hs : s₀.Untouched i H) (hcoherent : s₀.cfg.Coherent)
    (hmax : Config.totalWeight s₀.cfg.consensusNodeList < 2 ^ 64) (hm : (Delivery.prePrepare m newView).Valid E s₀ i H)
    (hvotes : ∀ d ∈ votes, d.isVote = true ∧ d.Valid E s₀ i H) {trace : List (Node × Delivery)}
    (h : Trail (Node.deliverAt E i) s₀ trace t)
    (hperm : (trace.map Prod.snd).Perm (.prePrepare m newView :: votes)) : Outcome s₀ i H votes t := by
  have hnone : votes.countP (fun d => !d.isVote) = 0 := by
    rw [List.countP_eq_zero]
    intro d hd
    rw [(hvotes d hd).1]
    exact Bool.noConfusion
  have hsettled := run_settled (.start hs hcoherent hmax) h (fun x hx => by
    rcases List.mem_cons.1 (hperm.mem_iff.1 (List.mem_map_of_mem hx)) with heq | hmem
    · rw [heq]
      exact hm
    · exact (hvotes _ hmem).2) (by rw [hperm.countP_eq, List.countP_cons, hnone]; simp [Delivery.isVote])
  have hP : prepareSenders H (trace.map Prod.snd) = prepareSenders H votes := by
    ext j
    simp only [mem_prepareSenders, hperm.mem_iff, List.exists_mem_cons_iff]
    exact or_iff_right fun h => by cases h
  have hC : commitSenders H (trace.map Prod.snd) = commitSenders H votes := by
    ext j
    simp only [mem_commitSenders, hperm.mem_iff, List.exists_mem_cons_iff]
    exact or_iff_right fun h => by cases h
  have hseen : ((trace.map Prod.snd).any fun d => !d.isVote) = true :=
    List.any_eq_true.2 ⟨_, hperm.mem_iff.2 List.mem_cons_self, rfl⟩
  rw [hP, hC, hseen] at hsettled
  obtain ⟨hheld, hprepared, hcommitted⟩ := hsettled
  refine ⟨⟨fun hpre => (hheld.cache.early hpre).2, hprepared rfl⟩, ⟨fun hsub => hheld.cache.late hsub, fun hboth => ?_⟩,
    hheld.pushes⟩
  exact hcommitted hboth.1 hboth.2

end

/-- Over a node list whose weights add up to less than `2 ^ 64`, a pre-prepare and any votes lead to the same flags in
whatever order they are delivered: the voters for the hash, with the node itself, decide on them, and a submission is
one push. -/
theorem votes_confluent {E : Env} {s : Node} {i : Int} {H : HashType} {m : PBFTMessage} {newView : Bool}
    {votes : List Delivery} (hs : s.Untouched i H) (hcoherent : s.cfg.Coherent)
    (hmax : Config.totalWeight s.cfg.consensusNodeList < 2 ^ 64) (hm : (Delivery.prePrepare m newView).Valid E s i H)
    (hvotes : ∀ d ∈ votes, d.isVote = true ∧ d.Valid E s i H) :
    (∀ trace t, Trail (Node.deliverAt E i) s trace t → (trace.map Prod.snd).Perm (.prePrepare m newView :: votes) →
      Outcome s i H votes t) ∧
    ∀ trace t trace' t', Trail (Node.deliverAt E i) s trace t → Trail (Node.deliverAt E i) s trace' t' →
      (trace.map Prod.snd).Perm (.prePrepare m newView :: votes) → (trace'.map Prod.snd).Perm (trace.map Prod.snd) →
        (t.cacheAt i).precommitted = (t'.cacheAt i).precommitted ∧ (t.cacheAt i).submitted = (t'.cacheAt i).submitted ∧
          t.pushes H = t'.pushes H := by
  have houtcome : ∀ trace t, Trail (Node.deliverAt E i) s trace t →
      (trace.map Prod.snd).Perm (.prePrepare m newView :: votes) → Outcome s i H votes t :=
    fun _ _ h hperm => outcome_of_run hs hcoherent hmax hm hvotes h hperm
  refine ⟨houtcome, fun trace t trace' t' h h' hperm hperm' => ?_⟩
  have ht := houtcome trace t h hperm
  have ht' := houtcome trace' t' h' (hperm'.trans hperm)
  have hpre : (t.cacheAt i).precommitted = (t'.cacheAt i).precommitted :=
    Bool.eq_iff_iff.2 (ht.precommitted.trans ht'.precommitted.symm)
  have hsub : (t.cacheAt i).submitted = (t'.cacheAt i).submitted := by
    rw [Bool.eq_iff_iff, ht.submitted, ht'.submitted, hpre]
  refine ⟨hpre, hsub, ?_⟩
  rw [ht.pushes, ht'.pushes, hsub]

instance (E : Env) (s : Node) (i : Int) (H : HashType) : (d : Delivery) → Decidable (d.Valid E s i H)
  | .prePrepare _ _ => inferInstanceAs (Decidable (_ ∧ _ ∧ _ ∧ _ ∧ _))
  | .prepare _ => inferInstanceAs (Decidable (_ ∧ _ ∧ _ ∧ _))
  | .commit _ => inferInstanceAs (Decidable (_ ∧ _ ∧ _ ∧ _))

instance (c : Config) : Decidable c.Coherent :=
  decidable_of_iff (_ ∧ _ ∧ _) ⟨fun h => ⟨h.1, h.2.1, h.2.2⟩, fun h => ⟨h.total, h.faulty, h.required⟩⟩

theorem Node.untouched_of_empty {s : Node} {i : Int} {H : HashType} (hcaches : s.caches = ∅)
    (hexecuting : s.executingProposals.contains H = false) (hqueue : s.committedQueue = []) : s.Untouched i H := by
  refine ⟨?_, fun k c _ hc => ?_, hexecuting, fun p hp => ?_⟩
  · unfold cacheAt
    rw [hcaches]
    rfl
  · rw [hcaches] at hc
    cases hc
  · rw [hqueue] at hp
    cases hp

def toyBallot (packetType : PacketType) (b : UInt8) (content : UInt8) : PBFTMessage :=
  encodedMsg Toy.env (Toy.keyPair b)
    (populateVote Toy.env (Toy.keyPair b) packetType 0 0 0 (.ofNat b.toNat) (Toy.proposal content))

def toyProposed : Delivery := .prePrepare (populatePrePrepare .PrePreparePacket (Toy.proposal 7) 0 0 0 1) false

def toyBallots : List Delivery :=
  [.commit (toyBallot .CommitPacket 1 7), .prepare (toyBallot .PreparePacket 1 7), .commit (toyBallot .CommitPacket 2 7),
    .prepare (toyBallot .PreparePacket 3 8), .prepare (toyBallot .PreparePacket 2 7), .prepare (toyBallot .PreparePacket 1 7)]

/-- The pre-prepare comes after a commit and a prepare vote, and one vote comes twice. -/
theorem toyBallots_confluent : ∃ trace t, Trail.states (Node.deliverAt Toy.env 1) (Toy.node 0 [1, 1, 1, 1])
    (toyBallots.take 2 ++ toyProposed :: toyBallots.drop 2) = some (trace, t) ∧ (t.cacheAt 1).submitted = true ∧
    Outcome (Toy.node 0 [1, 1, 1, 1]) 1 (Toy.checksum [1, 7]) toyBallots t := by
  have hstart : (Toy.node 0 [1, 1, 1, 1]).Untouched 1 (Toy.checksum [1, 7]) :=
    Node.untouched_of_empty rfl (by decide +kernel) (by decide +kernel)
  have hvotes : ∀ d ∈ toyBallots, d.isVote = true ∧ d.Valid Toy.env (Toy.node 0 [1, 1, 1, 1]) 1 (Toy.checksum [1, 7]) := by
    decide +kernel
  have hproposed : toyProposed.Valid Toy.env (Toy.node 0 [1, 1, 1, 1]) 1 (Toy.checksum [1, 7]) := by decide +kernel
  have hrun : ((Trail.states (Node.deliverAt Toy.env 1) (Toy.node 0 [1, 1, 1, 1])
      (toyBallots.take 2 ++ toyProposed :: toyBallots.drop 2)).elim false fun r =>
        (r.2.cacheAt 1).submitted && decide ((r.1.map Prod.snd).Perm (toyProposed :: toyBallots))) = true := by decide +kernel
  obtain ⟨⟨trace, t⟩, ht, hcheck⟩ := Toy.exists_of_elim hrun
  simp only [Bool.and_eq_true, decide_eq_true_eq] at hcheck
  exact ⟨trace, t, ht, hcheck.1,
    (votes_confluent hstart (by decide +kernel) (by decide +kernel) hproposed hvotes).1 trace t (.of_states ht) hcheck.2⟩

def toyHeavy : Node := Toy.node 0 [9223372036854775808, 9223372036854775808, 9223372036854775808]

/-- The node precommits with its own vote alone, and not with another one before it, whose weight takes the sum to zero. -/
theorem toyHeavy_ordered : toyHeavy.Untouched 1 (Toy.checksum [1, 7]) ∧ toyHeavy.cfg.Coherent ∧
    toyProposed.Valid Toy.env toyHeavy 1 (Toy.checksum [1, 7]) ∧
    (Delivery.prepare (toyBallot .PreparePacket 1 7)).Valid Toy.env toyHeavy 1 (Toy.checksum [1, 7]) ∧
    ∃ trace t trace' t', Trail (Node.deliverAt Toy.env 1) toyHeavy trace t ∧
      Trail (Node.deliverAt Toy.env 1) toyHeavy trace' t' ∧
      trace.map Prod.snd = [toyProposed, .prepare (toyBallot .PreparePacket 1 7)] ∧
      trace'.map Prod.snd = [.prepare (toyBallot .PreparePacket 1 7), toyProposed] ∧
      (t.cacheAt 1).precommitted = true ∧ (t'.cacheAt 1).precommitted = false := by
  have hrun : ((Trail.states (Node.deliverAt Toy.env 1) toyHeavy [toyProposed, .prepare (toyBallot .PreparePacket 1 7)]).elim
      false fun r => decide (r.1.map Prod.snd = [toyProposed, .prepare (toyBallot .PreparePacket 1 7)]) &&
        (r.2.cacheAt 1).precommitted) = true := by decide +kernel
  have hrun' : ((Trail.states (Node.deliverAt Toy.env 1) toyHeavy [.prepare (toyBallot .PreparePacket 1 7), toyProposed]).elim
      false fun r => decide (r.1.map Prod.snd = [.prepare (toyBallot .PreparePacket 1 7), toyProposed]) &&
        !(r.2.cacheAt 1).precommitted) = true := by decide +kernel
  obtain ⟨⟨trace, t⟩, ht, hcheck⟩ := Toy.exists_of_elim hrun
  obtain ⟨⟨trace', t'⟩, ht', hcheck'⟩ := Toy.exists_of_elim hrun'
  simp only [Bool.and_eq_true, decide_eq_true_eq, Bool.not_eq_true'] at hcheck hcheck'
  exact ⟨Node.untouched_of_empty rfl (by decide +kernel) (by decide +kernel), by decide +kernel, by decide +kernel,
    by decide +kernel, trace, t, trace', t', .of_states ht, .of_states ht', hcheck.1, hcheck'.1, hcheck.2, hcheck'.2⟩

end BcosPbft
