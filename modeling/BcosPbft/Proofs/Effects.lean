import BcosPbft.Proofs.Refine

/-! What a primitive step does to one cache and what it adds to the log. An invariant of the caches is checked
for each cache step, and an invariant of the log for each action a step can emit. -/

namespace BcosPbft

theorem setSignatureList_proposal (p : PBFTProposal) (cached : CollectionCache) :
    (PBFTCache.setSignatureList p cached).proposal = p.proposal := by
  unfold PBFTCache.setSignatureList
  generalize ((cached.find? p.hash).getD ∅).entries = entries
  suffices h : ∀ acc : PBFTProposal, acc.proposal = p.proposal → (entries.foldl (fun acc e =>
      acc.appendSignatureProof e.1.toNat ((e.2.consensusProposal.map (·.signature)).getD [])) acc).proposal = p.proposal by
    exact h _ rfl
  induction entries with
  | nil => exact fun acc h => h
  | cons e entries ih => exact fun acc h => ih _ h

theorem populateProposal_record (p : PBFTProposal) (withData : Bool) : (populateProposal p withData).proposal =
    { index := p.index, hash := p.hash.val, sealerId := p.proposal.sealerId, data := if withData then p.data else [] } := by
  unfold populateProposal
  rw [if_pos rfl]
  generalize (List.range p.signatureProofSize).filterMap p.signatureProof = proofs
  suffices h : ∀ acc : PBFTProposal, (proofs.foldl (fun acc proof => acc.appendSignatureProof proof.1 proof.2) acc).proposal =
      acc.proposal by
    exact h _
  induction proofs with
  | nil => exact fun acc => rfl
  | cons proof proofs ih => exact fun acc => ih _

theorem populateProposal_proposal (p : PBFTProposal) (withData : Bool) :
    (populateProposal p withData).index = p.index ∧ (populateProposal p withData).hash = p.hash := by
  unfold PBFTProposal.index PBFTProposal.hash
  rw [populateProposal_record]
  exact ⟨rfl, toHash_val p.hash⟩

namespace PBFTCache

/-- The cache after `checkAndPreCommit` entered the precommit phase and counted its own commit vote. -/
def enterPrecommit (E : Env) (cfg : Config) (now : Int) (c : PBFTCache) (m : PBFTMessage) (p : PBFTProposal) :
    PBFTCache :=
  { (intoPrecommit E cfg c m p).addCommitCache cfg (encodedMsg E cfg.keyPair (commitVote E cfg now p)) with
    precommitted := true }

def precommitActions (E : Env) (cfg : Config) (now : Int) (c : PBFTCache) (m : PBFTMessage) (p : PBFTProposal) :
    List Action :=
  .precommit c.index m :: .sign (.proposal p.hash) :: sendActions E cfg.keyPair none (.pbft (commitVote E cfg now p))

/-- `checkAndPreCommit` does nothing, or the pre-prepare has its prepare quorum and is precommitted. -/
theorem checkAndPreCommit_cases (E : Env) (cfg : Config) (now : Int) (c : PBFTCache) :
    c.checkAndPreCommit E cfg now = (c, false, []) ∨
      ∃ m p, c.prePrepare = some m ∧ m.consensusProposal = some p ∧ c.precommitted = false ∧
        c.precommitIsCurrent = false ∧ c.collectEnoughPrepareReq cfg = true ∧
        c.checkAndPreCommit E cfg now = (((c.enterPrecommit E cfg now m p).checkAndCommit cfg).1,
          ((c.enterPrecommit E cfg now m p).checkAndCommit cfg).2, c.precommitActions E cfg now m p) := by
  unfold checkAndPreCommit
  split
  · exact Or.inl rfl
  rename_i hnot
  split
  · exact Or.inl rfl
  rename_i hcurrent
  split
  · exact Or.inl rfl
  rename_i henough
  split
  · exact Or.inl rfl
  · rename_i m hm
    split
    · exact Or.inl rfl
    · rename_i p hp
      exact Or.inr ⟨m, p, hm, hp, by simpa using hnot, by simpa using hcurrent, by simpa using henough, rfl⟩

theorem checkAndPreCommit_enters {E : Env} {cfg : Config} {now : Int} {c : PBFTCache} {m : PBFTMessage} {p : PBFTProposal}
    (hm : c.prePrepare = some m) (hp : m.consensusProposal = some p) (hnot : c.precommitted = false)
    (hcurrent : c.precommitIsCurrent = false) (henough : c.collectEnoughPrepareReq cfg = true) :
    c.checkAndPreCommit E cfg now = (((c.enterPrecommit E cfg now m p).checkAndCommit cfg).1,
      ((c.enterPrecommit E cfg now m p).checkAndCommit cfg).2, c.precommitActions E cfg now m p) := by
  unfold checkAndPreCommit
  simp only [hnot, hcurrent, henough, hm, hp]
  rfl

/-- A reported commit has the tally of its pre-prepare's hash at the quorum. -/
theorem checkAndCommit_cases (cfg : Config) (c : PBFTCache) :
    c.checkAndCommit cfg = (c, false) ∨
      c.checkAndCommit cfg = ({ c with submitted := true }, true) ∧ c.precommit.isSome = true ∧
        ∃ m w, c.prePrepare = some m ∧ m.view = cfg.view ∧ c.commitReqWeight.find? m.hash = some w ∧
          cfg.minRequiredQuorum ≤ w := by
  unfold checkAndCommit
  split
  · exact Or.inl rfl
  split
  · exact Or.inl rfl
  rename_i hpre
  split
  · exact Or.inl rfl
  rename_i henough
  refine Or.inr ⟨rfl, by simpa [Option.isSome_iff_ne_none] using hpre, ?_⟩
  have h : c.collectEnoughCommitReq cfg = true := by simpa using henough
  unfold collectEnoughCommitReq checkPrePrepareProposalStatus collectEnoughQuorum at h
  cases hm : c.prePrepare with
  | none => simp [hm] at h
  | some m =>
    simp only [hm, Option.any_some, Bool.and_eq_true, decide_eq_true_eq] at h
    obtain ⟨hview, h⟩ := h
    split at h
    · simp at h
    · rename_i w hw
      exact ⟨m, w, rfl, hview, hw, by simpa using h⟩

/-- `checkAndCommitStableCheckPoint` does nothing, or the executed proposal has its quorum and gets the proof. -/
theorem checkAndCommitStableCheckPoint_cases (cfg : Config) (c : PBFTCache) :
    c.checkAndCommitStableCheckPoint cfg = (c, false) ∨
      ∃ p w, c.checkpointProposal = some p ∧ c.stableCommitted = false ∧
        c.checkpointCacheWeight.find? p.hash = some w ∧ cfg.minRequiredQuorum ≤ w ∧
        c.checkAndCommitStableCheckPoint cfg =
          ({ c with checkpointProposal := some (setSignatureList p c.checkpointCacheList), stableCommitted := true },
            !decide (cfg.committedIndex ≥ (setSignatureList p c.checkpointCacheList).index)) := by
  unfold checkAndCommitStableCheckPoint
  split
  · exact Or.inl rfl
  rename_i hnot
  simp only [Bool.or_eq_true, Bool.not_eq_true', not_or, Bool.not_eq_true, Bool.not_eq_false] at hnot
  obtain ⟨hst, henough⟩ := hnot
  cases hp : c.checkpointProposal with
  | none => exact Or.inl rfl
  | some p =>
    simp only [collectEnoughCheckpoint, hp, Option.any_some, collectEnoughQuorum] at henough
    split at henough
    · cases henough
    · rename_i w hw
      exact Or.inr ⟨p, w, rfl, hst, hw, by simpa using henough, rfl⟩

theorem enterPrecommit_prePrepare (E : Env) (cfg : Config) (now : Int) (c : PBFTCache) (m : PBFTMessage)
    (p : PBFTProposal) : (c.enterPrecommit E cfg now m p).prePrepare =
      some ((m.setGeneratedFrom cfg.nodeIndex).setConsensusProposal (setSignatureList p c.prepareCacheList)) := rfl

theorem enterPrecommit_precommit (E : Env) (cfg : Config) (now : Int) (c : PBFTCache) (m : PBFTMessage)
    (p : PBFTProposal) : (c.enterPrecommit E cfg now m p).precommit =
      some ((m.setGeneratedFrom cfg.nodeIndex).setConsensusProposal (setSignatureList p c.prepareCacheList)) := rfl

end PBFTCache

namespace PBFTCache

/-- `encode` of the stored pre-prepare, and of the precommit when it is the same object. -/
def reencode (E : Env) (keyPair : KeyPair) (c : PBFTCache) : PBFTCache :=
  { c with
    prePrepare := c.prePrepare.map (encodedMsg E keyPair)
    precommit := if c.precommit = c.prePrepare then c.precommit.map (encodedMsg E keyPair) else c.precommit }

end PBFTCache

/-- How a primitive step with a label changes the cache of an index. -/
inductive CacheStep (E : Env) (cfg : Config) (now : Int) : Label → Int → PBFTCache → PBFTCache → Prop
  | same (l : Label) (i : Int) (c : PBFTCache) : CacheStep E cfg now l i c c
  | store (m : PBFTMessage) (c : PBFTCache) (h : c.acceptsPrePrepare m = true) :
      CacheStep E cfg now (.store m) m.index c { c with prePrepare := some m }
  | vote (m : PBFTMessage) (c : PBFTCache) :
      CacheStep E cfg now (.vote m) m.index c (c.addPrepareCache cfg (prepareVoteOf E cfg now m))
  | prepare (m : PBFTMessage) (c : PBFTCache) : CacheStep E cfg now (.prepare m) m.index c (c.addPrepareCache cfg m)
  | commit (m : PBFTMessage) (c : PBFTCache) : CacheStep E cfg now (.commit m) m.index c (c.addCommitCache cfg m)
  | checkPoint (own : Bool) (m : PBFTMessage) (c : PBFTCache) :
      CacheStep E cfg now (.checkPoint own m) m.index c (c.addCheckPointMsg cfg m)
  | preCommit (i : Int) (c : PBFTCache) : CacheStep E cfg now .preCommit i c (c.checkAndPreCommit E cfg now).1
  | submit (i : Int) (c : PBFTCache) : CacheStep E cfg now .submit i c (c.checkAndCommit cfg).1
  | reset (v : ViewType) (i : Int) (c : PBFTCache) : CacheStep E cfg now .reset i c (c.resetCache cfg v).1
  | stable (i : Int) (c : PBFTCache) : CacheStep E cfg now .stable i c (c.checkAndCommitStableCheckPoint cfg).1
  | reencode (i : Int) (c : PBFTCache) : CacheStep E cfg now .reencode i c (c.reencode E cfg.keyPair)
  | setCheckPoint (p : PBFTProposal) (c : PBFTCache) :
      CacheStep E cfg now (.setCheckPoint p) p.index c (c.setCheckPointProposal cfg p)

section

variable {E : Env} {l : Label} {s t : Node} {i : Int} {c' : PBFTCache}

theorem cacheStep_of_same (hcaches : t.caches = s.caches) (hc' : t.caches.find? i = some c') :
    CacheStep E s.cfg s.utcTime l i ((s.caches.find? i).getD { index := i }) c' := by
  rw [hcaches] at hc'
  rw [hc']
  exact .same l i c'

theorem cacheStep_of_insert {j : Int} {c : PBFTCache} (hcaches : t.caches = s.caches.insert j c)
    (hc : CacheStep E s.cfg s.utcTime l j ((s.caches.find? j).getD { index := j }) c)
    (hc' : t.caches.find? i = some c') :
    CacheStep E s.cfg s.utcTime l i ((s.caches.find? i).getD { index := i }) c' := by
  rw [hcaches, OrdMap.find?_insert] at hc'
  split_ifs at hc' with hi
  · subst hi
    obtain rfl := Option.some.inj hc'
    exact hc
  · rw [hc']
    exact .same l i c'

end

theorem Node.reported_caches (s : Node) (c : PBFTCache) (ret : Bool) : (s.reported c ret).1.caches = s.caches := by
  unfold reported
  split <;> rfl

theorem Node.onExecuted_caches (E : Env) (s : Node) (i : Nat) (error : Bool) :
    (s.onExecuted E i error).caches = s.caches := by
  unfold onExecuted
  split
  · rfl
  · dsimp only
    split
    · rfl
    · split <;> rfl

theorem Node.addViewChangeReq_caches (s : Node) (m : ViewChangeMsg) : (s.addViewChangeReq m).caches = s.caches := by
  unfold addViewChangeReq
  split
  · rfl
  · split <;> rfl

theorem Prim.cacheStep {E : Env} {l : Label} {s t : Node} (h : Prim E l s t) {i : Int} {c' : PBFTCache}
    (hc' : t.caches.find? i = some c') :
    CacheStep E s.cfg s.utcTime l i ((s.caches.find? i).getD { index := i }) c' := by
  cases h with
  | quiet h => exact cacheStep_of_same (congrArg Core.caches h.core) hc'
  | @store _ m h =>
    refine cacheStep_of_insert (j := m.index) rfl ?_ hc'
    unfold PBFTCache.addPrePrepareCache
    dsimp only
    split
    · rename_i hacc
      exact .store m _ hacc
    · exact .same _ _ _
  | vote _ h => exact cacheStep_of_insert rfl (.vote _ _) hc'
  | prepare _ h hp => exact cacheStep_of_insert rfl (.prepare _ _) hc'
  | commit _ h => exact cacheStep_of_insert rfl (.commit _ _) hc'
  | checkPoint _ h => exact cacheStep_of_insert rfl (.checkPoint _ _ _) hc'
  | preCommit _ j =>
    unfold Node.preCommitAt at hc'
    split at hc'
    · exact cacheStep_of_same rfl hc'
    · rename_i c hc
      refine cacheStep_of_insert (j := j) (Node.reported_caches _ _ _) ?_ hc'
      rw [hc]
      exact .preCommit j c
  | submit _ j =>
    unfold Node.commitAt at hc'
    split at hc'
    · exact cacheStep_of_same rfl hc'
    · rename_i c hc
      refine cacheStep_of_insert (j := j) (Node.reported_caches _ _ _) ?_ hc'
      rw [hc]
      exact .submit j c
  | reset _ v j =>
    unfold Node.resetCacheAt at hc'
    split at hc'
    · exact cacheStep_of_same rfl hc'
    · rename_i c hc
      refine cacheStep_of_insert (j := j) rfl ?_ hc'
      rw [hc]
      exact .reset v j c
  | stable _ acc j =>
    unfold Node.checkStableAt at hc'
    split at hc'
    · exact cacheStep_of_same rfl hc'
    · rename_i c hc
      dsimp only at hc
      refine cacheStep_of_insert (j := j) rfl ?_ hc'
      rw [hc]
      exact .stable j c
  | reencode _ j =>
    unfold Node.encodePrePrepare at hc'
    split at hc'
    · exact cacheStep_of_same rfl hc'
    · rename_i c hc
      refine cacheStep_of_insert (j := j) rfl ?_ hc'
      rw [hc]
      exact .reencode j c
  | erase _ keep hgone hg hn =>
    change (s.caches.filter keep).find? i = some c' at hc'
    rw [OrdMap.find?_filter] at hc'
    rw [(Option.filter_eq_some_iff.1 hc').1]
    exact .same _ i c'
  | setCheckPoint _ p => exact cacheStep_of_insert rfl (.setCheckPoint p _) hc'
  | @apply _ p lastApplied rest hq hindex hlast hx =>
    exact cacheStep_of_same (congrArg Core.caches ((s.takeProposal p rest).applyStateMachine_core lastApplied p)) hc'
  | executed _ j error => exact cacheStep_of_same (s.onExecuted_caches E j error) hc'
  | viewChange _ hown hsig => exact cacheStep_of_same (s.addViewChangeReq_caches _) hc'
  | newView h =>
    obtain ⟨w, list, -, -, -, -, rfl⟩ := s.checkAndTryIntoNewView_some h
    exact cacheStep_of_same rfl hc'
  | _ => exact cacheStep_of_same rfl hc'

theorem Prim.stays {E : Env} {l : Label} {s t : Node} (h : Prim E l s t) (hl : l ≠ .erase) {i : Int} {c : PBFTCache}
    (hc : s.caches.find? i = some c) : ∃ c', t.caches.find? i = some c' := by
  have hsame : ∀ {u : Node}, u.caches = s.caches → ∃ c', u.caches.find? i = some c' := fun heq => ⟨c, by rw [heq, hc]⟩
  have hinsert : ∀ {u : Node} (j : Int) (d : PBFTCache), u.caches = s.caches.insert j d →
      ∃ c', u.caches.find? i = some c' := by
    intro u j d heq
    rw [heq, OrdMap.find?_insert]
    split_ifs
    · exact ⟨d, rfl⟩
    · exact ⟨c, hc⟩
  cases h with
  | quiet h => exact hsame (congrArg Core.caches h.core)
  | preCommit _ j =>
    unfold Node.preCommitAt
    split
    · exact hsame rfl
    · exact hinsert j _ (Node.reported_caches _ _ _)
  | submit _ j =>
    unfold Node.commitAt
    split
    · exact hsame rfl
    · exact hinsert j _ (Node.reported_caches _ _ _)
  | reset _ v j =>
    unfold Node.resetCacheAt
    split
    · exact hsame rfl
    · exact hinsert j _ rfl
  | stable _ acc j =>
    unfold Node.checkStableAt
    split
    · exact hsame rfl
    · exact hinsert j _ rfl
  | reencode _ j =>
    unfold Node.encodePrePrepare
    split
    · exact hsame rfl
    · exact hinsert j _ rfl
  | store _ h => exact hinsert _ _ rfl
  | vote _ h => exact hinsert _ _ rfl
  | prepare _ h hp => exact hinsert _ _ rfl
  | commit _ h => exact hinsert _ _ rfl
  | checkPoint _ h => exact hinsert _ _ rfl
  | setCheckPoint _ p => exact hinsert _ _ rfl
  | erase _ keep hgone hg hn => exact absurd rfl hl
  | @apply _ p lastApplied rest hq hindex hlast hx =>
    exact hsame (congrArg Core.caches ((s.takeProposal p rest).applyStateMachine_core lastApplied p))
  | executed _ j error => exact hsame (s.onExecuted_caches E j error)
  | viewChange _ hown hsig => exact hsame (s.addViewChangeReq_caches _)
  | newView h =>
    obtain ⟨w, list, -, -, -, -, rfl⟩ := s.checkAndTryIntoNewView_some h
    exact hsame rfl
  | _ => exact hsame rfl

theorem mem_sendActions {E : Env} {keyPair : KeyPair} {dst : Option NodeID} {msg : Message} {a : Action}
    (h : a ∈ sendActions E keyPair dst msg) : (∃ r, a = .sign r) ∨ ∃ packet data, a = .send dst packet data := by
  simp only [sendActions, List.mem_append, List.mem_map, List.mem_singleton] at h
  rcases h with ⟨r, -, rfl⟩ | rfl
  · exact Or.inl ⟨r, rfl⟩
  · exact Or.inr ⟨_, _, rfl⟩

def announceActions (E : Env) (s : Node) (r : Applied) : List Action :=
  .asyncCommitProposal r.proposal :: checkPointActions E s r.executedProposal

/-- The actions a primitive step with a label can emit in a state. -/
inductive Emits (E : Env) (s : Node) : Label → Action → Prop
  | neutral (l : Label) {a : Action} (h : a.neutral = true) : Emits E s l a
  | store (m : PBFTMessage) :
      Emits E s (.store m) (.storePrePrepare ((s.caches.find? m.index).getD { index := m.index }).index m)
  | vote {m : PBFTMessage} {a : Action} (ha : a ∈ voteActions E s m) : Emits E s (.vote m) a
  | preCommit {i : Int} {c : PBFTCache} {m : PBFTMessage} {p : PBFTProposal} {a : Action}
      (hc : s.caches.find? i = some c) (hm : c.prePrepare = some m) (hp : m.consensusProposal = some p)
      (henough : c.collectEnoughPrepareReq s.cfg = true) (ha : a ∈ c.precommitActions E s.cfg s.utcTime m p) :
      Emits E s .preCommit a
  | reportPreCommit {i : Int} {c : PBFTCache} {m : PBFTMessage} {p : PBFTProposal} (hc : s.caches.find? i = some c)
      (hm : c.prePrepare = some m) (hp : m.consensusProposal = some p)
      (hret : ((c.enterPrecommit E s.cfg s.utcTime m p).checkAndCommit s.cfg).2 = true) :
      Emits E s .preCommit (.reportCommit ((c.enterPrecommit E s.cfg s.utcTime m p).checkAndCommit s.cfg).1
        s.cfg.minRequiredQuorum)
  | reportSubmit {i : Int} {c : PBFTCache} (hc : s.caches.find? i = some c)
      (hret : (c.checkAndCommit s.cfg).2 = true) :
      Emits E s .submit (.reportCommit (c.checkAndCommit s.cfg).1 s.cfg.minRequiredQuorum)
  | erase (i : Int) : Emits E s .erase (.eraseCache i)
  | push (source : PushSource) (p : PBFTProposal) : Emits E s (.push source p) (.pushCommitted p)
  | apply (lastApplied p : PBFTProposal) : Emits E s (.apply lastApplied p) (.asyncApply lastApplied p)
  | announce {r : Applied} {rest : List Applied} {a : Action} (h : s.applied = r :: rest) (hs : r.success = true)
      (ha : a ∈ announceActions E s r) : Emits E s .announce a
  | resend {i : Int} {c : PBFTCache} {p : PBFTProposal} {a : Action} (hc : s.caches.find? i = some c)
      (hp : c.checkpointProposal = some p) (ha : a ∈ checkPointActions E s p) : Emits E s .resend a
  | popStable {p : PBFTProposal} (h : p ∈ s.stableCheckPointQueue) (hindex : p.index = s.cfg.committedIndex + 1) :
      Emits E s .popStable (.asyncCommitStableCheckPoint p)
  | newView {t : Node} {m : NewViewMsg} {a : Action} (h : s.checkAndTryIntoNewView E = some (t, some m))
      (ha : a ∈ sendActions E s.cfg.keyPair none (.newView m)) : Emits E s (.newView m) a
  | sendViewChange {dst : Option NodeID} {a : Action}
      (ha : a ∈ sendActions E s.cfg.keyPair dst (.viewChange s.generateViewChange)) : Emits E s .sendViewChange a
  | dropViewChanges (view : ViewType) (i : Int) :
      Emits E s .dropViewChanges (.dropViewChanges (s.invalidViews view i))
  | clearTables : Emits E s .clearTables (.clearIndexTables s.viewChangeViews)

theorem Node.reported_log (s : Node) (c : PBFTCache) (ret : Bool) :
    ∃ k, (s.reported c ret).1.log = s.log ++ k ∧
      ∀ a ∈ k, ret = true ∧ a = .reportCommit c s.cfg.minRequiredQuorum := by
  unfold reported
  split
  · rename_i hret
    exact ⟨_, rfl, by simp [hret]⟩
  · exact ⟨[], (List.append_nil _).symm, by simp⟩

theorem Node.preCommitAt_cases (E : Env) (s : Node) (i : Int) :
    ((∀ j, (s.preCommitAt E i).1.caches.find? j = s.caches.find? j) ∧ (s.preCommitAt E i).1.log = s.log) ∨
    ∃ c m p k, s.caches.find? i = some c ∧ c.prePrepare = some m ∧ m.consensusProposal = some p ∧
      c.precommitted = false ∧ c.precommitIsCurrent = false ∧ c.collectEnoughPrepareReq s.cfg = true ∧
      (s.preCommitAt E i).1.caches =
        s.caches.insert i ((c.enterPrecommit E s.cfg s.utcTime m p).checkAndCommit s.cfg).1 ∧
      (s.preCommitAt E i).1.log = s.log ++ c.precommitActions E s.cfg s.utcTime m p ++ k ∧
      ∀ a ∈ k, ((c.enterPrecommit E s.cfg s.utcTime m p).checkAndCommit s.cfg).2 = true ∧
        a = .reportCommit ((c.enterPrecommit E s.cfg s.utcTime m p).checkAndCommit s.cfg).1 s.cfg.minRequiredQuorum := by
  unfold preCommitAt
  split
  · exact Or.inl ⟨fun _ => rfl, rfl⟩
  · rename_i c hc
    dsimp only
    rcases c.checkAndPreCommit_cases E s.cfg s.utcTime with heq | ⟨m, p, hm, hp, hnot, hcurrent, henough, heq⟩
    · rw [heq]
      refine Or.inl ⟨fun j => ?_, List.append_nil _⟩
      change (s.caches.insert i c).find? j = s.caches.find? j
      rw [OrdMap.find?_insert]
      split_ifs with hj
      · rw [hj, hc]
      · rfl
    · rw [heq]
      obtain ⟨k, hk, hreport⟩ := Node.reported_log
        ({ s with caches := s.caches.insert i ((c.enterPrecommit E s.cfg s.utcTime m p).checkAndCommit s.cfg).1 }.emit
          (c.precommitActions E s.cfg s.utcTime m p)) ((c.enterPrecommit E s.cfg s.utcTime m p).checkAndCommit s.cfg).1
        ((c.enterPrecommit E s.cfg s.utcTime m p).checkAndCommit s.cfg).2
      exact Or.inr ⟨c, m, p, k, hc, hm, hp, hnot, hcurrent, henough, Node.reported_caches _ _ _, hk, hreport⟩

theorem Node.commitAt_cases (s : Node) (i : Int) :
    ((s.commitAt i).1.caches = s.caches ∧ (s.commitAt i).1.log = s.log) ∨
    ∃ c k, s.caches.find? i = some c ∧ (s.commitAt i).1.caches = s.caches.insert i (c.checkAndCommit s.cfg).1 ∧
      (s.commitAt i).1.log = s.log ++ k ∧
      ∀ a ∈ k, (c.checkAndCommit s.cfg).2 = true ∧
        a = .reportCommit (c.checkAndCommit s.cfg).1 s.cfg.minRequiredQuorum := by
  unfold commitAt
  split
  · exact Or.inl ⟨rfl, rfl⟩
  · rename_i c hc
    obtain ⟨k, hk, hreport⟩ := Node.reported_log
      { s with caches := s.caches.insert i (c.checkAndCommit s.cfg).1 } (c.checkAndCommit s.cfg).1
      (c.checkAndCommit s.cfg).2
    exact Or.inr ⟨c, k, hc, Node.reported_caches _ _ _, hk, hreport⟩

theorem Prim.log {E : Env} {l : Label} {s t : Node} (h : Prim E l s t) :
    ∃ k, t.log = s.log ++ k ∧ ∀ a ∈ k, Emits E s l a := by
  have hnil : t.log = s.log → ∃ k, t.log = s.log ++ k ∧ ∀ a ∈ k, Emits E s l a := fun heq =>
    ⟨[], by rw [heq, List.append_nil], by simp⟩
  cases h with
  | quiet h =>
    obtain ⟨k, hk, hn⟩ := h.log
    exact ⟨k, hk, fun a ha => .neutral _ (hn a ha)⟩
  | @store _ m h =>
    refine ⟨_, rfl, fun a ha => ?_⟩
    unfold PBFTCache.addPrePrepareCache at ha
    dsimp only at ha
    split at ha
    · rw [List.mem_singleton.1 ha]
      exact .store m
    · simp at ha
  | vote _ h => exact ⟨_, rfl.trans (List.append_assoc _ _ _), fun a ha => .vote ha⟩
  | prepare _ h hp => exact ⟨[], rfl, by simp⟩
  | commit _ h => exact ⟨[], rfl, by simp⟩
  | checkPoint _ h => exact ⟨[], rfl, by simp⟩
  | preCommit _ i =>
    rcases s.preCommitAt_cases E i with ⟨-, hlog⟩ | ⟨c, m, p, k, hc, hm, hp, -, -, henough, -, hlog, hreport⟩
    · exact hnil hlog
    · refine ⟨c.precommitActions E s.cfg s.utcTime m p ++ k, by rw [hlog, List.append_assoc], fun a ha => ?_⟩
      rcases List.mem_append.1 ha with ha | ha
      · exact .preCommit hc hm hp henough ha
      · obtain ⟨hret, rfl⟩ := hreport a ha
        exact .reportPreCommit hc hm hp hret
  | submit _ i =>
    rcases s.commitAt_cases i with ⟨-, hlog⟩ | ⟨c, k, hc, -, hlog, hreport⟩
    · exact hnil hlog
    · refine ⟨k, hlog, fun a ha => ?_⟩
      obtain ⟨hret, rfl⟩ := hreport a ha
      exact .reportSubmit hc hret
  | reset _ v i =>
    unfold Node.resetCacheAt
    split
    · exact ⟨[], (List.append_nil _).symm, by simp⟩
    · refine ⟨_, rfl, fun a ha => .neutral _ ?_⟩
      -- the transactions of an outdated pre-prepare go back to the pool
      simp only [PBFTCache.resetCache] at ha
      split at ha
      · split at ha
        · split at ha <;> simp at ha
          subst ha
          rfl
        · simp at ha
      · simp at ha
  | stable _ acc i =>
    unfold Node.checkStableAt
    split <;> exact ⟨[], (List.append_nil _).symm, by simp⟩
  | reencode _ i =>
    unfold Node.encodePrePrepare
    split <;> exact ⟨[], (List.append_nil _).symm, by simp⟩
  | @erase _ keep k hgone hg hn =>
    refine ⟨k, rfl, fun a ha => ?_⟩
    rcases hn a ha with hn | ⟨i, rfl⟩
    · exact .neutral _ hn
    · exact .erase i
  | @push _ source p h hp => exact ⟨_, rfl, fun a ha => by rw [List.mem_singleton.1 ha]; exact .push source p⟩
  | @apply _ p lastApplied rest hq hindex hlast hx =>
    obtain ⟨k, hk, hn⟩ := (s.takeProposal p rest).applyStateMachine_log lastApplied p
    refine ⟨k ++ [.asyncApply lastApplied p], by rw [hk, List.append_assoc]; rfl, fun a ha => ?_⟩
    rcases List.mem_append.1 ha with ha | ha
    · exact .neutral _ (hn a ha)
    · rw [List.mem_singleton.1 ha]
      exact .apply lastApplied p
  | executed _ i error =>
    refine hnil ?_
    unfold Node.onExecuted
    split
    · rfl
    · dsimp only
      split
      · rfl
      · split <;> rfl
  | announce _ h hs ha => exact ⟨_, rfl, fun a hmem => .announce h hs hmem⟩
  | resend _ hc hp => exact ⟨_, rfl, fun a hmem => .resend hc hp hmem⟩
  | @popStable _ q k hq hl =>
    refine ⟨k, rfl, fun a ha => ?_⟩
    obtain ⟨p, hp, rfl, hindex⟩ := hl a ha
    exact .popStable hp hindex
  | viewChange _ hown hsig =>
    refine hnil ?_
    unfold Node.addViewChangeReq
    split
    · rfl
    · split <;> rfl
  | newView h =>
    obtain ⟨w, list, -, -, -, -, rfl⟩ := s.checkAndTryIntoNewView_some h
    exact ⟨_, rfl, fun a ha => .newView h ha⟩
  | sendViewChange _ dst => exact ⟨_, rfl, fun a ha => .sendViewChange ha⟩
  | dropViewChanges _ view i =>
    refine ⟨_, rfl, fun a ha => ?_⟩
    rw [List.mem_singleton.1 ha]
    exact .dropViewChanges view i
  | clearTables =>
    refine ⟨_, rfl, fun a ha => ?_⟩
    rw [List.mem_singleton.1 ha]
    exact .clearTables
  | _ => exact hnil rfl

theorem Prim.log_mono {E : Env} {l : Label} {s t : Node} (h : Prim E l s t) : ∀ a ∈ s.log, a ∈ t.log := by
  obtain ⟨k, hk, -⟩ := h.log
  intro a ha
  rw [hk]
  exact List.mem_append_left k ha

def Label.caching : Label → Bool
  | .store _ | .vote _ | .prepare _ | .commit _ | .checkPoint _ _ | .preCommit | .submit | .reset | .stable | .reencode
  | .erase | .setCheckPoint _ => true
  | _ => false

theorem Prim.caching {E : Env} {l : Label} {s t : Node} (h : Prim E l s t) (hl : l.caching = true) :
    ∃ x, t.core = { s.core with caches := x } := by
  cases h with
  | preCommit _ j =>
    unfold Node.preCommitAt Node.reported
    split
    · exact ⟨s.caches, rfl⟩
    · dsimp only
      split <;> exact ⟨_, rfl⟩
  | submit _ j =>
    unfold Node.commitAt Node.reported
    split
    · exact ⟨s.caches, rfl⟩
    · dsimp only
      split <;> exact ⟨_, rfl⟩
  | reset _ v j =>
    unfold Node.resetCacheAt
    split <;> exact ⟨_, rfl⟩
  | stable _ acc j =>
    unfold Node.checkStableAt
    split <;> exact ⟨_, rfl⟩
  | reencode _ j =>
    unfold Node.encodePrePrepare
    split <;> exact ⟨_, rfl⟩
  | store _ h => exact ⟨_, rfl⟩
  | vote _ h => exact ⟨_, rfl⟩
  | prepare _ h hp => exact ⟨_, rfl⟩
  | commit _ h => exact ⟨_, rfl⟩
  | checkPoint _ h => exact ⟨_, rfl⟩
  | erase _ keep hgone hg hn => exact ⟨_, rfl⟩
  | setCheckPoint _ p => exact ⟨_, rfl⟩
  | _ => cases hl

def Label.pipeline : Label → Bool
  | .push _ _ | .queue | .unmark _ | .expire | .apply _ _ | .executed | .announce | .settle => true
  | _ => false

theorem Node.addViewChangeReq_core (s : Node) (m : ViewChangeMsg) : ∃ a b c d, (s.addViewChangeReq m).core =
    { s.core with viewChangeCache := a, viewChangeWeight := b, maxCommittedIndex := c, maxPrecommitIndex := d } := by
  unfold addViewChangeReq
  split
  · exact ⟨_, _, _, _, rfl⟩
  · split <;> exact ⟨_, _, _, _, rfl⟩

theorem Node.onExecuted_core (E : Env) (s : Node) (i : Nat) (error : Bool) : ∃ a b, (s.onExecuted E i error).core =
    { s.core with executions := a, applied := b } := by
  unfold onExecuted
  split
  · exact ⟨_, _, rfl⟩
  · dsimp only
    split
    · exact ⟨_, _, rfl⟩
    · split <;> exact ⟨_, _, rfl⟩

theorem Prim.pipeline_same {E : Env} {l : Label} {s t : Node} (h : Prim E l s t) (hl : l.pipeline = false) :
    t.committedQueue = s.committedQueue ∧ t.executingProposals = s.executingProposals ∧
      t.executions = s.executions ∧ t.applied = s.applied := by
  have hcore : ∀ {u : Node} {x : Core}, u.core = x → x.committedQueue = s.committedQueue →
      x.executingProposals = s.executingProposals → x.executions = s.executions → x.applied = s.applied →
      u.committedQueue = s.committedQueue ∧ u.executingProposals = s.executingProposals ∧
        u.executions = s.executions ∧ u.applied = s.applied := by
    rintro u x rfl hq hx he ha
    exact ⟨hq, hx, he, ha⟩
  by_cases hcaching : l.caching = true
  · obtain ⟨x, hx⟩ := h.caching hcaching
    exact hcore hx rfl rfl rfl rfl
  · cases h with
    | quiet h => exact hcore h.core rfl rfl rfl rfl
    | @viewChange _ own m hown hsig =>
      obtain ⟨a, b, c, d, hx⟩ := s.addViewChangeReq_core m
      exact hcore hx rfl rfl rfl rfl
    | newView h =>
      obtain ⟨w, list, -, -, -, -, rfl⟩ := s.checkAndTryIntoNewView_some h
      exact ⟨rfl, rfl, rfl, rfl⟩
    | _ => first | exact absurd rfl hcaching | exact ⟨rfl, rfl, rfl, rfl⟩ | cases hl

theorem mem_pushQueue {q : List PBFTProposal} {p p' : PBFTProposal} (h : p' ∈ Node.pushQueue q p) : p' = p ∨ p' ∈ q := by
  unfold Node.pushQueue at h
  simpa using h

/-- What waits in the node's queues and lists of outstanding calls waited before, or the label names it. -/
structure Intake (l : Label) (s t : Node) : Prop where
  msgQueue : ∀ msg ∈ t.msgQueue, msg ∈ s.msgQueue ∨ l = .receive msg
  verifying : ∀ c ∈ t.verifying, c ∈ s.verifying ∨ ∃ source, l = .verify source c.1
  requests : ∀ m ∈ t.precommitRequests, m ∈ s.precommitRequests ∨ ∃ own, l = .request own m
  loading : ∀ c ∈ t.loading, c ∈ s.loading ∨ l = .load c.1
  queue : ∀ p ∈ t.committedQueue, p ∈ s.committedQueue ∨ ∃ source, l = .push source p
  submitting : ∀ b ∈ t.submitting, b ∈ s.submitting ∨ l = .seal b

theorem Intake.of_core {l : Label} {s t : Node} {x : Core} (h : t.core = x) (hmsg : x.msgQueue = s.msgQueue)
    (hv : x.verifying = s.verifying) (hr : x.precommitRequests = s.precommitRequests) (hl : x.loading = s.loading)
    (hb : x.submitting = s.submitting) (hq : ∀ p ∈ x.committedQueue, p ∈ s.committedQueue) : Intake l s t := by
  subst h
  exact ⟨fun _ h => Or.inl (hmsg ▸ h), fun _ h => Or.inl (hv ▸ h), fun _ h => Or.inl (hr ▸ h),
    fun _ h => Or.inl (hl ▸ h), fun p h => Or.inl (hq p h), fun _ h => Or.inl (hb ▸ h)⟩

theorem Prim.intake {E : Env} {l : Label} {s t : Node} (h : Prim E l s t) : Intake l s t := by
  have hsame : ∀ {u : Node} {x : Core}, u.core = x → x.msgQueue = s.msgQueue → x.verifying = s.verifying →
      x.precommitRequests = s.precommitRequests → x.loading = s.loading → x.submitting = s.submitting →
      x.committedQueue = s.committedQueue → Intake l s u :=
    fun hu hmsg hv hr hl hb hq => .of_core hu hmsg hv hr hl hb (fun p hp => hq ▸ hp)
  by_cases hseal : ∃ b, l = .seal b
  · obtain ⟨b, rfl⟩ := hseal
    cases h
    refine ⟨fun _ h => Or.inl h, fun _ h => Or.inl h, fun _ h => Or.inl h, fun _ h => Or.inl h, fun _ h => Or.inl h,
      fun b' hmem => ?_⟩
    rcases List.mem_append.1 hmem with hmem | hmem
    · exact Or.inl hmem
    · rw [List.mem_singleton.1 hmem]
      exact Or.inr rfl
  by_cases hcaching : l.caching = true
  · obtain ⟨x, hx⟩ := h.caching hcaching
    exact hsame hx rfl rfl rfl rfl rfl rfl
  · cases h with
    | quiet h => exact hsame h.core rfl rfl rfl rfl rfl rfl
    | receive _ msg =>
      refine ⟨fun msg' hmem => ?_, fun _ h => Or.inl h, fun _ h => Or.inl h, fun _ h => Or.inl h, fun _ h => Or.inl h,
        fun _ h => Or.inl h⟩
      rcases List.mem_append.1 hmem with hmem | hmem
      · exact Or.inl hmem
      · rw [List.mem_singleton.1 hmem]
        exact Or.inr rfl
    | dequeue _ hq =>
      exact ⟨fun msg hmem => Or.inl (hq msg hmem), fun _ h => Or.inl h, fun _ h => Or.inl h, fun _ h => Or.inl h,
        fun _ h => Or.inl h, fun _ h => Or.inl h⟩
    | @verify _ source m newView hcheck hm =>
      refine ⟨fun _ h => Or.inl h, fun c hmem => ?_, fun _ h => Or.inl h, fun _ h => Or.inl h, fun _ h => Or.inl h,
        fun _ h => Or.inl h⟩
      rcases List.mem_append.1 hmem with hmem | hmem
      · exact Or.inl hmem
      · rw [List.mem_singleton.1 hmem]
        exact Or.inr ⟨source, rfl⟩
    | @request _ own m hown hm =>
      refine ⟨fun _ h => Or.inl h, fun _ h => Or.inl h, fun m' hmem => ?_, fun _ h => Or.inl h, fun _ h => Or.inl h,
        fun _ h => Or.inl h⟩
      rcases List.mem_append.1 hmem with hmem | hmem
      · exact Or.inl hmem
      · rw [List.mem_singleton.1 hmem]
        exact Or.inr ⟨own, rfl⟩
    | load _ p n =>
      refine ⟨fun _ h => Or.inl h, fun _ h => Or.inl h, fun _ h => Or.inl h, fun c hmem => ?_, fun _ h => Or.inl h,
        fun _ h => Or.inl h⟩
      rcases List.mem_append.1 hmem with hmem | hmem
      · exact Or.inl hmem
      · rw [List.mem_singleton.1 hmem]
        exact Or.inr rfl
    | answer _ hv hl hr hu hk =>
      exact ⟨fun _ h => Or.inl h, fun c hc => Or.inl (hv c hc), fun m hm => Or.inl (hr m hm), fun c hc => Or.inl (hl c hc),
        fun _ h => Or.inl h, fun b hb => Or.inl (hu b hb)⟩
    | @push _ source p hmark hp =>
      refine ⟨fun _ h => Or.inl h, fun _ h => Or.inl h, fun _ h => Or.inl h, fun _ h => Or.inl h, fun p' hmem => ?_,
        fun _ h => Or.inl h⟩
      rcases mem_pushQueue hmem with rfl | hmem
      · exact Or.inr ⟨source, rfl⟩
      · exact Or.inl hmem
    | queue _ hq =>
      exact ⟨fun _ h => Or.inl h, fun _ h => Or.inl h, fun _ h => Or.inl h, fun _ h => Or.inl h, fun p hp => Or.inl (hq p hp),
        fun _ h => Or.inl h⟩
    | @apply _ p lastApplied rest hq hindex hlast hx =>
      refine .of_core ((s.takeProposal p rest).applyStateMachine_core lastApplied p) rfl rfl rfl rfl rfl (fun p' hp' => ?_)
      rw [hq]
      exact List.mem_cons_of_mem p hp'
    | executed _ i error =>
      obtain ⟨a, b, hx⟩ := s.onExecuted_core E i error
      exact hsame hx rfl rfl rfl rfl rfl rfl
    | @viewChange _ own m hown hsig =>
      obtain ⟨a, b, c, d, hx⟩ := s.addViewChangeReq_core m
      exact hsame hx rfl rfl rfl rfl rfl rfl
    | newView h =>
      obtain ⟨w, list, -, -, -, -, rfl⟩ := s.checkAndTryIntoNewView_some h
      exact hsame rfl rfl rfl rfl rfl rfl rfl
    | _ => first | exact absurd rfl hcaching | exact hsame rfl rfl rfl rfl rfl rfl rfl | exact absurd ⟨_, rfl⟩ hseal

theorem Prim.lowMarks {E : Env} {l : Label} {s t : Node} (h : Prim E l s t) {i : Int} (hi : i ∈ t.lowMarks) :
    i ∈ s.lowMarks ∨ l = .lowRead ∧ s.cfg.progressedIndex ≤ i := by
  have hsame : ∀ {x : Core}, t.core = x → x.lowMarks = s.lowMarks → i ∈ s.lowMarks := by
    rintro x rfl heq
    exact heq ▸ hi
  by_cases hcaching : l.caching = true
  · obtain ⟨x, hx⟩ := h.caching hcaching
    exact Or.inl (hsame hx rfl)
  · cases h with
    | quiet h => exact Or.inl (hsame h.core rfl)
    | lowRead _ hle =>
      rcases List.mem_append.1 hi with hi | hi
      · exact Or.inl hi
      · rw [List.mem_singleton.1 hi]
        exact Or.inr ⟨rfl, hle⟩
    | answer _ hv hl hr hu hk => exact Or.inl (hk i hi)
    | @apply _ p lastApplied rest hq hindex hlast hx =>
      exact Or.inl (hsame ((s.takeProposal p rest).applyStateMachine_core lastApplied p) rfl)
    | executed _ j error =>
      obtain ⟨a, b, hx⟩ := s.onExecuted_core E j error
      exact Or.inl (hsame hx rfl)
    | @viewChange _ own m hown hsig =>
      obtain ⟨a, b, c, d, hx⟩ := s.addViewChangeReq_core m
      exact Or.inl (hsame hx rfl)
    | newView h =>
      obtain ⟨w, list, -, -, -, -, rfl⟩ := s.checkAndTryIntoNewView_some h
      exact Or.inl hi
    | _ => first | exact absurd rfl hcaching | exact Or.inl hi

theorem Steps.log {E : Env} {A : Label → Prop} {s t : Node} (h : Steps E A s t) : ∃ k, t.log = s.log ++ k := by
  refine Labelled.Steps.preserves (I := fun u => ∃ k, u.log = s.log ++ k) (fun _ u v _ hp hu => ?_) h
    ⟨[], (List.append_nil _).symm⟩
  obtain ⟨k, hk⟩ := hu
  obtain ⟨k', hk', -⟩ := hp.log
  exact ⟨k ++ k', by rw [hk', hk, List.append_assoc]⟩

end BcosPbft
