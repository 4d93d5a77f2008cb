import BcosPbft.Proofs.TallyExact

/-! A cache as the set of those who voted for one hash. The flags of the cache are then read off from two sums: checking
for quorums sets a flag when the voters, with the node itself, have the weight, and counting a vote adds a voter. -/

namespace BcosPbft

namespace Config

def Quorate (cfg : Config) (S : Finset IndexType) : Prop := cfg.minRequiredQuorum.toNat ≤ ∑ j ∈ S, cfg.weightAt j.toNat

instance (cfg : Config) (S : Finset IndexType) : Decidable (cfg.Quorate S) := inferInstanceAs (Decidable (_ ≤ _))

variable {cfg : Config} {S S' : Finset IndexType}

theorem Quorate.mono (h : cfg.Quorate S) (hsub : S ⊆ S') : cfg.Quorate S' :=
  le_trans h (Finset.sum_le_sum_of_subset hsub)

theorem Quorate.congr {cfg' : Config} (hlist : cfg'.consensusNodeList = cfg.consensusNodeList)
    (hmin : cfg'.minRequiredQuorum = cfg.minRequiredQuorum) : cfg'.Quorate S ↔ cfg.Quorate S := by
  unfold Quorate weightAt
  rw [hlist, hmin]

theorem Coherent.minRequired_pos (hc : cfg.Coherent) : 0 < cfg.minRequiredQuorum.toNat := by
  have htotal := cfg.totalQuorum.toNat_lt
  rw [hc.required, hc.faulty]
  by_cases hzero : cfg.totalQuorum = 0
  · rw [hzero]
    decide
  · have hpos : cfg.totalQuorum.toNat ≠ 0 := fun h => hzero (UInt64.toNat_inj.1 h)
    have hone : (1 : UInt64) ≤ cfg.totalQuorum := by
      rw [UInt64.le_iff_toNat_le, UInt64.toNat_one]
      omega
    have hfaulty : ((cfg.totalQuorum - 1) / 3).toNat = (cfg.totalQuorum.toNat - 1) / 3 := by
      rw [UInt64.toNat_div, UInt64.toNat_sub_of_le _ _ hone]
      rfl
    have hle : (cfg.totalQuorum - 1) / 3 ≤ cfg.totalQuorum := by
      rw [UInt64.le_iff_toNat_le, hfaulty]
      omega
    rw [UInt64.toNat_sub_of_le _ _ hle, hfaulty]
    omega

end Config

namespace PBFTCache

variable {cfg : Config} {c : PBFTCache} {i : Int} {H : HashType} {P C : Finset IndexType} {seen : Bool} {m : PBFTMessage}

/-- The cache of index `i` when `P` and `C` have voted for `H`, besides the node itself: its own prepare vote is there once
the pre-prepare was `seen`, and its own commit vote once the cache has precommitted. A flag that is set has its quorum. -/
structure Standing (cfg : Config) (i : Int) (H : HashType) (P C : Finset IndexType) (seen : Bool) (c : PBFTCache) : Prop where
  required : 0 < cfg.minRequiredQuorum.toNat
  bounded : Config.totalWeight cfg.consensusNodeList < 2 ^ 64
  index : c.index = i
  prepares : Counts cfg (fun _ => True) c.prepareCacheList c.prepareReqWeight
  commits : Counts cfg (fun _ => True) c.commitCacheList c.commitReqWeight
  prepared : ∀ j, j ∈ senders c.prepareCacheList H ↔
    (cfg.getConsensusNodeByIndex j).isSome = true ∧ if j = cfg.nodeIndex then seen = true else j ∈ P
  committed : ∀ j, j ∈ senders c.commitCacheList H ↔
    (cfg.getConsensusNodeByIndex j).isSome = true ∧ if j = cfg.nodeIndex then c.precommitted = true else j ∈ C
  unseen : seen = false → c.prePrepare = none ∧ c.stableCommitted = false
  stored : seen = true → ∃ m p, c.prePrepare = some m ∧ m.hash = H ∧ m.view = cfg.view ∧ m.consensusProposal = some p ∧
    p.hash = H ∧ p.index = i
  precommit : c.precommit = if c.precommitted then c.prePrepare else none
  early : c.precommitted = true → seen = true ∧ cfg.Quorate (insert cfg.nodeIndex P)
  late : c.submitted = true → c.precommitted = true ∧ cfg.Quorate (insert cfg.nodeIndex C)

def PrepareDecided (cfg : Config) (P : Finset IndexType) (seen : Bool) (c : PBFTCache) : Prop :=
  seen = true → cfg.Quorate (insert cfg.nodeIndex P) → c.precommitted = true

def CommitDecided (cfg : Config) (C : Finset IndexType) (c : PBFTCache) : Prop :=
  c.precommitted = true → cfg.Quorate (insert cfg.nodeIndex C) → c.submitted = true

theorem decided_congr {cfg' : Config} (hlist : cfg'.consensusNodeList = cfg.consensusNodeList)
    (hmin : cfg'.minRequiredQuorum = cfg.minRequiredQuorum) (hown : cfg'.nodeIndex = cfg.nodeIndex) :
    (c.PrepareDecided cfg' P seen ↔ c.PrepareDecided cfg P seen) ∧ (c.CommitDecided cfg' C ↔ c.CommitDecided cfg C) := by
  unfold PrepareDecided CommitDecided
  rw [hown, Config.Quorate.congr hlist hmin, Config.Quorate.congr hlist hmin]
  exact ⟨Iff.rfl, Iff.rfl⟩

/-- The weight of a hash is that of its voters. -/
theorem collectEnoughQuorum_iff {cached : CollectionCache} {weights : QuorumRecoder} {S : Finset IndexType}
    (hpos : 0 < cfg.minRequiredQuorum.toNat) (hmax : Config.totalWeight cfg.consensusNodeList < 2 ^ 64)
    (hc : Counts cfg (fun _ => True) cached weights)
    (hvoters : ∀ j, j ∈ senders cached H ↔
      (cfg.getConsensusNodeByIndex j).isSome = true ∧ if j = cfg.nodeIndex then True else j ∈ S) :
    collectEnoughQuorum cfg H weights = true ↔ cfg.Quorate (insert cfg.nodeIndex S) := by
  have hsum : (keptWeight (cached, weights) H).toNat = ∑ j ∈ insert cfg.nodeIndex S, cfg.weightAt j.toNat := by
    rw [(hc.exact hmax).senders H, hc.storedSenders_eq H]
    apply Finset.sum_subset
    · intro j hj
      rw [List.mem_toFinset, hvoters] at hj
      rw [Finset.mem_insert]
      by_cases hown : j = cfg.nodeIndex
      · exact Or.inl hown
      · rw [if_neg hown] at hj
        exact Or.inr hj.2
    · -- who is not in the list weighs nothing
      intro j hj hnot
      rw [List.mem_toFinset, hvoters] at hnot
      rw [← cfg.toNat_weightOf, Config.weightOf]
      cases hnode : cfg.getConsensusNodeByIndex j with
      | none => rfl
      | some node =>
        refine absurd ⟨by rw [hnode]; rfl, ?_⟩ hnot
        split_ifs with hown
        exact (Finset.mem_insert.1 hj).resolve_left hown
  unfold Config.Quorate
  rw [← hsum]
  unfold collectEnoughQuorum keptWeight
  cases weights.find? H with
  | none =>
    rw [Option.getD_none, UInt64.toNat_zero]
    exact ⟨fun h => Bool.noConfusion h, fun h => absurd h (by omega)⟩
  | some w =>
    rw [Option.getD_some]
    exact decide_eq_true_iff.trans UInt64.le_iff_toNat_le

namespace Standing

theorem collectEnoughPrepareReq_iff (hc : c.Standing cfg i H P C true) :
    c.collectEnoughPrepareReq cfg = true ↔ cfg.Quorate (insert cfg.nodeIndex P) := by
  obtain ⟨m, p, hm, hhash, hview, -⟩ := hc.stored rfl
  rw [← collectEnoughQuorum_iff hc.required hc.bounded hc.prepares (fun j => by simpa using hc.prepared j)]
  simp [collectEnoughPrepareReq, checkPrePrepareProposalStatus, hm, hhash, hview]

theorem collectEnoughCommitReq_iff (hc : c.Standing cfg i H P C true) (hpre : c.precommitted = true) :
    c.collectEnoughCommitReq cfg = true ↔ cfg.Quorate (insert cfg.nodeIndex C) := by
  obtain ⟨m, p, hm, hhash, hview, -⟩ := hc.stored rfl
  rw [← collectEnoughQuorum_iff hc.required hc.bounded hc.commits (fun j => by simpa [hpre] using hc.committed j)]
  simp [collectEnoughCommitReq, checkPrePrepareProposalStatus, hm, hhash, hview]

theorem congr {cfg' : Config} (hc : c.Standing cfg i H P C seen) (hlist : cfg'.consensusNodeList = cfg.consensusNodeList)
    (hmin : cfg'.minRequiredQuorum = cfg.minRequiredQuorum) (hown : cfg'.nodeIndex = cfg.nodeIndex)
    (hview : cfg'.view = cfg.view) : c.Standing cfg' i H P C seen where
  required := by
    rw [hmin]
    exact hc.required
  bounded := by
    rw [hlist]
    exact hc.bounded
  index := hc.index
  prepares := hc.prepares.congr hlist
  commits := hc.commits.congr hlist
  prepared j := by
    rw [Config.getConsensusNodeByIndex, hlist, hown]
    exact hc.prepared j
  committed j := by
    rw [Config.getConsensusNodeByIndex, hlist, hown]
    exact hc.committed j
  unseen := hc.unseen
  stored := by
    rw [hview]
    exact hc.stored
  precommit := hc.precommit
  early := by
    rw [hown, Config.Quorate.congr hlist hmin]
    exact hc.early
  late := by
    rw [hown, Config.Quorate.congr hlist hmin]
    exact hc.late

theorem unseen_precommitted (hc : c.Standing cfg i H P C false) : c.precommitted = false := by
  by_contra hpre
  cases (hc.early (by simpa using hpre)).1

theorem voters_congr {P' C' : Finset IndexType} (hc : c.Standing cfg i H P C seen)
    (hP : insert cfg.nodeIndex P' = insert cfg.nodeIndex P) (hC : insert cfg.nodeIndex C' = insert cfg.nodeIndex C) :
    c.Standing cfg i H P' C' seen := by
  have hothers : ∀ {S S' : Finset IndexType}, insert cfg.nodeIndex S' = insert cfg.nodeIndex S → ∀ {j}, j ≠ cfg.nodeIndex →
      (j ∈ S' ↔ j ∈ S) := by
    intro S S' hS j hj
    have hmem : j ∈ insert cfg.nodeIndex S' ↔ j ∈ insert cfg.nodeIndex S := by rw [hS]
    rwa [Finset.mem_insert, Finset.mem_insert, or_iff_right hj, or_iff_right hj] at hmem
  refine { hc with prepared := fun j => ?_, committed := fun j => ?_, early := ?_, late := ?_ }
  · rw [hc.prepared]
    split_ifs with hown
    · exact Iff.rfl
    · rw [hothers hP hown]
  · rw [hc.committed]
    split_ifs with hown
    · exact Iff.rfl
    · rw [hothers hC hown]
  · rw [hP]
    exact hc.early
  · rw [hC]
    exact hc.late

/-- A message of the present view for the proposal that is stored is in no conflict with it. -/
theorem no_conflict (hc : c.Standing cfg i H P C seen) (hview : m.view = cfg.view) :
    (c.existPrePrepare m && c.conflictWithProcessedReq cfg m) = false := by
  unfold existPrePrepare conflictWithProcessedReq
  rw [if_neg (by rw [hview]; exact lt_irrefl _)]
  cases seen with
  | false =>
    rw [(hc.unseen rfl).1]
    rfl
  | true =>
    obtain ⟨m', -, hm', -, hview', -⟩ := hc.stored rfl
    rw [hm']
    dsimp only
    rw [hview, hview', if_neg (lt_irrefl _), if_pos rfl]
    by_cases hhash : m.hash = m'.hash <;> simp [hhash]

theorem isSome_precommit (hc : c.Standing cfg i H P C seen) (h : c.precommit.isSome = true) : c.precommitted = true := by
  by_contra hnot
  rw [hc.precommit, if_neg hnot] at h
  cases h

theorem precommit_isSome (hc : c.Standing cfg i H P C seen) (h : c.precommitted = true) : c.precommit.isSome = true := by
  obtain ⟨m, p, hm, -⟩ := hc.stored (hc.early h).1
  rw [hc.precommit, if_pos h, hm]
  rfl

theorem submit (hc : c.Standing cfg i H P C seen) (hpre : c.precommitted = true)
    (hquorum : cfg.Quorate (insert cfg.nodeIndex C)) : { c with submitted := true }.Standing cfg i H P C seen :=
  { hc with late := fun _ => ⟨hpre, hquorum⟩ }

/-- What a check leaves: a vote less or more changes nothing, and the return value says that the cache submits now. -/
structure Checks (cfg : Config) (i : Int) (H : HashType) (P C : Finset IndexType) (seen : Bool) (c c' : PBFTCache)
    (ret : Bool) : Prop where
  standing : c'.Standing cfg i H P C seen
  submits : c'.submitted = (c.submitted || ret)
  once : ret = true → c.submitted = false

/-- `checkAndCommit` submits once the commit votes allow it. -/
theorem checkAndCommit (hc : c.Standing cfg i H P C seen) :
    Checks cfg i H P C seen c (c.checkAndCommit cfg).1 (c.checkAndCommit cfg).2 ∧
      (c.checkAndCommit cfg).1.precommitted = c.precommitted ∧ (c.checkAndCommit cfg).1.CommitDecided cfg C := by
  unfold PBFTCache.checkAndCommit
  split_ifs with hsubmitted hpre henough
  · exact ⟨⟨hc, (Bool.or_false _).symm, Bool.noConfusion⟩, rfl, fun _ _ => hsubmitted⟩
  · refine ⟨⟨hc, (Bool.or_false _).symm, Bool.noConfusion⟩, rfl, fun hdone _ => ?_⟩
    rw [← Option.not_isSome, hc.precommit_isSome hdone] at hpre
    cases hpre
  · refine ⟨⟨hc, (Bool.or_false _).symm, Bool.noConfusion⟩, rfl, fun hdone hquorum => ?_⟩
    obtain rfl := (hc.early hdone).1
    rw [(hc.collectEnoughCommitReq_iff hdone).2 hquorum] at henough
    cases henough
  · have hdone : c.precommitted = true := hc.isSome_precommit (by simpa [Option.isSome_iff_ne_none] using hpre)
    obtain rfl := (hc.early hdone).1
    have hquorum := (hc.collectEnoughCommitReq_iff hdone).1 (by simpa using henough)
    exact ⟨⟨hc.submit hdone hquorum, (Bool.or_true _).symm, fun _ => by simpa using hsubmitted⟩, rfl, fun _ _ => rfl⟩

theorem enterPrecommit {E : Env} {now : Int} {m : PBFTMessage} {p : PBFTProposal} (hc : c.Standing cfg i H P C true)
    (hm : c.prePrepare = some m) (hp : m.consensusProposal = some p) (hnot : c.precommitted = false)
    (hquorum : cfg.Quorate (insert cfg.nodeIndex P)) : (c.enterPrecommit E cfg now m p).Standing cfg i H P C true := by
  obtain ⟨m₀, p₀, hm₀, hhash, hview, hp₀, hphash, hpindex⟩ := hc.stored rfl
  obtain rfl := Option.some.inj (hm.symm.trans hm₀)
  obtain rfl := Option.some.inj (hp.symm.trans hp₀)
  obtain ⟨hvoteIndex, hvoteHash⟩ := populateProposal_proposal p false
  have hvote : ∀ j, isVote cfg c.index H j (encodedMsg E cfg.keyPair (commitVote E cfg now p)) = true ↔
      j = cfg.nodeIndex ∧ (cfg.getConsensusNodeByIndex j).isSome = true := by
    intro j
    have hindex : (encodedMsg E cfg.keyPair (commitVote E cfg now p)).index = c.index :=
      (hvoteIndex.trans hpindex).trans hc.index.symm
    have hhash' : (encodedMsg E cfg.keyPair (commitVote E cfg now p)).hash = H :=
      ((toHash_val _).trans hvoteHash).trans hphash
    have hfrom : (encodedMsg E cfg.keyPair (commitVote E cfg now p)).generatedFrom = cfg.nodeIndex := rfl
    simp only [isVote, hindex, hhash', hfrom, decide_true, Bool.true_and, Bool.and_eq_true, decide_eq_true_eq,
      eq_comm (a := j)]
  have hsub : c.submitted = false := by
    by_contra hsub
    rw [(hc.late (by simpa using hsub)).1] at hnot
    cases hnot
  have hproposal := setSignatureList_proposal p c.prepareCacheList
  constructor
  · exact hc.required
  · exact hc.bounded
  · exact hc.index
  · exact hc.prepares.touch _
  · exact hc.commits.addCache _ (fun _ => trivial)
  · intro j
    refine Iff.trans ?_ (hc.prepared j)
    rw [← senders_touch c.prepareCacheList p.hash H]
    rfl
  · intro j
    have hadd : j ∈ senders (c.enterPrecommit E cfg now m p).commitCacheList H ↔ j ∈ senders c.commitCacheList H ∨
        isVote cfg c.index H j (encodedMsg E cfg.keyPair (commitVote E cfg now p)) = true := mem_senders_addCache
    rw [hadd, hvote, hc.committed, hnot, show (c.enterPrecommit E cfg now m p).precommitted = true from rfl]
    split_ifs with hown <;> simp [hown]
  · exact fun h => Bool.noConfusion h
  · exact fun _ => ⟨_, _, rfl, hhash, hview, rfl, (congrArg (fun r : RawProposal => toHash r.hash) hproposal).trans hphash,
      (congrArg RawProposal.index hproposal).trans hpindex⟩
  · rfl
  · exact fun _ => ⟨rfl, hquorum⟩
  · intro h
    rw [show (c.enterPrecommit E cfg now m p).submitted = c.submitted from rfl, hsub] at h
    cases h

/-- `checkAndPreCommit` precommits once the prepare votes allow it, and submits if the commit votes were there already. -/
theorem checkAndPreCommit (hc : c.Standing cfg i H P C seen) (E : Env) (now : Int) :
    Checks cfg i H P C seen c (c.checkAndPreCommit E cfg now).1 (c.checkAndPreCommit E cfg now).2.1 ∧
      (c.checkAndPreCommit E cfg now).1.PrepareDecided cfg P seen ∧
      (c.CommitDecided cfg C → (c.checkAndPreCommit E cfg now).1.CommitDecided cfg C) := by
  rcases c.checkAndPreCommit_cases E cfg now with heq | ⟨m, p, hm, hp, hnot, -, henough, heq⟩
  · rw [heq]
    refine ⟨⟨hc, (Bool.or_false _).symm, Bool.noConfusion⟩, fun hseen hquorum => ?_, id⟩
    subst hseen
    by_contra hnot
    obtain ⟨m, p, hm, -, -, hp, -⟩ := hc.stored rfl
    have hnot : c.precommitted = false := by simpa using hnot
    have hcurrent : c.precommitIsCurrent = false := by
      unfold precommitIsCurrent
      rw [hc.precommit, hnot]
      rfl
    have henters : c.checkAndPreCommit E cfg now = _ :=
      checkAndPreCommit_enters hm hp hnot hcurrent (hc.collectEnoughPrepareReq_iff.2 hquorum)
    have henter : (c.enterPrecommit E cfg now m p).Standing cfg i H P C true := hc.enterPrecommit hm hp hnot hquorum
    have hpre := henter.checkAndCommit.2.1
    rw [heq, Prod.ext_iff] at henters
    rw [← henters.1] at hpre
    rw [hnot] at hpre
    cases hpre
  · rw [heq]
    cases seen with
    | false =>
      rw [(hc.unseen rfl).1] at hm
      cases hm
    | true =>
      have henter : (c.enterPrecommit E cfg now m p).Standing cfg i H P C true :=
        hc.enterPrecommit hm hp hnot (hc.collectEnoughPrepareReq_iff.1 henough)
      obtain ⟨hchecks, hpre, hdecided⟩ := henter.checkAndCommit
      refine ⟨⟨hchecks.standing, hchecks.submits, hchecks.once⟩, fun _ _ => hpre, fun _ => hdecided⟩

theorem isVote_iff {i : Int} {j : IndexType} (hindex : m.index = i) : isVote cfg i H j m = true ↔
    (cfg.getConsensusNodeByIndex j).isSome = true ∧ m.hash = H ∧ j = m.generatedFrom := by
  simp only [isVote, hindex, decide_true, Bool.true_and, Bool.and_eq_true, decide_eq_true_eq, eq_comm (a := j)]
  tauto

/-- The voters for `H` after a message: its sender is one of them if it is for `H`. -/
def voters (H : HashType) (S : Finset IndexType) (m : PBFTMessage) : Finset IndexType :=
  if m.hash = H then insert m.generatedFrom S else S

theorem subset_voters (H : HashType) (S : Finset IndexType) (m : PBFTMessage) : S ⊆ voters H S m := by
  unfold voters
  split_ifs
  · exact Finset.subset_insert _ _
  · exact Finset.Subset.refl _

theorem mem_voters {S : Finset IndexType} {j : IndexType} :
    j ∈ voters H S m ↔ (m.hash = H ∧ j = m.generatedFrom) ∨ j ∈ S := by
  unfold voters
  split_ifs with h <;> simp [h]

theorem addPrepareCache (hc : c.Standing cfg i H P C seen) (hindex : m.index = i) (hfrom : m.generatedFrom ≠ cfg.nodeIndex) :
    (c.addPrepareCache cfg m).Standing cfg i H (voters H P m) C seen :=
  { hc with
    prepares := hc.prepares.addCache c fun _ => trivial
    prepared := fun j => by
      refine mem_senders_addCache.trans ?_
      rw [hc.index, isVote_iff hindex, hc.prepared]
      split_ifs with hown
      · subst hown
        simp [hfrom.symm]
      · rw [mem_voters]
        tauto
    early := fun h => ⟨(hc.early h).1, (hc.early h).2.mono (Finset.insert_subset_insert _ (subset_voters H P m))⟩ }

theorem addCommitCache (hc : c.Standing cfg i H P C seen) (hindex : m.index = i) (hfrom : m.generatedFrom ≠ cfg.nodeIndex) :
    (c.addCommitCache cfg m).Standing cfg i H P (voters H C m) seen :=
  { hc with
    commits := hc.commits.addCache c fun _ => trivial
    committed := fun j => by
      refine mem_senders_addCache.trans ?_
      rw [hc.index, isVote_iff hindex, hc.committed]
      change _ ↔ _ ∧ if j = cfg.nodeIndex then c.precommitted = true else j ∈ voters H C m
      split_ifs with hown
      · subst hown
        simp [hfrom.symm]
      · rw [mem_voters]
        tauto
    late := fun h => ⟨(hc.late h).1, (hc.late h).2.mono (Finset.insert_subset_insert _ (subset_voters H C m))⟩ }

theorem store {vote : PBFTMessage} {p : PBFTProposal} (hc : c.Standing cfg i H P C false) (hhash : m.hash = H)
    (hview : m.view = cfg.view) (hp : m.consensusProposal = some p) (hphash : p.hash = H) (hpindex : p.index = i)
    (hvoteIndex : vote.index = i) (hvoteHash : vote.hash = H) (hvoteFrom : vote.generatedFrom = cfg.nodeIndex) :
    ((c.addPrePrepareCache m).1.addPrepareCache cfg vote).Standing cfg i H P C true := by
  obtain ⟨hnone, hstable⟩ := hc.unseen rfl
  have hnot := hc.unseen_precommitted
  have haccepts : c.acceptsPrePrepare m = true := by
    unfold acceptsPrePrepare
    rw [hstable, hnone]
    cases c.checkpointProposal <;> rfl
  have hadd : (c.addPrePrepareCache m).1 = { c with prePrepare := some m } := by
    unfold addPrePrepareCache
    rw [if_pos haccepts]
  rw [hadd]
  refine { hc with
    prepares := hc.prepares.addCache c fun _ => trivial
    prepared := fun j => ?_
    unseen := fun h => Bool.noConfusion h
    stored := fun _ => ⟨m, p, rfl, hhash, hview, hp, hphash, hpindex⟩
    precommit := ?_
    early := fun h => ?_ }
  · have hmem : j ∈ senders (({ c with prePrepare := some m } : PBFTCache).addPrepareCache cfg vote).prepareCacheList H ↔
        j ∈ senders c.prepareCacheList H ∨ isVote cfg c.index H j vote = true := mem_senders_addCache
    rw [hmem, hc.index, isVote_iff hvoteIndex, hc.prepared]
    split_ifs with hown
    · simp [hown, hvoteHash, hvoteFrom]
    · simp [hown, hvoteFrom]
  · have hprecommit := hc.precommit
    rw [hnot] at hprecommit
    change c.precommit = if c.precommitted = true then some m else none
    rw [hprecommit, hnot]
    rfl
  · change c.precommitted = true at h
    rw [hnot] at h
    cases h

end Standing

end PBFTCache

end BcosPbft
