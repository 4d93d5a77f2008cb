import BcosPbft.Lib.Ballot
import BcosPbft.Proofs.Tally

/-! Votes across a change of view. A vote is filed once for each hash and sender, whatever its view, and the change of
view drops what is filed by its view, so what stays depends on which vote of a sender came first. -/

namespace BcosPbft

inductive VoteKind
  | prepare | commit
deriving DecidableEq

namespace PBFTCache

def addVote (cfg : Config) : VoteKind → PBFTCache → PBFTMessage → PBFTCache
  | .prepare => addPrepareCache cfg
  | .commit => addCommitCache cfg

def voteTally (c : PBFTCache) : VoteKind → CollectionCache × QuorumRecoder
  | .prepare => (c.prepareCacheList, c.prepareReqWeight)
  | .commit => (c.commitCacheList, c.commitReqWeight)

def voted (cfg : Config) (k : VoteKind) (i : Int) (l : List PBFTMessage) : PBFTCache := l.foldl (addVote cfg k) { index := i }

/-- Does `addCache` take this as a vote of the sender for the hash, when it has none of them yet? -/
def isVote (cfg : Config) (i : Int) (h : HashType) (sender : IndexType) (m : PBFTMessage) : Bool :=
  m.index = i && m.hash = h && m.generatedFrom = sender && (cfg.getConsensusNodeByIndex sender).isSome

/-- After the change to view `v` every sender of a vote of view `v` or later is stored and counted, and the tally is the
one without the votes of the views below. -/
structure KeepsVotes (cfg : Config) (k : VoteKind) (i : Int) (v : ViewType) (l : List PBFTMessage) : Prop where
  stored : ∀ m ∈ l, isVote cfg i m.hash m.generatedFrom m = true → v ≤ m.view →
    m.generatedFrom ∈ senders ((((voted cfg k i l).resetCache cfg v).1.voteTally k).1) m.hash
  counted : ∀ h, (((((voted cfg k i l).resetCache cfg v).1.voteTally k).2.find? h).getD 0) =
    Quorum.wrapSum ((senders ((((voted cfg k i l).resetCache cfg v).1.voteTally k).1) h).map cfg.weightOf)
  tally : ((voted cfg k i l).resetCache cfg v).1.voteTally k =
    (voted cfg k i (l.filter (fun m => v ≤ m.view))).voteTally k

/-- Whoever has a vote of view `v` or later for a hash has such a vote as its first one for the hash. -/
def Foremost (cfg : Config) (i : Int) (v : ViewType) (l : List PBFTMessage) : Prop :=
  ∀ m ∈ l, isVote cfg i m.hash m.generatedFrom m = true → v ≤ m.view →
    ∀ first ∈ l.find? (isVote cfg i m.hash m.generatedFrom), v ≤ first.view

instance (cfg : Config) (i : Int) (v : ViewType) (l : List PBFTMessage) : Decidable (Foremost cfg i v l) :=
  inferInstanceAs (Decidable (∀ m ∈ l, _ → _ → ∀ first ∈ l.find? (isVote cfg i m.hash m.generatedFrom), _))

def ballotWeight (cfg : Config) (l : OrdMap IndexType PBFTMessage) : UInt64 :=
  l.entries.foldl (fun w e =>
    match cfg.getConsensusNodeByIndex e.2.generatedFrom with
    | none => w
    | some nodeInfo => w + nodeInfo.weight) 0

theorem find?_recalculateQuorum (cfg : Config) (t : CollectionCache) (h : HashType) :
    (recalculateQuorum cfg t).find? h = (t.find? h).map (ballotWeight cfg) := by
  exact OrdMap.find?_mapVal _ _ _

theorem ballotWeight_eq (cfg : Config) (l : OrdMap IndexType PBFTMessage) :
    ballotWeight cfg l = Quorum.wrapSum (l.entries.map fun e => cfg.weightOf e.2.generatedFrom) := by
  rw [← Quorum.foldl_add_eq_wrapSum]
  unfold ballotWeight
  refine List.foldl_ext _ _ _ (fun w e _ => ?_)
  unfold Config.weightOf
  cases cfg.getConsensusNodeByIndex e.2.generatedFrom <;> simp

theorem ballotWeight_insert {cfg : Config} {l : OrdMap IndexType PBFTMessage} {m : PBFTMessage} {node : ConsensusNode}
    (hnew : l.find? m.generatedFrom = none) (hnode : cfg.getConsensusNodeByIndex m.generatedFrom = some node) :
    ballotWeight cfg (l.insert m.generatedFrom m) = ballotWeight cfg l + node.weight := by
  have hperm := (OrdMap.insertList_perm m hnew).map fun e : IndexType × PBFTMessage => cfg.weightOf e.2.generatedFrom
  have hweight : cfg.weightOf m.generatedFrom = node.weight := by
    rw [Config.weightOf, hnode]
    rfl
  rw [ballotWeight_eq, ballotWeight_eq, ← hweight, ← Quorum.wrapSum_cons]
  exact Quorum.wrapSum_perm hperm

structure Gathered (cfg : Config) (i : Int) (l : List PBFTMessage) (t : CollectionCache × QuorumRecoder) : Prop where
  filed : ∀ h j, Ballot.filed t.1 h j = l.find? (isVote cfg i h j)
  dense : Ballot.Dense t.1
  recorded : t.2 = recalculateQuorum cfg t.1

variable {cfg : Config} {i : Int} {l : List PBFTMessage} {t : CollectionCache × QuorumRecoder}

theorem Gathered.empty : Gathered cfg i [] (∅, ∅) := ⟨fun _ _ => rfl, fun _ _ hl => (by cases hl), rfl⟩

theorem Gathered.skip (ht : Gathered cfg i l t) {m : PBFTMessage}
    (hm : ∀ h j, isVote cfg i h j m = true → (l.find? (isVote cfg i h j)).isSome = true) : Gathered cfg i (l ++ [m]) t := by
  refine ⟨fun h j => ?_, ht.dense, ht.recorded⟩
  rw [ht.filed, List.find?_append]
  by_cases hv : isVote cfg i h j m = true
  · obtain ⟨first, hfirst⟩ := Option.isSome_iff_exists.1 (hm h j hv)
    rw [hfirst]
    rfl
  · simp [hv]

theorem Gathered.file (ht : Gathered cfg i l t) {m : PBFTMessage} {node : ConsensusNode} (hindex : m.index = i)
    (hnew : Ballot.filed t.1 m.hash m.generatedFrom = none)
    (hnode : cfg.getConsensusNodeByIndex m.generatedFrom = some node) :
    Gathered cfg i (l ++ [m]) (Ballot.file t.1 m.hash m.generatedFrom m,
      t.2.insert m.hash ((t.2.find? m.hash).getD 0 + node.weight)) := by
  refine ⟨fun h j => ?_, ht.dense.file _ _ _, ?_⟩
  · rw [Ballot.filed_file, List.find?_append, ← ht.filed]
    by_cases hv : h = m.hash ∧ j = m.generatedFrom
    · obtain ⟨rfl, rfl⟩ := hv
      rw [if_pos ⟨rfl, rfl⟩, hnew]
      simp [isVote, hindex, hnode]
    · have hno : isVote cfg i h j m = false := by
        by_contra hyes
        rw [Bool.not_eq_false] at hyes
        simp only [isVote, Bool.and_eq_true, decide_eq_true_eq] at hyes
        exact hv ⟨hyes.1.1.2.symm, hyes.1.2.symm⟩
      rw [if_neg hv]
      simp [hno]
  · apply OrdMap.ext_find?
    intro h
    rw [OrdMap.find?_insert, find?_recalculateQuorum, ht.recorded, find?_recalculateQuorum]
    unfold Ballot.file
    rw [OrdMap.find?_insert]
    split_ifs with hh
    · rw [Option.map_some]
      have hfresh : ((t.1.find? m.hash).getD ∅).find? m.generatedFrom = none := by
        unfold Ballot.filed at hnew
        cases hl : t.1.find? m.hash with
        | none => rfl
        | some l' => simpa [hl] using hnew
      rw [ballotWeight_insert hfresh hnode]
      cases t.1.find? m.hash <;> rfl
    · exact find?_recalculateQuorum cfg t.1 h

theorem Gathered.add (ht : Gathered cfg i l t) {c : PBFTCache} (hc : c.index = i) (m : PBFTMessage) :
    Gathered cfg i (l ++ [m]) (addCache cfg c t.1 t.2 m) := by
  unfold addCache
  split
  · rename_i hindex
    refine ht.skip fun h j hv => ?_
    simp only [isVote, Bool.and_eq_true, decide_eq_true_eq] at hv
    exact absurd (hv.1.1.1.trans hc.symm) hindex
  rename_i hindex
  rw [not_not, hc] at hindex
  split
  · rename_i hfiled
    refine ht.skip fun h j hv => ?_
    simp only [isVote, Bool.and_eq_true, decide_eq_true_eq] at hv
    rw [← ht.filed, ← hv.1.1.2, ← hv.1.2]
    exact hfiled
  rename_i hnew
  split
  · rename_i hnone
    refine ht.skip fun h j hv => ?_
    simp only [isVote, Bool.and_eq_true, decide_eq_true_eq] at hv
    rw [← hv.1.2, hnone] at hv
    simp at hv
  · rename_i node hnode
    exact ht.file hindex (by simpa [Ballot.filed] using hnew) hnode

theorem addVote_index (cfg : Config) (k : VoteKind) (c : PBFTCache) (m : PBFTMessage) :
    (addVote cfg k c m).index = c.index := by cases k <;> rfl

theorem voteTally_addVote (cfg : Config) (k : VoteKind) (c : PBFTCache) (m : PBFTMessage) :
    (addVote cfg k c m).voteTally k = addCache cfg c (c.voteTally k).1 (c.voteTally k).2 m := by cases k <;> rfl

theorem voted_snoc (cfg : Config) (k : VoteKind) (i : Int) (l : List PBFTMessage) (m : PBFTMessage) :
    voted cfg k i (l ++ [m]) = addVote cfg k (voted cfg k i l) m := by simp [voted, List.foldl_append]

theorem voted_index (cfg : Config) (k : VoteKind) (i : Int) (l : List PBFTMessage) : (voted cfg k i l).index = i := by
  induction l using List.reverseRecOn with
  | nil => rfl
  | append_singleton l m ih =>
    rw [voted_snoc, addVote_index, ih]

theorem voted_gathered (cfg : Config) (k : VoteKind) (i : Int) (l : List PBFTMessage) :
    Gathered cfg i l ((voted cfg k i l).voteTally k) := by
  induction l using List.reverseRecOn with
  | nil => cases k <;> exact .empty
  | append_singleton l m ih =>
    have hadd := ih.add (voted_index cfg k i l) m
    rw [← voteTally_addVote] at hadd
    rw [voted_snoc]
    exact hadd

theorem voted_counts (cfg : Config) (k : VoteKind) (i : Int) (l : List PBFTMessage) :
    Counts cfg (fun _ => True) ((voted cfg k i l).voteTally k).1 ((voted cfg k i l).voteTally k).2 := by
  induction l using List.reverseRecOn with
  | nil => cases k <;> exact Counts.empty
  | append_singleton l m ih =>
    have hadd := ih.addCache (voted cfg k i l) (m := m) fun _ => trivial
    rw [← voteTally_addVote] at hadd
    rw [voted_snoc]
    exact hadd

theorem filed_resetCacheAfterViewChange (t : CollectionCache) (v : ViewType) (h : HashType) (j : IndexType) :
    Ballot.filed (resetCacheAfterViewChange t v) h j = (Ballot.filed t h j).filter (fun m => v ≤ m.view) := by
  unfold Ballot.filed resetCacheAfterViewChange
  rw [OrdMap.find?_filter, OrdMap.find?_mapVal]
  cases hl : t.find? h with
  | none => rfl
  | some l =>
    rw [Option.map_some, Option.bind_some, Option.filter_some]
    have hinner : (l.filter fun _ m => !(m.view < v)).find? j = (l.find? j).filter (fun m => v ≤ m.view) := by
      rw [OrdMap.find?_filter]
      congr 1
      funext m
      rw [← decide_not]
      simp only [not_lt]
    split_ifs with hne
    · exact hinner
    · rw [← hinner, Option.bind_none]
      have hnil : (l.filter fun _ m => !(m.view < v)).entries = [] := by simpa using hne
      unfold OrdMap.find?
      rw [hnil]
      rfl

theorem resetCacheAfterViewChange_dense (t : CollectionCache) (v : ViewType) :
    Ballot.Dense (resetCacheAfterViewChange t v) := by
  intro h l hl
  unfold resetCacheAfterViewChange at hl
  rw [OrdMap.find?_filter] at hl
  simpa using (Option.filter_eq_some_iff.1 hl).2

theorem voteTally_resetCache (cfg : Config) (k : VoteKind) (c : PBFTCache) (v : ViewType) :
    ((c.resetCache cfg v).1.voteTally k) = (resetCacheAfterViewChange (c.voteTally k).1 v,
      recalculateQuorum cfg (resetCacheAfterViewChange (c.voteTally k).1 v)) := by cases k <;> rfl

/-- What stays is what comes in when only the votes from view `v` on are added, if the first votes are such votes. -/
theorem filter_find?_iff (cfg : Config) (i : Int) (v : ViewType) (l : List PBFTMessage) :
    (∀ h j, (l.find? (isVote cfg i h j)).filter (fun m => v ≤ m.view) =
      (l.filter (fun m => v ≤ m.view)).find? (isVote cfg i h j)) ↔ Foremost cfg i v l := by
  constructor
  · intro heq m hm hvote hv first hfirst
    have hin : m ∈ l.filter (fun m => v ≤ m.view) := List.mem_filter.2 ⟨hm, by simpa using hv⟩
    have hsome := List.find?_isSome.2 ⟨m, hin, hvote⟩
    rw [← heq, Option.mem_def.1 hfirst, Option.filter_some] at hsome
    split_ifs at hsome with hle
    · simpa using hle
    · cases hsome
  · intro hfore h j
    cases hfind : l.find? (isVote cfg i h j) with
    | none =>
      have hnone := List.find?_eq_none.1 hfind
      symm
      rw [Option.filter_none, List.find?_eq_none]
      exact fun m hm => hnone m (List.mem_filter.1 hm).1
    | some first =>
      rw [Option.filter_some]
      split_ifs with hle
      · symm
        rw [List.find?_filter]
        obtain ⟨hfirst, pre, post, hl, hpre⟩ := List.find?_eq_some_iff_append.1 hfind
        refine List.find?_eq_some_iff_append.2 ⟨by simp [hfirst, hle], pre, post, hl, fun m hm => ?_⟩
        have hno : isVote cfg i h j m = false := by simpa using hpre m hm
        simp [hno]
      · symm
        rw [List.find?_eq_none]
        intro m hm hvote
        obtain ⟨hm, hv⟩ := List.mem_filter.1 hm
        have hmatch : h = m.hash ∧ j = m.generatedFrom := by
          simp only [isVote, Bool.and_eq_true, decide_eq_true_eq] at hvote
          exact ⟨hvote.1.1.2.symm, hvote.1.2.symm⟩
        obtain ⟨rfl, rfl⟩ := hmatch
        have hfirst := hfore m hm hvote (by simpa using hv) first hfind
        exact hle (by simpa using hfirst)

theorem KeepsVotes.foremost {k : VoteKind} {v : ViewType} (h : KeepsVotes cfg k i v l) : Foremost cfg i v l := by
  rw [← filter_find?_iff]
  intro hash j
  have hall := voted_gathered cfg k i l
  have hlate := voted_gathered cfg k i (l.filter (fun m => v ≤ m.view))
  rw [← hall.filed, ← hlate.filed, ← filed_resetCacheAfterViewChange, ← h.tally, voteTally_resetCache]

/-- A change of view keeps every vote of the new view exactly when none of them is behind an older vote of its sender for
the same hash. -/
theorem resetCache_keeps_iff (cfg : Config) (k : VoteKind) (i : Int) (v : ViewType) (l : List PBFTMessage) :
    KeepsVotes cfg k i v l ↔ Foremost cfg i v l := by
  refine ⟨KeepsVotes.foremost, fun hfore => ?_⟩
  have hall := voted_gathered cfg k i l
  have hlate := voted_gathered cfg k i (l.filter (fun m => v ≤ m.view))
  rw [← filter_find?_iff] at hfore
  have htable : resetCacheAfterViewChange ((voted cfg k i l).voteTally k).1 v =
      ((voted cfg k i (l.filter (fun m => v ≤ m.view))).voteTally k).1 := by
    refine (resetCacheAfterViewChange_dense _ v).ext hlate.dense fun h j => ?_
    rw [filed_resetCacheAfterViewChange, hall.filed, hlate.filed]
    exact hfore h j
  refine ⟨fun m hm hvote hv => ?_, fun h => ?_, ?_⟩
  · rw [voteTally_resetCache, htable]
    refine Ballot.mem_senders_iff_filed.2 ?_
    rw [hlate.filed, List.find?_isSome]
    exact ⟨m, List.mem_filter.2 ⟨hm, by simpa using hv⟩, hvote⟩
  · rw [voteTally_resetCache]
    exact ((voted_counts cfg k i l).reset v).weight h
  · rw [voteTally_resetCache, htable, ← hlate.recorded]

/-- Node 2 prepares a proposal in view 0 and, after it has changed to view 1, the same proposal again. -/
def toyRepeated : List PBFTMessage :=
  [{ packetType := .PreparePacket
     base := { index := 1, hash := (Toy.proposal 7).proposal.hash, view := 0, generatedFrom := 2 } },
   { packetType := .PreparePacket
     base := { index := 1, hash := (Toy.proposal 7).proposal.hash, view := 1, generatedFrom := 2 } }]

/-- The vote of view 1 is not filed because of the one of view 0, and the change to view 1 drops that one. -/
theorem toyRepeated_lost : ¬KeepsVotes (Toy.node 0 [1, 1, 1, 1]).cfg .prepare 1 1 toyRepeated := by
  intro hkeeps
  exact absurd hkeeps.foremost (by decide +kernel)

end PBFTCache

end BcosPbft
