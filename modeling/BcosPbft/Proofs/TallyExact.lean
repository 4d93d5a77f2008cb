import BcosPbft.Proofs.Purge

/-! The weights that a cache keeps beside its messages. Whatever is added and purged, in any order and however often, and
whatever entries the log lines create, the weight of a hash is that of the senders whose messages are stored for it. -/

namespace BcosPbft

namespace PBFTCache

inductive TallyKind
  | prepare | commit | checkpoint
deriving DecidableEq

def tallyOf (c : PBFTCache) : TallyKind → CollectionCache × QuorumRecoder
  | .prepare => (c.prepareCacheList, c.prepareReqWeight)
  | .commit => (c.commitCacheList, c.commitReqWeight)
  | .checkpoint => (c.checkpointCacheList, c.checkpointCacheWeight)

/-- The log line of an addition reads the weight of the message's hash with `operator[]`. -/
def logWeight (cfg : Config) (weightInfo : QuorumRecoder) (hash : HashType) : QuorumRecoder :=
  if cfg.infoLog && !weightInfo.contains hash then weightInfo.insert hash 0 else weightInfo

/-- `addPrepareCache`, `addCommitCache` and `addCheckPointMsg`, each with its log line. -/
def addLogged (cfg : Config) (c : PBFTCache) : TallyKind → PBFTMessage → PBFTCache
  | .prepare, m =>
    let c := addPrepareCache cfg c m
    { c with prepareReqWeight := logWeight cfg c.prepareReqWeight m.hash }
  | .commit, m =>
    let c := addCommitCache cfg c m
    { c with commitReqWeight := logWeight cfg c.commitReqWeight m.hash }
  | .checkpoint, m =>
    let c := addCheckPointMsg cfg c m
    { c with checkpointCacheWeight := logWeight cfg c.checkpointCacheWeight m.hash }

inductive TallyCall
  | add (k : TallyKind) (m : PBFTMessage)
  | resetCache (curView : ViewType)
deriving DecidableEq

def call (cfg : Config) (c : PBFTCache) : TallyCall → PBFTCache
  | .add k m => addLogged cfg c k m
  | .resetCache curView => (resetCache cfg c curView).1

def called (cfg : Config) (i : Int) (calls : List TallyCall) : PBFTCache := calls.foldl (call cfg) { index := i }

/-- The weight kept for a hash, where no entry counts as `0`. -/
def keptWeight (t : CollectionCache × QuorumRecoder) (h : HashType) : UInt64 := (t.2.find? h).getD 0

def storedSenders (cached : CollectionCache) (h : HashType) : Finset IndexType :=
  (((cached.find? h).getD ∅).values.map (·.generatedFrom)).toFinset

/-- The weight of a hash is that of the senders stored for it, and the one computed from scratch. -/
structure ExactTally (cfg : Config) (t : CollectionCache × QuorumRecoder) : Prop where
  senders : ∀ h, (keptWeight t h).toNat = ∑ i ∈ storedSenders t.1 h, cfg.weightAt i.toNat
  recalculated : ∀ h, keptWeight t h = ((recalculateQuorum cfg t.1).find? h).getD 0

variable {cfg : Config} {P : PBFTMessage → Prop} {cached : CollectionCache} {weights : QuorumRecoder}

theorem getD_logWeight (weightInfo : QuorumRecoder) (hash h : HashType) :
    ((logWeight cfg weightInfo hash).find? h).getD 0 = (weightInfo.find? h).getD 0 := by
  unfold logWeight
  split_ifs with hlog
  · rw [OrdMap.find?_insert]
    split_ifs with hh
    · have hnone : weightInfo.find? hash = none := by simpa [OrdMap.contains] using (Bool.and_eq_true_iff.1 hlog).2
      rw [hh, hnone]
      rfl
    · rfl
  · rfl

theorem Counts.logged (hc : Counts cfg P cached weights) (hash : HashType) :
    Counts cfg P cached (logWeight cfg weights hash) where
  filed := hc.filed
  weight h := by rw [getD_logWeight, hc.weight]

theorem Counts.storedSenders_eq (hc : Counts cfg P cached weights) (h : HashType) :
    storedSenders cached h = (senders cached h).toFinset := by
  unfold storedSenders PBFTCache.senders OrdMap.values OrdMap.keys
  rw [List.map_map]
  congr 1
  apply List.map_congr_left
  intro e he
  cases hl : cached.find? h with
  | none => simp [hl] at he
  | some l =>
    rw [hl, Option.getD_some] at he
    exact (hc.filed h l e.1 e.2 hl (OrdMap.find?_eq_some.2 he)).2.1

theorem Counts.exact (hc : Counts cfg P cached weights) (hmax : Config.totalWeight cfg.consensusNodeList < 2 ^ 64) :
    ExactTally cfg (cached, weights) := by
  have hnodup : ∀ h, (PBFTCache.senders cached h).Nodup := fun h => OrdMap.keys_nodup _
  constructor
  · intro h
    rw [hc.storedSenders_eq, List.sum_toFinset _ (hnodup h), ← Config.toNat_tally hmax (hnodup h),
      Quorum.foldl_add_eq_wrapSum]
    exact congrArg UInt64.toNat (hc.weight h)
  · intro h
    have hweight : keptWeight (cached, weights) h = _ := hc.weight h
    rw [hweight, find?_recalculateQuorum]
    unfold PBFTCache.senders
    cases hl : cached.find? h with
    | none => rfl
    | some l =>
      rw [Option.map_some, Option.getD_some, Option.getD_some, ballotWeight_eq, OrdMap.keys, List.map_map]
      congr 1
      apply List.map_congr_left
      intro e he
      exact congrArg cfg.weightOf (hc.filed h l e.1 e.2 hl (OrdMap.find?_eq_some.2 he)).2.1.symm

theorem call_index (c : PBFTCache) (f : TallyCall) : (call cfg c f).index = c.index := by
  cases f with
  | add k m => cases k <;> rfl
  | resetCache curView => rfl

theorem counts_call (c : PBFTCache) (k : TallyKind) (f : TallyCall)
    (hc : Counts cfg (fun _ => True) (c.tallyOf k).1 (c.tallyOf k).2) :
    Counts cfg (fun _ => True) ((call cfg c f).tallyOf k).1 ((call cfg c f).tallyOf k).2 := by
  cases f with
  | add k' m =>
    have hadd : Counts cfg (fun _ => True) _ _ := (hc.addCache c (m := m) fun _ => trivial).logged m.hash
    cases k <;> cases k' <;> first | exact hadd | exact hc
  | resetCache curView =>
    cases k with
    | prepare => exact hc.reset curView
    | commit => exact hc.reset curView
    | checkpoint => exact hc

theorem called_snoc (i : Int) (calls : List TallyCall) (f : TallyCall) :
    called cfg i (calls ++ [f]) = call cfg (called cfg i calls) f := by simp [called, List.foldl_append]

theorem called_counts (i : Int) (calls : List TallyCall) (k : TallyKind) :
    Counts cfg (fun _ => True) ((called cfg i calls).tallyOf k).1 ((called cfg i calls).tallyOf k).2 := by
  induction calls using List.reverseRecOn with
  | nil => cases k <;> exact Counts.empty
  | append_singleton calls f ih =>
    rw [called_snoc]
    exact counts_call _ k f ih

theorem called_index (i : Int) (calls : List TallyCall) : (called cfg i calls).index = i := by
  induction calls using List.reverseRecOn with
  | nil => rfl
  | append_singleton calls f ih => rw [called_snoc, call_index, ih]

theorem mem_senders_addCache {c : PBFTCache} {h : HashType} {i : IndexType} {m : PBFTMessage} :
    i ∈ senders (addCache cfg c cached weights m).1 h ↔ i ∈ senders cached h ∨ isVote cfg c.index h i m = true := by
  have hmem : ∀ t : CollectionCache, i ∈ senders t h ↔ (Ballot.filed t h i).isSome = true :=
    fun t => Ballot.mem_senders_iff_filed
  unfold addCache
  split_ifs with hindex hfiled
  · simp [isVote, hindex]
  · constructor
    · exact Or.inl
    · rintro (hi | hvote)
      · exact hi
      simp only [isVote, Bool.and_eq_true, decide_eq_true_eq] at hvote
      rw [hmem, ← hvote.1.1.2, ← hvote.1.2]
      exact hfiled
  rw [not_not] at hindex
  cases hnode : cfg.getConsensusNodeByIndex m.generatedFrom with
  | none =>
    constructor
    · exact Or.inl
    · rintro (hi | hvote)
      · exact hi
      simp only [isVote, Bool.and_eq_true, decide_eq_true_eq] at hvote
      rw [← hvote.1.2, hnode] at hvote
      simp at hvote
  | some node =>
    have hfile : i ∈ senders (Ballot.file cached m.hash m.generatedFrom m) h ↔ _ := hmem _
    refine hfile.trans ?_
    rw [Ballot.filed_file, hmem]
    split_ifs with hm
    · obtain ⟨rfl, rfl⟩ := hm
      simp [isVote, hindex, hnode]
    · have hno : isVote cfg c.index h i m = false := by
        rw [← Bool.not_eq_true]
        intro hvote
        simp only [isVote, Bool.and_eq_true, decide_eq_true_eq] at hvote
        exact hm ⟨hvote.1.1.2.symm, hvote.1.2.symm⟩
      simp [hno]

theorem mem_senders_addLogged {c : PBFTCache} {k k' : TallyKind} {h : HashType} {i : IndexType} {m : PBFTMessage} :
    i ∈ senders ((addLogged cfg c k' m).tallyOf k).1 h ↔
      i ∈ senders (c.tallyOf k).1 h ∨ (k' = k ∧ isVote cfg c.index h i m = true) := by
  have hadd : i ∈ senders (addCache cfg c (c.tallyOf k).1 (c.tallyOf k).2 m).1 h ↔ _ := mem_senders_addCache
  cases k <;> cases k' <;> simp only [true_and, false_and, or_false, reduceCtorEq] <;> first | exact hadd | exact Iff.rfl

theorem mem_senders_added (i : Int) (calls : List TallyCall) (adds : List (TallyKind × PBFTMessage)) {k : TallyKind}
    {h : HashType} {j : IndexType} :
    j ∈ senders ((called cfg i (calls ++ adds.map fun a => .add a.1 a.2)).tallyOf k).1 h ↔
      j ∈ senders ((called cfg i calls).tallyOf k).1 h ∨ ∃ a ∈ adds, a.1 = k ∧ isVote cfg i h j a.2 = true := by
  induction adds using List.reverseRecOn with
  | nil => simp
  | append_singleton adds a ih =>
    rw [List.map_append, ← List.append_assoc, List.map_singleton, called_snoc, call, mem_senders_addLogged, ih, called_index,
      or_assoc]
    apply or_congr_right
    simp only [List.mem_append, List.mem_singleton, or_and_right, exists_or, exists_eq_left]

theorem keptWeight_congr {cached' : CollectionCache} {weights' : QuorumRecoder} (hc : Counts cfg P cached weights)
    (hc' : Counts cfg P cached' weights') {h : HashType} (heq : ∀ i, i ∈ senders cached h ↔ i ∈ senders cached' h) :
    keptWeight (cached, weights) h = keptWeight (cached', weights') h := by
  have hperm : (senders cached h).Perm (senders cached' h) :=
    (List.perm_ext_iff_of_nodup (OrdMap.keys_nodup _) (OrdMap.keys_nodup _)).2 heq
  calc keptWeight (cached, weights) h
    _ = Quorum.wrapSum ((senders cached h).map cfg.weightOf) := hc.weight h
    _ = Quorum.wrapSum ((senders cached' h).map cfg.weightOf) := Quorum.wrapSum_perm (hperm.map _)
    _ = keptWeight (cached', weights') h := (hc'.weight h).symm

/-- After any calls every weight is exact, and additions in another order or number leave the same weights. -/
theorem tally_exact {cfg : Config} (hmax : Config.totalWeight cfg.consensusNodeList < 2 ^ 64) (i : Int)
    (calls : List TallyCall) (k : TallyKind) :
    ExactTally cfg ((called cfg i calls).tallyOf k) ∧
      ∀ adds adds' : List (TallyKind × PBFTMessage), (∀ a, a ∈ adds ↔ a ∈ adds') → ∀ h,
        keptWeight ((called cfg i (calls ++ adds.map fun a => .add a.1 a.2)).tallyOf k) h =
          keptWeight ((called cfg i (calls ++ adds'.map fun a => .add a.1 a.2)).tallyOf k) h := by
  refine ⟨(called_counts i calls k).exact hmax, fun adds adds' hsame h => ?_⟩
  apply keptWeight_congr (called_counts i _ k) (called_counts i _ k)
  intro j
  rw [mem_senders_added, mem_senders_added]
  simp only [hsame]

def toyWeighted : Config := { keyPair := Toy.keyPair 0, consensusNodeList := Toy.nodes [1, 2, 3, 4] }

def toyAddition (sender : IndexType) (view : ViewType) : TallyKind × PBFTMessage :=
  (.prepare, { base := { index := 1, view := view, generatedFrom := sender } })

def toyCalls : List TallyCall :=
  [toyAddition 1 0, toyAddition 3 1, toyAddition 9 0].map (fun a => .add a.1 a.2) ++ [.resetCache 1]

theorem toyCalls_exact :
    ExactTally toyWeighted ((called toyWeighted 1 toyCalls).tallyOf .prepare) ∧
      keptWeight ((called toyWeighted 1 (toyCalls ++
        [toyAddition 1 1, toyAddition 2 1].map fun a => .add a.1 a.2)).tallyOf .prepare) default =
      keptWeight ((called toyWeighted 1 (toyCalls ++
        [toyAddition 2 1, toyAddition 1 1, toyAddition 2 1].map fun a => .add a.1 a.2)).tallyOf .prepare) default := by
  have hmax : Config.totalWeight toyWeighted.consensusNodeList < 2 ^ 64 := by decide
  have hexact := tally_exact hmax 1 toyCalls .prepare
  refine ⟨hexact.1, hexact.2 _ _ (fun a => ?_) _⟩
  simp only [List.mem_cons, List.not_mem_nil, or_false]
  tauto

end PBFTCache

end BcosPbft
