import BcosPbft.Proofs.Effects
import BcosPbft.Proofs.NodeList

/-! The tallies of a cache. Whatever is true of every message that comes in is true of the messages behind a collected
weight, and the weight is that of their senders: a message is filed once under its sender, and a view change only drops
messages. -/

namespace BcosPbft

namespace PBFTCache

def senders (cached : CollectionCache) (h : HashType) : List IndexType := ((cached.find? h).getD ∅).keys

theorem mem_senders {cached : CollectionCache} {h : HashType} {i : IndexType} :
    i ∈ senders cached h ↔ ∃ l m, cached.find? h = some l ∧ l.find? i = some m := by
  unfold senders
  rw [OrdMap.mem_keys]
  cases cached.find? h with
  | none => simp
  | some l => simp

theorem senders_touch (cached : CollectionCache) (hash h : HashType) : senders (touch cached hash) h = senders cached h := by
  unfold touch
  split
  · rfl
  · rename_i hnone
    have hnone : cached.find? hash = none := by simpa [OrdMap.contains] using hnone
    unfold senders
    rw [OrdMap.find?_insert]
    split_ifs with hh
    · rw [hh, hnone]
      rfl
    · rfl

/-- Every message of a tally is filed under its hash and its sender, a node of the list, `P` holds for it, and the weight
of a hash is the sum over its senders. -/
structure Counts (cfg : Config) (P : PBFTMessage → Prop) (cached : CollectionCache) (weights : QuorumRecoder) : Prop where
  filed : ∀ h l i m, cached.find? h = some l → l.find? i = some m →
    m.hash = h ∧ m.generatedFrom = i ∧ i.toNat < cfg.consensusNodeList.length ∧ P m
  weight : ∀ h, (weights.find? h).getD 0 = Quorum.wrapSum ((senders cached h).map cfg.weightOf)

namespace Counts

variable {cfg : Config} {P Q : PBFTMessage → Prop} {cached : CollectionCache} {weights : QuorumRecoder}

theorem empty : Counts cfg P ∅ ∅ where
  filed h l i m hl _ := by cases hl
  weight h := rfl

theorem mono (hc : Counts cfg P cached weights) (hPQ : ∀ m, P m → Q m) : Counts cfg Q cached weights where
  filed h l i m hl hm := by
    obtain ⟨hhash, hfrom, hlen, hP⟩ := hc.filed h l i m hl hm
    exact ⟨hhash, hfrom, hlen, hPQ m hP⟩
  weight := hc.weight

theorem congr {cfg' : Config} (hc : Counts cfg P cached weights) (hlist : cfg'.consensusNodeList = cfg.consensusNodeList) :
    Counts cfg' P cached weights where
  filed h l i m hl hm := by
    rw [hlist]
    exact hc.filed h l i m hl hm
  weight h := by
    have heq : cfg'.weightOf = cfg.weightOf := by
      funext i
      simp only [Config.weightOf, Config.getConsensusNodeByIndex, hlist]
    rw [heq]
    exact hc.weight h

theorem sender (hc : Counts cfg P cached weights) {h : HashType} {i : IndexType} (hi : i ∈ senders cached h) :
    ∃ m, m.hash = h ∧ m.generatedFrom = i ∧ i.toNat < cfg.consensusNodeList.length ∧ P m := by
  obtain ⟨l, m, hl, hm⟩ := mem_senders.1 hi
  exact ⟨m, hc.filed h l i m hl hm⟩

/-- A collected weight is at most the weight of its senders without wrapping. -/
theorem toNat_weight_le (hc : Counts cfg P cached weights) {h : HashType} {v : UInt64} (hv : weights.find? h = some v) :
    v.toNat ≤ ∑ i ∈ ((cached.find? h).getD ∅).dom, cfg.weightAt i.toNat := by
  have hweight := hc.weight h
  rw [hv, Option.getD_some, ← Quorum.foldl_add_eq_wrapSum] at hweight
  rw [hweight]
  exact cfg.toNat_tally_le (OrdMap.keys_nodup _)

theorem insert (hc : Counts cfg P cached weights) {m : PBFTMessage} {node : ConsensusNode}
    (hnew : ((cached.find? m.hash).bind (·.find? m.generatedFrom)).isSome = false)
    (hnode : cfg.getConsensusNodeByIndex m.generatedFrom = some node) (hm : P m) :
    Counts cfg P (cached.insert m.hash (((cached.find? m.hash).getD ∅).insert m.generatedFrom m))
      (weights.insert m.hash ((weights.find? m.hash).getD 0 + node.weight)) := by
  have hfresh : ((cached.find? m.hash).getD ∅).find? m.generatedFrom = none := by
    cases hl : cached.find? m.hash with
    | none => rfl
    | some l => simpa [hl] using hnew
  constructor
  · intro h l i m' hl hm'
    rw [OrdMap.find?_insert] at hl
    split_ifs at hl with hh
    · obtain rfl := Option.some.inj hl
      rw [OrdMap.find?_insert] at hm'
      split_ifs at hm' with hi
      · obtain rfl := Option.some.inj hm'
        refine ⟨hh.symm, hi.symm, ?_, hm⟩
        rw [hi]
        exact (List.getElem?_eq_some_iff.1 hnode).1
      · cases hold : cached.find? m.hash with
        | none => simp [hold] at hm'
        | some l' =>
          rw [hold, Option.getD_some] at hm'
          rw [hh]
          exact hc.filed m.hash l' i m' hold hm'
    · exact hc.filed h l i m' hl hm'
  · intro h
    unfold senders
    rw [OrdMap.find?_insert, OrdMap.find?_insert]
    split_ifs with hh
    · have hperm := (OrdMap.keys_insert_perm m hfresh).map cfg.weightOf
      rw [Option.getD_some, Option.getD_some, Quorum.wrapSum_perm hperm, List.map_cons, Quorum.wrapSum_cons, hc.weight m.hash,
        Config.weightOf, hnode]
      rfl
    · exact hc.weight h

theorem addCache (hc : Counts cfg P cached weights) (c : PBFTCache) {m : PBFTMessage} (hm : m.index = c.index → P m) :
    Counts cfg P (PBFTCache.addCache cfg c cached weights m).1 (PBFTCache.addCache cfg c cached weights m).2 := by
  unfold PBFTCache.addCache
  split
  · exact hc
  rename_i hindex
  split
  · exact hc
  rename_i hnew
  split
  · exact hc
  · rename_i node hnode
    exact hc.insert (by simpa using hnew) hnode (hm (not_not.1 hindex))

theorem touch (hc : Counts cfg P cached weights) (hash : HashType) : Counts cfg P (PBFTCache.touch cached hash) weights := by
  constructor
  · intro h l i m hl hm
    unfold PBFTCache.touch at hl
    split at hl
    · exact hc.filed h l i m hl hm
    · rw [OrdMap.find?_insert] at hl
      split_ifs at hl
      · obtain rfl := Option.some.inj hl
        cases hm
      · exact hc.filed h l i m hl hm
  · intro h
    rw [senders_touch]
    exact hc.weight h

/-- The weights of a view change are recomputed from the messages that stay. -/
theorem reset (hc : Counts cfg P cached weights) (curView : ViewType) :
    Counts cfg P (resetCacheAfterViewChange cached curView)
      (recalculateQuorum cfg (resetCacheAfterViewChange cached curView)) := by
  have hstays : ∀ {h l}, (resetCacheAfterViewChange cached curView).find? h = some l → ∀ i m, l.find? i = some m →
      m.hash = h ∧ m.generatedFrom = i ∧ i.toNat < cfg.consensusNodeList.length ∧ P m := by
    intro h l hl i m hm
    rw [resetCacheAfterViewChange, OrdMap.find?_filter, OrdMap.find?_mapVal] at hl
    obtain ⟨l', hl', rfl⟩ := Option.map_eq_some_iff.1 (Option.filter_eq_some_iff.1 hl).1
    rw [OrdMap.find?_filter] at hm
    exact hc.filed h l' i m hl' (Option.filter_eq_some_iff.1 hm).1
  refine ⟨fun h l i m hl hm => hstays hl i m hm, fun h => ?_⟩
  unfold senders
  rw [recalculateQuorum, OrdMap.find?_mapVal]
  cases hl : (resetCacheAfterViewChange cached curView).find? h with
  | none => rfl
  | some l =>
    rw [Option.map_some, Option.getD_some, Option.getD_some, ← Quorum.foldl_add_eq_wrapSum, OrdMap.keys, List.foldl_map]
    refine List.foldl_ext _ _ _ (fun w e he => ?_)
    rw [(hstays hl e.1 e.2 (OrdMap.find?_eq_some.2 he)).2.1, Config.weightOf]
    cases cfg.getConsensusNodeByIndex e.1 with
    | none => simp
    | some node => rfl

end Counts

def commitSenders (c : PBFTCache) (h : HashType) : Finset IndexType := ((c.commitCacheList.find? h).getD ∅).dom

/-- The votes of the commit tally are such that `P` holds for their senders and hashes. -/
abbrev Tallied (cfg : Config) (P : IndexType → HashType → Prop) (c : PBFTCache) : Prop :=
  Counts cfg (fun m => P m.generatedFrom m.hash) c.commitCacheList c.commitReqWeight

namespace Tallied

variable {cfg : Config} {P : IndexType → HashType → Prop} {c c' : PBFTCache}

theorem congr {cfg' : Config} (hc : c.Tallied cfg P) (hlist : cfg'.consensusNodeList = cfg.consensusNodeList)
    (hcache : c'.commitCacheList = c.commitCacheList) (hweight : c'.commitReqWeight = c.commitReqWeight) :
    c'.Tallied cfg' P := by
  unfold Tallied
  rw [hcache, hweight]
  exact Counts.congr hc hlist

theorem senders (hc : c.Tallied cfg P) {h : HashType} {i : IndexType} (hi : i ∈ c.commitSenders h) :
    i.toNat < cfg.consensusNodeList.length ∧ P i h := by
  have hmem : i ∈ PBFTCache.senders c.commitCacheList h := by
    rwa [commitSenders, OrdMap.dom, List.mem_toFinset] at hi
  obtain ⟨m, rfl, rfl, hlen, hP⟩ := Counts.sender hc hmem
  exact ⟨hlen, hP⟩

end Tallied

end PBFTCache

end BcosPbft
