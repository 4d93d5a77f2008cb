import BcosPbft.Proofs.Standing
import BcosPbft.Proofs.Turns

/-! A vote that a node has filed stays filed as long as the node stays in the view of the vote and does not erase the
cache, whatever else it does: later votes are filed beside it, and a purge is for a view that the node has reached. -/

namespace BcosPbft

namespace PBFTCache

/-- A vote of the sender for the hash is filed, and it is from view `v` on. -/
def Holds (k : VoteKind) (v : ViewType) (h : HashType) (j : IndexType) (c : PBFTCache) : Prop :=
  ∃ m, Ballot.filed (c.voteTally k).1 h j = some m ∧ v ≤ m.view

inductive TallyStep (cfg : Config) (l : Label) (c : PBFTCache) (k : VoteKind) (t : CollectionCache × QuorumRecoder) : Prop
  | same (h : t = c.voteTally k)
  | touch (hash : HashType) (h : t = (PBFTCache.touch (c.voteTally k).1 hash, (c.voteTally k).2))
  | file (m : PBFTMessage) (h : t = addCache cfg c (c.voteTally k).1 (c.voteTally k).2 m)
  | purge (v : ViewType) (hl : l = .reset) (h : t = (c.resetCache cfg v).1.voteTally k)

end PBFTCache

open PBFTCache

section

variable {E : Env} {l : Label} {i now : Int} {o cfg : Config} {c c' : PBFTCache} {k : VoteKind}

theorem CacheStep.tallyStep (h : CacheStep E cfg now l i c c') (k : VoteKind) : TallyStep cfg l c k (c'.voteTally k) := by
  have hsubmit : ∀ d : PBFTCache, (d.checkAndCommit cfg).1.voteTally k = d.voteTally k := by
    intro d
    rcases d.checkAndCommit_cases cfg with heq | ⟨heq, -⟩
    · rw [heq]
    · rw [heq]
      cases k <;> rfl
  cases h with
  | same => exact .same rfl
  | store m => exact .same (by cases k <;> rfl)
  | vote m =>
    cases k with
    | prepare => exact .file _ rfl
    | commit => exact .same rfl
  | prepare m =>
    cases k with
    | prepare => exact .file _ rfl
    | commit => exact .same rfl
  | commit m =>
    cases k with
    | prepare => exact .same rfl
    | commit => exact .file _ rfl
  | checkPoint own m => exact .same (by cases k <;> rfl)
  | preCommit =>
    rcases c.checkAndPreCommit_cases E cfg now with heq | ⟨m, p, -, -, -, -, -, heq⟩
    · rw [heq]
      exact .same rfl
    · rw [heq, hsubmit]
      cases k with
      | prepare => exact .touch p.hash rfl
      | commit => exact .file _ rfl
  | submit => exact .same (hsubmit c)
  | reset v => exact .purge v rfl rfl
  | stable =>
    rcases c.checkAndCommitStableCheckPoint_cases cfg with heq | ⟨p, w, -, -, -, -, heq⟩
    · rw [heq]
      exact .same rfl
    · rw [heq]
      exact .same (by cases k <;> rfl)
  | reencode => exact .same (by cases k <;> rfl)
  | setCheckPoint p =>
    unfold setCheckPointProposal
    split_ifs
    · exact .same rfl
    · exact .same rfl
    · exact .same (by cases k <;> rfl)

theorem CacheStep.counts (h : CacheStep E cfg now l i c c') (hlist : cfg.consensusNodeList = o.consensusNodeList)
    (hc : Counts o (fun _ => True) (c.voteTally k).1 (c.voteTally k).2) :
    Counts o (fun _ => True) (c'.voteTally k).1 (c'.voteTally k).2 := by
  have hcfg := hc.congr hlist
  cases h.tallyStep k with
  | same heq =>
    rw [heq]
    exact hc
  | touch hash heq =>
    rw [heq]
    exact hc.touch hash
  | file m heq =>
    rw [heq]
    exact (hcfg.addCache c fun _ => trivial).congr hlist.symm
  | purge v _ heq =>
    rw [heq, voteTally_resetCache]
    exact (hcfg.reset v).congr hlist.symm

theorem filed_addCache {cached : CollectionCache} {weights : QuorumRecoder} (m : PBFTMessage) {h : HashType} {j : IndexType}
    {m' : PBFTMessage} (hm : Ballot.filed cached h j = some m') :
    Ballot.filed (addCache cfg c cached weights m).1 h j = some m' := by
  unfold addCache
  split_ifs with hindex hnew
  · exact hm
  · exact hm
  split
  · exact hm
  · change Ballot.filed (Ballot.file cached m.hash m.generatedFrom m) h j = some m'
    rw [Ballot.filed_file, if_neg]
    · exact hm
    · rintro ⟨rfl, rfl⟩
      exact hnew (by rw [Ballot.filed] at hm; rw [hm]; rfl)

theorem filed_touch (cached : CollectionCache) (hash h : HashType) (j : IndexType) :
    Ballot.filed (touch cached hash) h j = Ballot.filed cached h j := by
  unfold touch
  split_ifs with hcontains
  · rfl
  · unfold Ballot.filed
    rw [OrdMap.find?_insert]
    split_ifs with hh
    · have hnone : cached.find? hash = none := by simpa [OrdMap.contains] using hcontains
      rw [hh, hnone]
      rfl
    · rfl

theorem addCache_files {cached : CollectionCache} {weights : QuorumRecoder} {m : PBFTMessage} {v : ViewType}
    (hindex : m.index = c.index) (hnode : (cfg.getConsensusNodeByIndex m.generatedFrom).isSome = true)
    (hview : v ≤ m.view) (hfrom : FromView v cached) :
    ∃ m', Ballot.filed (addCache cfg c cached weights m).1 m.hash m.generatedFrom = some m' ∧ v ≤ m'.view := by
  unfold addCache
  rw [if_neg (not_not.2 hindex)]
  split_ifs with hnew
  · obtain ⟨m', hm'⟩ := Option.isSome_iff_exists.1 hnew
    obtain ⟨t, ht, hm⟩ := Option.bind_eq_some_iff.1 hm'
    exact ⟨m', hm', hfrom _ t ht _ m' hm⟩
  · obtain ⟨node, hnode⟩ := Option.isSome_iff_exists.1 hnode
    rw [hnode]
    refine ⟨m, ?_, hview⟩
    change Ballot.filed (Ballot.file cached m.hash m.generatedFrom m) m.hash m.generatedFrom = some m
    rw [Ballot.filed_file, if_pos ⟨rfl, rfl⟩]

variable {v : ViewType} {hash : HashType} {j : IndexType}

/-- Only a purge for a later view drops a filed vote. -/
theorem CacheStep.holds (h : CacheStep E cfg now l i c c') (hl : l ≠ .reset) (hc : c.Holds k v hash j) :
    c'.Holds k v hash j := by
  obtain ⟨m, hm, hview⟩ := hc
  refine ⟨m, ?_, hview⟩
  cases h.tallyStep k with
  | same heq => rwa [heq]
  | touch t heq =>
    rw [heq, filed_touch]
    exact hm
  | file m₁ heq =>
    rw [heq]
    exact filed_addCache m₁ hm
  | purge w hreset heq => exact absurd hreset hl

theorem PBFTCache.Holds.purge {w : ViewType} (hc : c.Holds k v hash j) (hw : w ≤ v) :
    (c.resetCache cfg w).1.Holds k v hash j := by
  obtain ⟨m, hm, hview⟩ := hc
  refine ⟨m, ?_, hview⟩
  rw [voteTally_resetCache, filed_resetCacheAfterViewChange, hm, Option.filter_some, if_pos]
  exact decide_eq_true (hw.trans hview)

/-- Voters with the weight of a quorum are a quorum, whoever else has voted. -/
theorem collectEnoughQuorum_of_holds {Q : Finset IndexType} (hpos : 0 < cfg.minRequiredQuorum)
    (hmax : Config.totalWeight cfg.consensusNodeList < 2 ^ 64)
    (hc : Counts cfg (fun _ => True) (c.voteTally k).1 (c.voteTally k).2) (hQ : cfg.Quorate Q)
    (hholds : ∀ j ∈ Q, c.Holds k v hash j) : collectEnoughQuorum cfg hash (c.voteTally k).2 = true := by
  have hsub : Q ⊆ storedSenders (c.voteTally k).1 hash := by
    intro j hj
    obtain ⟨m, hm, -⟩ := hholds j hj
    rw [hc.storedSenders_eq, List.mem_toFinset]
    refine Ballot.mem_senders_iff_filed.2 ?_
    rw [hm]
    rfl
  have hweight : cfg.minRequiredQuorum.toNat ≤ (keptWeight (c.voteTally k) hash).toNat := by
    rw [(hc.exact hmax).senders hash]
    exact hQ.mono hsub
  unfold collectEnoughQuorum
  unfold keptWeight at hweight
  split
  · rename_i hnone
    rw [hnone] at hweight
    have hzero : cfg.minRequiredQuorum.toNat ≤ 0 := hweight
    have hposNat : 0 < cfg.minRequiredQuorum.toNat := UInt64.lt_iff_toNat_lt.1 hpos
    omega
  · rename_i w hw
    rw [hw] at hweight
    exact decide_eq_true (UInt64.le_iff_toNat_le.2 hweight)

end

/-- While the node is in view `v` and has not erased the cache of index `i`, the vote of node `j` is filed there. -/
def Node.Holds (k : VoteKind) (v : ViewType) (i : Int) (hash : HashType) (j : IndexType) (s : Node) : Prop :=
  s.cfg.view ≤ v → Action.eraseCache i ∉ s.log → ∃ c, s.caches.find? i = some c ∧ c.Holds k v hash j

namespace Node.Holds

variable {E : Env} {k : VoteKind} {v : ViewType} {i : Int} {hash : HashType} {j : IndexType} {s t : Node}

theorem prim {l : Label} (h : Prim E l s t) (hview : l ≠ .view) (hreset : l ≠ .reset) (hs : s.Holds k v i hash j) :
    t.Holds k v i hash j := by
  intro hv herase
  rw [h.cfgStep.view_eq hview] at hv
  obtain ⟨c, hc, hheld⟩ := hs hv fun hmem => herase (h.log_mono _ hmem)
  obtain ⟨c', hc'⟩ : ∃ c', t.caches.find? i = some c' := by
    by_cases hl : l = .erase
    · subst hl
      cases h with
      | erase _ keep hgone hg hn =>
        refine ⟨c, ?_⟩
        change (s.caches.filter keep).find? i = some c
        rw [OrdMap.find?_filter, hc, Option.filter_some, if_pos]
        by_contra hkeep
        exact herase (List.mem_append_right _ (hgone i c hc (by simpa using hkeep)))
    · exact h.stays hl hc
  have hstep := h.cacheStep hc'
  rw [hc, Option.getD_some] at hstep
  exact ⟨c', hc', hstep.holds hreset hheld⟩

/-- The vote is kept by every step, and by a change of view up to view `v`. -/
theorem turning {A : Label → Prop} (hA : Moving A) (hview : ¬A .view) (hreset : ¬A .reset) :
    Turning E A (Node.Holds k v i hash j) where
  moving := hA
  prim hl h _ hs := hs.prim h (fun heq => hview (heq ▸ hl)) (fun heq => hreset (heq ▸ hl))
  raise {s w} hw hs := by
    intro hv herase
    have heq : (s.setCfg (s.cfg.resetNewViewState w)).cfg.view = w := by
      change (s.cfg.resetNewViewState w).view = w
      unfold Config.resetNewViewState
      rw [if_neg (not_lt.2 hw)]
    rw [heq] at hv
    exact hs (hw.trans hv) herase
  purge {s w} n hw hs := by
    intro hv herase
    rw [resetCacheAt_cfg] at hv
    obtain ⟨c, hc, hheld⟩ := hs hv fun hmem => herase ((Prim.reset (E := E) s w n).log_mono _ hmem)
    rw [resetCacheAt_find]
    split_ifs with hi
    · rw [← hi, hc]
      exact ⟨_, rfl, hheld.purge (hw.trans hv)⟩
    · exact ⟨c, hc, hheld⟩

end Node.Holds

end BcosPbft
