import BcosPbft.Lib.Quorum
import BcosPbft.Spec.Toy

/-! The quorum of a node list. Whatever lists are set one after another, the three quorum fields are those
of the list in force, and for weights that add up to less than `2 ^ 64` they are the exact numbers. -/

namespace BcosPbft

namespace Config

def weightAt (c : Config) (i : ℕ) : ℕ := Quorum.weightAt (fun n => n.weight.toNat) c.consensusNodeList i

def weightOf (c : Config) (i : IndexType) : UInt64 := (c.getConsensusNodeByIndex i).elim 0 (·.weight)

def totalWeight (l : List ConsensusNode) : ℕ := (l.map (fun n => n.weight.toNat)).sum

theorem toNat_weightOf (c : Config) (i : IndexType) : (c.weightOf i).toNat = c.weightAt i.toNat := by
  unfold weightOf weightAt Quorum.weightAt getConsensusNodeByIndex
  cases c.consensusNodeList[i.toNat]? <;> rfl

/-- The quorum fields are the ones `updateQuorum` computes for the list. -/
structure Coherent (c : Config) : Prop where
  total : c.totalQuorum = Quorum.wrapSum (c.consensusNodeList.map (·.weight))
  faulty : c.maxFaultyQuorum = (c.totalQuorum - 1) / 3
  required : c.minRequiredQuorum = c.totalQuorum - c.maxFaultyQuorum

theorem updateQuorum_coherent (c : Config) : c.updateQuorum.Coherent :=
  { total := Quorum.foldl_add_eq_wrapSum _ _, faulty := rfl, required := rfl }

theorem compareConsensusNode_eq {l r : List ConsensusNode} (h : compareConsensusNode l r = true) : l = r := by
  induction l generalizing r with
  | nil =>
    cases r with
    | nil => rfl
    | cons b r => simp [compareConsensusNode] at h
  | cons a l ih =>
    cases r with
    | nil => simp [compareConsensusNode] at h
    | cons b r =>
      simp only [compareConsensusNode, List.length_cons, Nat.add_right_cancel_iff, List.zip_cons_cons,
        List.all_cons, Bool.and_eq_true, decide_eq_true_eq] at h
      obtain ⟨hlen, ⟨hid, hweight⟩, hrest⟩ := h
      have hab : a = b := by
        cases a
        cases b
        simp_all
      have hcmp : compareConsensusNode l r = true := by
        unfold compareConsensusNode
        rw [hrest, Bool.and_true]
        exact decide_eq_true hlen
      rw [hab, ih hcmp]

/-- What a call of `setConsensusNodeList` leaves: the sorted list is in force, and unless it was already,
its quorum was computed. -/
theorem setConsensusNodeList_spec {E : Env} {c : Config} {l : List ConsensusNode} (hne : l ≠ []) :
    ∃ c', c.setConsensusNodeList E l = some c' ∧ c'.consensusNodeList = sortNodes E l ∧
      (c'.Coherent ∨ c' = { c with nodeUpdated := false }) := by
  have hlen : l.length ≠ 0 := by simpa using hne
  unfold setConsensusNodeList
  rw [if_neg hlen]
  by_cases hcmp : compareConsensusNode (sortNodes E l) c.consensusNodeList = true
  · rw [if_pos hcmp]
    exact ⟨_, rfl, (compareConsensusNode_eq hcmp).symm, Or.inr rfl⟩
  · rw [if_neg hcmp]
    exact ⟨_, rfl, rfl, Or.inl (updateQuorum_coherent _)⟩

/-- The configurations a run goes through: no list yet, a list set by `setConsensusNodeList`, and any change
of the other fields. -/
inductive Configured (E : Env) : Config → Prop
  | init {c : Config} (h : c.consensusNodeList = []) : Configured E c
  | setList {c c' : Config} (l : List ConsensusNode) (hc : Configured E c)
      (h : c.setConsensusNodeList E l = some c') : Configured E c'
  | other {c c' : Config} (hc : Configured E c) (hlist : c'.consensusNodeList = c.consensusNodeList)
      (htotal : c'.totalQuorum = c.totalQuorum) (hfaulty : c'.maxFaultyQuorum = c.maxFaultyQuorum)
      (hmin : c'.minRequiredQuorum = c.minRequiredQuorum) : Configured E c'

theorem Coherent.congr {c c' : Config} (hc : c.Coherent) (hlist : c'.consensusNodeList = c.consensusNodeList)
    (htotal : c'.totalQuorum = c.totalQuorum) (hfaulty : c'.maxFaultyQuorum = c.maxFaultyQuorum)
    (hmin : c'.minRequiredQuorum = c.minRequiredQuorum) : c'.Coherent where
  total := by rw [htotal, hlist, hc.total]
  faulty := by rw [hfaulty, htotal, hc.faulty]
  required := by rw [hmin, htotal, hfaulty, hc.required]

theorem Configured.coherent {E : Env} {c : Config} (h : Configured E c) :
    c.consensusNodeList = [] ∨ c.Coherent := by
  induction h with
  | init h => exact Or.inl h
  | @setList c c' l hc hset ih =>
    have hne : l ≠ [] := by
      rintro rfl
      simp [setConsensusNodeList] at hset
    obtain ⟨d, hd, hlist, hco⟩ := setConsensusNodeList_spec (E := E) (c := c) hne
    obtain rfl : d = c' := Option.some.inj (hd.symm.trans hset)
    rcases hco with hco | rfl
    · exact Or.inr hco
    · rcases ih with hnil | hco
      · exact Or.inl hnil
      · exact Or.inr (hco.congr rfl rfl rfl rfl)
  | other hc hlist htotal hfaulty hmin ih =>
    rcases ih with hnil | hco
    · exact Or.inl (hlist.trans hnil)
    · exact Or.inr (hco.congr hlist htotal hfaulty hmin)

theorem totalWeight_sortNodes (E : Env) (l : List ConsensusNode) : totalWeight (sortNodes E l) = totalWeight l :=
  ((List.perm_insertionSort _ l).map _).sum_eq

/-- The exact quorum numbers of a list whose weights add up to less than `2 ^ 64`. -/
structure Exact (c : Config) (T : ℕ) : Prop where
  total : c.totalQuorum.toNat = T
  pred : (c.totalQuorum - 1).toNat = T - 1
  faulty : c.maxFaultyQuorum.toNat = Quorum.maxFaulty T
  required : c.minRequiredQuorum.toNat = Quorum.minRequired T

theorem Coherent.exact {c : Config} (hc : c.Coherent) (hpos : 1 ≤ totalWeight c.consensusNodeList)
    (hmax : totalWeight c.consensusNodeList < 2 ^ 64) : c.Exact (totalWeight c.consensusNodeList) := by
  set T := totalWeight c.consensusNodeList with hT
  have hsum : ((c.consensusNodeList.map (·.weight)).map UInt64.toNat).sum = T := by
    rw [hT, totalWeight, List.map_map]
    rfl
  have htotal : c.totalQuorum.toNat = T := by
    rw [hc.total, Quorum.toNat_wrapSum_of_lt (by omega), hsum]
  have hone : (1 : UInt64) ≤ c.totalQuorum := by
    rw [UInt64.le_iff_toNat_le, htotal]
    exact hpos
  have hpred : (c.totalQuorum - 1).toNat = T - 1 := by
    rw [UInt64.toNat_sub_of_le _ _ hone, htotal]
    rfl
  have hfaulty : c.maxFaultyQuorum.toNat = Quorum.maxFaulty T := by
    rw [hc.faulty, UInt64.toNat_div, hpred]
    rfl
  refine ⟨htotal, hpred, hfaulty, ?_⟩
  have hle : c.maxFaultyQuorum ≤ c.totalQuorum := by
    rw [UInt64.le_iff_toNat_le, htotal, hfaulty]
    have := Quorum.three_mul_maxFaulty_lt hpos
    omega
  rw [hc.required, UInt64.toNat_sub_of_le _ _ hle, htotal, hfaulty]
  rfl

theorem sum_weightAt_le (c : Config) (S : Finset ℕ) : ∑ i ∈ S, c.weightAt i ≤ totalWeight c.consensusNodeList :=
  Quorum.sum_weightAt_le _ _ S

theorem toNat_tally_le (c : Config) {is : List IndexType} (hnd : is.Nodup) :
    (is.foldl (fun t i => t + c.weightOf i) 0).toNat ≤ ∑ i ∈ is.toFinset, c.weightAt i.toNat := by
  rw [Quorum.foldl_add_eq_wrapSum, List.sum_toFinset _ hnd]
  refine (Quorum.toNat_wrapSum_le _).trans (le_of_eq ?_)
  rw [List.map_map]
  exact congrArg List.sum (List.map_congr_left (fun i _ => c.toNat_weightOf i))

/-- A tally over distinct sender indices does not wrap. -/
theorem toNat_tally {c : Config} (hmax : totalWeight c.consensusNodeList < 2 ^ 64) {is : List IndexType}
    (hnd : is.Nodup) :
    (is.foldl (fun t i => t + c.weightOf i) 0).toNat = (is.map (fun i => c.weightAt i.toNat)).sum := by
  have hmap : (is.map c.weightOf).map UInt64.toNat = is.map (fun i => c.weightAt i.toNat) := by
    rw [List.map_map]
    exact List.map_congr_left (fun i _ => c.toNat_weightOf i)
  have hle : (is.map (fun i => c.weightAt i.toNat)).sum ≤ totalWeight c.consensusNodeList := by
    rw [← List.sum_toFinset _ hnd]
    exact Quorum.sum_weightAt_le_of_injective _ (fun _ _ => UInt64.toNat_inj.1) _ _
  rw [Quorum.foldl_add_eq_wrapSum, Quorum.toNat_wrapSum_of_lt (by rw [hmap]; omega), hmap]

/-- After any list of weights `1 … 2 ^ 64 - 1` in total is set, in whatever configuration: two quorums share
more than `maxFaultyQuorum`, the nodes outside a tolerable set are a quorum, and neither the quorum fields
nor a tally over distinct indices wraps. -/
theorem setConsensusNodeList_quorum {E : Env} {c : Config} {l : List ConsensusNode} (hc : Configured E c)
    (hpos : 1 ≤ totalWeight l) (hmax : totalWeight l ≤ 2 ^ 64 - 1) :
    ∃ c', c.setConsensusNodeList E l = some c' ∧
      (∀ S S' : Finset ℕ, c'.minRequiredQuorum.toNat ≤ ∑ i ∈ S, c'.weightAt i →
        c'.minRequiredQuorum.toNat ≤ ∑ i ∈ S', c'.weightAt i →
        c'.maxFaultyQuorum.toNat < ∑ i ∈ S ∩ S', c'.weightAt i) ∧
      (∀ B ⊆ Finset.range c'.consensusNodeList.length, ∑ i ∈ B, c'.weightAt i ≤ c'.maxFaultyQuorum.toNat →
        c'.minRequiredQuorum.toNat ≤ ∑ i ∈ Finset.range c'.consensusNodeList.length \ B, c'.weightAt i) ∧
      c'.totalQuorum.toNat = totalWeight l ∧
      (c'.totalQuorum - 1).toNat = c'.totalQuorum.toNat - 1 ∧
      c'.minRequiredQuorum.toNat = c'.totalQuorum.toNat - c'.maxFaultyQuorum.toNat ∧
      (∀ is : List IndexType, is.Nodup →
        (is.foldl (fun t i => t + c'.weightOf i) 0).toNat = (is.map (fun i => c'.weightAt i.toNat)).sum) := by
  have hne : l ≠ [] := by
    rintro rfl
    simp [totalWeight] at hpos
  obtain ⟨c', hset, hlist, -⟩ := setConsensusNodeList_spec (E := E) (c := c) hne
  have hT : totalWeight c'.consensusNodeList = totalWeight l := by rw [hlist, totalWeight_sortNodes]
  have hco : c'.Coherent := by
    rcases (Configured.setList l hc hset).coherent with hnil | hco
    · rw [hnil] at hT
      simp only [totalWeight, List.map_nil, List.sum_nil] at hT hpos
      omega
    · exact hco
  have hex := hco.exact (by omega) (by omega)
  rw [hT] at hex
  refine ⟨c', hset, ?_, ?_, hex.total, ?_, ?_, fun is hnd => toNat_tally (by omega) hnd⟩
  · intro S S' hS hS'
    rw [hex.required] at hS hS'
    rw [hex.faulty]
    exact Quorum.maxFaulty_lt_inter _ hpos (hT ▸ c'.sum_weightAt_le _) hS hS'
  · intro B hB hfaulty
    rw [hex.faulty] at hfaulty
    rw [hex.required]
    refine Quorum.minRequired_le_sdiff _ ?_ hB hfaulty
    rw [← hT]
    exact Quorum.sum_range_weightAt _ _
  · rw [hex.pred, hex.total]
  · rw [hex.required, hex.total, hex.faulty]
    rfl

/-- Two lists in a row, with unequal weights. -/
theorem setConsensusNodeList_quorum_three :
    ∃ c c' : Config, ({ keyPair := Toy.keyPair 0 } : Config).setConsensusNodeList Toy.env (Toy.nodes [7]) = some c ∧
      c.setConsensusNodeList Toy.env (Toy.nodes [2, 9, 4]) = some c' ∧ c'.totalQuorum.toNat = 15 ∧
      (∀ S S' : Finset ℕ, c'.minRequiredQuorum.toNat ≤ ∑ i ∈ S, c'.weightAt i →
        c'.minRequiredQuorum.toNat ≤ ∑ i ∈ S', c'.weightAt i →
        c'.maxFaultyQuorum.toNat < ∑ i ∈ S ∩ S', c'.weightAt i) := by
  obtain ⟨c, hset, -⟩ := setConsensusNodeList_quorum (E := Toy.env) (c := { keyPair := Toy.keyPair 0 })
    (l := Toy.nodes [7]) (.init rfl) (by decide) (by decide)
  obtain ⟨c', hset', hinter, -, htotal, -⟩ := setConsensusNodeList_quorum (l := Toy.nodes [2, 9, 4])
    (.setList _ (.init rfl) hset) (by decide) (by decide)
  exact ⟨c, c', hset, hset', htotal, hinter⟩

end Config

end BcosPbft
