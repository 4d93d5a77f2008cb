import BcosPbft.Lib.Ballot
import BcosPbft.Proofs.NodeList
import BcosPbft.Proofs.ViewOrder
import Mathlib.Algebra.BigOperators.Group.Finset.Piecewise

/-! The fast view change. The weights that trigger it are added up over all views above the one aimed at, so a node counts
once for each view it has sent a view change for, and alone it can outweigh what the faulty nodes are allowed to have. -/

namespace BcosPbft

abbrev ViewChangeTable := OrdMap ViewType (OrdMap IndexType ViewChangeMsg)

def Stored (table : ViewChangeTable) (v : ViewType) (i : IndexType) : Prop := (Ballot.filed table v i).isSome = true

namespace Node

/-- What a fast view change to view `w` needs: nodes of more than the faulty weight have asked for a higher view, the least
view that was asked for is `w`, and it becomes the view aimed at. -/
structure Witnessed (E : Env) (s : Node) (w : ViewType) : Prop where
  senders : ∃ S : Finset IndexType, (∀ i ∈ S, i.toNat < s.cfg.consensusNodeList.length ∧
    ∃ v, s.cfg.toView < v ∧ Stored s.viewChangeCache v i) ∧ s.cfg.maxFaultyQuorum.toNat + 1 ≤ ∑ i ∈ S, s.cfg.weightAt i.toNat
  least : IsLeast {v | s.cfg.toView < v ∧ ∃ i, Stored s.viewChangeCache v i} w
  reached : ∀ t, s.tryToTriggerFastViewChange.1.triggerTimeout E = some t → t.cfg.toView = w

end Node

/-- No consensus node has asked for two of the higher views. -/
def AsksOnce (table : ViewChangeTable) (toView : ViewType) (n : ℕ) : Prop :=
  ∀ i v v', i.toNat < n → toView < v → toView < v' → Stored table v i → Stored table v' i → v = v'

def AllAsk (table : ViewChangeTable) (toView : ViewType) (n : ℕ) : Prop :=
  ∀ k < n, ∃ i v, i.toNat = k ∧ toView < v ∧ Stored table v i

/-- Once a consensus node asks for one, no emptied list of a higher view comes before the first that was asked for. -/
def FirstAsked (table : ViewChangeTable) (toView : ViewType) (n : ℕ) : Prop :=
  ∀ v l, table.find? v = some l → toView < v → l.entries = [] →
    ∀ v' i, toView < v' → i.toNat < n → Stored table v' i → ∃ v'' i', toView < v'' ∧ v'' < v ∧ Stored table v'' i'

def isAbove (toView v : ViewType) : Bool := !(v ≤ toView)

theorem isAbove_iff {toView v : ViewType} : isAbove toView v = true ↔ toView < v := by simp [isAbove]

def firstAbove (table : ViewChangeTable) (toView : ViewType) : Option ViewType :=
  ((table.entries.filter fun e => isAbove toView e.1).head?).map (·.1)

theorem firstAbove_spec {table : ViewChangeTable} {toView v : ViewType} (h : firstAbove table toView = some v) :
    toView < v ∧ (∃ l, table.find? v = some l) ∧ ∀ v' l', table.find? v' = some l' → toView < v' → v ≤ v' := by
  obtain ⟨e, he, rfl⟩ := Option.map_eq_some_iff.1 h
  obtain ⟨rest, hrest⟩ : ∃ rest, table.entries.filter (fun e => isAbove toView e.1) = e :: rest :=
    List.head?_eq_some_iff.1 he
  have hmem : e ∈ table.entries.filter fun e => isAbove toView e.1 := by
    rw [hrest]
    exact List.mem_cons_self
  obtain ⟨hlisted, habove⟩ := List.mem_filter.1 hmem
  refine ⟨isAbove_iff.1 habove, ⟨e.2, OrdMap.find?_eq_some.2 hlisted⟩, fun v' l' hl' hv' => ?_⟩
  have hsorted := table.sorted.filter fun e => isAbove toView e.1
  have hmem' : (v', l') ∈ e :: rest := by
    rw [← hrest]
    exact List.mem_filter.2 ⟨OrdMap.find?_eq_some.1 hl', isAbove_iff.2 hv'⟩
  rw [hrest, List.pairwise_cons] at hsorted
  rcases List.mem_cons.1 hmem' with heq | hlater
  · exact le_of_eq (congrArg Prod.fst heq).symm
  · exact le_of_lt (hsorted.1 _ hlater)

theorem exists_firstAbove {table : ViewChangeTable} {toView v : ViewType} {i : IndexType} (hv : toView < v)
    (hi : Stored table v i) : ∃ w, firstAbove table toView = some w := by
  obtain ⟨m, hm⟩ := Option.isSome_iff_exists.1 hi
  obtain ⟨l, hl, -⟩ := Option.bind_eq_some_iff.1 hm
  have hmem : (v, l) ∈ table.entries.filter fun e => isAbove toView e.1 :=
    List.mem_filter.2 ⟨OrdMap.find?_eq_some.1 hl, isAbove_iff.2 hv⟩
  cases hhead : (table.entries.filter fun e => isAbove toView e.1).head? with
  | none =>
    rw [List.head?_eq_none_iff] at hhead
    rw [hhead] at hmem
    cases hmem
  | some e => exact ⟨e.1, by rw [firstAbove, hhead, Option.map_some]⟩

namespace Node

variable {E : Env} {s t : Node}

/-- The senders of the higher views, each as often as it has asked. -/
def askers (s : Node) : List IndexType := Ballot.sendersOf (isAbove s.cfg.toView) s.viewChangeCache

theorem mem_askers {i : IndexType} : i ∈ s.askers ↔ ∃ v, s.cfg.toView < v ∧ Stored s.viewChangeCache v i := by
  simp only [askers, Ballot.mem_sendersOf, isAbove_iff, Stored]

def greaterViewWeight (s : Node) : UInt64 := Quorum.wrapSum (s.askers.map s.cfg.weightOf)

theorem tryToTriggerFastViewChange_view (s : Node) : s.tryToTriggerFastViewChange.2 =
    if s.greaterViewWeight < s.cfg.maxFaultyQuorum + 1 then 0 else (firstAbove s.viewChangeCache s.cfg.toView).getD 0 := by
  unfold tryToTriggerFastViewChange
  dsimp only
  generalize hweight : List.foldl _ _ _ = weight
  have heq : weight = s.greaterViewWeight := by
    rw [← hweight]
    unfold greaterViewWeight askers Ballot.sendersOf
    rw [← Quorum.foldl_add_eq_wrapSum, List.foldl_flatMap]
    refine List.foldl_ext _ _ _ (fun w e _ => List.foldl_ext _ _ _ (fun w i _ => ?_))
    unfold Config.weightOf
    cases s.cfg.getConsensusNodeByIndex i <;> simp
  rw [heq]
  split_ifs with hlow hreached hpos
  · rfl
  · change (firstAbove s.viewChangeCache s.cfg.toView).getD 0 ≤ s.cfg.toView at hreached
    cases hfirst : firstAbove s.viewChangeCache s.cfg.toView with
    | none => rfl
    | some v =>
      rw [hfirst, Option.getD_some] at hreached
      exact absurd (firstAbove_spec hfirst).1 (not_lt.2 hreached)
  · rfl
  · rfl

theorem triggered {w : ViewType} (hpos : 0 < s.tryToTriggerFastViewChange.2) (hw : s.tryToTriggerFastViewChange.2 = w) :
    s.cfg.maxFaultyQuorum + 1 ≤ s.greaterViewWeight ∧ firstAbove s.viewChangeCache s.cfg.toView = some w ∧
      s.tryToTriggerFastViewChange.1.cfg.toView = w - 1 := by
  subst hw
  have hview := s.tryToTriggerFastViewChange_view
  refine ⟨?_, ?_, ?_⟩
  · by_contra hlow
    rw [hview, if_pos (not_le.1 hlow)] at hpos
    exact absurd hpos (lt_irrefl _)
  · split_ifs at hview with hlow
    · rw [hview] at hpos
      exact absurd hpos (lt_irrefl _)
    · rw [hview] at hpos ⊢
      cases hfirst : firstAbove s.viewChangeCache s.cfg.toView with
      | none =>
        rw [hfirst] at hpos
        exact absurd hpos (lt_irrefl _)
      | some v => rfl
  · rcases s.tryToTriggerFastViewChange_cases with ⟨-, hzero⟩ | ⟨v, -, heq⟩
    · rw [hzero] at hpos
      exact absurd hpos (lt_irrefl _)
    · rw [heq]
      rfl

theorem triggered_reached {w : ViewType} (hpos : 0 < s.tryToTriggerFastViewChange.2) (hw : s.tryToTriggerFastViewChange.2 = w)
    (h : s.tryToTriggerFastViewChange.1.triggerTimeout E = some t) : t.cfg.toView = w := by
  rw [triggerTimeout_aim h, (triggered hpos hw).2.2]
  exact UInt64.sub_add_cancel w 1

end Node

namespace Config

variable {c : Config}

theorem Coherent.toNat_faulty_succ (hc : c.Coherent) : (c.maxFaultyQuorum + 1).toNat = c.maxFaultyQuorum.toNat + 1 := by
  have hfaulty : c.maxFaultyQuorum.toNat = (c.totalQuorum - 1).toNat / 3 := by
    rw [hc.faulty, UInt64.toNat_div]
    rfl
  have hlt := (c.totalQuorum - 1).toNat_lt
  rw [UInt64.toNat_add]
  change (_ + 1) % 2 ^ 64 = _
  omega

theorem Coherent.faulty_lt_total (hc : c.Coherent) (hpos : 1 ≤ totalWeight c.consensusNodeList) :
    c.maxFaultyQuorum.toNat + 1 ≤ totalWeight c.consensusNodeList := by
  have htotal : c.totalQuorum.toNat = totalWeight c.consensusNodeList % 2 ^ 64 := by
    rw [hc.total, Quorum.toNat_wrapSum, List.map_map]
    rfl
  have hfaulty : c.maxFaultyQuorum.toNat = (c.totalQuorum - 1).toNat / 3 := by
    rw [hc.faulty, UInt64.toNat_div]
    rfl
  have hpred : (c.totalQuorum - 1).toNat = (2 ^ 64 - 1 + c.totalQuorum.toNat) % 2 ^ 64 := UInt64.toNat_sub _ _
  omega

theorem weightAt_eq_zero {k : ℕ} (h : c.consensusNodeList.length ≤ k) : c.weightAt k = 0 := by
  unfold weightAt Quorum.weightAt
  rw [List.getElem?_eq_none h]
  rfl

theorem toNat_wrapSum_weightOf (is : List IndexType) :
    (Quorum.wrapSum (is.map c.weightOf)).toNat = (is.map fun i => c.weightAt i.toNat).sum % 2 ^ 64 := by
  rw [Quorum.toNat_wrapSum, List.map_map]
  exact congrArg (fun l => List.sum l % 2 ^ 64) (List.map_congr_left fun i _ => c.toNat_weightOf i)

end Config

namespace Node

variable {E : Env} {s t : Node}

theorem greaterViewWeight_le (hone : AsksOnce s.viewChangeCache s.cfg.toView s.cfg.consensusNodeList.length) :
    s.greaterViewWeight.toNat ≤
      ∑ i ∈ (s.askers.filter fun i => i.toNat < s.cfg.consensusNodeList.length).toFinset, s.cfg.weightAt i.toNat := by
  have hnodup : (s.askers.filter fun i => i.toNat < s.cfg.consensusNodeList.length).Nodup := by
    refine (Ballot.nodup_filter_sendersOf _).2 fun i hi v v' hv hv' => ?_
    exact hone i v v' (by simpa using hi) (isAbove_iff.1 hv) (isAbove_iff.1 hv')
  rw [List.sum_toFinset _ hnodup, greaterViewWeight, Config.toNat_wrapSum_weightOf]
  refine (Nat.mod_le _ _).trans (le_of_eq ?_)
  induction s.askers with
  | nil => rfl
  | cons i l ih =>
    rw [List.map_cons, List.sum_cons, ih, List.filter_cons]
    split_ifs with hlen
    · rw [List.map_cons, List.sum_cons]
    · rw [Config.weightAt_eq_zero (by simpa using hlen), Nat.zero_add]

theorem sum_askers (hall : AllAsk s.viewChangeCache s.cfg.toView s.cfg.consensusNodeList.length) :
    Config.totalWeight s.cfg.consensusNodeList ≤
      ∑ i ∈ (s.askers.filter fun i => i.toNat < s.cfg.consensusNodeList.length).toFinset, s.cfg.weightAt i.toNat := by
  classical
  have hinj : Set.InjOn UInt64.toNat
      (((s.askers.filter fun i => i.toNat < s.cfg.consensusNodeList.length).toFinset : Finset IndexType) : Set IndexType) :=
    fun i _ j _ h => UInt64.toNat_inj.1 h
  rw [← Finset.sum_image (f := s.cfg.weightAt) hinj, Config.totalWeight,
    ← Quorum.sum_range_weightAt (fun n => n.weight.toNat) s.cfg.consensusNodeList]
  refine Finset.sum_le_sum_of_subset fun k hk => ?_
  rw [Finset.mem_range] at hk
  obtain ⟨i, v, rfl, hv, hi⟩ := hall k hk
  refine Finset.mem_image.2 ⟨i, List.mem_toFinset.2 (List.mem_filter.2 ⟨mem_askers.2 ⟨v, hv, hi⟩, ?_⟩), rfl⟩
  simpa using hk

theorem exists_asker (hpos : 0 < s.greaterViewWeight) :
    ∃ i ∈ s.askers, i.toNat < s.cfg.consensusNodeList.length := by
  by_contra hnone
  have hzero : s.greaterViewWeight = 0 := by
    refine Quorum.wrapSum_eq_zero fun a ha => ?_
    obtain ⟨i, hi, rfl⟩ := List.mem_map.1 ha
    apply UInt64.toNat_inj.1
    rw [Config.toNat_weightOf, Config.weightAt_eq_zero (not_lt.1 fun hlen => hnone ⟨i, hi, hlen⟩)]
    rfl
  rw [hzero] at hpos
  exact absurd hpos (lt_irrefl _)

/-- The condition makes every announced view a witnessed one. -/
theorem witnessed_of_asksOnce (hc : s.cfg.Coherent)
    (hfirst : FirstAsked s.viewChangeCache s.cfg.toView s.cfg.consensusNodeList.length)
    (hask : AsksOnce s.viewChangeCache s.cfg.toView s.cfg.consensusNodeList.length ∨
      AllAsk s.viewChangeCache s.cfg.toView s.cfg.consensusNodeList.length)
    (hpos : 0 < s.tryToTriggerFastViewChange.2) : Witnessed E s s.tryToTriggerFastViewChange.2 := by
  obtain ⟨hweight, hw, -⟩ := triggered hpos rfl
  have hfaulty : s.cfg.maxFaultyQuorum.toNat + 1 ≤ s.greaterViewWeight.toNat := by
    rw [← hc.toNat_faulty_succ]
    exact UInt64.le_iff_toNat_le.1 hweight
  obtain ⟨i, hi, hlen⟩ := exists_asker (s := s) (UInt64.lt_iff_toNat_lt.2 (Nat.lt_of_lt_of_le (Nat.succ_pos _) hfaulty))
  obtain ⟨v, hv, hstored⟩ := mem_askers.1 hi
  obtain ⟨habove, ⟨l, hl⟩, hleast⟩ := firstAbove_spec hw
  constructor
  · refine ⟨(s.askers.filter fun i => i.toNat < s.cfg.consensusNodeList.length).toFinset, fun j hj => ?_, ?_⟩
    · obtain ⟨hj, hjlen⟩ := List.mem_filter.1 (List.mem_toFinset.1 hj)
      exact ⟨by simpa using hjlen, mem_askers.1 hj⟩
    · rcases hask with hone | hall
      · exact hfaulty.trans (greaterViewWeight_le hone)
      · refine (hc.faulty_lt_total ?_).trans (sum_askers hall)
        by_contra hzero
        have hweights : ∀ k, s.cfg.weightAt k = 0 := by
          intro k
          have hle := s.cfg.sum_weightAt_le {k}
          rw [Finset.sum_singleton] at hle
          omega
        rw [greaterViewWeight, Config.toNat_wrapSum_weightOf] at hfaulty
        simp [hweights] at hfaulty
  · refine ⟨⟨habove, ?_⟩, ?_⟩
    · by_contra hnone
      have hempty : l.entries = [] := by
        by_contra hne
        obtain ⟨e, he⟩ := List.exists_mem_of_ne_nil _ hne
        refine hnone ⟨e.1, ?_⟩
        rw [Stored, Ballot.filed, hl, Option.bind_some, OrdMap.find?_eq_some.2 he]
        rfl
      obtain ⟨v'', j, hv'', hbelow, hj⟩ := hfirst _ l hl habove hempty v i hv hlen hstored
      obtain ⟨m, hm⟩ := Option.isSome_iff_exists.1 hj
      obtain ⟨l', hl', -⟩ := Option.bind_eq_some_iff.1 hm
      exact absurd (hleast v'' l' hl' hv'') (not_le.2 hbelow)
    · rintro v' ⟨hv', j, hj⟩
      obtain ⟨m, hm⟩ := Option.isSome_iff_exists.1 hj
      obtain ⟨l', hl', -⟩ := Option.bind_eq_some_iff.1 hm
      exact hleast v' l' hl' hv'
  · exact fun t ht => triggered_reached hpos rfl ht

theorem announces {v : ViewType} {i : IndexType} (hv : s.cfg.toView < v) (hi : Stored s.viewChangeCache v i)
    (hweight : s.cfg.maxFaultyQuorum + 1 ≤ s.greaterViewWeight) :
    0 < s.tryToTriggerFastViewChange.2 ∧ firstAbove s.viewChangeCache s.cfg.toView = some s.tryToTriggerFastViewChange.2 := by
  obtain ⟨w, hw⟩ := exists_firstAbove hv hi
  have hview := s.tryToTriggerFastViewChange_view
  rw [if_neg (not_lt.2 hweight), hw, Option.getD_some] at hview
  rw [hview]
  refine ⟨UInt64.lt_iff_toNat_lt.2 ?_, hw⟩
  exact Nat.lt_of_le_of_lt (Nat.zero_le _) (UInt64.lt_iff_toNat_lt.1 (firstAbove_spec hw).1)

end Node

/-- Of `n` nodes the one at `i` weighs 1 and the one at `j` weighs `b`. -/
def lopsided (n i j b : ℕ) : List ConsensusNode :=
  (List.range n).map fun k => { nodeID := [], weight := .ofNat ((if k = i then 1 else 0) + (if k = j then b else 0)) }

def misled (table : ViewChangeTable) (toView : ViewType) (list : List ConsensusNode) : Node :=
  { cfg := ({ keyPair := Toy.keyPair 0, consensusNodeList := list, toView := toView } : Config).updateQuorum
    viewChangeCache := table }

section Misled

variable {table : ViewChangeTable} {toView : ViewType} {n b j : ℕ} {a : IndexType}

theorem weightAt_lopsided (hb : b ≤ 3) (k : ℕ) :
    Quorum.weightAt (fun n : ConsensusNode => n.weight.toNat) (lopsided n a.toNat j b) k =
      if k < n then (if k = a.toNat then 1 else 0) + (if k = j then b else 0) else 0 := by
  unfold Quorum.weightAt lopsided
  rw [List.getElem?_map]
  by_cases hk : k < n
  · rw [List.getElem?_range hk, if_pos hk]
    refine UInt64.toNat_ofNat_of_lt' ?_
    change _ < 2 ^ 64
    split_ifs <;> omega
  · rw [if_neg hk, List.getElem?_eq_none (by simpa using hk)]
    rfl

theorem totalWeight_lopsided (hb : b ≤ 3) (ha : a.toNat < n) (hj : j < n) :
    Config.totalWeight (lopsided n a.toNat j b) = 1 + b := by
  have hsum := Quorum.sum_range_weightAt (fun n : ConsensusNode => n.weight.toNat) (lopsided n a.toNat j b)
  have hlen : (lopsided n a.toNat j b).length = n := by simp [lopsided]
  rw [hlen] at hsum
  rw [Config.totalWeight, ← hsum]
  have hterm : ∀ k ∈ Finset.range n, Quorum.weightAt (fun n : ConsensusNode => n.weight.toNat) (lopsided n a.toNat j b) k =
      (if k = a.toNat then 1 else 0) + (if k = j then b else 0) := by
    intro k hk
    exact (weightAt_lopsided hb k).trans (if_pos (Finset.mem_range.1 hk))
  rw [Finset.sum_congr rfl hterm, Finset.sum_add_distrib, Finset.sum_ite_eq', Finset.sum_ite_eq',
    if_pos (Finset.mem_range.2 ha), if_pos (Finset.mem_range.2 hj)]

theorem misled_faulty (hb : b ≤ 3) (ha : a.toNat < n) (hj : j < n) :
    (misled table toView (lopsided n a.toNat j b)).cfg.maxFaultyQuorum.toNat = b / 3 := by
  have htotal := totalWeight_lopsided hb ha hj
  have hco : (misled table toView (lopsided n a.toNat j b)).cfg.Coherent := Config.updateQuorum_coherent _
  have hlist : (misled table toView (lopsided n a.toNat j b)).cfg.consensusNodeList = lopsided n a.toNat j b := rfl
  have hexact := hco.exact (by rw [hlist, htotal]; omega) (by rw [hlist, htotal]; omega)
  rw [hexact.faulty, hlist, htotal, Quorum.maxFaulty, Nat.add_sub_cancel_left]

theorem sum_indicator (l : List IndexType) : (l.map fun i => if i.toNat = a.toNat then 1 else 0).sum = l.count a := by
  induction l with
  | nil => rfl
  | cons i l ih =>
    rw [List.map_cons, List.sum_cons, ih, List.count_cons]
    by_cases hi : i = a
    · simp [hi, Nat.add_comm]
    · have hne : i.toNat ≠ a.toNat := fun h => hi (UInt64.toNat_inj.1 h)
      simp [hi, hne]

theorem length_above_lt (table : ViewChangeTable) (toView : ViewType) :
    (table.entries.filter fun e => isAbove toView e.1).length < 2 ^ 64 := by
  have hnodup : ((table.entries.filter fun e => isAbove toView e.1).map fun e => e.1.toNat).Nodup := by
    have hsorted := table.sorted.filter fun e => isAbove toView e.1
    rw [List.Nodup, List.pairwise_map]
    exact hsorted.imp fun hlt heq => absurd (UInt64.toNat_inj.1 heq) (ne_of_lt hlt)
  have hsub : ((table.entries.filter fun e => isAbove toView e.1).map fun e => e.1.toNat).toFinset ⊆
      (Finset.range (2 ^ 64)).erase toView.toNat := by
    intro v hv
    obtain ⟨e, he, rfl⟩ := List.mem_map.1 (List.mem_toFinset.1 hv)
    have habove := UInt64.lt_iff_toNat_lt.1 (isAbove_iff.1 (List.mem_filter.1 he).2)
    exact Finset.mem_erase.2 ⟨by omega, Finset.mem_range.2 e.1.toNat_lt⟩
  have hcard := Finset.card_le_card hsub
  rw [List.toFinset_card_of_nodup hnodup, List.length_map, Finset.card_erase_of_mem (Finset.mem_range.2 toView.toNat_lt),
    Finset.card_range] at hcard
  omega

theorem misled_weight (hb : b ≤ 3) (ha : a.toNat < n)
    (hj : b = 0 ∨ ∀ i ∈ (misled table toView (lopsided n a.toNat j b)).askers, i.toNat ≠ j) :
    (misled table toView (lopsided n a.toNat j b)).greaterViewWeight.toNat =
      (misled table toView (lopsided n a.toNat j b)).askers.count a := by
  have hbound : (misled table toView (lopsided n a.toNat j b)).askers.count a < 2 ^ 64 :=
    (Ballot.count_sendersOf_le a).trans_lt (length_above_lt table toView)
  rw [Node.greaterViewWeight, Config.toNat_wrapSum_weightOf, ← Nat.mod_eq_of_lt hbound, ← sum_indicator]
  congr 2
  apply List.map_congr_left
  intro i hi
  refine (weightAt_lopsided hb _).trans ?_
  have hzero : (if i.toNat = j then b else 0) = 0 := by
    rcases hj with rfl | hj
    · exact ite_self _
    · exact if_neg (hj i hi)
  rw [hzero]
  by_cases hia : i.toNat = a.toNat
  · rw [if_pos (hia ▸ ha), if_pos hia]
  · simp [hia]

/-- A node that has asked once is enough to announce the first view, so that one must have been asked for. -/
theorem firstAsked_of_witnessed {E : Env} (h : ∀ s : Node, s.viewChangeCache = table → s.cfg.toView = toView →
      s.cfg.consensusNodeList.length = n → s.cfg.Coherent → 0 < s.tryToTriggerFastViewChange.2 →
        s.Witnessed E s.tryToTriggerFastViewChange.2) : FirstAsked table toView n := by
  intro v l hl hv hempty v' a hv' ha hstored
  by_contra hnone
  set s := misled table toView (lopsided n a.toNat a.toNat 0) with hs
  have hco : s.cfg.Coherent := Config.updateQuorum_coherent _
  have hasked : 1 ≤ s.askers.count a := List.count_pos_iff.2 (Node.mem_askers.2 ⟨v', hv', hstored⟩)
  have hweight : s.cfg.maxFaultyQuorum + 1 ≤ s.greaterViewWeight := by
    rw [UInt64.le_iff_toNat_le, hco.toNat_faulty_succ, misled_faulty (Nat.zero_le 3) ha ha,
      misled_weight (Nat.zero_le 3) ha (Or.inl rfl)]
    exact hasked
  obtain ⟨hpos, hfirst⟩ := Node.announces (s := s) hv' hstored hweight
  have hlen : s.cfg.consensusNodeList.length = n := by simp [hs, misled, lopsided, Config.updateQuorum]
  obtain ⟨⟨habove, i, hi⟩, -⟩ := (h s rfl rfl hlen hco hpos).least
  have hle := (firstAbove_spec hfirst).2.2 v l hl hv
  refine hnone ⟨_, i, habove, lt_of_le_of_ne hle fun heq => ?_, hi⟩
  rw [heq] at hi
  obtain ⟨m, hm⟩ := Option.isSome_iff_exists.1 hi
  change Ballot.filed table v i = some m at hm
  rw [Ballot.filed, hl, Option.bind_some, OrdMap.find?_eq_some, hempty] at hm
  cases hm

/-- A node that has asked twice outweighs the faulty ones, if a heavy node has not asked. -/
theorem asksOnce_of_witnessed {E : Env} (h : ∀ s : Node, s.viewChangeCache = table → s.cfg.toView = toView →
      s.cfg.consensusNodeList.length = n → s.cfg.Coherent → 0 < s.tryToTriggerFastViewChange.2 →
        s.Witnessed E s.tryToTriggerFastViewChange.2) : AsksOnce table toView n ∨ AllAsk table toView n := by
  rw [or_iff_not_imp_right]
  intro hall a v v' ha hv hv' hstored hstored'
  by_contra hne
  obtain ⟨j, hj, hsilent⟩ : ∃ j, j < n ∧ ∀ i v, toView < v → Stored table v i → i.toNat ≠ j := by
    unfold AllAsk at hall
    push Not at hall
    obtain ⟨j, hj, hsilent⟩ := hall
    exact ⟨j, hj, fun i v hv hi heq => hsilent i v heq hv hi⟩
  set s := misled table toView (lopsided n a.toNat j 3) with hs
  have hco : s.cfg.Coherent := Config.updateQuorum_coherent _
  have hfaulty : s.cfg.maxFaultyQuorum.toNat = 1 := misled_faulty le_rfl ha hj
  have hother : ∀ i ∈ s.askers, i.toNat ≠ j := by
    intro i hi
    obtain ⟨w, hw, hiw⟩ := Node.mem_askers.1 hi
    exact hsilent i w hw hiw
  have htwice : 2 ≤ s.askers.count a :=
    Ballot.two_le_count_sendersOf (isAbove_iff.2 hv) (isAbove_iff.2 hv') hne hstored hstored'
  have hweight : s.cfg.maxFaultyQuorum + 1 ≤ s.greaterViewWeight := by
    rw [UInt64.le_iff_toNat_le, hco.toNat_faulty_succ, hfaulty, misled_weight le_rfl ha (Or.inr hother)]
    exact htwice
  have hlen : s.cfg.consensusNodeList.length = n := by simp [hs, misled, lopsided, Config.updateQuorum]
  obtain ⟨S, hS, hsum⟩ := (h s rfl rfl hlen hco (Node.announces (s := s) hv hstored hweight).1).senders
  rw [hfaulty] at hsum
  have hterm : ∀ i ∈ S, s.cfg.weightAt i.toNat = if i = a then 1 else 0 := by
    intro i hi
    obtain ⟨-, w, hw, hiw⟩ := hS i hi
    refine (weightAt_lopsided le_rfl i.toNat).trans ?_
    rw [if_neg (hsilent i w hw hiw), Nat.add_zero]
    by_cases hia : i = a
    · rw [hia, if_pos ha, if_pos rfl, if_pos rfl]
    · rw [if_neg fun heq => hia (UInt64.toNat_inj.1 heq), if_neg hia, ite_self]
  rw [Finset.sum_congr rfl hterm, Finset.sum_ite_eq'] at hsum
  split_ifs at hsum <;> omega

end Misled

/-- The fast view change has its witness for every list of `n` nodes exactly when none of them has asked for two of the
higher views, or all of them have asked, and the first of these views that is listed was asked for. -/
theorem fastViewChange_witnessed_iff (E : Env) (table : ViewChangeTable) (toView : ViewType) (n : ℕ) :
    (∀ s : Node, s.viewChangeCache = table → s.cfg.toView = toView → s.cfg.consensusNodeList.length = n → s.cfg.Coherent →
      0 < s.tryToTriggerFastViewChange.2 → s.Witnessed E s.tryToTriggerFastViewChange.2) ↔
    FirstAsked table toView n ∧ (AsksOnce table toView n ∨ AllAsk table toView n) := by
  constructor
  · exact fun h => ⟨firstAsked_of_witnessed h, asksOnce_of_witnessed h⟩
  · rintro ⟨hfirst, hask⟩ s rfl rfl rfl hc hpos
    exact Node.witnessed_of_asksOnce hc hfirst hask hpos

def toyAsk (view : ViewType) : ViewChangeMsg := { base := { view := view, generatedFrom := 1 } }

def toyAsked : Node := ((Toy.node 0 [1, 1, 1, 1]).addViewChangeReq (toyAsk 2)).addViewChangeReq (toyAsk 3)

/-- Node 1 alone makes node 0 go for view 2. -/
theorem toyAsked_unwitnessed : toyAsked.cfg.Coherent ∧ toyAsked.tryToTriggerFastViewChange.2 = 2 ∧
    ¬toyAsked.Witnessed Toy.env 2 := by
  refine ⟨⟨by decide, by decide, by decide⟩, by decide, fun h => ?_⟩
  obtain ⟨S, hS, hsum⟩ := h.senders
  have haskers : toyAsked.askers = [1, 1] := by decide
  have hsub : S ⊆ {1} := by
    intro i hi
    have hmem := Node.mem_askers.2 (hS i hi).2
    rw [haskers] at hmem
    simpa using hmem
  have hle := Finset.sum_le_sum_of_subset (f := fun i : IndexType => toyAsked.cfg.weightAt i.toNat) hsub
  rw [Finset.sum_singleton] at hle
  have hone : toyAsked.cfg.weightAt (1 : IndexType).toNat = 1 := by decide
  have hfaulty : toyAsked.cfg.maxFaultyQuorum.toNat = 1 := by decide
  omega

end BcosPbft
