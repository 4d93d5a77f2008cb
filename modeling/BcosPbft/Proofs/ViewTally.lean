import BcosPbft.Lib.Ballot
import BcosPbft.Proofs.NewView

/-! The tallies of view changes and of recover responses. Whatever the order of the operations on them, the weight of a view
is that of the distinct senders whose messages are stored for it, so a new view or a recovered view has a quorum of its own. -/

namespace BcosPbft

/-- The four tables of view changes and recover responses. -/
structure ViewTallies (s : Node) : Prop where
  changeViews : ∀ v, s.viewChangeWeight.contains v = s.viewChangeCache.contains v
  changeFiled : ∀ v l i m, s.viewChangeCache.find? v = some l → l.find? i = some m → m.view = v ∧ m.generatedFrom = i
  changeWeight : ∀ v w, s.viewChangeWeight.find? v = some w → w = Ballot.weight s.cfg.weightOf s.viewChangeCache v
  recoverFiled : ∀ v l i m, s.recoverReqCache.find? v = some l → l.find? i = some m → m.view = v ∧ m.generatedFrom = i
  recoverViews : ∀ v, s.recoverCacheWeight.contains v = true ↔
    ∃ i ∈ Ballot.senders s.recoverReqCache v, (s.cfg.getConsensusNodeByIndex i).isSome = true
  recoverWeight : ∀ v w, s.recoverCacheWeight.find? v = some w → w = Ballot.weight s.cfg.weightOf s.recoverReqCache v

structure SameTallies (s t : Node) : Prop where
  list : t.cfg.consensusNodeList = s.cfg.consensusNodeList
  changeCache : t.viewChangeCache = s.viewChangeCache
  changeWeight : t.viewChangeWeight = s.viewChangeWeight
  recoverCache : t.recoverReqCache = s.recoverReqCache
  recoverWeight : t.recoverCacheWeight = s.recoverCacheWeight

theorem Config.weightOf_congr {c c' : Config} (h : c'.consensusNodeList = c.consensusNodeList) : c'.weightOf = c.weightOf := by
  funext i
  unfold weightOf getConsensusNodeByIndex
  rw [h]

theorem Config.getConsensusNodeByIndex_congr {c c' : Config} (h : c'.consensusNodeList = c.consensusNodeList) :
    c'.getConsensusNodeByIndex = c.getConsensusNodeByIndex := by
  funext i
  unfold getConsensusNodeByIndex
  rw [h]

theorem Config.weightOf_of_some {c : Config} {i : IndexType} {n : ConsensusNode} (h : c.getConsensusNodeByIndex i = some n) :
    c.weightOf i = n.weight := by
  unfold weightOf
  rw [h]
  rfl

theorem Config.weightOf_of_none {c : Config} {i : IndexType} (h : c.getConsensusNodeByIndex i = none) : c.weightOf i = 0 := by
  unfold weightOf
  rw [h]
  rfl

namespace ViewTallies

variable {s t : Node}

theorem same (h : SameTallies s t) (hs : ViewTallies s) : ViewTallies t := by
  constructor
  · rw [h.changeWeight, h.changeCache]
    exact hs.changeViews
  · rw [h.changeCache]
    exact hs.changeFiled
  · rw [h.changeWeight, h.changeCache, Config.weightOf_congr h.list]
    exact hs.changeWeight
  · rw [h.recoverCache]
    exact hs.recoverFiled
  · rw [h.recoverWeight, h.recoverCache, Config.getConsensusNodeByIndex_congr h.list]
    exact hs.recoverViews
  · rw [h.recoverWeight, h.recoverCache, Config.weightOf_congr h.list]
    exact hs.recoverWeight

theorem addViewChangeReq (m : ViewChangeMsg) (hs : ViewTallies s) : ViewTallies (s.addViewChangeReq m) := by
  unfold Node.addViewChangeReq
  split
  · exact hs
  rename_i hnew
  split
  · exact hs
  rename_i node hnode
  have hsender : m.generatedFrom ∉ Ballot.senders s.viewChangeCache m.view := fun hmem =>
    hnew (Ballot.isSome_iff_mem_senders.2 hmem)
  have hold : (s.viewChangeWeight.find? m.view).getD 0 = Ballot.weight s.cfg.weightOf s.viewChangeCache m.view := by
    cases hw : s.viewChangeWeight.find? m.view with
    | some w => exact hs.changeWeight m.view w hw
    | none =>
      have hview := hs.changeViews m.view
      rw [OrdMap.contains, hw, OrdMap.contains] at hview
      have hnone : s.viewChangeCache.find? m.view = none := by simpa using hview.symm
      rw [Ballot.weight, Ballot.senders_of_none hnone]
      rfl
  refine ⟨fun v => ?_, fun v l i m' hl hm' => ?_, fun v w hw => ?_, hs.recoverFiled, hs.recoverViews, hs.recoverWeight⟩
  · have hview := hs.changeViews v
    unfold OrdMap.contains at hview ⊢
    rw [OrdMap.find?_insert, OrdMap.find?_insert]
    split_ifs
    · rfl
    · exact hview
  · rcases Ballot.find?_file hl hm' with ⟨rfl, rfl, rfl⟩ | ⟨l₀, hl₀, hm₀⟩
    · exact ⟨rfl, rfl⟩
    · exact hs.changeFiled v l₀ i m' hl₀ hm₀
  · change w = Ballot.weight s.cfg.weightOf (Ballot.file s.viewChangeCache m.view m.generatedFrom m) v
    change (s.viewChangeWeight.insert _ _).find? v = some w at hw
    rw [OrdMap.find?_insert] at hw
    split_ifs at hw with hv
    · subst hv
      rw [← Option.some.inj hw, Ballot.weight_file _ _ hsender, hold, Config.weightOf_of_some hnode]
    · rw [Ballot.weight_file_ne _ hv]
      exact hs.changeWeight v w hw

theorem recalculated {cfg : Config} {l : OrdMap IndexType ViewChangeMsg}
    (hfiled : ∀ i m, l.find? i = some m → m.generatedFrom = i) :
    cfg.viewChangesWeight l = Quorum.wrapSum (l.keys.map cfg.weightOf) := by
  unfold Config.viewChangesWeight
  rw [← Quorum.foldl_add_eq_wrapSum, OrdMap.keys, List.foldl_map]
  refine List.foldl_ext _ _ _ (fun w e he => ?_)
  rw [hfiled e.1 e.2 (OrdMap.find?_eq_some.2 he)]
  cases hnode : cfg.getConsensusNodeByIndex e.1 with
  | none => rw [Config.weightOf_of_none hnode, UInt64.add_zero]
  | some node => rw [Config.weightOf_of_some hnode]

theorem removeInvalidViewChange_tables (view : ViewType) (latest : Int)
    (hviews : ∀ v, s.viewChangeWeight.contains v = s.viewChangeCache.contains v)
    (hfiled : ∀ v l i m, s.viewChangeCache.find? v = some l → l.find? i = some m → m.view = v ∧ m.generatedFrom = i) :
    (∀ v l, (s.removeInvalidViewChange view latest).viewChangeCache.find? v = some l →
      ∀ i m, l.find? i = some m → m.view = v ∧ m.generatedFrom = i) ∧
    ∀ v, (s.removeInvalidViewChange view latest).viewChangeWeight.find? v =
      ((s.removeInvalidViewChange view latest).viewChangeCache.find? v).map
        (fun l => Quorum.wrapSum (l.keys.map s.cfg.weightOf)) := by
  have hcache : ∀ v l, (s.removeInvalidViewChange view latest).viewChangeCache.find? v = some l →
      ∀ i m, l.find? i = some m → m.view = v ∧ m.generatedFrom = i := by
    intro v l hl i m hm
    change ((s.viewChangeCache.filter _).mapVal _).find? v = some l at hl
    rw [OrdMap.find?_mapVal, OrdMap.find?_filter] at hl
    obtain ⟨l₀, hl₀, rfl⟩ := Option.map_eq_some_iff.1 hl
    rw [OrdMap.find?_filter] at hm
    exact hfiled v l₀ i m (Option.filter_eq_some_iff.1 hl₀).1 (Option.filter_eq_some_iff.1 hm).1
  refine ⟨hcache, fun v => ?_⟩
  rw [s.find?_removeInvalidViewChange_weight]
  cases hl : (s.removeInvalidViewChange view latest).viewChangeCache.find? v with
  | some l =>
    rw [Option.elim_some, Option.map_some, recalculated (fun i m hm => (hcache v l hl i m hm).2)]
  | none =>
    rw [Option.elim_none, Option.map_none, OrdMap.find?_filter]
    -- the view was not stored, or is dropped
    change ((s.viewChangeCache.filter _).mapVal _).find? v = none at hl
    rw [OrdMap.find?_mapVal, Option.map_eq_none_iff, OrdMap.find?_filter] at hl
    have hview := hviews v
    unfold OrdMap.contains at hview ⊢
    cases hc : s.viewChangeCache.find? v with
    | none =>
      rw [hc] at hview
      have hnone : s.viewChangeWeight.find? v = none := by simpa using hview
      rw [hnone]
      rfl
    | some l =>
      rw [hc, Option.filter_eq_none_iff] at hl
      have hle : v ≤ view := by simpa using hl l rfl
      simp [hle]

/-- The weights are recomputed, so only the recover responses have to be weighed before. -/
theorem removeInvalidViewChange_of_filed (view : ViewType) (latest : Int)
    (hviews : ∀ v, s.viewChangeWeight.contains v = s.viewChangeCache.contains v)
    (hfiled : ∀ v l i m, s.viewChangeCache.find? v = some l → l.find? i = some m → m.view = v ∧ m.generatedFrom = i)
    (hrecoverFiled : ∀ v l i m, s.recoverReqCache.find? v = some l → l.find? i = some m → m.view = v ∧ m.generatedFrom = i)
    (hrecoverViews : ∀ v, s.recoverCacheWeight.contains v = true ↔
      ∃ i ∈ Ballot.senders s.recoverReqCache v, (s.cfg.getConsensusNodeByIndex i).isSome = true)
    (hrecoverWeight : ∀ v w, s.recoverCacheWeight.find? v = some w → w = Ballot.weight s.cfg.weightOf s.recoverReqCache v) :
    ViewTallies (s.removeInvalidViewChange view latest) := by
  obtain ⟨hcache, hweight⟩ := removeInvalidViewChange_tables view latest hviews hfiled
  refine ⟨fun v => ?_, fun v l i m hl hm => hcache v l hl i m hm, fun v w hw => ?_, hrecoverFiled, hrecoverViews,
    hrecoverWeight⟩
  · rw [OrdMap.contains, hweight, OrdMap.contains, Option.isSome_map]
  · rw [hweight] at hw
    obtain ⟨l, hl, rfl⟩ := Option.map_eq_some_iff.1 hw
    unfold Ballot.weight Ballot.senders
    rw [hl]
    rfl

theorem removeInvalidViewChange (view : ViewType) (latest : Int) (hs : ViewTallies s) :
    ViewTallies (s.removeInvalidViewChange view latest) :=
  removeInvalidViewChange_of_filed view latest hs.changeViews hs.changeFiled hs.recoverFiled hs.recoverViews hs.recoverWeight

theorem removeConsensusedCache (view : ViewType) (number : Int) (hs : ViewTallies s) :
    ViewTallies (s.removeConsensusedCache view number) := by
  unfold Node.removeConsensusedCache
  extract_lets gone u v
  have hu : ViewTallies u := same (s := s) ⟨rfl, rfl, rfl, rfl, rfl⟩ hs
  exact same (s := v) ⟨rfl, rfl, rfl, rfl, rfl⟩ (hu.removeInvalidViewChange view number)

theorem removeInvalidRecoverCache (view : ViewType) (hs : ViewTallies s) : ViewTallies (s.removeInvalidRecoverCache view) := by
  have hsenders : ∀ v, ¬v ≤ view →
      Ballot.senders (s.recoverReqCache.filter (fun v _ => !(v ≤ view))) v = Ballot.senders s.recoverReqCache v := by
    intro v hv
    unfold Ballot.senders
    rw [OrdMap.find?_filter]
    cases s.recoverReqCache.find? v with
    | none => rfl
    | some l => rw [Option.filter_some, if_pos (by simp [hv])]
  have hweight : ∀ v, (s.recoverCacheWeight.filter (fun v _ => !(v ≤ view && s.recoverReqCache.contains v))).find? v =
      if v ≤ view then none else s.recoverCacheWeight.find? v := by
    intro v
    rw [OrdMap.find?_filter]
    split_ifs with hv
    · cases hw : s.recoverCacheWeight.find? v with
      | none => rfl
      | some w =>
        obtain ⟨i, hi, -⟩ := (hs.recoverViews v).1 (OrdMap.contains_iff.2 ⟨w, hw⟩)
        obtain ⟨l, m, hl, -⟩ := Ballot.mem_senders.1 hi
        have hcontains : s.recoverReqCache.contains v = true := OrdMap.contains_iff.2 ⟨l, hl⟩
        simp [hv, hcontains]
    · cases s.recoverCacheWeight.find? v with
      | none => rfl
      | some w => rw [Option.filter_some, if_pos (by simp [hv])]
  refine ⟨hs.changeViews, hs.changeFiled, hs.changeWeight, fun v l i m hl hm => ?_, fun v => ?_, fun v w hw => ?_⟩
  · change (s.recoverReqCache.filter _).find? v = some l at hl
    rw [OrdMap.find?_filter] at hl
    exact hs.recoverFiled v l i m (Option.filter_eq_some_iff.1 hl).1 hm
  · change (OrdMap.find? (s.recoverCacheWeight.filter _) v).isSome = true ↔ _
    rw [hweight]
    split_ifs with hv
    · refine ⟨fun h => Bool.noConfusion h, ?_⟩
      rintro ⟨i, hi, -⟩
      obtain ⟨l, m, hl, -⟩ := Ballot.mem_senders.1 hi
      change (s.recoverReqCache.filter _).find? v = some l at hl
      rw [OrdMap.find?_filter] at hl
      simp [hv] at hl
    · change _ ↔ ∃ i ∈ Ballot.senders (s.recoverReqCache.filter _) v, _
      rw [hsenders v hv]
      exact hs.recoverViews v
  · change (s.recoverCacheWeight.filter _).find? v = some w at hw
    rw [hweight] at hw
    split_ifs at hw with hv
    change w = Quorum.wrapSum ((Ballot.senders (s.recoverReqCache.filter _) v).map _)
    rw [hsenders v hv]
    exact hs.recoverWeight v w hw

theorem resetCacheAfterViewChange (view : ViewType) (latest : Int) (hs : ViewTallies s) :
    ViewTallies (s.resetCacheAfterViewChange view latest) := by
  have hreset : ∀ (l : List Int) (u : Node), SameTallies u (l.foldl (Node.resetCacheAt view) u) := by
    intro l
    induction l with
    | nil => exact fun u => ⟨rfl, rfl, rfl, rfl, rfl⟩
    | cons i l ih =>
      intro u
      have hone : SameTallies u (Node.resetCacheAt view u i) := by
        unfold Node.resetCacheAt
        split <;> exact ⟨rfl, rfl, rfl, rfl, rfl⟩
      have hrest := ih (Node.resetCacheAt view u i)
      exact ⟨hrest.list.trans hone.list, hrest.changeCache.trans hone.changeCache, hrest.changeWeight.trans hone.changeWeight,
        hrest.recoverCache.trans hone.recoverCache, hrest.recoverWeight.trans hone.recoverWeight⟩
  unfold Node.resetCacheAfterViewChange
  extract_lets u v w
  have hv : ViewTallies v := same (s := u) ⟨rfl, rfl, rfl, rfl, rfl⟩ (hs.same (hreset _ s))
  refine removeInvalidRecoverCache view (same (s := w) ⟨rfl, rfl, rfl, rfl, rfl⟩ ?_)
  exact hv.removeInvalidViewChange view latest

theorem addRecoverReqCache (m : PBFTMessage) (hs : ViewTallies s) : ViewTallies (s.addRecoverReqCache m) := by
  unfold Node.addRecoverReqCache
  split
  · exact hs
  rename_i hnew
  have hsender : m.generatedFrom ∉ Ballot.senders s.recoverReqCache m.view := fun hmem =>
    hnew (Ballot.isSome_iff_mem_senders.2 hmem)
  extract_lets ofView u
  have hcache : u.recoverReqCache = Ballot.file s.recoverReqCache m.view m.generatedFrom m := rfl
  have hfiled : ∀ v l i m', u.recoverReqCache.find? v = some l → l.find? i = some m' → m'.view = v ∧ m'.generatedFrom = i := by
    intro v l i m' hl hm'
    rcases Ballot.find?_file hl hm' with ⟨rfl, rfl, rfl⟩ | ⟨l₀, hl₀, hm₀⟩
    · exact ⟨rfl, rfl⟩
    · exact hs.recoverFiled v l₀ i m' hl₀ hm₀
  have hsenders : ∀ {p : IndexType → Prop}, (∃ i ∈ Ballot.senders u.recoverReqCache m.view, p i) ↔
      p m.generatedFrom ∨ ∃ i ∈ Ballot.senders s.recoverReqCache m.view, p i := by
    intro p
    rw [hcache]
    simp only [(Ballot.senders_file_perm m hsender).mem_iff, List.exists_mem_cons_iff]
  split
  · rename_i hnode
    refine ⟨hs.changeViews, hs.changeFiled, hs.changeWeight, hfiled, fun v => ?_, fun v w hw => ?_⟩
    · rw [hs.recoverViews v]
      by_cases hv : v = m.view
      · subst hv
        rw [hsenders, hnode]
        exact ⟨Or.inr, fun h => h.resolve_left Bool.noConfusion⟩
      · rw [hcache, Ballot.senders_file_ne hv]
    · rw [hs.recoverWeight v w hw, hcache]
      by_cases hv : v = m.view
      · subst hv
        rw [Ballot.weight_file _ _ hsender]
        change _ = _ + s.cfg.weightOf m.generatedFrom
        rw [Config.weightOf_of_none hnode, UInt64.add_zero]
      · exact (Ballot.weight_file_ne _ hv _ _).symm
  · rename_i node hnode
    have hold : (s.recoverCacheWeight.find? m.view).getD 0 = Ballot.weight s.cfg.weightOf s.recoverReqCache m.view := by
      cases hw : s.recoverCacheWeight.find? m.view with
      | some w => exact hs.recoverWeight m.view w hw
      | none =>
        refine (Quorum.wrapSum_eq_zero (fun a ha => ?_)).symm
        obtain ⟨i, hi, rfl⟩ := List.mem_map.1 ha
        cases hi' : s.cfg.getConsensusNodeByIndex i with
        | none => exact Config.weightOf_of_none hi'
        | some n =>
          obtain ⟨w, hw'⟩ := OrdMap.contains_iff.1 ((hs.recoverViews m.view).2 ⟨i, hi, by rw [hi']; rfl⟩)
          rw [hw] at hw'
          cases hw'
    refine ⟨hs.changeViews, hs.changeFiled, hs.changeWeight, hfiled, fun v => ?_, fun v w hw => ?_⟩
    · change (OrdMap.find? (s.recoverCacheWeight.insert m.view _) v).isSome = true ↔ _
      rw [OrdMap.find?_insert]
      split_ifs with hv
      · subst hv
        refine ⟨fun _ => hsenders.2 (Or.inl ?_), fun _ => rfl⟩
        rw [hnode]
        rfl
      · rw [hcache, Ballot.senders_file_ne hv]
        exact hs.recoverViews v
    · change (s.recoverCacheWeight.insert m.view _).find? v = some w at hw
      rw [OrdMap.find?_insert] at hw
      split_ifs at hw with hv
      · subst hv
        rw [← Option.some.inj hw, hcache, Ballot.weight_file _ _ hsender]
        change _ = _ + s.cfg.weightOf m.generatedFrom
        rw [Config.weightOf_of_some hnode]
        exact congrArg (· + node.weight) hold
      · rw [hcache, Ballot.weight_file_ne _ hv]
        exact hs.recoverWeight v w hw

theorem checkAndTryToRecover (hs : ViewTallies s) : ViewTallies s.checkAndTryToRecover := by
  unfold Node.checkAndTryToRecover
  extract_lets recovered u v
  split
  · exact hs
  have hu : ViewTallies u := by
    refine same (s := s) ⟨?_, rfl, rfl, rfl, rfl⟩ hs
    change (s.cfg.resetNewViewState recovered).consensusNodeList = s.cfg.consensusNodeList
    unfold Config.resetNewViewState
    split <;> rfl
  have hv : ViewTallies v := hu.resetCacheAfterViewChange recovered u.cfg.committedIndex
  refine ⟨hv.changeViews, hv.changeFiled, hv.changeWeight, fun _ _ _ _ hl => ?_, fun w => ?_, fun _ _ hw => ?_⟩
  · cases hl
  · refine ⟨fun h => Bool.noConfusion h, ?_⟩
    rintro ⟨i, hi, -⟩
    obtain ⟨l, m, hl, -⟩ := Ballot.mem_senders.1 hi
    cases hl
  · cases hw

end ViewTallies

def Supported {M : Type} (cfg : Config) (t : OrdMap ViewType (OrdMap IndexType M)) (v : ViewType) : Prop :=
  (∃ i ∈ Ballot.senders t v, (cfg.getConsensusNodeByIndex i).isSome = true) ∧
    cfg.minRequiredQuorum ≤ Ballot.weight cfg.weightOf t v

def storedWeight {M : Type} (cfg : Config) (t : OrdMap ViewType (OrdMap IndexType M)) (v : ViewType) : ℕ :=
  ((Ballot.senders t v).map (fun i => cfg.weightAt i.toNat)).sum

theorem toNat_weight_le {M : Type} (cfg : Config) (t : OrdMap ViewType (OrdMap IndexType M)) (v : ViewType) :
    (Ballot.weight cfg.weightOf t v).toNat ≤ storedWeight cfg t v := by
  refine (Quorum.toNat_wrapSum_le _).trans (le_of_eq ?_)
  rw [List.map_map]
  exact congrArg List.sum (List.map_congr_left (fun i _ => cfg.toNat_weightOf i))

theorem toNat_weight {M : Type} {cfg : Config} (hmax : Config.totalWeight cfg.consensusNodeList < 2 ^ 64)
    (t : OrdMap ViewType (OrdMap IndexType M)) (v : ViewType) :
    (Ballot.weight cfg.weightOf t v).toNat = storedWeight cfg t v := by
  unfold Ballot.weight storedWeight
  rw [← Quorum.foldl_add_eq_wrapSum]
  exact Config.toNat_tally hmax (Ballot.senders_nodup t v)

/-- The loop over the weights finds the greatest view with a quorum. -/
theorem recoveredView_spec (min : UInt64) (l : List (ViewType × UInt64)) (r₀ : ViewType) :
    (l.foldl (fun r e => if e.2 ≥ min && r < e.1 then e.1 else r) r₀ = r₀ ∨
      ∃ w, (l.foldl (fun r e => if e.2 ≥ min && r < e.1 then e.1 else r) r₀, w) ∈ l ∧ min ≤ w) ∧
    r₀ ≤ l.foldl (fun r e => if e.2 ≥ min && r < e.1 then e.1 else r) r₀ ∧
    ∀ e ∈ l, min ≤ e.2 → e.1 ≤ l.foldl (fun r e => if e.2 ≥ min && r < e.1 then e.1 else r) r₀ := by
  induction l generalizing r₀ with
  | nil => exact ⟨Or.inl rfl, le_refl _, fun e he => absurd he List.not_mem_nil⟩
  | cons e l ih =>
    rw [List.foldl_cons]
    obtain ⟨hfrom, hle, hmax⟩ := ih (if e.2 ≥ min && r₀ < e.1 then e.1 else r₀)
    generalize l.foldl (fun r e => if e.2 ≥ min && r < e.1 then e.1 else r) (if e.2 ≥ min && r₀ < e.1 then e.1 else r₀) = r
      at hfrom hle hmax
    by_cases hnew : min ≤ e.2 ∧ r₀ < e.1
    · rw [if_pos (by simpa using hnew)] at hfrom hle
      refine ⟨Or.inr ?_, hnew.2.le.trans hle, fun e' he' hmin => ?_⟩
      · rcases hfrom with rfl | ⟨w, hmem, hw⟩
        · exact ⟨e.2, List.mem_cons_self, hnew.1⟩
        · exact ⟨w, List.mem_cons_of_mem e hmem, hw⟩
      · rcases List.mem_cons.1 he' with rfl | he'
        · exact hle
        · exact hmax e' he' hmin
    · rw [if_neg (by simpa using hnew)] at hfrom hle
      refine ⟨?_, hle, fun e' he' hmin => ?_⟩
      · rcases hfrom with heq | ⟨w, hmem, hw⟩
        · exact Or.inl heq
        · exact Or.inr ⟨w, List.mem_cons_of_mem e hmem, hw⟩
      · rcases List.mem_cons.1 he' with rfl | he'
        · exact (not_lt.1 fun hlt => hnew ⟨hmin, hlt⟩).trans hle
        · exact hmax e' he' hmin

/-- The recovered view is the greatest one that a quorum of distinct senders has answered. -/
structure Recovers (s : Node) (v : ViewType) : Prop where
  cfg : s.checkAndTryToRecover.cfg = s.cfg.resetNewViewState v
  supported : Supported s.cfg s.recoverReqCache v
  quorum : s.cfg.minRequiredQuorum.toNat ≤ storedWeight s.cfg s.recoverReqCache v
  greatest : ∀ v', Supported s.cfg s.recoverReqCache v' → v' ≤ v
  /-- The weights of a list that fits in 64 bits are not wrapped. -/
  exact : Config.totalWeight s.cfg.consensusNodeList < 2 ^ 64 → ∀ v',
    (∃ i ∈ Ballot.senders s.recoverReqCache v', (s.cfg.getConsensusNodeByIndex i).isSome = true) →
      s.cfg.minRequiredQuorum.toNat ≤ storedWeight s.cfg s.recoverReqCache v' → v' ≤ v

namespace ViewTallies

variable {s t : Node}

theorem supported_iff (hs : ViewTallies s) {v : ViewType} : Supported s.cfg s.recoverReqCache v ↔
    ∃ w, s.recoverCacheWeight.find? v = some w ∧ s.cfg.minRequiredQuorum ≤ w := by
  unfold Supported
  rw [← hs.recoverViews v, OrdMap.contains_iff]
  constructor
  · rintro ⟨⟨w, hw⟩, hmin⟩
    rw [← hs.recoverWeight v w hw] at hmin
    exact ⟨w, hw, hmin⟩
  · rintro ⟨w, hw, hmin⟩
    rw [hs.recoverWeight v w hw] at hmin
    exact ⟨⟨w, hw⟩, hmin⟩

theorem recovers (hs : ViewTallies s) : s.checkAndTryToRecover = s ∨ ∃ v, Recovers s v := by
  have hspec := recoveredView_spec s.cfg.minRequiredQuorum s.recoverCacheWeight.entries 0
  unfold Node.checkAndTryToRecover
  generalize hr : s.recoverCacheWeight.entries.foldl
    (fun r e => if e.2 ≥ s.cfg.minRequiredQuorum && r < e.1 then e.1 else r) 0 = r at hspec
  obtain ⟨hfrom, -, hmax⟩ := hspec
  dsimp only
  split_ifs with hzero
  · exact Or.inl rfl
  · obtain ⟨w, hmem, hmin⟩ := hfrom.resolve_left hzero
    have hsupported := hs.supported_iff.2 ⟨w, OrdMap.find?_eq_some.2 hmem, hmin⟩
    have hgreatest : ∀ v', Supported s.cfg s.recoverReqCache v' → v' ≤ r := by
      intro v' hv'
      obtain ⟨w', hw', hmin'⟩ := hs.supported_iff.1 hv'
      exact hmax (v', w') (OrdMap.find?_eq_some.1 hw') hmin'
    refine Or.inr ⟨r, ?_, hsupported, ?_, hgreatest, fun hfits v' hsender hsum => hgreatest v' ⟨hsender, ?_⟩⟩
    · unfold Node.checkAndTryToRecover
      rw [hr]
      dsimp only
      rw [if_neg hzero]
      exact Node.resetCacheAt_fold_cfg _ _ _
    · exact (UInt64.le_iff_toNat_le.1 hsupported.2).trans (toNat_weight_le _ _ _)
    · rw [UInt64.le_iff_toNat_le, toNat_weight hfits]
      exact hsum

theorem newView_filed {E : Env} {m : NewViewMsg}
    (hfiled : ∀ v l i m, s.viewChangeCache.find? v = some l → l.find? i = some m → m.view = v ∧ m.generatedFrom = i)
    (h : s.checkAndTryIntoNewView E = some (t, some m)) : (∀ c ∈ m.viewChangeMsgList, c.view = m.view) ∧
      m.viewChangeMsgList.map (·.generatedFrom) = Ballot.senders s.viewChangeCache m.view := by
  obtain ⟨w, list, hw, hmin, -, rfl, -⟩ := s.checkAndTryIntoNewView_some h
  have hview : (s.ownNewView (E := E) ((s.viewChangeCache.find? s.cfg.toView).getD ∅) list).view = s.cfg.toView := rfl
  have hlist : (s.ownNewView (E := E) ((s.viewChangeCache.find? s.cfg.toView).getD ∅) list).viewChangeMsgList =
      ((s.viewChangeCache.find? s.cfg.toView).getD ∅).values := rfl
  have hfiled : ∀ e ∈ ((s.viewChangeCache.find? s.cfg.toView).getD ∅).entries,
      e.2.view = s.cfg.toView ∧ e.2.generatedFrom = e.1 := by
    intro e he
    cases hl : s.viewChangeCache.find? s.cfg.toView with
    | none =>
      rw [hl] at he
      cases he
    | some l =>
      rw [hl, Option.getD_some] at he
      exact hfiled _ l e.1 e.2 hl (OrdMap.find?_eq_some.2 he)
  rw [hlist, hview]
  refine ⟨fun c hc => ?_, ?_⟩
  · obtain ⟨e, he, rfl⟩ := List.mem_map.1 hc
    exact (hfiled e he).1
  · unfold OrdMap.values Ballot.senders OrdMap.keys
    rw [List.map_map]
    exact List.map_congr_left fun e he => (hfiled e he).2

/-- They are those of a quorum of distinct senders. -/
theorem newView (hs : ViewTallies s) {E : Env} {m : NewViewMsg} (h : s.checkAndTryIntoNewView E = some (t, some m)) :
    (∀ c ∈ m.viewChangeMsgList, c.view = m.view) ∧
    m.viewChangeMsgList.map (·.generatedFrom) = Ballot.senders s.viewChangeCache m.view ∧
    s.cfg.minRequiredQuorum.toNat ≤ storedWeight s.cfg s.viewChangeCache m.view := by
  obtain ⟨hviews, hsenders⟩ := newView_filed hs.changeFiled h
  obtain ⟨w, list, hw, hmin, -, rfl, -⟩ := s.checkAndTryIntoNewView_some h
  refine ⟨hviews, hsenders, ?_⟩
  rw [hs.changeWeight _ w hw] at hmin
  exact (UInt64.le_iff_toNat_le.1 hmin).trans (toNat_weight_le _ _ _)

end ViewTallies

inductive TallyOp
  | addViewChangeReq (m : ViewChangeMsg)
  | removeInvalidViewChange (view : ViewType) (latestCommitted : Int)
  | removeConsensusedCache (view : ViewType) (number : Int)
  | resetCacheAfterViewChange (view : ViewType) (latestCommitted : Int)
  | addRecoverReqCache (m : PBFTMessage)
  | checkAndTryToRecover

def Node.tally (s : Node) : TallyOp → Node
  | .addViewChangeReq m => s.addViewChangeReq m
  | .removeInvalidViewChange view latest => s.removeInvalidViewChange view latest
  | .removeConsensusedCache view number => s.removeConsensusedCache view number
  | .resetCacheAfterViewChange view latest => s.resetCacheAfterViewChange view latest
  | .addRecoverReqCache m => s.addRecoverReqCache m
  | .checkAndTryToRecover => s.checkAndTryToRecover

/-- Operations in any order, and between them whatever leaves the four tables and the node list alone. -/
inductive TallyRun (s₀ : Node) : Node → Prop
  | refl : TallyRun s₀ s₀
  | tally {s : Node} (o : TallyOp) (h : TallyRun s₀ s) : TallyRun s₀ (s.tally o)
  | other {s t : Node} (h : TallyRun s₀ s) (hsame : SameTallies s t) : TallyRun s₀ t

structure Node.Untallied (s : Node) : Prop where
  changeCache : s.viewChangeCache = ∅
  changeWeight : s.viewChangeWeight = ∅
  recoverCache : s.recoverReqCache = ∅
  recoverWeight : s.recoverCacheWeight = ∅

theorem Node.Untallied.viewTallies {s : Node} (h : s.Untallied) : ViewTallies s := by
  constructor
  · simp [h.changeCache, h.changeWeight, OrdMap.contains]
  · simp [h.changeCache]
  · simp [h.changeWeight]
  · simp [h.recoverCache]
  · simp [h.recoverCache, h.recoverWeight, OrdMap.contains, Ballot.mem_senders]
  · simp [h.recoverWeight]

theorem TallyRun.viewTallies {s₀ s : Node} (hrun : TallyRun s₀ s) (h₀ : s₀.Untallied) : ViewTallies s := by
  induction hrun with
  | refl => exact h₀.viewTallies
  | tally o _ ih =>
    cases o with
    | addViewChangeReq m => exact ih.addViewChangeReq m
    | removeInvalidViewChange view latest => exact ih.removeInvalidViewChange view latest
    | removeConsensusedCache view number => exact ih.removeConsensusedCache view number
    | resetCacheAfterViewChange view latest => exact ih.resetCacheAfterViewChange view latest
    | addRecoverReqCache m => exact ih.addRecoverReqCache m
    | checkAndTryToRecover => exact ih.checkAndTryToRecover
  | other _ hsame ih => exact ih.same hsame

/-- After any sequence of operations on the tables the weights are those of the stored senders, a new view has a quorum of
view changes for its own view, and the recovered view is the greatest with a quorum of responses. -/
theorem viewTallies_of_run {s₀ s : Node} (h₀ : s₀.Untallied) (hrun : TallyRun s₀ s) : ViewTallies s ∧
    (∀ E t m, s.checkAndTryIntoNewView E = some (t, some m) →
      (∀ c ∈ m.viewChangeMsgList, c.view = m.view) ∧
      m.viewChangeMsgList.map (·.generatedFrom) = Ballot.senders s.viewChangeCache m.view ∧
      (Ballot.senders s.viewChangeCache m.view).Nodup ∧
      s.cfg.minRequiredQuorum.toNat ≤ storedWeight s.cfg s.viewChangeCache m.view) ∧
    (s.checkAndTryToRecover = s ∨ ∃ v, Recovers s v) := by
  have hs := hrun.viewTallies h₀
  refine ⟨hs, fun E t m h => ?_, hs.recovers⟩
  obtain ⟨hviews, hsenders, hquorum⟩ := hs.newView h
  exact ⟨hviews, hsenders, Ballot.senders_nodup _ _, hquorum⟩

def toyOps : List TallyOp :=
  let response := fun (sender : UInt8) (view : ViewType) =>
    ({ packetType := .RecoverResponse, base := { view := view, generatedFrom := sender.toNat.toUInt64 } } : PBFTMessage)
  [.addViewChangeReq (toyViewChange 1 1), .addViewChangeReq (toyViewChange 2 1), .addViewChangeReq (toyViewChange 1 1),
    .addViewChangeReq (toyViewChange 0 1), .addRecoverReqCache (response 1 5), .addRecoverReqCache (response 2 5),
    .addRecoverReqCache (response 3 9), .addRecoverReqCache (response 3 5)]

theorem TallyRun.foldl {s₀ s : Node} (h : TallyRun s₀ s) (ops : List TallyOp) : TallyRun s₀ (ops.foldl Node.tally s) := by
  induction ops generalizing s with
  | nil => exact h
  | cons o ops ih => exact ih (h.tally o)

theorem toyOps_tallies : ∃ s, TallyRun (Toy.node 0 [1, 1, 1, 1]) s ∧ s.viewChangeWeight.find? 1 = some 3 ∧
    s.checkAndTryToRecover.cfg.view = 5 ∧ ViewTallies s := by
  have h₀ : (Toy.node 0 [1, 1, 1, 1]).Untallied :=
    ⟨by decide +kernel, by decide +kernel, by decide +kernel, by decide +kernel⟩
  have hrun : TallyRun (Toy.node 0 [1, 1, 1, 1]) (toyOps.foldl Node.tally (Toy.node 0 [1, 1, 1, 1])) :=
    TallyRun.refl.foldl toyOps
  exact ⟨_, hrun, by decide +kernel, by decide +kernel, (viewTallies_of_run h₀ hrun).1⟩

end BcosPbft
