import BcosPbft.Lib.Trail
import BcosPbft.Lib.RunningMax
import BcosPbft.Proofs.NewView

/-! The pre-prepare list of a new view that the node makes itself. It covers the indices between two numbers the node
keeps for each view, and these are the greatest indices that the stored view changes report as long as the tables and
the view changes are dropped together. -/

namespace BcosPbft

/-- The list has one entry for each index above every committed and up to some prepared one, in order, and an entry of a
prepared index carries the proposal of one of its certificates. -/
structure NewViewMsg.Complete (m : NewViewMsg) : Prop where
  sorted : (m.prePrepareList.map (·.index)).Pairwise (· < ·)
  covers : ∀ i, i ∈ m.prePrepareList.map (·.index) ↔
    (∀ vc ∈ m.viewChangeMsgList, vc.committedProposal.index < i) ∧ ∃ p ∈ m.prepared, i ≤ p.index
  prepared : ∀ e ∈ m.prePrepareList, (∃ p ∈ m.prepared, p.index = e.index) →
    ∃ p ∈ m.prepared, p.index = e.index ∧ p.consensusProposal = e.consensusProposal

structure Represents (lo : Int) (seen : List PBFTMessage) (table : OrdMap Int PBFTMessage) : Prop where
  sound : ∀ i m, table.find? i = some m → lo ≤ i ∧ ∃ q ∈ seen, q.index = i ∧ q.consensusProposal = m.consensusProposal
  complete : ∀ q ∈ seen, lo ≤ q.index → ∃ m, table.find? q.index = some m

namespace Represents

variable {lo : Int} {seen : List PBFTMessage} {table : OrdMap Int PBFTMessage}

theorem empty (lo : Int) : Represents lo [] ∅ := ⟨fun i m h => by simp at h, fun q h => by simp at h⟩

theorem insert (h : Represents lo seen table) {q m : PBFTMessage} (hq : lo ≤ q.index)
    (hm : q.consensusProposal = m.consensusProposal) : Represents lo (seen ++ [q]) (table.insert q.index m) := by
  refine ⟨fun i m' hm' => ?_, fun q' hq' hlo => ?_⟩
  · rw [OrdMap.find?_insert] at hm'
    split_ifs at hm' with hi
    · subst hi
      obtain rfl := Option.some.inj hm'
      exact ⟨hq, q, by simp, rfl, hm⟩
    · obtain ⟨hlo, q', hq', heq⟩ := h.sound i m' hm'
      exact ⟨hlo, q', List.mem_append_left _ hq', heq⟩
  · rw [OrdMap.find?_insert]
    split_ifs with hi
    · exact ⟨m, rfl⟩
    · rcases List.mem_append.1 hq' with hq' | hq'
      · exact h.complete q' hq' hlo
      · rw [List.mem_singleton.1 hq'] at hi
        exact absurd rfl hi

theorem keep (h : Represents lo seen table) {q : PBFTMessage}
    (hq : lo ≤ q.index → ∃ m, table.find? q.index = some m) : Represents lo (seen ++ [q]) table := by
  refine ⟨fun i m hm => ?_, fun q' hq' hlo => ?_⟩
  · obtain ⟨hlo, q', hq', heq⟩ := h.sound i m hm
    exact ⟨hlo, q', List.mem_append_left _ hq', heq⟩
  · rcases List.mem_append.1 hq' with hq' | hq'
    · exact h.complete q' hq' hlo
    · rw [List.mem_singleton.1 hq'] at hlo ⊢
      exact hq hlo

theorem selectPrepared (h : Represents lo seen table) (generatedFrom : IndexType) (q : PBFTMessage) :
    Represents lo (seen ++ [q]) (Node.selectPrepared lo generatedFrom table q) := by
  unfold Node.selectPrepared
  split
  · rename_i hlt
    exact h.keep (fun hlo => by omega)
  · rename_i hge
    split
    · rename_i old hold
      split
      · exact h.insert (by omega) rfl
      · exact h.keep (fun _ => ⟨old, hold⟩)
    · exact h.insert (by omega) rfl

theorem foldl (h : Represents lo seen table) (generatedFrom : IndexType) (l : List PBFTMessage) :
    Represents lo (seen ++ l) (l.foldl (Node.selectPrepared lo generatedFrom) table) := by
  induction l generalizing seen table with
  | nil => simpa using h
  | cons q l ih =>
    have hq := ih (h.selectPrepared generatedFrom q)
    rwa [List.append_assoc] at hq

theorem viewChanges (h : Represents lo seen table) (l : List ViewChangeMsg) :
    Represents lo (seen ++ l.flatMap (·.preparedProposals))
      (l.foldl (fun t m => m.preparedProposals.foldl (Node.selectPrepared lo m.generatedFrom) t) table) := by
  induction l generalizing seen table with
  | nil => simpa using h
  | cons m l ih =>
    have hm := ih (h.foldl m.generatedFrom m.preparedProposals)
    rwa [List.append_assoc] at hm

end Represents

theorem Represents.prePrepareFor {E : Env} {s : Node} {lo i : Int} {seen : List PBFTMessage}
    {table : OrdMap Int PBFTMessage} {e : PBFTMessage} (h : Represents lo seen table)
    (hfiled : ∀ q ∈ seen, lo < q.index → ∀ p ∈ q.consensusProposal, p.index = q.index) (hi : lo < i)
    (he : s.prePrepareFor E table i = some e) :
    e.index = i ∧ ((∃ q ∈ seen, q.index = i) → ∃ q ∈ seen, q.index = i ∧ q.consensusProposal = e.consensusProposal) := by
  unfold Node.prePrepareFor at he
  split at he
  · rename_i m hm
    obtain ⟨p, hp, rfl⟩ := Option.map_eq_some_iff.1 he
    obtain ⟨-, q, hq, hindex, hqm⟩ := h.sound i m hm
    have hpq : p.index = q.index := hfiled q hq (by omega) p (by rw [hqm, hp]; rfl)
    exact ⟨hpq.trans hindex, fun _ => ⟨q, hq, hindex, hqm.trans hp⟩⟩
  · rename_i hnone
    obtain rfl := Option.some.inj he
    refine ⟨rfl, ?_⟩
    rintro ⟨q, hq, hindex⟩
    obtain ⟨m, hm⟩ := h.complete q hq (by omega)
    rw [hindex, hnone] at hm
    cases hm

theorem forall₂_of_mapM {α β : Type} {f : α → Option β} {l : List α} {l' : List β} (h : l.mapM f = some l') :
    List.Forall₂ (fun a b => f a = some b) l l' := by
  induction l generalizing l' with
  | nil =>
    obtain rfl : l' = [] := by simpa using h.symm
    exact .nil
  | cons a l ih =>
    rw [List.mapM_cons] at h
    obtain ⟨b, hb, h⟩ := Option.bind_eq_some_iff.1 h
    obtain ⟨t, ht, h⟩ := Option.bind_eq_some_iff.1 h
    obtain rfl := Option.some.inj h
    exact .cons hb (ih ht)

theorem exists_of_mapM {α β : Type} {f : α → Option β} {l : List α} {l' : List β} (h : l.mapM f = some l') {b : β}
    (hb : b ∈ l') : ∃ a, f a = some b := by
  have hentries := forall₂_of_mapM h
  clear h
  induction hentries with
  | nil => cases hb
  | @cons a b' l l' ha hrest ih =>
    rcases List.mem_cons.1 hb with rfl | hb
    · exact ⟨a, ha⟩
    · exact ih hb

theorem generatePrePrepareMsg_mem {E : Env} {s : Node} {viewChanges : OrdMap IndexType ViewChangeMsg}
    {list : List PBFTMessage} {e : PBFTMessage} (h : s.generatePrePrepareMsg E viewChanges = some list) (he : e ∈ list) :
    ∃ p generatedFrom, e = populatePrePrepare .PrePreparePacket p 0 s.cfg.toView s.utcTime generatedFrom ∧
      ((∃ q ∈ viewChanges.values.flatMap (·.preparedProposals), q.consensusProposal = some p) ∨
        ∃ i, p = { proposal := { index := i, hash := (E.emptyBlock i s.cfg.nodeIndex.toNat).1.val
                                 data := (E.emptyBlock i s.cfg.nodeIndex.toNat).2 } }) := by
  unfold Node.generatePrePrepareMsg at h
  generalize (s.maxCommittedIndex.find? s.cfg.toView).getD s.cfg.committedIndex = lo at h
  have htable := (Represents.empty lo).viewChanges viewChanges.values
  obtain ⟨i, hi⟩ := exists_of_mapM h he
  unfold Node.prePrepareFor at hi
  split at hi
  · rename_i m hm
    obtain ⟨p, hp, rfl⟩ := Option.map_eq_some_iff.1 hi
    obtain ⟨-, q, hq, -, hqm⟩ := htable.sound i m hm
    exact ⟨p, m.generatedFrom, rfl, Or.inl ⟨q, hq, hqm.trans hp⟩⟩
  · obtain rfl := Option.some.inj hi
    exact ⟨_, _, rfl, Or.inr ⟨i, rfl⟩⟩

theorem Node.indexRange_sorted (lo hi : Int) : (Node.indexRange lo hi).Pairwise (· < ·) := by
  unfold Node.indexRange
  rw [List.pairwise_map]
  refine List.pairwise_lt_range.imp (fun h => ?_)
  omega

/-- The entries of a generated list have the indices between the two numbers of the tables. -/
theorem generatePrePrepareMsg_entries {E : Env} {s : Node} {viewChanges : OrdMap IndexType ViewChangeMsg}
    {list : List PBFTMessage} {lo hi : Int} (h : s.generatePrePrepareMsg E viewChanges = some list)
    (hlo : (s.maxCommittedIndex.find? s.cfg.toView).getD s.cfg.committedIndex = lo)
    (hhi : (s.maxPrecommitIndex.find? s.cfg.toView).getD s.cfg.progressedIndex = hi)
    (hfiled : ∀ q ∈ viewChanges.values.flatMap (·.preparedProposals), lo < q.index →
      ∀ p ∈ q.consensusProposal, p.index = q.index) :
    list.map (·.index) = Node.indexRange lo hi ∧ ∀ e ∈ list,
      (∃ q ∈ viewChanges.values.flatMap (·.preparedProposals), q.index = e.index) →
        ∃ q ∈ viewChanges.values.flatMap (·.preparedProposals), q.index = e.index ∧
          q.consensusProposal = e.consensusProposal := by
  unfold Node.generatePrePrepareMsg at h
  simp only [hlo, hhi] at h
  have htable := (Represents.empty lo).viewChanges viewChanges.values
  rw [List.nil_append] at htable
  have hmem : ∀ i ∈ Node.indexRange lo hi, lo < i := fun i hi => (Node.mem_indexRange.1 hi).1
  have hentries := forall₂_of_mapM h
  clear h
  generalize Node.indexRange lo hi = range at hmem hentries
  induction hentries with
  | nil => exact ⟨rfl, by simp⟩
  | @cons i e range list he hrest ih =>
    obtain ⟨hindex, hcarried⟩ := htable.prePrepareFor hfiled (hmem i List.mem_cons_self) he
    obtain ⟨ihindex, ihcarried⟩ := ih (fun j hj => hmem j (List.mem_cons_of_mem i hj))
    refine ⟨by rw [List.map_cons, hindex, ihindex], fun e' he' => ?_⟩
    rcases List.mem_cons.1 he' with rfl | he'
    · rw [hindex]
      exact hcarried
    · exact ihcarried e' he'

/-- The view changes of these views may not be those that the tables of maximal indices were made from. -/
def staleStep (stale : List ViewType) : Action → List ViewType
  | .dropViewChanges views => stale ++ views
  | .clearIndexTables views => views
  | _ => stale

/-- The views of which a view change was dropped since the tables were cleared last, or was kept when they were. -/
def staleViews (log : List Action) : List ViewType := log.foldl staleStep []

theorem staleViews_append (log l : List Action) : staleViews (log ++ l) = l.foldl staleStep (staleViews log) :=
  List.foldl_append

theorem staleViews_snoc (log : List Action) (a : Action) : staleViews (log ++ [a]) = staleStep (staleViews log) a := by
  rw [staleViews_append]
  rfl

namespace Node

def StoresViewChange (s : Node) (v : ViewType) (m : ViewChangeMsg) : Prop :=
  ∃ l i, s.viewChangeCache.find? v = some l ∧ l.find? i = some m

def committedIndices (s : Node) (v : ViewType) : Set Int :=
  {i | ∃ m, s.StoresViewChange v m ∧ m.committedProposal.index = i}

def preparedIndices (s : Node) (v : ViewType) : Set Int :=
  {i | ∃ m, s.StoresViewChange v m ∧ ∃ q ∈ m.preparedProposals, q.index = i}

theorem mem_values_viewChanges {s : Node} {v : ViewType} {m : ViewChangeMsg} :
    m ∈ ((s.viewChangeCache.find? v).getD ∅).values ↔ s.StoresViewChange v m := by
  unfold StoresViewChange
  cases hv : s.viewChangeCache.find? v with
  | none => simp [OrdMap.values]
  | some l =>
    simp only [Option.getD_some, OrdMap.values, List.mem_map, Option.some.injEq]
    constructor
    · rintro ⟨⟨i, m'⟩, he, rfl⟩
      exact ⟨l, i, rfl, OrdMap.find?_eq_some.2 he⟩
    · rintro ⟨l', i, rfl, hi⟩
      exact ⟨(i, m), OrdMap.find?_eq_some.1 hi, rfl⟩

end Node

/-- The tables hold the greatest indices of the view changes stored for the view; the log line may have put a zero where
there was no prepared index. -/
structure InStep (s : Node) (v : ViewType) : Prop where
  committed : RunningMax.Tracks (s.maxCommittedIndex.find? v) (s.committedIndices v)
  prepared : ∃ T, s.preparedIndices v ⊆ T ∧ T ⊆ insert 0 (s.preparedIndices v) ∧
    RunningMax.Tracks (s.maxPrecommitIndex.find? v) T ∧
    (s.cfg.infoLog = true → (∃ m, s.StoresViewChange v m) → T.Nonempty)

/-- A view change that is counted is one more for its view, and its indices go into the tables. -/
theorem Node.addViewChangeReq_cases (s : Node) (m : ViewChangeMsg) : s.addViewChangeReq m = s ∨
    (∀ v x, (s.addViewChangeReq m).StoresViewChange v x ↔ s.StoresViewChange v x ∨ v = m.view ∧ x = m) ∧
      (s.addViewChangeReq m).maxCommittedIndex =
        RunningMax.record s.maxCommittedIndex m.view m.committedProposal.index ∧
      (s.addViewChangeReq m).maxPrecommitIndex = logMaxPrecommitIndex s.cfg ((m.preparedProposals.map (·.index)).foldl
        (fun t a => RunningMax.record t m.view a) s.maxPrecommitIndex) m.view := by
  by_cases hseen : ((s.viewChangeCache.find? m.view).bind (·.find? m.generatedFrom)).isSome = true
  · refine Or.inl ?_
    unfold addViewChangeReq
    rw [if_pos hseen]
  cases hnode : s.cfg.getConsensusNodeByIndex m.generatedFrom with
  | none =>
    refine Or.inl ?_
    unfold addViewChangeReq
    rw [if_neg hseen]
    simp only [hnode]
  | some nodeInfo =>
    right
    unfold addViewChangeReq
    rw [if_neg hseen]
    simp only [hnode]
    refine ⟨fun v x => ?_, rfl, by rw [List.foldl_map]; rfl⟩
    have hfresh : ∀ l, s.viewChangeCache.find? m.view = some l → l.find? m.generatedFrom = none := by
      intro l hl
      simpa [hl] using hseen
    simp only [StoresViewChange, OrdMap.find?_insert]
    constructor
    · rintro ⟨l, i, hl, hi⟩
      split_ifs at hl with hv
      · obtain rfl := Option.some.inj hl
        rw [OrdMap.find?_insert] at hi
        split_ifs at hi with hfrom
        · exact Or.inr ⟨hv, (Option.some.inj hi).symm⟩
        · subst hv
          cases hc : s.viewChangeCache.find? m.view with
          | none => simp [hc] at hi
          | some l => exact Or.inl ⟨l, i, rfl, by simpa [hc] using hi⟩
      · exact Or.inl ⟨l, i, hl, hi⟩
    · rintro (⟨l, i, hl, hi⟩ | ⟨rfl, rfl⟩)
      · by_cases hv : v = m.view
        · subst hv
          rw [if_pos rfl]
          refine ⟨_, i, rfl, ?_⟩
          have hne : i ≠ m.generatedFrom := fun heq => by
            rw [heq, hfresh l hl] at hi
            cases hi
          rw [hl, Option.getD_some, OrdMap.find?_insert_ne _ _ hne, hi]
        · rw [if_neg hv]
          exact ⟨l, i, hl, hi⟩
      · rw [if_pos rfl]
        exact ⟨_, x.generatedFrom, rfl, OrdMap.find?_insert_self _ _ _⟩

theorem find?_logMaxPrecommitIndex (cfg : Config) (table : OrdMap ViewType Int) (view v : ViewType) :
    (Node.logMaxPrecommitIndex cfg table view).find? v =
      if v = view then (if cfg.infoLog = true then some ((table.find? view).getD 0) else table.find? view)
      else table.find? v := by
  unfold Node.logMaxPrecommitIndex OrdMap.contains
  by_cases hv : v = view
  · subst hv
    cases cfg.infoLog <;> cases hf : table.find? v <;> simp [hf]
  · rw [if_neg hv]
    split
    · exact OrdMap.find?_insert_ne _ _ hv
    · rfl

theorem InStep.viewChange {s : Node} {v : ViewType} (h : InStep s v) (m : ViewChangeMsg) :
    InStep (s.addViewChangeReq m) v := by
  rcases s.addViewChangeReq_cases m with heq | ⟨hstores, hcommitted, hprepared⟩
  · rw [heq]
    exact h
  obtain ⟨T, hsub, hsup, htracks, hlogged⟩ := h.prepared
  by_cases hv : v = m.view
  · subst hv
    have hset : (s.addViewChangeReq m).committedIndices m.view =
        insert m.committedProposal.index (s.committedIndices m.view) := by
      ext i
      simp only [Node.committedIndices, Set.mem_ofPred_eq, hstores, true_and, Set.mem_insert_iff]
      constructor
      · rintro ⟨x, hx | rfl, rfl⟩
        · exact Or.inr ⟨x, hx, rfl⟩
        · exact Or.inl rfl
      · rintro (rfl | ⟨x, hx, rfl⟩)
        · exact ⟨m, Or.inr rfl, rfl⟩
        · exact ⟨x, Or.inl hx, rfl⟩
    have hset' : (s.addViewChangeReq m).preparedIndices m.view =
        s.preparedIndices m.view ∪ {i | i ∈ m.preparedProposals.map (·.index)} := by
      ext i
      simp only [Node.preparedIndices, Set.mem_ofPred_eq, hstores, true_and, Set.mem_union, List.mem_map]
      constructor
      · rintro ⟨x, hx | rfl, q, hq, rfl⟩
        · exact Or.inl ⟨x, hx, q, hq, rfl⟩
        · exact Or.inr ⟨q, hq, rfl⟩
      · rintro (⟨x, hx, q, hq, rfl⟩ | ⟨q, hq, rfl⟩)
        · exact ⟨x, Or.inl hx, q, hq, rfl⟩
        · exact ⟨m, Or.inr rfl, q, hq, rfl⟩
    refine ⟨?_, ?_⟩
    · rw [hcommitted, RunningMax.find?_record, if_pos rfl, hset]
      exact h.committed.push _
    · rw [hprepared, find?_logMaxPrecommitIndex, if_pos rfl, RunningMax.find?_foldl_record, if_pos rfl, hset',
        Node.addViewChangeReq_cfg]
      have hfold := htracks.foldl (m.preparedProposals.map (·.index))
      have hsub' := Set.union_subset_union_left {i | i ∈ m.preparedProposals.map (·.index)} hsub
      have hsup' : T ∪ {i | i ∈ m.preparedProposals.map (·.index)} ⊆
          insert 0 (s.preparedIndices m.view ∪ {i | i ∈ m.preparedProposals.map (·.index)}) := by
        rw [← Set.insert_union]
        exact Set.union_subset_union_left _ hsup
      by_cases hinfo : s.cfg.infoLog = true
      · rw [if_pos hinfo]
        generalize (m.preparedProposals.map (·.index)).foldl RunningMax.push (s.maxPrecommitIndex.find? m.view) = o at hfold
        cases o with
        | some a =>
          have hgreatest := hfold.greatest a rfl
          exact ⟨_, hsub', hsup', hfold, fun _ _ => ⟨a, hgreatest.1⟩⟩
        | none =>
          -- the log line makes the entry
          have hnone := hfold.empty rfl
          rw [hnone] at hsub'
          refine ⟨{0}, hsub'.trans (Set.empty_subset _), by simp, ?_, fun _ _ => ⟨0, rfl⟩⟩
          rw [← insert_empty_eq (0 : Int)]
          exact RunningMax.Tracks.none.push 0
      · rw [if_neg hinfo]
        exact ⟨_, hsub', hsup', hfold, fun h => absurd h hinfo⟩
  · have hsame : ∀ x, (s.addViewChangeReq m).StoresViewChange v x ↔ s.StoresViewChange v x := by
      intro x
      simp [hstores, hv]
    have hset : (s.addViewChangeReq m).committedIndices v = s.committedIndices v := by
      simp only [Node.committedIndices, hsame]
    have hset' : (s.addViewChangeReq m).preparedIndices v = s.preparedIndices v := by
      simp only [Node.preparedIndices, hsame]
    refine ⟨?_, T, ?_⟩
    · rw [hcommitted, RunningMax.find?_record, if_neg hv, hset]
      exact h.committed
    · rw [hprepared, find?_logMaxPrecommitIndex, if_neg hv, RunningMax.find?_foldl_record, if_neg hv, hset',
        Node.addViewChangeReq_cfg]
      simp only [hsame]
      exact ⟨hsub, hsup, htracks, hlogged⟩

theorem InStep.congr {s t : Node} {v : ViewType} (h : InStep s v)
    (hstores : ∀ m, t.StoresViewChange v m ↔ s.StoresViewChange v m)
    (hcommitted : t.maxCommittedIndex = s.maxCommittedIndex) (hprepared : t.maxPrecommitIndex = s.maxPrecommitIndex)
    (hinfo : t.cfg.infoLog = s.cfg.infoLog) : InStep t v := by
  have hset : t.committedIndices v = s.committedIndices v := by simp only [Node.committedIndices, hstores]
  have hset' : t.preparedIndices v = s.preparedIndices v := by simp only [Node.preparedIndices, hstores]
  refine ⟨?_, ?_⟩
  · rw [hcommitted, hset]
    exact h.committed
  · rw [hprepared, hset', hinfo]
    simp only [hstores]
    exact h.prepared

theorem InStep.empty {s : Node} {v : ViewType} (hstores : ∀ m, ¬s.StoresViewChange v m)
    (hcommitted : s.maxCommittedIndex.find? v = none) (hprepared : s.maxPrecommitIndex.find? v = none) : InStep s v := by
  have hset : s.committedIndices v = ∅ := by
    refine Set.eq_empty_iff_forall_notMem.2 (fun i hi => ?_)
    obtain ⟨m, hm, -⟩ := hi
    exact hstores m hm
  have hset' : s.preparedIndices v = ∅ := by
    refine Set.eq_empty_iff_forall_notMem.2 (fun i hi => ?_)
    obtain ⟨m, hm, -⟩ := hi
    exact hstores m hm
  refine ⟨?_, ∅, ?_, Set.empty_subset _, ?_, ?_⟩
  · rw [hcommitted, hset]
    exact .none
  · rw [hset']
  · rw [hprepared]
    exact .none
  · rintro - ⟨m, hm⟩
    exact absurd hm (hstores m)

theorem Node.StoresViewChange.of_removeInvalidViewChange {s : Node} {view v : ViewType} {latestCommitted : Int}
    {m : ViewChangeMsg} (h : (s.removeInvalidViewChange view latestCommitted).StoresViewChange v m) :
    s.StoresViewChange v m := by
  obtain ⟨l, i, hl, hi⟩ := h
  change ((s.viewChangeCache.filter (fun v _ => !(v ≤ view))).mapVal
    (fun _ l => l.filter (fun _ m => !(m.index < latestCommitted)))).find? v = some l at hl
  rw [OrdMap.find?_mapVal, OrdMap.find?_filter] at hl
  obtain ⟨l', hl', rfl⟩ := Option.map_eq_some_iff.1 hl
  rw [OrdMap.find?_filter] at hi
  exact ⟨l', i, (Option.filter_eq_some_iff.1 hl').1, (Option.filter_eq_some_iff.1 hi).1⟩

theorem Node.storesViewChange_removeInvalidViewChange {s : Node} {view v : ViewType} {latestCommitted : Int}
    (hv : v ∉ s.invalidViews view latestCommitted) (m : ViewChangeMsg) :
    (s.removeInvalidViewChange view latestCommitted).StoresViewChange v m ↔ s.StoresViewChange v m := by
  refine ⟨fun h => h.of_removeInvalidViewChange, ?_⟩
  rintro ⟨l, i, hl, hi⟩
  -- a dropped message would put the view on the list
  have hkept : ¬(v ≤ view ∨ m.index < latestCommitted) := by
    intro hdrop
    refine hv (List.mem_map.2 ⟨(v, l), List.mem_filter.2 ⟨OrdMap.find?_eq_some.1 hl, ?_⟩, rfl⟩)
    rw [List.any_eq_true]
    exact ⟨(i, m), OrdMap.find?_eq_some.1 hi, by simpa using hdrop⟩
  rw [not_or] at hkept
  refine ⟨l.filter (fun _ m => !(m.index < latestCommitted)), i, ?_, ?_⟩
  · change ((s.viewChangeCache.filter (fun v _ => !(v ≤ view))).mapVal
      (fun _ l => l.filter (fun _ m => !(m.index < latestCommitted)))).find? v = _
    rw [OrdMap.find?_mapVal, OrdMap.find?_filter, hl, Option.filter_some, if_pos (by simpa using hkept.1), Option.map_some]
  · rw [OrdMap.find?_filter, hi, Option.filter_some, if_pos (by simpa using hkept.2)]

theorem Node.not_storesViewChange {s : Node} {v : ViewType} (hv : v ∉ s.viewChangeViews) (m : ViewChangeMsg) :
    ¬s.StoresViewChange v m := by
  rintro ⟨l, i, hl, hi⟩
  refine hv (List.mem_map.2 ⟨(v, l), List.mem_filter.2 ⟨OrdMap.find?_eq_some.1 hl, ?_⟩, rfl⟩)
  have hmem := OrdMap.find?_eq_some.1 hi
  have hne : l.entries ≠ [] := List.ne_nil_of_mem hmem
  simpa using hne

theorem CfgStep.infoLog {E : Env} {l : Label} {c c' : Config} (h : CfgStep E l c c') : c'.infoLog = c.infoLog := by
  cases h with
  | same _ h => exact h.infoLog
  | mode => rfl
  | aim => rfl
  | view _ hv =>
    unfold Config.resetNewViewState
    split <;> rfl
  | expect _ i => rfl
  | lowMark _ h => rfl
  | ledger _ h => rfl
  | reseal => rfl
  | nodes h =>
    obtain ⟨_, _, _, _, _, _, _, rfl⟩ := Config.setConsensusNodeList_frame h
    rfl

def Label.tabling : Label → Bool
  | .viewChange _ _ | .dropViewChanges | .clearTables => true
  | _ => false

theorem Prim.tables_same {E : Env} {l : Label} {s t : Node} (h : Prim E l s t) (hl : l.tabling = false) :
    t.viewChangeCache = s.viewChangeCache ∧ t.viewChangeWeight = s.viewChangeWeight ∧
      t.maxCommittedIndex = s.maxCommittedIndex ∧ t.maxPrecommitIndex = s.maxPrecommitIndex := by
  have hcore : ∀ {u : Node} {x : Core}, u.core = x → x.viewChangeCache = s.viewChangeCache →
      x.viewChangeWeight = s.viewChangeWeight → x.maxCommittedIndex = s.maxCommittedIndex →
      x.maxPrecommitIndex = s.maxPrecommitIndex →
      u.viewChangeCache = s.viewChangeCache ∧ u.viewChangeWeight = s.viewChangeWeight ∧
        u.maxCommittedIndex = s.maxCommittedIndex ∧ u.maxPrecommitIndex = s.maxPrecommitIndex := by
    rintro u x rfl hc hw hi hp
    exact ⟨hc, hw, hi, hp⟩
  by_cases hcaching : l.caching = true
  · obtain ⟨x, hx⟩ := h.caching hcaching
    exact hcore hx rfl rfl rfl rfl
  · cases h with
    | quiet h => exact hcore h.core rfl rfl rfl rfl
    | @apply _ p lastApplied rest hq hindex hlast hx =>
      exact hcore ((s.takeProposal p rest).applyStateMachine_core lastApplied p) rfl rfl rfl rfl
    | executed _ i error =>
      obtain ⟨a, b, hx⟩ := s.onExecuted_core E i error
      exact hcore hx rfl rfl rfl rfl
    | newView h =>
      obtain ⟨w, list, -, -, -, -, rfl⟩ := s.checkAndTryIntoNewView_some h
      exact ⟨rfl, rfl, rfl, rfl⟩
    | _ => first | exact absurd rfl hcaching | exact ⟨rfl, rfl, rfl, rfl⟩ | cases hl

theorem Emits.staleStep {E : Env} {s : Node} {l : Label} {a : Action} (h : Emits E s l a) (hl : l.tabling = false)
    (stale : List ViewType) : staleStep stale a = stale := by
  have hsend : ∀ {dst : Option NodeID} {msg : Message}, a ∈ sendActions E s.cfg.keyPair dst msg →
      BcosPbft.staleStep stale a = stale := by
    intro dst msg hmem
    rcases mem_sendActions hmem with ⟨r, rfl⟩ | ⟨packet, data, rfl⟩ <;> rfl
  cases h with
  | neutral _ hn => cases a <;> first | rfl | cases hn
  | preCommit hc hm hp henough ha =>
    rcases List.mem_cons.1 ha with rfl | ha
    · rfl
    rcases List.mem_cons.1 ha with rfl | ha
    · rfl
    exact hsend ha
  | vote ha =>
    rcases List.mem_cons.1 ha with rfl | ha
    · rfl
    exact hsend ha
  | announce h hs ha =>
    rcases List.mem_cons.1 ha with rfl | ha
    · rfl
    rcases List.mem_cons.1 ha with rfl | ha
    · rfl
    exact hsend ha
  | resend hc hp ha =>
    rcases List.mem_cons.1 ha with rfl | ha
    · rfl
    exact hsend ha
  | newView h ha => exact hsend ha
  | sendViewChange ha => exact hsend ha
  | dropViewChanges view i => cases hl
  | clearTables => cases hl
  | _ => rfl

theorem staleViews_of_emits {E : Env} {s : Node} {l : Label} (hl : l.tabling = false) {k : List Action}
    (hk : ∀ a ∈ k, Emits E s l a) : staleViews (s.log ++ k) = staleViews s.log := by
  rw [staleViews_append]
  induction k with
  | nil => rfl
  | cons a k ih =>
    rw [List.foldl_cons, (hk a List.mem_cons_self).staleStep hl]
    exact ih (fun b hb => hk b (List.mem_cons_of_mem a hb))

theorem Prim.staleViews_eq {E : Env} {l : Label} {s t : Node} (h : Prim E l s t) (hl : l.tabling = false) :
    staleViews t.log = staleViews s.log := by
  obtain ⟨k, hk, hemits⟩ := h.log
  rw [hk, staleViews_of_emits hl hemits]

def Synced (s : Node) : Prop := ∀ v, v ∉ staleViews s.log → InStep s v

theorem Prim.synced {E : Env} {l : Label} {s t : Node} (h : Prim E l s t) (hs : Synced s) : Synced t := by
  intro v hv
  by_cases htabling : l.tabling = false
  · obtain ⟨hcache, -, hcommitted, hprepared⟩ := h.tables_same htabling
    rw [h.staleViews_eq htabling] at hv
    refine (hs v hv).congr (fun m => ?_) hcommitted hprepared h.cfgStep.infoLog
    unfold Node.StoresViewChange
    rw [hcache]
  · cases h with
    | @viewChange _ own m hown hsig =>
      have hlog : (s.addViewChangeReq m).log = s.log := by
        unfold Node.addViewChangeReq
        split
        · rfl
        · split <;> rfl
      rw [hlog] at hv
      exact (hs v hv).viewChange m
    | dropViewChanges _ view i =>
      have hlog : (s.removeInvalidViewChange view i).log = s.log ++ [.dropViewChanges (s.invalidViews view i)] := rfl
      rw [hlog, staleViews_snoc, staleStep, List.mem_append, not_or] at hv
      exact (hs v hv.1).congr (Node.storesViewChange_removeInvalidViewChange hv.2) rfl rfl rfl
    | clearTables =>
      change v ∉ staleViews (s.log ++ [.clearIndexTables s.viewChangeViews]) at hv
      rw [staleViews_snoc, staleStep] at hv
      exact .empty (fun m => Node.not_storesViewChange hv m) rfl rfl
    | _ => exact absurd rfl htabling

/-- The prepared proposals above every committed index are about the index of their message, and there is a prepared
proposal where the log line does not stand in for it. -/
structure NewViewMsg.Regular (infoLog : Bool) (m : NewViewMsg) : Prop where
  committed : ∃ vc ∈ m.viewChangeMsgList, 0 ≤ vc.committedProposal.index
  prepared : infoLog = true ∨ m.prepared ≠ []
  filed : ∀ q ∈ m.prepared, (∀ vc ∈ m.viewChangeMsgList, vc.committedProposal.index < q.index) →
    ∀ p ∈ q.consensusProposal, p.index = q.index

instance (infoLog : Bool) (m : NewViewMsg) : Decidable (m.Regular infoLog) :=
  decidable_of_iff ((∃ vc ∈ m.viewChangeMsgList, 0 ≤ vc.committedProposal.index) ∧ (infoLog = true ∨ m.prepared ≠ []) ∧
    ∀ q ∈ m.prepared, (∀ vc ∈ m.viewChangeMsgList, vc.committedProposal.index < q.index) →
      ∀ p ∈ q.consensusProposal, p.index = q.index) ⟨fun h => ⟨h.1, h.2.1, h.2.2⟩, fun h => ⟨h.1, h.2, h.3⟩⟩

theorem NewViewMsg.Complete.congr {m m' : NewViewMsg} (h : m.Complete) (hlist : m'.prePrepareList = m.prePrepareList)
    (hviews : m'.viewChangeMsgList = m.viewChangeMsgList) : m'.Complete := by
  obtain ⟨hsorted, hcovers, hprepared⟩ := h
  unfold NewViewMsg.prepared at hcovers hprepared
  refine ⟨?_, ?_, ?_⟩
  · rwa [hlist]
  · unfold NewViewMsg.prepared
    rwa [hlist, hviews]
  · unfold NewViewMsg.prepared
    rwa [hlist, hviews]

theorem NewViewMsg.Regular.congr {m m' : NewViewMsg} {infoLog : Bool} (h : m.Regular infoLog)
    (hviews : m'.viewChangeMsgList = m.viewChangeMsgList) : m'.Regular infoLog := by
  obtain ⟨hcommitted, hprepared, hfiled⟩ := h
  unfold NewViewMsg.prepared at hprepared hfiled
  refine ⟨?_, ?_, ?_⟩
  · rwa [hviews]
  · unfold NewViewMsg.prepared
    rwa [hviews]
  · unfold NewViewMsg.prepared
    rwa [hviews]

/-- The list that is made while the tables are in step is complete. -/
theorem InStep.complete {E : Env} {s t : Node} {m : NewViewMsg} (h : InStep s m.view)
    (hmade : s.checkAndTryIntoNewView E = some (t, some m)) (hregular : m.Regular s.cfg.infoLog) : m.Complete := by
  obtain ⟨w, list, -, -, hlist, rfl, -⟩ := s.checkAndTryIntoNewView_some hmade
  change InStep s s.cfg.toView at h
  obtain ⟨⟨vc₀, hvc₀, hnonneg⟩, hprepared, hfiled⟩ := hregular
  generalize hV : (s.viewChangeCache.find? s.cfg.toView).getD ∅ = viewChanges at hlist hvc₀ hprepared hfiled ⊢
  change vc₀ ∈ viewChanges.values at hvc₀
  change s.cfg.infoLog = true ∨ viewChanges.values.flatMap (·.preparedProposals) ≠ [] at hprepared
  change ∀ q ∈ viewChanges.values.flatMap (·.preparedProposals),
    (∀ vc ∈ viewChanges.values, vc.committedProposal.index < q.index) → _ at hfiled
  have hstores : ∀ vc, s.StoresViewChange s.cfg.toView vc ↔ vc ∈ viewChanges.values := fun vc => by
    rw [← hV, Node.mem_values_viewChanges]
  have hmemPrepared : ∀ i, i ∈ s.preparedIndices s.cfg.toView ↔
      ∃ q ∈ viewChanges.values.flatMap (·.preparedProposals), q.index = i := by
    intro i
    simp only [Node.preparedIndices, Set.mem_ofPred_eq, hstores, List.mem_flatMap]
    constructor
    · rintro ⟨vc, hvc, q, hq, hi⟩
      exact ⟨q, ⟨vc, hvc, hq⟩, hi⟩
    · rintro ⟨q, ⟨vc, hvc, hq⟩, hi⟩
      exact ⟨vc, hvc, q, hq, hi⟩
  -- the lower number is the greatest committed index
  obtain ⟨lo, hlo, ⟨vc₁, hvc₁, hlo₁⟩, hmax⟩ := h.committed.exists_of_nonempty
    ⟨_, vc₀, (hstores vc₀).2 hvc₀, rfl⟩
  have hcommitted : ∀ i, lo < i ↔ ∀ vc ∈ viewChanges.values, vc.committedProposal.index < i := by
    intro i
    constructor
    · intro hi vc hvc
      have hle : vc.committedProposal.index ≤ lo := hmax ⟨vc, (hstores vc).2 hvc, rfl⟩
      omega
    · intro hall
      have hlt := hall vc₁ ((hstores vc₁).1 hvc₁)
      omega
  have hlo₀ : 0 ≤ lo := hnonneg.trans (hmax ⟨vc₀, (hstores vc₀).2 hvc₀, rfl⟩)
  -- the upper number is the greatest prepared index, or zero where every prepared index is below
  obtain ⟨T, hsub, hsup, htracks, hlogged⟩ := h.prepared
  have hne : T.Nonempty := by
    rcases hprepared with hinfo | hne
    · exact hlogged hinfo ⟨vc₀, (hstores vc₀).2 hvc₀⟩
    · obtain ⟨q, hq⟩ := List.exists_mem_of_ne_nil _ hne
      exact ⟨q.index, hsub ((hmemPrepared _).2 ⟨q, hq, rfl⟩)⟩
  obtain ⟨hi, hhi, hmem, hmax'⟩ := htracks.exists_of_nonempty hne
  have hupper : ∀ i, lo < i → (i ≤ hi ↔ ∃ p ∈ viewChanges.values.flatMap (·.preparedProposals), i ≤ p.index) := by
    intro i hlt
    constructor
    · intro hle
      rcases hsup hmem with rfl | hmem
      · omega
      · obtain ⟨q, hq, rfl⟩ := (hmemPrepared hi).1 hmem
        exact ⟨q, hq, hle⟩
    · rintro ⟨p, hp, hle⟩
      exact hle.trans (hmax' (hsub ((hmemPrepared _).2 ⟨p, hp, rfl⟩)))
  obtain ⟨hindices, hcarried⟩ := generatePrePrepareMsg_entries hlist (by rw [hlo, Option.getD_some])
    (by rw [hhi, Option.getD_some]) (fun q hq hlt => hfiled q hq ((hcommitted _).1 hlt))
  have hmap : ((list.map (PBFTMessage.encodeHashFields E)).map (·.index)) = Node.indexRange lo hi := by
    rw [List.map_map, ← hindices]
    rfl
  refine ⟨?_, fun i => ?_, fun e he hex => ?_⟩
  · change ((list.map (PBFTMessage.encodeHashFields E)).map (·.index)).Pairwise (· < ·)
    rw [hmap]
    exact Node.indexRange_sorted lo hi
  · change i ∈ (list.map (PBFTMessage.encodeHashFields E)).map (·.index) ↔
      (∀ vc ∈ viewChanges.values, vc.committedProposal.index < i) ∧
        ∃ p ∈ viewChanges.values.flatMap (·.preparedProposals), i ≤ p.index
    rw [hmap, Node.mem_indexRange, ← hcommitted]
    exact and_congr_right (hupper i)
  · obtain ⟨e', he', rfl⟩ := List.mem_map.1 he
    exact hcarried e' he' hex

theorem send_newView_mem {E : Env} {keyPair : KeyPair} {dst dst' : Option NodeID} {m m' : NewViewMsg} {data : Bytes}
    (h : Action.send dst' (.newView m') data ∈ sendActions E keyPair dst (.newView m)) :
    m'.view = m.view ∧ m'.viewChangeMsgList = m.viewChangeMsgList ∧ m'.prePrepareList = m.prePrepareList := by
  simp only [sendActions, PBFTCodec.encode] at h
  split at h <;> simp at h <;> obtain ⟨-, rfl, -⟩ := h <;> exact ⟨rfl, rfl, rfl⟩

theorem Emits.newView_mem {E : Env} {s : Node} {l : Label} {dst : Option NodeID} {m : NewViewMsg} {data : Bytes}
    (h : Emits E s l (.send dst (.newView m) data)) : ∃ t m₀, l = .newView m₀ ∧
      s.checkAndTryIntoNewView E = some (t, some m₀) ∧
        Action.send dst (.newView m) data ∈ sendActions E s.cfg.keyPair none (.newView m₀) := by
  have hpbft : ∀ {v : PBFTMessage}, Action.send dst (.newView m) data ∉ sendActions E s.cfg.keyPair none (.pbft v) := by
    intro v hmem
    simp [sendActions, PBFTCodec.encode] at hmem
  cases h with
  | neutral _ hn => cases hn
  | preCommit hc hm hp henough ha => simp [PBFTCache.precommitActions, hpbft] at ha
  | vote ha => simp [voteActions, hpbft] at ha
  | announce h hs ha => simp [announceActions, checkPointActions, hpbft] at ha
  | resend hc hp ha => simp [checkPointActions, hpbft] at ha
  | newView hmade ha => exact ⟨_, _, rfl, hmade, ha⟩
  | sendViewChange ha =>
    simp only [sendActions, PBFTCodec.encode] at ha
    split at ha <;> simp at ha

theorem Emits.sends_newView {E : Env} {s : Node} {l : Label} {dst : Option NodeID} {m : NewViewMsg} {data : Bytes}
    (h : Emits E s l (.send dst (.newView m) data)) : ∃ t m₀, l = .newView m₀ ∧
      s.checkAndTryIntoNewView E = some (t, some m₀) ∧ m.view = m₀.view ∧ m.viewChangeMsgList = m₀.viewChangeMsgList ∧
        m.prePrepareList = m₀.prePrepareList := by
  obtain ⟨t, m₀, hl, hmade, hmem⟩ := h.newView_mem
  exact ⟨t, m₀, hl, hmade, send_newView_mem hmem⟩

/-- Every new view that was sent is complete, if the tables of its view were not stale then and it is regular. -/
def NewViewsComplete (infoLog : Bool) (log : List Action) : Prop :=
  ∀ l₁ l₂ dst m data, log = l₁ ++ .send dst (.newView m) data :: l₂ → m.view ∉ staleViews l₁ → m.Regular infoLog →
    m.Complete

theorem NewViewsComplete.snoc {infoLog : Bool} {log : List Action} {a : Action} (h : NewViewsComplete infoLog log)
    (ha : ∀ dst m data, a = .send dst (.newView m) data → m.view ∉ staleViews log → m.Regular infoLog → m.Complete) :
    NewViewsComplete infoLog (log ++ [a]) := by
  intro l₁ l₂ dst m data heq
  rcases List.eq_nil_or_concat l₂ with rfl | ⟨k, b, rfl⟩
  · obtain ⟨rfl, hb⟩ := List.append_inj' heq rfl
    exact ha dst m data (List.cons.inj hb).1
  · rw [List.concat_eq_append, ← List.cons_append, ← List.append_assoc] at heq
    obtain ⟨rfl, -⟩ := List.append_inj' heq rfl
    exact h l₁ k dst m data rfl

theorem Prim.newViewsComplete {E : Env} {l : Label} {s t : Node} {infoLog : Bool} (h : Prim E l s t)
    (hinfo : s.cfg.infoLog = infoLog) (hsync : Synced s) (hs : NewViewsComplete infoLog s.log) :
    NewViewsComplete infoLog t.log := by
  obtain ⟨k, hk, hemits⟩ := h.log
  rw [hk]
  clear hk
  induction k using List.reverseRecOn with
  | nil => rwa [List.append_nil]
  | append_singleton k a ih =>
    have hk : ∀ b ∈ k, Emits E s l b := fun b hb => hemits b (List.mem_append_left _ hb)
    rw [← List.append_assoc]
    refine (ih hk).snoc (fun dst m data ha hstale hregular => ?_)
    have ha' := hemits a (List.mem_append_right _ List.mem_cons_self)
    rw [ha] at ha'
    obtain ⟨u, m₀, rfl, hmade, hview, hviews, hlist⟩ := ha'.sends_newView
    rw [staleViews_of_emits rfl hk, hview] at hstale
    rw [← hinfo] at hregular
    exact ((hsync m₀.view hstale).complete hmade (hregular.congr hviews.symm)).congr hlist hviews

structure Leads (infoLog : Bool) (s : Node) : Prop where
  info : s.cfg.infoLog = infoLog
  synced : Synced s
  sent : NewViewsComplete infoLog s.log

theorem Prim.leads {E : Env} {l : Label} {s t : Node} {infoLog : Bool} (h : Prim E l s t) (hs : Leads infoLog s) :
    Leads infoLog t :=
  ⟨h.cfgStep.infoLog.trans hs.info, h.synced hs.synced, h.newViewsComplete hs.info hs.synced hs.sent⟩

theorem Leads.steps {E : Env} {A : Label → Prop} {s t : Node} {infoLog : Bool} (h : Steps E A s t)
    (hs : Leads infoLog s) : Leads infoLog t :=
  Labelled.Steps.preserves (fun _ _ _ _ hp hs => hp.leads hs) h hs

theorem initNode_leads {E : Env} {keyPair : KeyPair} {l : LedgerConfig} {state : List PBFTProposal} {s₀ : Node}
    (hinit : initNode E keyPair l state = some s₀) (infoLog : Bool) :
    Leads infoLog (s₀.setCfg { s₀.cfg with infoLog := infoLog }) := by
  -- `init` neither collects view changes nor makes a new view
  let A : Label → Prop := fun label => label.tabling = false ∧ ∀ m, label ≠ .newView m
  let I : Node → Prop := fun s => (s.viewChangeCache = ∅ ∧ s.maxCommittedIndex = ∅ ∧ s.maxPrecommitIndex = ∅) ∧
    ∀ dst m data, Action.send dst (.newView m) data ∉ s.log
  have hA : ∀ label, label.tabling = false → (∀ m, label ≠ .newView m) → A label := fun _ h h' => ⟨h, h'⟩
  obtain ⟨s, hsteps, hs⟩ := initNode_steps (A := A) (hA _ rfl (by simp)) (hA _ rfl (by simp)) (hA _ rfl (by simp))
    (hA _ rfl (by simp)) (fun _ _ => hA _ rfl (by simp)) hinit
  have hI : I s := by
    refine Labelled.Steps.preserves (I := I) (fun label u v hl hp hu => ?_) hsteps ⟨⟨rfl, rfl, rfl⟩, by simp⟩
    obtain ⟨hcache, -, hcommitted, hprepared⟩ := hp.tables_same hl.1
    refine ⟨by rw [hcache, hcommitted, hprepared]; exact hu.1, fun dst m data hmem => ?_⟩
    obtain ⟨k, hk, hemits⟩ := hp.log
    rw [hk] at hmem
    rcases List.mem_append.1 hmem with hmem | hmem
    · exact hu.2 dst m data hmem
    · obtain ⟨-, m₀, rfl, -⟩ := (hemits _ hmem).sends_newView
      exact hl.2 m₀ rfl
  have hleads : ∀ u : Node, I u → u.cfg.infoLog = infoLog → Leads infoLog u := by
    rintro u ⟨⟨hcache, hcommitted, hprepared⟩, hsent⟩ hinfo
    refine ⟨hinfo, fun v _ => .empty (fun m hm => ?_) ?_ ?_, fun l₁ l₂ dst m data heq _ _ => absurd ?_ (hsent dst m data)⟩
    · obtain ⟨k, i, hk, -⟩ := hm
      rw [hcache] at hk
      cases hk
    · rw [hcommitted, OrdMap.find?_empty]
    · rw [hprepared, OrdMap.find?_empty]
    · rw [heq]
      exact List.mem_append_right _ List.mem_cons_self
  rcases hs with rfl | ⟨last, -, rfl⟩ <;> exact hleads _ ⟨hI.1, hI.2⟩ rfl

/-- Over every run of a node, with any log level: a new view that is made while no view change of its view was dropped
and the tables were not cleared over one is complete, if the view changes are regular. -/
theorem newView_complete {E : Env} {keyPair : KeyPair} {l : LedgerConfig} {state : List PBFTProposal} {s₀ s : Node}
    {infoLog : Bool} {trace : List (Node × Event)} (hinit : initNode E keyPair l state = some s₀)
    (hrun : Trail (step E) (s₀.setCfg { s₀.cfg with infoLog := infoLog }) trace s) : NewViewsComplete infoLog s.log := by
  suffices h : Leads infoLog s from h.sent
  induction hrun with
  | nil => exact initNode_leads hinit infoLog
  | snoc _ hs ih => exact ih.steps (step_steps hs)

def toyPreparedTwo : PBFTMessage :=
  let hash := Toy.checksum [2, 7]
  let p : PBFTProposal := { proposal := { index := 2, hash := hash.val }, nodeList := [0, 1, 2]
                            signatureList := [0, 1, 2].map (fun b => b :: hash.val) }
  (populatePrePrepare .PrePreparePacket p 0 0 0 0).encodeHashFields Toy.env

def toyReport (sender : UInt8) (prepared : List PBFTMessage) : List Event :=
  let hash := (Toy.checksum [1]).val
  let m : ViewChangeMsg :=
    { base := { index := 1, hash := hash, view := 1, generatedFrom := sender.toNat.toUInt64 }
      committedProposal := { proposal := { index := 1, hash := hash } }, preparedProposals := prepared }
  Toy.atOnce [.receive [sender] (PBFTCodec.encode Toy.env (Toy.keyPair sender) 0 (.viewChange m)).1 [], .worker]

/-- Node 3 commits block 1 between view changes for view 1, which it leads after that block. -/
def toyLeadView (before after : List Event) : List Event :=
  .timeout :: before ++ .finalized
    { blockNumber := 1, hash := Toy.checksum [1], consensusNodeList := Toy.nodes [1, 1, 1, 1] } :: after

def freshNewView (log : List Action) (n : Nat) : Bool :=
  match log[n]? with
  | some (.send _ (.newView m) _) => m.Regular true ∧ m.prepared ≠ [] ∧ m.view ∉ staleViews (log.take n)
  | _ => false

theorem freshNewView_spec {log : List Action} {n : Nat} (h : freshNewView log n = true) :
    ∃ l₁ l₂ dst m data, log = l₁ ++ .send dst (.newView m) data :: l₂ ∧ m.Regular true ∧ m.prepared ≠ [] ∧
      m.view ∉ staleViews l₁ := by
  unfold freshNewView at h
  split at h
  · rename_i dst m data hn
    obtain ⟨hlt, hget⟩ := List.getElem?_eq_some_iff.1 hn
    refine ⟨log.take n, log.drop (n + 1), dst, m, data, ?_, by simpa using h⟩
    rw [← hget, List.getElem_cons_drop, List.take_append_drop]
  · cases h

theorem toyLeadView_complete : ∃ trace s dst m data,
    Trail.states (step Toy.env) ((Toy.node 3 [1, 1, 1, 1]).setCfg { (Toy.node 3 [1, 1, 1, 1]).cfg with infoLog := true })
      (toyLeadView [] (toyReport 0 [toyPreparedTwo] ++ toyReport 1 [] ++ toyReport 2 [])) = some (trace, s) ∧
    Action.send dst (.newView m) data ∈ s.log ∧ m.prepared ≠ [] ∧ m.Complete := by
  have hinit : initNode Toy.env (Toy.keyPair 3)
      { blockNumber := 0, hash := zeroHash, consensusNodeList := Toy.nodes [1, 1, 1, 1] } [] =
        some (Toy.node 3 [1, 1, 1, 1]) := by decide +kernel
  have hrun : ((Trail.states (step Toy.env)
      ((Toy.node 3 [1, 1, 1, 1]).setCfg { (Toy.node 3 [1, 1, 1, 1]).cfg with infoLog := true })
      (toyLeadView [] (toyReport 0 [toyPreparedTwo] ++ toyReport 1 [] ++ toyReport 2 []))).elim false fun r =>
        (List.range r.2.log.length).any (freshNewView r.2.log)) = true := by
    decide +kernel
  obtain ⟨⟨trace, s⟩, hs, hcheck⟩ := Toy.exists_of_elim hrun
  obtain ⟨n, -, hn⟩ := List.any_eq_true.1 hcheck
  obtain ⟨l₁, l₂, dst, m, data, heq, hregular, hprepared, hstale⟩ := freshNewView_spec hn
  refine ⟨trace, s, dst, m, data, hs, ?_, hprepared, ?_⟩
  · dsimp only at heq
    rw [heq]
    exact List.mem_append_right _ List.mem_cons_self
  · exact newView_complete hinit (.of_states hs) l₁ l₂ dst m data heq hstale hregular

def coversNothing : Action → Bool
  | .send _ (.newView m) _ => m.Regular true && m.prePrepareList.isEmpty &&
      m.viewChangeMsgList.all (fun vc => vc.committedProposal.index < 2) && m.prepared.any (fun q => 2 ≤ q.index)
  | _ => false

/-- When the block is committed after the first view change, the tables forget its prepared proposal, and the new view
of the three view changes covers nothing. -/
theorem toyLeadView_incomplete : ∃ trace s dst m data,
    Trail.states (step Toy.env) (Toy.node 3 [1, 1, 1, 1])
      (toyLeadView (toyReport 0 [toyPreparedTwo]) (toyReport 1 [] ++ toyReport 2 [])) = some (trace, s) ∧
    Action.send dst (.newView m) data ∈ s.log ∧ m.Regular true ∧ ¬m.Complete := by
  have hrun : ((Trail.states (step Toy.env) (Toy.node 3 [1, 1, 1, 1])
      (toyLeadView (toyReport 0 [toyPreparedTwo]) (toyReport 1 [] ++ toyReport 2 []))).elim false fun r =>
        r.2.log.any coversNothing) = true := by
    decide +kernel
  obtain ⟨⟨trace, s⟩, hs, hcheck⟩ := Toy.exists_of_elim hrun
  obtain ⟨a, ha, hcheck⟩ := List.any_eq_true.1 hcheck
  unfold coversNothing at hcheck
  split at hcheck
  · rename_i dst m data
    simp only [Bool.and_eq_true, decide_eq_true_eq, List.isEmpty_iff, List.all_eq_true, List.any_eq_true] at hcheck
    obtain ⟨⟨⟨hregular, hlist⟩, hcommitted⟩, q, hq, hindex⟩ := hcheck
    refine ⟨trace, s, dst, m, data, hs, ha, hregular, fun h => ?_⟩
    have hmem := (h.covers 2).2 ⟨hcommitted, q, hq, hindex⟩
    rw [hlist] at hmem
    cases hmem
  · cases hcheck

end BcosPbft
