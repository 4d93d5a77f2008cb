import BcosPbft.Proofs.Pipeline

/-! Stable checkpoints on their way to the ledger. They wait in a queue ordered by index and leave it when the block
below them is committed; an index comes back only when it is executed again after its cache was erased. -/

namespace BcosPbft

/-- A checkpoint of this index waits for the ledger, or was handed to it in a write that did not fail. `failed` are the
positions of the failed writes among the submissions. -/
def Node.Sent (failed : ℕ → Prop) (s : Node) (i : Int) : Prop :=
  (∃ p ∈ s.stableCheckPointQueue, p.index = i) ∨ ∃ x ∈ s.submitted.zipIdx, x.1.index = i ∧ ¬failed x.2

instance (failed : ℕ → Prop) [DecidablePred failed] (s : Node) (i : Int) : Decidable (s.Sent failed i) :=
  inferInstanceAs (Decidable (_ ∨ _))

/-- The cache of this index has no checkpoint to hand out. -/
def Node.Spent (s : Node) (i : Int) : Prop :=
  ∀ c, s.caches.find? i = some c → c.stableCommitted = true ∨ c.checkpointProposal = none

structure Queued (failed : ℕ → Prop) (x : List PBFTProposal) (s : Node) : Prop where
  sorted : s.stableCheckPointQueue.Pairwise (fun p q => p.index < q.index)
  fresh : ∀ p ∈ s.stableCheckPointQueue, ∀ y ∈ s.submitted.zipIdx, y.1.index = p.index → failed y.2
  above : ∀ p ∈ x, s.cfg.committedIndex < p.index
  distinct : x.Pairwise (fun p q => p.index ≠ q.index)
  unsent : ∀ p ∈ x, ¬s.Sent failed p.index
  bounded : ∀ p ∈ s.submitted, p.index ≤ s.cfg.committedIndex + 1
  once : ∀ y ∈ s.submitted.zipIdx, ∀ z ∈ s.submitted.zipIdx, y.2 < z.2 → y.1.index = z.1.index → failed y.2
  spent : ∀ i, s.cfg.committedIndex < i → (s.Sent failed i ∨ ∃ p ∈ x, p.index = i) → s.Spent i

structure Lined (failed : ℕ → Prop) (x : List PBFTProposal) (s : Node) : Prop extends Queued failed x s where
  waiting : ∀ p ∈ s.stableCheckPointQueue, s.cfg.committedIndex + 1 < p.index

section

variable {failed : ℕ → Prop} {x : List PBFTProposal} {s t : Node}

theorem Node.Sent.congr {i : Int} (hqueue : t.stableCheckPointQueue = s.stableCheckPointQueue)
    (hsubmitted : t.submitted = s.submitted) : t.Sent failed i ↔ s.Sent failed i := by
  rw [Node.Sent, hqueue, hsubmitted, ← Node.Sent]

theorem Queued.mono (hqueue : t.stableCheckPointQueue = s.stableCheckPointQueue) (hsubmitted : t.submitted = s.submitted)
    (hcommitted : t.cfg.committedIndex = s.cfg.committedIndex) (hspent : ∀ i, s.Spent i → t.Spent i)
    (hs : Queued failed x s) : Queued failed x t := by
  constructor
  · rw [hqueue]
    exact hs.sorted
  · rw [hqueue, hsubmitted]
    exact hs.fresh
  · rw [hcommitted]
    exact hs.above
  · exact hs.distinct
  · intro p hp hsent
    exact hs.unsent p hp ((Node.Sent.congr hqueue hsubmitted).1 hsent)
  · rw [hsubmitted, hcommitted]
    exact hs.bounded
  · rw [hsubmitted]
    exact hs.once
  · intro i hi hsent
    rw [hcommitted] at hi
    rw [Node.Sent.congr hqueue hsubmitted] at hsent
    exact hspent i (hs.spent i hi hsent)

theorem Lined.mono (hqueue : t.stableCheckPointQueue = s.stableCheckPointQueue) (hsubmitted : t.submitted = s.submitted)
    (hcommitted : t.cfg.committedIndex = s.cfg.committedIndex) (hspent : ∀ i, s.Spent i → t.Spent i)
    (hs : Lined failed x s) : Lined failed x t := by
  refine ⟨hs.toQueued.mono hqueue hsubmitted hcommitted hspent, ?_⟩
  rw [hqueue, hcommitted]
  exact hs.waiting

theorem mem_zipIdx_submit {l : List PBFTProposal} {p : PBFTProposal} {y : PBFTProposal × ℕ} (h : y ∈ (l ++ [p]).zipIdx) :
    y ∈ l.zipIdx ∧ y.2 < l.length ∨ y = (p, l.length) := by
  rw [List.zipIdx_append, List.mem_append] at h
  rcases h with h | h
  · exact Or.inl ⟨h, by simpa using List.snd_lt_of_mem_zipIdx h⟩
  · right
    simpa using h

theorem Queued.drop (hqueue : t.stableCheckPointQueue.Sublist s.stableCheckPointQueue)
    (hsubmitted : t.submitted = s.submitted) (hcommitted : t.cfg.committedIndex = s.cfg.committedIndex)
    (hspent : ∀ i, s.Spent i → t.Spent i) (hs : Queued failed x s) : Queued failed x t := by
  have hsent : ∀ i, t.Sent failed i → s.Sent failed i := by
    rintro i (⟨p, hp, hi⟩ | hsent)
    · exact Or.inl ⟨p, hqueue.subset hp, hi⟩
    · rw [hsubmitted] at hsent
      exact Or.inr hsent
  refine ⟨hs.sorted.sublist hqueue, fun p hp => ?_, ?_, hs.distinct, fun p hp hin => hs.unsent p hp (hsent _ hin), ?_, ?_,
    fun i hi hin => ?_⟩
  · rw [hsubmitted]
    exact hs.fresh p (hqueue.subset hp)
  · rw [hcommitted]
    exact hs.above
  · rw [hsubmitted, hcommitted]
    exact hs.bounded
  · rw [hsubmitted]
    exact hs.once
  · rw [hcommitted] at hi
    exact hspent i (hs.spent i hi (hin.imp_left (hsent i)))

theorem Queued.submit {p : PBFTProposal} (hqueue : s.stableCheckPointQueue = p :: t.stableCheckPointQueue)
    (hsubmitted : t.submitted = s.submitted ++ [p]) (hcommitted : t.cfg.committedIndex = s.cfg.committedIndex)
    (hcaches : t.caches = s.caches) (hindex : p.index = s.cfg.committedIndex + 1) (hs : Queued failed x s) :
    Queued failed x t := by
  have hfront : p ∈ s.stableCheckPointQueue := by
    rw [hqueue]
    exact List.mem_cons_self
  have hsub : ∀ q ∈ t.stableCheckPointQueue, q ∈ s.stableCheckPointQueue := by
    intro q hq
    rw [hqueue]
    exact List.mem_cons_of_mem p hq
  have hsorted := hs.sorted
  rw [hqueue, List.pairwise_cons] at hsorted
  have hsent : ∀ i, t.Sent failed i → s.Sent failed i := by
    rintro i (⟨q, hq, hi⟩ | ⟨y, hy, hi, hlive⟩)
    · exact Or.inl ⟨q, hsub q hq, hi⟩
    · rw [hsubmitted] at hy
      rcases mem_zipIdx_submit hy with ⟨hy, -⟩ | rfl
      · exact Or.inr ⟨y, hy, hi, hlive⟩
      · exact Or.inl ⟨p, hfront, hi⟩
  refine ⟨hsorted.2, fun q hq y hy hi => ?_, ?_, hs.distinct, fun q hq hin => hs.unsent q hq (hsent _ hin), ?_, ?_,
    fun i hi hin => ?_⟩
  · rw [hsubmitted] at hy
    rcases mem_zipIdx_submit hy with ⟨hy, -⟩ | rfl
    · exact hs.fresh q (hsub q hq) y hy hi
    · exact absurd hi (hsorted.1 q hq).ne
  · rw [hcommitted]
    exact hs.above
  · rw [hsubmitted, hcommitted]
    intro q hq
    rcases List.mem_append.1 hq with hq | hq
    · exact hs.bounded q hq
    · rw [List.mem_singleton.1 hq]
      exact hindex.le
  · rw [hsubmitted]
    intro y hy z hz hlt heq
    rcases mem_zipIdx_submit hz with ⟨hz, hlen⟩ | rfl
    · rcases mem_zipIdx_submit hy with ⟨hy, -⟩ | rfl
      · exact hs.once y hy z hz hlt heq
      · exact absurd hlt (not_lt.2 hlen.le)
    · rcases mem_zipIdx_submit hy with ⟨hy, -⟩ | rfl
      · exact hs.fresh p hfront y hy heq
      · exact absurd hlt (lt_irrefl _)
  · rw [hcommitted] at hi
    intro c hc
    rw [hcaches] at hc
    exact hs.spent i hi (hin.imp_left (hsent i)) c hc

theorem lt_of_mem_dropWhile {q : List PBFTProposal} {i : Int} (hq : q.Pairwise (fun a b => a.index < b.index)) :
    ∀ p ∈ q.dropWhile (fun p => p.index ≤ i), i < p.index := by
  induction q with
  | nil => simp
  | cons a q ih =>
    obtain ⟨ha, hq⟩ := List.pairwise_cons.1 hq
    rw [List.dropWhile_cons]
    split_ifs with hold
    · exact ih hq
    · have hai : i < a.index := by simpa using hold
      intro p hp
      rcases List.mem_cons.1 hp with rfl | hp
      · exact hai
      · exact hai.trans (ha p hp)

/-- Checkpoints leave the queue when they are old, and the next one goes to the ledger. -/
theorem Queued.tryToCommit (hs : Queued failed x s) : Lined failed x s.tryToCommitStableCheckPoint := by
  unfold Node.tryToCommitStableCheckPoint
  extract_lets expired rest list u
  have hrest : ∀ p ∈ rest, s.cfg.committedIndex < p.index := lt_of_mem_dropWhile hs.sorted
  have hu : Queued failed x u := hs.drop (List.dropWhile_sublist _) rfl rfl (fun _ h => h)
  have hcommitted : u.cfg.committedIndex = s.cfg.committedIndex := rfl
  change ∀ p ∈ u.stableCheckPointQueue, _ at hrest
  rw [← hcommitted] at hrest
  clear_value u
  split
  · rename_i hq
    refine ⟨hu, fun p hp => ?_⟩
    rw [hq] at hp
    cases hp
  · rename_i p rest' hq
    have hfront := hrest p (by rw [hq]; exact List.mem_cons_self)
    have hsorted := hu.sorted
    rw [hq, List.pairwise_cons] at hsorted
    split_ifs with hindex
    · refine ⟨hu, fun q hmem => ?_⟩
      rw [hq] at hmem
      rcases List.mem_cons.1 hmem with rfl | hmem
      · omega
      · have hlater := hsorted.1 q hmem
        omega
    · rw [not_not] at hindex
      refine ⟨hu.submit (p := p) hq ?_ rfl rfl hindex, fun q hmem => ?_⟩
      · unfold Node.submitted Node.emit
        rw [List.filterMap_append]
        rfl
      · have hlater := hsorted.1 q hmem
        change u.cfg.committedIndex + 1 < q.index
        omega

theorem mem_pushQueue_iff {q : List PBFTProposal} {p r : PBFTProposal} : r ∈ Node.pushQueue q p ↔ r = p ∨ r ∈ q := by
  unfold Node.pushQueue
  rw [List.mem_orderedInsert]

theorem pushQueue_sorted {q : List PBFTProposal} {p : PBFTProposal}
    (hq : q.Pairwise (fun a b => a.index < b.index)) (hp : ∀ a ∈ q, a.index ≠ p.index) :
    (Node.pushQueue q p).Pairwise (fun a b => a.index < b.index) := by
  induction q with
  | nil => simp [Node.pushQueue]
  | cons a q ih =>
    obtain ⟨ha, hq'⟩ := List.pairwise_cons.1 hq
    have hne := hp a List.mem_cons_self
    unfold Node.pushQueue at ih ⊢
    rw [List.orderedInsert_cons]
    split_ifs with hlt
    · refine List.pairwise_cons.2 ⟨fun b hb => ?_, hq⟩
      rcases List.mem_cons.1 hb with rfl | hb
      · exact hlt
      · exact hlt.trans (ha b hb)
    · refine List.pairwise_cons.2 ⟨fun b hb => ?_, ih hq' (fun b hb => hp b (List.mem_cons_of_mem a hb))⟩
      rcases (List.mem_orderedInsert _).1 hb with rfl | hb
      · omega
      · exact ha b hb

theorem Lined.updateStableCheckPointQueue {p : PBFTProposal} (hs : Lined failed (p :: x) s) :
    Lined failed x (s.updateStableCheckPointQueue p) := by
  have hunsent := hs.unsent p List.mem_cons_self
  have hsent : ∀ i, { s with stableCheckPointQueue := Node.pushQueue s.stableCheckPointQueue p }.Sent failed i →
      s.Sent failed i ∨ p.index = i := by
    rintro i (⟨q, hq, hi⟩ | hsent)
    · rcases mem_pushQueue_iff.1 hq with rfl | hq
      · exact Or.inr hi
      · exact Or.inl (Or.inl ⟨q, hq, hi⟩)
    · exact Or.inl (Or.inr hsent)
  obtain ⟨hapart, hdistinct⟩ := List.pairwise_cons.1 hs.distinct
  refine Queued.tryToCommit ⟨?_, ?_, ?_, hdistinct, ?_, hs.bounded, hs.once, ?_⟩
  · exact pushQueue_sorted hs.sorted fun a ha heq => hunsent (Or.inl ⟨a, ha, heq⟩)
  · intro q hq y hy hi
    rcases mem_pushQueue_iff.1 hq with rfl | hq
    · by_contra hlive
      exact hunsent (Or.inr ⟨y, hy, hi, hlive⟩)
    · exact hs.fresh q hq y hy hi
  · intro q hq
    exact hs.above q (List.mem_cons_of_mem p hq)
  · intro q hq hin
    rcases hsent _ hin with hin | heq
    · exact hs.unsent q (List.mem_cons_of_mem p hq) hin
    · exact hapart q hq heq
  · intro i hi hin
    refine hs.spent i hi ?_
    rcases hin with hin | ⟨q, hq, heq⟩
    · rcases hsent i hin with hin | heq
      · exact Or.inl hin
      · exact Or.inr ⟨p, List.mem_cons_self, heq⟩
    · exact Or.inr ⟨q, List.mem_cons_of_mem p hq, heq⟩

theorem Lined.pushAll (hs : Lined failed x s) : Lined failed [] (x.foldl Node.updateStableCheckPointQueue s) := by
  induction x generalizing s with
  | nil => exact hs
  | cons p x ih => exact ih hs.updateStableCheckPointQueue

theorem Node.spent_insert {i : Int} {c : PBFTCache} (hc : c.stableCommitted = true ∨ c.checkpointProposal = none) {j : Int}
    (hj : j ≠ i → s.Spent j) : { s with caches := s.caches.insert i c }.Spent j := by
  intro d hd
  change (s.caches.insert i c).find? j = some d at hd
  rw [OrdMap.find?_insert] at hd
  split_ifs at hd with heq
  · rwa [← Option.some.inj hd]
  · exact hj heq d hd

/-- A cache is looked at: its checkpoint becomes stable and is to be pushed, or everything stays. -/
theorem Lined.checkStableAt {acc : Node × List PBFTProposal} (hfiled : Filed acc.1) (hs : Lined failed acc.2 acc.1)
    (i : Int) : Lined failed (Node.checkStableAt acc i).2 (Node.checkStableAt acc i).1 := by
  unfold Node.checkStableAt
  split
  · exact hs
  rename_i c hc
  rcases c.checkAndCommitStableCheckPoint_cases acc.1.cfg with heq | ⟨p, w, hp, hstable, -, -, heq⟩
  · rw [heq]
    dsimp only
    rw [if_neg Bool.false_ne_true]
    refine Lined.mono (s := acc.1) rfl rfl rfl (fun j hj => ?_) hs
    by_cases hji : j = i
    · subst hji
      exact Node.spent_insert (hj c hc) (fun hne => absurd rfl hne)
    · intro d hd
      change (acc.1.caches.insert i c).find? j = some d at hd
      rw [OrdMap.find?_insert_ne _ _ hji] at hd
      exact hj d hd
  · rw [heq]
    have hindex : (PBFTCache.setSignatureList p c.checkpointCacheList).index = i := by
      rw [PBFTProposal.index, setSignatureList_proposal]
      exact hfiled.checkpoint i c p hc hp
    -- the cache still had its checkpoint to hand out
    have hunsent : acc.1.cfg.committedIndex < i → ¬(acc.1.Sent failed i ∨ ∃ q ∈ acc.2, q.index = i) := by
      intro hi hsent
      rcases hs.spent i hi hsent c hc with hst | hnone
      · rw [hst] at hstable
        cases hstable
      · rw [hp] at hnone
        cases hnone
    generalize PBFTCache.setSignatureList p c.checkpointCacheList = p' at hindex
    dsimp only
    split_ifs with hret
    · have hi : acc.1.cfg.committedIndex < p'.index := by simpa using hret
      rw [Option.toList_some]
      refine ⟨⟨hs.sorted, hs.fresh, fun q hq => ?_, ?_, fun q hq hin => ?_, hs.bounded, hs.once, fun j hj hin => ?_⟩,
        hs.waiting⟩
      · rcases List.mem_append.1 hq with hq | hq
        · exact hs.above q hq
        · rw [List.mem_singleton.1 hq]
          exact hi
      · refine List.pairwise_append.2 ⟨hs.distinct, List.pairwise_singleton _ _, fun q hq r hr heq' => ?_⟩
        rw [List.mem_singleton.1 hr, hindex] at heq'
        exact hunsent (hindex ▸ hi) (Or.inr ⟨q, hq, heq'⟩)
      · rcases List.mem_append.1 hq with hq | hq
        · exact hs.unsent q hq hin
        · rw [List.mem_singleton.1 hq, hindex] at hin
          exact hunsent (hindex ▸ hi) (Or.inl hin)
      · refine Node.spent_insert (Or.inl rfl) (fun hne => ?_)
        rcases hin with hin | ⟨q, hq, hqj⟩
        · exact hs.spent j hj (Or.inl hin)
        · rcases List.mem_append.1 hq with hq | hq
          · exact hs.spent j hj (Or.inr ⟨q, hq, hqj⟩)
          · rw [List.mem_singleton.1 hq, hindex] at hqj
            exact absurd hqj.symm hne
    · exact Lined.mono (s := acc.1) rfl rfl rfl (fun j hj => Node.spent_insert (Or.inl rfl) (fun _ => hj)) hs

theorem Lined.checkAndCommitStableCheckPoint (E : Env) (hfiled : Filed s) (hs : Lined failed [] s) :
    Lined failed [] s.checkAndCommitStableCheckPoint := by
  unfold Node.checkAndCommitStableCheckPoint
  have hfold : ∀ (l : List Int) (acc : Node × List PBFTProposal), Filed acc.1 → Lined failed acc.2 acc.1 →
      Lined failed (l.foldl Node.checkStableAt acc).2 (l.foldl Node.checkStableAt acc).1 := by
    intro l
    induction l with
    | nil => exact fun _ _ hacc => hacc
    | cons i l ih =>
      intro acc hf hacc
      exact ih _ ((Prim.stable (E := E) acc.1 acc.2 i).filed hf) (hacc.checkStableAt hf i)
  exact (hfold s.caches.keys (s, []) hfiled hs).pushAll

def Label.lined : Label → Bool
  | .setCheckPoint _ | .stable | .pushStable _ | .popStable | .ledger _ => false
  | _ => true

theorem Label.lined_wide : Wide (fun l => l.lined = true) := by
  intro l hl
  cases l <;> first | rfl | cases hl

theorem CacheStep.checkpoint_same {E : Env} {cfg : Config} {now : Int} {l : Label} {i : Int} {c c' : PBFTCache}
    (h : CacheStep E cfg now l i c c') (hl : l.lined = true) :
    c'.stableCommitted = c.stableCommitted ∧ c'.checkpointProposal = c.checkpointProposal := by
  have hsubmit : ∀ d : PBFTCache, (d.checkAndCommit cfg).1.stableCommitted = d.stableCommitted ∧
      (d.checkAndCommit cfg).1.checkpointProposal = d.checkpointProposal := by
    intro d
    rcases d.checkAndCommit_cases cfg with heq | ⟨heq, -⟩
    · rw [heq]
      exact ⟨rfl, rfl⟩
    · rw [heq]
      exact ⟨rfl, rfl⟩
  cases h with
  | preCommit =>
    rcases c.checkAndPreCommit_cases E cfg now with heq | ⟨m, p, -, -, -, -, -, heq⟩
    · rw [heq]
      exact ⟨rfl, rfl⟩
    · rw [heq]
      exact hsubmit (c.enterPrecommit E cfg now m p)
  | submit => exact hsubmit c
  | stable => cases hl
  | setCheckPoint => cases hl
  | _ => exact ⟨rfl, rfl⟩

theorem Prim.spent {E : Env} {l : Label} (h : Prim E l s t) (hl : l.lined = true) {i : Int} (hs : s.Spent i) : t.Spent i := by
  intro c hc
  obtain ⟨hstable, hcheckpoint⟩ := (h.cacheStep hc).checkpoint_same hl
  rw [hstable, hcheckpoint]
  cases hold : s.caches.find? i with
  | none => exact Or.inr rfl
  | some d => exact hs d hold

theorem Prim.stableCheckPointQueue_same {E : Env} {l : Label} (h : Prim E l s t) (hl : l.lined = true) :
    t.stableCheckPointQueue = s.stableCheckPointQueue := by
  by_cases hcaching : l.caching = true
  · obtain ⟨x, hx⟩ := h.caching hcaching
    exact congrArg Core.stableCheckPointQueue hx
  · cases h with
    | quiet h => exact congrArg Core.stableCheckPointQueue h.core
    | @viewChange _ own m hown hsig =>
      obtain ⟨a, b, c, d, hx⟩ := s.addViewChangeReq_core m
      exact congrArg Core.stableCheckPointQueue hx
    | newView h =>
      obtain ⟨w, list, -, -, -, -, rfl⟩ := s.checkAndTryIntoNewView_some h
      rfl
    | @apply _ p lastApplied rest hq hindex hlast hx =>
      exact congrArg Core.stableCheckPointQueue ((s.takeProposal p rest).applyStateMachine_core lastApplied p)
    | executed _ i error =>
      obtain ⟨a, b, hx⟩ := s.onExecuted_core E i error
      exact congrArg Core.stableCheckPointQueue hx
    | _ => first | exact absurd rfl hcaching | rfl | cases hl

theorem Prim.mem_stableCheckPointQueue {E : Env} {l : Label} {s t : Node} (h : Prim E l s t) {p : PBFTProposal}
    (hp : p ∈ t.stableCheckPointQueue) : p ∈ s.stableCheckPointQueue ∨ l = .pushStable p := by
  by_cases hl : l.lined = true
  · rw [h.stableCheckPointQueue_same hl] at hp
    exact Or.inl hp
  · cases h with
    | pushStable =>
      rcases mem_pushQueue_iff.1 hp with rfl | hp
      · exact Or.inr rfl
      · exact Or.inl hp
    | popStable _ hq => exact Or.inl (hq p hp)
    | stable _ acc i =>
      left
      unfold Node.checkStableAt at hp
      split at hp <;> exact hp
    | setCheckPoint => exact Or.inl hp
    | ledger => exact Or.inl hp
    | _ => exact absurd rfl hl

theorem Prim.committedIndex_same {E : Env} {l : Label} (h : Prim E l s t) (hl : l.lined = true) :
    t.cfg.committedIndex = s.cfg.committedIndex := by
  refine h.cfgStep.committedIndex_eq (fun b heq => ?_)
  rw [heq] at hl
  cases hl

theorem Prim.submitted_same {E : Env} {l : Label} (h : Prim E l s t) (hl : l.lined = true) : t.submitted = s.submitted := by
  refine h.submitted (fun heq => ?_)
  rw [heq] at hl
  cases hl

theorem Queued.steps {E : Env} (h : Steps E (fun l => l.lined = true) s t) (hs : Queued failed x s) : Queued failed x t :=
  Labelled.Steps.preserves (I := Queued failed x) (fun _ _ _ hl hp hu =>
    hu.mono (hp.stableCheckPointQueue_same hl) (hp.submitted_same hl) (hp.committedIndex_same hl) (fun _ => hp.spent hl)) h hs

theorem Lined.steps {E : Env} (h : Steps E (fun l => l.lined = true) s t) (hs : Lined failed x s) : Lined failed x t :=
  Labelled.Steps.preserves (I := Lined failed x) (fun _ _ _ hl hp hu =>
    hu.mono (hp.stableCheckPointQueue_same hl) (hp.submitted_same hl) (hp.committedIndex_same hl) (fun _ => hp.spent hl)) h hs

theorem Lined.clear (hqueue : t.stableCheckPointQueue = []) (hsubmitted : t.submitted = s.submitted)
    (hcommitted : t.cfg.committedIndex = s.cfg.committedIndex) (hcaches : t.caches = s.caches) (hs : Lined failed x s) :
    Lined failed x t := by
  refine ⟨hs.toQueued.drop (by rw [hqueue]; exact List.nil_sublist _) hsubmitted hcommitted (fun i hi c hc => ?_), ?_⟩
  · rw [hcaches] at hc
    exact hi c hc
  · rw [hqueue]
    intro p hp
    cases hp

theorem Lined.removeFutureProposals (E : Env) (hs : Lined failed [] s) : Lined failed [] (s.removeFutureProposals E) := by
  unfold Node.removeFutureProposals
  have hwide := Label.lined_wide.isOpen
  have hexpect : Lined failed [] (s.setCfg (s.cfg.setExpectedCheckPoint (s.cfg.committedIndex + 1))) :=
    hs.steps (E := E) (.single rfl (.expect s (Or.inl (le_refl _))))
  have hreset := hexpect.steps (E := E) ((Node.resetQueuedTxs_quiet (E := E) _).steps hwide)
  have hclear : ∀ u : Node, Lined failed [] u → Lined failed [] u.clearQueues :=
    fun u hu => Lined.clear (s := u) rfl rfl rfl rfl hu
  exact Lined.steps (E := E) (.foldl (fun s e => Node.eraseFutureCache_steps s hwide rfl e) _ _) (hclear _ hreset)

/-- A committed block lets the checkpoint above it go. -/
theorem Lined.finalizeConsensus {E : Env} {b : LedgerConfig} {synced : Bool} (hb : 0 ≤ b.blockNumber)
    (h : s.finalizeConsensus E b synced = some t) (hs : Lined failed [] s) : Lined failed [] t := by
  obtain ⟨u, v, w, hu, hsame, hw, rfl⟩ := Node.finalizeConsensus_results h
  have hcommit : Queued failed [] u := by
    rcases hu with ⟨-, rfl⟩ | ⟨hnew, rfl⟩
    · exact hs.toQueued
    · have hle : s.cfg.committedIndex ≤ b.blockNumber := by omega
      refine ⟨hs.sorted, hs.fresh, fun p hp => absurd hp List.not_mem_nil, hs.distinct,
        fun p hp => absurd hp List.not_mem_nil, fun p hp => ?_, hs.once, fun i hi hin => ?_⟩
      · have hold := hs.bounded p hp
        change p.index ≤ b.blockNumber + 1
        omega
      · change b.blockNumber < i at hi
        exact hs.spent i (by omega) hin
  have hqueued : Queued failed [] v := by
    refine hcommit.mono hsame.stableCheckPointQueue hsame.submitted hsame.committedIndex (fun i hi c hc => ?_)
    rw [hsame.caches] at hc
    exact hi c hc
  have hremove := hqueued.steps (E := E)
    (v.removeConsensusedCache_steps (A := fun l => l.lined = true) rfl rfl rfl v.cfg.view b.blockNumber)
  have hw' : Lined failed [] w := hremove.tryToCommit.steps (Node.resetTimer_steps _ Label.lined_wide rfl hw)
  split_ifs
  · exact hw'.removeFutureProposals E
  · exact hw'

/-- The result that the worker records is not that of an index whose checkpoint was sent, unless the cache still says so. -/
def Event.Submits (failed : ℕ → Prop) (s : Node) : Event → Prop
  | .finalized l | .newBlock l => 0 ≤ l.blockNumber
  | .proposalApplied => ∀ r ∈ s.applied.head?, r.success = true → r.announced.isSome = true →
      s.cfg.committedIndex < r.executedProposal.index →
        (s.caches.find? r.executedProposal.index).any (·.stableCommitted) = true ∨
          ¬s.Sent failed r.executedProposal.index
  | _ => True

instance (failed : ℕ → Prop) [DecidablePred failed] (s : Node) : (e : Event) → Decidable (e.Submits failed s)
  | .finalized l | .newBlock l => inferInstanceAs (Decidable (0 ≤ l.blockNumber))
  | .proposalApplied => inferInstanceAs (Decidable (∀ r ∈ s.applied.head?, _))
  | .receive .. | .gate | .worker | .timeout | .checkPointTimeout .. | .submitProposal .. | .proposalSubmitted _
  | .proposalVerified .. | .proposalLoaded .. | .lowMark _ | .executed .. | .notifyNewBlock _ | .precommitResponse ..
  | .committedResponse .. | .sealerReset .. | .sealerAnswers _ | .resetTxsFinished _ | .syncingNumber _ | .connected _
  | .clock _ => inferInstanceAs (Decidable True)

theorem Lined.setCheckPointProposal {p : PBFTProposal} (hok : s.cfg.committedIndex < p.index →
      (s.caches.find? p.index).any (·.stableCommitted) = true ∨ ¬s.Sent failed p.index) (hs : Lined failed [] s) :
    Lined failed [] (s.setCheckPointProposal p) := by
  refine ⟨⟨hs.sorted, hs.fresh, hs.above, hs.distinct, hs.unsent, hs.bounded, hs.once, fun i hi hin c hc => ?_⟩, hs.waiting⟩
  change s.cfg.committedIndex < i at hi
  have hsent : s.Sent failed i := by
    rcases hin with hin | ⟨q, hq, -⟩
    · exact hin
    · cases hq
  change (s.caches.insert p.index _).find? i = some c at hc
  rw [OrdMap.find?_insert] at hc
  split_ifs at hc with hip
  · subst hip
    obtain ⟨d, hd, hstable⟩ := (Option.any_eq_true _ _).1 ((hok hi).resolve_right (not_not.2 hsent))
    rw [hd, Option.getD_some] at hc
    obtain rfl := Option.some.inj hc
    left
    unfold PBFTCache.setCheckPointProposal
    split_ifs
    · exact hstable
    · exact hstable
    · exact hstable
  · exact hs.spent i hi hin c hc

theorem Lined.recordCheckPoint (E : Env) {r : Applied} {m : PBFTMessage} (hfiled : Filed s)
    (hok : s.cfg.committedIndex < r.executedProposal.index →
      (s.caches.find? r.executedProposal.index).any (·.stableCommitted) = true ∨ ¬s.Sent failed r.executedProposal.index)
    (hs : Lined failed [] s) : Lined failed [] (s.recordCheckPoint r m) := by
  have hvote : Prim E (.checkPoint true m) s (s.addCheckPointMsg m) := .checkPoint s (fun hown => Bool.noConfusion hown)
  have hset := Prim.setCheckPoint (E := E) (s.addCheckPointMsg m) r.executedProposal
  have hexpect := Prim.expect (E := E) _ ((s.addCheckPointMsg m).setCheckPointProposal_available r.executedProposal)
  have hvoted : Lined failed [] (s.addCheckPointMsg m) := hs.steps (E := E) (.single rfl hvote)
  have hrecorded : Lined failed [] ((s.addCheckPointMsg m).setCheckPointProposal r.executedProposal) := by
    refine hvoted.setCheckPointProposal (fun hi => ?_)
    rcases hok hi with hstable | hunsent
    · obtain ⟨c, hc, hstable⟩ := (Option.any_eq_true _ _).1 hstable
      obtain ⟨c', hc'⟩ := hvote.stays Label.noConfusion hc
      have hsame := (hvote.cacheStep hc').checkpoint_same rfl
      rw [hc, Option.getD_some] at hsame
      left
      rw [hc', Option.any_some, hsame.1]
      exact hstable
    · have hsame : (s.addCheckPointMsg m).Sent failed r.executedProposal.index ↔ s.Sent failed r.executedProposal.index :=
        Node.Sent.congr (hvote.stableCheckPointQueue_same rfl) (hvote.submitted_same rfl)
      exact Or.inr (fun hsent => hunsent (hsame.1 hsent))
  have hstable := (hrecorded.steps (E := E) (.single rfl hexpect)).checkAndCommitStableCheckPoint E
    (hexpect.filed (hset.filed (hvote.filed hfiled)))
  have happly := hstable.steps (E := E) (Node.tryToApplyCommitQueue_steps _ Label.lined_wide.isOpen)
  exact happly.steps (E := E) (.single rfl (.unmark _ r.proposal.hash))

theorem Lined.onProposalApplied (E : Env) (hfiled : Filed s) (hok : Event.proposalApplied.Submits failed s)
    (hs : Lined failed [] s) : Lined failed [] (s.onProposalApplied E) := by
  have hopen := Label.lined_wide.isOpen
  rcases s.onProposalApplied_cases E with heq | ⟨r, rest, happ, ⟨-, heq⟩ | ⟨hsucc, hann, heq⟩ | ⟨m, hsucc, hann, heq⟩⟩
  · rw [heq]
    exact hs
  · rw [heq]
    refine (hs.steps (E := E) (.single rfl (.settle s happ))).steps (E := E) ?_
    exact Node.onProposalApplyFailed_steps _ hopen rfl rfl rfl
  · rw [heq]
    exact hs.steps (E := E) (.single rfl (.announce s happ hsucc hann))
  · rw [heq]
    have hsettle := Prim.settle (E := E) s happ
    refine (hs.steps (E := E) (.single rfl hsettle)).recordCheckPoint E (hsettle.filed hfiled) ?_
    exact hok r (by rw [happ]; rfl) hsucc (by rw [hann]; rfl)

theorem Lined.handleCheckPointMsg (E : Env) (m : PBFTMessage) (hfiled : Filed s) (hs : Lined failed [] s) :
    Lined failed [] (s.handleCheckPointMsg E m).1 := by
  unfold Node.handleCheckPointMsg
  split
  · exact hs
  split
  · exact hs
  split
  · exact hs
  split
  · exact hs
  rename_i hsig hproposal
  have hopen := Label.lined_wide.isOpen
  have hvote : Prim E (.checkPoint false m) s (s.addCheckPointMsg m) :=
    .checkPoint s (fun _ => ⟨by simpa using hsig, by simpa using hproposal⟩)
  have hqueue := (s.addCheckPointMsg m).tryToApplyCommitQueue_steps (E := E) hopen
  have happly := (hs.steps (E := E) (.single rfl hvote)).steps hqueue
  have hfiled' : Filed (s.addCheckPointMsg m).tryToApplyCommitQueue.1 :=
    Labelled.Steps.preserves (I := Filed) (fun _ _ _ _ hp hu => hp.filed hu) hqueue (hvote.filed hfiled)
  have hstable := happly.checkAndCommitStableCheckPoint E hfiled'
  have hrequest := hstable.steps (E := E) ((Node.shouldRequestCheckPoint_quiet _ m).steps hopen)
  dsimp only
  split
  · refine Lined.steps (E := E) ?_ hrequest
    exact Quiet.steps hopen (.same rfl rfl)
  · exact hrequest

/-- Every event keeps the checkpoints in line. -/
theorem step_lined {E : Env} {e : Event} (hok : e.Submits failed s) (h : step E s e = some t) (hfiled : Filed s)
    (hs : Lined failed [] s) : Lined failed [] t := by
  by_cases hledger : e.ledger
  · obtain ⟨b, rfl | rfl⟩ := hledger
    · exact hs.finalizeConsensus hok h
    · rcases s.finalizeNewBlock_cases h with rfl | ⟨-, h⟩
      · exact hs
      have hpopped : Lined failed [] { s with newBlocks := s.newBlocks.erase b } :=
        Lined.mono (s := s) rfl rfl rfl (fun _ h => h) hs
      exact hpopped.finalizeConsensus hok h
  by_cases hsettle : e = .proposalApplied
  · subst hsettle
    obtain rfl := Option.some.inj h
    exact hs.onProposalApplied E hfiled hok
  by_cases hcheck : ∃ m, e.handles s (.pbft m) ∧ m.packetType = .CheckPoint
  · obtain ⟨m, ⟨rfl, -, rest, hq⟩, htype⟩ := hcheck
    rcases s.handleAdmitted_cases h with rfl | ⟨-, msg, rest', hq', h⟩
    · exact hs
    · obtain ⟨rfl, rfl⟩ := List.cons.inj (hq'.symm.trans hq)
      unfold Node.handleMsg at h
      simp only [htype] at h
      obtain rfl := Option.some.inj h
      have hdequeue := s.admitted_steps (E := E) (A := fun l => l.lined = true) hq' rfl rfl
      have hfiled' := Labelled.Steps.preserves (I := Filed) (fun _ _ _ _ hp hu => hp.filed hu) hdequeue hfiled
      exact (hs.steps hdequeue).handleCheckPointMsg E m hfiled'
  · refine hs.steps ((step_steps h).mono (fun l hl => ?_))
    have hnone : ¬∃ r, e.settles s r := by
      rintro ⟨r, heq, -⟩
      exact hsettle heq
    cases l with
    | setCheckPoint p =>
      obtain ⟨r, hr, -⟩ := hl
      exact absurd ⟨r, hr⟩ hnone
    | stable | pushStable => exact (hl.elim hnone hcheck).elim
    | popStable => exact (hl.elim hledger (fun hl => hl.elim hnone hcheck)).elim
    | ledger b => exact (hledger ⟨b, hl⟩).elim
    | _ => rfl

end

/-- After a step: what it handed to the ledger is above the committed block, an index is handed over again only when the
write failed, and the next checkpoint does not wait. -/
structure SubmitsInOrder (failed : ℕ → Prop) (s t : Node) : Prop where
  calls : ∃ k, t.submitted = s.submitted ++ k ∧ ∀ p ∈ k, p.index = t.cfg.committedIndex + 1
  once : ∀ y ∈ t.submitted.zipIdx, ∀ z ∈ t.submitted.zipIdx, y.2 < z.2 → y.1.index = z.1.index → failed y.2
  waiting : ∀ p ∈ t.stableCheckPointQueue, p.index ≠ t.cfg.committedIndex + 1

theorem Steps.submitted {E : Env} {A : Label → Prop} {s t : Node} (h : Steps E A s t) (hA : ∀ b, ¬A (.ledger b)) :
    ∃ k, t.submitted = s.submitted ++ k ∧ ∀ p ∈ k, p.index = t.cfg.committedIndex + 1 := by
  refine Labelled.Steps.preserves
    (I := fun u => ∃ k, u.submitted = s.submitted ++ k ∧ ∀ p ∈ k, p.index = u.cfg.committedIndex + 1)
    (fun l u v hl hp hu => ?_) h ⟨[], (List.append_nil _).symm, fun p hp => absurd hp List.not_mem_nil⟩
  obtain ⟨k, hk, hindex⟩ := hu
  obtain ⟨k', hk', hemits⟩ := hp.log
  have hcommitted := hp.cfgStep.committedIndex_eq (fun b heq => hA b (heq ▸ hl))
  refine ⟨k ++ k'.filterMap Action.submission, ?_, fun p hmem => ?_⟩
  · rw [← List.append_assoc, ← hk]
    unfold Node.submitted
    rw [hk', List.filterMap_append]
  · rw [hcommitted]
    rcases List.mem_append.1 hmem with hmem | hmem
    · exact hindex p hmem
    · obtain ⟨a, ha, heq⟩ := List.mem_filterMap.1 hmem
      rw [Action.submission_eq_some.1 heq] at ha
      exact (hemits _ ha).submitted.2.2

theorem step_submitted {E : Env} {s t : Node} {e : Event} (h : step E s e = some t) :
    ∃ k, t.submitted = s.submitted ++ k ∧ ∀ p ∈ k, p.index = t.cfg.committedIndex + 1 := by
  have hfinalize : ∀ {s : Node} {b : LedgerConfig} {synced : Bool}, s.finalizeConsensus E b synced = some t →
      ∃ k, t.submitted = s.submitted ++ k ∧ ∀ p ∈ k, p.index = t.cfg.committedIndex + 1 := by
    intro s b synced h
    obtain ⟨u, v, w, hu, hsame, hw, rfl⟩ := Node.finalizeConsensus_results h
    have hwide : Wide (fun l => ∀ b, l ≠ .ledger b) := by
      rintro l hl b rfl
      cases hl
    have hsubmitted : v.submitted = s.submitted := by
      rcases hu with ⟨-, rfl⟩ | ⟨-, rfl⟩
      · exact hsame.submitted
      · exact hsame.submitted
    have hsteps := ((v.removeConsensusedCache_steps (fun b => Label.noConfusion) (hwide _ rfl)
      (hwide _ rfl) v.cfg.view b.blockNumber).trans
      (Node.tryToCommitStableCheckPoint_steps _ hwide.isOpen (fun b => Label.noConfusion))).trans
      (Node.resetTimer_steps _ hwide (fun b => Label.noConfusion) hw)
    rw [← hsubmitted]
    split_ifs
    · exact Steps.submitted (hsteps.trans (Node.removeFutureProposals_steps w hwide.isOpen (fun b => Label.noConfusion)
        (fun b => Label.noConfusion) (fun b => Label.noConfusion))) (fun b hb => hb b rfl)
    · exact Steps.submitted hsteps (fun b hb => hb b rfl)
  by_cases hledger : e.ledger
  · obtain ⟨b, rfl | rfl⟩ := hledger
    · exact hfinalize h
    · rcases s.finalizeNewBlock_cases h with rfl | ⟨-, h⟩
      · exact ⟨[], (List.append_nil _).symm, fun p hp => absurd hp List.not_mem_nil⟩
      · exact hfinalize (s := { s with newBlocks := s.newBlocks.erase b }) h
  · exact (step_steps h).submitted fun b hb => hledger ⟨b, hb⟩

theorem initNode_lined {E : Env} {failed : ℕ → Prop} {keyPair : KeyPair} {l : LedgerConfig} {state : List PBFTProposal}
    {s₀ : Node} (hinit : initNode E keyPair l state = some s₀) : Lined failed [] s₀ := by
  have hempty : ∀ u : Node, u.stableCheckPointQueue = [] → u.submitted = [] → u.caches = ∅ → Lined failed [] u := by
    intro u hqueue hsubmitted hcaches
    refine ⟨⟨?_, ?_, ?_, List.Pairwise.nil, ?_, ?_, ?_, ?_⟩, ?_⟩
    · simp [hqueue]
    · simp [hqueue]
    · simp
    · simp
    · simp [hsubmitted]
    · simp [hsubmitted]
    · intro i hi hin c hc
      rw [hcaches] at hc
      cases hc
    · simp [hqueue]
  have hstart : Lined failed [] ({ cfg := { keyPair := keyPair, timeoutState := true } } : Node) := hempty _ rfl rfl rfl
  unfold initNode at hinit
  obtain ⟨s, hs, hinit⟩ := Option.bind_eq_some_iff.1 hinit
  have hconfigured : Lined failed [] s := by
    rcases Node.resetConfig_cases (A := fun l => l.idle = true) _ rfl rfl rfl hs with ⟨-, rfl⟩ | ⟨-, hsteps⟩
    · exact hstart
    · have hsame := SameResults.of_steps hsteps
      exact hempty s hsame.stableCheckPointQueue hsame.submitted hsame.caches
  cases hlast : state.getLast? with
  | none =>
    simp only [hlast] at hinit
    obtain rfl := Option.some.inj hinit
    exact hconfigured
  | some last =>
    simp only [hlast] at hinit
    obtain rfl := Option.some.inj hinit
    have hload : Lined failed [] (s.initState E state) :=
      hconfigured.steps (s.initState_steps (E := E) (A := fun l => l.lined = true) rfl (fun _ _ _ => rfl))
    exact Lined.mono (s := s.initState E state) rfl rfl rfl (fun _ h => h) hload

theorem path_lined {E : Env} {failed : ℕ → Prop} {keyPair : KeyPair} {l : LedgerConfig} {state : List PBFTProposal}
    {s₀ s : Node}
    {trace : List (Node × Event)} (hinit : initNode E keyPair l state = some s₀) (hrun : Trail (step E) s₀ trace s)
    (hok : ∀ x ∈ trace, x.2.Submits failed x.1) : Filed s ∧ Lined failed [] s := by
  refine hrun.preserves (I := fun u => Filed u ∧ Lined failed [] u) (fun u e v hok' hstep hu => ?_) hok
    ⟨(initNode_ordered hinit).filed, initNode_lined hinit⟩
  refine ⟨?_, step_lined hok' hstep hu.1 hu.2⟩
  exact Labelled.Steps.preserves (I := Filed) (fun _ _ _ _ hp hw => hp.filed hw) (step_steps hstep) hu.1

/-- In a run whose results are recorded for indices that were not sent, checkpoints go to the ledger in order and once. -/
theorem asyncCommitStableCheckPoint_inOrder {E : Env} (failed : ℕ → Prop) {keyPair : KeyPair} {l : LedgerConfig}
    {state : List PBFTProposal} {s₀ s t : Node} {e : Event} {trace : List (Node × Event)}
    (hinit : initNode E keyPair l state = some s₀) (hrun : Trail (step E) s₀ trace s) (hstep : step E s e = some t)
    (hok : ∀ x ∈ trace ++ [(s, e)], x.2.Submits failed x.1) : SubmitsInOrder failed s t := by
  have hlined := path_lined hinit (hrun.snoc hstep) hok
  refine ⟨step_submitted hstep, hlined.2.once, fun p hp => ?_⟩
  exact (hlined.2.waiting p hp).ne'

def toyWritten : Event := .finalized { blockNumber := 1, hash := Toy.checksum [1, 7], consensusNodeList := Toy.nodes [7, 1, 1] }

/-- The checkpoint of block 2 waits until block 1 is written, and then goes to the ledger. -/
theorem toyWritten_inOrder : ∃ trace s t, Trail.states (step Toy.env) (Toy.node 0 [7, 1, 1]) toyPipeline = some (trace, s) ∧
    step Toy.env s toyWritten = some t ∧ s.stableCheckPointQueue.map PBFTProposal.index = [2] ∧
    t.submitted.map PBFTProposal.index = [1, 2] ∧ SubmitsInOrder (fun _ => False) s t := by
  have hinit : initNode Toy.env (Toy.keyPair 0)
      { blockNumber := 0, hash := zeroHash, consensusNodeList := Toy.nodes [7, 1, 1] } [] = some (Toy.node 0 [7, 1, 1]) := by
    decide +kernel
  have hrun : ((Trail.states (step Toy.env) (Toy.node 0 [7, 1, 1]) toyPipeline).elim false fun r =>
      (step Toy.env r.2 toyWritten).elim false fun t =>
        (decide (r.2.stableCheckPointQueue.map PBFTProposal.index = [2]) &&
          decide (t.submitted.map PBFTProposal.index = [1, 2])) &&
          (r.1 ++ [(r.2, toyWritten)]).all fun x => decide (x.2.Submits (fun _ => False) x.1)) = true := by
    decide +kernel
  obtain ⟨⟨trace, s⟩, hs, hcheck⟩ := Toy.exists_of_elim hrun
  obtain ⟨t, ht, hcheck⟩ := Toy.exists_of_elim hcheck
  simp only [Bool.and_eq_true, decide_eq_true_eq, List.all_eq_true] at hcheck
  obtain ⟨⟨hqueue, hsubmitted⟩, hok⟩ := hcheck
  exact ⟨trace, s, t, hs, ht, hqueue, hsubmitted,
    asyncCommitStableCheckPoint_inOrder (fun _ => False) hinit (.of_states hs) ht hok⟩

/-- While block 2 is being written, the execution of block 3 fails and the pre-prepare of block 2 comes again. -/
def toyReplayed : List Event :=
  toyPipeline ++ [toyWritten, .executed 0 true, .proposalApplied] ++ (toyPipeline.drop 8).take 8 ++
    [.executed 0 false, .proposalApplied]

/-- Block 2 is executed again and handed to the ledger a second time, above the same committed block. -/
theorem toyReplayed_twice : ∃ trace s t, Trail.states (step Toy.env) (Toy.node 0 [7, 1, 1]) toyReplayed = some (trace, s) ∧
    step Toy.env s .proposalApplied = some t ∧ t.submitted.map PBFTProposal.index = [1, 2, 2] ∧ t.cfg.committedIndex = 1 ∧
    ¬SubmitsInOrder (fun _ => False) s t := by
  have hrun : ((Trail.states (step Toy.env) (Toy.node 0 [7, 1, 1]) toyReplayed).elim false fun r =>
      (step Toy.env r.2 .proposalApplied).elim false fun t =>
        decide (t.submitted.map PBFTProposal.index = [1, 2, 2]) && decide (t.cfg.committedIndex = 1)) = true := by
    decide +kernel
  obtain ⟨⟨trace, s⟩, hs, hcheck⟩ := Toy.exists_of_elim hrun
  obtain ⟨t, ht, hcheck⟩ := Toy.exists_of_elim hcheck
  simp only [Bool.and_eq_true, decide_eq_true_eq] at hcheck
  obtain ⟨hsubmitted, hcommitted⟩ := hcheck
  refine ⟨trace, s, t, hs, ht, hsubmitted, hcommitted, fun h => ?_⟩
  obtain ⟨p, q, r, hlist⟩ : ∃ p q r, t.submitted = [p, q, r] := by
    rw [← List.length_eq_three, ← List.length_map PBFTProposal.index, hsubmitted]
    rfl
  rw [hlist] at hsubmitted
  simp only [List.map_cons, List.map_nil, List.cons.injEq, and_true] at hsubmitted
  have honce := h.once
  rw [hlist] at honce
  exact honce (q, 1) (by simp) (r, 2) (by simp) (by simp) (hsubmitted.2.1.trans hsubmitted.2.2.symm)

end BcosPbft
