import BcosPbft.Proofs.PrePrepareList
import BcosPbft.Proofs.Selection

/-! The new views of two nodes that differ in their log level. The log line of `addViewChangeReq` creates an entry of 0 in the
table of prepared indices, and a new view for which nothing was prepared then ends at 0 and not at the progressed index. -/

namespace BcosPbft

/-- What a view change has when `isValidViewChangeMsg` has let it through: a committed proposal that is not older than the
node's own, and a proposal in each prepared message. -/
structure ViewChangeMsg.Admissible (m : ViewChangeMsg) : Prop where
  committed : 0 ≤ m.committedProposal.index
  proposals : ∀ p ∈ m.preparedProposals, p.consensusProposal.isSome = true

/-- The calls that view changes, commits and resets lead to. Whatever else happens between them is a change of the
configuration, apart from its log level, or of the clock. -/
inductive ViewCall
  | addViewChangeReq (m : ViewChangeMsg)
  | checkAndTryIntoNewView
  | removeInvalidViewChange (view : ViewType) (latestCommitted : Int)
  | removeConsensusedCache (view : ViewType) (number : Int)
  | resetCacheAfterViewChange (view : ViewType) (latestCommitted : Int)
  | configure (c : Config)
  | elapse (utcTime : Int)

namespace Node

def newView (E : Env) (s : Node) : Option NewViewMsg := (s.checkAndTryIntoNewView E).bind (·.2)

def perform (E : Env) (s : Node) : ViewCall → Node
  | .addViewChangeReq m => s.addViewChangeReq m
  | .checkAndTryIntoNewView => ((s.checkAndTryIntoNewView E).map (·.1)).getD s
  | .removeInvalidViewChange view latestCommitted => s.removeInvalidViewChange view latestCommitted
  | .removeConsensusedCache view number => s.removeConsensusedCache view number
  | .resetCacheAfterViewChange view latestCommitted => s.resetCacheAfterViewChange view latestCommitted
  | .configure c => s.setCfg { c with infoLog := s.cfg.infoLog }
  | .elapse utcTime => { s with utcTime := utcTime }

def performed (E : Env) (s : Node) (calls : List ViewCall) : Node := calls.foldl (perform E) s

/-- What each call of `checkAndTryIntoNewView` makes, in their order. -/
def newViewsOf (E : Env) (s : Node) : List ViewCall → List (Option NewViewMsg)
  | [] => []
  | .checkAndTryIntoNewView :: calls => s.newView E :: newViewsOf E (s.perform E .checkAndTryIntoNewView) calls
  | f :: calls => newViewsOf E (s.perform E f) calls

def atLevel (s : Node) (infoLog : Bool) : Node :=
  { s with cfg := { s.cfg with infoLog := infoLog }
           viewChangeCache := ∅, viewChangeWeight := ∅, maxCommittedIndex := ∅, maxPrecommitIndex := ∅ }

def NewViewDue (s : Node) : Prop :=
  ¬s.cfg.committedIndex < s.cfg.syncingHighestNumber ∧ s.newViewGenerated = false ∧ s.cfg.leaderAfterViewChange = true ∧
    ∃ w, s.viewChangeWeight.find? s.cfg.toView = some w ∧ s.cfg.minRequiredQuorum ≤ w

/-- If view changes for the view have come in and none of them has a prepared proposal, one of them is committed up to the
progressed index. -/
def Settled (s : Node) : Prop :=
  ∀ lo, s.maxCommittedIndex.find? s.cfg.toView = some lo → s.maxPrecommitIndex.find? s.cfg.toView = none →
    s.cfg.progressedIndex ≤ lo

/-- The node with the log lines, which differs in one table and in what was sent. -/
def logging (s : Node) (table : OrdMap ViewType Int) (log : List Action) : Node :=
  { s with cfg := { s.cfg with infoLog := true }, maxPrecommitIndex := table, log := log }

end Node

/-- The entries of a view in the tables of committed and of prepared indices, and the prepared one with the log lines: it
is the same, or at least the 0 that a log line has put there. -/
inductive Floored : Option Int → Option Int → Option Int → Prop
  | missing : Floored none none none
  | same {lo : Int} (p : Int) (h : 0 ≤ lo) : Floored (some lo) (some p) (some p)
  | floor {lo : Int} (o : Option Int) (h : 0 ≤ lo) : Floored (some lo) o (some (max 0 (o.getD 0)))

structure Twin (s u : Node) : Prop where
  eq : s = u.logging s.maxPrecommitIndex s.log
  off : u.cfg.infoLog = false
  entry : ∀ v, Floored (u.maxCommittedIndex.find? v) (u.maxPrecommitIndex.find? v) (s.maxPrecommitIndex.find? v)
  proposals : ∀ v m, u.StoresViewChange v m → ∀ p ∈ m.preparedProposals, p.consensusProposal.isSome = true

theorem proposals_of_checkPreparedProposals {E : Env} {s : Node} {l : List PBFTMessage}
    (h : s.checkPreparedProposals E l = some true) : ∀ p ∈ l, p.consensusProposal.isSome = true := by
  induction l with
  | nil => simp
  | cons p l ih =>
    unfold Node.checkPreparedProposals at h
    obtain ⟨valid, hvalid, h⟩ := Option.bind_eq_some_iff.1 h
    cases valid with
    | false => cases h
    | true =>
      refine List.forall_mem_cons.2 ⟨?_, ih h⟩
      unfold Node.checkPrecommitMsg at hvalid
      split_ifs at hvalid
      · cases hvalid
      · cases hp : p.consensusProposal with
        | none =>
          rw [hp] at hvalid
          cases hvalid
        | some q => rfl

/-- On a node that has committed a block the check of a view change makes it admissible. -/
theorem admissible_of_isValidViewChangeMsg {E : Env} {s t : Node} {fromNode : Option NodeID} {m : ViewChangeMsg}
    {shouldCheckSig : Bool} (hs : 0 ≤ s.cfg.committedIndex)
    (h : s.isValidViewChangeMsg E fromNode m shouldCheckSig = some (t, true)) : m.Admissible := by
  rcases Node.isValidViewChangeMsg_cases h with ⟨-, -, hret⟩ | ⟨hle, -, hvalid⟩
  · exact Bool.noConfusion hret
  · exact ⟨hs.trans hle, proposals_of_checkPreparedProposals (hvalid rfl).2.1⟩

theorem Floored.push {c o o' : Option Int} (h : Floored c o o') {committed : Int} (hc : 0 ≤ committed) (indices : List Int) :
    Floored (RunningMax.push c committed) (indices.foldl RunningMax.push o)
      (some ((indices.foldl RunningMax.push o').getD 0)) := by
  obtain ⟨lo, hlo, hpush⟩ : ∃ lo, 0 ≤ lo ∧ RunningMax.push c committed = some lo := by
    cases h with
    | missing => exact ⟨committed, hc, rfl⟩
    | same p h => exact ⟨_, le_trans h (le_max_left _ committed), RunningMax.push_some _ _⟩
    | floor o h => exact ⟨_, le_trans h (le_max_left _ committed), RunningMax.push_some _ _⟩
  rw [hpush]
  have hsame : ∀ x : Option Int, Floored (some lo) x (some (x.getD 0)) := by
    intro x
    cases x with
    | none => exact .floor none hlo
    | some p => exact .same p hlo
  cases h with
  | missing => exact hsame _
  | same p h => exact hsame _
  | floor o h =>
    rw [RunningMax.foldl_push_floor]
    exact .floor _ hlo

/-- The list of a new view is as long with the log lines as without exactly when the view is settled. -/
theorem Floored.toNat_iff {c o o' : Option Int} (h : Floored c o o') (committed progressed : Int) :
    (o'.getD progressed - c.getD committed).toNat = (o.getD progressed - c.getD committed).toNat ↔
      ∀ lo, c = some lo → o = none → progressed ≤ lo := by
  cases h with
  | missing => simp
  | same p h => simp
  | @floor lo o h =>
    cases o with
    | none =>
      simp only [Option.getD_some, Option.getD_none, Option.some.injEq, forall_eq', forall_const]
      omega
    | some p =>
      simp only [Option.getD_some, reduceCtorEq, false_implies, implies_true, iff_true]
      omega

namespace Twin

variable {E : Env} {s u : Node}

theorem congr (h : Twin s u) {s' u' : Node} (heq : s' = u'.logging s'.maxPrecommitIndex s'.log)
    (hoff : u'.cfg.infoLog = u.cfg.infoLog) (hcommitted : u'.maxCommittedIndex = u.maxCommittedIndex)
    (hprepared : u'.maxPrecommitIndex = u.maxPrecommitIndex) (hlogged : s'.maxPrecommitIndex = s.maxPrecommitIndex)
    (hstores : ∀ v m, u'.StoresViewChange v m → u.StoresViewChange v m) : Twin s' u' where
  eq := heq
  off := hoff.trans h.off
  entry v := by
    rw [hcommitted, hprepared, hlogged]
    exact h.entry v
  proposals v m hm := h.proposals v m (hstores v m hm)

theorem cleared (h : Twin s u) {s' u' : Node} (heq : s' = u'.logging s'.maxPrecommitIndex s'.log)
    (hoff : u'.cfg.infoLog = u.cfg.infoLog) (hcommitted : u'.maxCommittedIndex = ∅)
    (hprepared : u'.maxPrecommitIndex = ∅) (hlogged : s'.maxPrecommitIndex = ∅)
    (hstores : ∀ v m, u'.StoresViewChange v m → u.StoresViewChange v m) : Twin s' u' where
  eq := heq
  off := hoff.trans h.off
  entry v := by
    rw [hcommitted, hprepared, hlogged]
    exact .missing
  proposals v m hm := h.proposals v m (hstores v m hm)

end Twin

namespace Node

variable {E : Env} {s u : Node} {table : OrdMap ViewType Int} {log : List Action}

def Takes (s : Node) (m : ViewChangeMsg) : Prop :=
  ¬((s.viewChangeCache.find? m.view).bind (·.find? m.generatedFrom)).isSome = true ∧
    ∃ nodeInfo, s.cfg.getConsensusNodeByIndex m.generatedFrom = some nodeInfo

theorem addViewChangeReq_of_not_takes {m : ViewChangeMsg} (h : ¬s.Takes m) : s.addViewChangeReq m = s := by
  unfold addViewChangeReq
  split_ifs with hseen
  · rfl
  split
  · rfl
  · rename_i nodeInfo hnode
    exact absurd ⟨hseen, nodeInfo, hnode⟩ h

theorem addViewChangeReq_tables {m : ViewChangeMsg} (h : s.Takes m) :
    (s.addViewChangeReq m).maxCommittedIndex = RunningMax.record s.maxCommittedIndex m.view m.committedProposal.index ∧
      (s.addViewChangeReq m).maxPrecommitIndex = logMaxPrecommitIndex s.cfg ((m.preparedProposals.map (·.index)).foldl
        (fun t a => RunningMax.record t m.view a) s.maxPrecommitIndex) m.view := by
  obtain ⟨hseen, nodeInfo, hnode⟩ := h
  unfold addViewChangeReq
  rw [if_neg hseen, hnode, List.foldl_map]
  exact ⟨rfl, rfl⟩

theorem addViewChangeReq_logging (u : Node) (table : OrdMap ViewType Int) (log : List Action) (m : ViewChangeMsg) :
    (u.logging table log).addViewChangeReq m =
      (u.addViewChangeReq m).logging ((u.logging table log).addViewChangeReq m).maxPrecommitIndex
        ((u.logging table log).addViewChangeReq m).log := by
  by_cases h : u.Takes m
  · have hlogging : (u.logging table log).Takes m := h
    obtain ⟨hseen, nodeInfo, hnode⟩ := h
    obtain ⟨hseen', nodeInfo', hnode'⟩ := hlogging
    obtain rfl : nodeInfo = nodeInfo' := Option.some.inj (hnode.symm.trans hnode')
    unfold addViewChangeReq
    rw [if_neg hseen, if_neg hseen', hnode, hnode']
    rfl
  · rw [addViewChangeReq_of_not_takes (s := u) h, addViewChangeReq_of_not_takes (s := u.logging table log) h]
    rfl

theorem resetCacheAt_logging (view : ViewType) (i : Int) :
    resetCacheAt view (u.logging table log) i = (resetCacheAt view u i).logging table
      (resetCacheAt view (u.logging table log) i).log := by
  have hcaches : (u.logging table log).caches.find? i = u.caches.find? i := rfl
  unfold resetCacheAt
  rw [hcaches]
  cases u.caches.find? i <;> rfl

theorem resetCacheAt_fold_logging (view : ViewType) (l : List Int) :
    l.foldl (resetCacheAt view) (u.logging table log) = (l.foldl (resetCacheAt view) u).logging table
      (l.foldl (resetCacheAt view) (u.logging table log)).log := by
  induction l generalizing u log with
  | nil => rfl
  | cons i l ih =>
    rw [List.foldl_cons, List.foldl_cons, resetCacheAt_logging, ih]
    rfl

theorem resetCacheAt_fold_stores (view : ViewType) (l : List Int) {s : Node} :
    (l.foldl (resetCacheAt view) s).viewChangeCache = s.viewChangeCache := by
  induction l generalizing s with
  | nil => rfl
  | cons i l ih =>
    rw [List.foldl_cons, ih]
    unfold resetCacheAt
    cases s.caches.find? i <;> rfl

theorem resetCacheAfterViewChange_logging (view : ViewType) (latestCommitted : Int) :
    (u.logging table log).resetCacheAfterViewChange view latestCommitted =
      (u.resetCacheAfterViewChange view latestCommitted).logging ∅
        ((u.logging table log).resetCacheAfterViewChange view latestCommitted).log := by
  unfold resetCacheAfterViewChange
  have hkeys : (u.logging table log).caches.keys = u.caches.keys := rfl
  dsimp only
  rw [hkeys, resetCacheAt_fold_logging]
  rfl

end Node

section NewView

variable {E : Env} {s u : Node}

theorem isSome_mapM {α β : Type} {f : α → Option β} {l : List α} (h : ∀ a ∈ l, (f a).isSome = true) :
    ∃ l', l.mapM f = some l' ∧ l'.length = l.length := by
  induction l with
  | nil => exact ⟨[], rfl, rfl⟩
  | cons a l ih =>
    obtain ⟨b, hb⟩ := Option.isSome_iff_exists.1 (h a List.mem_cons_self)
    obtain ⟨l', hl', hlen⟩ := ih fun c hc => h c (List.mem_cons_of_mem a hc)
    refine ⟨b :: l', ?_, by rw [List.length_cons, List.length_cons, hlen]⟩
    rw [List.mapM_cons, hb, hl']
    rfl

namespace Node

theorem generatePrePrepareMsg_eq (s : Node) (viewChanges : OrdMap IndexType ViewChangeMsg) :
    s.generatePrePrepareMsg E viewChanges = (indexRange s.lowestCommitted s.highestPrepared).mapM (s.prePrepareFor E
      (viewChanges.values.foldl (fun t (m : ViewChangeMsg) =>
        m.preparedProposals.foldl (selectPrepared s.lowestCommitted m.generatedFrom) t) ∅)) := rfl

theorem generatePrePrepareMsg_isSome {viewChanges : OrdMap IndexType ViewChangeMsg}
    (h : ∀ m ∈ viewChanges.values, ∀ p ∈ m.preparedProposals, p.consensusProposal.isSome = true) :
    ∃ list, s.generatePrePrepareMsg E viewChanges = some list ∧ list.length = (s.highestPrepared - s.lowestCommitted).toNat := by
  rw [generatePrePrepareMsg_eq]
  have hrep := (Represents.empty s.lowestCommitted).viewChanges viewChanges.values
  have hsome : ∀ i ∈ indexRange s.lowestCommitted s.highestPrepared, (s.prePrepareFor E
      (viewChanges.values.foldl (fun t (m : ViewChangeMsg) =>
        m.preparedProposals.foldl (selectPrepared s.lowestCommitted m.generatedFrom) t) ∅) i).isSome = true := by
    intro i _
    unfold prePrepareFor
    split
    · rename_i m hm
      obtain ⟨-, q, hq, -, heq⟩ := hrep.sound i m hm
      rw [List.nil_append] at hq
      obtain ⟨vc, hvc, hq⟩ := List.mem_flatMap.1 hq
      rw [Option.isSome_map, ← heq]
      exact h vc hvc q hq
    · rfl
  obtain ⟨list, hlist, hlen⟩ := isSome_mapM hsome
  refine ⟨list, hlist, ?_⟩
  rw [hlen, indexRange, List.length_map, List.length_range]

theorem newView_of_not_due (h : ¬s.NewViewDue) : s.newView E = none ∧ s.perform E .checkAndTryIntoNewView = s := by
  have hnone : s.checkAndTryIntoNewView E = some (s, none) := by
    unfold checkAndTryIntoNewView
    split_ifs with hsyncing hleader
    · rfl
    · rfl
    split
    · rfl
    · rename_i w hw
      split_ifs with hquorum
      · rfl
      · refine absurd ⟨hsyncing, ?_, ?_, w, hw, not_lt.1 hquorum⟩ h
        · simp only [Bool.or_eq_true, not_or] at hleader
          exact eq_false_of_ne_true hleader.1
        · simp only [Bool.or_eq_true, not_or, Bool.not_eq_true'] at hleader
          simpa using hleader.2
  rw [newView, perform, hnone]
  exact ⟨rfl, rfl⟩

theorem newView_of_due (h : s.NewViewDue) {list : List PBFTMessage}
    (hlist : s.generatePrePrepareMsg E ((s.viewChangeCache.find? s.cfg.toView).getD ∅) = some list) :
    s.checkAndTryIntoNewView E =
      some ({ s with newViewGenerated := true }.emit (sendActions E s.cfg.keyPair none
          (.newView (s.ownNewView (E := E) ((s.viewChangeCache.find? s.cfg.toView).getD ∅) list))),
        some (s.ownNewView (E := E) ((s.viewChangeCache.find? s.cfg.toView).getD ∅) list)) := by
  obtain ⟨hsyncing, hgenerated, hleader, w, hw, hquorum⟩ := h
  unfold checkAndTryIntoNewView
  rw [if_neg hsyncing, if_neg (by simp [hgenerated, hleader]), hw]
  dsimp only
  rw [if_neg (not_lt.2 hquorum), hlist]
  rfl

end Node

namespace Twin

theorem newViewDue_iff (h : Twin s u) : s.NewViewDue ↔ u.NewViewDue := by
  rw [h.eq]
  exact Iff.rfl

theorem viewChanges_eq (h : Twin s u) : (s.viewChangeCache.find? s.cfg.toView).getD ∅ =
    (u.viewChangeCache.find? u.cfg.toView).getD ∅ := by
  rw [h.eq]
  rfl

theorem exists_lists (h : Twin s u) : ∃ list list',
    u.generatePrePrepareMsg E ((u.viewChangeCache.find? u.cfg.toView).getD ∅) = some list ∧
      s.generatePrePrepareMsg E ((s.viewChangeCache.find? s.cfg.toView).getD ∅) = some list' ∧
      list.length = (u.highestPrepared - u.lowestCommitted).toNat ∧
      list'.length = (s.highestPrepared - s.lowestCommitted).toNat := by
  have hproposals : ∀ m ∈ ((u.viewChangeCache.find? u.cfg.toView).getD ∅).values,
      ∀ p ∈ m.preparedProposals, p.consensusProposal.isSome = true :=
    fun m hm => h.proposals _ m (Node.mem_values_viewChanges.1 hm)
  obtain ⟨list, hlist, hlen⟩ := Node.generatePrePrepareMsg_isSome (E := E) (s := u) hproposals
  obtain ⟨list', hlist', hlen'⟩ := Node.generatePrePrepareMsg_isSome (E := E) (s := s) hproposals
  rw [← h.viewChanges_eq] at hlist'
  exact ⟨list, list', hlist, hlist', hlen, hlen'⟩

/-- The two new views are the same exactly when the view is settled. -/
theorem newView_iff (h : Twin s u) : s.newView E = u.newView E ↔ (u.NewViewDue → u.Settled) := by
  by_cases hu : u.NewViewDue
  · obtain ⟨list, list', hlist, hlist', hlen, hlen'⟩ := h.exists_lists (E := E)
    have hcache := h.viewChanges_eq
    have hlowest : s.lowestCommitted = u.lowestCommitted := by
      rw [h.eq]
      rfl
    have hhighest : s.highestPrepared = (s.maxPrecommitIndex.find? u.cfg.toView).getD u.cfg.progressedIndex := by
      unfold Node.highestPrepared
      rw [h.eq]
      rfl
    have hiff : (s.highestPrepared - s.lowestCommitted).toNat = (u.highestPrepared - u.lowestCommitted).toNat ↔ u.Settled := by
      rw [hlowest, hhighest]
      exact (h.entry u.cfg.toView).toNat_iff _ _
    have hs := Node.newView_of_due (h.newViewDue_iff.2 hu) hlist'
    rw [hcache] at hs hlist'
    rw [Node.newView, Node.newView, hs, Node.newView_of_due hu hlist, Option.bind_some, Option.bind_some, Option.some.injEq,
      forall_prop_of_true hu, ← hiff]
    constructor
    · intro heq
      have hsize := congrArg (fun m : NewViewMsg => m.prePrepareList.length) heq
      change (list'.map _).length = (list.map _).length at hsize
      rw [List.length_map, List.length_map] at hsize
      omega
    · intro hsize
      have hrange : Node.indexRange s.lowestCommitted s.highestPrepared =
          Node.indexRange u.lowestCommitted u.highestPrepared := by
        unfold Node.indexRange
        rw [hsize, hlowest]
      have hsame : s.generatePrePrepareMsg E ((u.viewChangeCache.find? u.cfg.toView).getD ∅) =
          u.generatePrePrepareMsg E ((u.viewChangeCache.find? u.cfg.toView).getD ∅) := by
        rw [Node.generatePrePrepareMsg_eq, Node.generatePrePrepareMsg_eq, hrange, hlowest]
        rw [h.eq]
        rfl
      obtain rfl : list' = list := Option.some.inj (hlist'.symm.trans (hsame.trans hlist))
      rw [h.eq]
      rfl
  · rw [(Node.newView_of_not_due (E := E) hu).1, (Node.newView_of_not_due (E := E) (mt h.newViewDue_iff.1 hu)).1]
    simp [hu]

theorem addViewChangeReq (h : Twin s u) {m : ViewChangeMsg} (hm : m.Admissible) :
    Twin (s.addViewChangeReq m) (u.addViewChangeReq m) := by
  by_cases hu : u.Takes m
  · have hs : s.Takes m := by
      rw [h.eq]
      exact hu
    obtain ⟨hcommitted, hprepared⟩ := Node.addViewChangeReq_tables hu
    obtain ⟨-, hlogged⟩ := Node.addViewChangeReq_tables hs
    have hinfo : s.cfg.infoLog = true := by
      rw [h.eq]
      rfl
    refine ⟨?_, ?_, fun v => ?_, fun v m' hm' => ?_⟩
    · rw [h.eq]
      exact Node.addViewChangeReq_logging u _ _ m
    · rw [Node.addViewChangeReq_cfg]
      exact h.off
    · rw [hcommitted, hprepared, hlogged, RunningMax.find?_record, find?_logMaxPrecommitIndex, find?_logMaxPrecommitIndex,
        h.off, hinfo]
      by_cases hv : v = m.view
      · simp only [hv, if_true, RunningMax.find?_foldl_record, Bool.false_eq_true, if_false]
        exact (h.entry m.view).push hm.committed _
      · simp only [hv, if_false, RunningMax.find?_foldl_record]
        exact h.entry v
    · rcases u.addViewChangeReq_cases m with heq | ⟨hstores, -, -⟩
      · rw [heq] at hm'
        exact h.proposals v m' hm'
      · rcases (hstores v m').1 hm' with hold | ⟨-, rfl⟩
        · exact h.proposals v m' hold
        · exact hm.proposals
  · have hs : ¬s.Takes m := by
      rw [h.eq]
      exact hu
    rw [Node.addViewChangeReq_of_not_takes hu, Node.addViewChangeReq_of_not_takes hs]
    exact h

theorem perform (h : Twin s u) (f : ViewCall) (hf : ∀ m, f = .addViewChangeReq m → m.Admissible) :
    Twin (s.perform E f) (u.perform E f) := by
  have hinfo : s.cfg.infoLog = true := by
    rw [h.eq]
    rfl
  cases f with
  | addViewChangeReq m => exact h.addViewChangeReq (hf m rfl)
  | checkAndTryIntoNewView =>
    by_cases hu : u.NewViewDue
    · obtain ⟨list, list', hlist, hlist', -, -⟩ := h.exists_lists (E := E)
      have hs := Node.newView_of_due (h.newViewDue_iff.2 hu) hlist'
      unfold Node.perform
      rw [hs, Node.newView_of_due hu hlist]
      refine h.congr ?_ rfl rfl rfl rfl fun v m hm => hm
      change { s with newViewGenerated := true }.emit _ = _
      rw [h.eq]
      rfl
    · rw [(Node.newView_of_not_due (E := E) hu).2, (Node.newView_of_not_due (E := E) (mt h.newViewDue_iff.1 hu)).2]
      exact h
  | removeInvalidViewChange view latestCommitted =>
    refine h.congr ?_ rfl rfl rfl rfl fun v m hm => hm.of_removeInvalidViewChange
    change s.removeInvalidViewChange view latestCommitted = _
    rw [h.eq]
    rfl
  | removeConsensusedCache view number =>
    refine h.cleared ?_ rfl rfl rfl rfl fun v m hm => ?_
    · change s.removeConsensusedCache view number = _
      rw [h.eq]
      rfl
    · have hkept : (u.removeInvalidViewChange view number).StoresViewChange v m := hm
      exact hkept.of_removeInvalidViewChange
  | resetCacheAfterViewChange view latestCommitted =>
    refine h.cleared ?_ ?_ rfl rfl rfl fun v m hm => ?_
    · change s.resetCacheAfterViewChange view latestCommitted = _
      rw [h.eq]
      exact Node.resetCacheAfterViewChange_logging view latestCommitted
    · change (u.caches.keys.foldl (Node.resetCacheAt view) u).cfg.infoLog = _
      rw [Node.resetCacheAt_fold_cfg]
    · have hkept : ((u.caches.keys.foldl (Node.resetCacheAt view) u).removeInvalidViewChange view
          latestCommitted).StoresViewChange v m := hm
      have hbefore := hkept.of_removeInvalidViewChange
      unfold Node.StoresViewChange at hbefore ⊢
      rwa [Node.resetCacheAt_fold_stores] at hbefore
  | configure c =>
    refine h.congr ?_ ?_ rfl rfl rfl fun v m hm => hm
    · change s.setCfg { c with infoLog := s.cfg.infoLog } = _
      rw [hinfo, h.eq]
      rfl
    · rfl
  | elapse utcTime =>
    refine h.congr ?_ rfl rfl rfl rfl fun v m hm => hm
    change { s with utcTime := utcTime } = _
    rw [h.eq]
    rfl

end Twin

end NewView

theorem twin_atLevel (s : Node) : Twin (s.atLevel true) (s.atLevel false) where
  eq := rfl
  off := rfl
  entry _ := .missing
  proposals v m hm := by
    obtain ⟨l, i, hl, -⟩ := hm
    cases hl

theorem forall_prefix_cons {P : List ViewCall → Prop} (f : ViewCall) (calls : List ViewCall) :
    (∀ pre post, f :: calls = pre ++ .checkAndTryIntoNewView :: post → P pre) ↔
      (f = .checkAndTryIntoNewView → P []) ∧
        ∀ pre post, calls = pre ++ .checkAndTryIntoNewView :: post → P (f :: pre) := by
  constructor
  · intro h
    refine ⟨fun hf => h [] calls (by rw [hf, List.nil_append]), fun pre post hcalls => h (f :: pre) post ?_⟩
    rw [hcalls, List.cons_append]
  · rintro ⟨hnil, hcons⟩ pre post hcalls
    cases pre with
    | nil => exact hnil (List.cons.inj hcalls).1
    | cons g pre =>
      obtain ⟨rfl, hrest⟩ := List.cons.inj hcalls
      exact hcons pre post hrest

theorem Node.newViewsOf_cons {E : Env} {s : Node} {f : ViewCall} (hf : f ≠ .checkAndTryIntoNewView) (calls : List ViewCall) :
    s.newViewsOf E (f :: calls) = (s.perform E f).newViewsOf E calls := by
  cases f <;> first | rfl | exact absurd rfl hf

theorem Twin.newViewsOf_iff {E : Env} {s u : Node} (h : Twin s u) {calls : List ViewCall}
    (hcalls : ∀ m, .addViewChangeReq m ∈ calls → m.Admissible) :
    s.newViewsOf E calls = u.newViewsOf E calls ↔ ∀ pre post, calls = pre ++ .checkAndTryIntoNewView :: post →
      (u.performed E pre).NewViewDue → (u.performed E pre).Settled := by
  induction calls generalizing s u with
  | nil => simp [Node.newViewsOf]
  | cons f calls ih =>
    have hrest := ih (h.perform (E := E) f fun m hm => hcalls m (hm ▸ List.mem_cons_self))
      fun m hm => hcalls m (List.mem_cons_of_mem f hm)
    rw [forall_prefix_cons]
    by_cases hf : f = .checkAndTryIntoNewView
    · subst hf
      rw [Node.newViewsOf, Node.newViewsOf, List.cons.injEq, h.newView_iff, hrest, forall_prop_of_true rfl]
      rfl
    · rw [Node.newViewsOf_cons hf, Node.newViewsOf_cons hf, hrest]
      exact ⟨fun hsettled => ⟨fun hcheck => absurd hcheck hf, hsettled⟩, fun hsettled => hsettled.2⟩

/-- The two log levels lead to the same new views exactly when each of them is made for a settled view. -/
theorem newViews_logLevel_iff (E : Env) (s : Node) (calls : List ViewCall)
    (hcalls : ∀ m, .addViewChangeReq m ∈ calls → m.Admissible) :
    (s.atLevel true).newViewsOf E calls = (s.atLevel false).newViewsOf E calls ↔
      ∀ pre post, calls = pre ++ .checkAndTryIntoNewView :: post →
        ((s.atLevel false).performed E pre).NewViewDue → ((s.atLevel false).performed E pre).Settled :=
  (twin_atLevel s).newViewsOf_iff hcalls

def toyReporting (prepared : List PBFTMessage) : List ViewCall :=
  .configure { (Toy.node 0 [1, 1, 1, 1]).cfg with toView := 3 } ::
    (([0, 1, 2] : List IndexType).map fun sender =>
      .addViewChangeReq { base := { view := 3, generatedFrom := sender }, preparedProposals := prepared }) ++
    [.checkAndTryIntoNewView]

theorem toyReporting_same :
    ((Toy.node 0 [1, 1, 1, 1]).atLevel true).newViewsOf Toy.env (toyReporting [toyPreparedIn (7, 1)]) =
      ((Toy.node 0 [1, 1, 1, 1]).atLevel false).newViewsOf Toy.env (toyReporting [toyPreparedIn (7, 1)]) := by
  refine (newViews_logLevel_iff Toy.env _ _ fun m hm => ?_).2 ?_
  · simp only [toyReporting, List.map_cons, List.map_nil, List.cons_append, List.nil_append, List.mem_cons, reduceCtorEq,
      ViewCall.addViewChangeReq.injEq, List.not_mem_nil, or_false, false_or] at hm
    rcases hm with rfl | rfl | rfl <;> exact ⟨by decide, by decide⟩
  · unfold toyReporting
    simp only [List.map_cons, List.map_nil, List.cons_append, List.nil_append]
    repeat rw [forall_prefix_cons]
    refine ⟨fun h => (by cases h), fun h => (by cases h), fun h => (by cases h), fun h => (by cases h), fun _ _ => ?_,
      fun pre post h => ?_⟩
    · intro lo _ hnone
      have hsome : ((((Toy.node 0 [1, 1, 1, 1]).atLevel false).performed Toy.env (toyReporting [toyPreparedIn (7, 1)]).dropLast
          ).maxPrecommitIndex.find? 3) = some 1 := by decide +kernel
      exact absurd (hsome.symm.trans hnone) (Option.some_ne_none _)
    · exact absurd h.symm (by simp)

/-- Nothing was prepared: without the log lines the new view covers the progressed index, with them it is empty. -/
theorem toyReporting_differs :
    ((Toy.node 0 [1, 1, 1, 1]).atLevel true).newViewsOf Toy.env (toyReporting []) ≠
        ((Toy.node 0 [1, 1, 1, 1]).atLevel false).newViewsOf Toy.env (toyReporting []) ∧
      (((Toy.node 0 [1, 1, 1, 1]).atLevel true).newViewsOf Toy.env (toyReporting [])).map
        (Option.map fun m => m.prePrepareList.map (·.index)) = [some []] ∧
      (((Toy.node 0 [1, 1, 1, 1]).atLevel false).newViewsOf Toy.env (toyReporting [])).map
        (Option.map fun m => m.prePrepareList.map (·.index)) = [some [1]] := by
  have hlogged : (((Toy.node 0 [1, 1, 1, 1]).atLevel true).newViewsOf Toy.env (toyReporting [])).map
      (Option.map fun m => m.prePrepareList.map (·.index)) = [some []] := by decide +kernel
  have hunlogged : (((Toy.node 0 [1, 1, 1, 1]).atLevel false).newViewsOf Toy.env (toyReporting [])).map
      (Option.map fun m => m.prePrepareList.map (·.index)) = [some [1]] := by decide +kernel
  refine ⟨fun heq => ?_, hlogged, hunlogged⟩
  rw [heq, hunlogged] at hlogged
  cases hlogged

end BcosPbft
