import BcosPbft.Proofs.Execution
import BcosPbft.Proofs.Restart

/-! Executed proposals for the peers that ask for them. The storage writes a proposal only when its index is above the
greatest one so far, and a remove does not lower that: an index that was dropped for a synced block is not written again. -/

namespace BcosPbft

open Labelled

/-- The proposals that were executed last for their indices and not dropped since. -/
def executedProposals (log : List Action) : OrdMap Int PBFTProposal :=
  log.foldl (fun m a =>
    match a with
    | .asyncCommitProposal p => m.insert p.index p
    | .asyncRemoveStabledCheckPoint i => m.erase i
    | _ => m) ∅

def Node.executes (s : Node) : Event → Option PBFTProposal
  | .proposalApplied => (s.applied.head?.filter fun r => r.success && r.announced.isNone).map Applied.proposal
  | _ => none

namespace LedgerStorage

/-- A request for this index is answered with just this proposal, also after a restart. -/
def Holds (pb : PBObject PBFTProposal) (s : LedgerStorage) (p : PBFTProposal) : Prop :=
  s.asyncGetCommittedProposals pb p.index 1 false = some (some [p]) ∧
    ((restarted s.db).asyncGetLatestCommittedProposalIndex false).1.asyncGetCommittedProposals pb p.index 1 false =
      some (some [p])

instance (pb : PBObject PBFTProposal) (s : LedgerStorage) (p : PBFTProposal) : Decidable (s.Holds pb p) :=
  inferInstanceAs (Decidable (_ ∧ _))

/-- The index is above the greatest one so far, or the proposal is there already. -/
def Writes (pb : PBObject PBFTProposal) (s : LedgerStorage) (p : PBFTProposal) : Prop :=
  s.maxCommittedProposalIndex < p.index ∨ s.Holds pb p

instance (pb : PBObject PBFTProposal) (s : LedgerStorage) (p : PBFTProposal) : Decidable (s.Writes pb p) :=
  inferInstanceAs (Decidable (_ ∨ _))

end LedgerStorage

/-- Every executed proposal that was not dropped can be fetched until the block that ends its reservation. -/
def StoredNode.Fetchable (pb : PBObject PBFTProposal) (s : StoredNode) : Prop :=
  ∀ i p, (executedProposals s.node.log).find? i = some p →
    s.node.cfg.committedIndex < i + LedgerStorage.reservedCheckPointSize → p.index = i ∧ s.storage.Holds pb p

namespace LedgerStorage

variable {pb : PBObject PBFTProposal} {st : LedgerStorage} {p q : PBFTProposal}

theorem Sound.fetch_iff (hs : st.Sound pb) (hpb : pb.Lawful) (hempty : pb.decode [] = some {}) (i : Int) :
    st.asyncGetCommittedProposals pb i 1 false = some (some [p]) ↔
      i ≤ st.maxCommittedProposalIndex ∧ st.db.row pb i = some p := by
  by_cases hle : i ≤ st.maxCommittedProposalIndex
  · have hkeys : batchKeys i i = [i] := by
      rw [batchKeys, show (i + 1 - i).toNat = 1 by omega]
      simp
    have hlast : min (i + 1 - 1) st.maxCommittedProposalIndex = i := by omega
    rw [hs.asyncGetCommittedProposals hpb hempty hle hlast, hkeys]
    cases hrow : st.db.row pb i with
    | none => simp [hrow]
    | some q => simp [hrow, hle]
  · have hnone : st.asyncGetCommittedProposals pb i 1 false = none := by
      unfold LedgerStorage.asyncGetCommittedProposals
      rw [if_pos (not_le.1 hle)]
    simp [hnone, hle]

theorem Written.holds_iff (hs : Written pb st) (hpb : pb.Lawful) (hempty : pb.decode [] = some {}) :
    st.Holds pb p ↔ p.index ≤ st.maxCommittedProposalIndex ∧ p.index ≤ max 0 (st.db.maxCommittedProposal.getD 0) ∧
      st.db.row pb p.index = some p := by
  have hfetched : ((restarted st.db).asyncGetLatestCommittedProposalIndex false).1 =
      { restarted st.db with maxCommittedProposalIndex := max 0 (st.db.maxCommittedProposal.getD 0) } := by
    rw [asyncGetLatestCommittedProposalIndex_eq]
    rfl
  have hsound : Sound pb { restarted st.db with maxCommittedProposalIndex := max 0 (st.db.maxCommittedProposal.getD 0) } :=
    hs.restart.sound.of_db rfl (le_max_left _ _)
  unfold Holds
  rw [hfetched, hs.sound.fetch_iff hpb hempty, hsound.fetch_iff hpb hempty]
  simp only [restarted]
  tauto

theorem Written.perform (hs : Written pb st) (a : Action) : Written pb (st.perform pb a) := by
  unfold LedgerStorage.perform
  split
  · exact hs.commit _ _ _
  · exact hs.remove _ _
  · exact hs

theorem Written.foldl_perform (hs : Written pb st) (l : List Action) : Written pb (l.foldl (LedgerStorage.perform pb) st) := by
  induction l generalizing st with
  | nil => exact hs
  | cons a l ih => exact ih (hs.perform a)

theorem Holds.remove (hs : Written pb st) (hpb : pb.Lawful) (hempty : pb.decode [] = some {}) (h : st.Holds pb p) {i : Int}
    (hi : p.index ≠ i) : (st.asyncRemoveStabledCheckPoint i true).Holds pb p := by
  rw [hs.holds_iff hpb hempty] at h
  rw [(hs.remove i true).holds_iff hpb hempty]
  refine ⟨h.1, h.2.1, ?_⟩
  change ((st.db.proposals.erase i).find? p.index).bind pb.decode = some p
  rw [OrdMap.find?_erase, if_neg hi]
  exact h.2.2

theorem commit_eq (pb : PBObject PBFTProposal) (st : LedgerStorage) (q : PBFTProposal) :
    st.perform pb (.asyncCommitProposal q) = if st.maxCommittedProposalIndex ≥ q.index then st
      else { st with maxCommittedProposalIndex := q.index
                     db := { maxCommittedProposal := some q.index
                             proposals := st.db.proposals.insert q.index (pb.encode q) } } :=
  rfl

theorem Holds.commit (hs : Written pb st) (hpb : pb.Lawful) (hempty : pb.decode [] = some {}) (h : st.Holds pb p)
    (hne : p.index ≠ q.index) : (st.perform pb (.asyncCommitProposal q)).Holds pb p := by
  rw [hs.holds_iff hpb hempty] at h
  rw [(hs.perform (.asyncCommitProposal q)).holds_iff hpb hempty, commit_eq]
  split_ifs with hge
  · exact h
  · refine ⟨by dsimp only; omega, ?_, ?_⟩
    · simp only [Option.getD_some]
      omega
    · change ((st.db.proposals.insert q.index (pb.encode q)).find? p.index).bind pb.decode = some p
      rw [OrdMap.find?_insert_ne _ _ hne]
      exact h.2.2

theorem holds_commit_iff (hs : Written pb st) (hpb : pb.Lawful) (hempty : pb.decode [] = some {}) :
    (st.perform pb (.asyncCommitProposal q)).Holds pb q ↔ st.Writes pb q := by
  unfold Writes
  by_cases hge : st.maxCommittedProposalIndex ≥ q.index
  · rw [commit_eq, if_pos hge, or_iff_right (not_lt.2 hge)]
  · have hholds : (st.perform pb (.asyncCommitProposal q)).Holds pb q := by
      rw [(hs.perform (.asyncCommitProposal q)).holds_iff hpb hempty, commit_eq, if_neg hge]
      refine ⟨le_rfl, le_max_right _ _, ?_⟩
      change ((st.db.proposals.insert q.index (pb.encode q)).find? q.index).bind pb.decode = some q
      rw [OrdMap.find?_insert_self]
      exact hpb q
    exact iff_of_true hholds (Or.inl (not_le.1 hge))

end LedgerStorage

section

variable {pb : PBObject PBFTProposal} {st : LedgerStorage} {log : List Action} {c : Int}

def HoldsAll (pb : PBObject PBFTProposal) (c : Int) (log : List Action) (st : LedgerStorage) : Prop :=
  ∀ i p, (executedProposals log).find? i = some p → c < i + LedgerStorage.reservedCheckPointSize → p.index = i ∧ st.Holds pb p

def recordExecuted (m : OrdMap Int PBFTProposal) : Action → OrdMap Int PBFTProposal
  | .asyncCommitProposal p => m.insert p.index p
  | .asyncRemoveStabledCheckPoint i => m.erase i
  | _ => m

theorem executedProposals_snoc (log : List Action) (a : Action) :
    executedProposals (log ++ [a]) = recordExecuted (executedProposals log) a := by
  unfold executedProposals
  rw [List.foldl_append, List.foldl_cons, List.foldl_nil]
  cases a <;> rfl

theorem executedProposals_eq_none (h : ∀ p, Action.asyncCommitProposal p ∉ log) (i : Int) :
    (executedProposals log).find? i = none := by
  induction log using List.reverseRecOn with
  | nil => rfl
  | append_singleton log a ih =>
    have hlog := ih fun p hp => h p (List.mem_append_left _ hp)
    rw [executedProposals_snoc]
    cases a with
    | asyncCommitProposal p => exact absurd (List.mem_append_right _ List.mem_cons_self) (h p)
    | asyncRemoveStabledCheckPoint j =>
      dsimp only [recordExecuted]
      rw [OrdMap.find?_erase, hlog, ite_self]
    | _ => exact hlog

theorem HoldsAll.mono {c' : Int} (hc : c ≤ c') (h : HoldsAll pb c log st) : HoldsAll pb c' log st :=
  fun i p hp hlt => h i p hp (by omega)

theorem HoldsAll.perform {a : Action} (hs : LedgerStorage.Written pb st) (hpb : pb.Lawful) (hempty : pb.decode [] = some {})
    (ha : ∀ p, a ≠ .asyncCommitProposal p) (h : HoldsAll pb c log st) : HoldsAll pb c (log ++ [a]) (st.perform pb a) := by
  intro i p hp hlt
  rw [executedProposals_snoc] at hp
  cases a with
  | asyncCommitProposal q => exact absurd rfl (ha q)
  | asyncRemoveStabledCheckPoint j =>
    dsimp only [recordExecuted] at hp
    rw [OrdMap.find?_erase] at hp
    split_ifs at hp with hij
    obtain ⟨hindex, hholds⟩ := h i p hp hlt
    exact ⟨hindex, hholds.remove hs hpb hempty (by omega)⟩
  | _ => exact h i p hp hlt

theorem HoldsAll.foldl {k : List Action} (hs : LedgerStorage.Written pb st) (hpb : pb.Lawful) (hempty : pb.decode [] = some {})
    (hk : ∀ a ∈ k, ∀ p, a ≠ .asyncCommitProposal p) (h : HoldsAll pb c log st) :
    HoldsAll pb c (log ++ k) (k.foldl (LedgerStorage.perform pb) st) := by
  induction k generalizing log st with
  | nil =>
    rw [List.append_nil]
    exact h
  | cons a k ih =>
    rw [List.append_cons]
    exact ih (hs.perform a) (fun b hb => hk b (List.mem_cons_of_mem a hb)) (h.perform hs hpb hempty (hk a List.mem_cons_self))

theorem executedProposals_sends {k : List Action} (hk : ∀ a ∈ k, (∃ r, a = .sign r) ∨
    ∃ dst packet data, a = .send dst packet data)
    (log : List Action) (st : LedgerStorage) :
    executedProposals (log ++ k) = executedProposals log ∧ k.foldl (LedgerStorage.perform pb) st = st := by
  induction k generalizing log with
  | nil => exact ⟨by rw [List.append_nil], rfl⟩
  | cons a k ih =>
    obtain ⟨hlog, hst⟩ := ih (fun b hb => hk b (List.mem_cons_of_mem a hb)) (log ++ [a])
    rw [List.append_cons, hlog, executedProposals_snoc, List.foldl_cons]
    rcases hk a List.mem_cons_self with ⟨r, rfl⟩ | ⟨dst, packet, data, rfl⟩ <;> exact ⟨rfl, hst⟩

/-- A commit keeps it exactly when the storage writes the proposal or has it already. -/
theorem HoldsAll.commit_iff {q : PBFTProposal} (hs : LedgerStorage.Written pb st) (hpb : pb.Lawful)
    (hempty : pb.decode [] = some {})
    (h : HoldsAll pb c log st) : HoldsAll pb c (log ++ [.asyncCommitProposal q]) (st.perform pb (.asyncCommitProposal q)) ↔
      (c < q.index + LedgerStorage.reservedCheckPointSize → st.Writes pb q) := by
  have hself : (executedProposals (log ++ [.asyncCommitProposal q])).find? q.index = some q := by
    rw [executedProposals_snoc]
    exact OrdMap.find?_insert_self _ _ _
  constructor
  · intro hkept hlt
    exact (LedgerStorage.holds_commit_iff hs hpb hempty).1 (hkept q.index q hself hlt).2
  · intro hwrites i p hp hlt
    by_cases hi : i = q.index
    · subst hi
      obtain rfl := Option.some.inj (hself.symm.trans hp)
      exact ⟨rfl, (LedgerStorage.holds_commit_iff hs hpb hempty).2 (hwrites hlt)⟩
    · rw [executedProposals_snoc] at hp
      dsimp only [recordExecuted] at hp
      rw [OrdMap.find?_insert_ne _ _ hi] at hp
      obtain ⟨hindex, hholds⟩ := h i p hp hlt
      exact ⟨hindex, hholds.commit hs hpb hempty (by omega)⟩

end

section

variable {E : Env} {s t : Node} {e : Event}

theorem Emits.committed {l : Label} {p : PBFTProposal} (h : Emits E s l (.asyncCommitProposal p)) : l = .announce := by
  have hsend : ∀ {dst : Option NodeID} {msg : Message}, Action.asyncCommitProposal p ∉ sendActions E s.cfg.keyPair dst msg := by
    intro dst msg hmem
    rcases mem_sendActions hmem with ⟨r, heq⟩ | ⟨packet, data, heq⟩ <;> cases heq
  cases h with
  | neutral _ hn => cases hn
  | announce => rfl
  | preCommit hc hm hp henough ha => simp [PBFTCache.precommitActions, hsend] at ha
  | resend hc hp ha => simp [checkPointActions, hsend] at ha
  | vote ha => simp [voteActions, hsend] at ha
  | newView h ha => exact absurd ha hsend
  | sendViewChange ha => exact absurd ha hsend

def Node.Uncommitted (s t : Node) : Prop :=
  ∃ k, t.log = s.log ++ k ∧ ∀ a ∈ k, ∀ p, a ≠ .asyncCommitProposal p

theorem Steps.uncommitted {A : Label → Prop} (h : Steps E A s t) (hA : ¬A .announce) : s.Uncommitted t := by
  refine h.preserves (I := fun u => s.Uncommitted u) (fun l u v hl hp hu => ?_)
    ⟨[], (List.append_nil _).symm, fun a ha => by cases ha⟩
  obtain ⟨k, hk, hnone⟩ := hu
  obtain ⟨k', hk', hemits⟩ := hp.log
  refine ⟨k ++ k', by rw [hk', hk, List.append_assoc], fun a ha p hap => ?_⟩
  rcases List.mem_append.1 ha with ha | ha
  · exact hnone a ha p hap
  · subst hap
    exact hA (Emits.committed (hemits _ ha) ▸ hl)

theorem step_uncommitted (h : step E s e = some t) (he : s.executes e = none) : s.Uncommitted t := by
  by_cases hsettle : e = .proposalApplied
  · subst hsettle
    obtain rfl := Option.some.inj h
    have hopen : Open fun l : Label => l ≠ .announce := by
      intro l hl hann
      subst hann
      cases hl
    refine Steps.uncommitted (E := E) (A := fun l => l ≠ .announce) ?_ (fun h => h rfl)
    have hsettle : ∀ r rest, s.applied = r :: rest → Steps E (fun l => l ≠ .announce) s { s with applied := rest } :=
      fun r rest happ => .single Label.noConfusion (.settle s happ)
    rcases s.onProposalApplied_cases E with heq | ⟨r, rest, happ, ⟨-, heq⟩ | ⟨hsucc, hann, -⟩ | ⟨m, -, -, heq⟩⟩
    · rw [heq]
      exact .refl s
    · rw [heq]
      exact (hsettle r rest happ).trans
        (Node.onProposalApplyFailed_steps _ hopen Label.noConfusion Label.noConfusion Label.noConfusion)
    · rw [Node.executes, happ] at he
      simp [hsucc, hann] at he
    · rw [heq]
      exact (hsettle r rest happ).trans (Node.recordCheckPoint_steps _ hopen Label.noConfusion Label.noConfusion
        Label.noConfusion (fun _ => Label.noConfusion) Label.noConfusion Label.noConfusion Label.noConfusion)
  · refine (step_steps h).uncommitted fun hann => ?_
    obtain ⟨r, heq, -⟩ := hann
    exact hsettle heq

theorem step_committed {p : PBFTProposal} (h : step E s e = some t) (he : s.executes e = some p) :
    e = .proposalApplied ∧ t.cfg = s.cfg ∧ ∃ k, t.log = s.log ++ .asyncCommitProposal p :: k ∧
      ∀ a ∈ k, (∃ r, a = .sign r) ∨ ∃ dst packet data, a = .send dst packet data := by
  cases e with
  | proposalApplied =>
    obtain rfl := Option.some.inj h
    cases happ : s.applied with
    | nil =>
      rw [Node.executes, happ] at he
      cases he
    | cons r rest =>
      simp only [Node.executes, happ, List.head?_cons, Option.map_eq_some_iff, Option.filter_eq_some_iff, Option.some.injEq,
        Bool.and_eq_true, Option.isNone_iff_eq_none] at he
      obtain ⟨r, ⟨rfl, hsucc, hann⟩, rfl⟩ := he
      unfold Node.onProposalApplied
      simp only [happ, hsucc, hann, Bool.not_true, Bool.false_eq_true, if_false]
      refine ⟨trivial, rfl, _, rfl, fun a ha => ?_⟩
      rcases List.mem_cons.1 ha with rfl | ha
      · exact Or.inl ⟨_, rfl⟩
      · rcases mem_sendActions ha with hsign | ⟨packet, data, heq⟩
        · exact Or.inl hsign
        · exact Or.inr ⟨none, packet, data, heq⟩
  | _ => cases he

end

theorem le_committed_of_finalized {E : Env} {s t : Node} {l : LedgerConfig} (h : step E s (.finalized l) = some t) :
    l.blockNumber ≤ t.cfg.committedIndex := by
  have hwide : Wide fun x : Label => ∀ b, x ≠ .ledger b := by
    intro x hx b hb
    subst hb
    cases hx
  change s.finalizeConsensus E l false = some t at h
  obtain ⟨u, hu, htail⟩ := Node.finalizeConsensus_tail_steps s hwide (fun _ => Label.noConfusion) (fun _ => Label.noConfusion)
    (fun _ => Label.noConfusion) (fun _ => Label.noConfusion) h
  have hqueue := (Node.tryToApplyCommitQueue_steps (E := E) u hwide.isOpen).trans (Node.removeConsensusedCache_steps _
    (fun _ => Label.noConfusion) (fun _ => Label.noConfusion) (fun _ => Label.noConfusion) u.tryToApplyCommitQueue.1.cfg.view
    l.blockNumber)
  have hsame := Steps.committed (hqueue.trans htail) fun b hb => hb b rfl
  rw [Config.committedIndex, hsame]
  rcases Node.resetConfig_cases (A := fun x => ∀ b, x ≠ .ledger b) _ (hwide _ rfl) (fun _ => Label.noConfusion)
    (fun _ => Label.noConfusion) hu with
    ⟨⟨hle, -⟩, rfl⟩ | ⟨-, hset⟩
  · exact hle
  · rw [hset.committed fun b hb => hb b rfl]
    exact le_rfl

namespace StoredNode

variable {E : Env} {pb : PBObject PBFTProposal} {s s₀ t : StoredNode} {e : Event} {trace : List (StoredNode × Event)}

structure Sane (pb : PBObject PBFTProposal) (s : StoredNode) : Prop where
  watermarks : s.node.cfg.Watermarks
  written : LedgerStorage.Written pb s.storage

theorem step_node (h : s.step E pb e = some t) : BcosPbft.step E s.node e = some t.node := by
  obtain ⟨u, hu, rfl⟩ := Option.map_eq_some_iff.1 h
  exact hu

/-- The storage after a step: it has performed the calls, and after a finalized block one row is removed. -/
theorem step_storage (h : s.step E pb e = some t) {k : List Action} (hk : t.node.log = s.node.log ++ k) :
    t.storage = k.foldl (LedgerStorage.perform pb) s.storage ∨ ∃ l, e = .finalized l ∧
      t.storage = (k.foldl (LedgerStorage.perform pb) s.storage).onBlockCommitted l.blockNumber true := by
  obtain ⟨u, hu, rfl⟩ := Option.map_eq_some_iff.1 h
  dsimp only at hk ⊢
  rw [hk, List.drop_left]
  cases e with
  | finalized l => exact Or.inr ⟨l, rfl, rfl⟩
  | _ => exact Or.inl rfl

theorem step_log (h : s.step E pb e = some t) : ∃ k, t.node.log = s.node.log ++ k := by
  cases he : s.node.executes e with
  | none =>
    obtain ⟨k, hk, -⟩ := step_uncommitted (step_node h) he
    exact ⟨k, hk⟩
  | some p =>
    obtain ⟨-, -, k, hk, -⟩ := step_committed (step_node h) he
    exact ⟨.asyncCommitProposal p :: k, hk⟩

theorem Sane.step (hs : s.Sane pb) (hn : e.Numbered) (h : s.step E pb e = some t) : t.Sane pb := by
  refine ⟨(step_watermarks hn (step_node h) hs.watermarks).1, ?_⟩
  obtain ⟨k, hk⟩ := step_log h
  have hwritten := hs.written.foldl_perform k
  rcases step_storage h hk with heq | ⟨l, -, heq⟩
  · rwa [heq]
  · rw [heq]
    unfold LedgerStorage.onBlockCommitted
    split_ifs
    · exact hwritten.remove _ _
    · exact hwritten

/-- In a state where everything kept can be fetched, the next step keeps it so exactly when its proposal is written. -/
theorem step_fetchable_iff (hpb : pb.Lawful) (hempty : pb.decode [] = some {}) (hs : s.Sane pb) (hfetch : s.Fetchable pb)
    (hn : e.Numbered) (h : s.step E pb e = some t) :
    t.Fetchable pb ↔ ∀ p, s.node.executes e = some p →
      s.node.cfg.committedIndex < p.index + LedgerStorage.reservedCheckPointSize → s.storage.Writes pb p := by
  have hle := (step_watermarks hn (step_node h) hs.watermarks).2
  cases he : s.node.executes e with
  | none =>
    refine iff_of_true ?_ (fun p hp => by cases hp)
    obtain ⟨k, hk, hnone⟩ := step_uncommitted (step_node h) he
    have hkept : HoldsAll pb t.node.cfg.committedIndex t.node.log (k.foldl (LedgerStorage.perform pb) s.storage) := by
      rw [hk]
      exact (HoldsAll.mono hle hfetch).foldl hs.written hpb hempty hnone
    rcases step_storage h hk with heq | ⟨l, rfl, heq⟩
    · change HoldsAll pb _ _ _
      rwa [heq]
    · change HoldsAll pb _ _ _
      have hnumber := le_committed_of_finalized (step_node h)
      rw [heq]
      unfold LedgerStorage.onBlockCommitted
      split_ifs
      · intro i p hp hlt
        obtain ⟨hindex, hholds⟩ := hkept i p hp hlt
        exact ⟨hindex, hholds.remove (hs.written.foldl_perform k) hpb hempty (by omega)⟩
      · exact hkept
  | some p =>
    obtain ⟨rfl, hcfg, k, hk, hsends⟩ := step_committed (step_node h) he
    have hstorage : t.storage = k.foldl (LedgerStorage.perform pb) (s.storage.perform pb (.asyncCommitProposal p)) := by
      rcases step_storage h hk with heq | ⟨l, hfinal, -⟩
      · exact heq
      · cases hfinal
    obtain ⟨hlog, hst⟩ : executedProposals (s.node.log ++ [.asyncCommitProposal p] ++ k) =
        executedProposals (s.node.log ++ [.asyncCommitProposal p]) ∧
          k.foldl (LedgerStorage.perform pb) (s.storage.perform pb (.asyncCommitProposal p)) =
            s.storage.perform pb (.asyncCommitProposal p) := executedProposals_sends hsends _ _
    have hcommit := HoldsAll.commit_iff (q := p) hs.written hpb hempty hfetch
    unfold HoldsAll at hcommit
    unfold Fetchable
    rw [hcfg, hk, List.append_cons, hlog, hstorage, hst, hcommit]
    exact ⟨fun hw q hq => by rwa [← Option.some.inj hq], fun hw => hw p rfl⟩

/-- In a run from a state where everything kept can be fetched, it stays so exactly when every proposal that is executed in
it, and not reserved for longer, is written. -/
theorem path_fetchable_iff (hpb : pb.Lawful) (hempty : pb.decode [] = some {}) (h : Trail (StoredNode.step E pb) s₀ trace s)
    (hn : ∀ x ∈ trace, x.2.Numbered) (hs : s₀.Sane pb) (hfetch : s₀.Fetchable pb) : s.Sane pb ∧
    (((∀ x ∈ trace, x.1.Fetchable pb) ∧ s.Fetchable pb) ↔ ∀ x ∈ trace, ∀ p, x.1.node.executes x.2 = some p →
      x.1.node.cfg.committedIndex < p.index + LedgerStorage.reservedCheckPointSize → x.1.storage.Writes pb p) := by
  induction h with
  | nil => exact ⟨hs, iff_of_true ⟨fun x hx => (by cases hx), hfetch⟩ fun x hx => (by cases hx)⟩
  | @snoc trace s t e h hstep ih =>
    have hne := hn _ (List.mem_append_right _ List.mem_cons_self)
    obtain ⟨hsane, hiff⟩ := ih fun x hx => hn x (List.mem_append_left _ hx)
    refine ⟨hsane.step hne hstep, ?_⟩
    simp only [List.forall_mem_append, List.forall_mem_singleton]
    rw [← hiff]
    constructor
    · rintro ⟨⟨hbefore, hlast⟩, hend⟩
      exact ⟨⟨hbefore, hlast⟩, (step_fetchable_iff hpb hempty hsane hlast hne hstep).1 hend⟩
    · rintro ⟨⟨hbefore, hlast⟩, hwrites⟩
      exact ⟨⟨hbefore, hlast⟩, (step_fetchable_iff hpb hempty hsane hlast hne hstep).2 hwrites⟩

end StoredNode

theorem Restart.path_uncommitted {E : Env} {keyPair : KeyPair} {l : LedgerConfig} {state : List PBFTProposal} {r r₀ : Restart}
    {trace : List (Restart × RestartEvent)} (hl : 0 ≤ l.blockNumber) (hstate : ∀ p ∈ state, l.blockNumber < p.index)
    (hstart : start E keyPair l state = some r₀) (h : Trail (halfStep E) r₀ trace r) :
    ∀ p, Action.asyncCommitProposal p ∉ r.node.log := by
  have hopen : Open fun l : Label => l ≠ .announce := by
    intro l hl hann
    subst hann
    cases hl
  have hinit : Steps E (fun l => l ≠ .announce) (fresh keyPair) r.node :=
    (start_steps Label.noConfusion Label.noConfusion Label.noConfusion Label.noConfusion hstart).trans
      (path_steps hopen Label.noConfusion Label.noConfusion (fun _ => Label.noConfusion) (fun _ => Label.noConfusion) hstate
        (start_marked hl hstart) h)
  obtain ⟨k, hk, hnone⟩ := hinit.uncommitted fun h => h rfl
  intro p hp
  rw [hk, fresh, List.nil_append] at hp
  exact hnone _ hp p rfl

/-- In every run after a restart whose puts and removes succeed: the executed proposals can be fetched in every state exactly
when each of them found the greatest index of the storage below its own, or itself already there. -/
theorem StoredNode.fetchable_iff {E : Env} {pb : PBObject PBFTProposal} (hpb : pb.Lawful) (hempty : pb.decode [] = some {})
    {st : LedgerStorage} (hst : LedgerStorage.Written pb st) {keyPair : KeyPair} {l : LedgerConfig} (hl : 0 ≤ l.blockNumber)
    {maxError batchError : Bool} {storage : LedgerStorage} {state : Option (List PBFTProposal)}
    (hload : (LedgerStorage.restarted st.db).loadState pb l.blockNumber maxError batchError = (storage, .loaded state))
    {r₀ r : Restart} (hstart : Restart.start E keyPair l (state.getD []) = some r₀) {inits : List (Restart × RestartEvent)}
    (hinit : Trail (Restart.halfStep E) r₀ inits r) (_hdone : r.Initialized) {s : StoredNode} {trace : List (StoredNode × Event)}
    (h : Trail (StoredNode.step E pb) ⟨r.node, storage⟩ trace s) (hn : ∀ x ∈ trace, x.2.Numbered) :
    ((∀ x ∈ trace, x.1.Fetchable pb) ∧ s.Fetchable pb) ↔ ∀ x ∈ trace, ∀ p, x.1.node.executes x.2 = some p →
      x.1.node.cfg.committedIndex < p.index + LedgerStorage.reservedCheckPointSize → x.1.storage.Writes pb p := by
  have hstate := hst.lt_of_loaded hpb hempty hl (congrArg Prod.snd hload)
  have hmarked := Restart.path_marked hstate hinit (Restart.start_marked hl hstart)
  have hwritten : LedgerStorage.Written pb storage := by
    have hwritten := hst.restart.load maxError batchError hl
    rwa [hload] at hwritten
  have hnone := executedProposals_eq_none (Restart.path_uncommitted hl hstate hstart hinit)
  refine (StoredNode.path_fetchable_iff hpb hempty h hn ⟨hmarked.level.watermarks, hwritten⟩ fun i p hp => ?_).2
  rw [hnone i] at hp
  cases hp

namespace StoredNode

def toyGroup (number : Int) : LedgerConfig :=
  { blockNumber := number, hash := Toy.checksum [1, 7], consensusNodeList := Toy.nodes [3, 3, 1] }

def toyExecution (index : Int) (leader : UInt8) : List Event :=
  let p : PBFTProposal := { proposal := { index := index, hash := (Toy.checksum [leader, 7]).val, data := [leader, 7] } }
  let packet := fun (b : UInt8) (m : PBFTMessage) => (PBFTCodec.encode Toy.env (Toy.keyPair b) 0 (.pbft m)).1
  let vote := fun (t : PacketType) => packet 1 (populateVote Toy.env (Toy.keyPair 1) t 0 0 0 1 (populateProposal p false))
  Toy.atOnce [.receive [leader] (packet leader (populatePrePrepare .PrePreparePacket p 0 0 0 (.ofNat leader.toNat))) [], .worker,
    .proposalVerified 0 (.result true), .receive [1] (vote .PreparePacket) [], .worker, .receive [1] (vote .CommitPacket) [],
    .worker, .executed 0 false, .proposalApplied]

def toyExecutions : List Event := toyExecution 1 1 ++ .proposalApplied :: toyExecution 2 2

theorem toyExecutions_fetchable : ∃ r₀ trace s, Restart.start Toy.env (Toy.keyPair 0) (toyGroup 0) [] = some r₀ ∧
    Trail.states (StoredNode.step Toy.env LedgerStorage.toyPb) ⟨r₀.node, {}⟩ toyExecutions = some (trace, s) ∧
    (executedProposals s.node.log).entries.length = 2 ∧ s.Fetchable LedgerStorage.toyPb := by
  have hrun : ((Restart.start Toy.env (Toy.keyPair 0) (toyGroup 0) []).elim false fun r₀ =>
      (Trail.states (StoredNode.step Toy.env LedgerStorage.toyPb) ⟨r₀.node, {}⟩ toyExecutions).elim false fun r =>
        decide (r₀.todo = [] ∧ r₀.last = none) && decide ((executedProposals r.2.node.log).entries.length = 2) &&
          r.1.all fun x => decide x.2.Numbered && (x.1.node.executes x.2).all fun p =>
            decide (x.1.storage.Writes LedgerStorage.toyPb p)) = true := by
    decide +kernel
  obtain ⟨r₀, hstart, hrun⟩ := Toy.exists_of_elim hrun
  obtain ⟨⟨trace, s⟩, htrace, hrun⟩ := Toy.exists_of_elim hrun
  simp only [Bool.and_eq_true, decide_eq_true_eq, List.all_eq_true, Option.all_eq_true] at hrun
  obtain ⟨⟨hdone, hexecuted⟩, hok⟩ := hrun
  have hload : (LedgerStorage.restarted ({} : LedgerStorage).db).loadState LedgerStorage.toyPb (toyGroup 0).blockNumber false false =
      ({}, .loaded none) := by
    decide +kernel
  have hiff := fetchable_iff (Toy.object_lawful _) rfl .fresh le_rfl hload hstart .nil hdone (.of_states htrace)
    fun x hx => (hok x hx).1
  exact ⟨r₀, trace, s, hstart, htrace, hexecuted, (hiff.2 fun x hx p hp _ => (hok x hx).2 p hp).2⟩

def toyReexecution : List Event :=
  toyExecutions ++ .proposalApplied :: Toy.atOnce [.newBlock (toyGroup 1)] ++ toyExecution 2 2

/-- Proposal 2 was executed last and is not in the storage. -/
theorem toyReexecution_lost : ∃ r₀ trace s, Restart.start Toy.env (Toy.keyPair 0) (toyGroup 0) [] = some r₀ ∧
    Trail (StoredNode.step Toy.env LedgerStorage.toyPb) ⟨r₀.node, {}⟩ trace s ∧ (∀ x ∈ trace, x.2.Numbered) ∧
    ((executedProposals s.node.log).find? 2).isSome ∧ s.node.cfg.committedIndex = 1 ∧
    s.storage.asyncGetCommittedProposals LedgerStorage.toyPb 2 1 false = some none ∧ ¬s.Fetchable LedgerStorage.toyPb := by
  have hrun : ((Restart.start Toy.env (Toy.keyPair 0) (toyGroup 0) []).elim false fun r₀ =>
      (Trail.states (StoredNode.step Toy.env LedgerStorage.toyPb) ⟨r₀.node, {}⟩ toyReexecution).elim false fun r =>
        decide ((∀ x ∈ r.1, x.2.Numbered) ∧ ((executedProposals r.2.node.log).find? 2).isSome ∧
          r.2.node.cfg.committedIndex = 1 ∧
          r.2.storage.asyncGetCommittedProposals LedgerStorage.toyPb 2 1 false = some none)) = true := by
    decide +kernel
  obtain ⟨r₀, hstart, hrun⟩ := Toy.exists_of_elim hrun
  obtain ⟨⟨trace, s⟩, htrace, hrun⟩ := Toy.exists_of_elim hrun
  obtain ⟨hn, hexecuted, hcommitted, hfetch⟩ := of_decide_eq_true hrun
  refine ⟨r₀, trace, s, hstart, .of_states htrace, hn, hexecuted, hcommitted, hfetch, fun hall => ?_⟩
  obtain ⟨p, hp⟩ := Option.isSome_iff_exists.1 hexecuted
  obtain ⟨hindex, hholds, -⟩ := hall 2 p hp (by rw [hcommitted]; decide)
  rw [hindex, hfetch] at hholds
  cases hholds

end StoredNode

end BcosPbft
