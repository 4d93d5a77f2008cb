import BcosPbft.Proofs.Acceptance
import BcosPbft.Proofs.Certificate
import BcosPbft.Proofs.CheckPoint
import BcosPbft.Proofs.Submission
import BcosPbft.Spec.LedgerStorage

/-! The blocks that go to the ledger. The votes behind a stable checkpoint are signatures of different nodes on its hash, so
the header that the storage makes of them passes the check of every node with the same list. -/

namespace BcosPbft

def tallyProof (cached : CollectionCache) (h : HashType) : Entries :=
  ((cached.find? h).getD ∅).entries.map fun e => ((e.1.toNat : Int), (e.2.consensusProposal.map (·.signature)).getD [])

theorem ofInt_toNat (i : UInt64) : UInt64.ofInt (i.toNat : Int) = i := by
  refine UInt64.toNat_inj.1 ?_
  have hlt := i.toNat_lt
  simp only [UInt64.ofInt, UInt64.toNat_ofNat']
  omega

theorem signerIndices_tallyProof (cached : CollectionCache) (h : HashType) :
    signerIndices (tallyProof cached h) = PBFTCache.senders cached h := by
  unfold signerIndices tallyProof PBFTCache.senders OrdMap.keys
  rw [List.map_map]
  exact List.map_congr_left fun e _ => ofInt_toNat e.1

theorem setSignatureList_lists (p : PBFTProposal) (cached : CollectionCache) :
    (PBFTCache.setSignatureList p cached).nodeList = (tallyProof cached p.hash).map Prod.fst ∧
      (PBFTCache.setSignatureList p cached).signatureList = (tallyProof cached p.hash).map Prod.snd := by
  unfold PBFTCache.setSignatureList tallyProof
  generalize ((cached.find? p.hash).getD ∅).entries = entries
  suffices h : ∀ acc : PBFTProposal,
      (entries.foldl (fun acc e =>
        acc.appendSignatureProof e.1.toNat ((e.2.consensusProposal.map (·.signature)).getD [])) acc).nodeList =
          acc.nodeList ++ entries.map (fun e => (e.1.toNat : Int)) ∧
      (entries.foldl (fun acc e =>
        acc.appendSignatureProof e.1.toNat ((e.2.consensusProposal.map (·.signature)).getD [])) acc).signatureList =
          acc.signatureList ++ entries.map (fun e => (e.2.consensusProposal.map (·.signature)).getD []) by
    obtain ⟨hnodes, hsignatures⟩ := h p.clearSignatureProof
    rw [hnodes, hsignatures, List.map_map, List.map_map]
    exact ⟨rfl, rfl⟩
  induction entries with
  | nil => simp
  | cons e entries ih =>
    intro acc
    obtain ⟨hnodes, hsignatures⟩ := ih (acc.appendSignatureProof e.1.toNat ((e.2.consensusProposal.map (·.signature)).getD []))
    rw [List.foldl_cons, hnodes, hsignatures]
    simp [PBFTProposal.appendSignatureProof]

theorem signatureProof_of_lists {p : PBFTProposal} {es : Entries} (hnodes : p.nodeList = es.map Prod.fst)
    (hsignatures : p.signatureList = es.map Prod.snd) :
    (List.range p.signatureProofSize).map p.signatureProof = es.map some := by
  have hlen : p.signatureProofSize = es.length := by rw [PBFTProposal.signatureProofSize, hsignatures, List.length_map]
  refine List.ext_getElem (by simp [hlen]) fun i hi hi' => ?_
  have hlt : i < es.length := by simpa using hi'
  simp [PBFTProposal.signatureProof, hnodes, hsignatures, hlt]

/-- The proof is read without a gap, each entry is a valid signature of the node it names, no node is named twice, and the
weights reach the quorum. -/
structure Proven (E : Env) (cfg : Config) (p : PBFTProposal) (es : Entries) : Prop where
  read : (List.range p.signatureProofSize).map p.signatureProof = es.map some
  valid : ∀ e ∈ es, ValidEntry E cfg p.hash e
  distinct : (signerIndices es).Nodup
  quorum : cfg.minRequiredQuorum ≤ Quorum.wrapSum ((signerIndices es).map cfg.weightOf)

/-- The message carries the signature of the node it names on its own hash. -/
def Endorses (E : Env) (cfg : Config) (m : PBFTMessage) : Prop :=
  ∀ node, cfg.getConsensusNodeByIndex m.generatedFrom = some node →
    ∃ p, m.consensusProposal = some p ∧ E.crypto.verify node.nodeID m.hash p.signature = true

section

variable {E : Env} {cfg cfg' : Config} {p : PBFTProposal} {es : Entries}

theorem Endorses.congr {m : PBFTMessage} (hm : Endorses E cfg m) (h : cfg'.consensusNodeList = cfg.consensusNodeList) :
    Endorses E cfg' m := by
  intro node hnode
  rw [Config.getConsensusNodeByIndex_congr h] at hnode
  exact hm node hnode

theorem Proven.congr (hp : Proven E cfg p es) (h : cfg'.consensusNodeList = cfg.consensusNodeList)
    (hrequired : cfg'.minRequiredQuorum = cfg.minRequiredQuorum) : Proven E cfg' p es := by
  refine ⟨hp.read, fun e he => ?_, hp.distinct, ?_⟩
  · obtain ⟨node, hnode, hverify⟩ := hp.valid e he
    exact ⟨node, by rw [Config.getConsensusNodeByIndex_congr h]; exact hnode, hverify⟩
  · rw [hrequired, Config.weightOf_congr h]
    exact hp.quorum

/-- A tally of endorsing messages at the quorum gives a proof. -/
theorem PBFTCache.Counts.proven {cached : CollectionCache} {weights : QuorumRecoder} {w : UInt64}
    (hc : Counts cfg (Endorses E cfg) cached weights) (hw : weights.find? p.hash = some w)
    (hquorum : cfg.minRequiredQuorum ≤ w) : Proven E cfg (setSignatureList p cached) (tallyProof cached p.hash) := by
  have hhash : (setSignatureList p cached).hash = p.hash := by
    simp only [PBFTProposal.hash, setSignatureList_proposal]
  obtain ⟨hnodes, hsignatures⟩ := setSignatureList_lists p cached
  have hweight := hc.weight p.hash
  rw [hw, Option.getD_some] at hweight
  refine ⟨signatureProof_of_lists hnodes hsignatures, fun e he => ?_, ?_, ?_⟩
  · obtain ⟨⟨i, m⟩, hmem, rfl⟩ := List.mem_map.1 he
    obtain ⟨l, hl, hm⟩ : ∃ l, cached.find? p.hash = some l ∧ l.find? i = some m := by
      cases hl : cached.find? p.hash with
      | none =>
        rw [hl] at hmem
        cases hmem
      | some l =>
        rw [hl, Option.getD_some] at hmem
        exact ⟨l, rfl, OrdMap.find?_eq_some.2 hmem⟩
    obtain ⟨hh, rfl, hlen, hendorses⟩ := hc.filed p.hash l i m hl hm
    obtain ⟨node, hnode⟩ : ∃ node, cfg.getConsensusNodeByIndex m.generatedFrom = some node :=
      ⟨_, List.getElem?_eq_getElem hlen⟩
    obtain ⟨q, hq, hverify⟩ := hendorses node hnode
    refine ⟨node, ?_, ?_⟩
    · rw [ofInt_toNat]
      exact hnode
    · rw [hhash, hq, ← hh]
      exact hverify
  · rw [signerIndices_tallyProof]
    exact OrdMap.keys_nodup _
  · rw [signerIndices_tallyProof, ← hweight]
    exact hquorum

theorem Proven.checkProof (hp : Proven E cfg p es) : Node.checkProof E cfg p.hash (es.map some) 0 = some true := by
  refine checkProof_eq_true_iff.2 ⟨es, rfl, hp.valid, ?_⟩
  rw [Quorum.foldl_add_eq_wrapSum]
  exact hp.quorum

theorem Proven.quorumSigned (hp : Proven E cfg p es) : QuorumSigned E cfg p.hash es := by
  refine (quorumSigned_iff hp.valid).2 ?_
  have hle := UInt64.le_iff_toNat_le.1 hp.quorum
  rw [← Quorum.foldl_add_eq_wrapSum] at hle
  exact hle.trans (cfg.toNat_tally_le hp.distinct)

end

/-- The proposal is the result of executing a block, under the number that the block has. -/
def OfExecution (E : Env) (p : PBFTProposal) : Prop :=
  ∃ data parent, E.headerNumber data = some (E.execute data parent).number ∧ p.index = (E.execute data parent).number ∧
    p.hash = (E.execute data parent).hash ∧ p.data = (E.execute data parent).encoded

theorem OfExecution.congr {E : Env} {p p' : PBFTProposal} (hp : OfExecution E p) (h : p'.proposal = p.proposal) :
    OfExecution E p' := by
  unfold OfExecution PBFTProposal.index PBFTProposal.hash PBFTProposal.data
  rw [h]
  exact hp

/-- An executed block with a proof of the nodes in force. -/
def Certified (E : Env) (cfg : Config) (p : PBFTProposal) : Prop := OfExecution E p ∧ ∃ es, Proven E cfg p es

/-- The nodes are those of `o`, which signs with a key that the others know it by. The checkpoint tallies count signatures on
the hash they are filed under, and what waits for the ledger or went there is certified. -/
structure Attests (E : Env) (o s : Node) : Prop where
  same : SameNodes o s
  keys : E.crypto.Verifies o.cfg.keyPair
  own : ∀ node, o.cfg.getConsensusNodeByIndex o.cfg.nodeIndex = some node → node.nodeID = o.cfg.keyPair.publicKey
  committed : 0 ≤ s.cfg.committedIndex
  tallies : ∀ i c, s.caches.find? i = some c →
    PBFTCache.Counts o.cfg (Endorses E o.cfg) c.checkpointCacheList c.checkpointCacheWeight
  checkpoints : ∀ i c p, s.caches.find? i = some c → c.checkpointProposal = some p → OfExecution E p
  results : ∀ r ∈ s.applied, (r.success = true → OfExecution E r.executedProposal) ∧
    ∀ m, r.announced = some m → Endorses E o.cfg m
  queue : ∀ p ∈ s.stableCheckPointQueue, Certified E o.cfg p
  submitted : ∀ p ∈ s.submitted, 0 < p.index ∧ Certified E o.cfg p

def Label.Attested (E : Env) (cfg : Config) : Label → Prop
  | .checkPoint _ m => Endorses E cfg m
  | .nodes l => Config.sortNodes E l = cfg.consensusNodeList
  | .ledger b => 0 ≤ b.blockNumber
  | .setCheckPoint p => OfExecution E p
  | .pushStable p => Certified E cfg p
  | _ => True

def Label.plain : Label → Bool
  | .checkPoint _ _ | .nodes _ | .ledger _ | .setCheckPoint _ | .pushStable _ => false
  | _ => true

theorem Label.plain_wide : Wide (fun l => l.plain = true) := by
  intro l hl
  cases l <;> first | rfl | cases hl

theorem Label.attested_of_plain {E : Env} {cfg : Config} {l : Label} (hl : l.plain = true) : l.Attested E cfg := by
  cases l <;> first | exact trivial | cases hl

section

variable {E : Env} {l : Label} {o s t : Node}

theorem endorses_of_checked {m : PBFTMessage} (h : s.checkProposalSignature E m.generatedFrom m.consensusProposal = true)
    (hm : ∀ p ∈ m.consensusProposal, p.hash = m.hash) : Endorses E s.cfg m := by
  intro node hnode
  unfold Node.checkProposalSignature at h
  split at h
  · cases h
  · rename_i p hp
    split at h
    · cases h
    rw [hnode] at h
    exact ⟨p, hp, hm p hp ▸ h⟩

theorem endorses_own {now : Int} {cfg : Config} {p : PBFTProposal} (hsign : E.crypto.Verifies cfg.keyPair)
    (hown : ∀ node, cfg.getConsensusNodeByIndex cfg.nodeIndex = some node → node.nodeID = cfg.keyPair.publicKey) :
    Endorses E cfg (encodedMsg E cfg.keyPair
      (populateVote E cfg.keyPair .CheckPoint 0 cfg.view now cfg.nodeIndex p)) := by
  intro node hnode
  refine ⟨_, rfl, ?_⟩
  rw [hown node hnode]
  change E.crypto.verify cfg.keyPair.publicKey (toHash p.hash.val) (E.crypto.sign cfg.keyPair p.hash) = true
  rw [toHash_val]
  exact hsign p.hash

theorem ofExecution_of_applied {e : Execution} {error : Bool} {r : Applied} (h : Node.applyProposal E e error = some r) :
    r.announced = none ∧ (r.success = true → OfExecution E r.executedProposal) := by
  obtain ⟨⟨-, -, hann⟩, -⟩ := applyProposal_cases h
  refine ⟨hann, fun hsucc => ?_⟩
  unfold Node.applyProposal at h
  split at h
  · obtain rfl := Option.some.inj h
    cases hsucc
  split at h
  · obtain rfl := Option.some.inj h
    cases hsucc
  rename_i number hnumber
  split at h
  · obtain rfl := Option.some.inj h
    cases hsucc
  extract_lets failed parent header executed at h
  split at h
  · cases h
  · rename_i hheader
    obtain rfl := Option.some.inj h
    exact ⟨e.proposal.data, parent, by rw [hnumber, ← not_not.1 hheader], rfl, toHash_val _, rfl⟩

theorem Node.mem_onExecuted_applied {i : Nat} {error : Bool} {r : Applied} (hr : r ∈ (s.onExecuted E i error).applied) :
    r ∈ s.applied ∨ r.announced = none ∧ (r.success = true → OfExecution E r.executedProposal) := by
  unfold onExecuted at hr
  split at hr
  · exact Or.inl hr
  · rename_i e he
    dsimp only at hr
    split at hr
    · exact Or.inl hr
    · rename_i r' happly
      split at hr
      · exact Or.inl hr
      · rcases List.mem_append.1 hr with hr | hr
        · exact Or.inl hr
        · rw [List.mem_singleton.1 hr]
          exact Or.inr (ofExecution_of_applied happly)

theorem CacheStep.checkpointCounts {cfg cfg' : Config} {now i : Int} {c c' : PBFTCache} {P : PBFTMessage → Prop}
    (h : CacheStep E cfg' now l i c c') (hlist : cfg'.consensusNodeList = cfg.consensusNodeList)
    (hc : PBFTCache.Counts cfg P c.checkpointCacheList c.checkpointCacheWeight)
    (hvote : ∀ own m, l = .checkPoint own m → P m) :
    PBFTCache.Counts cfg P c'.checkpointCacheList c'.checkpointCacheWeight := by
  have hsubmit : ∀ d : PBFTCache, PBFTCache.Counts cfg P d.checkpointCacheList d.checkpointCacheWeight →
      PBFTCache.Counts cfg P (d.checkAndCommit cfg').1.checkpointCacheList (d.checkAndCommit cfg').1.checkpointCacheWeight := by
    intro d hd
    rcases d.checkAndCommit_cases cfg' with heq | ⟨heq, -⟩
    · rw [heq]
      exact hd
    · rw [heq]
      exact hd
  cases h with
  | checkPoint own m => exact ((hc.congr hlist).addCache c (fun _ => hvote own m rfl)).congr hlist.symm
  | preCommit =>
    rcases c.checkAndPreCommit_cases E cfg' now with heq | ⟨m, p, -, -, -, -, -, heq⟩
    · rw [heq]
      exact hc
    · rw [heq]
      exact hsubmit (c.enterPrecommit E cfg' now m p) hc
  | submit => exact hsubmit c hc
  | stable =>
    rcases c.checkAndCommitStableCheckPoint_cases cfg' with heq | ⟨p, w, -, -, -, -, heq⟩
    · rw [heq]
      exact hc
    · rw [heq]
      exact hc
  | setCheckPoint p =>
    unfold PBFTCache.setCheckPointProposal
    split_ifs <;> exact hc
  | _ => exact hc

namespace Attests

theorem results_step (h : Prim E l s t) (hs : Attests E o s) :
    ∀ r ∈ t.applied, (r.success = true → OfExecution E r.executedProposal) ∧
      ∀ m, r.announced = some m → Endorses E o.cfg m := by
  by_cases hpipe : l.pipeline = true
  · cases h with
    | @apply _ p lastApplied rest hq hindex hlast hx =>
      rw [show ((s.takeProposal p rest).applyStateMachine lastApplied p).applied = s.applied from
        congrArg Core.applied ((s.takeProposal p rest).applyStateMachine_core lastApplied p)]
      exact hs.results
    | executed _ i error =>
      intro r hr
      rcases Node.mem_onExecuted_applied hr with hr | ⟨hann, hexec⟩
      · exact hs.results r hr
      · refine ⟨hexec, fun m hm => ?_⟩
        rw [hann] at hm
        cases hm
    | @announce _ r rest h hsucc ha =>
      intro r' hr'
      rcases List.mem_cons.1 hr' with rfl | hr'
      · refine ⟨(hs.results r (by rw [h]; exact List.mem_cons_self)).1, fun m hm => ?_⟩
        obtain rfl := Option.some.inj hm
        refine Endorses.congr (endorses_own ?_ fun node hnode => ?_) hs.same.list.symm
        · rw [hs.same.keyPair]
          exact hs.keys
        · rw [hs.same.nodeIndex, hs.same.getConsensusNodeByIndex] at hnode
          rw [hs.same.keyPair]
          exact hs.own node hnode
      · exact hs.results r' (by rw [h]; exact List.mem_cons_of_mem _ hr')
    | settle _ h => exact fun r hr => hs.results r (by rw [h]; exact List.mem_cons_of_mem _ hr)
    | push | queue | unmark | expire => exact hs.results
    | _ => cases hpipe
  · rw [(h.pipeline_same (by simpa using hpipe)).2.2.2]
    exact hs.results

theorem caches_step (h : Prim E l s t) (hl : l.Attested E o.cfg) (hs : Attests E o s) {i : Int} {c' : PBFTCache}
    (hc' : t.caches.find? i = some c') :
    PBFTCache.Counts o.cfg (Endorses E o.cfg) c'.checkpointCacheList c'.checkpointCacheWeight ∧
      ∀ p, c'.checkpointProposal = some p → OfExecution E p := by
  have hstep := h.cacheStep hc'
  constructor
  · refine hstep.checkpointCounts hs.same.list ?_ (fun own m heq => ?_)
    · cases hc : s.caches.find? i with
      | none => exact .empty
      | some c => exact hs.tallies i c hc
    · subst heq
      exact hl
  · intro p hp
    rcases hstep.checkpointProposal hp with ⟨q, hq, heq⟩ | ⟨rfl, -⟩
    · refine OfExecution.congr ?_ heq
      cases hc : s.caches.find? i with
      | none =>
        rw [hc] at hq
        cases hq
      | some c =>
        rw [hc] at hq
        exact hs.checkpoints i c q hc hq
    · exact hl

theorem prim (h : Prim E l s t) (hl : l.Attested E o.cfg) (hs : Attests E o s) : Attests E o t where
  same := by
    refine hs.same.trans ?_
    by_cases hnodes : ∃ ls, l = .nodes ls
    · obtain ⟨ls, rfl⟩ := hnodes
      exact h.sameNodes_of_meets (B := fun _ _ _ => True) (Eq.trans hl hs.same.list.symm)
    · exact h.sameNodes fun ls heq => hnodes ⟨ls, heq⟩
  keys := hs.keys
  own := hs.own
  committed := hs.committed.trans (h.cfgStep.committedIndex_le fun b heq => by
    subst heq
    exact hl)
  tallies i c hc := (hs.caches_step h hl hc).1
  checkpoints i c p hc := (hs.caches_step h hl hc).2 p
  results := hs.results_step h
  queue p hp := by
    rcases h.mem_stableCheckPointQueue hp with hp | rfl
    · exact hs.queue p hp
    · exact hl
  submitted p hp := by
    obtain ⟨k, hk, hemits⟩ := h.log
    obtain ⟨a, ha, hap⟩ := List.mem_filterMap.1 hp
    obtain rfl := Action.submission_eq_some.1 hap
    rw [hk] at ha
    rcases List.mem_append.1 ha with ha | ha
    · exact hs.submitted p (List.mem_filterMap.2 ⟨_, ha, rfl⟩)
    · obtain ⟨-, hmem, hindex⟩ := (hemits _ ha).submitted
      refine ⟨?_, hs.queue p hmem⟩
      have hnonneg := hs.committed
      omega

theorem steps {A : Label → Prop} (h : Steps E A s t) (hA : ∀ l, A l → l.Attested E o.cfg) (hs : Attests E o s) :
    Attests E o t :=
  Labelled.Steps.preserves (I := Attests E o) (fun l _ _ hl hp hu => hu.prim hp (hA l hl)) h hs

theorem steps_plain (h : Steps E (fun l => l.plain = true) s t) (hs : Attests E o s) : Attests E o t :=
  hs.steps h fun _ hl => Label.attested_of_plain hl

/-- What becomes stable is certified by the votes that made it so. -/
theorem checkStableAt {acc : Node × List PBFTProposal} (hs : Attests E o acc.1) (hacc : ∀ p ∈ acc.2, Certified E o.cfg p)
    (i : Int) : Attests E o (Node.checkStableAt acc i).1 ∧ ∀ p ∈ (Node.checkStableAt acc i).2, Certified E o.cfg p := by
  refine ⟨hs.prim (.stable acc.1 acc.2 i) trivial, ?_⟩
  unfold Node.checkStableAt
  split
  · exact hacc
  rename_i c hc
  rcases c.checkAndCommitStableCheckPoint_cases acc.1.cfg with heq | ⟨p, w, hp, -, hw, hquorum, heq⟩
  · rw [heq]
    dsimp only
    rw [if_neg Bool.false_ne_true]
    exact hacc
  · rw [heq]
    dsimp only
    split_ifs
    · intro q hq
      rcases List.mem_append.1 hq with hq | hq
      · exact hacc q hq
      · obtain rfl := Option.some.inj (Option.mem_toList.1 hq)
        rw [hs.same.required] at hquorum
        exact ⟨(hs.checkpoints i c p hc hp).congr (setSignatureList_proposal p _), _,
          (hs.tallies i c hc).proven hw hquorum⟩
    · exact hacc

theorem updateStableCheckPointQueue {p : PBFTProposal} (hs : Attests E o s) (hp : Certified E o.cfg p) :
    Attests E o (s.updateStableCheckPointQueue p) := by
  unfold Node.updateStableCheckPointQueue
  refine Attests.steps_plain (E := E) (Node.tryToCommitStableCheckPoint_steps _ Label.plain_wide.isOpen rfl) ?_
  have hsame : SameNodes s { s with stableCheckPointQueue := Node.pushQueue s.stableCheckPointQueue p } := by
    constructor <;> rfl
  refine ⟨hs.same.trans hsame, hs.keys, hs.own, hs.committed, hs.tallies, hs.checkpoints, hs.results, fun q hq => ?_,
    hs.submitted⟩
  rcases mem_pushQueue_iff.1 hq with rfl | hq
  · exact hp
  · exact hs.queue q hq

theorem checkAndCommitStableCheckPoint (hs : Attests E o s) : Attests E o s.checkAndCommitStableCheckPoint := by
  have hcollect : ∀ (l : List Int) (acc : Node × List PBFTProposal), Attests E o acc.1 → (∀ p ∈ acc.2, Certified E o.cfg p) →
      Attests E o (l.foldl Node.checkStableAt acc).1 ∧ ∀ p ∈ (l.foldl Node.checkStableAt acc).2, Certified E o.cfg p := by
    intro l
    induction l with
    | nil => exact fun _ hs hacc => ⟨hs, hacc⟩
    | cons i l ih =>
      intro acc hs hacc
      obtain ⟨hs', hacc'⟩ := hs.checkStableAt hacc i
      exact ih _ hs' hacc'
  have hpush : ∀ (l : List PBFTProposal) (u : Node), Attests E o u → (∀ p ∈ l, Certified E o.cfg p) →
      Attests E o (l.foldl Node.updateStableCheckPointQueue u) := by
    intro l
    induction l with
    | nil => exact fun _ hu _ => hu
    | cons p l ih =>
      intro u hu hl
      obtain ⟨hp, hl⟩ := List.forall_mem_cons.1 hl
      exact ih _ (hu.updateStableCheckPointQueue hp) hl
  obtain ⟨hs', hacc⟩ := hcollect s.caches.keys (s, []) hs (fun p hp => absurd hp List.not_mem_nil)
  exact hpush _ _ hs' hacc

end Attests

/-- A checkpoint message is about the hash of its proposal. -/
def Message.Faithful : Message → Prop
  | .pbft m => m.packetType = .CheckPoint → ∀ p ∈ m.consensusProposal, p.hash = m.hash
  | _ => True

instance : (msg : Message) → Decidable msg.Faithful
  | .pbft m => inferInstanceAs (Decidable (m.packetType = .CheckPoint → ∀ p ∈ m.consensusProposal, p.hash = m.hash))
  | .viewChange _ | .newView _ | .request _ => inferInstanceAs (Decidable True)

/-- The checkpoint messages that the worker handles are faithful, and blocks keep the nodes. -/
def Event.Attested (E : Env) (s : Node) : Event → Prop
  | .finalized b | .newBlock b => 0 ≤ b.blockNumber ∧ Config.sortNodes E b.consensusNodeList = s.cfg.consensusNodeList
  | .worker => s.workerStage = .admitted → ∀ msg ∈ s.msgQueue.head?, msg.Faithful
  | _ => True

instance (E : Env) (s : Node) : (e : Event) → Decidable (e.Attested E s)
  | .finalized b | .newBlock b =>
    inferInstanceAs (Decidable (0 ≤ b.blockNumber ∧ Config.sortNodes E b.consensusNodeList = s.cfg.consensusNodeList))
  | .worker => inferInstanceAs (Decidable (s.workerStage = .admitted → ∀ msg ∈ s.msgQueue.head?, msg.Faithful))
  | .receive .. | .gate | .timeout | .checkPointTimeout .. | .submitProposal .. | .proposalSubmitted _
  | .proposalVerified .. | .proposalLoaded .. | .lowMark _ | .executed .. | .proposalApplied | .notifyNewBlock _
  | .precommitResponse .. | .committedResponse .. | .sealerReset .. | .sealerAnswers _ | .resetTxsFinished _
  | .syncingNumber _ | .connected _ | .clock _ => inferInstanceAs (Decidable True)

namespace Attests

theorem recordCheckPoint {r : Applied} {m : PBFTMessage} (hm : Endorses E o.cfg m) (hr : OfExecution E r.executedProposal)
    (hs : Attests E o s) : Attests E o (s.recordCheckPoint r m) := by
  have hvote : Attests E o (s.addCheckPointMsg m) :=
    hs.prim (.checkPoint s (fun hown => Bool.noConfusion hown)) (l := .checkPoint true m) hm
  have hset : Attests E o ((s.addCheckPointMsg m).setCheckPointProposal r.executedProposal) :=
    hvote.prim (.setCheckPoint _ r.executedProposal) hr
  have hexpect := hset.prim (.expect _ ((s.addCheckPointMsg m).setCheckPointProposal_available r.executedProposal)) trivial
  have happly := hexpect.checkAndCommitStableCheckPoint.steps_plain
    (Node.tryToApplyCommitQueue_steps _ Label.plain_wide.isOpen)
  exact happly.prim (.unmark _ r.proposal.hash) trivial

theorem onProposalApplied (hs : Attests E o s) : Attests E o (s.onProposalApplied E) := by
  rcases s.onProposalApplied_cases E with heq | ⟨r, rest, happ, ⟨-, heq⟩ | ⟨hsucc, hann, heq⟩ | ⟨m, hsucc, hann, heq⟩⟩
  · rw [heq]
    exact hs
  · rw [heq]
    refine (hs.prim (.settle s happ) trivial).steps_plain ?_
    exact Node.onProposalApplyFailed_steps _ Label.plain_wide.isOpen rfl rfl rfl
  · rw [heq]
    exact hs.prim (.announce s happ hsucc hann) trivial
  · rw [heq]
    obtain ⟨hexec, hvote⟩ := hs.results r (by rw [happ]; exact List.mem_cons_self)
    exact (hs.prim (.settle s happ) trivial).recordCheckPoint (hvote m hann) (hexec hsucc)

theorem handleCheckPointMsg {m : PBFTMessage} (hm : ∀ p ∈ m.consensusProposal, p.hash = m.hash) (hs : Attests E o s) :
    Attests E o (s.handleCheckPointMsg E m).1 := by
  unfold Node.handleCheckPointMsg
  split
  · exact hs
  split
  · exact hs
  split
  · exact hs
  split
  · exact hs
  rename_i hsig hproposal
  have hopen := Label.plain_wide.isOpen
  have hchecked : s.checkProposalSignature E m.generatedFrom m.consensusProposal = true := by simpa using hproposal
  have hvote : Attests E o (s.addCheckPointMsg m) :=
    hs.prim (.checkPoint s (fun _ => ⟨by simpa using hsig, hchecked⟩)) (l := .checkPoint false m)
      ((endorses_of_checked hchecked hm).congr hs.same.list.symm)
  have happly := hvote.steps_plain ((s.addCheckPointMsg m).tryToApplyCommitQueue_steps (E := E) hopen)
  have hrequest := happly.checkAndCommitStableCheckPoint.steps_plain ((Node.shouldRequestCheckPoint_quiet _ m).steps hopen)
  dsimp only
  split
  · refine Attests.steps_plain (E := E) ?_ hrequest
    exact Quiet.steps hopen (.same rfl rfl)
  · exact hrequest

end Attests

/-- Every event keeps the proofs of the checkpoints. -/
theorem step_attests {e : Event} (he : e.Attested E s) (h : step E s e = some t) (hs : Attests E o s) : Attests E o t := by
  by_cases hsettle : e = .proposalApplied
  · subst hsettle
    obtain rfl := Option.some.inj h
    exact hs.onProposalApplied
  by_cases hcheck : ∃ m, e.handles s (.pbft m) ∧ m.packetType = .CheckPoint
  · obtain ⟨m, ⟨rfl, -, rest, hq⟩, htype⟩ := hcheck
    rcases s.handleAdmitted_cases h with rfl | ⟨hstage, msg, rest', hq', h⟩
    · exact hs
    · obtain ⟨rfl, rfl⟩ := List.cons.inj (hq'.symm.trans hq)
      unfold Node.handleMsg at h
      simp only [htype] at h
      obtain rfl := Option.some.inj h
      have hdequeue := hs.steps_plain (s.admitted_steps (E := E) hq' rfl rfl)
      exact hdequeue.handleCheckPointMsg (he hstage (.pbft m) (by rw [hq]; rfl) htype)
  · refine hs.steps (step_steps h) fun l hl => ?_
    have hnone : ¬∃ r, e.settles s r := by
      rintro ⟨r, heq, -⟩
      exact hsettle heq
    cases l with
    | checkPoint own m =>
      cases own with
      | false => exact absurd ⟨m, hl⟩ hcheck
      | true =>
        obtain ⟨r, hr, -⟩ := hl
        exact absurd ⟨r, hr⟩ hnone
    | setCheckPoint p =>
      obtain ⟨r, hr, -⟩ := hl
      exact absurd ⟨r, hr⟩ hnone
    | pushStable => exact (hl.elim hnone hcheck).elim
    | nodes ls =>
      obtain ⟨b, rfl, rfl | rfl⟩ := hl
      · exact he.2.trans hs.same.list
      · exact he.2.trans hs.same.list
    | ledger b =>
      obtain rfl | rfl := hl
      · exact he.1
      · exact he.1
    | _ => trivial

theorem CfgStep.keyPair_eq {c c' : Config} (h : CfgStep E l c c') : c'.keyPair = c.keyPair := by
  cases h with
  | same _ h => exact h.keyPair
  | view _ v =>
    unfold Config.resetNewViewState
    split <;> rfl
  | nodes h => exact (Config.setConsensusNodeList_derived h).2.2.1
  | _ => rfl

def Label.starting : Label → Bool
  | .quiet | .mode | .nodes _ | .ledger _ | .load _ => true
  | _ => false

theorem Prim.starting (h : Prim E l s t) (hl : l.starting = true) : t.caches = s.caches ∧ t.applied = s.applied ∧
    t.stableCheckPointQueue = s.stableCheckPointQueue ∧ t.submitted = s.submitted := by
  have hsubmitted := h.submitted fun heq => by
    rw [heq] at hl
    cases hl
  cases h with
  | quiet h =>
    exact ⟨congrArg Core.caches h.core, congrArg Core.applied h.core, congrArg Core.stableCheckPointQueue h.core, hsubmitted⟩
  | mode | nodes | ledger | load => exact ⟨rfl, rfl, rfl, hsubmitted⟩
  | _ => cases hl

theorem initNode_attests {keyPair : KeyPair} {b : LedgerConfig} {state : List PBFTProposal} {s₀ : Node}
    (hsign : E.crypto.Verifies keyPair) (hb : 0 ≤ b.blockNumber) (hinit : initNode E keyPair b state = some s₀)
    (hlen : s₀.cfg.consensusNodeList.length < 2 ^ 64) : Attests E s₀ s₀ := by
  let A : Label → Prop := fun l => l.starting = true ∧ ∀ b', l = .ledger b' → b' = b
  have hA : ∀ l : Label, l.starting = true → (∀ b', l = .ledger b' → b' = b) → A l := fun _ h h' => ⟨h, h'⟩
  obtain ⟨s, hsteps, hs⟩ := initNode_steps (A := A) (hA _ rfl (by simp)) (hA _ rfl (by simp))
    (hA _ rfl (fun _ h => (Label.ledger.inj h).symm)) (hA _ rfl (by simp)) (fun _ _ => hA _ rfl (by simp)) hinit
  let I : Node → Prop := fun u => (u.caches = ∅ ∧ u.applied = [] ∧ u.stableCheckPointQueue = [] ∧ u.submitted = []) ∧
    u.cfg.keyPair = keyPair ∧ 0 ≤ u.cfg.committedIndex
  have hempty : I s := by
    refine hsteps.preserves (I := I) (fun l u v hl hp hu => ?_) ⟨⟨rfl, rfl, rfl, rfl⟩, rfl, le_rfl⟩
    obtain ⟨⟨hcaches, happlied, hqueue, hsubmitted⟩, hkey, hcommitted⟩ := hu
    obtain ⟨hcaches', happlied', hqueue', hsubmitted'⟩ := hp.starting hl.1
    refine ⟨⟨hcaches'.trans hcaches, happlied'.trans happlied, hqueue'.trans hqueue, hsubmitted'.trans hsubmitted⟩,
      hp.cfgStep.keyPair_eq.trans hkey, hcommitted.trans (hp.cfgStep.committedIndex_le fun b' heq => ?_)⟩
    rw [hl.2 b' heq]
    exact hb
  have hstart : I s₀ := by
    rcases hs with rfl | ⟨last, -, rfl⟩
    · exact hempty
    · exact hempty
  obtain ⟨⟨hcaches, happlied, hqueue, hsubmitted⟩, hkey, hcommitted⟩ := hstart
  refine ⟨.refl s₀, ?_, fun node hnode => ?_, hcommitted, ?_, ?_, ?_, ?_, ?_⟩
  · rw [hkey]
    exact hsign
  · rcases (initNode_presides hb hinit).derived.own hlen with hown | ⟨-, hindex⟩
    · rw [Config.nodeIDAt, hnode] at hown
      exact Option.some.inj hown
    · -- the index of a node that is no consensus node is beyond every list
      have hbeyond : s₀.cfg.getConsensusNodeByIndex nonConsensusNode = none :=
        List.getElem?_eq_none (Nat.le_sub_one_of_lt hlen)
      rw [hindex, hbeyond] at hnode
      cases hnode
  · simp [hcaches]
  · simp [hcaches]
  · simp [happlied]
  · simp [hqueue]
  · simp [hsubmitted]

theorem path_attests {keyPair : KeyPair} {b : LedgerConfig} {state : List PBFTProposal} {s₀ : Node}
    {trace : List (Node × Event)} (hsign : E.crypto.Verifies keyPair) (hb : 0 ≤ b.blockNumber)
    (hinit : initNode E keyPair b state = some s₀) (hlen : s₀.cfg.consensusNodeList.length < 2 ^ 64)
    (hrun : Trail (step E) s₀ trace s) (hok : ∀ x ∈ trace, x.2.Attested E x.1) : Attests E s₀ s :=
  hrun.preserves (I := Attests E s₀) (fun _ _ _ he hstep hs => step_attests he hstep hs) hok
    (initNode_attests hsign hb hinit hlen)

def Entries.signatures (es : Entries) : List HeaderSignature := es.map fun e => { index := e.1, signature := e.2 }

theorem Proven.signatureList {cfg : Config} {p : PBFTProposal} {es : Entries} (hp : Proven E cfg p es) :
    LedgerStorage.signatureList p = some es.signatures := by
  unfold LedgerStorage.signatureList
  rw [hp.read]
  have hread : ∀ l : Entries, (l.map some).mapM (fun proof : Option (Int × Bytes) =>
      proof.map fun e => ({ index := e.1, signature := e.2 } : HeaderSignature)) = some l.signatures := by
    intro l
    induction l with
    | nil => rfl
    | cons e l ih =>
      rw [List.map_cons, List.mapM_cons, ih]
      rfl
  exact hread es

/-- The header of an executed block decodes from what the execution has encoded. -/
def DecodesHeader (E : Env) (createBlockHeader : Bytes → Option BlockHeader) : Prop :=
  ∀ data parent, E.headerNumber data = some (E.execute data parent).number →
    ∃ header, createBlockHeader (E.execute data parent).encoded = some header ∧
      header.number = (E.execute data parent).number ∧ header.hash = (E.execute data parent).hash

theorem checkBlock_iff {cfg : Config} {b : Block} (hnumber : b.blockHeader.number ≠ 0)
    (hsigned : BlockValidator.checkSignatureList E cfg b = true) : BlockValidator.checkBlock E cfg b = true ↔
      cfg.committedIndex < b.blockHeader.number ∧
        (b.transactionsSize = 0 ∨ BlockValidator.checkSealerListAndWeightList cfg b = true) := by
  unfold BlockValidator.checkBlock
  rw [if_neg hnumber, hsigned]
  by_cases hold : b.blockHeader.number ≤ cfg.committedIndex
  · simp [hold, not_lt.2 hold]
  · by_cases hempty : b.transactionsSize = 0
    · simp [hempty, hold, not_le.1 hold]
    · simp [hempty, hold, not_le.1 hold]

/-- Every block that a node hands to the ledger, on a run with the same nodes and faithful checkpoint messages, has a header
with the signatures of a quorum on its hash. Each node with these nodes that is not that far takes it from the sync module,
unless the sealers that the execution has put into it are others. -/
theorem stableBlock_accepted {keyPair : KeyPair} {b : LedgerConfig} {state : List PBFTProposal} {s₀ : Node}
    {trace : List (Node × Event)} {p : PBFTProposal} {createBlockHeader : Bytes → Option BlockHeader}
    (hsign : E.crypto.Verifies keyPair) (hheader : DecodesHeader E createBlockHeader) (hb : 0 ≤ b.blockNumber)
    (hinit : initNode E keyPair b state = some s₀) (hlen : s₀.cfg.consensusNodeList.length < 2 ^ 64)
    (hrun : Trail (step E) s₀ trace s) (hok : ∀ x ∈ trace, x.2.Attested E x.1)
    (hp : Action.asyncCommitStableCheckPoint p ∈ s.log) :
    ∃ header, LedgerStorage.asyncCommitStableCheckPoint createBlockHeader p = some header ∧ header.number = p.index ∧
      header.hash = p.hash ∧ QuorumSigned E s.cfg p.hash (BlockValidator.entries { blockHeader := header }) ∧
      ∀ R : Node, R.Reached E → R.cfg.consensusNodeList = s.cfg.consensusNodeList → ∀ n,
        BlockValidator.checkBlock E R.cfg { blockHeader := header, transactionsSize := n } = true ↔
          R.cfg.committedIndex < p.index ∧ (n = 0 ∨
            BlockValidator.checkSealerListAndWeightList R.cfg { blockHeader := header, transactionsSize := n } = true) := by
  have hs := path_attests hsign hb hinit hlen hrun hok
  obtain ⟨hpos, ⟨data, parent, hnumber, hindex, hhash, hdata⟩, es, hes⟩ :=
    hs.submitted p (List.mem_filterMap.2 ⟨_, hp, rfl⟩)
  obtain ⟨decoded, hdecoded, hheadNumber, hheadHash⟩ := hheader data parent hnumber
  let header : BlockHeader := { decoded with signatureList := es.signatures }
  have hentries : ∀ n, BlockValidator.entries { blockHeader := header, transactionsSize := n } = es := fun n => by
    simp [BlockValidator.entries, header, Entries.signatures, Function.comp_def]
  have hnum : header.number = p.index := hheadNumber.trans hindex.symm
  have hash : header.hash = p.hash := hheadHash.trans hhash.symm
  refine ⟨header, ?_, hnum, hash, ?_, fun R hR hlist n => ?_⟩
  · unfold LedgerStorage.asyncCommitStableCheckPoint
    rw [hes.signatureList, hdata, hdecoded]
    rfl
  · rw [hentries]
    exact (hes.congr hs.same.list hs.same.required).quorumSigned
  · have hlist' := hlist.trans hs.same.list
    obtain ⟨keyPair', b', state', r₀, trace', hb', hinit', hrun', hn'⟩ := hR
    have hR := (path_presides hb' hinit' hrun' hn').derived
    have hs₀ := (initNode_presides hb hinit).derived
    have hrequired : R.cfg.minRequiredQuorum = s₀.cfg.minRequiredQuorum := by
      rw [hR.required, hs₀.required, hR.faulty, hs₀.faulty, hR.total, hs₀.total, hlist']
    have hsigned : BlockValidator.checkSignatureList E R.cfg { blockHeader := header, transactionsSize := n } = true := by
      have hcheck := (hes.congr hlist' hrequired).checkProof
      rw [← hash, ← hentries n] at hcheck
      simpa [BlockValidator.checkSignatureList, BlockValidator.entries, Function.comp_def] using hcheck
    rw [checkBlock_iff (by rw [hnum]; exact hpos.ne') hsigned, hnum]

end

def toyBlockHeader (data : Bytes) : Option BlockHeader :=
  some { number := (Toy.blockNumber data).getD 0, hash := Toy.checksum data, sealer := 1,
         sealerList := [[0], [1], [2]], consensusWeights := [7, 1, 1] }

theorem toyBlockHeader_decodes : DecodesHeader Toy.env toyBlockHeader := by
  intro data parent hnumber
  refine ⟨_, rfl, ?_, rfl⟩
  cases data with
  | nil => cases hnumber
  | cons x data => rfl

def toyAttested : List Event :=
  let executed : PBFTProposal := { proposal := { index := 1, hash := (Toy.checksum ([1, 7] ++ zeroHash.val)).val } }
  let checkPoint := PBFTCodec.encode Toy.env (Toy.keyPair 1) 0
    (.pbft (populateVote Toy.env (Toy.keyPair 1) .CheckPoint 0 0 0 1 executed))
  toyPipeline.take 18 ++ Toy.atOnce [.receive [1] checkPoint.1 [], .worker, .proposalApplied]

/-- Node 1 takes the block with both signatures from the sync module. -/
theorem toyAttested_accepted : ∃ trace s p header,
    Trail.states (step Toy.env) (Toy.node 0 [7, 1, 1]) toyAttested = some (trace, s) ∧
      Action.asyncCommitStableCheckPoint p ∈ s.log ∧
      LedgerStorage.asyncCommitStableCheckPoint toyBlockHeader p = some header ∧ header.signatureList.length = 2 ∧
      BlockValidator.checkBlock Toy.env (Toy.node 1 [7, 1, 1]).cfg { blockHeader := header, transactionsSize := 1 } = true := by
  have hrun : ((Trail.states (step Toy.env) (Toy.node 0 [7, 1, 1]) toyAttested).elim false fun r =>
      (r.2.submitted.head?).elim false fun p => (LedgerStorage.asyncCommitStableCheckPoint toyBlockHeader p).elim false fun h =>
        decide (h.signatureList.length = 2 ∧ (Toy.node 1 [7, 1, 1]).cfg.committedIndex < p.index ∧
          (Toy.node 1 [7, 1, 1]).cfg.consensusNodeList = r.2.cfg.consensusNodeList ∧
          BlockValidator.checkSealerListAndWeightList (Toy.node 1 [7, 1, 1]).cfg
            { blockHeader := h, transactionsSize := 1 } = true) &&
          r.1.all fun x => decide (x.2.Attested Toy.env x.1)) = true := by
    decide +kernel
  obtain ⟨⟨trace, s⟩, hs, hcheck⟩ := Toy.exists_of_elim hrun
  obtain ⟨p, hp, hcheck⟩ := Toy.exists_of_elim hcheck
  obtain ⟨h, hh, hcheck⟩ := Toy.exists_of_elim hcheck
  simp only [Bool.and_eq_true, decide_eq_true_eq, List.all_eq_true] at hcheck
  obtain ⟨⟨hsigners, habove, hlist, hsealers⟩, hok⟩ := hcheck
  have hinit : ∀ i, i = 0 ∨ i = 1 → initNode Toy.env (Toy.keyPair i)
      { blockNumber := 0, hash := zeroHash, consensusNodeList := Toy.nodes [7, 1, 1] } [] = some (Toy.node i [7, 1, 1]) := by
    rintro i (rfl | rfl) <;> decide +kernel
  have hreached : (Toy.node 1 [7, 1, 1]).Reached Toy.env :=
    ⟨_, _, _, _, [], le_rfl, hinit 1 (Or.inr rfl), .nil, fun x hx => absurd hx List.not_mem_nil⟩
  obtain ⟨a, ha, hap⟩ := List.mem_filterMap.1 (List.mem_of_head? hp)
  obtain rfl := Action.submission_eq_some.1 hap
  obtain ⟨header, hheader, -, -, -, haccept⟩ := stableBlock_accepted (fun _ => decide_eq_true rfl) toyBlockHeader_decodes le_rfl
    (hinit 0 (Or.inl rfl)) (by decide +kernel) (.of_states hs) hok ha
  obtain rfl := Option.some.inj (hheader.symm.trans hh)
  exact ⟨trace, s, p, header, hs, ha, hh, hsigners, (haccept _ hreached hlist 1).2 ⟨habove, Or.inr hsealers⟩⟩

end BcosPbft
