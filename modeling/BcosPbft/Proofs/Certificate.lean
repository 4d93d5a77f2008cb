import BcosPbft.Proofs.NodeList
import BcosPbft.Spec.BlockValidator
import BcosPbft.Spec.Toy

/-! Lists of signatures as certificates. The loop over the entries checks each of them and adds up one weight
an entry, so what it accepts is a quorum of distinct signers when no index is repeated. -/

namespace BcosPbft

open Config

abbrev Entries := List (Int × Bytes)

def signerIndices (es : Entries) : List IndexType := es.map (fun e => UInt64.ofInt e.1)

def ValidEntry (E : Env) (cfg : Config) (hash : HashType) (e : Int × Bytes) : Prop :=
  ∃ node, cfg.getConsensusNodeByIndex (.ofInt e.1) = some node ∧ E.crypto.verify node.nodeID hash e.2 = true

/-- Pairwise distinct consensus nodes of total weight at least `minRequiredQuorum` signed `hash`. -/
def QuorumSigned (E : Env) (cfg : Config) (hash : HashType) (es : Entries) : Prop :=
  ∃ S : Finset IndexType, (∀ i ∈ S, ∃ e ∈ es, UInt64.ofInt e.1 = i ∧ ValidEntry E cfg hash e) ∧
    cfg.minRequiredQuorum.toNat ≤ ∑ i ∈ S, cfg.weightAt i.toNat

def signerWeight (cfg : Config) (es : Entries) : ℕ :=
  ∑ i ∈ (signerIndices es).toFinset, cfg.weightAt i.toNat

/-- The loop accepts exactly when it reads every entry, each is a valid signature of the node it names, and
the running sum of their weights reaches the quorum. -/
theorem checkProof_eq_true_iff {E : Env} {cfg : Config} {hash : HashType} {l : List (Option (Int × Bytes))}
    {w : UInt64} :
    Node.checkProof E cfg hash l w = some true ↔
      ∃ es : Entries, l = es.map some ∧ (∀ e ∈ es, ValidEntry E cfg hash e) ∧
        cfg.minRequiredQuorum ≤ (signerIndices es).foldl (fun t i => t + cfg.weightOf i) w := by
  induction l generalizing w with
  | nil =>
    simp only [Node.checkProof, Option.some.injEq, decide_eq_true_eq, ge_iff_le]
    refine ⟨fun h => ⟨[], rfl, by simp, h⟩, ?_⟩
    rintro ⟨es, hes, -, h⟩
    obtain rfl : es = [] := by simpa using hes.symm
    exact h
  | cons a t ih =>
    cases a with
    | none =>
      refine ⟨fun h => by simp [Node.checkProof] at h, ?_⟩
      rintro ⟨es, hes, -⟩
      cases es <;> simp at hes
    | some e =>
      rw [Node.checkProof]
      constructor
      · intro h
        split at h
        · simp at h
        · rename_i node hnode
          split at h
          · rename_i hverify
            obtain ⟨es, rfl, hvalid, hweight⟩ := ih.1 h
            refine ⟨e :: es, rfl, ?_, ?_⟩
            · intro e' he'
              rcases List.mem_cons.1 he' with rfl | he'
              · exact ⟨node, hnode, hverify⟩
              · exact hvalid e' he'
            · rw [signerIndices, List.map_cons, List.foldl_cons]
              have hw : cfg.weightOf (.ofInt e.1) = node.weight := by simp [weightOf, hnode]
              rw [hw]
              exact hweight
          · simp at h
      · rintro ⟨es, hes, hvalid, hweight⟩
        cases es with
        | nil => simp at hes
        | cons e' es =>
          obtain ⟨rfl, rfl⟩ : e = e' ∧ t = es.map some := by simpa using hes
          obtain ⟨node, hnode, hverify⟩ := hvalid e (List.mem_cons_self ..)
          have hw : cfg.weightOf (.ofInt e.1) = node.weight := by simp [weightOf, hnode]
          rw [hnode]
          simp only [hverify, if_true]
          refine ih.2 ⟨es, rfl, fun e' he' => hvalid e' (List.mem_cons_of_mem _ he'), ?_⟩
          rw [signerIndices, List.map_cons, List.foldl_cons, hw] at hweight
          exact hweight

/-- With every entry valid, a quorum signed exactly when the distinct indices weigh a quorum. -/
theorem quorumSigned_iff {E : Env} {cfg : Config} {hash : HashType} {es : Entries}
    (hvalid : ∀ e ∈ es, ValidEntry E cfg hash e) :
    QuorumSigned E cfg hash es ↔ cfg.minRequiredQuorum.toNat ≤ signerWeight cfg es := by
  constructor
  · rintro ⟨S, hS, hweight⟩
    refine hweight.trans (Finset.sum_le_sum_of_subset (fun i hi => ?_))
    obtain ⟨e, he, rfl, -⟩ := hS i hi
    rw [List.mem_toFinset]
    exact List.mem_map_of_mem he
  · intro hweight
    refine ⟨_, fun i hi => ?_, hweight⟩
    obtain ⟨e, he, rfl⟩ := List.mem_map.1 (List.mem_toFinset.1 hi)
    exact ⟨e, he, rfl, hvalid e he⟩

namespace BlockValidator

def entries (b : Block) : Entries := b.blockHeader.signatureList.map (fun s => (s.index, s.signature))

def SealersMatch (cfg : Config) (b : Block) : Prop :=
  b.blockHeader.sealerList = cfg.consensusNodeList.map (·.nodeID) ∧
    b.blockHeader.consensusWeights = cfg.consensusNodeList.map (·.weight)

theorem map_eq_of_zip_all {l : List ConsensusNode} {ids : List Bytes} {ws : List UInt64}
    (hids : ids.length = l.length) (hws : ws.length = l.length)
    (h : (l.zip (ids.zip ws)).all (fun e => e.1.nodeID = e.2.1 && e.1.weight = e.2.2) = true) :
    ids = l.map (·.nodeID) ∧ ws = l.map (·.weight) := by
  induction l generalizing ids ws with
  | nil => exact ⟨List.length_eq_zero_iff.1 hids, List.length_eq_zero_iff.1 hws⟩
  | cons n l ih =>
    obtain ⟨a, ids, rfl⟩ := List.exists_cons_of_length_eq_add_one hids
    obtain ⟨w, ws, rfl⟩ := List.exists_cons_of_length_eq_add_one hws
    simp only [List.zip_cons_cons, List.all_cons, Bool.and_eq_true, decide_eq_true_eq] at h
    obtain ⟨⟨hid, hweight⟩, hrest⟩ := h
    obtain ⟨hi, hw⟩ := ih (by simpa using hids) (by simpa using hws) hrest
    rw [List.map_cons, List.map_cons, ← hi, ← hw, hid, hweight]
    exact ⟨rfl, rfl⟩

theorem checkSealerListAndWeightList_spec {cfg : Config} {b : Block}
    (h : checkSealerListAndWeightList cfg b = true) : SealersMatch cfg b := by
  unfold checkSealerListAndWeightList at h
  dsimp only at h
  split at h
  · simp at h
  · split at h
    · simp at h
    · rename_i hlen
      simp only [ne_eq, Bool.or_eq_true, decide_eq_true_eq, not_or, not_not] at hlen
      exact map_eq_of_zip_all hlen.1 hlen.2 h

theorem checkSignatureList_spec {E : Env} {cfg : Config} {b : Block} (h : checkSignatureList E cfg b = true) :
    (∀ e ∈ entries b, ValidEntry E cfg b.blockHeader.hash e) ∧
      cfg.minRequiredQuorum ≤ (signerIndices (entries b)).foldl (fun t i => t + cfg.weightOf i) 0 := by
  have h' := of_decide_eq_true h
  obtain ⟨es, hes, hvalid, hweight⟩ := checkProof_eq_true_iff.1 h'
  have hentries : entries b = es := by
    apply List.map_injective_iff.2 (Option.some_injective _)
    rw [← hes, entries, List.map_map]
    rfl
  rw [hentries]
  exact ⟨hvalid, hweight⟩

/-- What the check is for: the block is new, its header lists the current nodes, and a quorum of them signed
the header. -/
def Sound (E : Env) (cfg : Config) (b : Block) : Prop :=
  cfg.committedIndex < b.blockHeader.number ∧ SealersMatch cfg b ∧
    QuorumSigned E cfg b.blockHeader.hash (entries b)

/-- An accepted block other than the genesis block is new. One with transactions also lists the current
nodes, every signature in it is valid, and if no index is repeated a quorum of distinct nodes signed it. -/
theorem checkBlock_sound {E : Env} {cfg : Config} {b : Block} (hnumber : 0 < b.blockHeader.number)
    (h : checkBlock E cfg b = true) :
    cfg.committedIndex < b.blockHeader.number ∧
      (b.transactionsSize ≠ 0 → SealersMatch cfg b ∧
        (∀ e ∈ entries b, ValidEntry E cfg b.blockHeader.hash e) ∧
        ((signerIndices (entries b)).Nodup → QuorumSigned E cfg b.blockHeader.hash (entries b))) := by
  unfold checkBlock at h
  split at h
  · omega
  split at h
  · simp at h
  rename_i hcommitted
  refine ⟨by omega, fun htxs => ?_⟩
  rw [if_neg htxs] at h
  split at h
  · simp at h
  rename_i hsealers
  split at h
  · simp at h
  rename_i hsign
  obtain ⟨hvalid, hweight⟩ := checkSignatureList_spec (by simpa using hsign)
  refine ⟨checkSealerListAndWeightList_spec (by simpa using hsealers), hvalid, fun hnd => ?_⟩
  rw [quorumSigned_iff hvalid]
  exact (UInt64.le_iff_toNat_le.1 hweight).trans (cfg.toNat_tally_le hnd)

def signedBlock : Block :=
  { transactionsSize := 1
    blockHeader := { number := 1, hash := zeroHash, sealerList := [[0], [1], [2], [3]]
                     consensusWeights := [1, 1, 1, 1]
                     signatureList := [⟨0, 0 :: zeroHash.val⟩, ⟨1, 1 :: zeroHash.val⟩, ⟨3, 3 :: zeroHash.val⟩] } }

theorem signedBlock_sound :
    checkBlock Toy.env (Toy.node 2 [1, 1, 1, 1]).cfg signedBlock = true ∧
      QuorumSigned Toy.env (Toy.node 2 [1, 1, 1, 1]).cfg zeroHash (entries signedBlock) := by
  have hcheck : checkBlock Toy.env (Toy.node 2 [1, 1, 1, 1]).cfg signedBlock = true := by decide +kernel
  exact ⟨hcheck, ((checkBlock_sound (by decide) hcheck).2 (by decide)).2.2 (by decide)⟩

/-- A block without transactions is accepted with an empty sealer list and no signature. -/
theorem emptyBlock_unsound :
    checkBlock Toy.env (Toy.node 2 [1, 1, 1, 1]).cfg { blockHeader := { number := 1, hash := zeroHash } } = true ∧
      ¬Sound Toy.env (Toy.node 2 [1, 1, 1, 1]).cfg { blockHeader := { number := 1, hash := zeroHash } } := by
  refine ⟨by decide +kernel, ?_⟩
  rintro ⟨-, ⟨hsealers, -⟩, -⟩
  revert hsealers
  decide +kernel

end BlockValidator

def PBFTProposal.proof (p : PBFTProposal) : Entries := (List.range p.signatureProofSize).filterMap p.signatureProof

namespace Node

theorem checkPrecommitWeight_spec {E : Env} {s : Node} {p : PBFTProposal}
    (h : s.checkPrecommitWeight E p = some true) : ∀ e ∈ p.proof, ValidEntry E s.cfg p.hash e := by
  obtain ⟨es, hes, hvalid, -⟩ := checkProof_eq_true_iff.1 h
  have hproof : p.proof = es := by
    have hmap : p.proof = ((List.range p.signatureProofSize).map p.signatureProof).filterMap id := by
      rw [PBFTProposal.proof, List.filterMap_map]
      rfl
    rw [hmap, hes, List.filterMap_map]
    simp
  rw [hproof]
  exact hvalid

/-- What an accepted prepared message is taken for. -/
def PreparedSound (E : Env) (s : Node) (m : PBFTMessage) : Prop :=
  ∃ p, m.consensusProposal = some p ∧ QuorumSigned E s.cfg p.hash p.proof ∧ m.index = p.index ∧ m.hash = p.hash

/-- The proof still weighs a quorum when each index counts once, and the message names its proposal. -/
def preparedCondition (s : Node) (m : PBFTMessage) : Prop :=
  ∃ p, m.consensusProposal = some p ∧ s.cfg.minRequiredQuorum.toNat ≤ signerWeight s.cfg p.proof ∧
    m.index = p.index ∧ m.hash = p.hash

/-- An accepted prepared message is a quorum certificate for its own index and hash exactly when its proof
reaches the quorum without counting an index twice and its index and hash are those of the proposal. -/
theorem checkPrecommitMsg_sound_iff {E : Env} {s : Node} {m : PBFTMessage}
    (h : s.checkPrecommitMsg E m = some true) : PreparedSound E s m ↔ preparedCondition s m := by
  unfold checkPrecommitMsg at h
  split at h
  · simp at h
  cases hm : m.consensusProposal with
  | none => simp [hm] at h
  | some p =>
    simp only [hm] at h
    have hvalid := checkPrecommitWeight_spec h
    unfold PreparedSound preparedCondition
    simp only [hm, Option.some.injEq, exists_eq_left', quorumSigned_iff hvalid]

def provenProposal (signers : List UInt8) : PBFTProposal :=
  { proposal := { index := 1, hash := zeroHash.val }, nodeList := signers.map (fun b => (b.toNat : Int))
    signatureList := signers.map (fun b => b :: zeroHash.val) }

def preparedMsg (index : Int) (signers : List UInt8) : PBFTMessage :=
  { base := { index := index, hash := zeroHash.val }, raw := { consensusProposal := some (provenProposal signers) } }

theorem preparedMsg_sound :
    (Toy.node 3 [1, 1, 1, 1]).checkPrecommitMsg Toy.env (preparedMsg 1 [0, 1, 2]) = some true ∧
      PreparedSound Toy.env (Toy.node 3 [1, 1, 1, 1]) (preparedMsg 1 [0, 1, 2]) := by
  have hcheck : (Toy.node 3 [1, 1, 1, 1]).checkPrecommitMsg Toy.env (preparedMsg 1 [0, 1, 2]) = some true := by
    decide +kernel
  refine ⟨hcheck, (checkPrecommitMsg_sound_iff hcheck).2 ⟨provenProposal [0, 1, 2], rfl, ?_, rfl, rfl⟩⟩
  decide +kernel

/-- One node's signature three times makes a certificate, and the message may name another index. -/
theorem preparedMsg_unsound :
    (Toy.node 3 [1, 1, 1, 1]).checkPrecommitMsg Toy.env (preparedMsg 1 [0, 0, 0]) = some true ∧
      ¬PreparedSound Toy.env (Toy.node 3 [1, 1, 1, 1]) (preparedMsg 1 [0, 0, 0]) ∧
      (Toy.node 3 [1, 1, 1, 1]).checkPrecommitMsg Toy.env (preparedMsg 2 [0, 1, 2]) = some true ∧
      ¬PreparedSound Toy.env (Toy.node 3 [1, 1, 1, 1]) (preparedMsg 2 [0, 1, 2]) := by
  have hrepeated : (Toy.node 3 [1, 1, 1, 1]).checkPrecommitWeight Toy.env (provenProposal [0, 0, 0]) = some true := by
    decide +kernel
  refine ⟨by decide +kernel, ?_, by decide +kernel, ?_⟩
  · rintro ⟨p, hp, hsigned, -⟩
    obtain rfl : provenProposal [0, 0, 0] = p := Option.some.inj hp
    rw [quorumSigned_iff (checkPrecommitWeight_spec hrepeated)] at hsigned
    revert hsigned
    decide +kernel
  · rintro ⟨p, hp, -, hindex, -⟩
    obtain rfl : provenProposal [0, 1, 2] = p := Option.some.inj hp
    revert hindex
    decide

end Node

end BcosPbft
