import BcosPbft.Proofs.Effects
import BcosPbft.Proofs.NewView
import Mathlib.Data.Set.Finite.Lattice

/-! What the signature of a received message proves. A node's key signs hash fields, payloads and proposal hashes
alike; a vote's signature covers its hash fields and not its packet type, and the digest that a view-change or
new-view message is checked against is the one on the wire whenever the payload brings signature data along. -/

namespace BcosPbft

/-- The history of a key: it verifies signatures of the recorded digests only, and these are known to everyone. -/
structure Signs (E : Env) (publicKey : NodeID) (history : List SignRecord) : Prop where
  unforgeable : ∀ digest signature, E.crypto.verify publicKey digest signature = true →
    ∃ r ∈ history, r.digest E = digest
  published : ∀ r ∈ history, ∃ signature, signature.length ≠ 0 ∧ E.crypto.verify publicKey (r.digest E) signature = true

/-- Node `X` of the receiver's list has this key. -/
def HasKey (s : Node) (X : IndexType) (publicKey : NodeID) : Prop :=
  (s.cfg.getConsensusNodeByIndex X).map ConsensusNode.nodeID = some publicKey

/-- A receiver that has key `publicKey` at index `X` and waits for index `i`. -/
def receiver (publicKey : NodeID) (X : IndexType) (i : Int) : Node :=
  { cfg := { keyPair := default, nodeIndex := X + 1
             consensusNodeList := List.replicate (X.toNat + 1) { nodeID := publicKey, weight := 1 }
             committedProposal := some { proposal := { index := i - 1 } }
             progressedIndex := i, expectedCheckPoint := i, lowWaterMark := i, syncingHighestNumber := i - 1 } }

theorem receiver_node (publicKey : NodeID) (X : IndexType) (i : Int) :
    (receiver publicKey X i).cfg.getConsensusNodeByIndex X = some { nodeID := publicKey, weight := 1 } := by
  simp [receiver, Config.getConsensusNodeByIndex]

theorem receiver_hasKey (publicKey : NodeID) (X : IndexType) (i : Int) :
    HasKey (receiver publicKey X i) X publicKey := by
  rw [HasKey, receiver_node]
  rfl

theorem checkSignature_hasKey {E : Env} {s : Node} {req : Message} {X : IndexType} {publicKey : NodeID}
    (h : s.checkSignature E req = true) (hkey : HasKey s X publicKey) (hX : req.base.generatedFrom = X) :
    req.verifySignature E publicKey = true := by
  obtain ⟨node, hnode, hverify⟩ := Node.checkSignature_node h
  rw [HasKey, ← hX, hnode] at hkey
  exact Option.some.inj hkey ▸ hverify

def SignedViewChange (E : Env) (history : List SignRecord) (m : ViewChangeMsg) : Prop :=
  ∃ data raw, SignRecord.payLoad .ViewChangePacket data ∈ history ∧ E.pb.rawViewChange.decode data = some raw ∧
    raw.message.view = m.view ∧ raw.message.index = m.index ∧ raw.committedProposal = m.committedProposal ∧
    raw.preparedProposals = m.preparedProposals.map (·.raw)

def SignedNewView (E : Env) (history : List SignRecord) (m : NewViewMsg) : Prop :=
  ∃ data raw, SignRecord.payLoad .NewViewPacket data ∈ history ∧ E.pb.rawNewView.decode data = some raw ∧
    raw.message.view = m.view ∧ raw.message.index = m.index ∧
    raw.viewChangeMsgList = m.viewChangeMsgList.map (·.rawViewChange) ∧
    raw.prePrepareList = m.prePrepareList.map (·.raw)

/-- A view change that passes the check in the name of `X` has been signed by `X`. -/
def AuthenticViewChange (E : Env) (s : Node) (X : IndexType) (history : List SignRecord) (m : ViewChangeMsg) : Prop :=
  m.generatedFrom = X → s.checkSignature E (.viewChange m) = true → SignedViewChange E history m

/-- A decoded message authenticates its view changes and new views, nested ones included. -/
def AuthenticMessage (E : Env) (s : Node) (X : IndexType) (history : List SignRecord) : Message → Prop
  | .viewChange m => m.packetType = .ViewChangePacket → AuthenticViewChange E s X history m
  | .newView m => (m.generatedFrom = X → s.checkSignature E (.newView m) = true → SignedNewView E history m) ∧
      ∀ vc ∈ m.viewChangeMsgList, AuthenticViewChange E s X history vc
  | _ => True

/-- Every byte string delivered to every node that has the key at index `X`. -/
def ViewChangesAuthentic (E : Env) (publicKey : NodeID) (X : IndexType) (history : List SignRecord) : Prop :=
  ∀ s data msg, HasKey s X publicKey → PBFTCodec.decode E data = some msg → AuthenticMessage E s X history msg

def wireViewChange (X : IndexType) (index : Int) (digest : HashType) (signature : Bytes) : RawViewChangeMessage :=
  { message := { index := index, generatedFrom := X, signatureHash := digest.val, signatureData := signature } }

def viewChangePacket (E : Env) (raw : RawViewChangeMessage) : Bytes :=
  E.pb.rawMessage.encode { type := PacketType.ViewChangePacket.toInt, payLoad := E.pb.rawViewChange.encode raw }

theorem decode_wireViewChange {E : Env} (hpb : E.pb.Lawful) (X : IndexType) (index : Int) (digest : HashType)
    {signature : Bytes} (hsig : signature.length ≠ 0) :
    PBFTCodec.decode E (viewChangePacket E (wireViewChange X index digest signature)) =
      some (.viewChange { base := (wireViewChange X index digest signature).message, signatureDataHash := digest }) := by
  have htype : PacketType.ofInt PacketType.ViewChangePacket.toInt = some .ViewChangePacket := rfl
  have hempty : (decide (signature.length = 0)) = false := by simpa using hsig
  simp only [PBFTCodec.decode, viewChangePacket, hpb.rawMessage _, htype, PBFTCodec.decodePayLoad, hpb.rawViewChange _,
    ViewChangeMsg.ofRaw, wireViewChange, PBFTCodec.handleSignature, hempty, Bool.and_false, List.mapM_nil, toHash_val,
    Option.bind_some, Option.map_some, Option.pure_def, Option.bind_eq_bind]
  simp

def signedIndices (E : Env) (history : List SignRecord) : List Int :=
  history.filterMap fun r =>
    match r with
    | .payLoad _ data => (E.pb.rawViewChange.decode data).map (·.message.index)
    | _ => none

theorem SignedViewChange.index_mem {E : Env} {history : List SignRecord} {m : ViewChangeMsg}
    (h : SignedViewChange E history m) : m.index ∈ signedIndices E history := by
  obtain ⟨data, raw, hmem, hraw, -, hindex, -⟩ := h
  exact List.mem_filterMap.2 ⟨_, hmem, by simp [hraw, hindex]⟩

/-- One published signature is enough to pass for a view change that was never signed. -/
theorem exists_forged_viewChange {E : Env} {publicKey : NodeID} {X : IndexType} {history : List SignRecord}
    (hpb : E.pb.Lawful) (hsigns : Signs E publicKey history) {r : SignRecord} (hr : r ∈ history) :
    ∃ s data m, HasKey s X publicKey ∧ PBFTCodec.decode E data = some (.viewChange m) ∧
      m.packetType = .ViewChangePacket ∧ m.generatedFrom = X ∧ s.checkSignature E (.viewChange m) = true ∧
      ¬SignedViewChange E history m := by
  obtain ⟨signature, hsig, hverify⟩ := hsigns.published r hr
  obtain ⟨i, hi⟩ := (signedIndices E history).toFinset.exists_notMem
  rw [List.mem_toFinset] at hi
  refine ⟨receiver publicKey X 0, _, _, receiver_hasKey publicKey X 0,
    decode_wireViewChange hpb X i (r.digest E) hsig, rfl, rfl, ?_, fun h => hi h.index_mem⟩
  have hnode := receiver_node publicKey X 0
  simp only [Node.checkSignature, Message.base, wireViewChange, hnode]
  exact hverify

theorem Signs.checkSignature {E : Env} {publicKey : NodeID} {history : List SignRecord}
    (hsigns : Signs E publicKey history) {s : Node} {X : IndexType} {req : Message}
    (h : s.checkSignature E req = true) (hkey : HasKey s X publicKey) (hX : req.base.generatedFrom = X) :
    ∃ r, r ∈ history := by
  have hverify := checkSignature_hasKey h hkey hX
  cases req with
  | pbft m =>
    obtain ⟨r, hr, -⟩ := hsigns.unforgeable _ _ hverify
    exact ⟨r, hr⟩
  | viewChange m =>
    obtain ⟨r, hr, -⟩ := hsigns.unforgeable _ _ hverify
    exact ⟨r, hr⟩
  | newView m =>
    obtain ⟨r, hr, -⟩ := hsigns.unforgeable _ _ hverify
    exact ⟨r, hr⟩
  | request m =>
    obtain ⟨r, hr, -⟩ := hsigns.unforgeable _ _ hverify
    exact ⟨r, hr⟩

/-- The digest that `decode` recomputes is the one that is checked. -/
theorem handleSignature_digest {E : Env} {s : Node} {X : IndexType} {publicKey : NodeID} {history : List SignRecord}
    (hsigns : Signs E publicKey history) {raw : RawMessage} {t : PacketType} {msg : Message} (hkey : HasKey s X publicKey)
    (ht : PBFTCodec.shouldHandleSignature t = true) (hdecode : PBFTCodec.decodePayLoad E t raw.payLoad = some msg)
    (hempty : msg.base.signatureData = []) (hX : msg.base.generatedFrom = X)
    (h : s.checkSignature E (PBFTCodec.handleSignature E raw msg) = true) :
    ∃ r ∈ history, r.digest E = E.crypto.hash raw.payLoad := by
  cases t <;> simp only [PBFTCodec.shouldHandleSignature, reduceCtorEq, decide_false, decide_true, Bool.or_true,
    Bool.or_false, Bool.false_eq_true] at ht
  · simp only [PBFTCodec.decodePayLoad] at hdecode
    obtain ⟨m, -, rfl⟩ := Option.map_eq_some_iff.1 hdecode
    have hsig : m.base.signatureData = [] := hempty
    simp only [PBFTCodec.handleSignature, PBFTCodec.shouldHandleSignature, hsig, decide_true, Bool.true_or,
      List.length_nil, Bool.and_true, if_true] at h
    exact hsigns.unforgeable _ _ (checkSignature_hasKey h hkey hX)
  · simp only [PBFTCodec.decodePayLoad] at hdecode
    obtain ⟨m, -, rfl⟩ := Option.map_eq_some_iff.1 hdecode
    have hsig : m.base.signatureData = [] := hempty
    simp only [PBFTCodec.handleSignature, PBFTCodec.shouldHandleSignature, hsig, decide_true, Bool.or_true,
      List.length_nil, Bool.and_true, if_true] at h
    exact hsigns.unforgeable _ _ (checkSignature_hasKey h hkey hX)

/-- The check of view changes and new views proves that the named node has signed their content only as long as that
node has published no signature at all: the digest on the wire may be any that it has ever signed. Where `decode`
recomputes the digest, the check does show that the node has signed the digest of the payload. -/
theorem viewChanges_authentic_iff {E : Env} {publicKey : NodeID} {X : IndexType} {history : List SignRecord}
    (hpb : E.pb.Lawful) (hsigns : Signs E publicKey history) :
    (ViewChangesAuthentic E publicKey X history ↔ history = []) ∧
      ∀ s raw t msg, HasKey s X publicKey → PBFTCodec.shouldHandleSignature t = true →
        PBFTCodec.decodePayLoad E t raw.payLoad = some msg → msg.base.signatureData = [] →
        msg.base.generatedFrom = X → s.checkSignature E (PBFTCodec.handleSignature E raw msg) = true →
        ∃ r ∈ history, r.digest E = E.crypto.hash raw.payLoad := by
  refine ⟨⟨fun h => ?_, fun h => ?_⟩, fun s raw t msg hkey ht hdecode hempty hX hcheck => ?_⟩
  · by_contra hne
    obtain ⟨r, hr⟩ := List.exists_mem_of_ne_nil history hne
    obtain ⟨s, data, m, hkey, hdecode, htype, hX, hcheck, hnot⟩ := exists_forged_viewChange (X := X) hpb hsigns hr
    exact hnot (h s data _ hkey hdecode htype hX hcheck)
  · subst h
    have hnever : ∀ {s req}, s.checkSignature E req = true → HasKey s X publicKey → req.base.generatedFrom ≠ X := by
      intro s req hcheck hkey hX
      obtain ⟨r, hr⟩ := hsigns.checkSignature hcheck hkey hX
      cases hr
    intro s data msg hkey hdecode
    cases msg with
    | pbft m => trivial
    | viewChange m => exact fun _ hX hcheck => (hnever hcheck hkey hX).elim
    | newView m =>
      exact ⟨fun hX hcheck => (hnever hcheck hkey hX).elim, fun vc _ hX hcheck => (hnever hcheck hkey hX).elim⟩
    | request m => trivial
  · exact handleSignature_digest hsigns hkey ht hdecode hempty hX hcheck

theorem SignRecord.digest_keyed (publicKey : NodeID) (history : List SignRecord) (r : SignRecord) :
    r.digest (Toy.keyed publicKey history) = r.digest Toy.env := by
  cases r <;> rfl

theorem keyed_signs (publicKey : NodeID) (history : List SignRecord) :
    Signs (Toy.keyed publicKey history) publicKey history := by
  constructor
  · intro digest signature h
    simp only [Toy.keyed, Bool.and_eq_true, Bool.or_eq_true, decide_eq_true_eq, ne_eq, not_true, false_or,
      List.any_eq_true] at h
    obtain ⟨-, r, hr, hdigest⟩ := h
    exact ⟨r, hr, by rw [SignRecord.digest_keyed, hdigest]⟩
  · intro r hr
    refine ⟨publicKey ++ (r.digest Toy.env).val, ?_, ?_⟩
    · have hlen := (r.digest Toy.env).property
      rw [List.length_append, hlen]
      omega
    · rw [SignRecord.digest_keyed]
      simp only [Toy.keyed, decide_true, Bool.true_and, ne_eq, not_true, decide_false, Bool.false_or, List.any_eq_true,
        decide_eq_true_eq]
      exact ⟨r, hr, rfl⟩

theorem keyed_viewChanges :
    ViewChangesAuthentic (Toy.keyed [0] []) [0] 0 [] ∧
      ¬ViewChangesAuthentic (Toy.keyed [0] [.proposal zeroHash]) [0] 0 [.proposal zeroHash] := by
  constructor
  · exact (viewChanges_authentic_iff Toy.protobuf_lawful (keyed_signs [0] [])).1.2 rfl
  · intro h
    have hnil := (viewChanges_authentic_iff Toy.protobuf_lawful (keyed_signs [0] [.proposal zeroHash])).1.1 h
    cases hnil

def toyVote : PBFTMessage := populateVote Toy.env (Toy.keyPair 0) .PreparePacket 0 0 0 0 (Toy.proposal 7)

def toyVoteHistory : List SignRecord :=
  .proposal (Toy.proposal 7).hash :: (PBFTCodec.encode Toy.env (Toy.keyPair 0) 0 (.pbft toyVote)).2.2

def toyForgedViewChange : RawViewChangeMessage :=
  wireViewChange 0 5 (Toy.proposal 7).hash (toyVote.consensusProposal.getD {}).signature

def toyForgedNewView : Bytes :=
  Toy.env.pb.rawMessage.encode
    { type := PacketType.NewViewPacket.toInt
      payLoad := Toy.env.pb.rawNewView.encode { message := { view := 1, generatedFrom := 2 }
                                                viewChangeMsgList := [toyForgedViewChange] } }

def Message.viewChanges : Message → Option (List ViewChangeMsg)
  | .newView m => some m.viewChangeMsgList
  | _ => none

theorem toyForged_unauthentic :
    Signs (Toy.keyed [0] toyVoteHistory) [0] toyVoteHistory ∧ HasKey (Toy.node 3 [1, 1, 1, 1]) 0 [0] ∧
    (∃ m, PBFTCodec.decode (Toy.keyed [0] toyVoteHistory) (viewChangePacket (Toy.keyed [0] toyVoteHistory)
        toyForgedViewChange) = some (.viewChange m) ∧ m.packetType = .ViewChangePacket ∧
      ¬AuthenticViewChange (Toy.keyed [0] toyVoteHistory) (Toy.node 3 [1, 1, 1, 1]) 0 toyVoteHistory m) ∧
    ∃ m, PBFTCodec.decode (Toy.keyed [0] toyVoteHistory) toyForgedNewView = some (.newView m) ∧
      ∃ vc ∈ m.viewChangeMsgList,
        ¬AuthenticViewChange (Toy.keyed [0] toyVoteHistory) (Toy.node 3 [1, 1, 1, 1]) 0 toyVoteHistory vc := by
  have hnot : ∀ m, ¬SignedViewChange (Toy.keyed [0] toyVoteHistory) toyVoteHistory m := by
    rintro m ⟨data, raw, hmem, -⟩
    revert hmem
    simp [toyVoteHistory, PBFTCodec.encode]
  refine ⟨keyed_signs [0] toyVoteHistory, by unfold HasKey; decide +kernel, ?_, ?_⟩
  · refine ⟨{ base := toyForgedViewChange.message, signatureDataHash := (Toy.proposal 7).hash }, by decide +kernel, rfl,
      fun h => hnot _ (h rfl (by decide +kernel))⟩
  · have hlist : (PBFTCodec.decode (Toy.keyed [0] toyVoteHistory) toyForgedNewView).bind Message.viewChanges =
        some [{ base := toyForgedViewChange.message, signatureDataHash := (Toy.proposal 7).hash }] := by
      decide +kernel
    obtain ⟨msg, hdecode, hmsg⟩ := Option.bind_eq_some_iff.1 hlist
    unfold Message.viewChanges at hmsg
    split at hmsg
    · rename_i m
      refine ⟨m, hdecode, { base := toyForgedViewChange.message, signatureDataHash := (Toy.proposal 7).hash }, ?_,
        fun h => hnot _ (h rfl (by decide +kernel))⟩
      rw [Option.some.inj hmsg]
      exact List.mem_cons_self
    · cases hmsg

def PacketType.isVote (t : PacketType) : Bool := t = .PreparePacket || t = .CommitPacket || t = .CheckPoint

def PBFTCache.tally (t : PacketType) (c : PBFTCache) : CollectionCache :=
  match t with
  | .PreparePacket => c.prepareCacheList
  | .CommitPacket => c.commitCacheList
  | _ => c.checkpointCacheList

def Counted (s : Node) (m : PBFTMessage) : Prop :=
  ∃ c, s.caches.find? m.index = some c ∧
    ((c.tally m.packetType).find? m.hash).bind (·.find? m.generatedFrom) = some m

/-- The key has signed the hash fields of a message of this packet type, index, hash and view. -/
def Generated (E : Env) (history : List SignRecord) (t : PacketType) (index : Int) (hash : HashType)
    (view : ViewType) : Prop :=
  ∃ data b, SignRecord.hashFields t data ∈ history ∧ E.pb.baseMessage.decode data = some b ∧
    b.index = index ∧ toHash b.hash = hash ∧ b.view = view

/-- Every vote that a delivered byte string adds to a tally under `X` is one that `X` has generated. -/
def VotesAuthentic (E : Env) (publicKey : NodeID) (X : IndexType) (history : List SignRecord) : Prop :=
  ∀ (s t : Node) (fromNode : NodeID) (data : Bytes) (m : PBFTMessage), HasKey s X publicKey →
    (PBFTCodec.decode E data).map (Message.setFrom fromNode) = some (.pbft m) → m.packetType.isVote = true →
    m.generatedFrom = X → s.handleMsg E (.pbft m) = some t → ¬Counted s m → Counted t m →
    Generated E history m.packetType m.index m.hash m.view

/-- The history has a vote of each packet type for whatever hash fields have a signed digest: for every signed message
the votes that it can be relabelled to, and for every signed proposal hash or payload those it is the digest of. -/
def RelabelClosed (E : Env) (X : IndexType) (history : List SignRecord) : Prop :=
  ∀ data b, (∃ r ∈ history, r.digest E = E.crypto.hash data) → E.pb.baseMessage.decode data = some b →
    b.generatedFrom = X → ∀ t : PacketType, t.isVote = true → Generated E history t b.index (toHash b.hash) b.view

theorem decode_pbft {E : Env} {fromNode : NodeID} {data : Bytes} {m : PBFTMessage}
    (h : (PBFTCodec.decode E data).map (Message.setFrom fromNode) = some (.pbft m)) :
    m.signatureDataHash = E.crypto.hash m.raw.hashFieldsData ∧
      E.pb.baseMessage.decode m.raw.hashFieldsData = some m.base := by
  obtain ⟨msg, hmsg, hfrom⟩ := Option.map_eq_some_iff.1 h
  unfold PBFTCodec.decode at hmsg
  obtain ⟨raw, -, hmsg⟩ := Option.bind_eq_some_iff.1 hmsg
  obtain ⟨t, -, hmsg⟩ := Option.bind_eq_some_iff.1 hmsg
  obtain ⟨msg', hpay, hmsg⟩ := Option.bind_eq_some_iff.1 hmsg
  obtain rfl := Option.some.inj hmsg
  cases msg' with
  | pbft m' =>
    obtain rfl := Message.pbft.inj hfrom
    have hdecoded : ∃ m₀, PBFTMessage.decodeAndSetSignature E raw.payLoad = some m₀ ∧
        m' = { m₀ with packetType := t } := by
      cases t <;> simp only [PBFTCodec.decodePayLoad] at hpay <;>
        obtain ⟨m₀, hm₀, heq⟩ := Option.map_eq_some_iff.1 hpay <;>
        first | exact ⟨m₀, hm₀, (Message.pbft.inj heq).symm⟩ | cases heq
    obtain ⟨m₀, hm₀, rfl⟩ := hdecoded
    unfold PBFTMessage.decodeAndSetSignature at hm₀
    obtain ⟨rawMsg, -, hm₀⟩ := Option.bind_eq_some_iff.1 hm₀
    obtain ⟨m₁, hm₁, hm₀⟩ := Option.bind_eq_some_iff.1 hm₀
    obtain rfl := Option.some.inj hm₀
    obtain ⟨b, hb, rfl⟩ := Option.map_eq_some_iff.1 hm₁
    exact ⟨rfl, hb⟩
  | viewChange m' =>
    simp only [PBFTCodec.handleSignature] at hfrom
    split at hfrom <;> cases hfrom
  | newView m' =>
    simp only [PBFTCodec.handleSignature] at hfrom
    split at hfrom <;> cases hfrom
  | request m' => cases hfrom

theorem checkPBFTMsg_spec {E : Env} {s : Node} {m : PBFTMessage} (h : s.checkPBFTMsg E m = true) :
    s.checkPBFTMsgState m = true ∧ m.generatedFrom ≠ s.cfg.nodeIndex ∧ s.checkSignature E (.pbft m) = true := by
  unfold Node.checkPBFTMsg at h
  split at h
  · cases h
  split at h
  · cases h
  split at h
  · cases h
  · rename_i hstate hself _
    exact ⟨by simpa using hstate, hself, h⟩

theorem handleMsg_counted {E : Env} {s t : Node} {m : PBFTMessage} (hvote : m.packetType.isVote = true)
    (h : s.handleMsg E (.pbft m) = some t) (hbefore : ¬Counted s m) (hafter : Counted t m) :
    s.checkSignature E (.pbft m) = true := by
  have hne : t ≠ s := fun heq => hbefore (heq ▸ hafter)
  unfold Node.handleMsg at h
  dsimp only at h
  split at h
  · rename_i ht
    rw [ht] at hvote
    cases hvote
  · obtain rfl := Option.some.inj h
    unfold Node.handlePrepareMsg at hne
    split at hne
    · exact absurd rfl hne
    · rename_i hcheck
      exact (checkPBFTMsg_spec (by simpa using hcheck)).2.2
  · obtain ⟨⟨u, ret⟩, hu, rfl⟩ := Option.map_eq_some_iff.1 h
    unfold Node.handleCommitMsg at hu
    split at hu
    · obtain ⟨rfl, -⟩ := Prod.mk.inj (Option.some.inj hu)
      exact absurd rfl hne
    · rename_i hcheck
      exact (checkPBFTMsg_spec (by simpa using hcheck)).2.2
  · obtain rfl := Option.some.inj h
    unfold Node.handleCheckPointMsg at hne
    split at hne
    · exact absurd rfl hne
    split at hne
    · exact absurd rfl hne
    split at hne
    · exact absurd rfl hne
    · rename_i hcheck
      simpa using hcheck
  · rename_i ht
    rw [ht] at hvote
    cases hvote
  · rename_i ht
    rw [ht] at hvote
    cases hvote
  · exact absurd (Option.some.inj h).symm hne

def relabelled (E : Env) (data signature : Bytes) : PBFTRawMessage :=
  { hashFieldsData := data, signatureData := signature
    consensusProposal := some { proposal := { hash := (E.crypto.hash data).val, signature := signature } } }

def relabelledVote (E : Env) (t : PacketType) (b : BaseMessage) (data signature : Bytes) (fromNode : NodeID) :
    PBFTMessage :=
  { packetType := t, base := b, raw := relabelled E data signature, signatureDataHash := E.crypto.hash data
    fromNode := some fromNode }

def votePacket (E : Env) (t : PacketType) (raw : PBFTRawMessage) : Bytes :=
  E.pb.rawMessage.encode { type := t.toInt, payLoad := E.pb.pbftRawMessage.encode raw }

theorem decode_votePacket {E : Env} (hpb : E.pb.Lawful) {t : PacketType} (ht : t.isVote = true) {b : BaseMessage}
    {data : Bytes} (hb : E.pb.baseMessage.decode data = some b) (signature : Bytes) (fromNode : NodeID) :
    (PBFTCodec.decode E (votePacket E t (relabelled E data signature))).map (Message.setFrom fromNode) =
      some (.pbft (relabelledVote E t b data signature fromNode)) := by
  have hraw : PBFTMessage.decodeAndSetSignature E (E.pb.pbftRawMessage.encode (relabelled E data signature)) =
      some { base := b, raw := relabelled E data signature, signatureDataHash := E.crypto.hash data } := by
    simp [PBFTMessage.decodeAndSetSignature, hpb.pbftRawMessage _, PBFTMessage.ofRaw, relabelled, hb]
  have hpay : PBFTCodec.decodePayLoad E t (E.pb.pbftRawMessage.encode (relabelled E data signature)) =
      some (.pbft { packetType := t, base := b, raw := relabelled E data signature
                    signatureDataHash := E.crypto.hash data }) := by
    cases t <;> simp [PacketType.isVote] at ht <;> simp [PBFTCodec.decodePayLoad, hraw]
  simp [PBFTCodec.decode, votePacket, hpb.rawMessage _, hpay, PBFTCodec.handleSignature, Message.setFrom,
    relabelledVote]

section

variable {E : Env} {publicKey : NodeID} {X : IndexType} {b : BaseMessage} {data signature : Bytes} (t : PacketType)
  (fromNode : NodeID)

theorem receiver_checkSignature (hX : b.generatedFrom = X)
    (hverify : E.crypto.verify publicKey (E.crypto.hash data) signature = true) :
    (receiver publicKey X b.index).checkSignature E (.pbft (relabelledVote E t b data signature fromNode)) = true := by
  have hnode := receiver_node publicKey X b.index
  simp only [Node.checkSignature, Message.base, relabelledVote, hX, hnode]
  exact hverify

theorem receiver_checkProposalSignature (hsig : signature.length ≠ 0)
    (hverify : E.crypto.verify publicKey (E.crypto.hash data) signature = true) :
    (receiver publicKey X b.index).checkProposalSignature E X
      (relabelledVote E t b data signature fromNode).consensusProposal = true := by
  have hnode := receiver_node publicKey X b.index
  simp only [Node.checkProposalSignature, relabelledVote, relabelled, PBFTMessage.consensusProposal,
    PBFTProposal.signature, PBFTProposal.hash, toHash_val, if_neg hsig, hnode, hverify]

theorem receiver_checkPBFTMsg (hX : b.generatedFrom = X)
    (hverify : E.crypto.verify publicKey (E.crypto.hash data) signature = true) :
    (receiver publicKey X b.index).checkPBFTMsg E (relabelledVote E t b data signature fromNode) = true := by
  have hstate : (receiver publicKey X b.index).checkPBFTMsgState (relabelledVote E t b data signature fromNode) = true := by
    simp [Node.checkPBFTMsgState, receiver, relabelledVote, relabelled, PBFTMessage.consensusProposal,
      PBFTMessage.index, PBFTMessage.view, Config.highWaterMark]
  have hself : (relabelledVote E t b data signature fromNode).generatedFrom ≠ (receiver publicKey X b.index).cfg.nodeIndex := by
    simp [relabelledVote, PBFTMessage.generatedFrom, receiver, hX]
  have hnew : (receiver publicKey X b.index).existPrePrepare (relabelledVote E t b data signature fromNode) = false := rfl
  unfold Node.checkPBFTMsg
  simp only [hstate, hself, hnew, receiver_checkSignature t fromNode hX hverify, Bool.not_true, Bool.false_and, if_false,
    Bool.false_eq_true]

theorem addCache_fresh {cfg : Config} {c : PBFTCache} {m : PBFTMessage} {node : ConsensusNode}
    (hindex : m.index = c.index) (hnode : cfg.getConsensusNodeByIndex m.generatedFrom = some node) :
    ((PBFTCache.addCache cfg c ∅ ∅ m).1.find? m.hash).bind (·.find? m.generatedFrom) = some m := by
  have hempty : ((∅ : CollectionCache).find? m.hash) = none := OrdMap.find?_empty _
  simp only [PBFTCache.addCache, hindex, hnode, hempty, Option.bind_none, Option.isSome_none, Option.getD_none, ne_eq,
    not_true, if_false, Bool.false_eq_true, OrdMap.find?_insert_self, Option.bind_some]

variable {s : Node} {i : Int} {c : PBFTCache}

theorem checkAndPreCommit_idle (hcaches : s.caches = (∅ : OrdMap Int PBFTCache).insert i c) (hc : c.prePrepare = none) :
    (s.checkAndPreCommit E).caches.find? i = some c := by
  have hfind : s.caches.find? i = some c := by rw [hcaches, OrdMap.find?_insert_self]
  have hkeys : s.caches.keys = [i] := by
    rw [hcaches]
    rfl
  have hidle : c.checkAndPreCommit E s.cfg s.utcTime = (c, false, []) := by
    rcases c.checkAndPreCommit_cases E s.cfg s.utcTime with h | ⟨m, p, hm, -⟩
    · exact h
    · rw [hc] at hm
      cases hm
  simp only [Node.checkAndPreCommit, hkeys, List.foldl_cons, List.foldl_nil, Node.checkAndPreCommitAt,
    Node.preCommitAt, hfind, hidle, Node.reported, Bool.false_eq_true, if_false, Node.emit, OrdMap.find?_insert_self]

theorem checkAndCommit_idle (hcaches : s.caches = (∅ : OrdMap Int PBFTCache).insert i c) (hc : c.precommit = none)
    (hopen : c.shouldStopTimer s.cfg = false) :
    ∃ u, s.checkAndCommit E = some u ∧ u.caches.find? i = some c := by
  have hfind : s.caches.find? i = some c := by rw [hcaches, OrdMap.find?_insert_self]
  have hkeys : s.caches.keys = [i] := by
    rw [hcaches]
    rfl
  have hidle : c.checkAndCommit s.cfg = (c, false) := by
    rcases c.checkAndCommit_cases s.cfg with h | ⟨-, hpre, -⟩
    · exact h
    · rw [hc] at hpre
      cases hpre
  have hloop : s.checkAndCommitLoop = { s with caches := s.caches.insert i c } := by
    simp only [Node.checkAndCommitLoop, hkeys, List.foldl_cons, List.foldl_nil, Node.checkAndCommitAt, Node.commitAt,
      hfind, hidle, Node.reported, Bool.false_eq_true, if_false]
  have hmem : c ∈ (s.caches.insert i c).values :=
    List.mem_map.2 ⟨(i, c), OrdMap.find?_eq_some.1 (OrdMap.find?_insert_self _ _ _), rfl⟩
  refine ⟨{ s with caches := s.caches.insert i c }, ?_, OrdMap.find?_insert_self _ _ _⟩
  have hany : ((s.caches.insert i c).values.any fun c => !c.shouldStopTimer s.cfg) = true :=
    List.any_eq_true.2 ⟨c, hmem, by rw [hopen]; rfl⟩
  rw [Node.checkAndCommit, hloop, Node.resetTimer, if_pos hany]

theorem checkAndCommitStableCheckPoint_idle (hcaches : s.caches = (∅ : OrdMap Int PBFTCache).insert i c)
    (hc : c.checkpointProposal = none) : s.checkAndCommitStableCheckPoint.caches.find? i = some c := by
  have hfind : s.caches.find? i = some c := by rw [hcaches, OrdMap.find?_insert_self]
  have hkeys : s.caches.keys = [i] := by
    rw [hcaches]
    rfl
  have hidle : c.checkAndCommitStableCheckPoint s.cfg = (c, false) := by
    simp [PBFTCache.checkAndCommitStableCheckPoint, PBFTCache.collectEnoughCheckpoint, hc]
  simp only [Node.checkAndCommitStableCheckPoint, hkeys, List.foldl_cons, List.foldl_nil, Node.checkStableAt, hfind,
    hidle, Bool.false_eq_true, if_false, OrdMap.find?_insert_self]

theorem addCache_caches (hnew : s.caches = ∅) (m : PBFTMessage) (handler : PBFTCache → PBFTCache × List Action) :
    (s.addCache m handler).caches = (∅ : OrdMap Int PBFTCache).insert m.index (handler { index := m.index }).1 := by
  simp only [Node.addCache, Node.emit, hnew, OrdMap.find?_empty, Option.getD_none]

variable {m : PBFTMessage} {node : ConsensusNode}

theorem handlePrepareMsg_counts (hnew : s.caches = ∅) (ht : m.packetType = .PreparePacket)
    (hnode : s.cfg.getConsensusNodeByIndex m.generatedFrom = some node) (hcheck : s.checkPBFTMsg E m = true)
    (hproposal : s.checkProposalSignature E m.generatedFrom m.consensusProposal = true) :
    Counted (s.handlePrepareMsg E m).1 m := by
  have hhandle : s.handlePrepareMsg E m = ((s.addPrepareCache m).checkAndPreCommit E, true) := by
    simp only [Node.handlePrepareMsg, hcheck, hproposal, Bool.not_true, Bool.false_eq_true, if_false]
  rw [hhandle]
  refine ⟨_, checkAndPreCommit_idle (addCache_caches hnew m _) rfl, ?_⟩
  rw [ht]
  exact addCache_fresh rfl hnode

theorem handleCommitMsg_counts (hnew : s.caches = ∅) (ht : m.packetType = .CommitPacket)
    (hcommitted : s.cfg.committedIndex < m.index)
    (hnode : s.cfg.getConsensusNodeByIndex m.generatedFrom = some node) (hcheck : s.checkPBFTMsg E m = true) :
    ∃ u, s.handleCommitMsg E m = some (u, true) ∧ Counted u m := by
  have hopen : (PBFTCache.addCommitCache s.cfg { index := m.index } m).shouldStopTimer s.cfg = false :=
    if_neg (not_le.2 hcommitted)
  obtain ⟨u, hu, hfind⟩ := checkAndCommit_idle (E := E) (addCache_caches hnew m (fun c => (c.addCommitCache s.cfg m, [])))
    rfl hopen
  refine ⟨u, ?_, _, hfind, ?_⟩
  · have hcommit : (s.addCommitReq m).checkAndCommit E = some u := hu
    simp [Node.handleCommitMsg, hcheck, hcommit]
  · rw [ht]
    exact addCache_fresh rfl hnode

theorem handleCheckPointMsg_counts (hnew : s.caches = ∅) (hqueue : s.committedQueue = []) (ht : m.packetType = .CheckPoint)
    (hcommitted : s.cfg.committedIndex < m.index) (hsync : s.isSyncingHigher = false)
    (hnode : s.cfg.getConsensusNodeByIndex m.generatedFrom = some node) (hsigned : s.checkSignature E (.pbft m) = true)
    (hproposal : s.checkProposalSignature E m.generatedFrom m.consensusProposal = true) :
    Counted (s.handleCheckPointMsg E m).1 m := by
  have happly : (s.addCheckPointMsg m).tryToApplyCommitQueue.1.caches = (s.addCheckPointMsg m).caches := by
    have hq : (s.addCheckPointMsg m).committedQueue = [] := hqueue
    simp [Node.tryToApplyCommitQueue, Node.dropExpired, hq]
  have hstable := checkAndCommitStableCheckPoint_idle
    (happly.trans (addCache_caches hnew m (fun c => (c.addCheckPointMsg s.cfg m, [])))) rfl
  have hrequest := congrArg Core.caches
    ((s.addCheckPointMsg m).tryToApplyCommitQueue.1.checkAndCommitStableCheckPoint.shouldRequestCheckPoint_quiet m).core
  have hfind := (congrArg (fun caches => OrdMap.find? caches m.index) hrequest).trans hstable
  refine ⟨PBFTCache.addCheckPointMsg s.cfg { index := m.index } m, ?_, ?_⟩
  · simp only [Node.handleCheckPointMsg, if_neg (not_le.2 hcommitted), hsync, hsigned, hproposal, Bool.not_true,
      Bool.false_eq_true, if_false]
    split <;> exact hfind
  · rw [ht]
    exact addCache_fresh rfl hnode

/-- A vote in the name of `X` on any digest that `X` has signed is added to the tally of any packet type. -/
theorem receiver_handleMsg {t : PacketType} (ht : t.isVote = true) (hX : b.generatedFrom = X) (hsig : signature.length ≠ 0)
    (hverify : E.crypto.verify publicKey (E.crypto.hash data) signature = true) :
    ∃ u, (receiver publicKey X b.index).handleMsg E (.pbft (relabelledVote E t b data signature fromNode)) = some u ∧
      Counted u (relabelledVote E t b data signature fromNode) := by
  subst hX
  have hcheck := receiver_checkPBFTMsg t fromNode (X := b.generatedFrom) (b := b) rfl hverify
  have hsigned := receiver_checkSignature t fromNode (X := b.generatedFrom) (b := b) rfl hverify
  have hproposal := receiver_checkProposalSignature t fromNode (X := b.generatedFrom) (b := b) hsig hverify
  have hnode := receiver_node publicKey b.generatedFrom b.index
  have hcommitted : (receiver publicKey b.generatedFrom b.index).cfg.committedIndex < b.index := by
    simp [receiver, Config.committedIndex, PBFTProposal.index]
  have hsync : (receiver publicKey b.generatedFrom b.index).isSyncingHigher = false := by
    simp [Node.isSyncingHigher, receiver, Config.committedIndex, PBFTProposal.index]
  simp only [PacketType.isVote, Bool.or_eq_true, decide_eq_true_eq] at ht
  rcases ht with (rfl | rfl) | rfl
  · exact ⟨_, rfl, handlePrepareMsg_counts rfl rfl hnode hcheck hproposal⟩
  · obtain ⟨u, hu, hcounted⟩ := handleCommitMsg_counts rfl rfl hcommitted hnode hcheck
    refine ⟨u, ?_, hcounted⟩
    change (Node.handleCommitMsg E _ _).map _ = some u
    rw [hu]
    rfl
  · exact ⟨_, rfl, handleCheckPointMsg_counts rfl rfl rfl hcommitted hsync hnode hsigned hproposal⟩

end

/-- The tallies count only votes that the named node has generated exactly when the node's signing history has a vote
of every packet type for whatever hash fields it has signed the digest of. -/
theorem votes_authentic_iff {E : Env} {publicKey : NodeID} {X : IndexType} {history : List SignRecord}
    (hpb : E.pb.Lawful) (hsigns : Signs E publicKey history) :
    VotesAuthentic E publicKey X history ↔ RelabelClosed E X history := by
  constructor
  · intro h data b hsigned hb hX t ht
    obtain ⟨r, hr, hdigest⟩ := hsigned
    obtain ⟨signature, hsig, hverify⟩ := hsigns.published r hr
    rw [hdigest] at hverify
    obtain ⟨u, hu, hcounted⟩ := receiver_handleMsg [] ht hX hsig hverify
    refine h (receiver publicKey X b.index) u [] _ _ (receiver_hasKey publicKey X b.index)
      (decode_votePacket hpb ht hb signature []) ht hX hu ?_ hcounted
    rintro ⟨c, hc, -⟩
    cases hc
  · intro h s t fromNode data m hkey hdecode hvote hX hhandle hbefore hafter
    obtain ⟨hdigest, hbase⟩ := decode_pbft hdecode
    have hverify := checkSignature_hasKey (handleMsg_counted hvote hhandle hbefore hafter) hkey hX
    obtain ⟨r, hr, hrd⟩ := hsigns.unforgeable _ _ hverify
    exact h m.raw.hashFieldsData m.base ⟨r, hr, hrd.trans hdigest⟩ hbase hX m.packetType hvote

theorem toyVoteHistory_no_commit {index : Int} {hash : HashType} {view : ViewType} :
    ¬Generated (Toy.keyed [0] toyVoteHistory) toyVoteHistory .CommitPacket index hash view := by
  rintro ⟨data, b, hmem, -⟩
  revert hmem
  simp [toyVoteHistory, PBFTCodec.encode, PBFTMessage.encode, PBFTMessage.encodeHashFields,
    PBFTMessage.generateAndSetSignatureData, toyVote, populateVote]

theorem keyed_votes :
    VotesAuthentic (Toy.keyed [0] []) [0] 0 [] ∧
      ¬VotesAuthentic (Toy.keyed [0] toyVoteHistory) [0] 0 toyVoteHistory := by
  constructor
  · refine (votes_authentic_iff Toy.protobuf_lawful (keyed_signs [0] [])).2 ?_
    rintro data b ⟨r, hr, -⟩
    cases hr
  · intro h
    have hclosed := (votes_authentic_iff Toy.protobuf_lawful (keyed_signs [0] toyVoteHistory)).1 h
    refine toyVoteHistory_no_commit (hclosed (Toy.env.pb.baseMessage.encode toyVote.base) toyVote.base ?_
      (Toy.protobuf_lawful.baseMessage _) rfl .CommitPacket rfl)
    exact ⟨.hashFields .PreparePacket (Toy.env.pb.baseMessage.encode toyVote.base), List.mem_cons_of_mem _
      List.mem_cons_self, rfl⟩

def toyRelabelled : PBFTMessage :=
  { toyVote.encode Toy.env (Toy.keyPair 0) with packetType := .CommitPacket, fromNode := some [1] }

/-- A prepare vote that was sent as a commit is counted as a commit of its sender. -/
theorem toyRelabelled_unauthentic :
    Signs (Toy.keyed [0] toyVoteHistory) [0] toyVoteHistory ∧ HasKey (Toy.node 3 [1, 1, 1, 1]) 0 [0] ∧
    (PBFTCodec.decode (Toy.keyed [0] toyVoteHistory) (votePacket Toy.env .CommitPacket toyRelabelled.raw)).map
      (Message.setFrom [1]) = some (.pbft toyRelabelled) ∧
    (∃ t, (Toy.node 3 [1, 1, 1, 1]).handleMsg (Toy.keyed [0] toyVoteHistory) (.pbft toyRelabelled) = some t ∧
      ¬Counted (Toy.node 3 [1, 1, 1, 1]) toyRelabelled ∧ Counted t toyRelabelled) ∧
    ¬Generated (Toy.keyed [0] toyVoteHistory) toyVoteHistory toyRelabelled.packetType toyRelabelled.index
      toyRelabelled.hash toyRelabelled.view := by
  have hcounted : (((Toy.node 3 [1, 1, 1, 1]).handleMsg (Toy.keyed [0] toyVoteHistory) (.pbft toyRelabelled)).elim false
      fun t => (t.caches.find? toyRelabelled.index).any fun c => ((c.tally toyRelabelled.packetType).find?
        toyRelabelled.hash).bind (·.find? toyRelabelled.generatedFrom) = some toyRelabelled) = true := by decide +kernel
  refine ⟨keyed_signs [0] toyVoteHistory, by unfold HasKey; decide +kernel, by decide +kernel, ?_,
    toyVoteHistory_no_commit⟩
  cases ht : (Toy.node 3 [1, 1, 1, 1]).handleMsg (Toy.keyed [0] toyVoteHistory) (.pbft toyRelabelled) with
  | none =>
    rw [ht] at hcounted
    cases hcounted
  | some t =>
    rw [ht, Option.elim_some, Option.any_eq_true] at hcounted
    obtain ⟨c, hc, hm⟩ := hcounted
    refine ⟨t, rfl, ?_, c, hc, by simpa using hm⟩
    rintro ⟨c', hc', -⟩
    have hnone : (Toy.node 3 [1, 1, 1, 1]).caches.find? toyRelabelled.index = none := by decide +kernel
    rw [hnone] at hc'
    cases hc'

end BcosPbft
