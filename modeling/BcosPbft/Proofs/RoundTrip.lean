import BcosPbft.Spec.Toy

/-! What comes out of the codec again. A vote and a request come back as they were. A view change and a new view carry
other messages as bytes, and those come back with the fields that their bytes have, which are not always the fields of the
object: `setPrePrepareList` brings the bytes up to date, `setPreparedProposals` does not. -/

namespace BcosPbft

def PacketType.isMessage : PacketType → Bool
  | .PrePreparePacket | .PreparePacket | .CommitPacket | .CommittedProposalResponse | .CheckPoint
  | .RecoverRequest | .RecoverResponse => true
  | _ => false

def PacketType.isRequest : PacketType → Bool
  | .CommittedProposalRequest | .PreparedProposalRequest => true
  | _ => false

def PacketType.isViewChange : PacketType → Bool
  | .ViewChangePacket | .PreparedProposalResponse => true
  | _ => false

variable {E : Env}

structure PBFTMessage.SameAs (m' m : PBFTMessage) : Prop where
  packetType : m'.packetType = m.packetType
  base : m'.base = m.base
  consensusProposal : m'.consensusProposal = m.consensusProposal
  proposals : m'.proposals = m.proposals

structure PBFTRequest.SameAs (m' m : PBFTRequest) : Prop where
  packetType : m'.packetType = m.packetType
  base : m'.base = m.base
  size : m'.size = m.size

theorem PBFTCodec.decode_rawMessage (hpb : E.pb.Lawful) (version : Int) (t : PacketType) (signatureData payLoad : Bytes) :
    PBFTCodec.decode E (E.pb.rawMessage.encode
        { version := version, type := t.toInt, signatureData := signatureData, payLoad := payLoad }) =
      (PBFTCodec.decodePayLoad E t payLoad).map (PBFTCodec.handleSignature E
        { version := version, type := t.toInt, signatureData := signatureData, payLoad := payLoad }) := by
  unfold PBFTCodec.decode
  rw [hpb.rawMessage, Option.bind_eq_bind, Option.bind_some, PacketType.ofInt_toInt, Option.bind_eq_bind, Option.bind_some]
  dsimp only
  cases PBFTCodec.decodePayLoad E t payLoad <;> rfl

theorem decodePayLoad_message {t : PacketType} (ht : t.isMessage = true) (payLoad : Bytes) :
    PBFTCodec.decodePayLoad E t payLoad =
      (PBFTMessage.decodeAndSetSignature E payLoad).map fun m => .pbft { m with packetType := t } := by
  cases t <;> first
    | rfl
    | cases ht

theorem decodePayLoad_request {t : PacketType} (ht : t.isRequest = true) (payLoad : Bytes) :
    PBFTCodec.decodePayLoad E t payLoad =
      (E.pb.proposalRequest.decode payLoad).map fun r => .request { packetType := t, base := r.message, size := r.size } := by
  cases t <;> first
    | rfl
    | cases ht

/-- A lawful signature scheme verifies what a key pair signed. -/
def CryptoSuite.Verifies (c : CryptoSuite) (keyPair : KeyPair) : Prop :=
  ∀ h, c.verify keyPair.publicKey h (c.sign keyPair h) = true

theorem decode_encode_message (hpb : E.pb.Lawful) {keyPair : KeyPair} (hsign : E.crypto.Verifies keyPair) (version : Int)
    {m : PBFTMessage} (ht : m.packetType.isMessage = true) :
    ∃ m', PBFTCodec.decode E (PBFTCodec.encode E keyPair version (.pbft m)).1 = some (.pbft m') ∧ m'.SameAs m ∧
      m'.verifySignature E keyPair.publicKey = true := by
  let sent := m.encode E keyPair
  have hraw : PBFTMessage.ofRaw E sent.raw = some { base := m.base, raw := sent.raw } := by
    unfold PBFTMessage.ofRaw
    change (E.pb.baseMessage.decode (E.pb.baseMessage.encode m.base)).map _ = _
    rw [hpb.baseMessage]
    rfl
  have hset : PBFTMessage.decodeAndSetSignature E (E.pb.pbftRawMessage.encode sent.raw) =
      some { base := m.base, raw := sent.raw, signatureDataHash := E.crypto.hash sent.raw.hashFieldsData } := by
    unfold PBFTMessage.decodeAndSetSignature
    rw [hpb.pbftRawMessage, Option.bind_eq_bind, Option.bind_some, hraw]
    rfl
  refine ⟨{ packetType := m.packetType, base := m.base, raw := sent.raw
            signatureDataHash := E.crypto.hash sent.raw.hashFieldsData }, ?_, ⟨rfl, rfl, rfl, rfl⟩, hsign _⟩
  change PBFTCodec.decode E (E.pb.rawMessage.encode { version := version, type := m.packetType.toInt
                                                      payLoad := E.pb.pbftRawMessage.encode sent.raw }) = _
  rw [PBFTCodec.decode_rawMessage hpb, decodePayLoad_message ht, hset]
  rfl

theorem decode_encode_request (hpb : E.pb.Lawful) (keyPair : KeyPair) (version : Int) {m : PBFTRequest}
    (ht : m.packetType.isRequest = true) :
    ∃ m', PBFTCodec.decode E (PBFTCodec.encode E keyPair version (.request m)).1 = some (.request m') ∧ m'.SameAs m := by
  refine ⟨{ packetType := m.packetType, base := m.base, size := m.size }, ?_, ⟨rfl, rfl, rfl⟩⟩
  change PBFTCodec.decode E (E.pb.rawMessage.encode
    { version := version, type := m.packetType.toInt
      payLoad := E.pb.proposalRequest.encode { message := m.base, size := m.size } }) = _
  rw [PBFTCodec.decode_rawMessage hpb, decodePayLoad_request ht, hpb.proposalRequest]
  rfl

/-- Votes and requests come back with every field that travels, and votes with a signature that verifies. -/
theorem vote_roundTrip (hpb : E.pb.Lawful) {keyPair : KeyPair} (hsign : E.crypto.Verifies keyPair) (version : Int) :
    (∀ m : PBFTMessage, m.packetType.isMessage = true →
      ∃ m', PBFTCodec.decode E (PBFTCodec.encode E keyPair version (.pbft m)).1 = some (.pbft m') ∧ m'.SameAs m ∧
        m'.verifySignature E keyPair.publicKey = true) ∧
    ∀ m : PBFTRequest, m.packetType.isRequest = true →
      ∃ m', PBFTCodec.decode E (PBFTCodec.encode E keyPair version (.request m)).1 = some (.request m') ∧ m'.SameAs m :=
  ⟨fun _ ht => decode_encode_message hpb hsign version ht, fun _ ht => decode_encode_request hpb keyPair version ht⟩

def toyCommitVote : PBFTMessage :=
  { packetType := .CommitPacket, base := { index := 3, hash := (Toy.checksum [7]).val, view := 2, generatedFrom := 1 }
    raw := { consensusProposal := some (Toy.proposal 7)
             proposals := [Toy.proposal 8, (Toy.proposal 9).appendSignatureProof 2 [5]] } }

def toyRequest : PBFTRequest := { packetType := .PreparedProposalRequest, base := { index := 3 }, size := 4 }

theorem toyCommitVote_roundTrip :
    (∃ m', PBFTCodec.decode Toy.env (PBFTCodec.encode Toy.env (Toy.keyPair 1) 5 (.pbft toyCommitVote)).1 =
      some (.pbft m') ∧ m'.SameAs toyCommitVote ∧ m'.verifySignature Toy.env (Toy.keyPair 1).publicKey = true) ∧
    ∃ m', PBFTCodec.decode Toy.env (PBFTCodec.encode Toy.env (Toy.keyPair 1) 5 (.request toyRequest)).1 =
      some (.request m') ∧ m'.SameAs toyRequest := by
  have hsign : Toy.env.crypto.Verifies (Toy.keyPair 1) := fun h => decide_eq_true rfl
  obtain ⟨hvote, hrequest⟩ := vote_roundTrip (E := Toy.env) Toy.protobuf_lawful hsign 5
  exact ⟨hvote toyCommitVote rfl, hrequest toyRequest rfl⟩

/-- The serialized hash fields are in step with the fields of the object. -/
def PBFTMessage.InBytes (E : Env) (m : PBFTMessage) : Prop :=
  ∃ b, E.pb.baseMessage.decode m.raw.hashFieldsData = some b ∧ b.index = m.index ∧ toHash b.hash = m.hash ∧
    b.view = m.view ∧ b.generatedFrom = m.generatedFrom

/-- What a message that is carried by another one keeps. -/
structure PBFTMessage.Carries (m' m : PBFTMessage) : Prop where
  index : m'.index = m.index
  hash : m'.hash = m.hash
  view : m'.view = m.view
  generatedFrom : m'.generatedFrom = m.generatedFrom
  consensusProposal : m'.consensusProposal = m.consensusProposal

/-- The base fields other than the signature, which the codec sets. -/
structure BaseMessage.SameAs (b' b : BaseMessage) : Prop where
  version : b'.version = b.version
  index : b'.index = b.index
  hash : b'.hash = b.hash
  view : b'.view = b.view
  timestamp : b'.timestamp = b.timestamp
  generatedFrom : b'.generatedFrom = b.generatedFrom

structure ViewChangeMsg.SameAs (m' m : ViewChangeMsg) : Prop where
  base : m'.base.SameAs m.base
  committedProposal : m'.committedProposal = m.committedProposal
  preparedProposals : List.Forall₂ PBFTMessage.Carries m'.preparedProposals m.preparedProposals

structure NewViewMsg.SameAs (m' m : NewViewMsg) : Prop where
  base : m'.base.SameAs m.base
  viewChangeMsgList : List.Forall₂ ViewChangeMsg.SameAs m'.viewChangeMsgList m.viewChangeMsgList
  prePrepareList : List.Forall₂ PBFTMessage.Carries m'.prePrepareList m.prePrepareList

theorem BaseMessage.SameAs.refl (b : BaseMessage) : b.SameAs b := ⟨rfl, rfl, rfl, rfl, rfl, rfl⟩

theorem mapM_forall₂_iff {α β γ : Type} {f : β → Option γ} {g : α → β} {R : γ → α → Prop} (l : List α) :
    (∃ l', (l.map g).mapM f = some l' ∧ List.Forall₂ R l' l) ↔ ∀ a ∈ l, ∃ c, f (g a) = some c ∧ R c a := by
  induction l with
  | nil => exact ⟨fun _ _ ha => (by cases ha), fun _ => ⟨[], rfl, .nil⟩⟩
  | cons a l ih =>
    rw [List.map_cons, List.mapM_cons, List.forall_mem_cons, ← ih]
    constructor
    · rintro ⟨l', hl', hrel⟩
      obtain ⟨c, hc, hl'⟩ := Option.bind_eq_some_iff.1 hl'
      obtain ⟨t, ht, hl'⟩ := Option.bind_eq_some_iff.1 hl'
      obtain rfl := Option.some.inj hl'
      obtain ⟨hca, hrest⟩ := List.forall₂_cons.1 hrel
      exact ⟨⟨c, hc, hca⟩, t, ht, hrest⟩
    · rintro ⟨⟨c, hc, hca⟩, t, ht, hrest⟩
      refine ⟨c :: t, ?_, .cons hca hrest⟩
      rw [hc, ht]
      rfl

/-- The bytes of the hash fields decide what becomes of a carried message. -/
theorem ofRaw_carries_iff (m : PBFTMessage) :
    (∃ m', PBFTMessage.ofRaw E m.raw = some m' ∧ m'.Carries m) ↔ m.InBytes E := by
  constructor
  · rintro ⟨m', hm', hcarries⟩
    obtain ⟨b, hb, rfl⟩ := Option.map_eq_some_iff.1 hm'
    exact ⟨b, hb, hcarries.index, hcarries.hash, hcarries.view, hcarries.generatedFrom⟩
  · rintro ⟨b, hb, hindex, hash_eq, hview, hfrom⟩
    refine ⟨{ base := b, raw := m.raw }, ?_, ⟨hindex, hash_eq, hview, hfrom, rfl⟩⟩
    unfold PBFTMessage.ofRaw
    rw [hb]
    rfl

theorem encodeHashFields_inBytes (hpb : E.pb.Lawful) (m : PBFTMessage) : (m.encodeHashFields E).InBytes E :=
  ⟨m.base, hpb.baseMessage m.base, rfl, rfl, rfl, rfl⟩

theorem ViewChangeMsg.ofRaw_sameAs_iff (m : ViewChangeMsg) :
    (∃ m', ViewChangeMsg.ofRaw E m.rawViewChange = some m' ∧ m'.SameAs m) ↔ ∀ p ∈ m.preparedProposals, p.InBytes E := by
  simp only [← ofRaw_carries_iff]
  rw [← mapM_forall₂_iff (g := PBFTMessage.raw)]
  constructor
  · rintro ⟨m', hm', hsame⟩
    obtain ⟨l', hl', rfl⟩ := Option.map_eq_some_iff.1 hm'
    exact ⟨l', hl', hsame.preparedProposals⟩
  · rintro ⟨l', hl', hrel⟩
    refine ⟨{ base := m.base, committedProposal := m.committedProposal, preparedProposals := l'
              signatureDataHash := toHash m.base.signatureHash }, ?_, ⟨.refl m.base, rfl, hrel⟩⟩
    unfold ViewChangeMsg.ofRaw ViewChangeMsg.rawViewChange
    rw [hl']
    rfl

theorem NewViewMsg.ofRaw_sameAs_iff (m : NewViewMsg) :
    (∃ m', NewViewMsg.ofRaw E m.rawNewView = some m' ∧ m'.SameAs m) ↔
      (∀ v ∈ m.viewChangeMsgList, ∀ p ∈ v.preparedProposals, p.InBytes E) ∧ ∀ p ∈ m.prePrepareList, p.InBytes E := by
  have hviews : (∀ v ∈ m.viewChangeMsgList, ∀ p ∈ v.preparedProposals, p.InBytes E) ↔
      ∃ l', (m.viewChangeMsgList.map ViewChangeMsg.rawViewChange).mapM (ViewChangeMsg.ofRaw E) = some l' ∧
        List.Forall₂ ViewChangeMsg.SameAs l' m.viewChangeMsgList := by
    simp only [mapM_forall₂_iff, ViewChangeMsg.ofRaw_sameAs_iff]
  have hlist : (∀ p ∈ m.prePrepareList, p.InBytes E) ↔
      ∃ l', (m.prePrepareList.map PBFTMessage.raw).mapM (PBFTMessage.ofRaw E) = some l' ∧
        List.Forall₂ PBFTMessage.Carries l' m.prePrepareList := by
    simp only [mapM_forall₂_iff, ofRaw_carries_iff]
  rw [hviews, hlist]
  constructor
  · rintro ⟨m', hm', hsame⟩
    obtain ⟨views, hviews, hm'⟩ := Option.bind_eq_some_iff.1 hm'
    obtain ⟨list, hlist, hm'⟩ := Option.bind_eq_some_iff.1 hm'
    obtain rfl := Option.some.inj hm'
    exact ⟨⟨views, hviews, hsame.viewChangeMsgList⟩, list, hlist, hsame.prePrepareList⟩
  · rintro ⟨⟨views, hviews, hviewsSame⟩, list, hlist, hlistSame⟩
    refine ⟨{ base := m.base, viewChangeMsgList := views, prePrepareList := list
              signatureDataHash := toHash m.base.signatureHash }, ?_, ⟨.refl m.base, hviewsSame, hlistSame⟩⟩
    unfold NewViewMsg.ofRaw NewViewMsg.rawNewView
    rw [Option.bind_eq_bind, hviews, Option.bind_some, hlist]
    rfl

theorem handleSignature_viewChange (raw : RawMessage) (m : ViewChangeMsg) : ∃ m', PBFTCodec.handleSignature E raw
    (.viewChange m) = .viewChange m' ∧ m'.preparedProposals = m.preparedProposals ∧ ∀ m₀, m'.SameAs m₀ ↔ m.SameAs m₀ := by
  unfold PBFTCodec.handleSignature
  dsimp only
  split
  · refine ⟨_, rfl, rfl, fun m₀ => ⟨fun h => ⟨?_, h.committedProposal, h.preparedProposals⟩, fun h => ⟨?_, h.committedProposal,
      h.preparedProposals⟩⟩⟩
    · obtain ⟨hversion, hindex, hash_eq, hview, htime, hfrom⟩ := h.base
      exact ⟨hversion, hindex, hash_eq, hview, htime, hfrom⟩
    · obtain ⟨hversion, hindex, hash_eq, hview, htime, hfrom⟩ := h.base
      exact ⟨hversion, hindex, hash_eq, hview, htime, hfrom⟩
  · exact ⟨m, rfl, rfl, fun _ => Iff.rfl⟩

theorem handleSignature_newView (raw : RawMessage) (m : NewViewMsg) : ∃ m', PBFTCodec.handleSignature E raw
    (.newView m) = .newView m' ∧ m'.prePrepareList = m.prePrepareList ∧ ∀ m₀, m'.SameAs m₀ ↔ m.SameAs m₀ := by
  unfold PBFTCodec.handleSignature
  dsimp only
  split
  · refine ⟨_, rfl, rfl, fun m₀ => ⟨fun h => ⟨?_, h.viewChangeMsgList, h.prePrepareList⟩, fun h => ⟨?_, h.viewChangeMsgList,
      h.prePrepareList⟩⟩⟩
    · obtain ⟨hversion, hindex, hash_eq, hview, htime, hfrom⟩ := h.base
      exact ⟨hversion, hindex, hash_eq, hview, htime, hfrom⟩
    · obtain ⟨hversion, hindex, hash_eq, hview, htime, hfrom⟩ := h.base
      exact ⟨hversion, hindex, hash_eq, hview, htime, hfrom⟩
  · exact ⟨m, rfl, rfl, fun _ => Iff.rfl⟩

theorem encode_viewChange_bytes (keyPair : KeyPair) (version : Int) (m : ViewChangeMsg) : ∃ signatureData,
    (PBFTCodec.encode E keyPair version (.viewChange m)).1 = E.pb.rawMessage.encode
      { version := version, type := m.packetType.toInt, signatureData := signatureData
        payLoad := E.pb.rawViewChange.encode m.rawViewChange } := by
  unfold PBFTCodec.encode
  dsimp only
  split
  · exact ⟨_, rfl⟩
  · exact ⟨[], rfl⟩

theorem encode_newView_bytes (keyPair : KeyPair) (version : Int) (m : NewViewMsg) : ∃ signatureData,
    (PBFTCodec.encode E keyPair version (.newView m)).1 = E.pb.rawMessage.encode
      { version := version, type := m.packetType.toInt, signatureData := signatureData
        payLoad := E.pb.rawNewView.encode m.rawNewView } := by
  unfold PBFTCodec.encode
  dsimp only
  split
  · exact ⟨_, rfl⟩
  · exact ⟨[], rfl⟩

theorem decodePayLoad_viewChange (hpb : E.pb.Lawful) {t : PacketType} (ht : t.isViewChange = true)
    (raw : RawViewChangeMessage) : PBFTCodec.decodePayLoad E t (E.pb.rawViewChange.encode raw) =
      (ViewChangeMsg.ofRaw E raw).map fun m => .viewChange { m with packetType := t } := by
  have hswitch : PBFTCodec.decodePayLoad E t (E.pb.rawViewChange.encode raw) =
      ((E.pb.rawViewChange.decode (E.pb.rawViewChange.encode raw)).bind (ViewChangeMsg.ofRaw E)).map
        fun m => .viewChange { m with packetType := t } := by
    cases t <;> first
      | rfl
      | cases ht
  rw [hswitch, hpb.rawViewChange, Option.bind_some]

theorem decodePayLoad_newView (hpb : E.pb.Lawful) (raw : RawNewViewMessage) :
    PBFTCodec.decodePayLoad E .NewViewPacket (E.pb.rawNewView.encode raw) =
      (NewViewMsg.ofRaw E raw).map fun m => .newView { m with packetType := .NewViewPacket } := by
  change ((E.pb.rawNewView.decode (E.pb.rawNewView.encode raw)).bind (NewViewMsg.ofRaw E)).map _ = _
  rw [hpb.rawNewView, Option.bind_some]

/-- A view change comes back as the object that was put in exactly when the bytes of its prepared messages are in step. -/
theorem decode_encode_viewChange_iff (hpb : E.pb.Lawful) (keyPair : KeyPair) (version : Int) {m : ViewChangeMsg}
    (ht : m.packetType.isViewChange = true) :
    (∃ m', PBFTCodec.decode E (PBFTCodec.encode E keyPair version (.viewChange m)).1 = some (.viewChange m') ∧
      m'.SameAs m) ↔ ∀ p ∈ m.preparedProposals, p.InBytes E := by
  obtain ⟨signatureData, hbytes⟩ := encode_viewChange_bytes (E := E) keyPair version m
  rw [hbytes, PBFTCodec.decode_rawMessage hpb, decodePayLoad_viewChange hpb ht, ← ViewChangeMsg.ofRaw_sameAs_iff]
  constructor
  · rintro ⟨m', hm', hsame⟩
    obtain ⟨msg, hmsg, hm'⟩ := Option.map_eq_some_iff.1 hm'
    obtain ⟨m₁, hm₁, rfl⟩ := Option.map_eq_some_iff.1 hmsg
    obtain ⟨m₂, hm₂, -, hiff⟩ := handleSignature_viewChange (E := E) _ { m₁ with packetType := m.packetType }
    rw [hm₂] at hm'
    obtain rfl := Message.viewChange.inj hm'
    obtain ⟨hbase, hcommitted, hprepared⟩ := (hiff m).1 hsame
    exact ⟨m₁, hm₁, hbase, hcommitted, hprepared⟩
  · rintro ⟨m₁, hm₁, hbase, hcommitted, hprepared⟩
    obtain ⟨m₂, hm₂, -, hiff⟩ := handleSignature_viewChange (E := E)
      { version := version, type := m.packetType.toInt, signatureData := signatureData
        payLoad := E.pb.rawViewChange.encode m.rawViewChange } { m₁ with packetType := m.packetType }
    refine ⟨m₂, ?_, (hiff m).2 ⟨hbase, hcommitted, hprepared⟩⟩
    rw [hm₁, Option.map_some, Option.map_some, hm₂]

theorem decode_encode_newView_iff (hpb : E.pb.Lawful) (keyPair : KeyPair) (version : Int) {m : NewViewMsg}
    (ht : m.packetType = .NewViewPacket) :
    (∃ m', PBFTCodec.decode E (PBFTCodec.encode E keyPair version (.newView m)).1 = some (.newView m') ∧ m'.SameAs m) ↔
      (∀ v ∈ m.viewChangeMsgList, ∀ p ∈ v.preparedProposals, p.InBytes E) ∧ ∀ p ∈ m.prePrepareList, p.InBytes E := by
  obtain ⟨signatureData, hbytes⟩ := encode_newView_bytes (E := E) keyPair version m
  rw [hbytes, PBFTCodec.decode_rawMessage hpb, ht, decodePayLoad_newView hpb, ← NewViewMsg.ofRaw_sameAs_iff]
  constructor
  · rintro ⟨m', hm', hsame⟩
    obtain ⟨msg, hmsg, hm'⟩ := Option.map_eq_some_iff.1 hm'
    obtain ⟨m₁, hm₁, rfl⟩ := Option.map_eq_some_iff.1 hmsg
    obtain ⟨m₂, hm₂, -, hiff⟩ := handleSignature_newView (E := E) _ { m₁ with packetType := .NewViewPacket }
    rw [hm₂] at hm'
    obtain rfl := Message.newView.inj hm'
    obtain ⟨hbase, hviews, hlist⟩ := (hiff m).1 hsame
    exact ⟨m₁, hm₁, hbase, hviews, hlist⟩
  · rintro ⟨m₁, hm₁, hbase, hviews, hlist⟩
    obtain ⟨m₂, hm₂, -, hiff⟩ := handleSignature_newView (E := E)
      { version := version, type := PacketType.NewViewPacket.toInt, signatureData := signatureData
        payLoad := E.pb.rawNewView.encode m.rawNewView } { m₁ with packetType := .NewViewPacket }
    refine ⟨m₂, ?_, (hiff m).2 ⟨hbase, hviews, hlist⟩⟩
    rw [hm₁, Option.map_some, Option.map_some, hm₂]

/-- `setPrePrepareList` brings the bytes of the pre-prepares up to date, so only prepared messages can come back changed. -/
theorem viewChange_roundTrip_iff (hpb : E.pb.Lawful) (keyPair : KeyPair) (version : Int) :
    (∀ m : ViewChangeMsg, m.packetType.isViewChange = true →
      ((∃ m', PBFTCodec.decode E (PBFTCodec.encode E keyPair version (.viewChange m)).1 = some (.viewChange m') ∧
        m'.SameAs m) ↔ ∀ p ∈ m.preparedProposals, p.InBytes E)) ∧
    ∀ (m : NewViewMsg) (list : List PBFTMessage), m.packetType = .NewViewPacket →
      ((∃ m', PBFTCodec.decode E (PBFTCodec.encode E keyPair version (.newView (m.setPrePrepareList E list))).1 =
        some (.newView m') ∧ m'.SameAs (m.setPrePrepareList E list)) ↔
          ∀ v ∈ m.viewChangeMsgList, ∀ p ∈ v.preparedProposals, p.InBytes E) := by
  refine ⟨fun m ht => decode_encode_viewChange_iff hpb keyPair version ht, fun m list ht => ?_⟩
  rw [decode_encode_newView_iff hpb keyPair version (m := m.setPrePrepareList E list) ht]
  refine and_iff_left fun p hp => ?_
  obtain ⟨q, -, rfl⟩ := List.mem_map.1 hp
  exact encodeHashFields_inBytes hpb q

def toyPrepared : ViewChangeMsg :=
  { base := { index := 2, view := 1, generatedFrom := 1 }, committedProposal := Toy.proposal 5
    preparedProposals := [toyCommitVote.encodeHashFields Toy.env] }

/-- A prepared message whose bytes were brought up to date travels in a view change and in a new view. -/
theorem toyPrepared_roundTrip :
    (∃ m', PBFTCodec.decode Toy.env (PBFTCodec.encode Toy.env (Toy.keyPair 1) 0 (.viewChange toyPrepared)).1 =
      some (.viewChange m') ∧ m'.SameAs toyPrepared) ∧
    ∃ m', PBFTCodec.decode Toy.env (PBFTCodec.encode Toy.env (Toy.keyPair 1) 0 (.newView
        (NewViewMsg.setPrePrepareList Toy.env { viewChangeMsgList := [toyPrepared] } [toyCommitVote]))).1 =
      some (.newView m') ∧
      m'.SameAs (NewViewMsg.setPrePrepareList Toy.env { viewChangeMsgList := [toyPrepared] } [toyCommitVote]) := by
  have hbytes : ∀ p ∈ toyPrepared.preparedProposals, p.InBytes Toy.env := by
    intro p hp
    obtain rfl := List.mem_singleton.1 hp
    exact encodeHashFields_inBytes Toy.protobuf_lawful toyCommitVote
  obtain ⟨hviewChange, hnewView⟩ := viewChange_roundTrip_iff (E := Toy.env) Toy.protobuf_lawful (Toy.keyPair 1) 0
  refine ⟨(hviewChange _ rfl).2 hbytes, (hnewView _ [toyCommitVote] rfl).2 fun v hv => ?_⟩
  obtain rfl := List.mem_singleton.1 hv
  exact hbytes

def toyPrecommitted : Option Node :=
  (Toy.atOnce [.receive [1] (Toy.prePrepare 1 0 7) [], .worker, .proposalVerified 0 (.result true)]).foldlM (step Toy.env)
    (Toy.node 0 [7, 1, 1])

/-- What node 0 answers to a request for the precommitted block says that it comes from node 1. -/
theorem toyPrecommitted_changed : ∃ s m, toyPrecommitted = some s ∧
    s.fetchPrecommitData 1 (Toy.proposal 7).hash = some m ∧
    s.onReceivePrecommitRequest Toy.env [1] { base := { index := 1, hash := (Toy.proposal 7).hash.val } } =
      s.emit (sendActions Toy.env s.cfg.keyPair (some [1])
        (.viewChange { m with packetType := .PreparedProposalResponse })) ∧
    ¬∃ m', PBFTCodec.decode Toy.env (PBFTCodec.encode Toy.env s.cfg.keyPair 0
        (.viewChange { m with packetType := .PreparedProposalResponse })).1 = some (.viewChange m') ∧
      m'.SameAs { m with packetType := .PreparedProposalResponse } := by
  have hrun : (toyPrecommitted.elim false fun s =>
      ((s.fetchPrecommitData 1 (Toy.proposal 7).hash).elim false fun m => m.preparedProposals.any fun p =>
        decide ((Toy.env.pb.baseMessage.decode p.raw.hashFieldsData).map BaseMessage.generatedFrom ≠ some p.generatedFrom))) =
      true := by decide +kernel
  obtain ⟨s, hs, hcheck⟩ := Toy.exists_of_elim hrun
  obtain ⟨m, hm, hcheck⟩ := Toy.exists_of_elim hcheck
  refine ⟨s, m, hs, hm, ?_, ?_⟩
  · unfold Node.onReceivePrecommitRequest
    rw [toHash_val, hm]
  rw [decode_encode_viewChange_iff Toy.protobuf_lawful _ _ rfl]
  intro hbytes
  obtain ⟨p, hp, hne⟩ := List.any_eq_true.1 hcheck
  obtain ⟨b, hb, -, -, -, hfrom⟩ := hbytes p hp
  refine of_decide_eq_true hne ?_
  rw [hb, Option.map_some, hfrom]

end BcosPbft
