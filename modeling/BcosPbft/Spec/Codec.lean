import BcosPbft.Spec.Types

/-! `PBFTMessageFactory`, the encoders and decoders of the message classes, and `PBFTCodec`. The packet
type travels in the outer `RawMessage`; a `PBFTMessage` signs the hash of its hash fields, a view-change
or new-view message is signed over its whole payload. -/

namespace BcosPbft

/-! ### PBFTMessageFactory -/

/-- `populateFrom` of a vote: the proposal is copied without its data and its hash is signed. -/
def populateVote (E : Env) (keyPair : KeyPair) (packetType : PacketType) (version : Int) (view : ViewType)
    (timestamp : Int) (generatedFrom : IndexType) (proposal : PBFTProposal) (needSign : Bool := true) :
    PBFTMessage :=
  let signedProposal : PBFTProposal :=
    { proposal := { index := proposal.index, hash := proposal.hash.val, sealerId := proposal.proposal.sealerId,
                    signature := if needSign then E.crypto.sign keyPair proposal.hash else [] } }
  { packetType := packetType
    base := { version := version, view := view, timestamp := timestamp, generatedFrom := generatedFrom,
              hash := proposal.hash.val, index := proposal.index }
    raw := { consensusProposal := some signedProposal } }

/-- `populateFrom` of a pre-prepare: it carries the given proposal itself. -/
def populatePrePrepare (packetType : PacketType) (proposal : PBFTProposal) (version : Int) (view : ViewType)
    (timestamp : Int) (generatedFrom : IndexType) : PBFTMessage :=
  { packetType := packetType
    base := { version := version, view := view, timestamp := timestamp, generatedFrom := generatedFrom,
              hash := proposal.hash.val, index := proposal.index }
    raw := { consensusProposal := some proposal } }

/-- `populateFrom` of a proposal. Signature, extra data and the system flag are not copied. -/
def populateProposal (p : PBFTProposal) (withData : Bool := true) (withProof : Bool := true) : PBFTProposal :=
  let proposal : PBFTProposal :=
    { proposal := { index := p.index, hash := p.hash.val, sealerId := p.proposal.sealerId,
                    data := if withData then p.data else [] } }
  if withProof then
    ((List.range p.signatureProofSize).filterMap p.signatureProof).foldl
      (fun acc proof => acc.appendSignatureProof proof.1 proof.2) proposal
  else proposal

/-! ### Message classes -/

/-- What a node's key has been asked to sign: the hash fields of a `PBFTMessage` that is encoded, the
payload of a view-change or new-view message, or the hash of a proposal it votes for. -/
inductive SignRecord
  | hashFields (t : PacketType) (data : Bytes)
  | payLoad (t : PacketType) (data : Bytes)
  | proposal (hash : HashType)
deriving DecidableEq

def SignRecord.digest (E : Env) : SignRecord → HashType
  | hashFields _ data => E.crypto.hash data
  | payLoad _ data => E.crypto.hash data
  | proposal hash => hash

namespace PBFTMessage

def encodeHashFields (E : Env) (m : PBFTMessage) : PBFTMessage :=
  { m with raw := { m.raw with hashFieldsData := E.pb.baseMessage.encode m.base } }

def generateAndSetSignatureData (E : Env) (keyPair : KeyPair) (m : PBFTMessage) : PBFTMessage :=
  let hash := E.crypto.hash m.raw.hashFieldsData
  { m with signatureDataHash := hash, raw := { m.raw with signatureData := E.crypto.sign keyPair hash } }

/-- `PBFTMessage::encode`, as the message object it leaves behind. -/
def encode (E : Env) (keyPair : KeyPair) (m : PBFTMessage) : PBFTMessage :=
  (m.encodeHashFields E).generateAndSetSignatureData E keyPair

/-- `deserializeToObject`: the base fields are parsed from the hash fields. -/
def ofRaw (E : Env) (raw : PBFTRawMessage) : Option PBFTMessage :=
  (E.pb.baseMessage.decode raw.hashFieldsData).map fun base => { base := base, raw := raw }

def decodeAndSetSignature (E : Env) (data : Bytes) : Option PBFTMessage := do
  let raw ← E.pb.pbftRawMessage.decode data
  let m ← ofRaw E raw
  return { m with signatureDataHash := E.crypto.hash raw.hashFieldsData }

/-- A fresh message with the hash fields last encoded and no proposal. -/
def populateWithoutProposal (E : Env) (m : PBFTMessage) : Option PBFTMessage :=
  ofRaw E { hashFieldsData := m.raw.hashFieldsData }

def verifySignature (E : Env) (publicKey : NodeID) (m : PBFTMessage) : Bool :=
  E.crypto.verify publicKey m.signatureDataHash m.raw.signatureData

end PBFTMessage

namespace ViewChangeMsg

/-- `deserializeToObject`: the signed digest is the one the wire carries. -/
def ofRaw (E : Env) (raw : RawViewChangeMessage) : Option ViewChangeMsg :=
  (raw.preparedProposals.mapM (PBFTMessage.ofRaw E)).map fun prepared =>
    { base := raw.message, committedProposal := raw.committedProposal, preparedProposals := prepared
      signatureDataHash := toHash raw.message.signatureHash }

def verifySignature (E : Env) (publicKey : NodeID) (m : ViewChangeMsg) : Bool :=
  E.crypto.verify publicKey m.signatureDataHash m.base.signatureData

def setSignature (m : ViewChangeMsg) (hash : HashType) (signatureData : Bytes) : ViewChangeMsg :=
  { m with signatureDataHash := hash
           base := { m.base with signatureHash := hash.val, signatureData := signatureData } }

end ViewChangeMsg

namespace NewViewMsg

def ofRaw (E : Env) (raw : RawNewViewMessage) : Option NewViewMsg := do
  let viewChanges ← raw.viewChangeMsgList.mapM (ViewChangeMsg.ofRaw E)
  let prePrepares ← raw.prePrepareList.mapM (PBFTMessage.ofRaw E)
  return { base := raw.message, viewChangeMsgList := viewChanges, prePrepareList := prePrepares
           signatureDataHash := toHash raw.message.signatureHash }

def verifySignature (E : Env) (publicKey : NodeID) (m : NewViewMsg) : Bool :=
  E.crypto.verify publicKey m.signatureDataHash m.base.signatureData

def setSignature (m : NewViewMsg) (hash : HashType) (signatureData : Bytes) : NewViewMsg :=
  { m with signatureDataHash := hash
           base := { m.base with signatureHash := hash.val, signatureData := signatureData } }

/-- `setPrePrepareList` brings the hash fields of every pre-prepare up to date. -/
def setPrePrepareList (E : Env) (m : NewViewMsg) (l : List PBFTMessage) : NewViewMsg :=
  { m with prePrepareList := l.map (PBFTMessage.encodeHashFields E) }

end NewViewMsg

/-! ### PBFTCodec -/

namespace PBFTCodec

def shouldHandleSignature (t : PacketType) : Bool :=
  t = .ViewChangePacket || t = .NewViewPacket

/-- `PBFTCodec::encode`: the bytes to send, the message object afterwards and what was signed. -/
def encode (E : Env) (keyPair : KeyPair) (version : Int) (msg : Message) : Bytes × Message × List SignRecord :=
  match msg with
  | .pbft m =>
    let m := m.encode E keyPair
    (E.pb.rawMessage.encode { version := version, type := m.packetType.toInt,
                              payLoad := E.pb.pbftRawMessage.encode m.raw },
      .pbft m, [.hashFields m.packetType m.raw.hashFieldsData])
  | .viewChange m =>
    let payLoad := E.pb.rawViewChange.encode m.rawViewChange
    if shouldHandleSignature m.packetType && m.base.signatureData.length = 0 then
      let hash := E.crypto.hash payLoad
      let signatureData := E.crypto.sign keyPair hash
      (E.pb.rawMessage.encode { version := version, type := m.packetType.toInt,
                                signatureData := signatureData, payLoad := payLoad },
        .viewChange (m.setSignature hash signatureData), [.payLoad m.packetType payLoad])
    else
      (E.pb.rawMessage.encode { version := version, type := m.packetType.toInt, payLoad := payLoad },
        .viewChange m, [])
  | .newView m =>
    let payLoad := E.pb.rawNewView.encode m.rawNewView
    if shouldHandleSignature m.packetType && m.base.signatureData.length = 0 then
      let hash := E.crypto.hash payLoad
      let signatureData := E.crypto.sign keyPair hash
      (E.pb.rawMessage.encode { version := version, type := m.packetType.toInt,
                                signatureData := signatureData, payLoad := payLoad },
        .newView (m.setSignature hash signatureData), [.payLoad m.packetType payLoad])
    else
      (E.pb.rawMessage.encode { version := version, type := m.packetType.toInt, payLoad := payLoad },
        .newView m, [])
  | .request m =>
    (E.pb.rawMessage.encode { version := version, type := m.packetType.toInt,
                              payLoad := E.pb.proposalRequest.encode { message := m.base, size := m.size } },
      .request m, [])

/-- The class that the `switch` over the packet type builds from the payload. -/
def decodePayLoad (E : Env) (t : PacketType) (payLoad : Bytes) : Option Message :=
  match t with
  | .PrePreparePacket | .PreparePacket | .CommitPacket | .CommittedProposalResponse | .CheckPoint
  | .RecoverRequest | .RecoverResponse =>
    (PBFTMessage.decodeAndSetSignature E payLoad).map fun m => .pbft { m with packetType := t }
  | .PreparedProposalResponse | .ViewChangePacket =>
    ((E.pb.rawViewChange.decode payLoad).bind (ViewChangeMsg.ofRaw E)).map fun m =>
      .viewChange { m with packetType := t }
  | .NewViewPacket =>
    ((E.pb.rawNewView.decode payLoad).bind (NewViewMsg.ofRaw E)).map fun m =>
      .newView { m with packetType := t }
  | .CommittedProposalRequest | .PreparedProposalRequest =>
    (E.pb.proposalRequest.decode payLoad).map fun r =>
      .request { packetType := t, base := r.message, size := r.size }

/-- The digest of a view-change or new-view payload is recomputed only when the payload carries no
signature data of its own. -/
def handleSignature (E : Env) (raw : RawMessage) : Message → Message
  | .viewChange m =>
    if shouldHandleSignature m.packetType && m.base.signatureData.length = 0 then
      .viewChange (m.setSignature (E.crypto.hash raw.payLoad) raw.signatureData)
    else .viewChange m
  | .newView m =>
    if shouldHandleSignature m.packetType && m.base.signatureData.length = 0 then
      .newView (m.setSignature (E.crypto.hash raw.payLoad) raw.signatureData)
    else .newView m
  | msg => msg

def decode (E : Env) (data : Bytes) : Option Message := do
  let raw ← E.pb.rawMessage.decode data
  let t ← PacketType.ofInt raw.type
  let msg ← decodePayLoad E t raw.payLoad
  return handleSignature E raw msg

end PBFTCodec

end BcosPbft
