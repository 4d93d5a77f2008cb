import Mathlib.Data.List.Lex
import Mathlib.Order.Basic
import Mathlib.Order.Lattice

/-! The data of the consensus module: block numbers, views and node indices, the protobuf messages of
`PBFT.proto` and `Consensus.proto`, and the message objects the engine works on. Block numbers, `int64_t` in
the source, are unbounded: signed overflow is undefined there. -/

instance linearOrderUInt8 : LinearOrder UInt8 where
  le_refl := UInt8.le_refl
  le_trans _ _ _ := UInt8.le_trans
  le_antisymm _ _ := UInt8.le_antisymm
  le_total := UInt8.le_total
  lt_iff_le_not_ge a b := by simp [UInt8.lt_iff_toNat_lt, UInt8.le_iff_toNat_le]; omega
  toDecidableLE := inferInstance
  toDecidableLT := inferInstance
  toDecidableEq := inferInstance

instance linearOrderUInt64 : LinearOrder UInt64 where
  le_refl := UInt64.le_refl
  le_trans _ _ _ := UInt64.le_trans
  le_antisymm _ _ := UInt64.le_antisymm
  le_total := UInt64.le_total
  lt_iff_le_not_ge a b := by simp [UInt64.lt_iff_toNat_lt, UInt64.le_iff_toNat_le]; omega
  toDecidableLE := inferInstance
  toDecidableLT := inferInstance
  toDecidableEq := inferInstance

namespace BcosPbft

abbrev Bytes := List UInt8

/-- `bcos::crypto::HashType`, a fixed 32-byte string. -/
abbrev HashType := {b : Bytes // b.length = 32}

/-- `uint64_t` position in the sorted consensus node list. -/
abbrev IndexType := UInt64

abbrev ViewType := UInt64

/-- A node's public key, compared by its bytes. -/
abbrev NodeID := Bytes

def zeroHash : HashType := ⟨List.replicate 32 0, by simp⟩

instance : Inhabited HashType := ⟨zeroHash⟩

/-- The object's hash of a `bytes hash` field: the first 32 bytes, the zero hash if there are fewer. -/
def toHash (b : Bytes) : HashType :=
  if h : 32 ≤ b.length then ⟨b.take 32, by simp [h]⟩ else zeroHash

@[simp] theorem toHash_val (h : HashType) : toHash h.val = h := by
  have hl := h.property
  simp only [toHash, hl, le_refl, dite_true]
  exact Subtype.ext (List.take_of_length_le (by omega))

inductive PacketType
  | PrePreparePacket | PreparePacket | CommitPacket | ViewChangePacket | NewViewPacket
  | CommittedProposalRequest | CommittedProposalResponse
  | PreparedProposalRequest | PreparedProposalResponse
  | CheckPoint | RecoverRequest | RecoverResponse
deriving DecidableEq, Repr

def PacketType.toInt : PacketType → Int
  | PrePreparePacket => 0 | PreparePacket => 1 | CommitPacket => 2 | ViewChangePacket => 3
  | NewViewPacket => 4 | CommittedProposalRequest => 5 | CommittedProposalResponse => 6
  | PreparedProposalRequest => 7 | PreparedProposalResponse => 8
  | CheckPoint => 9 | RecoverRequest => 10 | RecoverResponse => 11

/-- The `switch` of `PBFTCodec::decode`; every other value throws `UnknownPBFTMsgType`. -/
def PacketType.ofInt : Int → Option PacketType
  | 0 => some PrePreparePacket | 1 => some PreparePacket | 2 => some CommitPacket
  | 3 => some ViewChangePacket | 4 => some NewViewPacket | 5 => some CommittedProposalRequest
  | 6 => some CommittedProposalResponse | 7 => some PreparedProposalRequest
  | 8 => some PreparedProposalResponse | 9 => some CheckPoint | 10 => some RecoverRequest
  | 11 => some RecoverResponse | _ => none

@[simp] theorem PacketType.ofInt_toInt (t : PacketType) : PacketType.ofInt t.toInt = some t := by
  cases t <;> rfl

structure BaseMessage where
  version : Int := 0
  index : Int := 0
  hash : Bytes := []
  view : ViewType := 0
  timestamp : Int := 0
  generatedFrom : IndexType := 0
  signatureHash : Bytes := []
  signatureData : Bytes := []
deriving DecidableEq, Inhabited

structure RawProposal where
  index : Int := 0
  hash : Bytes := []
  data : Bytes := []
  signature : Bytes := []
  extraData : Bytes := []
  sealerId : Int := 0
  systemProposal : Bool := false
deriving DecidableEq, Inhabited

/-- `PBFTRawProposal`: a proposal with its proof, two parallel lists. -/
structure PBFTProposal where
  proposal : RawProposal := {}
  nodeList : List Int := []
  signatureList : List Bytes := []
deriving DecidableEq, Inhabited

namespace PBFTProposal

def index (p : PBFTProposal) : Int := p.proposal.index
def hash (p : PBFTProposal) : HashType := toHash p.proposal.hash
def data (p : PBFTProposal) : Bytes := p.proposal.data
def signature (p : PBFTProposal) : Bytes := p.proposal.signature
def signatureProofSize (p : PBFTProposal) : Nat := p.signatureList.length

/-- `signatureProof(i)`, which reads both lists at `i` without comparing their sizes; `none` is a read
past the end of one of them. -/
def signatureProof (p : PBFTProposal) (i : Nat) : Option (Int × Bytes) :=
  match p.nodeList[i]?, p.signatureList[i]? with
  | some n, some s => some (n, s)
  | _, _ => none

def clearSignatureProof (p : PBFTProposal) : PBFTProposal := { p with nodeList := [], signatureList := [] }

def appendSignatureProof (p : PBFTProposal) (nodeIdx : Int) (signatureData : Bytes) : PBFTProposal :=
  { p with nodeList := p.nodeList ++ [nodeIdx], signatureList := p.signatureList ++ [signatureData] }

def setData (p : PBFTProposal) (data : Bytes) : PBFTProposal :=
  { p with proposal := { p.proposal with data := data } }

end PBFTProposal

structure PBFTRawMessage where
  hashFieldsData : Bytes := []
  consensusProposal : Option PBFTProposal := none
  proposals : List PBFTProposal := []
  signatureData : Bytes := []
deriving DecidableEq, Inhabited

structure RawViewChangeMessage where
  message : BaseMessage := {}
  committedProposal : PBFTProposal := {}
  preparedProposals : List PBFTRawMessage := []
deriving DecidableEq, Inhabited

structure RawNewViewMessage where
  message : BaseMessage := {}
  viewChangeMsgList : List RawViewChangeMessage := []
  prePrepareList : List PBFTRawMessage := []
deriving DecidableEq, Inhabited

structure ProposalRequest where
  message : BaseMessage := {}
  size : Int := 0
deriving DecidableEq, Inhabited

structure RawMessage where
  version : Int := 0
  type : Int := 0
  signatureData : Bytes := []
  payLoad : Bytes := []
deriving DecidableEq, Inhabited

/-- `PBFTMessage`. The base fields are a parsed copy of `raw.hashFieldsData`; a setter changes the copy
only, the bytes follow at the next `encodeHashFields`. -/
structure PBFTMessage where
  packetType : PacketType := .PrePreparePacket
  base : BaseMessage := {}
  raw : PBFTRawMessage := {}
  signatureDataHash : HashType := zeroHash
  fromNode : Option NodeID := none
deriving DecidableEq, Inhabited

namespace PBFTMessage

def index (m : PBFTMessage) : Int := m.base.index
def hash (m : PBFTMessage) : HashType := toHash m.base.hash
def view (m : PBFTMessage) : ViewType := m.base.view
def generatedFrom (m : PBFTMessage) : IndexType := m.base.generatedFrom
def consensusProposal (m : PBFTMessage) : Option PBFTProposal := m.raw.consensusProposal
def proposals (m : PBFTMessage) : List PBFTProposal := m.raw.proposals

def setConsensusProposal (m : PBFTMessage) (p : PBFTProposal) : PBFTMessage :=
  { m with raw := { m.raw with consensusProposal := some p } }

def setGeneratedFrom (m : PBFTMessage) (i : IndexType) : PBFTMessage :=
  { m with base := { m.base with generatedFrom := i } }

def setIndex (m : PBFTMessage) (i : Int) : PBFTMessage :=
  { m with base := { m.base with index := i } }

end PBFTMessage

structure ViewChangeMsg where
  packetType : PacketType := .ViewChangePacket
  base : BaseMessage := {}
  committedProposal : PBFTProposal := {}
  preparedProposals : List PBFTMessage := []
  signatureDataHash : HashType := zeroHash
  fromNode : Option NodeID := none
deriving DecidableEq, Inhabited

namespace ViewChangeMsg

def index (m : ViewChangeMsg) : Int := m.base.index
def hash (m : ViewChangeMsg) : HashType := toHash m.base.hash
def view (m : ViewChangeMsg) : ViewType := m.base.view
def generatedFrom (m : ViewChangeMsg) : IndexType := m.base.generatedFrom

def rawViewChange (m : ViewChangeMsg) : RawViewChangeMessage :=
  { message := m.base, committedProposal := m.committedProposal,
    preparedProposals := m.preparedProposals.map (·.raw) }

end ViewChangeMsg

structure NewViewMsg where
  packetType : PacketType := .NewViewPacket
  base : BaseMessage := {}
  viewChangeMsgList : List ViewChangeMsg := []
  prePrepareList : List PBFTMessage := []
  signatureDataHash : HashType := zeroHash
  fromNode : Option NodeID := none
deriving DecidableEq, Inhabited

namespace NewViewMsg

def index (m : NewViewMsg) : Int := m.base.index
def view (m : NewViewMsg) : ViewType := m.base.view
def generatedFrom (m : NewViewMsg) : IndexType := m.base.generatedFrom

def rawNewView (m : NewViewMsg) : RawNewViewMessage :=
  { message := m.base, viewChangeMsgList := m.viewChangeMsgList.map (·.rawViewChange),
    prePrepareList := m.prePrepareList.map (·.raw) }

end NewViewMsg

structure PBFTRequest where
  packetType : PacketType := .CommittedProposalRequest
  base : BaseMessage := {}
  size : Int := 0
  fromNode : Option NodeID := none
deriving DecidableEq, Inhabited

/-- A decoded `PBFTBaseMessageInterface::Ptr`, by the class the codec chose. -/
inductive Message
  | pbft (m : PBFTMessage)
  | viewChange (m : ViewChangeMsg)
  | newView (m : NewViewMsg)
  | request (m : PBFTRequest)
deriving DecidableEq

namespace Message

def packetType : Message → PacketType
  | pbft m => m.packetType | viewChange m => m.packetType | newView m => m.packetType
  | request m => m.packetType

def base : Message → BaseMessage
  | pbft m => m.base | viewChange m => m.base | newView m => m.base | request m => m.base

def setFrom (n : NodeID) : Message → Message
  | pbft m => pbft { m with fromNode := some n }
  | viewChange m => viewChange { m with fromNode := some n }
  | newView m => newView { m with fromNode := some n }
  | request m => request { m with fromNode := some n }

end Message

structure KeyPair where
  publicKey : NodeID
  secretKey : Bytes
deriving DecidableEq, Inhabited

structure ConsensusNode where
  nodeID : NodeID
  weight : UInt64
deriving DecidableEq, Inhabited

/-- `cryptoSuite()`: the hash and signature implementations of the framework. -/
structure CryptoSuite where
  hash : Bytes → HashType
  sign : KeyPair → HashType → Bytes
  verify : NodeID → HashType → Bytes → Bool

/-- The generated serializer and parser of one protobuf message; a parse failure throws. -/
structure PBObject (α : Type) where
  encode : α → Bytes
  decode : Bytes → Option α

def PBObject.Lawful {α : Type} (P : PBObject α) : Prop := ∀ a, P.decode (P.encode a) = some a

structure Protobuf where
  baseMessage : PBObject BaseMessage
  pbftRawMessage : PBObject PBFTRawMessage
  rawViewChange : PBObject RawViewChangeMessage
  rawNewView : PBObject RawNewViewMessage
  proposalRequest : PBObject ProposalRequest
  rawMessage : PBObject RawMessage

structure Protobuf.Lawful (P : Protobuf) : Prop where
  baseMessage : P.baseMessage.Lawful
  pbftRawMessage : P.pbftRawMessage.Lawful
  rawViewChange : P.rawViewChange.Lawful
  rawNewView : P.rawNewView.Lawful
  proposalRequest : P.proposalRequest.Lawful
  rawMessage : P.rawMessage.Lawful

/-- What a scheduler returns for an executed block. -/
structure ExecutedHeader where
  number : Int
  hash : HashType
  encoded : Bytes
deriving DecidableEq, Inhabited

/-- The services outside this repository that the consensus module calls. -/
structure Env where
  crypto : CryptoSuite
  pb : Protobuf
  /-- `ConsensusNodeComparator`, the order in which node lists are sorted. -/
  nodeLess : ConsensusNode → ConsensusNode → Bool
  /-- Number of the header of an encoded block, `none` when the block has no header. -/
  headerNumber : Bytes → Option Int
  headerHash : Bytes → HashType
  /-- Hash and encoding of the block `populateEmptyBlock(index, sealerId)` builds. -/
  emptyBlock : Int → Int → HashType × Bytes
  /-- `executeBlock` on the encoded block, with the parent number and hash set before it. -/
  execute : Bytes → Option (Int × HashType) → ExecutedHeader

end BcosPbft
