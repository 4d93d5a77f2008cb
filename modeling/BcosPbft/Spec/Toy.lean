import BcosPbft.Lib.Serial
import BcosPbft.Spec.Step

/-! A concrete environment: serializers for every message of the protobuf files, a checksum for a hash, and
signatures that spell out the key and the digest. The inputs of the witnesses and counterexamples of this
development are messages of this environment. -/

namespace BcosPbft

namespace Toy

/-- An empty byte string is the message with every field at its default, as in protobuf. -/
def object {α : Type} [Inhabited α] (S : Serial α) : PBObject α where
  encode := S.enc
  decode b :=
    match S.dec b with
    | some (a, []) => some a
    | _ => if b = [] then some default else none

theorem object_lawful {α : Type} [Inhabited α] (S : Serial α) : (object S).Lawful := by
  intro a
  have h := S.dec_enc a []
  rw [List.append_nil] at h
  simp only [object, h]

open Serial in
def baseMessage : Serial BaseMessage :=
  (int.prod (int.prod (bytes.prod (uint64.prod (int.prod (uint64.prod (bytes.prod bytes))))))).map
    (fun m => (m.version, m.index, m.hash, m.view, m.timestamp, m.generatedFrom, m.signatureHash, m.signatureData))
    (fun (a, b, c, d, e, f, g, h) => ⟨a, b, c, d, e, f, g, h⟩) (fun _ => rfl)

open Serial in
def rawProposal : Serial RawProposal :=
  (int.prod (bytes.prod (bytes.prod (bytes.prod (bytes.prod (int.prod bool)))))).map
    (fun p => (p.index, p.hash, p.data, p.signature, p.extraData, p.sealerId, p.systemProposal))
    (fun (a, b, c, d, e, f, g) => ⟨a, b, c, d, e, f, g⟩) (fun _ => rfl)

open Serial in
def pbftProposal : Serial PBFTProposal :=
  (rawProposal.prod (int.list.prod bytes.list)).map (fun p => (p.proposal, p.nodeList, p.signatureList))
    (fun (a, b, c) => ⟨a, b, c⟩) (fun _ => rfl)

open Serial in
def pbftRawMessage : Serial PBFTRawMessage :=
  (bytes.prod (pbftProposal.option.prod (pbftProposal.list.prod bytes))).map
    (fun m => (m.hashFieldsData, m.consensusProposal, m.proposals, m.signatureData))
    (fun (a, b, c, d) => ⟨a, b, c, d⟩) (fun _ => rfl)

open Serial in
def rawViewChange : Serial RawViewChangeMessage :=
  (baseMessage.prod (pbftProposal.prod pbftRawMessage.list)).map
    (fun m => (m.message, m.committedProposal, m.preparedProposals))
    (fun (a, b, c) => ⟨a, b, c⟩) (fun _ => rfl)

open Serial in
def rawNewView : Serial RawNewViewMessage :=
  (baseMessage.prod (rawViewChange.list.prod pbftRawMessage.list)).map
    (fun m => (m.message, m.viewChangeMsgList, m.prePrepareList))
    (fun (a, b, c) => ⟨a, b, c⟩) (fun _ => rfl)

open Serial in
def proposalRequest : Serial ProposalRequest :=
  (baseMessage.prod int).map (fun m => (m.message, m.size)) (fun (a, b) => ⟨a, b⟩) (fun _ => rfl)

open Serial in
def rawMessage : Serial RawMessage :=
  (int.prod (int.prod (bytes.prod bytes))).map (fun m => (m.version, m.type, m.signatureData, m.payLoad))
    (fun (a, b, c, d) => ⟨a, b, c, d⟩) (fun _ => rfl)

def protobuf : Protobuf where
  baseMessage := object baseMessage
  pbftRawMessage := object pbftRawMessage
  rawViewChange := object rawViewChange
  rawNewView := object rawNewView
  proposalRequest := object proposalRequest
  rawMessage := object rawMessage

theorem protobuf_lawful : protobuf.Lawful where
  baseMessage := object_lawful _
  pbftRawMessage := object_lawful _
  rawViewChange := object_lawful _
  rawNewView := object_lawful _
  proposalRequest := object_lawful _
  rawMessage := object_lawful _

/-- The last 32 base-256 digits of the bytes read in base 257. -/
def checksum (b : Bytes) : HashType :=
  let n := b.foldl (fun h x => h * 257 + x.toNat + 1) 0
  ⟨(List.range 32).map (fun i => UInt8.ofNat (n / Nat.pow 256 i)), by simp⟩

/-- The secret key is the public one. -/
def crypto : CryptoSuite where
  hash := checksum
  sign k h := k.secretKey ++ h.val
  verify n h s := s = n ++ h.val

/-- The key pair and the identity of the node with a one-byte name. -/
def keyPair (b : UInt8) : KeyPair := { publicKey := [b], secretKey := [b] }

def blockNumber (data : Bytes) : Option Int := data.head?.map (fun b => (b.toNat : Int))

/-- A block is its number followed by any content; executing it hashes the block with its parent. -/
def env : Env where
  crypto := crypto
  pb := protobuf
  nodeLess a b := a.nodeID < b.nodeID
  headerNumber := blockNumber
  headerHash := checksum
  emptyBlock i sealer := (checksum [.ofInt i, .ofInt sealer], [.ofInt i, .ofInt sealer])
  execute data parent :=
    let encoded := data ++ (parent.map (fun p => p.2.val)).getD []
    { number := (blockNumber data).getD 0, hash := checksum encoded, encoded := encoded }

/-- The environment in which a block starts with its number in full. -/
def numbered : Env :=
  let blockNumber := fun data => (Serial.int.dec data).map Prod.fst
  { env with
    headerNumber := blockNumber
    emptyBlock := fun i _ => (checksum (Serial.int.enc i), Serial.int.enc i)
    execute := fun data parent =>
      let encoded := data ++ (parent.map (fun p => p.2.val)).getD []
      { number := (blockNumber data).getD 0, hash := checksum encoded, encoded := encoded } }

/-- A block of number 1 as a proposal. -/
def proposal (content : UInt8) : PBFTProposal :=
  { proposal := { index := 1, hash := (checksum [1, content]).val, data := [1, content] } }

/-- The environment in which one key verifies only what is in its signing history. -/
def keyed (publicKey : NodeID) (history : List SignRecord) : Env :=
  { env with crypto := { crypto with verify := fun n h s =>
      s = n ++ h.val && (n ≠ publicKey || history.any (fun r => r.digest env = h)) } }

/-- The consensus nodes `[0]`, `[1]`, … with the given weights. -/
def nodes (weights : List UInt64) : List ConsensusNode :=
  weights.zipIdx.map (fun e => { nodeID := [.ofNat e.2], weight := e.1 })

/-- A node with the given name, started on an empty ledger. -/
def node (b : UInt8) (weights : List UInt64) : Node :=
  (initNode env (keyPair b) { blockNumber := 0, hash := zeroHash, consensusNodeList := nodes weights } []).getD
    { cfg := { keyPair := keyPair b } }

/-- The packet of a pre-prepare of the node with the given name for a block of number 1. -/
def prePrepare (leader : UInt8) (view : ViewType) (content : UInt8) : Bytes :=
  (PBFTCodec.encode env (keyPair leader) 0
    (.pbft (populatePrePrepare .PrePreparePacket (proposal content) 0 view 0 (.ofNat leader.toNat)))).1

/-- The steps of a run in which nothing comes between what the code tests without the lock and what it then does. -/
def atOnce (l : List Event) : List Event :=
  l.flatMap fun e =>
    match e with
    | .worker => List.replicate 5 .gate ++ [e]
    | .submitProposal .. => [e, .proposalSubmitted 0]
    | .proposalLoaded _ .error | .proposalLoaded _ (.result false) => [e, .lowMark 0]
    | .newBlock l => [.notifyNewBlock l, e]
    | _ => [e]

theorem of_atOnce {P : Event → Prop} {l : List Event} (h : ∀ e ∈ l, P e) (hgate : P .gate)
    (hsubmit : P (.proposalSubmitted 0)) (hlow : P (.lowMark 0))
    (hblock : ∀ b, P (.newBlock b) → P (.notifyNewBlock b)) : ∀ e ∈ atOnce l, P e := by
  intro e he
  obtain ⟨e', he', hmem⟩ := List.mem_flatMap.1 he
  have hself := h e' he'
  split at hmem
  · rcases List.mem_append.1 hmem with hmem | hmem
    · rw [List.eq_of_mem_replicate hmem]
      exact hgate
    · rw [List.mem_singleton.1 hmem]
      exact hself
  · rcases List.mem_cons.1 hmem with rfl | hmem
    · exact hself
    · rw [List.mem_singleton.1 hmem]
      exact hsubmit
  · rcases List.mem_cons.1 hmem with rfl | hmem
    · exact hself
    · rw [List.mem_singleton.1 hmem]
      exact hlow
  · rcases List.mem_cons.1 hmem with rfl | hmem
    · exact hself
    · rw [List.mem_singleton.1 hmem]
      exact hlow
  · rcases List.mem_cons.1 hmem with rfl | hmem
    · exact hblock _ hself
    · rw [List.mem_singleton.1 hmem]
      exact hself
  · rw [List.mem_singleton.1 hmem]
    exact hself

/-- A run that was evaluated to a state for which a check succeeds. -/
theorem exists_of_elim {α : Type} {o : Option α} {check : α → Bool} (h : o.elim false check = true) :
    ∃ a, o = some a ∧ check a = true := by
  cases o with
  | none => cases h
  | some a => exact ⟨a, rfl, h⟩

end Toy

def Action.isReport : Action → Bool
  | .reportCommit _ _ => true
  | _ => false

end BcosPbft
