import BcosPbft.Spec.Step
import Mathlib.Data.Finset.Basic
import Mathlib.Logic.Function.Basic

/-! A group of consensus nodes. Every honest node runs the program on its own state; the faulty nodes and the
network are the choice of which bytes arrive where and when, so they need no state here. -/

namespace BcosPbft

/-- What a node's key has signed so far. -/
def Node.signed (s : Node) : List SignRecord :=
  s.log.filterMap fun a =>
    match a with
    | .sign r => some r
    | _ => none

/-- The proposals that `checkAndPreCommit` and `checkAndCommit` have handed to `updateCommitQueue`. -/
def Node.Pushes (s : Node) (p : PBFTProposal) : Prop :=
  ∃ c quorum, Action.reportCommit c quorum ∈ s.log ∧ c.precommit.bind PBFTMessage.consensusProposal = some p

/-- The message and the proposal it carries are about the same index and hash. -/
def PBFTMessage.Matches (m : PBFTMessage) : Prop :=
  ∀ p ∈ m.consensusProposal, p.index = m.index ∧ p.hash = m.hash

instance (m : PBFTMessage) : Decidable m.Matches := inferInstanceAs (Decidable (∀ p ∈ m.consensusProposal, _))

/-- The `PBFTMessage` that arrives with an event. -/
def Event.vote (E : Env) : Event → Option PBFTMessage
  | .receive fromNode data _ =>
    match (PBFTCodec.decode E data).map (Message.setFrom fromNode) with
    | some (.pbft m) => some m
    | _ => none
  | _ => none

/-- The nodes of the ledger's list, known by their index in the sorted list. -/
structure Group where
  consensusNodeList : List ConsensusNode
  faulty : Finset IndexType

/-- The states of the honest nodes, by index. -/
abbrev World := IndexType → Node

namespace Group

def Honest (g : Group) (X : IndexType) : Prop := X.toNat < g.consensusNodeList.length ∧ X ∉ g.faulty

instance (g : Group) (X : IndexType) : Decidable (g.Honest X) := inferInstanceAs (Decidable (_ ∧ _))

/-- The message has a signature that verifies under the key of the honest node it names. -/
def Speaks (g : Group) (E : Env) (m : PBFTMessage) : Prop :=
  g.Honest m.generatedFrom ∧
    ∃ n ∈ (Config.sortNodes E g.consensusNodeList)[m.generatedFrom.toNat]?, m.verifySignature E n.nodeID = true

instance (g : Group) (E : Env) (m : PBFTMessage) : Decidable (g.Speaks E m) :=
  inferInstanceAs (Decidable (_ ∧ ∃ n ∈ (Config.sortNodes E g.consensusNodeList)[m.generatedFrom.toNat]?, _))

/-- Every honest node starts from `init` with the node list of the group, under its own index. The blocks are numbered
from 0, and the storage loads proposals of later ones than the ledger's last. -/
def Initial (g : Group) (E : Env) (w : World) : Prop :=
  ∀ X, g.Honest X → ∃ keyPair l state, initNode E keyPair l state = some (w X) ∧
    l.consensusNodeList = g.consensusNodeList ∧ (w X).cfg.nodeIndex = X ∧ 0 ≤ l.blockNumber ∧
      ∀ p ∈ state, l.blockNumber < p.index

/-- The node list stays, no block is synced, and signatures and hashes are sound: a signature of an honest node is
one that it has made, and bytes with the hash of what it has signed are what it has signed. -/
structure Admits (g : Group) (E : Env) (w : World) (e : Event) : Prop where
  nodes : ∀ l, e = .finalized l → l.consensusNodeList = g.consensusNodeList
  noSync : ∀ l, e ≠ .newBlock l
  unforgeable : ∀ m ∈ e.vote E, g.Speaks E m → ∃ r ∈ (w m.generatedFrom).signed, r.digest E = m.signatureDataHash
  collisionFree : ∀ m ∈ e.vote E, g.Speaks E m → ∀ t data, .hashFields t data ∈ (w m.generatedFrom).signed →
    E.crypto.hash data = E.crypto.hash m.raw.hashFieldsData → data = m.raw.hashFieldsData

/-- The condition under which the nodes agree: a pre-prepare that is stored is about the index and hash of its
proposal and about an index whose cache has not been erased, and a commit that arrives was signed as a commit. -/
structure Clean (g : Group) (E : Env) (w : World) (X : IndexType) (e : Event) : Prop where
  stored : ∀ m ∈ e.stores (w X), (w X).checkPrePrepareMsg m = true →
    m.Matches ∧ Action.eraseCache m.index ∉ (w X).log
  commits : ∀ m ∈ e.vote E, m.packetType = .CommitPacket → g.Speaks E m →
    (∃ r ∈ (w m.generatedFrom).signed, r.digest E = m.signatureDataHash) →
    ∃ data, .hashFields .CommitPacket data ∈ (w m.generatedFrom).signed ∧ E.crypto.hash data = m.signatureDataHash

/-- The runs of a group whose steps are all `ok`, in any interleaving. -/
inductive Run (g : Group) (E : Env) (ok : World → IndexType → Event → Prop) (w₀ : World) : World → Prop
  | refl : Run g E ok w₀ w₀
  | step {w : World} {X : IndexType} {e : Event} {s : Node} (h : Run g E ok w₀ w) (hX : g.Honest X) (hok : ok w X e)
      (hs : step E (w X) e = some s) : Run g E ok w₀ (Function.update w X s)

/-- Honest nodes push proposals of one hash at an index. -/
def Agrees (g : Group) (w : World) : Prop :=
  ∀ X Y p q, g.Honest X → g.Honest Y → (w X).Pushes p → (w Y).Pushes q → p.index = q.index → p.hash = q.hash

end Group

end BcosPbft
