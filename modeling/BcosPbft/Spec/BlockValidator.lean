import BcosPbft.Spec.Node

/-! `BlockValidator`: the check the sync module asks for before it takes a block of another node. -/

namespace BcosPbft

/-- One entry of a header's `signatureList`. -/
structure HeaderSignature where
  index : Int
  signature : Bytes
deriving DecidableEq, Inhabited

structure BlockHeader where
  number : Int
  hash : HashType
  sealer : Int := 0
  sealerList : List Bytes := []
  consensusWeights : List UInt64 := []
  signatureList : List HeaderSignature := []
deriving DecidableEq, Inhabited

structure Block where
  blockHeader : BlockHeader
  transactionsSize : Nat := 0
deriving DecidableEq, Inhabited

namespace BlockValidator

def checkSealerListAndWeightList (cfg : Config) (b : Block) : Bool :=
  let h := b.blockHeader
  if (cfg.getConsensusNodeByIndex (.ofInt h.sealer)).isNone then false
  else if h.sealerList.length ≠ cfg.consensusNodeList.length ||
      h.consensusWeights.length ≠ cfg.consensusNodeList.length then false
  else
    (cfg.consensusNodeList.zip (h.sealerList.zip h.consensusWeights)).all
      (fun e => e.1.nodeID = e.2.1 && e.1.weight = e.2.2)

/-- `checkSignatureList`, the loop of `checkPrecommitWeight` over the entries of the header. -/
def checkSignatureList (E : Env) (cfg : Config) (b : Block) : Bool :=
  let entries := b.blockHeader.signatureList.map (fun s => some (s.index, s.signature))
  Node.checkProof E cfg b.blockHeader.hash entries 0 = some true

/-- What `asyncCheckBlock` answers. -/
def checkBlock (E : Env) (cfg : Config) (b : Block) : Bool :=
  if b.blockHeader.number = 0 then true
  else if b.blockHeader.number ≤ cfg.committedIndex then false
  else if b.transactionsSize = 0 then true
  else if !checkSealerListAndWeightList cfg b then false
  else if !checkSignatureList E cfg b then false
  else true

end BlockValidator

end BcosPbft
