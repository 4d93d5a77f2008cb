import BcosPbft.Lib.OrdMap
import BcosPbft.Spec.BlockValidator

/-! `TxsValidator`: the proposals whose transactions are being marked in the txpool. A call marks the proposal at once and
leaves the rest to a worker thread; the txpool answers later, and an error starts the call again. -/

namespace BcosPbft

/-- What `createBlock` makes of the data of a proposal. -/
structure ProposalBlock where
  blockHeader : BlockHeader
  transactionHashes : List HashType := []
deriving DecidableEq

def ProposalBlock.hash (b : ProposalBlock) : HashType := b.blockHeader.hash

/-- One request to mark the transactions of a block. -/
structure MarkCall where
  block : ProposalBlock
  flag : Bool
  retryTime : Nat := 0
deriving DecidableEq

structure TxsValidator where
  resettingProposals : OrdMap HashType Unit := ∅
  /-- The tasks that no worker thread has taken yet. -/
  worker : List MarkCall := []
  /-- The calls of `asyncMarkTxs` without an answer. -/
  marking : List MarkCall := []
  /-- The callbacks that saw an error and have not called again. -/
  retrying : List MarkCall := []
deriving DecidableEq

namespace TxsValidator

def resettingProposalSize (v : TxsValidator) : Nat := v.resettingProposals.entries.length

def eraseResettingProposal (v : TxsValidator) (hash : HashType) : TxsValidator :=
  { v with resettingProposals := v.resettingProposals.erase hash }

def insertResettingProposal (v : TxsValidator) (hash : HashType) : TxsValidator × Bool :=
  if v.resettingProposals.contains hash then (v, false)
  else ({ v with resettingProposals := v.resettingProposals.insert hash () }, true)

def asyncResetTxsFlag (v : TxsValidator) (b : ProposalBlock) (flag : Bool) : TxsValidator :=
  let r := if flag then v.insertResettingProposal b.hash else (v, true)
  if !r.2 then r.1 else { r.1 with worker := r.1.worker ++ [{ block := b, flag := flag }] }

/-- The task of `asyncResetTxsFlag`: a block without transactions never reaches the txpool. -/
def runTask (v : TxsValidator) (c : MarkCall) : TxsValidator :=
  if c.block.transactionHashes.length = 0 then v else { v with marking := v.marking ++ [c] }

/-- The callback of `asyncMarkTxs`, up to the point where it marks the proposal again. -/
def onMarked (v : TxsValidator) (c : MarkCall) (error : Bool) : TxsValidator :=
  let v := if c.flag then v.eraseResettingProposal c.block.hash else v
  if !error then v
  else if c.retryTime ≥ 3 then v
  else { v with retrying := v.retrying ++ [c] }

/-- The rest of the callback after an error. -/
def retry (v : TxsValidator) (c : MarkCall) : TxsValidator :=
  let v := if c.flag then (v.insertResettingProposal c.block.hash).1 else v
  { v with marking := v.marking ++ [{ c with retryTime := c.retryTime + 1 }] }

inductive Event
  | asyncResetTxsFlag (b : ProposalBlock) (flag : Bool)
  | runTask (i : Nat)
  | onMarked (i : Nat) (error : Bool)
  | retry (i : Nat)
deriving DecidableEq

/-- One event of the validator; nothing happens when there is nothing at the position. -/
def step (v : TxsValidator) : Event → Option TxsValidator
  | .asyncResetTxsFlag b flag => some (v.asyncResetTxsFlag b flag)
  | .runTask i =>
    match v.worker[i]? with
    | none => some v
    | some c => some ({ v with worker := v.worker.eraseIdx i }.runTask c)
  | .onMarked i error =>
    match v.marking[i]? with
    | none => some v
    | some c => some ({ v with marking := v.marking.eraseIdx i }.onMarked c error)
  | .retry i =>
    match v.retrying[i]? with
    | none => some v
    | some c => some ({ v with retrying := v.retrying.eraseIdx i }.retry c)

/-- All tasks and callbacks have finished. -/
def Finished (v : TxsValidator) : Prop := v.worker = [] ∧ v.marking = [] ∧ v.retrying = []

instance (v : TxsValidator) : Decidable v.Finished := inferInstanceAs (Decidable (_ ∧ _))

end TxsValidator

end BcosPbft
