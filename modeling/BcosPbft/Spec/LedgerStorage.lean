import BcosPbft.Spec.BlockValidator
import BcosPbft.Spec.Step

/-! `LedgerStorage`: the proposals that a node has executed, in a key-value table, with the greatest of their indices. The
rows are written and read one by one; what a row says for sure is what was read back without an error. -/

namespace BcosPbft

/-- The rows of `pbftCommitDB`: the one of the key `max_committed_proposal`, and the proposals under their indices. -/
structure PbftCommitDB where
  maxCommittedProposal : Option Int := none
  proposals : OrdMap Int Bytes := ∅
deriving DecidableEq

structure LedgerStorage where
  db : PbftCommitDB := {}
  maxCommittedProposalIndex : Int := 0
  stateProposals : Option (List PBFTProposal) := none
deriving DecidableEq

/-- What `loadState` returns, or the `InitPBFTException` that it throws. -/
inductive LoadedState
  | thrown
  | loaded (l : Option (List PBFTProposal))
deriving DecidableEq

namespace LedgerStorage

/-- `c_reservedCheckPointSize`. -/
def reservedCheckPointSize : Int := 5

/-! ### Writing -/

/-- `asyncPutProposal`: is the row written? `results` are the outcomes of the tries, and the last one is try 3. -/
def asyncPutProposal (results : Nat → Bool) : Bool := (List.range 4).any results

def putMaxCommittedProposal (s : LedgerStorage) (i : Int) : LedgerStorage :=
  { s with db := { s.db with maxCommittedProposal := some i } }

def putProposal (s : LedgerStorage) (i : Int) (data : Bytes) : LedgerStorage :=
  { s with db := { s.db with proposals := s.db.proposals.insert i data } }

def asyncCommitProposal (pb : PBObject PBFTProposal) (s : LedgerStorage) (p : PBFTProposal)
    (maxResults dataResults : Nat → Bool) : LedgerStorage :=
  if s.maxCommittedProposalIndex ≥ p.index then s
  else
    let s := { s with maxCommittedProposalIndex := p.index }
    let s := if asyncPutProposal maxResults then s.putMaxCommittedProposal p.index else s
    if asyncPutProposal dataResults then s.putProposal p.index (pb.encode p) else s

/-- `asyncRemove` of the row of an index. -/
def asyncRemoveStabledCheckPoint (s : LedgerStorage) (i : Int) (ok : Bool) : LedgerStorage :=
  if ok then { s with db := { s.db with proposals := s.db.proposals.erase i } } else s

/-- The answer of `commitBlock` in `commitStableCheckPoint`, after the finalize handler. -/
def onBlockCommitted (s : LedgerStorage) (number : Int) (ok : Bool) : LedgerStorage :=
  if number > reservedCheckPointSize then s.asyncRemoveStabledCheckPoint (number - reservedCheckPointSize) ok else s

/-- The signature list that a header gets from a proof; `none` is a read past the end of the proof lists. -/
def signatureList (p : PBFTProposal) : Option (List HeaderSignature) :=
  ((List.range p.signatureProofSize).map p.signatureProof).mapM fun proof =>
    proof.map fun e => { index := e.1, signature := e.2 }

/-- `asyncCommitStableCheckPoint`: the header that goes to `commitBlock`. -/
def asyncCommitStableCheckPoint (createBlockHeader : Bytes → Option BlockHeader) (p : PBFTProposal) : Option BlockHeader := do
  let signatureList ← signatureList p
  let blockHeader ← createBlockHeader p.data
  return { blockHeader with signatureList := signatureList }

/-! ### Reading -/

/-- The loop over the values of `asyncGetBatch`: `some none` is the callback with a null pointer, `none` an exception of
`createPBFTProposal`, after which the callback is not called. -/
def readProposals (pb : PBObject PBFTProposal) : List Bytes → List PBFTProposal → Option (Option (List PBFTProposal))
  | [], l => some (some l)
  | value :: t, l =>
    if value.length = 0 then some none
    else
      match pb.decode value with
      | none => none
      | some p => readProposals pb t (l ++ [p])

/-- The keys of a batch: the indices from `start` up to the last one. -/
def batchKeys (start last : Int) : List Int := (List.range (last + 1 - start).toNat).map fun (n : Nat) => start + n

/-- The last index of a batch in the arithmetic of the code: the sum is unsigned, and read as a signed number. -/
def endIndex (maxCommittedProposalIndex start : Int64) (offset : UInt64) : Int64 :=
  min (start.toUInt64 + offset - 1).toInt64 maxCommittedProposalIndex

/-- The indices that `asyncGetCommittedProposals` makes the keys of, `none` without a query. The counter of the loop cannot
go beyond the greatest number. -/
def queriedIndices (maxCommittedProposalIndex start : Int64) (offset : UInt64) : Option (List Int) :=
  if start > maxCommittedProposalIndex then none
  else
    let endIndex := endIndex maxCommittedProposalIndex start offset
    if endIndex = Int64.maxValue then none else some (batchKeys start.toInt endIndex.toInt)

/-- The keys that go to `asyncGetBatch`. -/
def queriedKeys (maxCommittedProposalIndex start : Int64) (offset : UInt64) : Option (List String) :=
  (queriedIndices maxCommittedProposalIndex start offset).map (List.map fun (i : Int) => toString i)

/-- `asyncGetCommittedProposals`: the argument of the callback, `none` when it is not called. A missing row is read as an
empty string. -/
def asyncGetCommittedProposals (pb : PBObject PBFTProposal) (s : LedgerStorage) (start : Int) (offset : Nat) (error : Bool) :
    Option (Option (List PBFTProposal)) :=
  if start > s.maxCommittedProposalIndex then none
  else if error then none
  else
    let last := min (start + offset - 1) s.maxCommittedProposalIndex
    readProposals pb ((batchKeys start last).map fun i => (s.db.proposals.find? i).getD []) []

/-- The callback of `asyncGetLatestCommittedProposalIndex`, which looks at the value before it looks at the error. Does it
set `m_maxCommittedProposalIndexFetched`? -/
def onLatestCommittedProposalIndex (s : LedgerStorage) (error : Bool) (value : Option Int) : LedgerStorage × Bool :=
  match value with
  | none => (s, true)
  | some latest =>
    if error then (s, false)
    else if s.maxCommittedProposalIndex < latest then ({ s with maxCommittedProposalIndex := latest }, true)
    else (s, true)

/-- `asyncGet` gives an empty value together with an error. -/
def asyncGetLatestCommittedProposalIndex (s : LedgerStorage) (error : Bool) : LedgerStorage × Bool :=
  s.onLatestCommittedProposalIndex error (if error then none else s.db.maxCommittedProposal)

/-- `loadState`; the flags say which of the two reads reports an error. -/
def loadState (pb : PBObject PBFTProposal) (s : LedgerStorage) (stabledIndex : Int) (maxError batchError : Bool) :
    LedgerStorage × LoadedState :=
  let (s, fetched) := s.asyncGetLatestCommittedProposalIndex maxError
  if !fetched then (s, .thrown)
  else if s.maxCommittedProposalIndex ≤ stabledIndex then
    ({ s with maxCommittedProposalIndex := stabledIndex }, .loaded none)
  else
    let offset := (s.maxCommittedProposalIndex - stabledIndex).toNat
    match s.asyncGetCommittedProposals pb (stabledIndex + 1) offset batchError with
    | none => (s, .thrown)
    | some proposalList =>
      let s := { s with stateProposals := proposalList.orElse fun _ => s.stateProposals }
      let s := if (s.stateProposals.getD []).length = 0 then { s with maxCommittedProposalIndex := stabledIndex } else s
      (s, .loaded s.stateProposals)

/-- The storage of a process that starts on this table. -/
def restarted (db : PbftCommitDB) : LedgerStorage := { db := db }

/-! ### Under a node -/

/-- A call of the node, with puts and removes that succeed. -/
def perform (pb : PBObject PBFTProposal) (s : LedgerStorage) : Action → LedgerStorage
  | .asyncCommitProposal p => s.asyncCommitProposal pb p (fun _ => true) (fun _ => true)
  | .asyncRemoveStabledCheckPoint i => s.asyncRemoveStabledCheckPoint i true
  | _ => s

end LedgerStorage

/-- The query of `onReceiveCommittedProposalRequest`, which a precommitted proposal saves for a request of size 1. -/
def Node.committedProposalQuery (s : Node) (maxCommittedProposalIndex index size : Int64) : Option (List String) :=
  match s.fetchPrecommitProposal index.toInt, decide (size = 1) with
  | some _, true => none
  | _, _ => LedgerStorage.queriedKeys maxCommittedProposalIndex index size.toUInt64

/-- A node with its storage. -/
structure StoredNode where
  node : Node
  storage : LedgerStorage

/-- The storage does what the step of the node has called it for; a block that the node has committed itself goes on to drop
the proposal that is no longer reserved. -/
def StoredNode.step (E : Env) (pb : PBObject PBFTProposal) (s : StoredNode) (e : Event) : Option StoredNode :=
  (BcosPbft.step E s.node e).map fun t =>
    let storage := (t.log.drop s.node.log.length).foldl (LedgerStorage.perform pb) s.storage
    { node := t
      storage := match e with
        | .finalized l => storage.onBlockCommitted l.blockNumber true
        | _ => storage }

end BcosPbft
