import BcosPbft.Spec.Step

/-! `StateMachine` with every outcome of the block factory and of the scheduler, of which the node takes the blocks that
decode. A path that does not call `_onExecuteFinished` has no report. -/

namespace BcosPbft

/-- What `createBlock` makes of the data of a proposal; the number is that of the header. -/
inductive DecodedBlock
  | thrown
  | noHeader
  | header (number : Int)
deriving DecidableEq

/-- The answer of `executeBlock`. -/
inductive ExecuteOutcome
  | error
  | header (h : ExecutedHeader)
deriving DecidableEq

/-- A call of `_onExecuteFinished`, with the executed proposal as it is then. -/
structure Report where
  ret : Bool
  executedProposal : PBFTProposal := {}
deriving DecidableEq

namespace StateMachine

def parentInfo (lastApplied proposal : PBFTProposal) : Option (Int × HashType) :=
  if proposal.index = lastApplied.index + 1 then some (lastApplied.index, lastApplied.hash) else none

/-- The callback of `executeBlock`, for a block with this number. -/
def onBlockExecuted (proposal : PBFTProposal) (number : Int) : ExecuteOutcome → List Report
  | .error => [{ ret := false }]
  | .header h =>
    if h.number ≠ number then []
    else
      [{ ret := true
         executedProposal := { proposal := { index := h.number, hash := h.hash.val, data := h.encoded
                                             extraData := proposal.data } } }]

/-- `apply`, which the worker of `asyncApply` runs once; an exception ends its task. -/
def apply (lastApplied proposal : PBFTProposal) (block : DecodedBlock)
    (executeBlock : Option (Int × HashType) → ExecuteOutcome) : List Report :=
  if proposal.index ≤ lastApplied.index then [{ ret := false }]
  else
    match block with
    | .thrown => []
    | .noHeader => [{ ret := false }]
    | .header number => onBlockExecuted proposal number (executeBlock (parentInfo lastApplied proposal))

end StateMachine

/-- The callback that `applyStateMachine` passes to `asyncApply`. -/
def Node.onExecuteFinished (s : Node) (e : Execution) (r : Report) : Node :=
  if s.cfg.committedIndex ≥ e.proposal.index then s
  else
    let result : Applied :=
      { success := r.ret, lastApplied := e.lastApplied, proposal := e.proposal, executedProposal := r.executedProposal }
    { s with applied := s.applied ++ [result] }

end BcosPbft
