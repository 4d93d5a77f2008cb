import BcosPbft.Spec.LedgerStorage

/-! `PBFTImpl::init` under way. The verifier answers on threads of its own, so the callbacks of the loaded proposals run
between any two statements of `init`; `initNode` is the order in which they all run after it. In `halfStep` a failed callback
may be held up between reading the marks and setting one, in `step` it runs through. -/

namespace BcosPbft

structure Restart where
  node : Node
  /-- The proposals that `initState` has still to go through. -/
  todo : List PBFTProposal
  /-- The last loaded proposal, until `init` has set the low water mark above it. -/
  last : Option PBFTProposal

inductive RestartEvent
  | next
  | setLowWaterMark
  | callback (i : Nat) (outcome : VerifyOutcome)
  | lowMark (i : Nat)
deriving DecidableEq

/-- One turn of the loop of `initState`. -/
def Node.initProposal (E : Env) (s : Node) (p : PBFTProposal) : Node :=
  if p.index ≤ s.cfg.committedIndex then s else (s.asyncResetTxsFlag E p.data true).loadAndVerifyProposal p 0

/-- The end of a failed callback, which sets the mark that it has read at position `i`. -/
def Node.writeLowMark (s : Node) (i : Nat) (mark : Int) : Node :=
  { s with lowMarks := s.lowMarks.eraseIdx i }.setCfg (s.cfg.setLowWaterMark mark)

namespace Restart

/-- `init` after `loadState`, with the proposals that it returned. -/
def start (E : Env) (keyPair : KeyPair) (l : LedgerConfig) (state : List PBFTProposal) : Option Restart :=
  (({ cfg := { keyPair := keyPair, timeoutState := true } } : Node).resetConfig E l).map fun s =>
    { node := s, todo := state, last := state.getLast? }

def halfStep (E : Env) (r : Restart) : RestartEvent → Option Restart
  | .next =>
    match r.todo with
    | [] => none
    | p :: rest => some { r with node := r.node.initProposal E p, todo := rest }
  | .setLowWaterMark =>
    match r.todo, r.last with
    | [], some p => some { r with node := r.node.setCfg (r.node.cfg.setLowWaterMark (p.index + 1)), last := none }
    | _, _ => none
  | .callback i outcome =>
    (r.node.loading[i]?).map fun c =>
      { r with node := { r.node with loading := r.node.loading.eraseIdx i }.onProposalLoaded c.1 c.2 outcome }
  | .lowMark i => (r.node.lowMarks[i]?).map fun mark => { r with node := r.node.writeLowMark i mark }

def step (E : Env) (r : Restart) : RestartEvent → Option Restart
  | .callback i outcome => (r.halfStep E (.callback i outcome)).map fun r' =>
      { r' with node := (r'.node.lowMarks[0]?).elim r'.node (r'.node.writeLowMark 0) }
  | .lowMark _ => none
  | e => r.halfStep E e

/-- `init` has returned. -/
def Initialized (r : Restart) : Prop := r.todo = [] ∧ r.last = none

/-- All callbacks have finished, too. -/
def Finished (r : Restart) : Prop := r.Initialized ∧ r.node.loading = []

/-- The callback of a proposal whose verification failed or gave another error than a timeout. -/
def fails (r : Restart) : RestartEvent → Option PBFTProposal
  | .callback i .error | .callback i (.result false) => (r.node.loading[i]?).map Prod.fst
  | _ => none

end Restart

end BcosPbft
