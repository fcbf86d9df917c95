import FullNode.MempoolAccept
import FullNode.MempoolUpdate

/-!
# Submission to the pool

`AcceptSingleTransaction` and `AcceptMultipleTransactions`. The checks that only refuse and change nothing, those of
scripts, of ephemeral dust, of the form of a package and of the feerates of package replacement, answer with a flag.
-/

namespace FullNode.Mempool

open OrderedIndex
open TxRequest (memoryBytes)

structure Submission where
  tx : CTransaction
  facts : TxFacts

def ATMPArgs.singleInPackageAccept (args : ATMPArgs) : ATMPArgs where
  acceptTime := args.acceptTime
  ignoreRejects := []
  allowReplacement := true
  allowSiblingEviction := true
  packageFeerates := false
  allowCarveouts := false

def acceptSingleTransaction (opts : Options) (args : ATMPArgs) (s : Submission) (passes : Bool)
    (pool : CTxMemPool) : Except Refusal CTxMemPool := do
  let ws ← preChecks pool opts args s.facts s.tx
  let stage ← stageReplacement pool opts args ws
  rejectIf (!passes) .notStandard "script checks"
  liftFault (pool.apply stage ws.ancestors [ws.entry])

def mergedConflicts (workspaces : List Workspace) : List Uint256 :=
  workspaces.foldl (fun set ws => ws.itersConflicting.foldl (fun set it => insertNew memoryBytes it set) set) []

def packageMempoolChecks (pool : CTxMemPool) (opts : Options) (args : ATMPArgs) (workspaces : List Workspace) :
    Except Refusal (List Uint256) :=
  if workspaces.all fun ws => ws.conflictsInclPolicy.keys.isEmpty then .ok []
  else do
    rejectIf (workspaces.length ≠ 2) .mempoolPolicy "package RBF failed: package must be 1-parent-1-child"
    rejectIf (workspaces.any fun ws => !ws.ancestors.isEmpty) .mempoolPolicy
      "package RBF failed: new transaction cannot have mempool ancestors"
    let within ← liftFault (countWithin pool { args with ignoreRejects := [] } (mergedConflicts workspaces) 0)
    rejectIf (!within) .mempoolPolicy "package RBF failed: too many potential replacements"
    let allConflicts ← liftFault (pool.calculateAllDescendants (mergedConflicts workspaces) [])
    let fees ← liftFault (conflictingFees pool allConflicts 0)
    let pays ← liftFault (paysForRBF opts fees (workspaces.map Workspace.modifiedFees).sum
        (workspaces.map Workspace.vsize).sum)
    rejectIf (!pays) .mempoolPolicy "package RBF failed: insufficient anti-DoS fees"
    return allConflicts

/-- Members are checked with the cached ancestors of the first. -/
def acceptMultipleTransactions (opts : Options) (args : ATMPArgs) (package : List Submission) (passes : Bool)
    (pool : CTxMemPool) : Except Refusal CTxMemPool := do
  let workspaces ← package.mapM fun s => preChecks pool opts args s.facts s.tx
  let stage ← packageMempoolChecks pool opts args workspaces
  rejectIf (!passes) .notStandard "script checks"
  liftFault (pool.apply stage (workspaces.head?.elim [] Workspace.ancestors) (workspaces.map Workspace.entry))

def acceptSubPackage (opts : Options) (args : ATMPArgs) (package : List Submission) (passes : Bool)
    (pool : CTxMemPool) : Except Refusal CTxMemPool :=
  match package with
  | [s] => acceptSingleTransaction opts args.singleInPackageAccept s passes pool
  | _ => acceptMultipleTransactions opts args package passes pool

end FullNode.Mempool
