import FullNode.Chain
import FullNode.Lib.AssocMap

/-!
# Version bits

BIP9 deployments: the state of a deployment for the block after `pindexPrev`, computed from a
cache that all branches share. `periodState` is the state as BIP9 defines it, period by period.
-/

namespace FullNode.VersionBits

open CBlockIndex

inductive ThresholdState where
  | defined
  | started
  | lockedIn
  | active
  | failed
  deriving DecidableEq

abbrev ThresholdConditionCache := AssocMap CBlockIndex ThresholdState

/-- `AbstractThresholdConditionChecker`: what a deployment supplies. -/
structure Checker where
  condition : CBlockIndex → Bool
  beginTime : Int
  endTime : Int
  minActivationHeight : Int
  period : Nat
  threshold : Int
  period_pos : 0 < period

def ALWAYS_ACTIVE : Int := -1
def NEVER_ACTIVE : Int := -2

namespace Checker

/-! ## The code -/

/-- The start of the period of the next block. -/
def alignedParent (checker : Checker) (pindexPrev : CBlockIndex) : Checked CBlockIndex :=
  if pindexPrev.isNull then .ok null
  else pindexPrev.getAncestor ((pindexPrev.nHeight : Int) - ((pindexPrev.nHeight + 1) % checker.period : Nat))

/-- Where the walk stops, and the blocks passed on it. -/
def walkBack (checker : Checker) : Nat → CBlockIndex → List CBlockIndex → ThresholdConditionCache →
    Checked (CBlockIndex × List CBlockIndex × ThresholdConditionCache)
  | 0, _, _, _ => .error .endless
  | rounds + 1, pindexPrev, vToCompute, cache =>
    if (cache.lookup pindexPrev).isSome then .ok (pindexPrev, vToCompute, cache)
    else if pindexPrev.isNull then .ok (pindexPrev, vToCompute, cache.insert pindexPrev .defined)
    else if pindexPrev.getMedianTimePast < checker.beginTime then
      .ok (pindexPrev, vToCompute, cache.insert pindexPrev .defined)
    else do
      let ancestor ← pindexPrev.getAncestor ((pindexPrev.nHeight : Int) - checker.period)
      walkBack checker rounds ancestor (pindexPrev :: vToCompute) cache

def countSignals (checker : Checker) : Nat → CBlockIndex → Checked Nat
  | 0, _ => .ok 0
  | _ + 1, .null => .error .badIterator
  | n + 1, .mk e pprev pskip => do
    let count ← countSignals checker n pprev
    return count + (checker.condition (.mk e pprev pskip)).toNat

def stateNext (checker : Checker) (state : ThresholdState) (pindexPrev : CBlockIndex) : Checked ThresholdState :=
  match state with
  | .defined => .ok (if pindexPrev.getMedianTimePast ≥ checker.beginTime then .started else .defined)
  | .started => do
    let count ← checker.countSignals checker.period pindexPrev
    return if count ≥ checker.threshold then .lockedIn
      else if pindexPrev.getMedianTimePast ≥ checker.endTime then .failed else .started
  | .lockedIn => .ok (if (pindexPrev.nHeight : Int) + 1 ≥ checker.minActivationHeight then .active else .lockedIn)
  | .failed => .ok .failed
  | .active => .ok .active

def walkForward (checker : Checker) : List CBlockIndex → ThresholdState → ThresholdConditionCache →
    Checked (ThresholdState × ThresholdConditionCache)
  | [], state, cache => .ok (state, cache)
  | pindexPrev :: vToCompute, state, cache => do
    let state ← checker.stateNext state pindexPrev
    walkForward checker vToCompute state (cache.insert pindexPrev state)

def getStateFor (checker : Checker) (pindexPrev : CBlockIndex) (cache : ThresholdConditionCache) :
    Checked (ThresholdState × ThresholdConditionCache) := do
  if checker.beginTime = ALWAYS_ACTIVE then return (.active, cache)
  if checker.beginTime = NEVER_ACTIVE then return (.failed, cache)
  let pindexPrev ← checker.alignedParent pindexPrev
  let (pindexPrev, vToCompute, cache) ← checker.walkBack (pindexPrev.nHeight + 2) pindexPrev [] cache
  match cache.lookup pindexPrev with
  | none => .error .assertion
  | some state => checker.walkForward vToCompute state cache

def sinceLoop (checker : Checker) (initialState : ThresholdState) : Nat → CBlockIndex → ThresholdConditionCache →
    Checked (Nat × ThresholdConditionCache)
  | 0, _, _ => .error .endless
  | rounds + 1, pindexPrev, cache => do
    let previousPeriodParent ← pindexPrev.getAncestor ((pindexPrev.nHeight : Int) - checker.period)
    if previousPeriodParent.isNull then return (pindexPrev.nHeight + 1, cache)
    let (state, cache) ← checker.getStateFor previousPeriodParent cache
    if state = initialState then sinceLoop checker initialState rounds previousPeriodParent cache
    else return (pindexPrev.nHeight + 1, cache)

def getStateSinceHeightFor (checker : Checker) (pindexPrev : CBlockIndex) (cache : ThresholdConditionCache) :
    Checked (Nat × ThresholdConditionCache) := do
  if checker.beginTime = ALWAYS_ACTIVE ∨ checker.beginTime = NEVER_ACTIVE then return (0, cache)
  let (initialState, cache) ← checker.getStateFor pindexPrev cache
  if initialState = .defined then return (0, cache)
  let pindexPrev ← checker.alignedParent pindexPrev
  check !pindexPrev.isNull
  checker.sinceLoop initialState (pindexPrev.nHeight + 2) pindexPrev cache

inductive Query where
  | state (pindexPrev : CBlockIndex)
  | since (pindexPrev : CBlockIndex)

def Query.pindexPrev : Query → CBlockIndex
  | .state pindexPrev => pindexPrev
  | .since pindexPrev => pindexPrev

def runQueries (checker : Checker) : List Query → ThresholdConditionCache → Checked ThresholdConditionCache
  | [], cache => .ok cache
  | .state pindexPrev :: queries, cache => do
    let (_, cache) ← checker.getStateFor pindexPrev cache
    runQueries checker queries cache
  | .since pindexPrev :: queries, cache => do
    let (_, cache) ← checker.getStateSinceHeightFor pindexPrev cache
    runQueries checker queries cache

end Checker

end FullNode.VersionBits
