import FullNode.BranchAndBound

/-! # Coin grinder -/

namespace FullNode.CoinSelection

open Mempool (int64 int32Sum)

def INT_MAX : Int := 2 ^ 31 - 1

/-- What follows each place: the amount, and the least weight. -/
structure Tails where
  lookahead : List Int := []
  minTailWeight : List Int := []
  totalAvailable : Int := 0
  minGroupWeight : Int := INT_MAX

def tailsOf : List OutputGroup → Checked Tails
  | [] => .ok {}
  | utxo :: pool => do
    let tails ← tailsOf pool
    check (utxo.getSelectionAmount > 0)
    let totalAvailable ← int64 (tails.totalAvailable + utxo.getSelectionAmount)
    return {
      lookahead := tails.totalAvailable :: tails.lookahead
      minTailWeight := tails.minGroupWeight :: tails.minTailWeight
      totalAvailable := totalAvailable
      minGroupWeight := min tails.minGroupWeight utxo.weight }

structure GrinderState where
  currTry : ℕ := 0
  nextUtxo : ℕ := 0
  currSelection : List ℕ := []
  currAmount : Int := 0
  currWeight : Int := 0
  bestSelection : List ℕ := []
  bestSelectionAmount : Int := MAX_MONEY
  bestSelectionWeight : Int
  maxTxWeightExceeded : Bool := false
  algoCompleted : Bool := true
  deriving DecidableEq

inductive Course where
  | explore
  | shift
  | cut
  deriving DecidableEq

section

variable (pool : List OutputGroup) (tails : Tails) (totalTarget maxSelectionWeight : Int)

def selectNext (s : GrinderState) : Checked GrinderState := do
  let utxo ← elementAt pool s.nextUtxo
  let currAmount ← int64 (s.currAmount + utxo.getSelectionAmount)
  let currWeight ← int32Sum (s.currWeight + utxo.weight)
  return { s with
    currTry := s.currTry + 1
    nextUtxo := s.nextUtxo + 1
    currSelection := s.nextUtxo :: s.currSelection
    currAmount := currAmount
    currWeight := currWeight }

def deselectLast (s : GrinderState) : Checked GrinderState :=
  match s.currSelection with
  | [] => .error .badIterator
  | last :: rest => do
    let utxo ← elementAt pool last
    let currAmount ← int64 (s.currAmount - utxo.getSelectionAmount)
    let currWeight ← int32Sum (s.currWeight - utxo.weight)
    return { s with currSelection := rest, currAmount := currAmount, currWeight := currWeight }

def cutOrShift (utxo : OutputGroup) (minTail : Int) : Course := if utxo.weight ≤ minTail then .cut else .shift

/-- The least weight of groups no larger than the last. -/
def leastWeight (utxo : OutputGroup) (minTail : Int) (s : GrinderState) : Checked Int := do
  let missing ← int64 (totalTarget - s.currAmount)
  let missing ← int64 (missing + utxo.getSelectionAmount)
  let missing ← int64 (missing - 1)
  if utxo.getSelectionAmount = 0 then .error .divisionByZero
  else do
    let tailWeight ← int64 (minTail * missing.tdiv utxo.getSelectionAmount)
    int64 (s.currWeight + tailWeight)

def evaluateSelection (s : GrinderState) : Checked (Course × GrinderState) :=
  match s.currSelection with
  | [] => .error .badIterator
  | tail :: _ => do
    let utxo ← elementAt pool tail
    let ahead ← elementAt tails.lookahead tail
    let minTail ← elementAt tails.minTailWeight tail
    let reachable ← int64 (s.currAmount + ahead)
    if reachable < totalTarget then return (.cut, s)
    else if s.currWeight > s.bestSelectionWeight then
      return (cutOrShift utxo minTail,
        { s with maxTxWeightExceeded := s.maxTxWeightExceeded || s.currWeight > maxSelectionWeight })
    else if s.currAmount ≥ totalTarget then
      if s.currWeight < s.bestSelectionWeight ∨
        s.currWeight = s.bestSelectionWeight ∧ s.currAmount < s.bestSelectionAmount then
        return (.shift, { s with
          bestSelection := s.currSelection, bestSelectionWeight := s.currWeight, bestSelectionAmount := s.currAmount })
      else return (.shift, s)
    else if s.bestSelection.isEmpty then return (.explore, s)
    else do
      let least ← leastWeight totalTarget utxo minTail s
      return (if least > s.bestSelectionWeight then cutOrShift utxo minTail else .explore, s)

/-- Over groups with the amount before, and whether the pool ended. -/
def skipClones : ℕ → ℕ → Checked (ℕ × Bool)
  | 0, _ => .error .endless
  | fuel + 1, next => do
    let previous ← elementAt pool (next - 1)
    let utxo ← elementAt pool next
    if previous.getSelectionAmount = utxo.getSelectionAmount then
      if next ≥ pool.length - 1 then return (next, true)
      else skipClones fuel (next + 1)
    else return (next, false)

/-- Leave out the last group, and those before with only clones after. -/
def shiftLast : List ℕ → GrinderState → Checked (Bool × GrinderState)
  | [], s => .ok (true, s)
  | last :: rest, s => do
    let s ← deselectLast pool s
    let skipped ← skipClones pool pool.length (last + 1)
    if skipped.2 then shiftLast rest { s with nextUtxo := skipped.1 }
    else return (false, { s with nextUtxo := skipped.1 })

def shift (s : GrinderState) : Checked (Next GrinderState) := do
  let shifted ← shiftLast pool s.currSelection s
  return if shifted.1 then .done { shifted.2 with algoCompleted := true } else .again shifted.2

def grinderStep (s : GrinderState) : Checked (Next GrinderState) := do
  let s ← selectNext pool s
  let evaluated ← evaluateSelection pool tails totalTarget maxSelectionWeight s
  let s := evaluated.2
  if s.currTry ≥ TOTAL_TRIES then return .done { s with algoCompleted := false }
  else
    match if s.nextUtxo = pool.length then .cut else evaluated.1 with
    | .explore => return .again s
    | .shift => shift pool s
    | .cut => do shift pool (← deselectLast pool s)

end

/-- The search of the sorted pool, if the funds suffice. -/
def grinderSearch (pool : List OutputGroup) (selectionTarget changeTarget maxSelectionWeight : Int) :
    Checked (Option GrinderState) := do
  let tails ← tailsOf pool
  let totalTarget ← int64 (selectionTarget + changeTarget)
  if tails.totalAvailable < totalTarget then return none
  else do
    let s ← loop (grinderStep pool tails totalTarget maxSelectionWeight)
        (TOTAL_TRIES + 1) { bestSelectionWeight := maxSelectionWeight }
    return some s

def grinderResult (pool : List OutputGroup) (selectionTarget : Int)
    (s : GrinderState) : Checked (Result SelectionResult) := do
  if s.bestSelection.isEmpty then return .error (if s.maxTxWeightExceeded then errorMaxWeightExceeded else "")
  else do
    let result := {
      target := selectionTarget, algo := .cg, algoCompleted := s.algoCompleted, selectionsEvaluated := some s.currTry }
    let result ← SelectionResult.addInputs pool s.bestSelection.reverse result
    return .ok result

def coinGrinder (sorter : Sorter OutputGroup) (utxoPool : List OutputGroup)
    (selectionTarget changeTarget maxSelectionWeight : Int) : Checked (Result SelectionResult) := do
  let pool := sorter.sort descendingEffvalWeight utxoPool
  match ← grinderSearch pool selectionTarget changeTarget maxSelectionWeight with
  | none => return .error ""
  | some s => grinderResult pool selectionTarget s

end FullNode.CoinSelection
