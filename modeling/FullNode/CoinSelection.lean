import FullNode.MiniMiner

/-!
# Coins to select from

A coin of the wallet, and groups of coins that are spent together. Amounts, weights and counts do not overflow here.
-/

namespace FullNode.CoinSelection

open MiniMiner (getFee)

def CHANGE_LOWER : Int := 50000
def OUTPUT_GROUP_MAX_ENTRIES : Nat := 100

structure COutput where
  outpoint : COutPoint
  txout : CTxOut
  depth : Int
  inputBytes : Int
  fromMe : Bool
  fee : Option Int := none
  longTermFee : Int := 0
  ancestorBumpFees : Int := 0
  deriving DecidableEq

namespace COutput

def new (outpoint : COutPoint) (txout : CTxOut) (depth inputBytes : Int) (fromMe : Bool) (feerate : Option Int) :
    COutput where
  outpoint := outpoint
  txout := txout
  depth := depth
  inputBytes := inputBytes
  fromMe := fromMe
  fee := feerate.map fun rate => if inputBytes < 0 then 0 else getFee rate inputBytes

def effectiveValue (coin : COutput) : Option Int := coin.fee.map fun fee => coin.txout.nValue - fee

def asserted {α : Type} : Option α → Checked α
  | some a => .ok a
  | none => .error .assertion

def getFee (coin : COutput) : Checked Int := asserted coin.fee

def getEffectiveValue (coin : COutput) : Checked Int := asserted coin.effectiveValue

def applyBumpFee (bumpFee : Int) (coin : COutput) : Checked COutput := do
  check (bumpFee ≥ 0)
  let fee ← coin.getFee
  return { coin with ancestorBumpFees := bumpFee, fee := some (fee + bumpFee) }

end COutput

/-- What the selection needs of `CoinSelectionParams`. -/
structure CoinSelectionParams where
  /-- `m_long_term_feerate`, per 1000 virtual bytes. -/
  longTermFeerate : Int
  subtractFeeOutputs : Bool
  avoidPartialSpends : Bool
  includeUnsafeInputs : Bool

structure CoinEligibilityFilter where
  confMine : Int
  confTheirs : Int
  maxAncestors : Nat
  maxDescendants : Nat
  includePartialGroups : Bool := false
  deriving DecidableEq

structure OutputGroup where
  outputs : List COutput := []
  fromMe : Bool := true
  value : Int := 0
  depth : Int := 999
  ancestors : Nat := 0
  descendants : Nat := 0
  effectiveValue : Int := 0
  fee : Int := 0
  longTermFee : Int := 0
  longTermFeerate : Int := 0
  subtractFeeOutputs : Bool := false
  weight : Int := 0
  deriving DecidableEq

namespace OutputGroup

def new (params : CoinSelectionParams) : OutputGroup where
  longTermFeerate := params.longTermFeerate
  subtractFeeOutputs := params.subtractFeeOutputs

/-- Ancestors add up, and the most descendants of one coin count. -/
def insert (output : COutput) (ancestors descendants : Nat) (group : OutputGroup) : Checked OutputGroup := do
  let fee ← output.getFee
  let coin := { output with
      longTermFee := if output.inputBytes < 0 then 0 else getFee group.longTermFeerate output.inputBytes }
  let effectiveValue ← coin.getEffectiveValue
  return { group with
    outputs := group.outputs ++ [coin]
    fee := group.fee + fee
    longTermFee := group.longTermFee + coin.longTermFee
    effectiveValue := group.effectiveValue + effectiveValue
    fromMe := group.fromMe && coin.fromMe
    value := group.value + coin.txout.nValue
    depth := min group.depth coin.depth
    ancestors := group.ancestors + ancestors
    descendants := max group.descendants descendants
    weight := if output.inputBytes > 0 then group.weight + output.inputBytes * WITNESS_SCALE_FACTOR else group.weight }

def eligibleForSpending (group : OutputGroup) (filter : CoinEligibilityFilter) : Bool :=
  group.depth ≥ (if group.fromMe then filter.confMine else filter.confTheirs) && group.ancestors ≤
    filter.maxAncestors && group.descendants ≤ filter.maxDescendants

def getSelectionAmount (group : OutputGroup) : Int :=
  if group.subtractFeeOutputs then group.value else group.effectiveValue

end OutputGroup

/-! ## Coins by type -/

inductive OutputType where
  | legacy
  | p2shSegwit
  | bech32
  | bech32m
  | unknown
  deriving DecidableEq

def OutputType.all : List OutputType := [.legacy, .p2shSegwit, .bech32, .bech32m, .unknown]

def totalValue (coins : List COutput) : Int := (coins.map fun coin => coin.txout.nValue).sum

/-- The coins of each type, and the sum that `Add` and `Erase` keep. -/
structure CoinsResult where
  coins : OutputType → List COutput
  totalAmount : Int
  total_eq : totalAmount = totalValue (OutputType.all.flatMap coins)

namespace CoinsResult

def all (result : CoinsResult) : List COutput := OutputType.all.flatMap result.coins

def size (result : CoinsResult) : Nat := result.all.length

/-- `std::shuffle` of the coins of each type. -/
structure Shuffler where
  shuffled : OutputType → List COutput → List COutput
  perm : ∀ type coins, (shuffled type coins).Perm coins

theorem totalValue_perm {coins coins' : List COutput} (h : coins.Perm coins') : totalValue coins = totalValue coins' :=
  (h.map _).sum_eq

def shuffle (rng : Shuffler) (result : CoinsResult) : CoinsResult where
  coins type := rng.shuffled type (result.coins type)
  totalAmount := result.totalAmount
  total_eq := by
    rw [result.total_eq]
    refine (totalValue_perm (List.Perm.flatMap (.refl _) ?_)).symm
    intro type _
    exact rng.perm type _

end CoinsResult
end FullNode.CoinSelection
