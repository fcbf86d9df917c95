import FullNode.Chain

/-! # Consensus parameters -/

namespace FullNode

structure Params where
  hashGenesisBlock : Uint256
  nSubsidyHalvingInterval : Int
  scriptFlagExceptions : List (Uint256 × Uint32)
  BIP34Height : Int
  BIP34Hash : Uint256
  BIP65Height : Int
  BIP66Height : Int
  CSVHeight : Int
  SegwitHeight : Int
  powLimit : Uint256
  fPowAllowMinDifficultyBlocks : Bool
  enforceBIP94 : Bool
  fPowNoRetargeting : Bool
  nPowTargetSpacing : Int
  nPowTargetTimespan : Int
  signetBlocks : Bool
  deriving DecidableEq

/-- `CMainParams`. The genesis hash is computed when the node starts. -/
def mainParams (hashGenesisBlock : Uint256) : Params where
  hashGenesisBlock := hashGenesisBlock
  nSubsidyHalvingInterval := 87600
  scriptFlagExceptions := []
  BIP34Height := 0
  BIP34Hash := 0
  BIP65Height := 0
  BIP66Height := 0
  CSVHeight := 0
  SegwitHeight := 0
  powLimit := 0x00007fffff000000000000000000000000000000000000000000000000000000#256
  fPowAllowMinDifficultyBlocks := false
  enforceBIP94 := false
  fPowNoRetargeting := false
  nPowTargetSpacing := 30
  nPowTargetTimespan := 120 * 30
  signetBlocks := false

def mainGenesisBits : Uint32 := 0x1e7fffff#32

/-- `CTestNetParams`. -/
def testNetParams (hashGenesisBlock : Uint256) : Params where
  hashGenesisBlock := hashGenesisBlock
  nSubsidyHalvingInterval := 210000
  scriptFlagExceptions := [(0x00000000dd30457c001f4095d208cc1296b0eed002427aa599874af7a432b105#256, 0)]
  BIP34Height := 21111
  BIP34Hash := 0x0000000023b3a96d3484e5abb3755c413e7d41500f8e2a5c3f0dd01299cd8ef8#256
  BIP65Height := 581885
  BIP66Height := 330776
  CSVHeight := 770112
  SegwitHeight := 834624
  powLimit := 0x00000000ffffffffffffffffffffffffffffffffffffffffffffffffffffffff#256
  fPowAllowMinDifficultyBlocks := true
  enforceBIP94 := false
  fPowNoRetargeting := false
  nPowTargetSpacing := 10 * 60
  nPowTargetTimespan := 14 * 24 * 60 * 60
  signetBlocks := false

/-- `SigNetParams`, for the block time in its options. -/
def sigNetParams (hashGenesisBlock : Uint256) (powTargetSpacing : Int) : Params where
  hashGenesisBlock := hashGenesisBlock
  nSubsidyHalvingInterval := 210000
  scriptFlagExceptions := []
  BIP34Height := 1
  BIP34Hash := 0
  BIP65Height := 1
  BIP66Height := 1
  CSVHeight := 1
  SegwitHeight := 1
  powLimit := 0x00000377ae000000000000000000000000000000000000000000000000000000#256
  fPowAllowMinDifficultyBlocks := false
  enforceBIP94 := false
  fPowNoRetargeting := false
  nPowTargetSpacing := powTargetSpacing
  nPowTargetTimespan := 14 * 24 * 60 * 60
  signetBlocks := true

def sigNetGenesisBits : Uint32 := 0x1e0377ae#32

/-- The `-signetblocktime` branch. Else the options keep defaults. -/
def readSigNetBlockTime (signetblocktime : Option Int) (signetchallengeSet : Bool) : Checked Int :=
  match signetblocktime with
  | none => .ok (10 * 60)
  | some time =>
    if !signetchallengeSet then
      .error (.runtimeError "-signetblocktime cannot be set without -signetchallenge")
    else if time ≤ 0 then .error (.runtimeError "-signetblocktime must be greater than 0")
    else .ok time

theorem readSigNetBlockTime_pos {time : Option Int} {set : Bool} {spacing : Int}
    (h : readSigNetBlockTime time set = .ok spacing) : 0 < spacing := by
  unfold readSigNetBlockTime at h
  split at h
  · cases h; omega
  · split_ifs at h
    cases h; omega

/-- `a % b` of the source, which truncates and stops on zero. -/
def cmod (a b : Int) : Checked Int := if b = 0 then .error .divisionByZero else .ok (a.tmod b)

/-- `a / b` of the source. -/
def cdiv (a b : Int) : Checked Int := if b = 0 then .error .divisionByZero else .ok (a.tdiv b)

def Params.difficultyAdjustmentInterval (params : Params) : Checked Int :=
  cdiv params.nPowTargetTimespan params.nPowTargetSpacing

end FullNode
