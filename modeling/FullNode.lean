import FullNode.Signet
import FullNode.Disconnect
import FullNode.HonestSync
import FullNode.VersionBitsStates
import FullNode.ScriptFlags
import FullNode.MinerTemplate
import FullNode.MerkleStream
import FullNode.MerkleProofs
import FullNode.SubsidySchedule
import FullNode.AsmapSanity
import FullNode.WitnessMalleation
import FullNode.MuHash
import FullNode.DigiShield
import FullNode.CoinsSpend
import FullNode.SkipList
import FullNode.MempoolStats
import FullNode.PoolReports
import FullNode.MultiSig
import FullNode.SigHashCache
import FullNode.DataBytes
import FullNode.Reconsider
import FullNode.BestChain
import FullNode.DerSignature
import FullNode.ScriptPushes
import FullNode.LockPoints
import FullNode.RollingBloom
import FullNode.Eviction
import FullNode.BumpFeeDiscount
import FullNode.TxDownloadRuns
import FullNode.AddrManSave
import FullNode.PrioritiseRuns
import FullNode.AutomaticSelection
import FullNode.SpkReuse
import FullNode.MempoolIndexRuns
import FullNode.Knapsack
import FullNode.CompactBlockCounts
import FullNode.CompactBlockFill
import FullNode.FixedPoint
import FullNode.BlockFilter
import FullNode.DisconnectedTransactions
import FullNode.DiagramCheck
import FullNode.LinearizationMerge
import FullNode.Conditions
import FullNode.VarInt
import FullNode.FeeRates
