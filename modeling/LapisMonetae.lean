import LapisMonetae.Coinbase.PayloadTheorems
import LapisMonetae.Coinbase.SubsidyTheorems
import LapisMonetae.Coinbase.TransactionTheorems
import LapisMonetae.Depth.PointTheorems
import LapisMonetae.Ghostdag.AgreementTheorems
import LapisMonetae.Ghostdag.GreedyTheorems
import LapisMonetae.Index.IndexTheorems
import LapisMonetae.Math.CompactTarget
import LapisMonetae.Mempool.NewBlockTheorems
import LapisMonetae.Mempool.RemovalTheorems
import LapisMonetae.MuHash.Transactions
import LapisMonetae.Pipeline.DepsManagerTheorems
import LapisMonetae.Pruning.GrowthTheorems
import LapisMonetae.Pruning.TransitionTheorems
import LapisMonetae.Pskt.FinalizeTheorems
import LapisMonetae.Reachability.StagingTheorems
import LapisMonetae.Script.MultisigTheorems
import LapisMonetae.Script.ScriptBuilder
import LapisMonetae.Sync.AntipastTheorems
import LapisMonetae.Tx.StorageMassTheorems
import LapisMonetae.Utxo.UnrelatedDiffTheorems
import LapisMonetae.Virtual.ParentsTheorems
import LapisMonetae.Wallet.FeeTheorems
import LapisMonetae.Window.MergesetOrderTheorems
import LapisMonetae.Window.SampledWindowTheorems
