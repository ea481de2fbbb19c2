import Cruzbit.Accounts
import Cruzbit.Admission
import Cruzbit.Ancestry
import Cruzbit.BalanceAt
import Cruzbit.Balances
import Cruzbit.Basic
import Cruzbit.BestChain
import Cruzbit.Block
import Cruzbit.BlockCheck
import Cruzbit.BlockFiles
import Cruzbit.BlockMessage
import Cruzbit.BlockQueue
import Cruzbit.BlockTree
import Cruzbit.Buffer
import Cruzbit.ByteOrder
import Cruzbit.Chain
import Cruzbit.Checkpoints
import Cruzbit.Commitment
import Cruzbit.CommonAncestor
import Cruzbit.Convergence
import Cruzbit.Cuckoo
import Cruzbit.Deadlock
import Cruzbit.DeepFork
import Cruzbit.DeviceMining
import Cruzbit.Difficulty
import Cruzbit.Download
import Cruzbit.Encoding
import Cruzbit.Feed
import Cruzbit.FilterView
import Cruzbit.Fork
import Cruzbit.HeaderHasher
import Cruzbit.History
import Cruzbit.InboundPeers
import Cruzbit.KeyIndex
import Cruzbit.KeyValue
import Cruzbit.Ledger
import Cruzbit.LedgerBytes
import Cruzbit.LedgerChain
import Cruzbit.LedgerDisk
import Cruzbit.LedgerLoops
import Cruzbit.LedgerRefinement
import Cruzbit.LedgerSteps
import Cruzbit.Lineage
import Cruzbit.Median
import Cruzbit.MedianTime
import Cruzbit.Miner
import Cruzbit.Mining
import Cruzbit.Money
import Cruzbit.Moves
import Cruzbit.Notifications
import Cruzbit.Paging
import Cruzbit.PeerLoop
import Cruzbit.PeerStorage
import Cruzbit.PeerWork
import Cruzbit.Processor
import Cruzbit.PrunedRuns
import Cruzbit.Pruning
import Cruzbit.Queries
import Cruzbit.Queue
import Cruzbit.QueueInvariant
import Cruzbit.QueueRefusal
import Cruzbit.QueueSpec
import Cruzbit.RangeQuery
import Cruzbit.Reorg
import Cruzbit.Restart
import Cruzbit.Retarget
import Cruzbit.Run
import Cruzbit.Session
import Cruzbit.SessionFlow
import Cruzbit.SessionNodes
import Cruzbit.Settled
import Cruzbit.Signatures
import Cruzbit.Synced
import Cruzbit.Table
import Cruzbit.TimeLocks
import Cruzbit.Transaction
import Cruzbit.Transition
import Cruzbit.Wallet
import Cruzbit.WalletKeys
import Cruzbit.WalletRequests
import Cruzbit.Word
import Cruzbit.WorkBlock
