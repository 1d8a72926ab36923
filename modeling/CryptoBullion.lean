import CryptoBullion.Common.Store
import CryptoBullion.Common.Codec
import CryptoBullion.Common.Framer
import CryptoBullion.Common.Ledger
import CryptoBullion.Common.Lineage
import CryptoBullion.Common.MerkleTree
import CryptoBullion.Common.Thread
import CryptoBullion.Common.Step
import CryptoBullion.Common.Triple
import CryptoBullion.Common.Matching
import CryptoBullion.Common.Index
import CryptoBullion.Model.Primitives
import CryptoBullion.Model.Answers
import CryptoBullion.Model.Platform
import CryptoBullion.Model.State
import CryptoBullion.Model.Work
import CryptoBullion.Model.Transaction
import CryptoBullion.Model.Inputs
import CryptoBullion.Model.Pool
import CryptoBullion.Model.Wallet
import CryptoBullion.Model.Accounting
import CryptoBullion.Model.KeyPool
import CryptoBullion.Model.CryptoKeyStore
import CryptoBullion.Model.CheckBlock
import CryptoBullion.Model.Connect
import CryptoBullion.Model.BestChain
import CryptoBullion.Model.Kernel
import CryptoBullion.Model.BlockIndex
import CryptoBullion.Model.Run
import CryptoBullion.Model.Target
import CryptoBullion.Model.Miner
import CryptoBullion.Model.Staker
import CryptoBullion.Model.ProcessBlock
import CryptoBullion.Model.Database
import CryptoBullion.Model.Accept
import CryptoBullion.Model.Serialize
import CryptoBullion.Model.Stream
import CryptoBullion.Model.BlockFile
import CryptoBullion.Model.Relay
import CryptoBullion.Model.Messages
import CryptoBullion.Model.Version
import CryptoBullion.Model.SendBuffer
import CryptoBullion.Model.Script
import CryptoBullion.Model.Interpreter
import CryptoBullion.Model.SignatureHash
import CryptoBullion.Model.Solver
import CryptoBullion.Model.Combine
import CryptoBullion.Model.Checkpoints
import CryptoBullion.Model.AcceptBlock
import CryptoBullion.Model.OrphanBlocks
import CryptoBullion.Chain.Tentative
import CryptoBullion.Chain.Rollback
import CryptoBullion.Chain.Advance
import CryptoBullion.Chain.Sound
import CryptoBullion.Chain.TxIndex
import CryptoBullion.Chain.Agreement
import CryptoBullion.Chain.Mirror
import CryptoBullion.Chain.Success
import CryptoBullion.Chain.Trust
import CryptoBullion.Chain.StakeProof
import CryptoBullion.Chain.Modifier
import CryptoBullion.Context.CheckBlock
import CryptoBullion.Context.HostileBlock
import CryptoBullion.Context.MerkleRoot
import CryptoBullion.Miner.Fees
import CryptoBullion.Miner.Scan
import CryptoBullion.Miner.Memory
import CryptoBullion.Miner.Timestamps
import CryptoBullion.Database.Batch
import CryptoBullion.Disk.Encoding
import CryptoBullion.Disk.Position
import CryptoBullion.Pool.Represents
import CryptoBullion.Relay.Intact
import CryptoBullion.Relay.OrphanTxs
import CryptoBullion.Wallet.KeyPool
import CryptoBullion.Wallet.CryptoKeyStore
import CryptoBullion.Wallet.Accounts
import CryptoBullion.Wallet.TotalBalance
import CryptoBullion.Wallet.Arrival
import CryptoBullion.Messages.Framing
import CryptoBullion.Messages.Handshake
import CryptoBullion.Messages.Delivery
import CryptoBullion.Orphans.Frame
import CryptoBullion.Orphans.Agree
import CryptoBullion.Orphans.Stranded
import CryptoBullion.Targets.Compact
import CryptoBullion.Scripts.Instructions
import CryptoBullion.Scripts.Opcodes
import CryptoBullion.Scripts.Safety
import CryptoBullion.Scripts.MultiSig
import CryptoBullion.Scripts.Pushes
import CryptoBullion.Scripts.SigOps
import CryptoBullion.Scripts.SigCache
import CryptoBullion.Scripts.SignatureHash
import CryptoBullion.Scripts.Solver
import CryptoBullion.Scripts.Combine
import CryptoBullion.Targets.Retarget
import CryptoBullion.Targets.Usable
import CryptoBullion.Targets.MinWork
import CryptoBullion.Targets.Reward
import CryptoBullion.Common.Window
import CryptoBullion.Model.Clock
import CryptoBullion.Peers.Offset
import CryptoBullion.Model.Alert
import CryptoBullion.Alerts.Effect
import CryptoBullion.Alerts.Final
import CryptoBullion.Model.RelayMemory
import CryptoBullion.Relay.Memory
import CryptoBullion.Model.Locator
import CryptoBullion.Chain.Locator
import CryptoBullion.Model.NetAddr
import CryptoBullion.Model.AddrMan
import CryptoBullion.Common.Shuffle
import CryptoBullion.Peers.Eviction
import CryptoBullion.Scripts.Unrecognised
import CryptoBullion.Scripts.FindAndDelete
import CryptoBullion.Model.LoadFile
import CryptoBullion.Disk.LoadFile
import CryptoBullion.Common.Places
import CryptoBullion.Common.Buckets
import CryptoBullion.Peers.Tables
import CryptoBullion.Peers.Consistent
import CryptoBullion.Model.Lookup
import CryptoBullion.Chain.Lookup
import CryptoBullion.Model.MerkleBranch
import CryptoBullion.Context.MerkleBranch
import CryptoBullion.Miner.Combine
import CryptoBullion.Common.Picking
import CryptoBullion.Model.CoinSelection
import CryptoBullion.Wallet.CoinSelection
import CryptoBullion.Wallet.FixSpent
import CryptoBullion.Common.Classes
import CryptoBullion.Model.AddressGroupings
import CryptoBullion.Wallet.Groupings
import CryptoBullion.Model.OrderPos
import CryptoBullion.Common.Handouts
import CryptoBullion.Wallet.OrderPos
import CryptoBullion.Miner.CoinStake
import CryptoBullion.Common.Bits
import CryptoBullion.Model.Text
import CryptoBullion.Text.BaseCodes
import CryptoBullion.Model.Money
import CryptoBullion.Text.Money
import CryptoBullion.Common.Radix
import CryptoBullion.Model.Base58
import CryptoBullion.Text.Base58
import CryptoBullion.Model.Key
import CryptoBullion.Wallet.KeyFormat
import CryptoBullion.Model.DataStream
import CryptoBullion.Streams.Queue
import CryptoBullion.Model.RawTransaction
import CryptoBullion.Scripts.RawTransaction
import CryptoBullion.Model.Records
import CryptoBullion.Wallet.Records
import CryptoBullion.Model.Dump
import CryptoBullion.Wallet.Dump
import CryptoBullion.Model.Values
import CryptoBullion.Context.Values
import CryptoBullion.Common.Splits
import CryptoBullion.Model.Access
import CryptoBullion.Access.Wildcard
import CryptoBullion.Model.Mruset
import CryptoBullion.Relay.Mruset
import CryptoBullion.Model.LockedPages
import CryptoBullion.Memory.LockedPages
import CryptoBullion.Model.BigNum
import CryptoBullion.Targets.BigNum
import CryptoBullion.Model.ScriptReader
import CryptoBullion.Scripts.RoundTrip
import CryptoBullion.Common.Words
import CryptoBullion.Model.BaseUint
import CryptoBullion.Targets.FixedWidth
import CryptoBullion.Model.AddressText
import CryptoBullion.Peers.Overlay
import CryptoBullion.Model.ListTransactions
import CryptoBullion.Wallet.ListTransactions
import CryptoBullion.Peers.Freshness
import CryptoBullion.Model.Received
import CryptoBullion.Common.History
import CryptoBullion.Chain.Branches
import CryptoBullion.Wallet.Received
import CryptoBullion.Chain.Places
import CryptoBullion.Chain.Additions
import CryptoBullion.Chain.Maturity
import CryptoBullion.Chain.Unspent
