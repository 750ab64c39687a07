import MarketPeer.Lib.Outcome
import MarketPeer.Go.Value
import MarketPeer.Go.Encoding
import MarketPeer.Contracts.Syntax
import MarketPeer.Contracts.Grammar
import MarketPeer.Ledger.State
import MarketPeer.Contracts.Eval
import MarketPeer.Contracts.Reached
import MarketPeer.Contracts.Meaning
import MarketPeer.Contracts.Progress
import MarketPeer.Contracts.Marshal
import MarketPeer.Ledger.Transaction
import MarketPeer.Ledger.Execute
import MarketPeer.Ledger.Block
import MarketPeer.Ledger.BlockChain
import MarketPeer.Ledger.Miner
import MarketPeer.Ledger.Effects
import MarketPeer.Ledger.Panics
import MarketPeer.Lib.Runs
import MarketPeer.Lib.MapTotal
import MarketPeer.Ledger.Nonces
import MarketPeer.Ledger.Authentic
import MarketPeer.Ledger.Money
import MarketPeer.Ledger.Balances
import MarketPeer.Ledger.Mining
import MarketPeer.Ledger.Chain
import MarketPeer.Ledger.Transition
import MarketPeer.Ledger.Appends
import MarketPeer.Ledger.Difficulty
import MarketPeer.Ledger.Wire
import MarketPeer.Lib.Delimited
import MarketPeer.Ledger.Commitment
import MarketPeer.Ledger.RoundTrip
import MarketPeer.Ledger.CatchUp
import MarketPeer.Ledger.StateHash
import MarketPeer.Ledger.Wallet
import MarketPeer.Ledger.Daemons
import MarketPeer.Ledger.MinedTxns
import MarketPeer.Ledger.Requeue
import MarketPeer.Ledger.Holdings
import MarketPeer.Ledger.Validity
import MarketPeer.Ledger.Atomic
import MarketPeer.Ledger.Goods
import MarketPeer.Ledger.Progress
import MarketPeer.Lib.Voting
import MarketPeer.Paxos.Model
import MarketPeer.Paxos.Acceptors
import MarketPeer.Lib.Counting
import MarketPeer.Paxos.Proposers
import MarketPeer.Paxos.Learners
import MarketPeer.Paxos.Agreement
import MarketPeer.Paxos.Ballots
import MarketPeer.Paxos.Quorums
import MarketPeer.Paxos.Mutex
import MarketPeer.Paxos.Stuck
import MarketPeer.Paxos.Timer
import MarketPeer.Paxos.Handshake
import MarketPeer.Paxos.Validity
import MarketPeer.Naming.Model
import MarketPeer.Naming.Invariant
import MarketPeer.Naming.Integrity
import MarketPeer.Naming.Uniqueness
import MarketPeer.Naming.Waiters
import MarketPeer.Lib.Ring
import MarketPeer.Chord.Model
import MarketPeer.Chord.Intervals
import MarketPeer.Chord.Lookup
import MarketPeer.Chord.Moves
import MarketPeer.Chord.Stabilize
import MarketPeer.Chord.Store
import MarketPeer.Chord.HandOver
import MarketPeer.Chord.Get
import MarketPeer.Chord.Fresh
import MarketPeer.Chord.Fingers
import MarketPeer.Chord.OneAnswer
import MarketPeer.Chord.Handlers
import MarketPeer.Chord.Converge
import MarketPeer.Chord.Dht
import MarketPeer.Lib.LateMap
import MarketPeer.Chord.DhtMap
import MarketPeer.Gossip.Model
import MarketPeer.Gossip.Store
import MarketPeer.Gossip.AntiEntropy
import MarketPeer.Gossip.Missing
import MarketPeer.Gossip.Network
import MarketPeer.Gossip.Changes
import MarketPeer.Gossip.Prefixes
import MarketPeer.Lib.Hops
import MarketPeer.Gossip.Routes
import MarketPeer.Gossip.Spread
import MarketPeer.Search.Model
import MarketPeer.Search.Budget
import MarketPeer.Lib.Shuffle
import MarketPeer.Search.Allocation
import MarketPeer.Lib.Chunks
import MarketPeer.Sharing.Model
import MarketPeer.Sharing.Uploads
import MarketPeer.Sharing.Readers
import MarketPeer.Sharing.Exchange
import MarketPeer.Sharing.Replies
import MarketPeer.Sharing.Integrity
import MarketPeer.Catalog.Model
import MarketPeer.Catalog.Truth
import MarketPeer.Catalog.Answers
import MarketPeer.Catalog.Abandoned
import MarketPeer.Ledger.History
import MarketPeer.Ledger.Verification
import MarketPeer.Chord.Settling
import MarketPeer.Dispatch.Delivery
