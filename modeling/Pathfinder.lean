import Pathfinder.Monad.Except
import Pathfinder.Patricia.Trie
import Pathfinder.Patricia.Zipper
import Pathfinder.Merkle.Tree
import Pathfinder.Merkle.Denote
import Pathfinder.Merkle.Update
import Pathfinder.Merkle.Commit
import Pathfinder.Merkle.Persist
import Pathfinder.Merkle.Session
import Pathfinder.Merkle.Insert
import Pathfinder.Merkle.Proof
import Pathfinder.Bignum.Digits
import Pathfinder.Bignum.Montgomery
import Pathfinder.Crypto.Core
import Pathfinder.Crypto.MontFelt
import Pathfinder.Crypto.Field
import Pathfinder.Crypto.Felt
import Pathfinder.Crypto.Ecdsa
import Pathfinder.Bitmap.Msb
import Pathfinder.Storage.Bloom
import Pathfinder.Storage.Transactions
import Pathfinder.Storage.Events
import Pathfinder.Rpc.Subscription
import Pathfinder.Crypto.Poseidon
import Pathfinder.ClassHash.Json
import Pathfinder.Sync.L1L2
import Pathfinder.Executor.GasSearch
import Pathfinder.Sync.Checkpoint
import Pathfinder.P2p.Eviction
import Pathfinder.P2p.EventStream
import Pathfinder.Crypto.Curve
import Pathfinder.Sync.BlockChain
import Pathfinder.Bincode.Standard
import Pathfinder.Bitmap.BitVec
import Pathfinder.Storage.TrieNode
import Pathfinder.Hex.Digits
import Pathfinder.Crypto.Hex
import Pathfinder.Hades.Compress
import Pathfinder.Crypto.CurveOrder
import Pathfinder.Crypto.Sqrt
import Pathfinder.Crypto.Stark
