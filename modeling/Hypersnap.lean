import Hypersnap.Api.Conversations
import Hypersnap.Api.EventBridge
import Hypersnap.Api.IndexScan
import Hypersnap.Connector.TierPolling
import Hypersnap.Consensus.ReadOrder
import Hypersnap.Consensus.Validator
import Hypersnap.Engine.FnameTransfers
import Hypersnap.Engine.KeyUse
import Hypersnap.Engine.StorageArithmetic
import Hypersnap.Hyper.Backfill
import Hypersnap.Mempool.BlockReceiver
import Hypersnap.Mempool.Delivery
import Hypersnap.Mempool.Node
import Hypersnap.Store.AddressLookup
import Hypersnap.Store.Blocks
import Hypersnap.Store.CompactFrame
import Hypersnap.Store.KeyLifetime
import Hypersnap.Store.Migrations
import Hypersnap.Store.SignerOrder
import Hypersnap.Store.SignerRemoval
import Hypersnap.Store.TargetQueries
import Hypersnap.Store.TierExpiry
import Hypersnap.Trie.Atomicity
import Hypersnap.Trie.Commitment
import Hypersnap.Trie.EventKeys
import Hypersnap.Trie.Lookup
import Hypersnap.Trie.PagedValues
import Hypersnap.Validation.BodyTypes
