import Hypersnap.Store.BlockEvents
import Hypersnap.Store.GaslessKeys
import Hypersnap.Store.Names
import Hypersnap.Store.ShardChunks
import Hypersnap.Store.StorageLend
import Hypersnap.Trie.TrieKey

/-!
# `Engine.State` — what an engine reads and what it changes

While an engine replays transactions, the database stands still: all writes go to one batch, and with it
change the trie in memory and the counters of event ids. `EngineEnv` is the part that stands still,
`EngineState` the part that changes. An engine has every message store twice: the pruned one and a shadow copy
under other keys, with a counter of event ids of its own.
-/

namespace Hypersnap

open Overlay EState

/-- All that the engine takes from other libraries. -/
class Platform extends Prost, DbIterator, Blake3, Hex, Sha256, Crypto, TextRules, MessageEncode

/-! ## Configuration -/

structure StoreOptions where
  conflictFree : Bool := false
  saveHubEvents : Bool := true
deriving DecidableEq, Repr

structure EngineConfig where
  shardId : UInt32
  network : FarcasterNetwork
  storeLimits : StoreLimits := {}
  /-- The address that signs name proofs, if it is not the built-in one. -/
  fnameSignerAddress : Option Bytes := none
  storeOpts : StoreOptions := {}
deriving DecidableEq, Repr

/-- The database an engine reads, and the clock of its machine in Unix seconds. -/
structure EngineEnv extends EngineConfig where
  db : RocksDB
  now : UInt64

namespace EngineEnv

variable (env : EngineEnv)

/-- A message store of the engine; the shadow stores do not persist their events. -/
def store (ctx : StateContext) (storeDef : StoreDef) : Store where
  storeDef := storeDef
  conflictFree := env.storeOpts.conflictFree
  saveHubEvents := env.storeOpts.saveHubEvents
  stateContext := ctx
  noPersist := ctx == .hyper

def currentTime : FarcasterTime := ⟨env.now - farcasterEpoch / 1000⟩

/-- `EngineVersion::current`: the version by the clock, not by a block. -/
def currentVersion : EngineVersion := .versionFor env.currentTime env.network

end EngineEnv

/-! ## State -/

structure EngineState where
  txn : RocksDbTransactionBatch
  generator : HubEventIdGenerator
  hyperGenerator : HubEventIdGenerator
  trie : MerkleTrie

inductive StoresError where
  | onchainEventError (e : OnchainEventStorageError)
  | storeError (inner : HubError) (hash : Bytes)
deriving DecidableEq, Repr

inductive EngineError where
  | trieError (e : TrieError)
  | storeError (e : HubError)
  | unsupportedMessageType (type : MessageType)
  | hashMismatch
  | usageCountError
  | engineMessageValidationError (e : MessageValidationError)
  | blockEventStoreError (e : BlockEventStorageError)
deriving DecidableEq, Repr

/-- Operations of the engine with errors of a given type. -/
abbrev EngineM (ε : Type) := EStateM (Stop ε) EngineState

namespace EngineState

def stores (s : EngineState) : StoreState := ⟨s.txn, s.generator⟩

def setStores (t : StoreState) (s : EngineState) : EngineState :=
  { s with txn := t.txn, generator := t.generator }

def hyperStores (s : EngineState) : StoreState := ⟨s.txn, s.hyperGenerator⟩

def setHyperStores (t : StoreState) (s : EngineState) : EngineState :=
  { s with txn := t.txn, hyperGenerator := t.generator }

end EngineState

section lifting
variable {ε α : Type}

/-- An operation of the engine's own stores. -/
def inStores (x : StoreOp ε α) : EngineM ε α := zoom EngineState.stores EngineState.setStores x

/-- An operation of the shadow stores. -/
def inHyperStores (x : StoreOp ε α) : EngineM ε α := zoom EngineState.hyperStores EngineState.setHyperStores x

/-- A reading that may panic. -/
def read (x : Except (Stop ε) α) : EngineM ε α := fromExcept x

end lifting

/-! ## The trie -/

/-- A panic inside the trie is none of its error values. -/
def TrieError.toStop : TrieError → Stop EngineError
  | .panic _ => .panic
  | e => .err (.trieError e)

def updateTrie [Platform] (env : EngineEnv) (event : HubEvent) : EngineM EngineError Unit := fun s =>
  match s.trie.updateForEvent env.db event s.txn with
  | none => .error .panic s
  | some (trie, txn, .ok ()) => .ok () { s with trie, txn }
  | some (trie, txn, .error e) => .error e.toStop { s with trie, txn }

/-- Update the trie for one event after the other. -/
def updateTrieAll [Platform] (env : EngineEnv) : List HubEvent → EngineM EngineError Unit
  | [] => pure ()
  | event :: events => do
    updateTrie env event
    updateTrieAll env events

/-! ## Sets without an order -/

/-- The order in which the hash sets of one replay are visited: any, and another one on every machine. -/
structure SetOrder where
  keys : List Bytes → List Bytes
  types : List MessageType → List MessageType
  keys_perm : ∀ l, (keys l).Perm l
  types_perm : ∀ l, (types l).Perm l

/-- Sets visited in the order in which each element was inserted last. -/
def SetOrder.ofInsertion : SetOrder := ⟨id, id, fun _ => .refl _, fun _ => .refl _⟩

/-! ## Samples -/

/-- Libraries that accept everything; a message is encoded as the last byte of its timestamp, and a hash is
    made of the first byte. -/
@[reducible] def samplePlatform (iterator : DbIterator) : Platform where
  toProst := ⟨fun _ => none⟩
  toDbIterator := iterator
  toBlake3 := ⟨fun b => Vector.replicate 32 (b.headD 0)⟩
  toHex := lowerHex
  toSha256 := ⟨fun _ => Vector.replicate 32 0⟩
  signatureFromSlice _ := true
  verifyingKeyTryFrom _ := true
  verifyStrict _ _ _ := true
  validateAddAddress _ _ _ _ _ := .ok ()
  recoverKeyAddCustodyAddress _ _ := .ok [1]
  recoverKeyRemoveCustodyAddress _ _ := .ok [1]
  decodeSignedKeyRequest _ := none
  recoverKeyRequestSigner _ _ _ _ := none
  fnameSigningHash _ := .ok []
  recoverAddress _ _ := none
  validateFname _ := .ok ()
  validateEnsName _ := .ok ()
  validateBaseName _ := .ok ()
  validateUserLocation _ := .ok ()
  validateTwitterUsername _ := .ok ()
  validateGithubUsername _ := .ok ()
  validateCaip19Format _ := .ok ()
  isUtf8 _ := true
  addressFromHex b := some b
  toChecksum b := b
  base58Decode b := some b
  base58Encode b := b
  encodeMessageData data := [data.timestamp.toUInt8]

end Hypersnap
