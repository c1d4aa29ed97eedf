import Hypersnap.Mempool.Routing
import Hypersnap.Trie.MerkleTrie
import Hypersnap.Validation.Message

/-!
# `Trie.TrieKey` — where messages and events stand in the trie

A key starts with the virtual shard and the fid of a user, so that a user's entries are one subtree; the next
byte says what kind of entry it is. The trie is never written directly: `updateForEvent` reads off a hub event
which keys appear and which go.

`none` is a panic.
-/

namespace Hypersnap

namespace TrieKey

def usernameMaxLength : Nat := 20

def fnameMessageType : UInt8 := 7

def trieShardSize : UInt32 := 256

variable [Sha256]

/-- The virtual shard of a user, counted from zero. -/
def fidShard (fid : UInt64) : UInt8 := (routeFid fid trieShardSize - 1).toUInt8

def forFid (fid : UInt64) : Bytes := fidShard fid :: makeFidKey fid

/-- Message types are shifted, so that they do not collide with the types of on-chain events. -/
def forMessageType (fid : UInt64) (msgType : UInt8) : Bytes := forFid fid ++ [msgType <<< 3]

/-- A lend stands in two places: for the lender and for the borrower. -/
def forMessage (m : Message) : Option (List Bytes) :=
  let msgType := asU8 m.msgType.toI32
  let key := forMessageType m.fid msgType ++ m.hash
  match m.data with
  | none => none
  | some data =>
    match data.body with
    | some (.lendStorageBody toFid _ _) => some [key, forMessageType toFid msgType ++ m.hash]
    | _ => some [key]

def forOnchainEvent (event : OnChainEvent) : Bytes :=
  forFid event.fid ++ [asU8 event.type] ++ event.transactionHash ++ toBeBytes event.logIndex

/-- Names are padded with zeros to one length. -/
def forFname (fid : UInt64) (name : Bytes) : Bytes :=
  forFid fid ++ [fnameMessageType] ++ name ++ List.replicate (usernameMaxLength - name.length) 0

def forMessages (messages : List Message) : Option (List Bytes) := do
  let keys ← messages.mapM forMessage
  some keys.flatten

/-- The key of a proof of the name server; other proofs have none, and reading a name that is no text
    panics. -/
def forUsernameProof [TextRules] (proof : Option UserNameProof) (counts : UserNameProof → Bool) :
    Option (List Bytes) :=
  match proof with
  | none => some []
  | some proof =>
    if proof.type == UserNameType.usernameTypeFname.toI32 && counts proof then
      if TextRules.isUtf8 proof.name then some [forFname proof.fid proof.name] else none
    else some []

/-- The keys that appear and the keys that go with an event. -/
def forHubEvent [TextRules] (event : HubEvent) : Option (List Bytes × List Bytes) :=
  match event.body with
  | .mergeMessageBody message deletedMessages => do
    some (← forMessages [message], ← forMessages deletedMessages)
  | .mergeOnChainEventBody onChainEvent => some ([forOnchainEvent onChainEvent], [])
  | .pruneMessageBody message => do some ([], ← forMessages [message])
  | .revokeMessageBody message => do some ([], ← forMessages [message])
  | .mergeUsernameProofBody usernameProof deletedUsernameProof usernameProofMessage
    deletedUsernameProofMessage => do
    let inserts ← forMessages usernameProofMessage.toList
    let deletes ← forMessages deletedUsernameProofMessage.toList
    -- a proof for fid zero takes a name back
    let names ← forUsernameProof usernameProof (·.fid != 0)
    let deletedNames ← forUsernameProof deletedUsernameProof fun _ => true
    some (inserts ++ names, deletes ++ deletedNames)
  | .mergeFailure .. | .blockConfirmedBody .. => some ([], [])

end TrieKey

namespace MerkleTrie

/-- An operation on the trie with the batch of the caller, on one key after the other; the first error ends
    it. -/
def eachKey (op : MerkleTrie → RocksDbTransactionBatch → List Bytes →
      MerkleTrie × RocksDbTransactionBatch × Except TrieError (List Bool)) :
    List Bytes → MerkleTrie → RocksDbTransactionBatch →
    MerkleTrie × RocksDbTransactionBatch × Except TrieError Unit
  | [], self, txn => (self, txn, .ok ())
  | key :: keys, self, txn =>
    match op self txn [key] with
    | (self, txn, .ok _) => eachKey op keys self txn
    | (self, txn, .error e) => (self, txn, .error e)

variable [Blake3] [Sha256] [TextRules]

/-- First the keys that appear, then the keys that go. -/
def updateForEvent (self : MerkleTrie) (db : RocksDB) (event : HubEvent) (txn : RocksDbTransactionBatch) :
    Option (MerkleTrie × RocksDbTransactionBatch × Except TrieError Unit) := do
  let (inserts, deletes) ← TrieKey.forHubEvent event
  match eachKey (fun t txn keys => t.insert db txn keys) inserts self txn with
  | (self, txn, .ok ()) => some (eachKey (fun t txn keys => t.delete db txn keys) deletes self txn)
  | (self, txn, .error e) => some (self, txn, .error e)

end MerkleTrie

end Hypersnap
