import Hypersnap.Proto.Enums
import Hypersnap.Store.Keys

/-!
# `Mempool.Routing` — which shard a user belongs to

Users are spread over the shards by a hash of their fid; shard zero takes the messages whose effect every
shard needs.
-/

namespace Hypersnap

/-- `Sha256::digest`: 32 bytes of output, otherwise arbitrary. -/
class Sha256 where
  digest : Bytes → Vector UInt8 32

def routeFid [Sha256] (fid : UInt64) (numShards : UInt32) : UInt32 :=
  let hash := (Sha256.digest (makeFidKey fid)).toList
  (fromBeBytes (hash.take 4)).toUInt32 % numShards + 1

def routeMessage [Sha256] (message : Message) (numShards : UInt32) : UInt32 :=
  match message.msgType with
  | .lendStorage | .keyAdd | .keyRemove => 0
  | _ => routeFid message.fid numShards

end Hypersnap
