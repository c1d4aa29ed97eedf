import Hypersnap.Store.KeyRegistry

/-!
# `Store.KeyAtomicity` — a rejected request leaves nothing behind

`merge_key_add` and `merge_key_remove` stage the new nonce first and the entries of the key after it, in a
batch that is kept when the request is rejected. So they are atomic only if nothing can fail once the nonce is
staged. A registration has read everything by then. A removal still has to read the counter of the fid, which
is where the invariant of the registry (`LockStep`) is needed: its counters are numbers.
-/

namespace Hypersnap

open Overlay EState

/-- **The registry is in lock-step**: the owner of a key, its record and its time of last use are there
    together, and the counter of a fid counts its records. -/
structure LockStep (db : RocksDB) (txn : RocksDbTransactionBatch) : Prop where
  owner : ∀ fid : UInt64, fid < 4294967296 → ∀ key, getGaslessKeyOwnerFid db txn key = .ok (some fid) ↔
    ∃ record, getGaslessKeyRecord db txn fid key = .ok (some record)
  lastUsedAt : ∀ fid key, (∃ record, getGaslessKeyRecord db txn fid key = .ok (some record)) ↔
    ∃ time, getLastUsedAt db txn fid key = .ok (some time)
  count : ∀ fid, ∃ count, getGaslessKeyCount db txn fid = .ok count ∧
    count.toNat = {key | ∃ record, getGaslessKeyRecord db txn fid key = .ok (some record)}.ncard

theorem Represents.lockStep {db : RocksDB} {s : StoreState} {A : KeyRegistry} (h : Represents db s A) :
    LockStep db s.txn where
  owner _ hfid _ := (h.owner_iff hfid).trans (h.exists_record_iff _).symm
  lastUsedAt fid _ := (h.exists_record_iff fid).trans (h.exists_lastUsedAt_iff fid).symm
  count fid := by
    obtain ⟨count, hcount, -, hcard⟩ := h.count_eq_ncard fid
    exact ⟨count, hcount, hcard⟩

/-- **Every run of the stores from an empty table is in lock-step.** -/
theorem lockStep_of_run {start last : RocksDB × StoreState}
    (hempty : ∀ key, InRegistry key → start.2.view start.1 key = none)
    (hrun : Relation.ReflTransGen RegistryStep start last) : LockStep last.1 last.2.txn := by
  obtain ⟨A, hA⟩ := represents_of_run hempty hrun
  exact hA.lockStep

/-! ## Counters that can be read -/

section parts
variable {db : RocksDB} {s : StoreState} {fid : UInt64}

section
variable (h : Countable db fid s) {kind : UserPostfix} {rest : Bytes}
include h

theorem Countable.put {value : DbValue} (hkind : kind.toByte ≠ UserPostfix.gaslessKeyCountByFid.toByte) :
    Countable db fid (s.put (makeGaslessKey kind rest) value) := by
  obtain ⟨count, hcount⟩ := h
  exact ⟨count, (getGaslessKeyCount_put hkind value).trans hcount⟩

theorem Countable.delete (hkind : kind.toByte ≠ UserPostfix.gaslessKeyCountByFid.toByte) :
    Countable db fid (s.delete (makeGaslessKey kind rest)) := by
  obtain ⟨count, hcount⟩ := h
  exact ⟨count, (getGaslessKeyCount_delete hkind).trans hcount⟩

theorem Countable.update {s' : StoreState} {fid' : UInt64} {value : Option DbValue}
    (hview : s'.view db = Function.update (s.view db) (makeGaslessKeyCountByFidKey fid') value)
    (hvalue : value = none ∨ ∃ n, value = some (.bytes (toBeBytes n))) : Countable db fid s' := by
  by_cases hkey : makeGaslessKeyCountByFidKey fid = makeGaslessKeyCountByFidKey fid'
  · have hget : getFromDbOrTxn db s'.txn (makeGaslessKeyCountByFidKey fid) = value := by
      refine (congrFun hview _).trans ?_
      rw [hkey, Function.update_self]
    obtain rfl | ⟨n, rfl⟩ := hvalue
    · exact ⟨0, by simp only [getGaslessKeyCount, getU32, hget]; rfl⟩
    · refine ⟨(fromBeBytes (toBeBytes n)).toUInt32, ?_⟩
      simp only [getGaslessKeyCount, getU32, hget, readU32, if_pos (length_toBeBytes n)]
      rfl
  · obtain ⟨count, hcount⟩ := h
    refine ⟨count, (getGaslessKeyCount_congr ?_).trans hcount⟩
    rw [hview]
    exact Function.update_of_ne hkey _ _

theorem Countable.putCount (fid' : UInt64) (n : UInt32) :
    Countable db fid (s.put (makeGaslessKeyCountByFidKey fid') (.bytes (toBeBytes n))) :=
  h.update (StoreState.view_put ..) (.inr ⟨n, rfl⟩)

theorem Countable.deleteCount (fid' : UInt64) :
    Countable db fid (s.delete (makeGaslessKeyCountByFidKey fid')) :=
  h.update (StoreState.view_delete ..) (.inl rfl)

end

end parts

/-! ## The operations -/

section operations
variable {db : RocksDB} {s : StoreState} [Crypto]

/-- **A rejected registration leaves nothing behind**, in any state. -/
theorem mergeKeyAdd_atomic (msg : Message) (isReplay : Bool) :
    Ends (mergeKeyAdd db msg isReplay) s (fun _ _ => True) fun _ s' => s' = s :=
  (mergeKeyAdd_ends msg isReplay).mono (fun _ _ _ => trivial) fun _ _ h => h

/-- **A rejected removal leaves nothing behind** if the counters can be read. -/
theorem mergeKeyRemove_atomic (hcount : ∀ fid, Countable db fid s) (msg : Message) :
    Ends (mergeKeyRemove db msg) s (fun _ _ => True) fun _ s' => s' = s :=
  (mergeKeyRemove_ends msg).mono (fun _ _ _ => trivial) fun _ _ h =>
    h.resolve_right fun ⟨fid, hfid⟩ => hfid (hcount fid)

/-- **A rejected request leaves the batch as it was**, in every state in lock-step. -/
theorem keyRequest_error_atomic (h : LockStep db s.txn) (msg : Message) :
    (∀ isReplay e s', mergeKeyAdd db msg isReplay s = .error e s' → s' = s) ∧
      ∀ e s', mergeKeyRemove db msg s = .error e s' → s' = s := by
  have hcount : ∀ fid, Countable db fid s := by
    intro fid
    obtain ⟨count, hcount, -⟩ := h.count fid
    exact ⟨count, hcount⟩
  refine ⟨fun isReplay e s' he => ?_, fun e s' he => ?_⟩
  · have hends : Ends (mergeKeyAdd db msg isReplay) s (fun _ _ => True) fun _ s' => s' = s :=
      mergeKeyAdd_atomic msg isReplay
    rw [Ends, he] at hends
    exact hends
  · have hends : Ends (mergeKeyRemove db msg) s (fun _ _ => True) fun _ s' => s' = s :=
      mergeKeyRemove_atomic hcount msg
    rw [Ends, he] at hends
    exact hends

end operations

/-! ### A nonce that was used -/

/-- The removal of the key of `sampleKeyAdd`, by the owner of fid 5. -/
def sampleKeyRemove (nonce : UInt32) : Message where
  data := some ⟨MessageType.keyRemove.toI32, 5, 20, 1,
    some (.keyRemoveBody ⟨sampleGaslessKey, [1], 1, 1000, nonce⟩)⟩
  hash := List.replicate 20 11
  hashScheme := blake3
  signature := []
  signatureScheme := ed25519
  signer := []
  dataBytes := none

/-- A removal with the nonce of the registration is rejected, and the batch with the registration stays as it
    is. -/
theorem keyRequest_error_used_nonce :
    let s := (KeyOp.add sampleKeyCrypto sampleKeyAdd false).run sampleKeyDb ⟨Batch.empty, ⟨1, 0⟩⟩
    ∃ e, @mergeKeyRemove sampleKeyDb sampleKeyCrypto (sampleKeyRemove 1) s = .error e s := by
  intro s
  have hlock : LockStep sampleKeyDb s.txn :=
    @lockStep_of_run (sampleKeyDb, ⟨Batch.empty, ⟨1, 0⟩⟩) (sampleKeyDb, s)
    sampleKeyDb_noKeys (.single (.op (.add sampleKeyCrypto sampleKeyAdd false)))
  have herror : ∃ e s', @mergeKeyRemove sampleKeyDb sampleKeyCrypto (sampleKeyRemove 1) s = .error e s' :=
    ⟨_, _, rfl⟩
  obtain ⟨e, s', he⟩ := herror
  rw [(@keyRequest_error_atomic _ _ sampleKeyCrypto hlock (sampleKeyRemove 1)).2 e s' he] at he
  exact ⟨e, he⟩

end Hypersnap
