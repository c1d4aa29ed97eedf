import Hypersnap.Store.Effects
import Hypersnap.Store.GaslessKeys

/-!
# `Store.KeyRequests` — what a request about a key does

`merge_key_add` and `merge_key_remove` check a request, and then write: the nonce first, then the entries of
the key, and the counter of the fid last. What a request that succeeds has read and written is said here once
(`mergeKeyAdd_ends`, `mergeKeyRemove_ends`), and so is what one that fails leaves behind. A registration has
read everything before it writes. A removal reads the counter when the nonce and the deletions are staged
already.
-/

namespace Hypersnap

open Overlay EState

def numberValue (n : UInt32) : DbValue := .bytes (toBeBytes n)

theorem makeGaslessKey_ne {kind kind' : UserPostfix} {rest rest' : Bytes} (h : kind.toByte ≠ kind'.toByte) :
    makeGaslessKey kind rest ≠ makeGaslessKey kind' rest' :=
  fun heq => h (List.cons.inj (List.cons.inj heq).2).1

theorem length_of_makePublicKeyKey {table : String} {kind : UserPostfix} {front key path : Bytes}
    (h : makePublicKeyKey table kind front key = .ok path) : key.length = ed25519PublicKeyLen := by
  by_contra hlen
  rw [makePublicKeyKey, if_neg hlen] at h
  cases h

section paths
variable {fid : UInt64} {key : Bytes} (hlen : key.length = ed25519PublicKeyLen)

include hlen

theorem makeGaslessKeyByFidKey_eq :
    makeGaslessKeyByFidKey fid key = .ok (makeGaslessKey .gaslessKeyByFid (makeFidKey fid ++ key)) :=
      if_pos hlen

theorem makeGaslessKeyByPublicKeyKey_eq :
    makeGaslessKeyByPublicKeyKey key = .ok (makeGaslessKey .gaslessKeyByPublicKey ([] ++ key)) := if_pos hlen

theorem makeLastUsedAtKey_eq :
    makeLastUsedAtKey fid key = .ok (makeGaslessKey .gaslessKeyLastUsedAt (makeFidKey fid ++ key)) :=
      if_pos hlen

end paths

/-! ## The counter of a fid -/

section count
variable {db : RocksDB} {s : StoreState} {fid : UInt64}

/-- The counter of the fid can be read. -/
def Countable (db : RocksDB) (fid : UInt64) (s : StoreState) : Prop :=
  ∃ count, getGaslessKeyCount db s.txn fid = .ok count

theorem getGaslessKeyCount_congr {s' : StoreState}
    (h : s'.view db (makeGaslessKeyCountByFidKey fid) = s.view db (makeGaslessKeyCountByFidKey fid)) :
    getGaslessKeyCount db s'.txn fid = getGaslessKeyCount db s.txn fid := by
  have hget : getFromDbOrTxn db s'.txn (makeGaslessKeyCountByFidKey fid) =
    getFromDbOrTxn db s.txn (makeGaslessKeyCountByFidKey fid) := h
  simp only [getGaslessKeyCount, getU32, hget]

variable {kind : UserPostfix} {rest : Bytes} (hkind : kind.toByte ≠ UserPostfix.gaslessKeyCountByFid.toByte)

include hkind

theorem getGaslessKeyCount_put (value : DbValue) :
    getGaslessKeyCount db (s.put (makeGaslessKey kind rest) value).txn fid =
      getGaslessKeyCount db s.txn fid := by
  refine getGaslessKeyCount_congr ?_
  rw [StoreState.view_put]
  exact Function.update_of_ne (makeGaslessKey_ne (Ne.symm hkind)) _ _

theorem getGaslessKeyCount_delete :
    getGaslessKeyCount db (s.delete (makeGaslessKey kind rest)).txn fid =
      getGaslessKeyCount db s.txn fid := by
  refine getGaslessKeyCount_congr ?_
  rw [StoreState.view_delete]
  exact Function.update_of_ne (makeGaslessKey_ne (Ne.symm hkind)) _ _

end count

/-! ## Parts that write nothing -/

section silent
variable {db : RocksDB} {s : StoreState} {E : Stop MessageValidationError → StoreState → Prop}

/-- Whatever a computation does, it leaves the state alone. -/
def Silent {α : Type} (x : KeyM α) : Prop := ∀ s, Ends x s (fun _ s' => s' = s) (fun _ s' => s' = s)

theorem silent_request {α : Type} (x : Except ValidationError α) : Silent (request x) := fun _ =>
  ends_raise.2 ⟨fun _ _ => rfl, fun _ _ => rfl⟩

theorem silent_custodyOf (fid : UInt64) : Silent (custodyOf db fid) := by
  intro s
  unfold custodyOf
  rw [ends_get_bind]
  split
  · split <;> rfl
  · rfl

theorem silent_checkRequestCustody (verified : VerifiedSignedKeyRequest) :
    Silent (checkRequestCustody db verified) := by
  intro s
  unfold checkRequestCustody
  rw [ends_get_bind]
  split
  · rfl
  · rfl
  · split
    · exact silent_request _ s
    · rfl

theorem Silent.ends_bind {α β : Type} {x : KeyM α} {f : α → KeyM β} {Q : β → StoreState → Prop}
    (hx : Silent x) (hE : ∀ e, E e s) (hf : ∀ a, Ends (f a) s Q E) : Ends (x >>= f) s Q E := by
  refine EState.ends_bind.2 ((hx s).mono ?_ ?_)
  · rintro a s' rfl
    exact hf a
  · rintro e s' rfl
    exact hE e

theorem Silent.ends_ite {β : Type} {p : Prop} [Decidable p] {x : KeyM Unit} {f : Unit → KeyM β}
    {Q : β → StoreState → Prop} (hx : Silent x) (hf : ∀ u, Ends (f u) s Q fun _ s' => s' = s) :
    Ends (if p then x >>= f else f ()) s Q fun _ s' => s' = s := by
  by_cases hp : p
  · rw [if_pos hp]
    exact hx.ends_bind (fun _ => rfl) hf
  · rw [if_neg hp]
    exact hf ()

theorem ends_registry_ok {α β : Type} {a : α} {f : α → KeyM β} {Q : β → StoreState → Prop} :
    Ends (registry (.ok a) >>= f) s Q E ↔ Ends (f a) s Q E := Iff.rfl

/-- What the registry has for a key that the fid may register: nothing, or a record of the fid's own. -/
inductive Prior (db : RocksDB) (s : StoreState) (fid : UInt64) (key : Bytes) : Option GaslessKeyRecord → Prop
  | none : getGaslessKeyOwnerFid db s.txn key = .ok none → Prior db s fid key none
  | some {record : GaslessKeyRecord} : getGaslessKeyOwnerFid db s.txn key = .ok (some fid) →
    Prior db s fid key (some record)

theorem Prior.length_key {fid : UInt64} {key : Bytes} {prior : Option GaslessKeyRecord}
    (h : Prior db s fid key prior) :
    key.length = ed25519PublicKeyLen := by
  rcases h with h | h
  all_goals
    obtain ⟨_, hpath, -⟩ := except_bind_eq_ok.1 h
    exact length_of_makePublicKeyKey hpath

theorem priorRecord_ends (fid requestFid : UInt64) (key : Bytes) :
    Ends (priorRecord db fid requestFid key) s (fun prior s' => Prior db s fid key prior ∧ s' = s)
      fun _ s' => s' = s := by
  unfold priorRecord
  rw [ends_get_bind]
  cases howner : getGaslessKeyOwnerFid db s.txn key with
  | error e => rfl
  | ok owner =>
    rw [ends_registry_ok]
    cases owner with
    | none => exact ⟨.none howner, rfl⟩
    | some ownerFid =>
      by_cases hne : (ownerFid != fid) = true
      · simp only [if_pos hne]
        rfl
      · have heq : ownerFid = fid := by simpa using hne
        simp only [if_neg hne, ends_get_bind]
        cases getGaslessKeyRecord db s.txn fid key with
        | error e => rfl
        | ok record =>
          rw [ends_registry_ok]
          cases record with
          | none => rfl
          | some record =>
            exact (silent_request _).ends_bind (fun _ => rfl) fun _ => ⟨.some (heq ▸ howner), rfl⟩

end silent

/-! ## The writes -/

/-- The nonce is greater than the one that is stored. -/
def FreshNonce (db : RocksDB) (s : StoreState) (key : Bytes) (nonce : UInt32) : Prop :=
  ∃ stored, getNonce db s.txn key = .ok stored ∧ stored.getD 0 < nonce

namespace StoreState

variable (s : StoreState) (fid : UInt64) (key : Bytes)

/-- The entries of a registration: the nonce, the record, the owner and the time. -/
def registerKey (nonce timestamp : UInt32) (record : GaslessKeyRecord) : StoreState :=
  (((s.put (makeUserNonceKey fid) (numberValue nonce)).put
    (makeGaslessKey .gaslessKeyByFid (makeFidKey fid ++ key)) (.gaslessKeyRecord record)).put
    (makeGaslessKey .gaslessKeyByPublicKey ([] ++ key)) (.bytes (makeFidKey fid))).put
    (makeGaslessKey .gaslessKeyLastUsedAt (makeFidKey fid ++ key)) (numberValue timestamp)

/-- The deletions of a removal, after its nonce. -/
def releaseKey (nonceKey : Bytes) (nonce : UInt32) : StoreState :=
  (((s.put nonceKey (numberValue nonce)).delete
    (makeGaslessKey .gaslessKeyByFid (makeFidKey fid ++ key))).delete
    (makeGaslessKey .gaslessKeyByPublicKey ([] ++ key))).delete
    (makeGaslessKey .gaslessKeyLastUsedAt (makeFidKey fid ++ key))

/-- The counter, one less; at zero it is gone. -/
def lowerKeyCount (count : UInt32) : StoreState :=
  if (if count = 0 then 0 else count - 1) = 0 then s.delete (makeGaslessKeyCountByFidKey fid)
  else s.put (makeGaslessKeyCountByFidKey fid) (numberValue (if count = 0 then 0 else count - 1))

end StoreState

/-- **A registration**: of a new key, which the fid has room for, or of a key of the fid again. -/
inductive KeyAdded (db : RocksDB) (s : StoreState) (data : MessageData) (body : KeyAddBody) :
    StoreState → Prop
  | new {record : GaslessKeyRecord} {count : UInt32} : body.key.length = ed25519PublicKeyLen →
      FreshNonce db s (makeUserNonceKey data.fid) body.nonce →
      getGaslessKeyOwnerFid db s.txn body.key = .ok none →
      getGaslessKeyCount db s.txn data.fid = .ok count → count < maxGaslessKeysPerFid →
      KeyAdded db s data body ((s.registerKey data.fid body.key body.nonce data.timestamp record).put
        (makeGaslessKeyCountByFidKey data.fid) (numberValue (count + 1)))
  | again {record : GaslessKeyRecord} : body.key.length = ed25519PublicKeyLen →
      FreshNonce db s (makeUserNonceKey data.fid) body.nonce →
      getGaslessKeyOwnerFid db s.txn body.key = .ok (some data.fid) →
      KeyAdded db s data body (s.registerKey data.fid body.key body.nonce data.timestamp record)

/-- **A removal** of a key that has a record, with a nonce of its fid or of the fid that requested it. -/
inductive KeyRemoved (db : RocksDB) (s : StoreState) (data : MessageData) (body : KeyRemoveBody) :
    StoreState → Prop
  | mk {nonceKey : Bytes} {record : GaslessKeyRecord} {count : UInt32} :
      body.key.length = ed25519PublicKeyLen →
      getGaslessKeyRecord db s.txn data.fid body.key = .ok (some record) →
      nonceKey = makeUserNonceKey data.fid ∨ nonceKey = makeAppNonceKey record.requestFid →
      FreshNonce db s nonceKey body.nonce → getGaslessKeyCount db s.txn data.fid = .ok count →
      KeyRemoved db s data body
      ((s.releaseKey data.fid body.key nonceKey body.nonce).lowerKeyCount data.fid count)

section writes
variable {db : RocksDB} {s : StoreState}

theorem checkAndSetNonce_ends (key : Bytes) (nonce : UInt32) : Ends (checkAndSetNonce db key nonce) s
      (fun _ s' => FreshNonce db s key nonce ∧ s' = s.put key (numberValue nonce)) fun _ s' => s' = s := by
  unfold checkAndSetNonce
  rw [ends_get_bind]
  cases hstored : getNonce db s.txn key with
  | error e => rfl
  | ok stored =>
    rw [ends_registry_ok]
    show Ends (if nonce ≤ stored.getD 0 then _ else _) s _ _
    by_cases hle : nonce ≤ stored.getD 0
    · rw [if_pos hle]
      rfl
    · rw [if_neg hle]
      exact ⟨⟨stored, hstored, UInt32.not_le.1 hle⟩, rfl⟩

theorem register_ends {msg : Message} {data : MessageData} {body : KeyAddBody}
    {prior : Option GaslessKeyRecord} {requestFid : UInt64} (hprior : Prior db s data.fid body.key prior)
    (hcount : prior = none → ∃ count,
      getGaslessKeyCount db s.txn data.fid = .ok count ∧ count < maxGaslessKeysPerFid) (event : HubEvent) :
    Ends (do
      checkAndSetNonce db (makeUserNonceKey data.fid) body.nonce
      keyPut (← registry (makeGaslessKeyByFidKey data.fid body.key))
        (.gaslessKeyRecord ⟨some msg, requestFid⟩)
      keyPut (← registry (makeGaslessKeyByPublicKeyKey body.key)) (.bytes (makeFidKey data.fid))
      keyPut (← registry (makeLastUsedAtKey data.fid body.key)) (.bytes (toBeBytes data.timestamp))
      if prior.isNone then incrementGaslessKeyCount db data.fid
      pure event : KeyM HubEvent) s (fun _ s' => KeyAdded db s data body s') fun _ s' => s' = s := by
  have hlen := hprior.length_key
  refine ends_bind.2 ((checkAndSetNonce_ends _ _).mono ?_ fun _ _ h => h)
  rintro _ s₁ ⟨hfresh, rfl⟩
  rw [makeGaslessKeyByFidKey_eq hlen, makeGaslessKeyByPublicKeyKey_eq hlen, makeLastUsedAtKey_eq hlen]
  -- the entries are staged; what is left is the counter
  show Ends (if prior.isNone then incrementGaslessKeyCount db data.fid >>= fun _ => pure event
    else pure event)
    (s.registerKey data.fid body.key body.nonce data.timestamp ⟨some msg, requestFid⟩) _ _
  cases hprior with
  | some h => exact KeyAdded.again hlen hfresh h
  | none h =>
    obtain ⟨count, hread, hroom⟩ := hcount rfl
    have hstaged : getGaslessKeyCount db
        (s.registerKey data.fid body.key body.nonce data.timestamp ⟨some msg, requestFid⟩).txn data.fid =
          .ok count := by
      unfold StoreState.registerKey makeUserNonceKey
      rw [getGaslessKeyCount_put (by decide), getGaslessKeyCount_put (by decide),
        getGaslessKeyCount_put (by decide), getGaslessKeyCount_put (by decide), hread]
    have hmax : count ≠ 4294967295 := fun h => by rw [h] at hroom; exact absurd hroom (by decide)
    rw [if_pos (by rfl)]
    unfold incrementGaslessKeyCount
    rw [ends_bind, ends_get_bind, hstaged, ends_registry_ok]
    show KeyAdded db s data body
      (StoreState.put _ _ (.bytes (toBeBytes (if count = 4294967295 then count else count + 1))))
    rw [if_neg hmax]
    exact .new hlen hfresh h hread hroom

theorem release_ends {data : MessageData} {body : KeyRemoveBody} {nonceKey : Bytes}
    {record : GaslessKeyRecord} (hrecord : getGaslessKeyRecord db s.txn data.fid body.key = .ok (some record))
    (hkey : nonceKey = makeUserNonceKey data.fid ∨ nonceKey = makeAppNonceKey record.requestFid)
    (event : HubEvent) :
    Ends (do
      checkAndSetNonce db nonceKey body.nonce
      keyDelete (← registry (makeGaslessKeyByFidKey data.fid body.key))
      keyDelete (← registry (makeGaslessKeyByPublicKeyKey body.key))
      keyDelete (← registry (makeLastUsedAtKey data.fid body.key))
      decrementGaslessKeyCount db data.fid
      pure event : KeyM HubEvent) s (fun _ s' => KeyRemoved db s data body s')
      fun _ s' => s' = s ∨ ∃ fid, ¬ Countable db fid s := by
  have hlen : body.key.length = ed25519PublicKeyLen := by
    obtain ⟨_, hpath, -⟩ := except_bind_eq_ok.1 hrecord
    exact length_of_makePublicKeyKey hpath
  have hstaged : getGaslessKeyCount db (s.releaseKey data.fid body.key nonceKey body.nonce).txn data.fid =
      getGaslessKeyCount db s.txn data.fid := by
    unfold StoreState.releaseKey
    rw [getGaslessKeyCount_delete (by decide), getGaslessKeyCount_delete (by decide),
      getGaslessKeyCount_delete (by decide)]
    rcases hkey with rfl | rfl
    · exact getGaslessKeyCount_put (by decide) _
    · exact getGaslessKeyCount_put (by decide) _
  refine ends_bind.2 ((checkAndSetNonce_ends _ _).mono ?_ fun _ _ h => .inl h)
  rintro _ s₁ ⟨hfresh, rfl⟩
  rw [makeGaslessKeyByFidKey_eq hlen, makeGaslessKeyByPublicKeyKey_eq hlen, makeLastUsedAtKey_eq hlen]
  show Ends (decrementGaslessKeyCount db data.fid >>= fun _ => pure event)
    (s.releaseKey data.fid body.key nonceKey body.nonce) _ _
  unfold decrementGaslessKeyCount
  rw [ends_bind, ends_get_bind, hstaged]
  cases hread : getGaslessKeyCount db s.txn data.fid with
  | error e => exact .inr ⟨data.fid, fun ⟨count, hcount⟩ => nomatch hread.symm.trans hcount⟩
  | ok count =>
    have hremoved := KeyRemoved.mk hlen hrecord hkey hfresh hread
    rw [ends_registry_ok]
    unfold StoreState.lowerKeyCount at hremoved
    show Ends (if (if count = 0 then 0 else count - 1) = 0 then _ else _) _ _ _
    by_cases hzero : (if count = 0 then 0 else count - 1) = 0
    · rw [if_pos hzero] at hremoved ⊢
      exact hremoved
    · rw [if_neg hzero] at hremoved ⊢
      exact hremoved

end writes

/-! ## The use of a key -/

/-- **What the use of a key does.** A key that has not expired is used: its time moves on if it is more than
    five minutes old. A use that fails has written nothing. -/
theorem checkAndBumpLastUsedAt_ends {db : RocksDB} {s : StoreState} (fid : UInt64) (key : Bytes)
    (ttl time : UInt32) (now : UInt64) : Ends (checkAndBumpLastUsedAt db fid key ttl time now) s
      (fun _ s' => ∃ stored, getLastUsedAt db s.txn fid key = .ok (some stored) ∧
        ¬ stored.toUInt64 + ttl.toUInt64 < now ∧
        s' = if stored.toUInt64 + slidingTtlThrottleSeconds < time.toUInt64
          then s.put (makeGaslessKey .gaslessKeyLastUsedAt (makeFidKey fid ++ key)) (numberValue time) else s)
      fun _ s' => s' = s ∧ ∀ stored, getLastUsedAt db s.txn fid key = .ok (some stored) →
        stored.toUInt64 + ttl.toUInt64 < now := by
  unfold checkAndBumpLastUsedAt
  by_cases hlen : key.length = ed25519PublicKeyLen
  · have hread : getLastUsedAt db s.txn fid key = getU32 db s.txn "last_used_at value"
        (makeGaslessKey .gaslessKeyLastUsedAt (makeFidKey fid ++ key)) := by
      rw [getLastUsedAt, makeLastUsedAtKey_eq hlen]
      rfl
    rw [hread, makeLastUsedAtKey_eq hlen, ends_registry_ok, ends_get_bind]
    cases getU32 db s.txn "last_used_at value" (makeGaslessKey .gaslessKeyLastUsedAt (makeFidKey fid ++ key))
      with
    | error e => exact ⟨rfl, fun _ h => nomatch h⟩
    | ok stored =>
      rw [ends_registry_ok]
      cases stored with
      | none => exact ⟨rfl, fun _ h => nomatch h⟩
      | some stored =>
        show Ends (if stored.toUInt64 + ttl.toUInt64 < now then _ else _) s _ _
        by_cases hexpired : stored.toUInt64 + ttl.toUInt64 < now
        · rw [if_pos hexpired]
          refine ⟨rfl, ?_⟩
          rintro _ ⟨⟩
          exact hexpired
        · rw [if_neg hexpired]
          show Ends (if stored.toUInt64 + slidingTtlThrottleSeconds < time.toUInt64 then _ else _) s _ _
          by_cases hbump : stored.toUInt64 + slidingTtlThrottleSeconds < time.toUInt64
          · rw [if_pos hbump]
            exact ⟨stored, rfl, hexpired, (if_pos hbump).symm⟩
          · rw [if_neg hbump]
            exact ⟨stored, rfl, hexpired, (if_neg hbump).symm⟩
  · have hkey : ∃ e, makeLastUsedAtKey fid key = .error e := ⟨_, if_neg hlen⟩
    obtain ⟨e, he⟩ := hkey
    rw [getLastUsedAt, he]
    exact ⟨rfl, fun _ h => nomatch h⟩

/-! ## The requests -/

section requests
variable {db : RocksDB} {s : StoreState} [Crypto]

/-- **What a registration does.** One that fails has written nothing. -/
theorem mergeKeyAdd_ends (msg : Message) (isReplay : Bool) : Ends (mergeKeyAdd db msg isReplay) s
      (fun _ s' => ∃ data body, msg.data = some data ∧ data.body = some (.keyAddBody body) ∧
        KeyAdded db s data body s')
      fun _ s' => s' = s := by
  unfold mergeKeyAdd
  split
  next data hdata =>
    split
    next body hbody =>
      refine (silent_request _).ends_bind (fun _ => rfl) fun verified => ?_
      refine Silent.ends_ite (silent_checkRequestCustody _) fun _ => ?_
      refine (silent_request _).ends_bind (fun _ => rfl) fun recovered => ?_
      refine (silent_custodyOf _).ends_bind (fun _ => rfl) fun custody => ?_
      refine (silent_request _).ends_bind (fun _ => rfl) fun _ => ?_
      rw [ends_get_bind]
      split
      · rfl
      · rfl
      · refine ends_bind.2 ((priorRecord_ends data.fid verified.requestFid body.key).mono ?_ fun _ _ h => h)
        rintro prior s' ⟨hprior, rfl⟩
        have hregister (hcount : prior = none → ∃ count, getGaslessKeyCount db s'.txn data.fid = .ok count ∧
            count < maxGaslessKeysPerFid) :=
          @register_ends db s' msg data body prior verified.requestFid hprior hcount
            (.new (.mergeMessageBody msg (prior.bind (·.message)).toList))
        refine Ends.mono ?_ (fun _ s' (h : KeyAdded db _ data body s') => ⟨data, body, hdata, hbody, h⟩)
          fun _ _ h => h
        by_cases hnew : prior.isNone
        · rw [if_pos hnew, ends_get_bind]
          -- a new key: the counter is read before anything is staged
          cases hcount : getGaslessKeyCount db s'.txn data.fid with
          | error e => rfl
          | ok count =>
            rw [ends_registry_ok]
            refine ends_bind.2
              (ends_raise.2 ⟨fun _ hok => hregister fun _ => ⟨count, hcount, ?_⟩, fun _ _ => rfl⟩)
            rwa [except_mapError_eq_ok, ensure_eq_ok, decide_eq_true_eq] at hok
        · rw [if_neg hnew]
          exact hregister fun h => absurd (Option.isNone_iff_eq_none.2 h) hnew
    next => rfl
  next => rfl

/-- **What a removal does.** One that fails has written nothing if the counter of the fid can be read. -/
theorem mergeKeyRemove_ends (msg : Message) : Ends (mergeKeyRemove db msg) s
      (fun _ s' => ∃ data body, msg.data = some data ∧ data.body = some (.keyRemoveBody body) ∧
        KeyRemoved db s data body s')
      fun _ s' => s' = s ∨ ∃ fid, ¬ Countable db fid s := by
  unfold mergeKeyRemove
  split
  next data hdata =>
    split
    next body hbody =>
      rw [ends_get_bind]
      cases hrecord : getGaslessKeyRecord db s.txn data.fid body.key with
      | error e => exact .inl rfl
      | ok record =>
        rw [ends_registry_ok]
        cases record with
        | none => exact .inl rfl
        | some record =>
          refine Ends.mono ?_ (fun _ s' (h : KeyRemoved db s data body s') => ⟨data, body, hdata, hbody, h⟩)
            fun _ _ h => h
          refine (silent_request _).ends_bind (fun _ => .inl rfl) fun signatureType => ?_
          cases signatureType with
          | custody =>
            refine (silent_request _).ends_bind (fun _ => .inl rfl) fun recovered => ?_
            refine (silent_custodyOf _).ends_bind (fun _ => .inl rfl) fun custody => ?_
            refine (silent_request _).ends_bind (fun _ => .inl rfl) fun _ => ?_
            exact release_ends hrecord (.inl rfl) _
          | selfRevoke =>
            refine (silent_request _).ends_bind (fun _ => .inl rfl) fun _ => ?_
            exact release_ends hrecord (.inr rfl) _
    next => exact .inl rfl
  next => exact .inl rfl

end requests

end Hypersnap
