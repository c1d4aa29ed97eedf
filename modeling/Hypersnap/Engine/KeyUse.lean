import Hypersnap.Engine.Footprint
import Hypersnap.Store.KeyAtomicity

/-!
# `Engine.KeyUse` — what moves the time a key was last used

A gasless key lives as long as it is used: `validate_user_message` moves its `last_used_at` on to the time of
a message that it signed. This is staged before the message is merged, and stays staged when the store then
rejects the message. So a message that comes too late keeps its key alive although nothing is merged.

`keyUse_frame` says when the times move for merged messages and for requests about the key only: it is enough,
and for a single message necessary, that a message which moves the time of its key is taken by its store
(`MovesOnlyIfTaken`).
-/

namespace Hypersnap

open Overlay EState

variable {s : EngineState} {m : Message} {lastSeqnum : UInt64}

/-! ## What happens in a transaction -/

section definitions
variable [Platform] (env : EngineEnv)

def timeEntry (s : EngineState) (f : UInt32) (k : PublicKey) : Option DbValue :=
  getFromDbOrTxn env.db s.txn (RegistryKey.lastUsedAt f k).encode

def IsSignedBy (m : Message) (f : UInt32) (k : PublicKey) : Prop := m.fid.toUInt32 = f ∧ m.signer = k.1

/-- The message asks to add the key, or to remove it. -/
def IsKeyRequest (m : Message) (f : UInt32) (k : PublicKey) : Prop :=
  ∃ data, m.data = some data ∧ data.fid.toUInt32 = f ∧
    ((MessageType.tryFrom data.type = some .keyAdd ∧ ∃ body, data.body = some (.keyAddBody body) ∧
      body.key = k.1) ∨
      MessageType.tryFrom data.type = some .keyRemove ∧ ∃ body, data.body = some (.keyRemoveBody body) ∧
      body.key = k.1)

/-- The message is merged if it is merged in this state. -/
def Applies (m : Message) (s : EngineState) : Prop := ∃ events s', mergeMessage env m s = .ok events s'

/-- The user message is valid and is merged, if it is replayed in this state. -/
def Merges (version : EngineVersion) (timestamp : FarcasterTime) (m : Message) (s : EngineState) : Prop :=
  ∃ s', validateUserMessage env m timestamp version s = .ok () s' ∧ Applies env m s'

/-- The user messages of a transaction, each with the state in which it is replayed. -/
def userSteps (version : EngineVersion) (timestamp : FarcasterTime) :
    List Message → EngineState → List (Message × EngineState)
  | [], _ => []
  | m :: rest, s => (m, s) ::
    match replayUserMessage env version timestamp m s with
    | .ok _ s' => userSteps version timestamp rest s'
    | .error _ _ => []

/-- The message that an event of shard zero carries. -/
def BlockEvent.carried (event : BlockEvent) : Option Message :=
  match event.data.bind (·.body) with
  | some (.mergeMessageEventBody message) => message
  | _ => none

/-- The event of shard zero of this message is the next in line, and messages in events are merged. -/
def readsBlockEvent (version : EngineVersion) (event : BlockEvent) (lastSeqnum : UInt64) : Bool :=
  version.isEnabled .readDataFromShardZero && version.isEnabled .storageLending &&
    event.seqnum == some (lastSeqnum + 1)

/-- What is done before the message of an event of shard zero is merged. -/
def beforeCarried (version : EngineVersion) (message : ValidatorMessage) (event : BlockEvent) :
    EngineM EngineError (Except BlockEventStorageError Unit) := do
  let _ ← replayChainPart env version message
  let _ ← replayNamePart env message
  recover (inStores (putBlockEvent event))

/-- The message that a system message lets the stores merge, with the state in which it does. -/
def blockSteps (version : EngineVersion) (message : ValidatorMessage) (lastSeqnum : UInt64)
    (s : EngineState) : List (Message × EngineState) :=
  match message.blockEvent with
  | none => []
  | some event =>
    if !skipsTierPurchase version message && readsBlockEvent version event lastSeqnum then
      match beforeCarried env version message event s with
      | .ok _ s' => event.carried.toList.map (·, s')
      | .error _ _ => []
    else []

def systemSteps (version : EngineVersion) :
    List ValidatorMessage → UInt64 → EngineState → List (Message × EngineState)
  | [], _, _ => []
  | message :: rest, lastSeqnum, s => blockSteps env version message lastSeqnum s ++
    match replaySystemMessage env version message lastSeqnum s with
    | .ok first s' => systemSteps version rest first.lastSeqnum s'
    | .error _ _ => []

/-- What a transaction does before its user messages. -/
def beforeUserMessages (order : SetOrder) (txn : Transaction) (version : EngineVersion)
    (lastSeqnum : UInt64) :
    EngineM EngineError (SystemOutcome × List HubEvent) := do
  let system ← replaySystemMessages env version (sortSystemMessages txn.systemMessages) lastSeqnum
  let revoked ← revokeSigners env txn.fid (order.keys system.revokedSigners.dedup)
  pure (system, revoked)

section transaction
variable (order : SetOrder) (txn : Transaction) (version : EngineVersion) (timestamp : FarcasterTime)
  (lastSeqnum : UInt64) (s : EngineState)

/-- The user messages of the transaction, with the states in which they are replayed. -/
def txnUserSteps : List (Message × EngineState) :=
  match beforeUserMessages env order txn version lastSeqnum s, sortUserMessages txn.userMessages with
  | .ok _ s', some messages => userSteps env version timestamp messages s'
  | _, _ => []

/-- **The transaction uses the key or changes it**: it merges a user message that the key signed, or a request
    to add or to remove the key, which may also come from shard zero. -/
def UsesKey (f : UInt32) (k : PublicKey) : Prop :=
  (∃ p ∈ txnUserSteps env order txn version timestamp lastSeqnum s,
    Merges env version timestamp p.1 p.2 ∧ (IsSignedBy p.1 f k ∨ IsKeyRequest p.1 f k)) ∨
  ∃ p ∈ systemSteps env version (sortSystemMessages txn.systemMessages) lastSeqnum s,
    Applies env p.1 p.2 ∧ IsKeyRequest p.1 f k

end transaction

/-! ## The condition -/

/-- A use of the key at this time moves its last use: the key has not expired, and the last use is more than
    five minutes ago. -/
def UseMoves (db : RocksDB) (txn : RocksDbTransactionBatch) (fid : UInt64) (key : Bytes) (ttl time : UInt32)
    (now : UInt64) : Prop :=
  ∃ stored, getLastUsedAt db txn fid key = .ok (some stored) ∧ ¬ stored.toUInt64 + ttl.toUInt64 < now ∧
    stored.toUInt64 + slidingTtlThrottleSeconds < time.toUInt64

section condition
variable (version : EngineVersion) (timestamp : FarcasterTime) (m : Message) (s : EngineState)

/-- **The message moves the time of its key**: it is valid, and signed with a gasless key whose last use it
    moves. -/
def MovesTime : Prop :=
  ∃ data ttl, checkUserMessage env m timestamp version (readTxn version s.txn) = .ok (data, some ttl) ∧
    UseMoves env.db s.txn m.fid m.signer ttl m.timestamp timestamp.toU64

/-- The state with the new time staged. -/
def stamped : EngineState :=
  { s with
    txn := s.txn.put (makeGaslessKey .gaslessKeyLastUsedAt (makeFidKey m.fid ++ m.signer))
      (numberValue m.timestamp) }

/-- **The store of the message takes it**: nothing that it finds stands in the way, the keys of what it writes
    can be built, and there is a number left for the event. -/
def Taken : Prop :=
  ∃ type d found, (m.data.bind fun data => MessageType.tryFrom data.type) = some type ∧
    storeDefOf type = some d ∧ (env.store .legacy d).lookup env.db s.txn m = .ok found ∧
    ((env.store .legacy d).mergeScript found.1 m found.2).failure = none ∧
    ((env.store .legacy d).numbersEvent m = true → s.generator.Ready)

/-- **The condition on a user message**: if it moves the time of its key, then its store takes it. -/
def MovesOnlyIfTaken : Prop := MovesTime env version timestamp m s → Taken env m (stamped m s)

end condition

end definitions

/-! ## What keeps a time -/

/-- The counters of the registry are numbers, and the time of a key is as it was, unless the transaction uses
    the key. -/
def Untouched (db : RocksDB) (f : UInt32) (k : PublicKey) (w : Option (Option DbValue)) (U : Prop)
    (txn : RocksDbTransactionBatch) : Prop :=
  (∀ fid, ∃ count, getGaslessKeyCount db txn fid = .ok count) ∧
    (txn (RegistryKey.lastUsedAt f k).encode = w ∨ U)

section untouched
variable {db : RocksDB} {f : UInt32} {k : PublicKey} {w : Option (Option DbValue)} {U : Prop}

theorem keysOnly_untouched : KeysOnly (Untouched db f k w U) := by
  intro txn txn' hframe ⟨hcount, htime⟩
  refine ⟨fun fid => ?_, ?_⟩
  · obtain ⟨count, hcount⟩ := hcount fid
    have hget : getFromDbOrTxn db txn' (makeGaslessKeyCountByFidKey fid) =
        getFromDbOrTxn db txn (makeGaslessKeyCountByFidKey fid) := by
      unfold getFromDbOrTxn commit
      rw [hframe _ (not_not.2 rfl)]
    refine ⟨count, ?_⟩
    rw [← hcount]
    simp only [getGaslessKeyCount, getU32, hget]
  · rw [hframe _ (not_not.2 rfl)]
    exact htime

/-! ### Requests about keys -/

theorem registrySafe_untouched {fid : UInt64} {key : Bytes} (h : U ∨ ¬ (fid.toUInt32 = f ∧ key = k.1)) :
    RegistrySafe fid key (InBatch (Untouched db f k w U)) := by
  have hkinds : ∀ kind ∈ requestKinds, kind.toByte ≠ UserPostfix.gaslessKeyCountByFid.toByte ∧
      UserPostfix.gaslessKeyLastUsedAt.toByte ≠ kind.toByte := by decide
  have hcount : UserPostfix.gaslessKeyLastUsedAt.toByte ≠ UserPostfix.gaslessKeyCountByFid.toByte := by decide
  have hother (hne : ¬ (fid.toUInt32 = f ∧ key = k.1)) :
      (RegistryKey.lastUsedAt f k).encode ≠ makeGaslessKey .gaslessKeyLastUsedAt (makeFidKey fid ++ key) := by
    intro heq
    have hrest : toBeBytes f ++ k.1 = makeFidKey fid ++ key := (List.cons.inj (List.cons.inj heq).2).2
    obtain ⟨hfid, hkey⟩ := List.append_inj hrest (by simp)
    exact hne ⟨(toBeBytes_injective hfid).symm, hkey.symm⟩
  have hput {key : Bytes} {v : DbValue} {s : StoreState} (hs : InBatch (Untouched db f k w U) s)
      (hcounts : ∀ fid, Countable db fid (s.put key v))
        (hne : U ∨ (RegistryKey.lastUsedAt f k).encode ≠ key) :
      InBatch (Untouched db f k w U) (s.put key v) :=
    ⟨hcounts, hne.elim .inr fun hne => hs.2.imp_left fun ht => (put_of_ne s.txn key _ v hne).trans ht⟩
  have hdelete {key : Bytes} {s : StoreState} (hs : InBatch (Untouched db f k w U) s)
      (hcounts : ∀ fid, Countable db fid (s.delete key))
        (hne : U ∨ (RegistryKey.lastUsedAt f k).encode ≠ key) :
      InBatch (Untouched db f k w U) (s.delete key) :=
    ⟨hcounts, hne.elim .inr fun hne => hs.2.imp_left fun ht => (delete_of_ne s.txn key _ hne).trans ht⟩
  exact {
    put := fun hkind rest v s hs =>
      hput hs (fun fid' => Countable.put (hs.1 fid') (hkinds _ hkind).1)
        (.inr (makeGaslessKey_ne (hkinds _ hkind).2))
    delete := fun hkind rest s hs =>
      hdelete hs (fun fid' => Countable.delete (hs.1 fid') (hkinds _ hkind).1)
        (.inr (makeGaslessKey_ne (hkinds _ hkind).2))
    putTime := fun v s hs => hput hs (fun fid' => Countable.put (hs.1 fid') hcount) (h.imp_right hother)
    deleteTime :=
      fun s hs => hdelete hs (fun fid' => Countable.delete (hs.1 fid') hcount) (h.imp_right hother)
    putCount := fun fid' n s hs =>
      hput hs (fun fid'' => Countable.putCount (hs.1 fid'') fid' n) (.inr (makeGaslessKey_ne hcount))
    deleteCount := fun fid' s hs =>
      hdelete hs (fun fid'' => Countable.deleteCount (hs.1 fid'') fid') (.inr (makeGaslessKey_ne hcount)) }

end untouched

/-! ## Merging one message -/

section merging
variable [Platform] {env : EngineEnv} {f : UInt32} {k : PublicKey} {w : Option (Option DbValue)} {U : Prop}
  {m : Message} {s : EngineState}

omit [Platform] in
theorem return_inStores {ε α : Type} (x : StoreOp ε α) (s : EngineState) :
    (do return [← inStores x] : EngineM ε (List α)) s = match x s.stores with
      | .ok a t => .ok [a] (s.setStores t)
      | .error e t => .error e (s.setStores t) := by
  cases hx : x s.stores with
  | ok a t =>
    have hrun : inStores x s = .ok a (s.setStores t) := by simp only [inStores, zoom, hx]
    exact bind_of_ok hrun
  | error e t =>
    have hrun : inStores x s = .error e (s.setStores t) := by simp only [inStores, zoom, hx]
    exact bind_of_error hrun

variable (env) in
/-- The merge of a message that has no message store. -/
def mergeElsewhere (data : MessageData) (type : MessageType) (m : Message) :
    EngineM MessageValidationError (List HubEvent) :=
  match type with
  | .keyAdd => if gaslessEnabled env data then do return [← inStores (mergeKeyAdd env.db m true)]
    else throw (.err (.invalidMessageType type.toI32))
  | .keyRemove => if gaslessEnabled env data then do return [← inStores (mergeKeyRemove env.db m)]
    else throw (.err (.invalidMessageType type.toI32))
  | _ => throw (.err (.invalidMessageType type.toI32))

theorem mergeMessage_eq {data : MessageData} {type : MessageType} (hdata : m.data = some data)
    (htype : MessageType.tryFrom data.type = some type) :
    mergeMessage env m = match mergeIntoStore env .legacy type m with
      | some merge => inStores (merge.toOp .storeError)
      | none => mergeElsewhere env data type m := by
  unfold mergeMessage
  simp only [hdata, htype]
  cases mergeIntoStore env .legacy type m with
  | some merge => rfl
  | none => cases type <;> rfl

/-- A message of a common type is merged exactly if its store takes it. -/
theorem applies_iff_taken {data : MessageData} (hdata : m.data = some data)
    (htype : (MessageType.orDefault data.type).isKeyMessage = false)
    (hlend : MessageType.orDefault data.type ≠ .lendStorage) :
    Applies env m s ↔ Taken env m s := by
  have hbind : (m.data.bind fun data => MessageType.tryFrom data.type) =
      MessageType.tryFrom data.type := by rw [hdata]; rfl
  unfold Applies Taken
  rw [hbind]
  cases hfrom : MessageType.tryFrom data.type with
  | none =>
    have hmerge : mergeMessage env m s = .error (.err (.invalidMessageType data.type)) s := by
      unfold mergeMessage
      simp only [hdata, hfrom]
      rfl
    rw [hmerge]
    constructor
    · rintro ⟨_, _, ⟨⟩⟩
    · rintro ⟨_, _, _, ⟨⟩, -⟩
  | some type =>
    have horDefault : MessageType.orDefault data.type = type := by rw [MessageType.orDefault, hfrom]; rfl
    rw [horDefault] at htype hlend
    rw [mergeMessage_eq hdata hfrom]
    cases hd : storeDefOf type with
    | none =>
      constructor
      · rintro ⟨_, _, h⟩
        cases type <;> first | exact absurd rfl hlend | exact absurd htype (by decide) | cases h | cases hd
      · rintro ⟨_, _, _, ⟨⟩, hd', -⟩
        rw [hd] at hd'
        cases hd'
    | some d =>
      rw [mergeIntoStore_eq hd]
      have hrun : (∃ events s', inStores (StoreM.toOp MessageValidationError.storeError (do
          return [← (env.store .legacy d).merge env.db m])) s = .ok events s') ↔
          ∃ event t, (env.store .legacy d).merge env.db m s.stores = .ok event t := by
        cases hm : (env.store .legacy d).merge env.db m s.stores with
        | ok event t =>
          have hbind :
              (do return [← (env.store .legacy d).merge env.db m] : StoreM (List HubEvent)) s.stores =
            .ok [event] t := bind_of_ok hm
          simp [inStores, zoom, StoreM.toOp, mapError, hbind]
        | error e t =>
          have hbind :
              (do return [← (env.store .legacy d).merge env.db m] : StoreM (List HubEvent)) s.stores =
            .error e t := bind_of_error hm
          simp [inStores, zoom, StoreM.toOp, mapError, hbind]
      refine hrun.trans ((Store.merge_ok_iff _ _ _ _).trans ?_)
      constructor
      · rintro ⟨found, h⟩
        exact ⟨type, d, found, rfl, hd, h⟩
      · rintro ⟨_, _, found, ⟨⟩, hd', h⟩
        cases hd.symm.trans hd'
        exact ⟨found, h⟩

omit [Platform] in
/-- A request that fails has written nothing, and one that succeeds is safe for the times of all other
    keys. -/
theorem keyRequest_untouched {ε : Type} {x : StoreOp ε HubEvent} (hs : InTxn (Untouched env.db f k w U) s)
    (hends : Ends x s.stores (fun _ t => ∃ fid key,
      (RegistrySafe fid key (InBatch (Untouched env.db f k w U)) → InBatch (Untouched env.db f k w U) t) ∧
        (fid.toUInt32 = f → key = k.1 → IsKeyRequest m f k)) fun _ t => t = s.stores)
    (hU : (∃ events s', (do return [← inStores x] : EngineM ε (List HubEvent)) s = .ok events s') →
      IsKeyRequest m f k → U) :
    InTxn (Untouched env.db f k w U)
    (stateOf ((do return [← inStores x] : EngineM ε (List HubEvent)) s)) := by
  rw [return_inStores] at hU ⊢
  unfold Ends at hends
  cases hr : x s.stores with
  | error e t =>
    rw [hr] at hends
    exact hends ▸ hs
  | ok event t =>
    rw [hr] at hends hU
    obtain ⟨fid, key, hsafe, hrequest⟩ := hends
    refine hsafe (registrySafe_untouched (or_iff_not_imp_right.2 fun hmatch => ?_))
    exact hU ⟨_, _, rfl⟩ (hrequest (not_not.1 hmatch).1 (not_not.1 hmatch).2)

/-- **A merge touches the time of a key only if it is a request about the key** that succeeds. -/
theorem mergeMessage_untouched (hs : InTxn (Untouched env.db f k w U) s)
    (hU : Applies env m s → IsKeyRequest m f k → U) :
    InTxn (Untouched env.db f k w U) (stateOf (mergeMessage env m s)) := by
  cases hdata : m.data with
  | none =>
    unfold mergeMessage
    rw [hdata]
    exact hs
  | some data =>
    cases hfrom : MessageType.tryFrom data.type with
    | none =>
      unfold mergeMessage
      simp only [hdata, hfrom]
      exact hs
    | some type =>
      unfold Applies at hU
      rw [mergeMessage_eq hdata hfrom] at hU ⊢
      cases hmerge : mergeIntoStore env .legacy type m with
      | some merge => exact keeps_inStores (keeps_toOp (keeps_mergeIntoStore keysOnly_untouched hmerge)) s hs
      | none =>
        simp only [hmerge] at hU ⊢
        cases type with
        | keyAdd =>
          by_cases hgasless : gaslessEnabled env data = true
          · simp only [mergeElsewhere, if_pos hgasless] at hU ⊢
            refine keyRequest_untouched hs ((mergeKeyAdd_ends m true).mono ?_ fun _ _ h => h) hU
            rintro _ t ⟨data, body, hdata', hbody, hadded⟩
            cases hdata.symm.trans hdata'
            exact ⟨_, _, fun hsafe => hsafe.keyAdded hadded hs, fun hfid hkey =>
              ⟨data, hdata', hfid, .inl ⟨hfrom, body, hbody, hkey⟩⟩⟩
          · simp only [mergeElsewhere, if_neg hgasless]
            exact hs
        | keyRemove =>
          by_cases hgasless : gaslessEnabled env data = true
          · simp only [mergeElsewhere, if_pos hgasless] at hU ⊢
            -- the counters are numbers, so a removal does not fail half way
            refine keyRequest_untouched hs ((mergeKeyRemove_ends m).mono ?_ fun _ _ h =>
              h.resolve_right fun ⟨fid, hfid⟩ => hfid (hs.1 fid)) hU
            rintro _ t ⟨data, body, hdata', hbody, hremoved⟩
            cases hdata.symm.trans hdata'
            exact ⟨_, _, fun hsafe => hsafe.keyRemoved hremoved hs, fun hfid hkey =>
              ⟨data, hdata', hfid, .inr ⟨hfrom, body, hbody, hkey⟩⟩⟩
          · simp only [mergeElsewhere, if_neg hgasless]
            exact hs
        | _ => exact hs

end merging

/-! ## Checking one message -/

section checking
variable [Platform] {env : EngineEnv} {version : EngineVersion} {timestamp : FarcasterTime} {m : Message}
  {s : EngineState}

/-- **The one write of the checks** is the time of the key. -/
theorem validateUserMessage_ends : Ends (validateUserMessage env m timestamp version) s
      (fun _ s' => s' = s ∧ ¬ MovesTime env version timestamp m s ∨
        MovesTime env version timestamp m s ∧ s' = stamped m s)
      fun _ s' => s' = s ∧ ¬ MovesTime env version timestamp m s := by
  unfold validateUserMessage
  rw [ends_get_bind]
  cases hcheck : checkUserMessage env m timestamp version (readTxn version s.txn) with
  | error e =>
    refine ⟨rfl, ?_⟩
    rintro ⟨data, ttl, hcheck', -⟩
    rw [hcheck] at hcheck'
    cases hcheck'
  | ok checked =>
    obtain ⟨data, ttl⟩ := checked
    have hdata := (checked_of_ok env hcheck).data_eq
    have hfid : m.fid = data.fid := by rw [Message.fid, hdata]; rfl
    have htime : m.timestamp = data.timestamp := by rw [Message.timestamp, hdata]; rfl
    cases ttl with
    | none =>
      refine .inl ⟨rfl, ?_⟩
      rintro ⟨data', ttl', hcheck', -⟩
      rw [hcheck] at hcheck'
      cases hcheck'
    | some ttl =>
      have hmoves : MovesTime env version timestamp m s ↔
          UseMoves env.db s.txn data.fid m.signer ttl data.timestamp timestamp.toU64 := by
        rw [← hfid, ← htime]
        constructor
        · rintro ⟨data', ttl', hcheck', h⟩
          rw [hcheck] at hcheck'
          cases hcheck'
          exact h
        · exact fun h => ⟨data, ttl, hcheck, h⟩
      rw [hmoves, stamped, hfid, htime]
      show Ends (inStores
        (checkAndBumpLastUsedAt env.db data.fid m.signer ttl data.timestamp timestamp.toU64)) s _ _
      rw [inStores, ends_zoom]
      refine (checkAndBumpLastUsedAt_ends data.fid m.signer ttl data.timestamp timestamp.toU64).mono ?_ ?_
      · rintro _ t ⟨stored, hstored, hlive, rfl⟩
        split
        next hlater => exact .inr ⟨⟨stored, hstored, hlive, hlater⟩, rfl⟩
        next hrecent =>
          refine .inl ⟨rfl, ?_⟩
          rintro ⟨stored', hstored', -, hlater⟩
          cases hstored.symm.trans hstored'
          exact hrecent hlater
      · rintro _ t ⟨rfl, hexpired⟩
        refine ⟨rfl, ?_⟩
        rintro ⟨stored, hstored, hlive, -⟩
        exact hlive (hexpired stored hstored)

theorem MovesTime.validateUserMessage_eq (hmoves : MovesTime env version timestamp m s) :
    validateUserMessage env m timestamp version s = .ok () (stamped m s) := by
  have hends := @validateUserMessage_ends _ env version timestamp m s
  unfold Ends at hends
  cases hr : validateUserMessage env m timestamp version s with
  | error e s' =>
    rw [hr] at hends
    exact absurd hmoves hends.2
  | ok _ s' =>
    rw [hr] at hends
    rcases hends with ⟨-, hnot⟩ | ⟨-, rfl⟩
    · exact absurd hmoves hnot
    · rfl

end checking

/-! ## The replay -/

section replay
variable [Platform] {env : EngineEnv} {f : UInt32} {k : PublicKey} {w : Option (Option DbValue)} {U : Prop}
  {version : EngineVersion} {timestamp : FarcasterTime}

/-- However the computation ends, the time is as it was or the transaction uses the key. -/
abbrev LeavesTime {ε α : Type} (env : EngineEnv) (f : UInt32) (k : PublicKey) (w : Option (Option DbValue))
    (U : Prop) (x : EngineM ε α) (s : EngineState) : Prop :=
  Ends x s (fun _ s' => InTxn (Untouched env.db f k w U) s') fun _ s' => InTxn (Untouched env.db f k w U) s'

omit [Platform] in
theorem LeavesTime.untouched {ε α : Type} {x : EngineM ε α} (h : LeavesTime env f k w U x s) :
    InTxn (Untouched env.db f k w U) (stateOf (x s)) := h.stateOf.elim id id

omit [Platform] in
theorem timeEntry_eq : timeEntry env s f k = (s.txn (RegistryKey.lastUsedAt f k).encode).getD
    (env.db (RegistryKey.lastUsedAt f k).encode) := rfl

section
variable (h : MovesTime env version timestamp m s)
include h

theorem MovesTime.isKeyMessage_eq_false :
    ∃ data, m.data = some data ∧ (MessageType.orDefault data.type).isKeyMessage = false ∧
      MessageType.orDefault data.type ≠ .lendStorage := by
  obtain ⟨data, ttl, hcheck, -⟩ := h
  have hchecked := checked_of_ok env hcheck
  have hsigner := hchecked.signer
  refine ⟨data, hchecked.data_eq, ?_, hchecked.not_lend⟩
  unfold validateSigner at hsigner
  by_contra htype
  rw [Bool.not_eq_false] at htype
  simp only [htype, if_true] at hsigner
  split at hsigner <;> cases hsigner

theorem MovesTime.applies_iff {s' : EngineState} : Applies env m s' ↔ Taken env m s' := by
  obtain ⟨data, hdata, htype, hlend⟩ := h.isKeyMessage_eq_false
  exact applies_iff_taken hdata htype hlend

theorem MovesTime.not_isKeyRequest : ¬ IsKeyRequest m f k := by
  rintro ⟨data, hdata, -, hrequest⟩
  obtain ⟨data', hdata', htype, -⟩ := h.isKeyMessage_eq_false
  cases hdata.symm.trans hdata'
  rcases hrequest with ⟨hfrom, -⟩ | ⟨hfrom, -⟩ <;> rw [MessageType.orDefault, hfrom] at htype <;>
    exact absurd htype (by decide)

end

section
variable (hs : InTxn (Untouched env.db f k w U) s) {event : BlockEvent}
include hs

theorem mergeValidated_leaves (hU : Applies env m s → IsKeyRequest m f k → U) :
    LeavesTime env f k w U (do
      match ← recover (mergeMessage env m) with
      | .error err => recordFailure m err
      | .ok events =>
        mergeMessageHyper env m
        updateTrieAll env events
        pure ⟨events, [], [m.msgType]⟩ : EngineM EngineError UserOutcome) s := by
  have hmerge := mergeMessage_untouched hs hU
  refine ends_bind.2 (ends_recover.2 ?_)
  unfold Ends
  cases hr : mergeMessage env m s with
  | ok events s' =>
    rw [hr] at hmerge
    exact (keeps_afterMerge keysOnly_untouched m events _).ends hmerge
  | error e s' =>
    rw [hr] at hmerge
    cases e with
    | err e => exact (keeps_recordFailure keysOnly_untouched m e).ends hmerge
    | panic => exact hmerge

/-- **One user message leaves the time of a key**, unless it is merged, if it moves no time in vain. -/
theorem replayUserMessage_leaves (hU : Merges env version timestamp m s →
    IsSignedBy m f k ∨ IsKeyRequest m f k → U) (hcond : MovesOnlyIfTaken env version timestamp m s) :
    LeavesTime env f k w U (replayUserMessage env version timestamp m) s := by
  unfold replayUserMessage
  refine ends_bind.2 (ends_recover.2 ((ends_self.and validateUserMessage_ends).mono ?_ ?_))
  · rintro _ s₁ ⟨hvalid, hmoved⟩
    have hs₁ : InTxn (Untouched env.db f k w U) s₁ := by
      rcases hmoved with ⟨rfl, -⟩ | ⟨hmoves, rfl⟩
      · exact hs
      · have hsafe : RegistrySafe m.fid m.signer (InBatch (Untouched env.db f k w U)) := by
          refine registrySafe_untouched (or_iff_not_imp_right.2 fun hmatch => ?_)
          exact hU ⟨_, hvalid, hmoves.applies_iff.2 (hcond hmoves)⟩ (.inl (not_not.1 hmatch))
        exact hsafe.putTime _ s.stores hs
    exact mergeValidated_leaves hs₁ fun happlies hrequest => hU ⟨s₁, hvalid, happlies⟩ (.inr hrequest)
  · rintro e s₁ ⟨-, rfl, -⟩
    cases e with
    | err e => exact (keeps_recordFailure keysOnly_untouched m e).ends hs
    | panic => exact hs

theorem replayUserMessages_leaves {messages : List Message}
    (hU : ∀ p ∈ userSteps env version timestamp messages s, Merges env version timestamp p.1 p.2 →
      IsSignedBy p.1 f k ∨ IsKeyRequest p.1 f k → U)
    (hcond : ∀ p ∈ userSteps env version timestamp messages s,
      MovesOnlyIfTaken env version timestamp p.1 p.2) :
    LeavesTime env f k w U (replayUserMessages env version timestamp messages) s := by
  -- induction on the messages that are left
  induction messages generalizing s with
  | nil => exact hs
  | cons m rest ih =>
    simp only [userSteps, List.forall_mem_cons] at hU hcond
    unfold replayUserMessages
    refine (replayUserMessage_leaves hs hU.1 hcond.1).bind fun first s' hr hs' => ?_
    rw [hr] at hU hcond
    exact ends_bind.2 (ih hs' hU.2 hcond.2)

theorem handleBlockEvent_leaves
    (hU : ∀ m, event.carried = some m → Applies env m s → IsKeyRequest m f k → U) :
    LeavesTime env f k w U (handleBlockEvent env event) s := by
  unfold handleBlockEvent
  cases hdata : event.data with
  | none => exact hs
  | some data =>
    cases hbody : data.body with
    | none =>
      simp only [hbody]
      exact hs
    | some body =>
      simp only [hbody]
      cases body with
      | heartbeatEventBody => exact hs
      | mergeMessageEventBody message =>
        cases message with
        | none => exact hs
        | some m =>
          have hcarried :
              event.carried = some m := by rw [BlockEvent.carried, hdata]; simp only [Option.bind_some, hbody]
          have hmerge := mergeMessage_untouched hs (hU m hcarried)
          refine ends_bind.2 (ends_mapError.2 ?_)
          unfold Ends
          cases hr : mergeMessage env m s with
          | error e s' =>
            rw [hr] at hmerge
            exact hmerge
          | ok events s' =>
            rw [hr] at hmerge
            exact (keeps_afterMerge keysOnly_untouched m events _).ends hmerge

theorem replayBlockEvent_leaves (hU : ∀ r s' m, readsBlockEvent version event lastSeqnum = true →
      (recover (inStores (putBlockEvent event)) : EngineM EngineError _) s = .ok r s' →
      event.carried = some m → Applies env m s' → IsKeyRequest m f k → U) :
    LeavesTime env f k w U (replayBlockEvent env version event lastSeqnum) s := by
  unfold replayBlockEvent
  by_cases hreads : version.isEnabled .readDataFromShardZero = true
  swap
  · rw [if_neg hreads]
    exact hs
  rw [if_pos hreads]
  cases hseq : event.seqnum with
  | none => exact hs
  | some seqnum =>
    by_cases hnext : seqnum = lastSeqnum + 1
    swap
    · simp only [if_neg hnext]
      exact hs
    simp only [if_pos hnext]
    have hput : LeavesTime env f k w U (recover (inStores (putBlockEvent event)) : EngineM EngineError _) s :=
      (keeps_inStores (keysOnly_untouched.keeps_putBlockEvent event)).recover.ends hs
    refine hput.bind fun r s' hr hs' => ?_
    by_cases hlend : version.isEnabled .storageLending = true
    swap
    · simp only [if_neg hlend]
      cases r <;> exact hs'
    simp only [if_pos hlend]
    have hevent := handleBlockEvent_leaves hs' fun m hcarried happlies hrequest =>
      hU r s' m (by simp [readsBlockEvent, hreads, hlend, hseq, hnext]) hr hcarried happlies hrequest
    cases r <;>
    · refine ends_bind.2
        (ends_pure.2 (ends_bind.2 (ends_recover.2 (hevent.mono (fun _ _ h => h) fun e _ h => ?_))))
      cases e <;> exact h

theorem replaySystemMessage_leaves {message : ValidatorMessage}
    (hU : ∀ p ∈ blockSteps env version message lastSeqnum s, Applies env p.1 p.2 → IsKeyRequest p.1 f k → U) :
    LeavesTime env f k w U (replaySystemMessage env version message lastSeqnum) s := by
  have hchain : Keeps (InTxn (Untouched env.db f k w U)) (replayChainPart env version message) := by
    unfold replayChainPart
    split
    · exact keeps_replayOnchainEvent keysOnly_untouched version _
    · exact .pure _
  have hname : Keeps (InTxn (Untouched env.db f k w U)) (replayNamePart env message) := by
    unfold replayNamePart
    split
    · exact keeps_replayFnameTransfer keysOnly_untouched _
    · exact .pure _
  rw [replaySystemMessage]
  by_cases hskip : skipsTierPurchase version message = true
  · rw [if_pos hskip]
    exact hs
  rw [if_neg hskip]
  refine (hchain.ends hs).bind fun chain s₁ hr₁ hs₁ => ?_
  refine (hname.ends hs₁).bind fun names s₂ hr₂ hs₂ => ?_
  refine ends_bind.2 ?_
  unfold blockSteps at hU
  unfold replayBlockPart
  cases hevent : message.blockEvent with
  | none => exact hs₂
  | some event =>
    simp only [hevent] at hU
    refine replayBlockEvent_leaves hs₂ fun r s' m hreads hr hcarried happlies hrequest => ?_
    have hbefore : beforeCarried env version message event s = .ok r s' := by
      unfold beforeCarried
      rw [bind_of_ok hr₁, bind_of_ok hr₂]
      exact hr
    refine hU (m, s') ?_ happlies hrequest
    simp [hskip, hreads, hbefore, hcarried]

theorem replaySystemMessages_leaves {messages : List ValidatorMessage}
    (hU : ∀ p ∈ systemSteps env version messages lastSeqnum s, Applies env p.1 p.2 →
      IsKeyRequest p.1 f k → U) :
    LeavesTime env f k w U (replaySystemMessages env version messages lastSeqnum) s := by
  -- induction on the messages that are left
  induction messages generalizing s lastSeqnum with
  | nil => exact hs
  | cons message rest ih =>
    simp only [systemSteps, List.forall_mem_append] at hU
    unfold replaySystemMessages
    refine (replaySystemMessage_leaves hs hU.1).bind fun first s' hr hs' => ?_
    rw [hr] at hU
    exact ends_bind.2 (ih hs' hU.2)

end

/-- **A transaction leaves the time of a key** that it does not use, if no message moves a time in vain. -/
theorem replaySnapchainTxn_leaves {order : SetOrder} {txn : Transaction}
    (hcount : ∀ fid, Countable env.db fid s.stores)
    (hcond : ∀ p ∈ txnUserSteps env order txn version timestamp lastSeqnum s,
      MovesOnlyIfTaken env version timestamp p.1 p.2) :
    LeavesTime env f k (s.txn (RegistryKey.lastUsedAt f k).encode)
      (UsesKey env order txn version timestamp lastSeqnum s f k)
      (replaySnapchainTxn env order txn version timestamp lastSeqnum) s := by
  have hs : InTxn (Untouched env.db f k (s.txn (RegistryKey.lastUsedAt f k).encode)
    (UsesKey env order txn version timestamp lastSeqnum s f k)) s := ⟨hcount, .inl rfl⟩
  have hsystem :=
    replaySystemMessages_leaves hs fun p hp happlies hrequest => .inr ⟨p, hp, happlies, hrequest⟩
  unfold replaySnapchainTxn
  refine hsystem.bind fun system s₁ hr₁ hs₁ => ?_
  refine ((keeps_revokeSigners keysOnly_untouched _ _).ends hs₁).bind fun revoked s₂ hr₂ hs₂ => ?_
  have hbefore : beforeUserMessages env order txn version lastSeqnum s = .ok (system, revoked) s₂ := by
    unfold beforeUserMessages
    rw [bind_of_ok hr₁, bind_of_ok hr₂]
    rfl
  cases hsort : sortUserMessages txn.userMessages with
  | none => exact hs₂
  | some messages =>
    have hsteps : txnUserSteps env order txn version timestamp lastSeqnum s =
        userSteps env version timestamp messages s₂ := by
      unfold txnUserSteps
      rw [hbefore, hsort]
    have huser := replayUserMessages_leaves hs₂
      (fun p hp hmerges hsigned => .inl ⟨p, hsteps.symm ▸ hp, hmerges, hsigned⟩) fun p hp => hcond p
        (hsteps.symm ▸ hp)
    refine huser.bind fun user s₃ _ hs₃ => ?_
    refine ((keeps_pruneTypes keysOnly_untouched _ _ _).ends hs₃).bind fun pruned s₄ _ hs₄ => ?_
    exact ends_bind.2 ((keeps_replaySideEffects keysOnly_untouched _ _).ends hs₄)

theorem MovesTime.timeEntry_ne (hmoves : MovesTime env version timestamp m s)
    (hcount : ∀ fid, Countable env.db fid s.stores) : ∃ k : PublicKey, IsSignedBy m m.fid.toUInt32 k ∧
      timeEntry env (stateOf (replayUserMessage env version timestamp m s)) m.fid.toUInt32 k ≠
        timeEntry env s m.fid.toUInt32 k := by
  obtain ⟨data, ttl, hcheck, stored, hstored, hfresh, hlater⟩ := id hmoves
  have hlen : m.signer.length = ed25519PublicKeyLen := by
    by_contra hlen
    simp only [getLastUsedAt, makeLastUsedAtKey, makePublicKeyKey, if_neg hlen] at hstored
    cases hstored
  refine ⟨⟨m.signer, hlen⟩, ⟨rfl, rfl⟩, ?_⟩
  -- after the checks, nothing touches the new time
  have hafter :
      InTxn (Untouched env.db m.fid.toUInt32 ⟨m.signer, hlen⟩ (some (some (numberValue m.timestamp))) False)
      (stateOf (replayUserMessage env version timestamp m s)) := by
    have hrecover : (recover (validateUserMessage env m timestamp version) : EngineM EngineError _) s =
        .ok (.ok ()) (stamped m s) := by
      unfold recover
      rw [hmoves.validateUserMessage_eq]
    unfold replayUserMessage
    rw [bind_of_ok hrecover]
    refine LeavesTime.untouched (mergeValidated_leaves ⟨fun fid => (hcount fid).put (by decide), .inl ?_⟩
      fun _ hrequest => hmoves.not_isKeyRequest hrequest)
    exact put_self _ _ _
  have hnew :
      timeEntry env (stateOf (replayUserMessage env version timestamp m s)) m.fid.toUInt32 ⟨m.signer, hlen⟩ =
      some (numberValue m.timestamp) := by
    rw [timeEntry_eq, hafter.2.resolve_right id]
    rfl
  rw [hnew]
  intro hsame
  -- the old time would be the new one
  have hread : getLastUsedAt env.db s.txn m.fid m.signer = .ok (some m.timestamp) := by
    have hkey : makeLastUsedAtKey m.fid m.signer =
        .ok (RegistryKey.lastUsedAt m.fid.toUInt32 ⟨m.signer, hlen⟩).encode :=
      if_pos hlen
    rw [getLastUsedAt, hkey]
    exact @getU32_eq env.db s.stores "last_used_at value" _ (some m.timestamp) hsame.symm
  rw [hstored] at hread
  cases hread
  rw [UInt64.lt_iff_toNat_lt, UInt64.toNat_add] at hlater
  simp [slidingTtlThrottleSeconds] at hlater
  have := m.timestamp.toNat_lt
  omega

end replay

/-- **When the times of keys move with merged messages only.** In any state whose counters are numbers: (1) if
    every user message of a transaction that moves the time of its key is taken by its store, then the
    transaction changes the time of a key only if it merges a message that the key signed, or a request to add
    or remove it. (2) A single user message changes the time of a key only if it is merged, exactly if it is
    such a message. -/
theorem keyUse_frame [Platform] (env : EngineEnv) (version : EngineVersion) (timestamp : FarcasterTime) :
    (∀ order txn lastSeqnum s, (∀ fid, Countable env.db fid s.stores) →
      (∀ p ∈ txnUserSteps env order txn version timestamp lastSeqnum s,
        MovesOnlyIfTaken env version timestamp p.1 p.2) →
      ∀ f k, timeEntry env (stateOf (replaySnapchainTxn env order txn version timestamp lastSeqnum s)) f k ≠
        timeEntry env s f k →
        UsesKey env order txn version timestamp lastSeqnum s f k) ∧ ∀ m s,
        (∀ fid, Countable env.db fid s.stores) →
      ((∀ f k, timeEntry env (stateOf (replayUserMessage env version timestamp m s)) f k ≠
        timeEntry env s f k →
        Merges env version timestamp m s ∧ (IsSignedBy m f k ∨ IsKeyRequest m f k)) ↔
        MovesOnlyIfTaken env version timestamp m s) := by
  refine ⟨fun order txn lastSeqnum s hcount hcond f k hne => ?_,
    fun m s hcount => ⟨fun hframe hmoves => ?_, ?_⟩⟩
  · have hleaves := (replaySnapchainTxn_leaves (f := f) (k := k) hcount hcond).untouched
    refine hleaves.2.resolve_left fun hsame => hne ?_
    rw [timeEntry_eq, timeEntry_eq, hsame]
  · obtain ⟨k, -, hne⟩ := hmoves.timeEntry_ne hcount
    obtain ⟨⟨s', hvalid, happlies⟩, -⟩ := hframe _ k hne
    cases hmoves.validateUserMessage_eq.symm.trans hvalid
    exact hmoves.applies_iff.1 happlies
  · intro hcond f k hne
    have hleaves :=
      (replayUserMessage_leaves (f := f) (k := k) (w := s.txn (RegistryKey.lastUsedAt f k).encode)
      (U := Merges env version timestamp m s ∧ (IsSignedBy m f k ∨ IsKeyRequest m f k)) ⟨hcount, .inl rfl⟩
      (fun hmerges hsigned => ⟨hmerges, hsigned⟩) hcond).untouched
    refine hleaves.2.resolve_left fun hsame => hne ?_
    rw [timeEntry_eq, timeEntry_eq, hsame]

/-! ### A message that comes too late -/

def sampleUserKey : PublicKey := ⟨sampleGaslessKey, rfl⟩

def sampleCastRemove (timestamp : UInt32) (signer : Bytes) : Message where
  data := some ⟨MessageType.castRemove.toI32, 5, timestamp, 1, some (.castRemoveBody (List.replicate 20 0))⟩
  hash := List.replicate 20 timestamp.toUInt8
  hashScheme := blake3
  signature := [1]
  signatureScheme := ed25519
  signer := signer
  dataBytes := none

/-- The registration of the key for removals of casts. -/
def sampleScopedKeyAdd : Message where
  data := some ⟨MessageType.keyAdd.toI32, 5, 10, 1,
    some (.keyAddBody ⟨sampleGaslessKey, 1, [], 1000, 1, [1], 1, [MessageType.castRemove.toI32], 100000⟩)⟩
  hash := List.replicate 20 10
  hashScheme := blake3
  signature := []
  signatureScheme := ed25519
  signer := []
  dataBytes := none

/-- Fid 5 has the key, last used at time 10. -/
def sampleUseDb : RocksDB := fun k =>
  if k = makeGaslessKey .gaslessKeyByFid (makeFidKey 5 ++ sampleGaslessKey) then
    some (.gaslessKeyRecord ⟨some sampleScopedKeyAdd, 5⟩)
  else if k = makeGaslessKey .gaslessKeyLastUsedAt (makeFidKey 5 ++ sampleGaslessKey) then
    some (numberValue 10)
  else sampleKeyDb k

/-- Fid 5 has also removed the cast, at time 1001 and with another signer. -/
def sampleRemovedDb : RocksDB := fun k =>
  if k = makeMessagePrimaryKey RootPrefix.user.toByte 5 UserPostfix.castMessage.toByte
    (toBeBytes 1001 ++ List.replicate 20 233)
  then some (messageEncode (sampleCastRemove 1001 [2]))
  else if k = makeIndexKey .legacy 5 .castRemoves (List.replicate 20 0) then
    some (.bytes (toBeBytes 1001 ++ List.replicate 20 233))
  else sampleUseDb k

def sampleUseEnv (db : RocksDB) : EngineEnv where
  shardId := 1
  network := .mainnet
  db := db
  now := 0

@[reducible] def sampleUsePlatform : Platform := samplePlatform (keyScan [])

/-- An empty batch, and the trie of a new shard. -/
def sampleUseState : EngineState :=
  ⟨Batch.empty, ⟨1, 0⟩, ⟨1, 0⟩, (MerkleTrie.new.initializeTrie fun _ => none).1⟩

/-- A message of the key. -/
def sampleUse : Message := sampleCastRemove 1000 sampleGaslessKey

def sampleUseTxn : Transaction := ⟨5, [sampleUse], [], []⟩

def timeBytes (env : EngineEnv) (s : EngineState) (f : UInt32) (k : PublicKey) : Option Bytes :=
  match timeEntry env s f k with
  | some (.bytes b) => some b
  | _ => none

theorem timeEntry_ne_of_timeBytes_ne {env : EngineEnv} {s' : EngineState} {f : UInt32} {k : PublicKey}
    (h : timeBytes env s f k ≠ timeBytes env s' f k) : timeEntry env s f k ≠ timeEntry env s' f k := by
  intro heq
  apply h
  simp only [timeBytes, heq]

theorem txnUserSteps_sampleUseTxn (db : RocksDB) :
    @txnUserSteps sampleUsePlatform (sampleUseEnv db) .ofInsertion sampleUseTxn .v16 ⟨1001⟩ 0 sampleUseState =
      [(sampleUse, sampleUseState)] := by
  have hbefore : @txnUserSteps sampleUsePlatform (sampleUseEnv db) .ofInsertion sampleUseTxn .v16
      ⟨1001⟩ 0 sampleUseState =
      @userSteps sampleUsePlatform (sampleUseEnv db) .v16 ⟨1001⟩ [sampleUse] sampleUseState := rfl
  simp only [hbefore, userSteps]
  cases @replayUserMessage sampleUsePlatform (sampleUseEnv db) .v16 ⟨1001⟩ sampleUse sampleUseState <;> rfl

/-- The cast is still there: the message is merged, and the time moves. -/
theorem keyUse_frame_merged :
    let _ := sampleUsePlatform
    UsesKey (sampleUseEnv sampleUseDb) .ofInsertion sampleUseTxn .v16
      ⟨1001⟩ 0 sampleUseState 5 sampleUserKey := by
  intro platform
  let env := sampleUseEnv sampleUseDb
  have hcount (fid : UInt64) : Countable env.db fid sampleUseState.stores := by
    refine ⟨0, ?_⟩
    have hother (kind : UserPostfix) (rest : Bytes)
      (hkind : UserPostfix.gaslessKeyCountByFid.toByte ≠ kind.toByte) :
      makeGaslessKeyCountByFidKey fid ≠ makeGaslessKey kind rest := makeGaslessKey_ne hkind
    have hnone :
        getFromDbOrTxn env.db sampleUseState.stores.txn (makeGaslessKeyCountByFidKey fid) = none := by
      change sampleUseDb (makeGaslessKeyCountByFidKey fid) = none
      rw [sampleUseDb, if_neg (hother _ _ (by decide)), if_neg (hother _ _ (by decide))]
      exact sampleKeyDb_noKeys (makeGaslessKeyCountByFidKey fid) rfl
    rw [getGaslessKeyCount, getU32, hnone]
    rfl
  have htaken : Taken env sampleUse (stamped sampleUse sampleUseState) := by
    have hfound : ((env.store .legacy castStoreDef).lookup env.db (stamped sampleUse sampleUseState).txn
      sampleUse).toOption.any (fun found => ((env.store .legacy castStoreDef).mergeScript found.1 sampleUse
        found.2).failure.isNone) = true := by decide +kernel
    obtain ⟨found, hlookup, hnone⟩ := (Option.any_eq_true _ _).1 hfound
    exact ⟨.castRemove, castStoreDef, found, rfl, rfl, except_eq_ok_of_toOption hlookup,
      Option.isNone_iff_eq_none.1 hnone, fun _ => by decide⟩
  refine (keyUse_frame env .v16 ⟨1001⟩).1 .ofInsertion sampleUseTxn 0 sampleUseState hcount ?_ 5
    sampleUserKey ?_
  · intro p hp
    rw [txnUserSteps_sampleUseTxn, List.mem_singleton] at hp
    rw [hp]
    exact fun _ => htaken
  · exact timeEntry_ne_of_timeBytes_ne (by decide +kernel)

/-- The cast has been removed by a later message: the store rejects the message of the key, and the time of
    the key moves although nothing that it signed is merged. -/
theorem keyUse_of_rejected :
    let _ := sampleUsePlatform
    let env := sampleUseEnv sampleRemovedDb
    timeEntry env (stateOf (replaySnapchainTxn env .ofInsertion sampleUseTxn .v16 ⟨1001⟩ 0 sampleUseState)) 5
      sampleUserKey ≠
        timeEntry env sampleUseState 5 sampleUserKey ∧
      ¬ UsesKey env .ofInsertion sampleUseTxn .v16 ⟨1001⟩ 0 sampleUseState 5 sampleUserKey := by
  intro platform env
  refine ⟨timeEntry_ne_of_timeBytes_ne (by decide +kernel), ?_⟩
  have hrejected : (match validateUserMessage env sampleUse ⟨1001⟩ .v16 sampleUseState with
      | .ok _ s => (match mergeMessage env sampleUse s with | .ok _ _ => false | .error _ _ => true)
      | .error _ _ => true) = true := by decide +kernel
  rintro (⟨p, hp, ⟨s', hvalid, events, s'', hmerge⟩, -⟩ | ⟨p, hp, -⟩)
  · rw [txnUserSteps_sampleUseTxn, List.mem_singleton] at hp
    subst hp
    rw [hvalid] at hrejected
    simp only [hmerge] at hrejected
    cases hrejected
  · cases hp

end Hypersnap
