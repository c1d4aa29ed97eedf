import Hypersnap.Store.Atomicity
import Hypersnap.Store.BlockEvents
import Hypersnap.Store.Instances
import Hypersnap.Store.KeyRequests
import Hypersnap.Store.Names
import Hypersnap.Store.StorageLend

/-!
# `Store.Footprint` — what leaves the registered keys alone

Only requests about keys, and the use of a key, write to the table of registered keys. Message stores write
records, entries of their indices and hub events (`StoreDef.Aside`), and what is no message store (on-chain
events, names of the name server, events of shard zero) has tables of its own. So every such operation keeps
what depends on the registered keys only (`KeysOnly`), also when it fails half way. What requests about one
key keep is said by `RegistrySafe`.
-/

namespace Hypersnap

open Overlay EState

/-- A key of another table than that of the registered keys. -/
def OffKeys (key : Bytes) : Prop := key[0]? ≠ some RootPrefix.gaslessKey.toByte

/-- A property of the batch that depends on the table of registered keys only. -/
def KeysOnly (P : RocksDbTransactionBatch → Prop) : Prop :=
  ∀ {txn txn' : RocksDbTransactionBatch}, (∀ key, ¬ OffKeys key → txn' key = txn key) → P txn → P txn'

/-- The property of the batch, on the state of a store. -/
def InBatch (P : RocksDbTransactionBatch → Prop) (s : StoreState) : Prop := P s.txn

section writes
variable {P : RocksDbTransactionBatch → Prop} {key : Bytes} {s : StoreState} {p : RootPrefix}

theorem KeysOnly.put (h : KeysOnly P) (hkey : OffKeys key) (v : DbValue) (hs : InBatch P s) :
    InBatch P (s.put key v) :=
  h (fun _ hkey' => put_of_ne _ _ _ _ fun heq => hkey' (heq ▸ hkey)) hs

theorem KeysOnly.delete (h : KeysOnly P) (hkey : OffKeys key) (hs : InBatch P s) : InBatch P (s.delete key) :=
  h (fun _ hkey' => delete_of_ne _ _ _ fun heq => hkey' (heq ▸ hkey)) hs

theorem offKeys_of_root (hp : p.toByte ≠ RootPrefix.gaslessKey.toByte) (hkey : key[0]? = some p.toByte) :
    OffKeys key := by
  intro heq
  rw [hkey] at heq
  exact hp (Option.some.inj heq)

theorem offKeys_of_store (hp : p.isSecondary = true ∨ p = .user) {ctx : StateContext}
    (hkey : key[0]? = some (ctx.rootPrefix p)) : OffKeys key := by
  have hne : ctx.rootPrefix p ≠ RootPrefix.gaslessKey.toByte := by
    rcases hp with hp | rfl
    · cases ctx <;> cases p <;> first | exact absurd hp (by decide) | decide
    · cases ctx <;> decide
  intro heq
  rw [hkey] at heq
  exact hne (Option.some.inj heq)

end writes

/-! ## Message stores -/

/-- No index of the store uses a registered key, whatever the message. -/
structure StoreDef.Aside (d : StoreDef) : Prop where
  add : ∀ {m ctx key}, d.makeAddKey m ctx = .ok key → OffKeys key
  remove : ∀ {m ctx key}, d.makeRemoveKey m ctx = .ok key → OffKeys key
  compact : ∀ {m ctx key}, d.makeCompactStateAddKey m ctx = .ok key → OffKeys key
  entry : ∀ {tsHash m ctx entries}, d.secondaryIndices tsHash m ctx = .ok entries → ∀ e ∈ entries, OffKeys e.1
  entryKey : ∀ {tsHash m ctx keys}, d.secondaryIndexKeys tsHash m ctx = .ok keys → ∀ key ∈ keys, OffKeys key

namespace Store

/-- Whatever the step writes, it is no registered key. -/
def OffStep (step : Except Failure (List (Bytes × Option DbValue))) : Prop :=
  ∀ ws, step = .ok ws → ∀ w ∈ ws, OffKeys w.1

section scripts
variable {store : Store} {m : Message} {key : Except Failure Bytes}

theorem offStep_map {α : Type} {x : Except Failure α} {f : α → List (Bytes × Option DbValue)}
    (h : ∀ a, x = .ok a → ∀ w ∈ f a, OffKeys w.1) : OffStep (x.map f) := by
  rintro ws hws w hw
  cases x with
  | error e => cases hws
  | ok a =>
    cases hws
    exact h a rfl w hw

theorem offStep_delete (hkey : ∀ k, key = .ok k → OffKeys k) : OffStep (deleteStep key) :=
  offStep_map fun k hk => List.forall_mem_singleton.2 (hkey k hk)

theorem offStep_put {v : DbValue} (hkey : ∀ k, key = .ok k → OffKeys k) : OffStep (putStep v key) :=
  offStep_map fun k hk => List.forall_mem_singleton.2 (hkey k hk)

theorem offKeys_primary {k : Bytes} (h : primaryKeyOf store.userPrefix m = .ok k) : OffKeys k :=
  offKeys_of_store (.inr rfl) (primaryKeyOf_root h)

variable (hd : store.storeDef.Aside)
include hd

theorem offKeys_compact (k : Bytes) (h : store.compactStateKey m = .ok k) : OffKeys k := by
  unfold compactStateKey at h
  split at h
  · exact hd.compact h
  · cases h

theorem deleteAddScript_off (tsHash : Bytes) : ∀ step ∈ store.deleteAddScript tsHash m, OffStep step := by
  simp only [deleteAddScript, List.forall_mem_cons, List.not_mem_nil, false_imp_iff, implies_true, and_true]
  refine ⟨offStep_map fun keys hkeys => ?_, offStep_delete fun _ =>
    hd.add, offStep_delete fun _ => offKeys_primary⟩
  exact List.forall_mem_map.2 (hd.entryKey hkeys)

theorem deleteRemoveScript_off : ∀ step ∈ [deleteStep (store.storeDef.makeRemoveKey m store.stateContext),
    deleteStep (primaryKeyOf store.userPrefix m)], OffStep step := by
  simp only [List.forall_mem_cons, List.not_mem_nil, false_imp_iff, implies_true, and_true]
  exact ⟨offStep_delete fun _ => hd.remove, offStep_delete fun _ => offKeys_primary⟩

theorem deleteScript_off : ∀ step ∈ store.deleteScript m, OffStep step := by
  unfold deleteScript
  rw [List.forall_mem_append]
  constructor
  · split
    · exact List.forall_mem_singleton.2 (offStep_delete (offKeys_compact hd))
    · split
      · split
        · exact deleteAddScript_off hd _
        · exact List.forall_mem_singleton.2 fun _ h => nomatch h
      · exact List.forall_mem_nil _
  · split
    · exact deleteRemoveScript_off hd
    · exact List.forall_mem_nil _

theorem putScript_off (tsHash : Bytes) : ∀ step ∈ store.putScript tsHash m, OffStep step := by
  unfold putScript
  split
  · exact List.forall_mem_singleton.2 (offStep_put (offKeys_compact hd))
  · split
    · simp only [List.forall_mem_cons, List.not_mem_nil, false_imp_iff, implies_true, and_true]
      refine ⟨offStep_put fun _ => offKeys_primary, offStep_put fun _ =>
        hd.add, offStep_map fun entries hentries => ?_⟩
      exact List.forall_mem_map.2 (hd.entry hentries)
    · simp only [List.forall_mem_cons, List.not_mem_nil, false_imp_iff, implies_true, and_true]
      refine ⟨?_, offStep_put fun _ => hd.remove⟩
      split
      · exact offStep_put fun _ => offKeys_primary
      · exact fun _ h => nomatch h

end scripts

section keeps
variable {P : RocksDbTransactionBatch → Prop} (h : KeysOnly P)
include h

theorem keeps_runScript {script : StoreScript} (hoff : ∀ step ∈ script, OffStep step) :
    Keeps (InBatch P) (runScript script) := by
  have hwrites : ∀ (ws : List (Bytes × Option DbValue)), (∀ w ∈ ws, OffKeys w.1) → ∀ s, InBatch P s →
      InBatch P (s.writeAll ws) := by
    intro ws
    induction ws with
    | nil => exact fun _ s hs => hs
    | cons w ws ih =>
      intro hws s hs
      have hfirst : InBatch P { s with txn := Function.update s.txn w.1 (some w.2) } := by
        refine h (fun key hkey => Function.update_of_ne ?_ _ _) hs
        rintro rfl
        exact hkey (hws w (.head _))
      exact ih (fun w' hw' => hws w' (.tail _ hw')) _ hfirst
  induction script with
  | nil => exact .pure _
  | cons step rest ih =>
    rw [List.forall_mem_cons] at hoff
    exact .fromExcept_bind fun ws hws => .bind (.modify (hwrites ws (hoff.1 ws hws))) fun _ => ih hoff.2

theorem keeps_commitTransaction (noPersist : Bool) (event : HubEvent) :
    Keeps (InBatch P) (commitTransaction noPersist event) := by
  intro s hs
  unfold commitTransaction
  rw [bind_of_ok (show (get : StoreM StoreState) s = .ok s s from rfl)]
  cases s.generator.generateId event with
  | error e => exact hs
  | ok r =>
    cases noPersist with
    | true => exact hs
    | false =>
      exact h.put (s := { s with generator := r.2 }) (offKeys_of_root (p := .hubEvents) (by decide) rfl) _ hs

omit h in
theorem keeps_attempt {α : Type} {x : StoreM α} (hx : Keeps (InBatch P) x) :
    Keeps (InBatch P) (attempt x) := by
  intro s hs
  have hs' := hx s hs
  unfold attempt
  rcases hr : x s with ⟨a, s'⟩ | ⟨_ | _, s'⟩ <;> rw [hr] at hs' <;> exact hs'

variable {store : Store} {m : Message} (hd : store.storeDef.Aside)
include hd

theorem keeps_merge [Prost] [DbIterator] (db : RocksDB) : Keeps (InBatch P) (store.merge db m) := by
  intro s hs
  rw [store.merge_eq_stage]
  split
  · exact hs
  next tsHash conflicts _ =>
    refine (Keeps.bind (keeps_runScript h ?_) fun _ => ?_ : Keeps (InBatch P)
      (store.stageMerge tsHash m conflicts)) s hs
    · refine List.forall_mem_append.2 ⟨fun step hstep => ?_, putScript_off hd tsHash⟩
      obtain ⟨c, -, hstep⟩ := List.mem_flatMap.1 hstep
      exact deleteScript_off hd step hstep
    · exact .ite (keeps_commitTransaction h _ _) (.pure _)

/-! ### Revoking and pruning -/

theorem keeps_deleteCompactState : Keeps (InBatch P) (store.deleteCompactStateTransaction m) := by
  rw [deleteCompactStateTransaction_eq_runScript]
  exact keeps_runScript h (List.forall_mem_singleton.2 (offStep_delete (offKeys_compact hd)))

theorem keeps_deleteAdd (tsHash : Bytes) : Keeps (InBatch P) (store.deleteAddTransaction tsHash m) := by
  rw [deleteAddTransaction_eq_runScript]
  exact keeps_runScript h (deleteAddScript_off hd tsHash)

theorem keeps_deleteRemove
    (hr : (store.storeDef.removeTypeSupported && store.storeDef.isRemoveType m) = true) :
    Keeps (InBatch P) (store.deleteRemoveTransaction m) := by
  rw [store.deleteRemoveTransaction_eq_runScript m (Bool.and_eq_true_iff.1 hr).1]
  exact keeps_runScript h (deleteRemoveScript_off hd)

theorem keeps_revoke : Keeps (InBatch P) (store.revoke m) := by
  have hevent := fun _ : Unit =>
    keeps_commitTransaction h store.noPersist (HubEvent.new (store.storeDef.revokeEventArgs m))
  refine .bind (.fromExcept _) fun tsHash => .ite (.bind (keeps_deleteCompactState h hd) hevent) ?_
  refine .ite (.bind (keeps_deleteAdd h hd tsHash) hevent)
    (.ite_of (fun hr => ?_) fun _ => .bind (.throw _) hevent)
  exact .bind (keeps_deleteRemove h hd hr) hevent

theorem keeps_pruneMessage : Keeps (InBatch P) (store.pruneMessage m) := by
  have hevent := fun _ : Unit => Keeps.map (g := some)
    (keeps_commitTransaction h store.noPersist (HubEvent.new (store.storeDef.pruneEventArgs m)))
  refine .ite (.pure _)
    (.ite (.bind (.fromExcept _) fun tsHash => ?_) (.ite_of (fun hr => ?_) fun _ => hevent ()))
  · exact .bind (keeps_deleteAdd h hd tsHash) hevent
  · exact .bind (keeps_deleteRemove h hd hr) hevent

theorem keeps_pruneMessages [Prost] [DbIterator] (db : RocksDB) (fid : UInt64)
    (currentCount maxCount : UInt32) :
    Keeps (InBatch P) (store.pruneMessages db fid currentCount maxCount) := by
  have hentries (entries : List (Bytes × DbValue)) (count : UInt32) :
      Keeps (InBatch P) (store.pruneEntries maxCount entries count) := by
    induction entries generalizing count with
    | nil => exact .pure _
    | cons e entries ih =>
      unfold pruneEntries
      refine .ite (.pure _) (.bind (.fromExcept _) fun c => .bind (keeps_pruneMessage h hd) fun pruned => ?_)
      cases pruned with
      | some event => exact .bind (ih _) fun _ => .pure _
      | none => exact ih _
  exact .ite (.pure _) (hentries _ _)

theorem keeps_revokeEntries [Prost] (key : Bytes) (entries : List (Bytes × DbValue)) :
    Keeps (InBatch P) (store.revokeEntries key entries) := by
  induction entries with
  | nil => exact .pure _
  | cons e entries ih =>
    unfold revokeEntries
    refine .bind (.fromExcept _) fun c => .ite (.bind (keeps_attempt (keeps_revoke h hd)) fun r => ?_) ih
    cases r with
    | ok event => exact .bind ih fun _ => .pure _
    | error e => exact ih

theorem keeps_mergeLend [Prost] [DbIterator] (db : RocksDB) :
    Keeps (InBatch P) (StorageLendStore.merge store db m) := by
  unfold StorageLendStore.merge
  refine .bind (keeps_merge h hd db) fun event => ?_
  split
  · refine .ite (.bind (keeps_attempt (keeps_pruneMessage h hd)) fun pruned => ?_) (.pure _)
    split <;> exact .pure _
  · exact .pure _
  · exact .throw _

end keeps

end Store

/-! ## Where the indices lie -/

section aside
variable {ctx : StateContext} {key : Bytes}

theorem offKeys_of_ok {fid : UInt64} {set : UserPostfix} {slot : Bytes}
    (h : (.ok (makeIndexKey ctx fid set slot) : Except Failure Bytes) = .ok key) : OffKeys key := by
  cases h
  exact offKeys_of_store (.inr rfl) rfl

theorem offKeys_cons {p : RootPrefix} (hp : p.isSecondary = true) {rest : Bytes} :
    OffKeys (ctx.rootPrefix p :: rest) :=
  offKeys_of_store (.inl hp) rfl

theorem offKeys_of_map {x : Except Failure (List (Bytes × DbValue))} {keys : List Bytes}
    (hx : ∀ {entries}, x = .ok entries → ∀ e ∈ entries, OffKeys e.1) (h : x.map (·.map Prod.fst) = .ok keys) :
    ∀ key ∈ keys, OffKeys key := by
  cases x with
  | error e => cases h
  | ok entries =>
    cases h
    exact List.forall_mem_map.2 (hx rfl)

end aside

/-- The indices of a layout lie in the table of the users and in those of the secondary indices. -/
theorem Layout.aside {d : StoreDef} (lay : Layout d)
    (hdata : ∀ {m ctx k}, d.makeAddKey m ctx = .ok k ∨ d.makeRemoveKey m ctx = .ok k → m.data ≠ none)
    (hremove : ∀ {m ctx k}, d.makeRemoveKey m ctx = .ok k → d.removeTypeSupported = true)
    (hcompact : ∀ {m ctx k}, d.makeCompactStateAddKey m ctx = .ok k → OffKeys k) : d.Aside := by
  have hentry : ∀ {tsHash m ctx entries}, d.secondaryIndices tsHash m ctx = .ok entries →
      ∀ e ∈ entries, OffKeys e.1 := by
    intro tsHash m ctx entries h e he
    obtain ⟨p, rest, hp, hk⟩ := lay.secondary_root h he
    rw [hk]
    exact offKeys_cons hp
  refine ⟨fun h => ?_, fun h => ?_, hcompact, hentry, fun {tsHash m ctx _} h => ?_⟩
  · obtain ⟨data, hd⟩ := Option.ne_none_iff_exists'.1 (hdata (.inl h))
    obtain ⟨slot, -, rfl⟩ := (lay.makeAddKey_iff hd).1 h
    exact offKeys_of_ok rfl
  · obtain ⟨data, hd⟩ := Option.ne_none_iff_exists'.1 (hdata (.inr h))
    obtain ⟨slot, -, rfl⟩ := (lay.makeRemoveKey_iff (hremove h) hd).1 h
    exact offKeys_of_ok rfl
  · rw [lay.secondaryIndexKeys_eq] at h
    exact offKeys_of_map (@hentry tsHash m ctx) h

theorem castStoreDef_aside : castStoreDef.Aside := by
  refine castLayout.aside (fun h hd => ?_) (fun _ => rfl) fun h => nomatch h
  rcases h with h | h <;> simp [castStoreDef, CastStoreDef.makeAddKey, CastStoreDef.makeRemoveKey,
    CastStoreDef.targetHash, hd, bind, Except.bind] at h

theorem reactionStoreDef_aside : reactionStoreDef.Aside := by
  refine reactionLayout.aside (fun h hd => ?_) (fun _ => rfl) fun h => nomatch h
  rcases h with h | h <;> simp [reactionStoreDef, ReactionStoreDef.makeAddKey, ReactionStoreDef.makeRemoveKey,
    ReactionStoreDef.makeReactionKey, ReactionStoreDef.reactionBody, Message.bodyOf, hd, bind, Except.bind]
    at h

theorem verificationStoreDef_aside : verificationStoreDef.Aside := by
  refine verificationLayout.aside (fun h hd => ?_) (fun _ => rfl) fun h => nomatch h
  rcases h with h | h <;>
    simp [verificationStoreDef, VerificationStoreDef.makeAddKey, VerificationStoreDef.makeRemoveKey,
      VerificationStoreDef.makeVerificationKey, Message.bodyOf, hd, bind, Except.bind] at h

theorem userDataStoreDef_aside : userDataStoreDef.Aside := by
  refine userDataLayout.aside (fun h hd => ?_) (fun h => nomatch h) fun h => nomatch h
  rcases h with h | h <;>
    simp [userDataStoreDef, UserDataStoreDef.makeAddKey, Message.bodyOf, hd, bind, Except.bind] at h

theorem linkStoreDef_aside : linkStoreDef.Aside := by
  refine linkLayout.aside (fun h hd => ?_) (fun _ => rfl) fun h => ?_
  · rcases h with h | h <;> simp [linkStoreDef, LinkStore.makeAddKey, LinkStore.makeRemoveKey,
      LinkStore.makeLinkKey, LinkStore.dataBody, hd, bind, Except.bind] at h
  · obtain ⟨⟨data, body⟩, -, h⟩ := except_bind_eq_ok.1 h
    split at h
    · exact offKeys_of_ok h
    · exact offKeys_of_ok h
    · cases h

theorem usernameProofStoreDef_aside [Prost] : usernameProofStoreDef.Aside := by
  have hname {text : String} {m : Message} {ctx : StateContext} {entry : Bytes × DbValue}
      (h : UsernameProofStoreDef.byNameEntry text m ctx = .ok entry) : OffKeys entry.1 := by
    unfold UsernameProofStoreDef.byNameEntry at h
    split at h
    · cases h
    · split at h
      · split at h
        · cases h
        · rw [← Except.ok.inj h]
          exact offKeys_cons rfl
      · cases h
  refine ⟨fun {m ctx key} h => ?_, fun h => (by cases h), fun h =>
    (by cases h), fun h e he => ?_, fun h key hkey => ?_⟩
  · change UsernameProofStoreDef.makeAddKey m ctx = .ok key at h
    unfold UsernameProofStoreDef.makeAddKey at h
    split at h
    · cases h
    · split at h
      · exact offKeys_of_ok h
      · cases h
  · obtain ⟨entry, hentry, h⟩ := except_bind_eq_ok.1 h
    cases h
    rw [List.mem_singleton.1 he]
    exact hname hentry
  · obtain ⟨entry, hentry, h⟩ := except_bind_eq_ok.1 h
    cases h
    rw [List.mem_singleton.1 hkey]
    exact hname hentry

theorem storageLendStoreDef_aside : storageLendStoreDef.Aside := by
  have hentry : ∀ {tsHash m ctx entries}, storageLendStoreDef.secondaryIndices tsHash m ctx = .ok entries →
      ∀ e ∈ entries, OffKeys e.1 := by
    intro tsHash m ctx entries h e he
    change StorageLendStoreDef.secondaryIndices tsHash m ctx = .ok entries at h
    unfold StorageLendStoreDef.secondaryIndices at h
    split at h
    next key hkey =>
      cases h
      obtain ⟨⟨data, toFid⟩, -, hkey⟩ := except_bind_eq_ok.1 hkey
      rw [List.mem_singleton.1 he, ← Except.ok.inj hkey]
      exact offKeys_cons rfl
    · cases h
    · cases h
      cases he
  refine ⟨fun h => ?_, fun h => (nomatch h), fun h => (nomatch h), hentry,
    fun {tsHash m ctx _} => offKeys_of_map (@hentry tsHash m ctx)⟩
  obtain ⟨⟨data, toFid⟩, -, h⟩ := except_bind_eq_ok.1 h
  exact offKeys_of_ok h

/-! ## Tables that hold no messages -/

namespace KeysOnly

variable {P : RocksDbTransactionBatch → Prop} (h : KeysOnly P)
include h

theorem keeps_put {ε : Type} {p : RootPrefix} {key : Bytes} (hp : p.toByte ≠ RootPrefix.gaslessKey.toByte)
    (hkey : key[0]? = some p.toByte) (v : DbValue) :
    Keeps (InBatch P) (modify (·.put key v) : EStateM ε StoreState PUnit) :=
  .modify fun _ => h.put (offKeys_of_root hp hkey) v

theorem keeps_mergeOnchainEvent [DbIterator] (conflictFree : Bool) (db : RocksDB) (event : OnChainEvent) :
    Keeps (InBatch P) (mergeOnchainEvent conflictFree db event) := by
  have hindex : Keeps (InBatch P) (buildEventIndices db event) := by
    unfold buildEventIndices
    split
    · unfold buildSecondaryIndicesForIdRegister
      refine .ite (.pure _) (.get_bind fun s => .bind (.raise _) fun existing => .ite (.pure _) ?_)
      exact h.keeps_put (p := .onChainEvent) (by decide) rfl _
    · unfold buildSecondaryIndicesForSigner
      refine .get_bind fun s => .bind (.raise _) fun existing => .ite (.pure _) (.ite (.pure _) (.ite ?_ ?_))
      · refine .bind (.raise _) fun found => ?_
        cases found with
        | some add => exact h.keeps_put (p := .onChainEvent) (by decide) rfl _
        | none => exact .pure _
      · exact h.keeps_put (p := .onChainEvent) (by decide) rfl _
    · exact .pure _
  have hrecord : Keeps (InBatch P) (modify (·.put (makeOnchainEventPrimaryKey event) (.onChainEvent event)) :
      StoreOp OnchainEventStorageError Unit) := h.keeps_put (p := .onChainEvent) (by decide) rfl _
  unfold mergeOnchainEvent putOnchainEvent
  refine .bind
    (.get_bind fun s => .when_bind (fun _ => .throw _) fun _ => .bind hrecord fun _ => hindex) fun _ => ?_
  exact .mapError _ (Store.keeps_commitTransaction h _ _)

theorem keeps_mergeUsernameProof (db : RocksDB) (proof : UserNameProof) :
    Keeps (InBatch P) (UserDataStore.mergeUsernameProof db proof) := by
  have hold (fid : UInt64) : Keeps (InBatch P) (txnDelete (makeFnameUsernameProofByFidKey fid)) :=
    .modify fun _ => h.delete (offKeys_of_root (p := .fNameUserNameProofByFid) (by decide) rfl)
  have hname : Keeps (InBatch P) (txnPut (makeFnameUsernameProofKey proof.name) (.userNameProof proof)) :=
    h.keeps_put (p := .fNameUserNameProof) (by decide) rfl _
  have hevent (event : HubEvent) := Store.keeps_commitTransaction h false event
  unfold UserDataStore.mergeUsernameProof
  refine .get_bind fun s => .bind (.fromExcept _) fun existing => .bind (.fromExcept _) fun _ => ?_
  refine .ite (.bind ?_ fun _ => hevent _) (.bind ?_ fun _ => hevent _)
  · refine .bind hname fun _ => ?_
    split
    · exact hold _
    · exact .pure _
  · refine .bind hname fun _ =>
      .bind (h.keeps_put (p := .fNameUserNameProofByFid) (by decide) rfl _) fun _ => ?_
    split
    · exact hold _
    · exact .pure _

theorem keeps_putBlockEvent (event : BlockEvent) : Keeps (InBatch P) (putBlockEvent event) := by
  unfold putBlockEvent
  split
  · exact .throw _
  · exact h.keeps_put (p := .blockEvent) (by decide) rfl _

end KeysOnly

/-! ## Registered keys -/

/-- The nonces, the records and the owners of keys. -/
def requestKinds : List UserPostfix :=
  [.gaslessKeyUserNonce, .gaslessKeyAppNonce, .gaslessKeyByFid, .gaslessKeyByPublicKey]

/-- A property of the state that requests about one key do not touch: they write nonces, records and owners,
    numbers to the counters, and the time of this key. -/
structure RegistrySafe (fid : UInt64) (key : Bytes) (P : StoreState → Prop) : Prop where
  put : ∀ {kind}, kind ∈ requestKinds → ∀ rest v s, P s → P (s.put (makeGaslessKey kind rest) v)
  delete : ∀ {kind}, kind ∈ requestKinds → ∀ rest s, P s → P (s.delete (makeGaslessKey kind rest))
  putTime : ∀ v s, P s → P (s.put (makeGaslessKey .gaslessKeyLastUsedAt (makeFidKey fid ++ key)) v)
  deleteTime : ∀ s, P s → P (s.delete (makeGaslessKey .gaslessKeyLastUsedAt (makeFidKey fid ++ key)))
  putCount : ∀ fid n s, P s → P (s.put (makeGaslessKeyCountByFidKey fid) (.bytes (toBeBytes n)))
  deleteCount : ∀ fid s, P s → P (s.delete (makeGaslessKeyCountByFidKey fid))

namespace RegistrySafe

variable {P : StoreState → Prop} {db : RocksDB} {s s' : StoreState} {data : MessageData}

theorem keyAdded {body : KeyAddBody} (h : RegistrySafe data.fid body.key P)
    (hadded : KeyAdded db s data body s') (hs : P s) : P s' := by
  have hregister (record : GaslessKeyRecord) :
      P (s.registerKey data.fid body.key body.nonce data.timestamp record) :=
    h.putTime _ _ (h.put (by decide) _ _ _ (h.put (by decide) _ _ _ (h.put (by decide) _ _ _ hs)))
  cases hadded with
  | new => exact h.putCount _ _ _ (hregister _)
  | again => exact hregister _

theorem keyRemoved {body : KeyRemoveBody} (h : RegistrySafe data.fid body.key P)
    (hremoved : KeyRemoved db s data body s') (hs : P s) : P s' := by
  cases hremoved with
  | @mk nonceKey record count _ _ hkey _ _ =>
    have hnonce : P (s.put nonceKey (numberValue body.nonce)) := by
      rcases hkey with rfl | rfl
      · exact h.put (by decide) _ _ _ hs
      · exact h.put (by decide) _ _ _ hs
    have hrelease : P (s.releaseKey data.fid body.key nonceKey body.nonce) :=
      h.deleteTime _ (h.delete (by decide) _ _ (h.delete (by decide) _ _ hnonce))
    unfold StoreState.lowerKeyCount
    generalize (if count = 0 then 0 else count - 1) = lower
    split
    · exact h.deleteCount _ _ hrelease
    · exact h.putCount _ _ _ hrelease

end RegistrySafe

end Hypersnap
