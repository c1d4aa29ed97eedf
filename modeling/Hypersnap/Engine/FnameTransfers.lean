import Hypersnap.Engine.Replay
import Hypersnap.Store.Fnames
import Hypersnap.Store.Instances
import Hypersnap.Store.Scan
import Hypersnap.Trie.Footprint

/-!
# `Engine.FnameTransfers` — what the transfer of a name does to users

A transfer of a name carries a proof, which is checked and merged, and a `fromFid` that nothing ties to the
proof. After the attempt to merge, **whatever became of it**, the username that user `fromFid` has in the
database is revoked. So a rejected transfer may cost a user the username, and an accepted one may cost the
wrong user or the wrong name. It has no effect of that kind exactly if there is nothing to revoke, or the
previous owner has just this name.
-/

namespace Hypersnap

open Overlay EState Layout

variable {k : Bytes} {proof : UserNameProof} {db : RocksDB} {fid : UInt64} {s : EngineState} {r : Record}
  {transfer : FnameTransfer}

section transfers

variable [Platform] {env : EngineEnv} {m : Message}

/-! ## Running a store operation in the engine -/

omit [Platform] in
theorem recover_inStores_cases {α : Type} (x : StoreM α) (s : EngineState) : (∃ a t, x s.stores = .ok a t ∧
      (recover (inStores (x.toOp id)) : EngineM EngineError _) s = .ok (.ok a) (s.setStores t)) ∨
    (∃ e t, x s.stores = .error (.hub e) t ∧
      (recover (inStores (x.toOp id)) : EngineM EngineError _) s = .ok (.error e) (s.setStores t)) ∨
    ∃ t, x s.stores = .error .panic t ∧
      (recover (inStores (x.toOp id)) : EngineM EngineError _) s = .error .panic (s.setStores t) := by
  unfold recover inStores zoom StoreM.toOp mapError
  cases hx : x s.stores with
  | ok a t => exact .inl ⟨a, t, rfl, rfl⟩
  | error e t =>
    cases e with
    | hub e => exact .inr (.inl ⟨e, t, rfl, rfl⟩)
    | panic => exact .inr (.inr ⟨t, rfl, rfl⟩)

/-- The tables that neither the trie nor the event log uses. -/
def IsTable (k : Bytes) : Prop :=
  k[0]? ≠ some RootPrefix.hubEvents.toByte ∧ k[0]? ≠ some RootPrefix.merkleTrieNode.toByte

omit [Platform] in
theorem isTable_of_root {p : UInt8} (hroot : k[0]? = some p)
    (hp : p ≠ RootPrefix.hubEvents.toByte ∧ p ≠ RootPrefix.merkleTrieNode.toByte) : IsTable k := by
  unfold IsTable
  simpa [hroot] using hp

theorem updateTrie_view (event : HubEvent) (s : EngineState) {k : Bytes} (hk : IsTable k) :
    (stateOf (updateTrie env event s)).stores.view env.db k = s.stores.view env.db k := by
  unfold updateTrie
  cases hupdate : s.trie.updateForEvent env.db event s.txn with
  | none => rfl
  | some out =>
    obtain ⟨trie, txn, r⟩ := out
    have htxn : txn k = s.txn k := MerkleTrie.updateForEvent_offTrie hupdate k hk.2
    cases r <;> simp only [stateOf, EngineState.stores, StoreState.view, commit, htxn]

/-! ## The username of a user -/

/-- The store that usernames are read from and revoked in. -/
abbrev userDataStore (env : EngineEnv) : Store := env.store .legacy userDataStoreDef

/-- The username message of a user that a transfer finds, in the **database**. -/
def StoredUsername (env : EngineEnv) (fid : UInt64) (m : Message) : Prop :=
  UserDataStore.getUserDataByFidAndType (userDataStore env) env.db fid .username = .ok m

/-- The message sets its user's name. -/
def Message.SetsUsername (m : Message) (name : Bytes) : Prop :=
  m.data.bind (·.body) = some (.userDataBody UserDataType.username.toI32 name)

theorem getAddsByFid_ne_panic {store : Store} {filter : Message → Bool} :
    store.getAddsByFid db fid filter ≠ .error .panic := by
  intro h
  obtain hdecode | ⟨messages, -, h⟩ := except_bind_eq_error.1 h
  · obtain ⟨entry, -, hentry⟩ := exists_of_mapM_eq_error hdecode
    cases hm : messageDecode entry.2 <;> simp [hm, Except.mapError] at hentry
  · cases h

theorem getUserData_cases (env : EngineEnv) (fid : UInt64) : (∃ m, StoredUsername env fid m) ∨
    ∃ e, UserDataStore.getUserDataByFidAndType (userDataStore env) env.db fid .username =
      .error (.hub e) := by
  unfold StoredUsername UserDataStore.getUserDataByFidAndType
  dsimp only
  split
  · exact .inl ⟨_, rfl⟩
  · next h => exact absurd h getAddsByFid_ne_panic
  · exact .inr ⟨_, rfl⟩

theorem storedUsername_held (hidx : userDataLayout.Indexed .legacy env.db) (h : StoredUsername env fid m) :
    ∃ r name, userDataLayout.Held .legacy env.db r ∧ r.message = m ∧ r.isRemove = false ∧
    m.SetsUsername name := by
  unfold StoredUsername UserDataStore.getUserDataByFidAndType at h
  dsimp only at h
  split at h
  case h_2 => cases h
  case h_3 => cases h
  case h_1 found hadds =>
  cases h
  obtain ⟨messages, hdecode, hfilter⟩ := except_bind_eq_ok.1 hadds
  have hmem : m ∈ messages.filter _ := Except.ok.inj hfilter ▸ List.mem_singleton_self m
  obtain ⟨hmem, htype⟩ := List.mem_filter.1 hmem
  obtain ⟨hadd, hname⟩ := Bool.and_eq_true_iff.1 htype
  obtain ⟨entry, hentry, hm⟩ := (mem_of_mapM_eq_ok hdecode).1 hmem
  obtain ⟨rs, hscan, hheld⟩ := @Store.scanUser_sound (userDataStore env) userDataLayout env.db fid _ _
    (show UserPostfix.userDataMessage.toByte ≠ 255 by decide) hidx
  rw [← hscan] at hentry
  obtain ⟨r, hr, rfl⟩ := List.mem_map.1 hentry
  have hr := (hheld r hr).1
  have hmessage : r.message = m := by
    have hread := messageDecode_messageEncode hr.normal
    rw [except_mapError_eq_ok] at hm
    exact Except.ok.inj (hread.symm.trans hm)
  subst hmessage
  have hkind : (!r.isRemove) = true := hr.typed.isAddType_eq.symm.trans hadd
  dsimp only at hname
  split at hname
  · next type value hbody =>
    refine ⟨r, value, hr, rfl, by simpa using hkind, ?_⟩
    rw [Message.SetsUsername, hbody, beq_iff_eq.1 hname]
  · cases hname

omit [Platform] in
/-- Revoking a message of the store erases its two entries, and only then numbers the event. -/
theorem revoke_userData (env : EngineEnv) (hr : userDataLayout.Typed r) (hadd : r.isRemove = false)
    (s : StoreState) :
    ∃ s₁, s₁.view env.db = eraseAll (s.view env.db)
        [userDataLayout.indexKey .legacy r, primaryKey userDataStoreDef .legacy r] ∧
      (userDataStore env).revoke r.message s =
        commitTransaction false (HubEvent.new (.revokeMessageBody r.message)) s₁ := by
  have hsec : secondaryOf userDataStoreDef .legacy r = .ok [] := by
    rw [secondaryOf, hadd]
    rfl
  have hdelete : (userDataStore env).deleteAddTransaction r.tsHash r.message s =
      resultOf (secondaryOf userDataStoreDef .legacy r) s fun es => s.deleteAll (es.map Prod.fst ++
        [userDataLayout.indexKey .legacy r, primaryKey userDataStoreDef .legacy r]) :=
    @Store.deleteAddTransaction_eq (userDataStore env) userDataLayout r s hr hadd
  rw [hsec] at hdelete
  refine ⟨s.deleteAll [userDataLayout.indexKey .legacy r, primaryKey userDataStoreDef .legacy r],
    s.view_deleteAll _ _, ?_⟩
  have hisAdd : userDataStoreDef.isAddType r.message = true := by simp [hr.isAddType_eq, hadd]
  unfold Store.revoke
  rw [hr.messageTsHash_eq,
    bind_of_ok (show (fromExcept (.ok r.tsHash) : StoreM _) s = .ok r.tsHash s from rfl)]
  change (if userDataStoreDef.isAddType r.message then _ else _ : StoreM HubEvent) s = _
  rw [if_pos hisAdd]
  exact bind_of_ok hdelete

theorem revokeUsername_cases (h : StoredUsername env fid m) (s : EngineState) :
    (∃ event t, (userDataStore env).revoke m s.stores = .ok event t ∧
      revokeUsername env fid s = (updateTrie env event >>= fun _ => pure [event]) (s.setStores t)) ∨
    (∃ e t, (userDataStore env).revoke m s.stores = .error (.hub e) t ∧
      revokeUsername env fid s = .ok [] (s.setStores t)) ∨
    ∃ t, (userDataStore env).revoke m s.stores = .error .panic t ∧
      revokeUsername env fid s = .error .panic (s.setStores t) := by
  rw [StoredUsername] at h
  simp only [revokeUsername, h]
  obtain ⟨event, t, ht, hrun⟩ | ⟨e, t, ht, hrun⟩ | ⟨t, ht, hrun⟩ :=
    recover_inStores_cases ((userDataStore env).revoke m) s
  · exact .inl ⟨event, t, ht, bind_of_ok hrun⟩
  · exact .inr (.inl ⟨e, t, ht, bind_of_ok hrun⟩)
  · exact .inr (.inr ⟨t, ht, bind_of_error hrun⟩)

/-- **Whatever the trie says, the username is gone** after its revocation, and nothing else is. -/
theorem revokeUsername_view (hr : userDataLayout.Typed r) (hadd : r.isRemove = false)
    (h : StoredUsername env fid r.message) (s : EngineState) (hk : IsTable k) :
    (stateOf (revokeUsername env fid s)).stores.view env.db k =
      eraseAll (s.stores.view env.db)
      [userDataLayout.indexKey .legacy r, primaryKey userDataStoreDef .legacy r] k := by
  obtain ⟨s₁, hview, hrevoke⟩ := revoke_userData env hr hadd s.stores
  have hafter : ∀ {t : StoreState}, stateOf ((userDataStore env).revoke r.message s.stores) = t →
      t.view env.db k = s₁.view env.db k := by
    rintro t rfl
    rw [hrevoke]
    obtain ⟨e, herr, -⟩ | ⟨ev, t, hok, -, -, hlog⟩ :=
      Store.commitTransaction_cases s₁ false (HubEvent.new (.revokeMessageBody r.message))
    · rw [herr]
      rfl
    · rw [hok]
      exact hlog env.db k hk.1
  rw [← hview]
  obtain ⟨event, t, ht, hrun⟩ | ⟨e, t, ht, hrun⟩ | ⟨t, ht, hrun⟩ := revokeUsername_cases h s
  · rw [hrun, stateOf_bind_pure, updateTrie_view event _ hk]
    exact hafter (by rw [ht]; rfl)
  · rw [hrun]
    exact hafter (by rw [ht]; rfl)
  · rw [hrun]
    exact hafter (by rw [ht]; rfl)

/-! ## One transfer -/

namespace UserDataStore

omit [Platform]

variable {txn : RocksDbTransactionBatch}

theorem getUsernameProof_ne_panic {name : Bytes} : getUsernameProof db txn name ≠ .error .panic := by
  unfold getUsernameProof
  split <;> simp

theorem checkUsernameProof_ne_panic {existing : Option UserNameProof} :
    checkUsernameProof existing proof ≠ .error .panic := by
  unfold checkUsernameProof
  split <;> split <;> simp

theorem replacedProof_ne_panic : replacedProof db txn proof ≠ .error .panic := by
  intro h
  obtain hread | ⟨existing, -, h⟩ := except_bind_eq_error.1 h
  · exact getUsernameProof_ne_panic hread
  obtain hcheck | ⟨_, -, h⟩ := except_bind_eq_error.1 h
  · exact checkUsernameProof_ne_panic hcheck
  · cases h

theorem mergeUsernameProof_ne_panic {s t : StoreState} : mergeUsernameProof db proof s ≠ .error .panic t := by
  intro h
  obtain ⟨e, hreplaced, herr⟩ | ⟨existing, s₁, -, -, -, hcommit⟩ := mergeUsernameProof_cases db proof s
  · cases herr.symm.trans h
    exact replacedProof_ne_panic hreplaced
  · rw [hcommit] at h
    obtain ⟨e, herr, -⟩ | ⟨ev, t', hok, -⟩ :=
      Store.commitTransaction_cases s₁ false (.new (.mergeUsernameProofBody (some proof) existing none none))
    · cases herr.symm.trans h
    · cases hok.symm.trans h

end UserDataStore

/-- What a transfer does once its proof is validated, and whatever became of the merge. -/
def revokeSender (env : EngineEnv) (transfer : FnameTransfer) : EngineM EngineError (List HubEvent) :=
  if 0 < transfer.fromFid then revokeUsername env transfer.fromFid else pure []

/-- **Everything a transfer can do.** -/
theorem replayFnameTransfer_cases (env : EngineEnv) (hproof : transfer.proof = some proof) (s : EngineState) :
    (∃ e, validateFnameTransfer proof env.network env.fnameSignerAddress = .error e ∧
      replayFnameTransfer env transfer s = .ok [] s) ∨
    (validateFnameTransfer proof env.network env.fnameSignerAddress = .ok () ∧
      ((∃ event t, UserDataStore.mergeUsernameProof env.db proof s.stores = .ok event t ∧
        replayFnameTransfer env transfer s =
          (updateTrie env event >>= fun _ =>
            revokeSender env transfer >>= fun revoked => pure ([event] ++ revoked))
            (s.setStores t)) ∨ ∃ e t, UserDataStore.mergeUsernameProof env.db proof s.stores = .error e t ∧
        replayFnameTransfer env transfer s =
          (revokeSender env transfer >>= fun revoked => pure ([] ++ revoked)) (s.setStores t))) := by
  simp only [replayFnameTransfer, hproof]
  cases validateFnameTransfer proof env.network env.fnameSignerAddress with
  | error e => exact .inl ⟨e, rfl, rfl⟩
  | ok =>
    refine .inr ⟨rfl, ?_⟩
    obtain ⟨event, t, ht, hrun⟩ | ⟨e, t, ht, hrun⟩ | ⟨t, ht, hrun⟩ :=
      recover_inStores_cases (UserDataStore.mergeUsernameProof env.db proof) s
    · refine .inl ⟨event, t, ht, ?_⟩
      dsimp only
      rw [bind_of_ok hrun]
      unfold revokeSender
      split <;> simp only [pure_bind]
    · refine .inr ⟨_, t, ht, ?_⟩
      dsimp only
      rw [bind_of_ok hrun]
      unfold revokeSender
      split <;> simp only [pure_bind]
    · exact absurd ht UserDataStore.mergeUsernameProof_ne_panic

/-- The proof fails its validation or cannot be merged. -/
def RejectsProof (env : EngineEnv) (proof : UserNameProof) (s : EngineState) : Prop :=
  (∃ e, validateFnameTransfer proof env.network env.fnameSignerAddress = .error e) ∨
    ∃ e t, UserDataStore.mergeUsernameProof env.db proof s.stores = .error e t

/-- **The rejections that do no harm**: the proof fails its validation; or it is not newer than the record of
    its name, and there is no username that `fromFid` could lose. -/
def HarmlessRejection (env : EngineEnv) (transfer : FnameTransfer) (proof : UserNameProof) (s : EngineState) :
    Prop :=
  (∃ e, validateFnameTransfer proof env.network env.fnameSignerAddress = .error e) ∨
    (∃ e, UserDataStore.replacedProof env.db s.txn proof = .error e) ∧
      (transfer.fromFid = 0 ∨ ∀ m, ¬ StoredUsername env transfer.fromFid m)

theorem revokeSender_of_none (h : transfer.fromFid = 0 ∨ ∀ m, ¬ StoredUsername env transfer.fromFid m)
    (s : EngineState) : revokeSender env transfer s = .ok [] s := by
  unfold revokeSender
  obtain hzero | hnone := h
  · rw [if_neg (by simp [hzero])]
    rfl
  · split
    · obtain ⟨m, hm⟩ | ⟨e, he⟩ := getUserData_cases env transfer.fromFid
      · exact absurd hm (hnone m)
      · simp only [revokeUsername, he]
        rfl
    · rfl

/-- A harmless rejection is no step at all. -/
theorem replay_of_harmless (hproof : transfer.proof = some proof)
    (h : HarmlessRejection env transfer proof s) : replayFnameTransfer env transfer s = .ok [] s := by
  obtain ⟨e, -, hrun⟩ | ⟨hvalid, hmerge⟩ := replayFnameTransfer_cases env hproof s
  · exact hrun
  obtain ⟨e, herr⟩ | ⟨⟨e, hstale⟩, hnone⟩ := h
  · cases hvalid.symm.trans herr
  have hrejected : UserDataStore.mergeUsernameProof env.db proof s.stores = .error e s.stores := by
    obtain ⟨e', hreplaced, herr⟩ | ⟨existing, s₁, hreplaced, -⟩ :=
      UserDataStore.mergeUsernameProof_cases env.db proof s.stores
    · cases hstale.symm.trans hreplaced
      exact herr
    · cases hstale.symm.trans hreplaced
  obtain ⟨event, t, ht, -⟩ | ⟨e', t, ht, hrun⟩ := hmerge
  · cases hrejected.symm.trans ht
  · cases hrejected.symm.trans ht
    rw [hrun]
    exact bind_of_ok (revokeSender_of_none hnone s)

/-! ## Transactions without the transfer -/

/-- The transfers of some messages are taken out. -/
structure Strips (g : ValidatorMessage → ValidatorMessage) : Prop where
  eq : ∀ m, g m = m ∨ g m = { m with fnameTransfer := none }

/-- The transfers that are taken out are rejected, and harmlessly, at the point where each is replayed. -/
def HarmlessRun (env : EngineEnv) (g : ValidatorMessage → ValidatorMessage) (version : EngineVersion) :
    List ValidatorMessage → UInt64 → EngineState → Prop
  | [], _, _ => True
  | message :: rest, lastSeqnum, s =>
    (g message ≠ message → ∀ chain s₁, replayChainPart env version message s = .ok chain s₁ →
      ∀ transfer proof, message.fnameTransfer = some transfer → transfer.proof = some proof →
        HarmlessRejection env transfer proof s₁) ∧
      ∀ outcome s', replaySystemMessage env version message lastSeqnum s = .ok outcome s' →
        HarmlessRun env g version rest outcome.lastSeqnum s'

variable {g : ValidatorMessage → ValidatorMessage} {version : EngineVersion} {lastSeqnum : UInt64}

theorem replaySystemMessage_strip (hg : Strips g) {message : ValidatorMessage} (lastSeqnum : UInt64)
    (h : g message ≠ message → ∀ chain s₁, replayChainPart env version message s = .ok chain s₁ →
      ∀ transfer proof, message.fnameTransfer = some transfer → transfer.proof = some proof →
        HarmlessRejection env transfer proof s₁) :
    replaySystemMessage env version (g message) lastSeqnum s =
      replaySystemMessage env version message lastSeqnum s := by
  by_cases hsame : g message = message
  · rw [hsame]
  have hstrip : g message = { message with fnameTransfer := none } := (hg.eq message).resolve_left hsame
  have h := h hsame
  obtain ⟨chainEvent, transfer, blockEvent⟩ := message
  cases transfer with
  | none => rw [hstrip]
  | some transfer =>
    have hnoop :
        ∀ chain s₁, replayChainPart env version ⟨chainEvent, some transfer, blockEvent⟩ s = .ok chain s₁ →
        replayFnameTransfer env transfer s₁ = .ok [] s₁ := by
      intro chain s₁ hchain
      cases hproof : transfer.proof with
      | none => simp only [replayFnameTransfer, hproof]; rfl
      | some proof => exact replay_of_harmless hproof (h chain s₁ hchain transfer proof rfl hproof)
    rw [hstrip]
    unfold replaySystemMessage
    change (if skipsTierPurchase version ⟨chainEvent, some transfer, blockEvent⟩ then _ else _ :
      EngineM EngineError SystemOutcome) s = _
    split
    · rfl
    · refine bind_congr_run rfl fun chain s₁ hchain => ?_
      exact bind_congr_run (hnoop chain s₁ hchain).symm fun _ _ _ => rfl

theorem replaySystemMessages_strip (hg : Strips g) {messages : List ValidatorMessage}
    (h : HarmlessRun env g version messages lastSeqnum s) :
    replaySystemMessages env version (messages.map g) lastSeqnum s =
      replaySystemMessages env version messages lastSeqnum s := by
  induction messages generalizing lastSeqnum s with
  | nil => rfl
  | cons message rest ih =>
    rw [List.map_cons, replaySystemMessages, replaySystemMessages]
    refine bind_congr_run (replaySystemMessage_strip hg lastSeqnum h.1) fun outcome s' hrun => ?_
    exact bind_congr_run (ih (h.2 outcome s' hrun)) fun _ _ _ => rfl

omit [Platform] in
theorem sortSystemMessages_strip (hg : Strips g) (messages : List ValidatorMessage) :
    sortSystemMessages (messages.map g) = (sortSystemMessages messages).map g := by
  have hchain : ∀ m, (g m).onChainEvent = m.onChainEvent := by
    intro m
    obtain h | h := hg.eq m <;> rw [h]
  refine (List.map_insertionSort _ _ g messages fun a _ b _ => ?_).symm
  simp only [systemMessageLe, hchain]

/-- **A transaction is replayed as if its harmlessly rejected transfers were not in it.** -/
theorem replaySnapchainTxn_strip (hg : Strips g) {txn : Transaction}
    (h : HarmlessRun env g version (sortSystemMessages txn.systemMessages) lastSeqnum s) (order : SetOrder)
    (timestamp : FarcasterTime) :
    replaySnapchainTxn env order { txn with systemMessages := txn.systemMessages.map g } version timestamp
      lastSeqnum s =
      replaySnapchainTxn env order txn version timestamp lastSeqnum s := by
  unfold replaySnapchainTxn
  rw [sortSystemMessages_strip hg]
  exact bind_congr_run (replaySystemMessages_strip hg h) fun _ _ _ => rfl

/-! ## What a transfer changes -/

/-- The tables of users and names, and the nodes of the trie. -/
def Concerned (k : Bytes) : Prop :=
  ∃ p ∈ [RootPrefix.user, .fNameUserNameProof, .fNameUserNameProofByFid, .merkleTrieNode],
    k[0]? = some p.toByte

/-- Nothing that concerns users or names has changed. -/
def SameRecords (env : EngineEnv) (s s' : EngineState) : Prop :=
  s'.trie = s.trie ∧ ∀ k, Concerned k → s'.stores.view env.db k = s.stores.view env.db k

/-- The batch has not touched the message that holds the username of a user. -/
def UsernameSeen (env : EngineEnv) (fid : UInt64) (s : EngineState) : Prop :=
  ∀ m key, StoredUsername env fid m → primaryKeyOf RootPrefix.user.toByte m = .ok key →
    s.stores.view env.db key = env.db key

/-- The only message of the user-data store that is gone or changed is the one in which the previous owner has
    the name. -/
def RevokesOwnerOnly (env : EngineEnv) (proof : UserNameProof) (s s' : EngineState) : Prop :=
  ∀ fid ts v m, s.stores.view env.db
    (makeMessagePrimaryKey RootPrefix.user.toByte fid userDataStoreDef.setPostfix ts) = some v →
    messageDecode v = .ok m →
    s'.stores.view env.db (makeMessagePrimaryKey RootPrefix.user.toByte fid userDataStoreDef.setPostfix ts) ≠
    some v →
    ∃ existing, getUsernameProof env.db s.txn proof.name = .ok (some existing) ∧
      m.data.map (·.fid) = some existing.fid ∧ m.SetsUsername proof.name

/-- The user that a transfer names as its sender has no username, or is the owner of the name and has it as
    username. -/
def SenderHasName (env : EngineEnv) (transfer : FnameTransfer) (proof : UserNameProof) (s : EngineState) :
    Prop :=
  transfer.fromFid = 0 ∨ ∀ m, StoredUsername env transfer.fromFid m →
    ∃ existing, getUsernameProof env.db s.txn proof.name = .ok (some existing) ∧
      m.data.map (·.fid) = some existing.fid ∧ m.SetsUsername proof.name

section effects

variable {transfer : FnameTransfer} {proof : UserNameProof} {s : EngineState}

omit [Platform] in
theorem root_of_mem_erased
    (h : k ∈ [userDataLayout.indexKey .legacy r, primaryKey userDataStoreDef .legacy r]) :
    k[0]? = some RootPrefix.user.toByte := by
  obtain rfl | rfl := List.mem_pair.1 h <;> rfl

omit [Platform] in
theorem fnameWritten_of_user {o : RocksDB} {existingFid : Option UInt64}
    (hk : k[0]? = some RootPrefix.user.toByte) : fnameWritten o proof existingFid k = o k := by
  have hname : k ≠ makeFnameUsernameProofKey proof.name := by
    rintro rfl
    exact absurd (Option.some.inj hk) (by decide)
  have hfid : ∀ fid, k ≠ makeFnameUsernameProofByFidKey fid := by
    rintro fid rfl
    exact absurd (Option.some.inj hk) (by decide)
  unfold fnameWritten
  cases existingFid <;> simp only [] <;> split <;> simp [hname, hfid]

section

variable (hidx : userDataLayout.Indexed .legacy env.db)
include hidx

theorem revokeSender_view (transfer : FnameTransfer) (s : EngineState) :
    ((transfer.fromFid = 0 ∨ ∀ m, ¬ StoredUsername env transfer.fromFid m) ∧
      revokeSender env transfer s = .ok [] s) ∨
    ∃ r, transfer.fromFid ≠ 0 ∧ userDataLayout.Held .legacy env.db r ∧
    StoredUsername env transfer.fromFid r.message ∧
      ∀ k, IsTable k → (stateOf (revokeSender env transfer s)).stores.view env.db k =
        eraseAll (s.stores.view env.db)
        [userDataLayout.indexKey .legacy r, primaryKey userDataStoreDef .legacy r] k := by
  by_cases hnone : transfer.fromFid = 0 ∨ ∀ m, ¬ StoredUsername env transfer.fromFid m
  · exact .inl ⟨hnone, revokeSender_of_none hnone s⟩
  · rw [not_or, not_forall] at hnone
    obtain ⟨hzero, m, hm⟩ := hnone
    have hm := not_not.1 hm
    obtain ⟨r, name, hr, rfl, hadd, -⟩ := storedUsername_held hidx hm
    refine .inr ⟨r, hzero, hr, hm, fun k hk => ?_⟩
    have hpos : 0 < transfer.fromFid := UInt64.pos_iff_ne_zero.2 hzero
    rw [revokeSender, if_pos hpos]
    exact revokeUsername_view hr.typed hadd hm s hk

omit hidx in
theorem UsernameSeen.stored (hseen : UsernameSeen env fid s) (hr : userDataLayout.Held .legacy env.db r)
    (hm : StoredUsername env fid r.message) :
    s.stores.view env.db (primaryKey userDataStoreDef .legacy r) = some (messageEncode r.message) :=
  (hseen r.message _ hm (hr.typed.primaryKeyOf_eq .legacy)).trans hr.primary

/-- **A rejected transfer changes nothing exactly if it is rejected harmlessly.** -/
theorem rejectedTransfer_same_iff (hproof : transfer.proof = some proof)
    (hrejected : RejectsProof env proof s) (hseen : UsernameSeen env transfer.fromFid s) :
    SameRecords env s (stateOf (replayFnameTransfer env transfer s)) ↔
      HarmlessRejection env transfer proof s := by
  constructor
  swap
  · intro h
    rw [replay_of_harmless hproof h]
    exact ⟨rfl, fun _ _ => rfl⟩
  intro hsame
  obtain ⟨e, hinvalid, -⟩ | ⟨hvalid, hmerge⟩ := replayFnameTransfer_cases env hproof s
  · exact .inl ⟨e, hinvalid⟩
  obtain ⟨e, hinvalid⟩ | ⟨e, t, herr⟩ := hrejected
  · cases hvalid.symm.trans hinvalid
  obtain ⟨event, t', hok, -⟩ | ⟨e', t', herr', hrun⟩ := hmerge
  · cases herr.symm.trans hok
  cases herr.symm.trans herr'
  rw [hrun, stateOf_bind_pure] at hsame
  obtain ⟨e'', hstale, hunchanged⟩ | ⟨existing, s₁, hreplaced, -, hview, hcommit⟩ :=
    UserDataStore.mergeUsernameProof_cases env.db proof s.stores
  · cases hunchanged.symm.trans herr
    refine .inr ⟨⟨e, hstale⟩, ?_⟩
    obtain ⟨hnone, -⟩ | ⟨r, -, hr, hm, hafter⟩ := revokeSender_view hidx transfer s
    · exact hnone
    · -- the username of the sender was there, and is gone
      exfalso
      have hgone := hafter (primaryKey userDataStoreDef .legacy r) (isTable_of_root rfl (by decide))
      rw [eraseAll_of_mem (by simp)] at hgone
      have hthere := hsame.2 (primaryKey userDataStoreDef .legacy r) ⟨.user, by simp, rfl⟩
      cases hgone.symm.trans (hthere.trans (hseen.stored hr hm))
  · -- the record was written, and then there was no number for its event
    exfalso
    obtain ⟨hread, hcheck⟩ := UserDataStore.replacedProof_eq_ok.1 hreplaced
    have ht : t = s₁ := by
      rw [hcommit] at herr
      obtain ⟨e'', hfail, -⟩ | ⟨ev, t', hok, -⟩ :=
        Store.commitTransaction_cases s₁ false
          (.new (.mergeUsernameProofBody (some proof) existing none none))
      · cases hfail.symm.trans herr
        rfl
      · cases hok.symm.trans herr
    subst ht
    have hkey : IsTable (makeFnameUsernameProofKey proof.name) := isTable_of_root rfl (by decide)
    have hwritten : (s.setStores t).stores.view env.db (makeFnameUsernameProofKey proof.name) =
        some (.userNameProof proof) := by
      change t.view env.db _ = _
      rw [hview]
      rw [fnameWritten_record, if_pos rfl]
    have hkept : (stateOf (revokeSender env transfer (s.setStores t))).stores.view env.db
        (makeFnameUsernameProofKey proof.name) = some (.userNameProof proof) := by
      obtain ⟨-, hnone⟩ | ⟨r, -, -, -, hafter⟩ := revokeSender_view hidx transfer (s.setStores t)
      · rw [hnone]
        exact hwritten
      · rw [hafter _ hkey, eraseAll_of_not_mem, hwritten]
        exact fun hmem => absurd (Option.some.inj (root_of_mem_erased hmem)) (by decide)
    have hbefore := hsame.2 (makeFnameUsernameProofKey proof.name) ⟨.fNameUserNameProof, by simp, rfl⟩
    rw [hkept] at hbefore
    -- but the record that it replaced was an older one
    have hexisting : existing = some proof := by
      have hrecord : getFromDbOrTxn env.db s.stores.txn (makeFnameUsernameProofKey proof.name) =
          some (.userNameProof proof) := hbefore.symm
      rw [getUsernameProof, hrecord] at hread
      exact (Except.ok.inj hread).symm
    rw [hexisting] at hcheck
    simp [UserDataStore.checkUsernameProof, UserDataStore.usernameProofCompare, bytesCompare_eq_iff.2]
      at hcheck

/-- **An accepted transfer revokes at most the owner's name** exactly if the sender it names is the owner and
    has the name as username, or has none. -/
theorem acceptedTransfer_revokes_iff (hproof : transfer.proof = some proof) {event : HubEvent}
    {t : StoreState} (hvalid : validateFnameTransfer proof env.network env.fnameSignerAddress = .ok ())
    (hmerged : UserDataStore.mergeUsernameProof env.db proof s.stores = .ok event t)
    (hseen : UsernameSeen env transfer.fromFid s) {events : List HubEvent} {s' : EngineState}
    (hrun : replayFnameTransfer env transfer s = .ok events s') :
    RevokesOwnerOnly env proof s s' ↔ SenderHasName env transfer proof s := by
  obtain ⟨e, hinvalid, -⟩ | ⟨-, hmerge⟩ := replayFnameTransfer_cases env hproof s
  · cases hvalid.symm.trans hinvalid
  obtain ⟨event', t', hok, hsteps⟩ | ⟨e, t', herr, -⟩ := hmerge
  swap
  · cases hmerged.symm.trans herr
  cases hmerged.symm.trans hok
  -- the state in which the sender's username is revoked
  rw [hsteps] at hrun
  obtain ⟨_, s₁, hupdate, hrest⟩ := bind_eq_ok.1 hrun
  obtain ⟨revoked, s₂, hrevoked, hlast⟩ := bind_eq_ok.1 hrest
  cases hlast
  have hbefore :
      ∀ k, k[0]? = some RootPrefix.user.toByte → s₁.stores.view env.db k = s.stores.view env.db k := by
    intro k hk
    obtain ⟨existing, -, -, -, hview⟩ := UserDataStore.mergeUsernameProof_ok hmerged
    have htrie := @updateTrie_view _ env event (s.setStores t) k (isTable_of_root hk (by decide))
    rw [hupdate] at htrie
    refine htrie.trans ?_
    exact (hview k (isTable_of_root hk (by decide)).1).trans (fnameWritten_of_user hk)
  have hafter := revokeSender_view hidx transfer s₁
  rw [hrevoked] at hafter
  constructor
  · intro honly
    obtain ⟨hzero | hnone, -⟩ | ⟨r, -, hr, hm, hview⟩ := hafter
    · exact .inl hzero
    · exact .inr fun m hm => absurd hm (hnone m)
    · refine .inr fun m hm' => ?_
      have hmessage : r.message = m := Except.ok.inj (hm.symm.trans hm')
      subst hmessage
      refine honly r.fid r.tsHash _ r.message (hseen.stored hr hm) (messageDecode_messageEncode hr.normal) ?_
      have hgone := hview (primaryKey userDataStoreDef .legacy r) (isTable_of_root rfl (by decide))
      rw [eraseAll_of_mem (by simp)] at hgone
      intro hthere
      cases hgone.symm.trans hthere
  · intro hname fid ts v m hv hdecode hchanged
    have hroot : (makeMessagePrimaryKey RootPrefix.user.toByte fid userDataStoreDef.setPostfix ts)[0]? =
        some RootPrefix.user.toByte := rfl
    obtain ⟨-, hnone⟩ | ⟨r, hzero, hr, hm, hview⟩ := hafter
    · cases hnone
      exact absurd ((hbefore _ hroot).trans hv) hchanged
    · have hmem : makeMessagePrimaryKey RootPrefix.user.toByte fid userDataStoreDef.setPostfix ts ∈
          [userDataLayout.indexKey .legacy r, primaryKey userDataStoreDef .legacy r] := by
        by_contra hnot
        refine hchanged ?_
        have hkept := hview _ (isTable_of_root hroot (by decide))
        rw [eraseAll_of_not_mem hnot, hbefore _ hroot, hv] at hkept
        exact hkept
      obtain hindex | hprimary := List.mem_pair.1 hmem
      · exact absurd (Option.some.inj (congrArg (·[5]?) hindex)).symm userDataLayout.indexSet_ne
      · have hsame : v = messageEncode r.message := by
          rw [hprimary] at hv
          exact Option.some.inj (hv.symm.trans (hseen.stored hr hm))
        have hmessage : r.message = m := by
          rw [hsame, messageDecode_messageEncode hr.normal] at hdecode
          exact Except.ok.inj hdecode
        exact hmessage ▸ hname.resolve_left hzero r.message hm

end

end effects

/-- **When transfers of names do what they should.** A transaction is replayed as if its harmlessly rejected
    transfers were not in it. A rejected transfer changes nothing of users, names and the trie exactly if it
    is rejected harmlessly, and an accepted one revokes at most the name of its previous owner exactly if its
    sender is this owner or has no username. -/
theorem fnameTransfer_effects_iff (hidx : userDataLayout.Indexed .legacy env.db) :
    (∀ g version order timestamp txn lastSeqnum s, Strips g →
      HarmlessRun env g version (sortSystemMessages txn.systemMessages) lastSeqnum s →
      replaySnapchainTxn env order { txn with systemMessages := txn.systemMessages.map g } version timestamp
        lastSeqnum s =
        replaySnapchainTxn env order txn version timestamp lastSeqnum s) ∧
    (∀ transfer proof s, transfer.proof = some proof → RejectsProof env proof s →
      UsernameSeen env transfer.fromFid s →
      (SameRecords env s (stateOf (replayFnameTransfer env transfer s)) ↔
        HarmlessRejection env transfer proof s)) ∧
    ∀ transfer proof s, transfer.proof = some proof → ¬ RejectsProof env proof s →
    UsernameSeen env transfer.fromFid s →
      ∀ events s', replayFnameTransfer env transfer s = .ok events s' →
        (RevokesOwnerOnly env proof s s' ↔ SenderHasName env transfer proof s) := by
  refine ⟨fun g version order timestamp txn lastSeqnum s hg h =>
    replaySnapchainTxn_strip hg h order timestamp,
    fun transfer proof s =>
      rejectedTransfer_same_iff hidx, fun transfer proof s hproof haccepted hseen events s' hrun => ?_⟩
  rw [RejectsProof, not_or] at haccepted
  obtain ⟨hvalid, hmerged⟩ := haccepted
  cases hv : validateFnameTransfer proof env.network env.fnameSignerAddress with
  | error e => exact absurd ⟨e, hv⟩ hvalid
  | ok =>
    cases hm : UserDataStore.mergeUsernameProof env.db proof s.stores with
    | error e t => exact absurd ⟨e, t, hm⟩ hmerged
    | ok event t => exact acceptedTransfer_revokes_iff hidx hproof hv hm hseen hrun

end transfers

/-! ### A name given away by its owner -/

/-- User 1 calls itself by the given name. -/
def sampleUsername (name : Bytes) : Message where
  data := some ⟨MessageType.userDataAdd.toI32, 1, 5, 1, some (.userDataBody UserDataType.username.toI32 name)⟩
  hash := List.replicate 20 1
  hashScheme := 1
  signature := [1]
  signatureScheme := ed25519
  signer := [7]
  dataBytes := none

def sampleUsernameRecord (name : Bytes) : Record :=
  ⟨sampleUsername name, 1, toBeBytes (5 : UInt32) ++ List.replicate 20 1, [6], false⟩

def sampleUsernameKey : Bytes :=
  makeMessagePrimaryKey RootPrefix.user.toByte 1 UserPostfix.userDataMessage.toByte
    (toBeBytes (5 : UInt32) ++ List.replicate 20 1)

/-- A proof of the name "a". -/
def sampleNameProof (timestamp fid : UInt64) : UserNameProof where
  timestamp := timestamp
  name := [97]
  owner := []
  signature := List.replicate 65 1
  fid := fid
  type := 1

/-- Libraries with one message to scan for, in which the name server has signed everything. -/
@[reducible] def transferPlatform : Platform :=
  { samplePlatform (keyScan [sampleUsernameKey]) with recoverAddress := fun _ _ => some fnameSignerAddress }

def transferEnv (db : RocksDB) : EngineEnv where
  shardId := 1
  network := .mainnet
  db := db
  now := 1760000000

/-- User 1 owns the name "a" and has it as username. -/
def ownerDb : RocksDB :=
  let o : RocksDB := fun _ => none
  let o := Function.update o (primaryKey userDataStoreDef .legacy (sampleUsernameRecord [97]))
    (some (.message (sampleUsername [97])))
  let o := Function.update o (userDataLayout.indexKey .legacy (sampleUsernameRecord [97]))
    (some (.bytes (toBeBytes (5 : UInt32) ++ List.replicate 20 1)))
  Function.update o (makeFnameUsernameProofKey [97]) (some (.userNameProof (sampleNameProof 4 1)))

theorem ownerDb_eq_some {v : DbValue} (h : ownerDb k = some v) :
    k = makeFnameUsernameProofKey [97] ∨ k = userDataLayout.indexKey .legacy (sampleUsernameRecord [97]) ∨
      k = primaryKey userDataStoreDef .legacy (sampleUsernameRecord [97]) := by
  by_contra hne
  simp only [not_or] at hne
  rw [ownerDb] at h
  simp [hne.1, hne.2.1, hne.2.2] at h

theorem ownerDb_held : let _ := transferPlatform
    userDataLayout.Held .legacy ownerDb (sampleUsernameRecord [97]) := by
  intro platform
  exact ⟨⟨⟨_, rfl, rfl, rfl⟩, rfl, .inl ⟨rfl, rfl⟩⟩, rfl, rfl, rfl⟩

theorem ownerDb_indexed : let _ := transferPlatform
    userDataLayout.Indexed .legacy ownerDb := by
  intro platform
  refine ⟨fun {fid ts v} h => ⟨sampleUsernameRecord [97], ownerDb_held, ?_⟩,
    fun {fid b slot v} h => ⟨sampleUsernameRecord [97], ownerDb_held, ?_⟩⟩
  · obtain h | h | h := ownerDb_eq_some h
    · exact absurd (Option.some.inj (congrArg (·[0]?) h)) (by decide)
    · exact absurd (Option.some.inj (congrArg (·[5]?) h)) (by decide)
    · exact h.symm
  · obtain h | h | h := ownerDb_eq_some h
    · exact absurd (Option.some.inj (congrArg (·[0]?) h)) (by decide)
    · have hset : (userDataLayout.indexSet b).toByte = UserPostfix.userDataAdds.toByte :=
        Option.some.inj (congrArg (·[5]?) h)
      cases b with
      | true => exact absurd hset (by decide)
      | false =>
        obtain ⟨hfid, hslot⟩ := makeIndexKey_inj.1 h
        exact ⟨rfl, Prod.ext hfid.symm hslot.symm⟩
    · exact absurd (Option.some.inj (congrArg (·[5]?) h)) userDataLayout.indexSet_ne

/-- The owner of "a" gives it to user 3, and loses it as username and nothing else. -/
theorem fnameTransfer_effects_owner :
    let _ := transferPlatform
    let env := transferEnv ownerDb
    let s : EngineState := ⟨Batch.empty, ⟨1, 0⟩, ⟨1, 0⟩, (MerkleTrie.new.initializeTrie fun _ => none).1⟩
    ∃ events s', replayFnameTransfer env ⟨1, 1, some (sampleNameProof 7 3)⟩ s = .ok events s' ∧
      RevokesOwnerOnly env (sampleNameProof 7 3) s s' := by
  intro platform env s
  obtain ⟨events, s', hreplay⟩ :=
    exists_of_isOk (r := replayFnameTransfer env ⟨1, 1, some (sampleNameProof 7 3)⟩ s)
    (by decide +kernel)
  have hmerged : isOk (UserDataStore.mergeUsernameProof env.db (sampleNameProof 7 3) s.stores) =
      true := by decide +kernel
  have hstored : (UserDataStore.getUserDataByFidAndType (userDataStore env) env.db 1 .username).toOption =
      some (sampleUsername [97]) := by decide +kernel
  refine ⟨events, s', hreplay, ?_⟩
  refine ((fnameTransfer_effects_iff ownerDb_indexed).2.2 ⟨1, 1, some (sampleNameProof 7 3)⟩
    (sampleNameProof 7 3) s rfl ?_ ?_ events s' hreplay).2 (.inr fun m hm => ?_)
  · rintro (⟨e, he⟩ | ⟨e, t, ht⟩)
    · cases he
    · rw [ht] at hmerged
      cases hmerged
  · exact fun _ _ _ _ => rfl
  · cases Except.ok.inj ((except_eq_ok_of_toOption hstored).symm.trans hm)
    exact ⟨sampleNameProof 4 1, rfl, rfl, rfl⟩

/-! ### A username lost to an old proof -/

/-- A new shard after user 1 took the username "b" and a proof gave "a" to user 2 from time 6 on. -/
def transferSetup : EngineState :=
  let _ := transferPlatform
  let (trie, db, _) := MerkleTrie.new.initializeTrie fun _ => none
  let env := transferEnv db
  stateOf ((do
    let merged ← inStores
      (((userDataStore env).merge env.db (sampleUsername [98])).toOp EngineError.storeError)
    updateTrie env merged
    let named ← inStores
      ((UserDataStore.mergeUsernameProof env.db (sampleNameProof 6 2)).toOp EngineError.storeError)
    updateTrie env named : EngineM EngineError Unit) ⟨Batch.empty, ⟨1, 0⟩, ⟨1, 0⟩, trie⟩)

def transferDb : RocksDB := commit (MerkleTrie.new.initializeTrie fun _ => none).2.1 transferSetup.txn

/-- The shard in the next block. -/
def transferState : EngineState := ⟨Batch.empty, ⟨2, 0⟩, ⟨2, 0⟩, transferSetup.trie⟩

/-- A transaction with system messages only. -/
def systemTxn (systemMessages : List ValidatorMessage) : Transaction := ⟨2, [], systemMessages, []⟩

/-- **A rejected transfer revokes a username.** A proof of "a" from time 5 is too old. The transfer that
    carries it names user 1 as sender, who has never had "a", and after the transaction the username "b" of
    user 1 is gone. -/
theorem rejectedTransfer_revokes :
    let _ := transferPlatform
    let env := transferEnv transferDb
    let transfer : FnameTransfer := ⟨1, 1, some (sampleNameProof 5 3)⟩
    let after := fun messages =>
      (stateOf (replaySnapchainTxn env .ofInsertion (systemTxn messages) .v1 ⟨1⟩ 0 transferState)).stores.view
        env.db
    RejectsProof env (sampleNameProof 5 3) transferState ∧
      (after [⟨none, none, none⟩] sampleUsernameKey).isSome = true ∧
      (after [⟨none, some transfer, none⟩] sampleUsernameKey).isSome = false := by
  intro platform env transfer after
  exact ⟨.inr (exists_of_not_isOk (by decide +kernel)), by decide +kernel, by decide +kernel⟩

end Hypersnap
