import Hypersnap.Engine.Replay
import Hypersnap.Store.Footprint
import Hypersnap.Trie.Footprint

/-!
# `Engine.Footprint` — what the steps of a replay keep

The steps of a replay leave the registered keys alone, but for the merge of user messages and the check of
their signers. So they keep every property of the batch that depends on the registered keys only, one lemma
for each step.
-/

namespace Hypersnap

open Overlay EState

/-- The property of the batch, on the state of the engine. -/
def InTxn (P : RocksDbTransactionBatch → Prop) (s : EngineState) : Prop := P s.txn

theorem aside_of_storeDefOf [Platform] {type : MessageType} {d : StoreDef} (h : storeDefOf type = some d) :
    d.Aside := by
  cases type <;> simp only [storeDefOf, Option.some.injEq, reduceCtorEq] at h <;> subst h
  case castAdd | castRemove => exact castStoreDef_aside
  case linkAdd | linkRemove | linkCompactState => exact linkStoreDef_aside
  case reactionAdd | reactionRemove => exact reactionStoreDef_aside
  case userDataAdd => exact userDataStoreDef_aside
  case verificationAddEthAddress | verificationRemove => exact verificationStoreDef_aside
  case usernameProof => exact usernameProofStoreDef_aside

section keeps
variable {ε α : Type} {P : RocksDbTransactionBatch → Prop} {x : StoreOp ε α}

theorem keeps_inStores (hx : Keeps (InBatch P) x) : Keeps (InTxn P) (inStores x) :=
  hx.zoom (fun _ hs => hs) fun _ _ _ ht => ht

theorem keeps_inHyperStores (hx : Keeps (InBatch P) x) : Keeps (InTxn P) (inHyperStores x) :=
  hx.zoom (fun _ hs => hs) fun _ _ _ ht => ht

theorem keeps_toOp {x : StoreM α} {f : HubError → ε} (hx : Keeps (InBatch P) x) :
    Keeps (InBatch P) (x.toOp f) :=
  hx.mapError _

variable [Platform] {env : EngineEnv} {type : MessageType}

/-! ## Merging and revoking -/

theorem mergeIntoStore_eq {d : StoreDef} (hd : storeDefOf type = some d) (ctx : StateContext) (m : Message) :
    mergeIntoStore env ctx type m = some (do return [← (env.store ctx d).merge env.db m]) := by
  cases type <;> first | cases hd; rfl | cases hd

variable (h : KeysOnly P)
include h

theorem keeps_mergeIntoStore {ctx : StateContext} {m : Message} {merge : StoreM (List HubEvent)}
    (hmerge : mergeIntoStore env ctx type m = some merge) : Keeps (InBatch P) merge := by
  unfold mergeIntoStore at hmerge
  split at hmerge
  · cases hmerge
    exact @Store.keeps_mergeLend P h (env.store ctx storageLendStoreDef) m storageLendStoreDef_aside _ _ _
  · obtain ⟨d, hd, hmerge⟩ := Option.map_eq_some_iff.1 hmerge
    subst hmerge
    exact .bind (@Store.keeps_merge P h (env.store ctx d) m (aside_of_storeDefOf hd) _ _ _) fun _ => .pure _

theorem keeps_mergeMessageHyper (m : Message) :
    Keeps (InTxn P) (mergeMessageHyper env m : EngineM ε Unit) := by
  unfold mergeMessageHyper
  split
  next merge hmerge =>
    obtain ⟨type, -, hmerge⟩ := Option.bind_eq_some_iff.1 hmerge
    exact .bind (keeps_inHyperStores (keeps_toOp (keeps_mergeIntoStore h hmerge))).recover fun _ => .pure _
  next => exact .pure _

theorem keeps_revokeMessages (ctx : StateContext) (fid : UInt64) (key : Bytes) :
    Keeps (InBatch P) (revokeMessages env ctx fid key) := by
  have hfrom (defs : List StoreDef) (hdefs : ∀ d ∈ defs, d.Aside) :
      Keeps (InBatch P) (revokeFrom env ctx fid key defs) := by
    induction defs with
    | nil => exact .pure _
    | cons d defs ih =>
      refine .bind (keeps_toOp ?_) fun events =>
        .bind (ih fun d' hd' => hdefs d' (.tail _ hd')) fun _ => .pure _
      exact @Store.keeps_revokeEntries P h (env.store ctx d) (hdefs d (.head _)) _ _ _
  refine hfrom _ fun d hd => ?_
  simp only [revocableStoreDefs, List.mem_cons, List.not_mem_nil, or_false] at hd
  rcases hd with rfl | rfl | rfl | rfl | rfl
  · exact castStoreDef_aside
  · exact linkStoreDef_aside
  · exact reactionStoreDef_aside
  · exact userDataStoreDef_aside
  · exact verificationStoreDef_aside

/-! ## The trie -/

theorem keeps_updateTrie (event : HubEvent) : Keeps (InTxn P) (updateTrie env event) := by
  intro s hs
  unfold updateTrie
  cases hupdate : s.trie.updateForEvent env.db event s.txn with
  | none => exact hs
  | some out =>
    obtain ⟨trie, txn, r⟩ := out
    have htxn : P txn := by
      refine h (fun key hkey => MerkleTrie.updateForEvent_offTrie hupdate key ?_) hs
      rw [not_not.1 hkey]
      decide
    cases r with
    | ok _ => exact htxn
    | error e => exact htxn

theorem keeps_updateTrieAll (events : List HubEvent) : Keeps (InTxn P) (updateTrieAll env events) := by
  induction events with
  | nil => exact .pure _
  | cons event events ih => exact .bind (keeps_updateTrie h event) fun _ => ih

theorem keeps_afterMerge (m : Message) (events : List HubEvent) (a : α) : Keeps (InTxn P) (do
    mergeMessageHyper env m
    updateTrieAll env events
    pure a : EngineM EngineError α) :=
  .bind (keeps_mergeMessageHyper h m) fun _ => .bind (keeps_updateTrieAll h events) fun _ => .pure _

/-! ## System messages -/

theorem keeps_replayOnchainEvent (version : EngineVersion) (event : OnChainEvent) :
    Keeps (InTxn P) (replayOnchainEvent env version event) := by
  refine .bind (keeps_inStores (h.keeps_mergeOnchainEvent _ _ event)).recover fun r => ?_
  cases r with
  | ok hubEvent => exact .bind (keeps_updateTrie h hubEvent) fun _ => .pure _
  | error e => exact .pure _

theorem keeps_revokeUsername (fromFid : UInt64) : Keeps (InTxn P) (revokeUsername env fromFid) := by
  unfold revokeUsername
  dsimp only
  split
  · exact .throw _
  · exact .pure _
  · refine .bind
      (keeps_inStores (keeps_toOp (Store.keeps_revoke h userDataStoreDef_aside))).recover fun r => ?_
    cases r with
    | ok hubEvent => exact .bind (keeps_updateTrie h hubEvent) fun _ => .pure _
    | error e => exact .pure _

theorem keeps_replayFnameTransfer (transfer : FnameTransfer) :
    Keeps (InTxn P) (replayFnameTransfer env transfer) := by
  unfold replayFnameTransfer
  split
  · exact .pure _
  · split
    · exact .pure _
    · have hrevoke (merged : List HubEvent) : Keeps (InTxn P) (do
          let revoked ← if 0 < transfer.fromFid then revokeUsername env transfer.fromFid else pure []
          pure (merged ++ revoked)) := .ite (.bind (keeps_revokeUsername h _) fun _ => .pure _) (.pure _)
      refine .bind (keeps_inStores (keeps_toOp (h.keeps_mergeUsernameProof _ _))).recover fun r => ?_
      cases r with
      | ok hubEvent => exact .bind (keeps_updateTrie h hubEvent) fun _ => hrevoke _
      | error e => exact hrevoke _

theorem keeps_revokeSigners (fid : UInt64) (keys : List Bytes) :
    Keeps (InTxn P) (revokeSigners env fid keys) := by
  induction keys with
  | nil => exact .pure _
  | cons key keys ih =>
    have hrest (events : List HubEvent) : Keeps (InTxn P) (do
        return events ++ (← revokeSigners env fid keys)) := .bind ih fun _ => .pure _
    refine .bind (keeps_inHyperStores (keeps_revokeMessages h .hyper fid key)).recover fun _ => ?_
    refine .bind (keeps_inStores (keeps_revokeMessages h .legacy fid key)).recover fun r => ?_
    cases r with
    | ok events => exact .bind (keeps_updateTrieAll h events) fun _ => hrest events
    | error e => exact hrest []

/-! ## User messages -/

omit [Platform] h in
theorem keeps_read (x : Except (Stop ε) α) : Keeps (InTxn P) (read x) := .fromExcept x

omit [Platform] in
theorem keeps_recordFailure (message : Message) (err : MessageValidationError) :
    Keeps (InTxn P) (recordFailure message err) := by
  refine .bind (keeps_inStores (keeps_toOp (Store.keeps_commitTransaction h false _))).recover fun r => ?_
  cases r <;> exact .pure _

/-! ## Pruning and side effects -/

theorem keeps_pruneMessages (type : MessageType) (fid : UInt64) (version : EngineVersion) :
    Keeps (InTxn P) (pruneMessages env fid type version) := by
  refine .get_bind fun s => .bind (keeps_read _) fun usage => ?_
  obtain ⟨currentCount, maxCount⟩ := usage
  dsimp only
  split
  next d hd =>
    refine .ite (.pure _) (keeps_inStores (keeps_toOp ?_))
    exact @Store.keeps_pruneMessages P h (env.store .legacy d) (aside_of_storeDefOf hd) _ _ _ _ _ _
  next =>
    split
    · exact .pure _
    · exact .throw _

theorem keeps_pruneTypes (types : List MessageType) (fid : UInt64) (version : EngineVersion) :
    Keeps (InTxn P) (pruneTypes env fid version types) := by
  induction types with
  | nil => exact .pure _
  | cons type types ih =>
    have hrest (events : List HubEvent) : Keeps (InTxn P) (do
        return events ++ (← pruneTypes env fid version types)) := .bind ih fun _ => .pure _
    refine .bind (keeps_pruneMessages h type fid version).recover fun r => ?_
    cases r with
    | ok events => exact .bind (keeps_updateTrieAll h events) fun _ => hrest events
    | error e => exact hrest []

theorem keeps_replaySideEffects (version : EngineVersion) (events : List HubEvent) :
    Keeps (InTxn P) (replaySideEffects env version events) := by
  have hcheck (fid : UInt64) (address : Bytes) (protocol : Int32) :
      Keeps (InTxn P) (checkAndRevokePrimaryAddress env fid address protocol) := by
    refine .bind (keeps_read _) fun parsed => ?_
    obtain ⟨parsedAddress, type⟩ := parsed
    dsimp only
    split
    · exact .throw _
    · exact .pure _
    · split
      · refine .ite (.bind ?_ fun _ => .pure _) (.pure _)
        exact keeps_inStores (keeps_toOp (Store.keeps_revoke h userDataStoreDef_aside))
      · exact .pure _
  have hdeleted (messages : List Message) : Keeps (InTxn P) (sideEffectsOfDeleted env messages) := by
    induction messages with
    | nil => exact .pure _
    | cons message messages ih =>
      have hrest (events : List HubEvent) : Keeps (InTxn P) (do
          return events ++ (← sideEffectsOfDeleted env messages)) := .bind ih fun _ => .pure _
      unfold sideEffectsOfDeleted
      split
      · split
        · exact .bind (hcheck _ _ _) hrest
        · exact hrest []
      · exact .throw _
  have heffects : Keeps (InTxn P) (handleDeleteSideEffects env version events) :=
    .ite ((hdeleted _).mapError _) (.pure _)
  refine .bind heffects.recover fun r => ?_
  cases r with
  | ok revoked => exact .bind (keeps_updateTrieAll h revoked) fun _ => .pure _
  | error e => exact .pure _

end keeps

end Hypersnap
