import Hypersnap.Store.Defs
import Hypersnap.Store.OnChainEvents

/-!
# `Store.Names` — proofs of user names

Two kinds of names are kept apart. A name with an on-chain proof arrives as a **message** and is kept by a
store like the others, with an index by name; its conflicts are looked for under the name, whoever owns it,
and always in the pruned copy of the state. A name given out by the name server (an *fname*) is a bare proof,
kept under the name in a table of its own, with an index by fid; a proof for fid 0 takes the name back.
-/

namespace Hypersnap

open EState

/-! ## Names as messages -/

namespace UsernameProofStoreDef

def makeUsernameProofByNameKey (root : UInt8) (name : Bytes) : Bytes := root :: name

def proofOf (m : Message) : Option UserNameProof :=
  match m.data.bind (·.body) with
  | some (.usernameProofBody proof) => some proof
  | _ => none

def makeAddKey (m : Message) (ctx : StateContext) : Except Failure Bytes :=
  match m.data with
  | none => .error (.hub (.validationFailure "Message data is missing"))
  | some data =>
    match data.body with
    | some (.usernameProofBody proof) => .ok (makeIndexKey ctx data.fid .userNameProofAdds proof.name)
    | _ => .error (.hub (.validationFailure "Message body is missing"))

/-- The key of the by-name entry, with the fid it is for; the two callers differ in the text of one error. -/
def byNameEntry (withoutBody : String) (m : Message) (ctx : StateContext) :
    Except Failure (Bytes × DbValue) :=
  match m.data with
  | none => .error (.hub (.validationFailure "Message data is missing"))
  | some data =>
    match data.body with
    | some (.usernameProofBody proof) =>
      if proof.name.isEmpty then .error (.hub (.invalidParameter "name empty"))
      else .ok (makeUsernameProofByNameKey (ctx.rootPrefix .userNameProofByName) proof.name,
        .bytes (makeFidKey data.fid))
    | _ => .error (.hub (.validationFailure withoutBody))

def secondaryIndices (_ : Bytes) (m : Message) (ctx : StateContext) :
    Except Failure (List (Bytes × DbValue)) := do
  let entry ← byNameEntry "Message body is missing or incorrect" m ctx
  .ok [entry]

def secondaryIndexKeys (_ : Bytes) (m : Message) (ctx : StateContext) : Except Failure (List Bytes) := do
  let entry ← byNameEntry "Message data body is missing or incorrect" m ctx
  .ok [entry.1]

/-- The fid of a by-name entry. -/
def fidOf : DbValue → Except Failure UInt64
  | .bytes b => readFidKey b 0
  | _ => .error .panic

/-- The proof stored for the name, whoever it belongs to, if it has to give way. -/
def getMergeConflicts [Prost] (db : RocksDB) (txn : RocksDbTransactionBatch) (message : Message)
    (tsHash : Bytes) (_ : StateContext) : Except Failure (List Message) := do
  let some data := message.data | .error (.hub (.validationFailure "Message data is missing"))
  let some (.usernameProofBody proof) := data.body
    | .error (.hub (.validationFailure "Message data body is missing"))
  match getFromDbOrTxn db txn (makeUsernameProofByNameKey RootPrefix.userNameProofByName.toByte proof.name)
    with
  | none => .ok []
  | some value => do
    let fid ← fidOf value
    if fid = 0 then .ok []
    else
      match getFromDbOrTxn db txn (makeIndexKey .legacy fid .userNameProofAdds proof.name) with
      | none => .error (.hub ⟨"bad_request.internal_error", "message_ts_hash is not 24 bytes: None"⟩)
      | some value => do
        let existing ← Store.indexTsHash value
        match getMessage db txn RootPrefix.user.toByte fid UserPostfix.usernameProofMessage.toByte existing
          with
        | .ok (some existingMessage) =>
          let add := asU8 MessageType.usernameProof.toI32
          match defaultMessageCompare add 0 add existing add tsHash with
          | .gt => .error (.hub (.conflict "message conflicts with a more recent add"))
          | .eq => .error (.hub (.duplicate "message has already been merged"))
          | .lt => .ok [existingMessage]
        | _ => .ok []

def revokeEventArgs (m : Message) : HubEventBody := .mergeUsernameProofBody none (proofOf m) none (some m)

def mergeEventArgs (m : Message) (conflicts : List Message) : HubEventBody :=
  match conflicts.head? with
  | some deleted =>
    match proofOf deleted with
    | some proof => .mergeUsernameProofBody (proofOf m) (some proof) (some m) (some deleted)
    | none => .mergeUsernameProofBody (proofOf m) none (some m) none
  | none => .mergeUsernameProofBody (proofOf m) none (some m) none

end UsernameProofStoreDef

def usernameProofStoreDef [Prost] : StoreDef where
  setPostfix := UserPostfix.usernameProofMessage.toByte
  addMessageType := asU8 MessageType.usernameProof.toI32
  removeMessageType := asU8 MessageType.none.toI32
  compactStateMessageType := asU8 MessageType.none.toI32
  isAddType m := m.hasType .usernameProof
  isRemoveType _ := false
  isCompactStateType _ := false
  makeAddKey := UsernameProofStoreDef.makeAddKey
  makeRemoveKey _ _ := .error (.hub (.validationFailure "Remove not supported"))
  makeCompactStateAddKey _ _ :=
    .error (.hub (.invalidParameter "Username Proof Store doesn't support compact state"))
  secondaryIndices := UsernameProofStoreDef.secondaryIndices
  secondaryIndexKeys := UsernameProofStoreDef.secondaryIndexKeys
  ownMergeConflicts := some UsernameProofStoreDef.getMergeConflicts
  mergeEventArgs := UsernameProofStoreDef.mergeEventArgs
  revokeEventArgs := UsernameProofStoreDef.revokeEventArgs
  pruneEventArgs := UsernameProofStoreDef.revokeEventArgs

namespace UsernameProofStore

/-- A name for the text of an error. -/
def nameText (name : Bytes) : String := (String.fromUTF8? ⟨name.toArray⟩).getD ""

/-- The message that carries only the key fields of a proof. -/
def partialMessage (fid : UInt64) (name : Bytes) : Message :=
  ⟨some ⟨0, fid, 0, 0, some (.usernameProofBody ⟨0, name, [], [], 0, 0⟩)⟩, [], 0, [], 0, [], none⟩

/-- The message that proves a name. A name without an entry is an error. -/
def getUsernameProof [Prost] (store : Store) (db : RocksDB) (txn : RocksDbTransactionBatch) (name : Bytes) :
    Except Failure (Option Message) :=
  match getFromDbOrTxn db txn
      (UsernameProofStoreDef.makeUsernameProofByNameKey RootPrefix.userNameProofByName.toByte name) with
  | none => .error (.hub (.notFound ("NotFound: Username proof not found for name " ++ nameText name)))
  | some value => do
    let fid ← UsernameProofStoreDef.fidOf value
    store.getAdd db txn (partialMessage fid name)

end UsernameProofStore

/-! ## Names of the name server -/

def makeFnameUsernameProofKey (name : Bytes) : Bytes := RootPrefix.fNameUserNameProof.toByte :: name

def makeFnameUsernameProofByFidKey (fid : UInt64) : Bytes :=
  RootPrefix.fNameUserNameProofByFid.toByte :: makeFidKey fid

def getUsernameProof (db : RocksDB) (txn : RocksDbTransactionBatch) (name : Bytes) :
    Except Failure (Option UserNameProof) :=
  match getFromDbOrTxn db txn (makeFnameUsernameProofKey name) with
  | none => .ok none
  | some (.userNameProof proof) => .ok (some proof)
  | some _ => .error (.hub ⟨"internal_error", "could not decode username proof"⟩)

/-- The new owner's entry is put first, the old owner's deleted after it. -/
def putUsernameProofTransaction (proof : UserNameProof) (existingFid : Option UInt64) : StoreM Unit := do
  let primaryKey := makeFnameUsernameProofKey proof.name
  txnPut primaryKey (.userNameProof proof)
  txnPut (makeFnameUsernameProofByFidKey proof.fid) (.bytes primaryKey)
  if let some fid := existingFid then txnDelete (makeFnameUsernameProofByFidKey fid)

def deleteUsernameProofTransaction (proof : UserNameProof) (existingFid : Option UInt64) : StoreM Unit := do
  txnPut (makeFnameUsernameProofKey proof.name) (.userNameProof proof)
  if let some fid := existingFid then txnDelete (makeFnameUsernameProofByFidKey fid)

namespace UserDataStore

def usernameProofCompare (a b : UserNameProof) : Ordering :=
  if a.timestamp < b.timestamp then .lt
  else if b.timestamp < a.timestamp then .gt
  else bytesCompare a.signature b.signature

/-- The proof must be newer than the stored one. -/
def checkUsernameProof (existing : Option UserNameProof) (proof : UserNameProof) : Except Failure Unit :=
  match existing with
  | some existing =>
    match usernameProofCompare existing proof with
    | .eq => .error (.hub (.duplicate "username proof already exists"))
    | .gt => .error (.hub (.conflict "event conflicts with a more recent UserNameProof"))
    | .lt => .ok ()
  | none => if proof.fid = 0 then .error (.hub (.conflict "proof does not exist")) else .ok ()

def mergeUsernameProof (db : RocksDB) (proof : UserNameProof) : StoreM HubEvent := do
  let existing ← fromExcept (getUsernameProof db (← get).txn proof.name)
  fromExcept (checkUsernameProof existing proof)
  let existingFid := existing.map (·.fid)
  if proof.fid = 0 then deleteUsernameProofTransaction proof existingFid
  else putUsernameProofTransaction proof existingFid
  commitTransaction false (.new (.mergeUsernameProofBody (some proof) existing none none))

/-- The stored user data of a type, if there is exactly one message with it. -/
def getUserDataByFidAndType [Prost] [DbIterator] (store : Store) (db : RocksDB) (fid : UInt64)
    (type : UserDataType) : Except Failure Message := do
  let isOfType (m : Message) : Bool :=
    match m.data.bind (·.body) with
    | some (.userDataBody t _) => t == type.toI32
    | _ => false
  match store.getAddsByFid db fid isOfType with
  | .ok [message] => .ok message
  | .error .panic => .error .panic
  | _ => .error (.hub (.notFound "user data not found"))

end UserDataStore

end Hypersnap
