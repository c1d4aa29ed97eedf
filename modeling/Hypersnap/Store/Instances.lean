import Hypersnap.Store.Layout

/-!
# `Store.Instances` — the layouts of the five stores

Each store definition satisfies the laws of a `Layout`. The two orders are byte orders: by default a message
ranks as `timestamp · (remove over add) · hash`, a cast as `(remove over add) · timestamp · hash`.
-/

namespace Hypersnap

open Overlay EState

variable {m : Message} {ctx : StateContext} {k a b ts : Bytes} {data : MessageData}
  {es : List (Bytes × DbValue)} {t : MessageType} {set : UserPostfix} {body : Body}

/-! ## Orders -/

/-- A remove ranks over an add. -/
def removeFlag (isRemove : Bool) : UInt8 := if isRemove then 1 else 0

def defaultRank (isRemove : Bool) (ts : Bytes) : Bytes :=
  ts.take 4 ++ removeFlag isRemove :: (ts.drop 4).take 20

def castRank (isRemove : Bool) (ts : Bytes) : Bytes :=
  removeFlag isRemove :: (ts.take 4 ++ (ts.drop 4).take 20)

theorem removeFlag_inj {b b' : Bool} (h : removeFlag b = removeFlag b') : b = b' := by
  cases b <;> cases b' <;> first | rfl | exact absurd h (by decide)

theorem length_take_four (ha : a.length = tsHashLength) (hb : b.length = tsHashLength) :
    (a.take 4).length = (b.take 4).length := by
  simp [ha, hb]

theorem take_append_rest (ha : a.length = tsHashLength) : a.take 4 ++ (a.drop 4).take 20 = a := by
  have hdrop : (a.drop 4).take 20 = a.drop 4 := List.take_of_length_le (by simp [ha, tsHashLength])
  rw [hdrop, List.take_append_drop]

theorem defaultMessageCompare_eq {add remove : UInt8} (hne : add ≠ remove) (ra rb : Bool)
    (ha : a.length = tsHashLength) (hb : b.length = tsHashLength) :
    defaultMessageCompare add remove (if ra then remove else add) a (if rb then remove else add) b =
      bytesCompare (defaultRank ra a) (defaultRank rb b) := by
  have hone : compare (1 : UInt8) 0 = .gt := by decide
  have hzero : compare (0 : UInt8) 1 = .lt := by decide
  rw [defaultRank, defaultRank, bytesCompare_append _ _ (length_take_four ha hb), bytesCompare_cons]
  unfold defaultMessageCompare
  cases bytesCompare (a.take 4) (b.take 4) with
  | lt => rfl
  | gt => rfl
  | eq => cases ra <;> cases rb <;> simp [removeFlag, hne, hne.symm, hone, hzero]

theorem castMessageCompare_eq (ra rb : Bool) (ha : a.length = tsHashLength) (hb : b.length = tsHashLength) :
    CastStoreDef.messageCompare (castStoreDef.typeOf ra) a (castStoreDef.typeOf rb) b =
      bytesCompare (castRank ra a) (castRank rb b) := by
  have hone : compare (1 : UInt8) 0 = .gt := by decide
  have hzero : compare (0 : UInt8) 1 = .lt := by decide
  have hne : asU8 MessageType.castAdd.toI32 ≠ asU8 MessageType.castRemove.toI32 := by decide
  rw [castRank, castRank, bytesCompare_cons, bytesCompare_append _ _ (length_take_four ha hb)]
  unfold CastStoreDef.messageCompare StoreDef.typeOf
  cases ra <;> cases rb <;> simp [castStoreDef, removeFlag, hne, hne.symm, hone, hzero] <;>
    cases bytesCompare (a.take 4) (b.take 4) <;> rfl

theorem defaultRank_inj {ra rb : Bool} (ha : a.length = tsHashLength) (hb : b.length = tsHashLength)
    (h : defaultRank ra a = defaultRank rb b) : ra = rb ∧ a = b := by
  obtain ⟨htake, hrest⟩ := List.append_inj h (length_take_four ha hb)
  obtain ⟨hflag, hdrop⟩ := List.cons.inj hrest
  refine ⟨removeFlag_inj hflag, ?_⟩
  rw [← take_append_rest ha, ← take_append_rest hb, htake, hdrop]

theorem castRank_inj {ra rb : Bool} (ha : a.length = tsHashLength) (hb : b.length = tsHashLength)
    (h : castRank ra a = castRank rb b) : ra = rb ∧ a = b := by
  obtain ⟨hflag, hrest⟩ := List.cons.inj h
  rw [take_append_rest ha, take_append_rest hb] at hrest
  exact ⟨removeFlag_inj hflag, hrest⟩

/-! ## Types -/

theorem Message.hasType_iff :
    m.hasType t = true ↔ ∃ data, m.data = some data ∧ m.signatureScheme = ed25519 ∧ data.type = t.toI32 ∧
      data.body.isSome = true := by
  unfold Message.hasType
  cases m.data with
  | none => simp
  | some data => simp [and_assoc]

theorem ofType_of_hasType {d : StoreDef} (h : m.hasType t = true) (hset : typeToSetPostfix t = .ok set)
    (hd : set.toByte = d.setPostfix) : d.OfType m (asU8 t.toI32) := by
  obtain ⟨data, hdata, -, htype, -⟩ := Message.hasType_iff.1 h
  exact ⟨data, t, set, hdata, by rw [htype, MessageType.tryFrom_toI32], hset, hd, by rw [htype]⟩

theorem hasType_false {t' : MessageType} (h : m.hasType t = true) (hne : t ≠ t') : m.hasType t' = false := by
  rw [Bool.eq_false_iff]
  intro h'
  obtain ⟨data, hdata, -, htype, -⟩ := Message.hasType_iff.1 h
  obtain ⟨data', hdata', -, htype', -⟩ := Message.hasType_iff.1 h'
  cases hdata.symm.trans hdata'
  have := congrArg MessageType.tryFrom (htype.symm.trans htype')
  simp only [MessageType.tryFrom_toI32, Option.some.injEq] at this
  exact hne this

/-! ## Keys that end in the message -/

/-- A secondary key that ends in the `tsHash` and fid of the message it is for. -/
def EndsIn (ctx : StateContext) (ts : Bytes) (fid : UInt64) (k : Bytes) : Prop :=
  ∃ p rest, RootPrefix.isSecondary p = true ∧ k = ctx.rootPrefix p :: (rest ++ targetKeyEnd ts fid)

theorem targetKeyEnd_eq {fid : UInt64} (hts : ts.length = tsHashLength) (hfid : fid ≠ 0) :
    targetKeyEnd ts fid = ts ++ makeFidKey fid := by
  rw [targetKeyEnd, if_pos hts, if_pos (UInt64.pos_iff_ne_zero.2 hfid)]

theorem EndsIn.tsHash_eq {ts' : Bytes} {fid fid' : UInt64} (h : EndsIn ctx ts fid k)
    (h' : EndsIn ctx ts' fid' k) (hts : ts.length = tsHashLength) (hts' : ts'.length = tsHashLength)
    (hfid : fid ≠ 0) (hfid' : fid' ≠ 0) : ts = ts' := by
  obtain ⟨p, rest, -, hk⟩ := h
  obtain ⟨p', rest', -, hk'⟩ := h'
  rw [targetKeyEnd_eq hts hfid] at hk
  rw [targetKeyEnd_eq hts' hfid'] at hk'
  have hrest := (List.cons.inj (hk.symm.trans hk')).2
  have hend := (List.append_inj' hrest (by simp [hts, hts'])).2
  exact (List.append_inj hend (hts.trans hts'.symm)).1

/-! ## Bodies -/

theorem Message.bodyOf_eq_ok (h : m.bodyOf = .ok (data, body)) :
    m.data = some data ∧ data.body = some body := by
  unfold Message.bodyOf at h
  split at h
  next => cases h
  next hd =>
    split at h
    next => cases h
    next hb =>
      cases h
      exact ⟨hd, hb⟩

theorem LinkStore.dataBody_eq_ok (h : dataBody m = .ok (data, body)) : m.bodyOf = .ok (data, body) := by
  unfold dataBody at h
  unfold Message.bodyOf
  split at h
  next => cases h
  next => split at h <;> cases h; rfl

/-! ## Casts -/

def castSlot (m : Message) : Option Bytes :=
  match m.data.bind (·.body) with
  | some (.castAddBody _ _ _) => some (CastStoreDef.hashSlot m.hash)
  | some (.castRemoveBody hash) => some (CastStoreDef.hashSlot hash)
  | _ => none

theorem castTargetHash_iff (hd : m.data = some data) (invalid : String) :
    (CastStoreDef.targetHash m invalid >>= fun (data, hash) =>
        Except.ok (makeIndexKey ctx data.fid set (CastStoreDef.hashSlot hash))) = .ok k ↔
      ∃ s, castSlot m = some s ∧ k = makeIndexKey ctx data.fid set s := by
  simp only [CastStoreDef.targetHash, castSlot, hd, Option.bind_some]
  cases data.body with
  | none => simp [bind, Except.bind]
  | some body => cases body <;> simp [bind, Except.bind, eq_comm]

theorem castSecondary_cases {v : DbValue} (h : CastStoreDef.secondaryIndices ts m ctx = .ok es)
    (hkv : (k, v) ∈ es) :
    v = trueValue ∧ ∃ data, m.data = some data ∧ EndsIn ctx ts data.fid k := by
  obtain ⟨⟨data, body⟩, hbody, h⟩ := except_bind_eq_ok.1 h
  dsimp only at h
  split at h
  · cases Except.ok.inj h
    obtain ⟨key, hkey, heq⟩ := List.mem_map.1 hkv
    cases heq
    refine ⟨rfl, data, (Message.bodyOf_eq_ok hbody).1, ?_⟩
    rcases List.mem_append.1 hkey with hkey | hkey
    · obtain ⟨p, -, rfl⟩ := List.mem_map.1 hkey
      exact ⟨.castsByParent, _, rfl, rfl⟩
    · obtain ⟨f, -, rfl⟩ := List.mem_map.1 hkey
      exact ⟨.castsByMention, _, rfl, rfl⟩
  · cases Except.ok.inj h
    cases hkv

def castLayout : Layout castStoreDef where
  addSet := .castAdds
  removeSet := .castRemoves
  slot := castSlot
  rank := castRank
  makeAddKey_iff hd := castTargetHash_iff hd _
  makeRemoveKey_iff _ hd := castTargetHash_iff hd _
  ofType_add h := ofType_of_hasType h rfl rfl
  ofType_remove h := ofType_of_hasType h rfl rfl
  compare_eq ra rb ha hb := castMessageCompare_eq ra rb ha hb
  rank_inj := castRank_inj
  secondary_root h he := by
    obtain ⟨-, data, -, p, rest, hp, hk⟩ := castSecondary_cases h he
    exact ⟨p, _, hp, hk⟩
  secondary_uniq h hv hw := (castSecondary_cases h hw).1.trans (castSecondary_cases h hv).1.symm

/-! ## Reactions -/

def reactionSlot (m : Message) : Option Bytes :=
  match m.data.bind (·.body) with
  | some (.reactionBody type target) =>
    if target.isSome ∧ type = 0 then none
    else some (ReactionStoreDef.typeSlot type ++ (target.map ReactionStoreDef.makeTargetKey).getD [])
  | _ => none

theorem makeReactionKey_iff (set : UserPostfix) (hd : m.data = some data) :
    ReactionStoreDef.makeReactionKey set m ctx = .ok k ↔
      ∃ s, reactionSlot m = some s ∧ k = makeIndexKey ctx data.fid set s := by
  simp only [ReactionStoreDef.makeReactionKey, ReactionStoreDef.reactionBody, Message.bodyOf, reactionSlot,
    hd, Option.bind_some]
  cases data.body with
  | none => simp [bind, Except.bind]
  | some body =>
    cases body with
    | reactionBody type target =>
      simp only [bind, Except.bind]
      split
      · simp
      · simp [eq_comm]
    | _ => simp [bind, Except.bind]

theorem reactionSecondary_cases (h : ReactionStoreDef.secondaryIndices ts m ctx = .ok es) :
    ∃ data k v, m.data = some data ∧ es = [(k, v)] ∧ EndsIn ctx ts data.fid k := by
  obtain ⟨⟨data, type, target⟩, hreaction, h⟩ := except_bind_eq_ok.1 h
  obtain ⟨⟨data', body⟩, hbody, hreaction⟩ := except_bind_eq_ok.1 hreaction
  cases body <;> cases hreaction
  cases target with
  | none => cases h
  | some target =>
    cases Except.ok.inj h
    exact ⟨data, _, _, (Message.bodyOf_eq_ok hbody).1, rfl, .reactionsByTarget, _, rfl, rfl⟩

def reactionLayout : Layout reactionStoreDef where
  addSet := .reactionAdds
  removeSet := .reactionRemoves
  slot := reactionSlot
  rank := defaultRank
  makeAddKey_iff hd := makeReactionKey_iff _ hd
  makeRemoveKey_iff _ hd := makeReactionKey_iff _ hd
  ofType_add h := ofType_of_hasType h rfl rfl
  ofType_remove h := ofType_of_hasType h rfl rfl
  compare_eq ra rb ha hb := defaultMessageCompare_eq (by decide) ra rb ha hb
  rank_inj := defaultRank_inj
  secondary_root h he := by
    obtain ⟨data, k, v, -, rfl, p, rest, hp, hk⟩ := reactionSecondary_cases h
    cases List.mem_singleton.1 he
    exact ⟨p, _, hp, hk⟩
  secondary_uniq h hv hw := by
    obtain ⟨data, k, v, -, rfl, -⟩ := reactionSecondary_cases h
    cases List.mem_singleton.1 hv
    cases List.mem_singleton.1 hw
    rfl

/-! ## Verifications -/

def verificationSlot (m : Message) : Option Bytes :=
  match m.data.bind (·.body) with
  | some (.verificationAddAddressBody address _ _) => some address
  | some (.verificationRemoveBody address _) => some address
  | _ => none

theorem makeVerificationKey_iff (set : UserPostfix) (hd : m.data = some data) :
    VerificationStoreDef.makeVerificationKey set m ctx = .ok k ↔
      ∃ s, verificationSlot m = some s ∧ k = makeIndexKey ctx data.fid set s := by
  simp only [VerificationStoreDef.makeVerificationKey, Message.bodyOf, verificationSlot, hd, Option.bind_some]
  cases data.body with
  | none => simp [bind, Except.bind]
  | some body => cases body <;> simp [bind, Except.bind, eq_comm]

theorem verificationSecondary_cases (ts : Bytes)
    (h : VerificationStoreDef.secondaryIndices ts m ctx = .ok es) :
    ∃ data address protocol claim, m.data = some data ∧
      data.body = some (.verificationAddAddressBody address protocol claim) ∧
      es = [(ctx.rootPrefix .verificationByAddress :: address, .bytes (makeFidKey data.fid))] := by
  obtain ⟨⟨data, body⟩, hbody, h⟩ := except_bind_eq_ok.1 h
  obtain ⟨hd, hb⟩ := Message.bodyOf_eq_ok hbody
  cases body with
  | verificationAddAddressBody address protocol claim =>
    dsimp only at h
    split at h
    · cases h
    · cases Except.ok.inj h
      exact ⟨data, address, protocol, claim, hd, hb, rfl⟩
  | _ => cases h

def verificationLayout : Layout verificationStoreDef where
  addSet := .verificationAdds
  removeSet := .verificationRemoves
  slot := verificationSlot
  rank := defaultRank
  makeAddKey_iff hd := makeVerificationKey_iff _ hd
  makeRemoveKey_iff _ hd := makeVerificationKey_iff _ hd
  ofType_add h := ofType_of_hasType (Bool.and_eq_true_iff.1 h).1 rfl rfl
  ofType_remove h := ofType_of_hasType (Bool.and_eq_true_iff.1 h).1 rfl rfl
  compare_eq ra rb ha hb := defaultMessageCompare_eq (by decide) ra rb ha hb
  rank_inj := defaultRank_inj
  secondary_root := by
    intro ts m ctx es e h he
    obtain ⟨data, address, protocol, claim, -, -, rfl⟩ := verificationSecondary_cases ts h
    cases List.mem_singleton.1 he
    exact ⟨.verificationByAddress, _, rfl, rfl⟩
  secondary_uniq := by
    intro ts m ctx es k v w h hv hw
    obtain ⟨data, address, protocol, claim, -, -, rfl⟩ := verificationSecondary_cases ts h
    cases List.mem_singleton.1 hv
    cases List.mem_singleton.1 hw
    rfl

/-! ## User data -/

def userDataSlot (m : Message) : Option Bytes :=
  match m.data.bind (·.body) with
  | some (.userDataBody type _) => some (if 0 < type then [asU8 type] else [])
  | _ => none

theorem makeUserDataKey_iff (hd : m.data = some data) : UserDataStoreDef.makeAddKey m ctx = .ok k ↔
      ∃ s, userDataSlot m = some s ∧ k = makeIndexKey ctx data.fid .userDataAdds s := by
  simp only [UserDataStoreDef.makeAddKey, Message.bodyOf, userDataSlot, hd, Option.bind_some]
  cases data.body with
  | none => simp [bind, Except.bind]
  | some body => cases body <;> simp [bind, Except.bind, eq_comm]

/-- The store has no removes; the set named for them stays empty. -/
def userDataLayout : Layout userDataStoreDef where
  addSet := .userDataAdds
  removeSet := .castRemoves
  slot := userDataSlot
  rank := defaultRank
  makeAddKey_iff hd := makeUserDataKey_iff hd
  makeRemoveKey_iff hsup := absurd hsup (by decide)
  ofType_add h := ofType_of_hasType h rfl rfl
  ofType_remove h := absurd h (by simp [userDataStoreDef])
  compare_eq ra rb ha hb := defaultMessageCompare_eq (by decide) ra rb ha hb
  rank_inj := defaultRank_inj
  secondary_root h he := by cases Except.ok.inj h; cases he
  secondary_uniq h hv _ := by cases Except.ok.inj h; cases hv

/-! ## Links -/

def linkSlot (m : Message) : Option Bytes :=
  match m.data.bind (·.body) with
  | some (.linkBody type target) =>
    if target.isSome && type.isEmpty then none
    else if !type.isEmpty && decide (LinkStore.linkTypeByteSize < type.length) then none
    else some (LinkStore.padType type ++ (target.map makeFidKey).getD [])
  | _ => none

theorem makeLinkKey_iff (set : UserPostfix) (withoutType : String) (hd : m.data = some data) :
    LinkStore.makeLinkKey set withoutType m ctx = .ok k ↔
      ∃ s, linkSlot m = some s ∧ k = makeIndexKey ctx data.fid set s := by
  simp only [LinkStore.makeLinkKey, LinkStore.dataBody, linkSlot, hd, Option.bind_some]
  cases data.body with
  | none => simp [bind, Except.bind]
  | some body =>
    cases body with
    | linkBody type target =>
      simp only [bind, Except.bind]
      split
      · simp
      · split
        · simp
        · simp [eq_comm]
    | _ => simp [bind, Except.bind]

theorem linkSecondary_cases (h : LinkStore.secondaryIndices ts m ctx = .ok es) :
    ∃ data target v, m.data = some data ∧ data.fid ≠ 0 ∧
      es = [(ctx.rootPrefix .linksByTarget :: (makeFidKey target ++ ts ++ makeFidKey data.fid), v)] := by
  obtain ⟨⟨data, body⟩, hbody, h⟩ := except_bind_eq_ok.1 h
  obtain ⟨hd, -⟩ := Message.bodyOf_eq_ok (LinkStore.dataBody_eq_ok hbody)
  cases body with
  | linkBody type target =>
    cases target with
    | none => cases h
    | some target =>
      obtain ⟨key, hkey, h⟩ := except_bind_eq_ok.1 h
      unfold LinkStore.linksByTargetKey at hkey
      split at hkey
      next => cases hkey
      next hfid =>
        cases hkey
        exact ⟨data, target, _, hd, hfid, (Except.ok.inj h).symm⟩
  | _ => cases h

def linkLayout : Layout linkStoreDef where
  addSet := .linkAdds
  removeSet := .linkRemoves
  slot := linkSlot
  rank := defaultRank
  makeAddKey_iff hd := makeLinkKey_iff _ _ hd
  makeRemoveKey_iff _ hd := makeLinkKey_iff _ _ hd
  ofType_add h := ofType_of_hasType h rfl rfl
  ofType_remove h := ofType_of_hasType h rfl rfl
  not_compact h := h.elim (fun h => hasType_false h (by decide)) fun h => hasType_false h (by decide)
  compare_eq ra rb ha hb := defaultMessageCompare_eq (by decide) ra rb ha hb
  rank_inj := defaultRank_inj
  secondary_root h he := by
    obtain ⟨data, target, v, -, -, rfl⟩ := linkSecondary_cases h
    cases List.mem_singleton.1 he
    exact ⟨.linksByTarget, _, rfl, rfl⟩
  secondary_uniq h hv hw := by
    obtain ⟨data, target, v, -, -, rfl⟩ := linkSecondary_cases h
    cases List.mem_singleton.1 hv
    cases List.mem_singleton.1 hw
    rfl

end Hypersnap
