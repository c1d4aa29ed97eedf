import Hypersnap.Storage.Iterator
import Hypersnap.Store.Indexed

/-!
# `Store.Scan` — the messages of a user, as an iteration finds them

Pruning, revocation and compact states go over the primary keys of one user in the database. Where the
database is `Indexed`, everything they find is a held record (`scanUser_sound`); an exact iterator finds all
of them, in the order of their `tsHash` (`scanUser_exact`).
-/

namespace Hypersnap

open Layout

def primaryEntry (d : StoreDef) (ctx : StateContext) (r : Record) : Bytes × DbValue :=
  (primaryKey d ctx r, messageEncode r.message)

theorem exists_map_eq {α β : Type} {f : α → β} {P : α → Prop} {l : List β} (h : ∀ b ∈ l, ∃ a, P a ∧ f a = b) :
    ∃ as : List α, as.map f = l ∧ ∀ a ∈ as, P a := by
  induction l with
  | nil => exact ⟨[], rfl, fun _ ha => (List.not_mem_nil ha).elim⟩
  | cons b l ih =>
    obtain ⟨a, ha, rfl⟩ := h b List.mem_cons_self
    obtain ⟨as, rfl, has⟩ := ih fun b hb => h b (List.mem_cons_of_mem _ hb)
    exact ⟨a :: as, rfl, List.forall_mem_cons.2 ⟨ha, has⟩⟩

namespace Store

variable {store : Store} {lay : Layout store.storeDef} {db : RocksDB} {fid : UInt64} [Prost] [DbIterator]

/-- The records of the user. -/
def HeldBy (lay : Layout store.storeDef) (db : RocksDB) (fid : UInt64) (r : Record) : Prop :=
  lay.Held store.stateContext db r ∧ makeFidKey r.fid = makeFidKey fid

def scanStart (store : Store) (fid : UInt64) : Bytes :=
  makeMessagePrimaryKey store.userPrefix fid store.storeDef.setPostfix []

section

variable (hset : store.storeDef.setPostfix ≠ 255) {k : Bytes}
include hset

omit [Prost] [DbIterator] in
theorem inRange_scanStart_iff :
    InRange (store.scanStart fid) (incrementVecU8 (store.scanStart fid)) k ↔ ∃ ts,
      k = makeMessagePrimaryKey (store.stateContext.rootPrefix .user) fid store.storeDef.setPostfix ts := by
  have hstart : store.scanStart fid = makeUserKey store.userPrefix fid ++ [store.storeDef.setPostfix] := rfl
  rw [hstart, inRange_iff_isPrefix hset]
  constructor
  · rintro ⟨ts, rfl⟩
    exact ⟨ts, by simp [makeMessagePrimaryKey, userPrefix]⟩
  · rintro ⟨ts, rfl⟩
    exact ⟨ts, by simp [makeMessagePrimaryKey, userPrefix]⟩

omit [DbIterator] in
theorem exists_heldBy_of_inRange (hidx : lay.Indexed store.stateContext db) {v : DbValue}
    (hk : InRange (store.scanStart fid) (incrementVecU8 (store.scanStart fid)) k) (hv : db k = some v) :
    ∃ r, HeldBy lay db fid r ∧ primaryEntry store.storeDef store.stateContext r = (k, v) := by
  obtain ⟨ts, rfl⟩ := (inRange_scanStart_iff hset).1 hk
  obtain ⟨r, hr, hprim⟩ := hidx.primary hv
  refine ⟨r, ⟨hr, (makeMessagePrimaryKey_inj.1 hprim).1⟩, Prod.ext hprim ?_⟩
  rw [← hprim, hr.primary] at hv
  exact Option.some.inj hv

/-- **The iteration finds held records only.** -/
theorem scanUser_sound (hidx : lay.Indexed store.stateContext db) :
    ∃ rs : List Record, rs.map (primaryEntry store.storeDef store.stateContext) = store.scanUser db fid ∧
      ∀ r ∈ rs, HeldBy lay db fid r := by
  refine exists_map_eq fun e he => ?_
  obtain ⟨hrange, hv⟩ := DbIterator.inRange he
  exact exists_heldBy_of_inRange hset hidx hrange hv

end

/-- **An exact iterator finds them all**, in order. -/
theorem scanUser_exact [DbIterator.Exact] (hset : store.storeDef.setPostfix ≠ 255)
    (hidx : lay.Indexed store.stateContext db) (hfin : {r | HeldBy lay db fid r}.Finite) :
    ∃ rs : List Record, rs.map (primaryEntry store.storeDef store.stateContext) = store.scanUser db fid ∧
      (∀ r, r ∈ rs ↔ HeldBy lay db fid r) ∧ rs.Pairwise fun a b => bytesCompare a.tsHash b.tsHash = .lt := by
  obtain ⟨rs, heq, hrs⟩ := @scanUser_sound _ _ _ fid _ _ hset hidx
  have hscan : DbIterator.scan db (store.scanStart fid) (incrementVecU8 (store.scanStart fid)) = rs.map _ :=
    heq.symm
  refine ⟨rs, heq, fun r => ⟨hrs r, fun hr => ?_⟩, ?_⟩
  · -- the range holds the keys of finitely many records
    have hfinite : {k | InRange (store.scanStart fid) (incrementVecU8 (store.scanStart fid)) k ∧
        (db k).isSome}.Finite := by
      refine (hfin.image (primaryKey store.storeDef store.stateContext)).subset ?_
      rintro k ⟨hk, hsome⟩
      obtain ⟨v, hv⟩ := Option.isSome_iff_exists.1 hsome
      obtain ⟨r, hr, he⟩ := exists_heldBy_of_inRange hset hidx hk hv
      exact ⟨r, hr, congrArg Prod.fst he⟩
    have hkr := (inRange_scanStart_iff (k := primaryKey store.storeDef store.stateContext r) hset).2
      ⟨r.tsHash, makeMessagePrimaryKey_inj.2 ⟨hr.2, rfl⟩⟩
    have hmem := DbIterator.Exact.complete hfinite hkr hr.1.primary
    rw [hscan] at hmem
    obtain ⟨r', hr', he⟩ := List.mem_map.1 hmem
    rwa [← (hrs r' hr').1.eq_of_primaryKey hr.1 (congrArg Prod.fst he)]
  · have hsorted := DbIterator.Exact.sorted db (store.scanStart fid) (incrementVecU8 (store.scanStart fid))
    rw [hscan, List.pairwise_map] at hsorted
    refine List.Pairwise.imp_of_mem (fun ha hb hlt => ?_) hsorted
    -- the keys differ in the `tsHash` only
    have hfid := (hrs _ ha).2.trans (hrs _ hb).2.symm
    simp only [primaryEntry, primaryKey, makeMessagePrimaryKey, makeUserKey, hfid] at hlt
    rw [bytesCompare_append _ _ rfl, bytesCompare_eq_iff.2 rfl] at hlt
    simpa [bytesCompare_cons_self] using hlt

end Store

end Hypersnap
