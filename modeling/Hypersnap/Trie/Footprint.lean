import Hypersnap.Trie.Invariants
import Hypersnap.Trie.TrieKey

/-!
# `Trie.Footprint` — what an update of the trie may write

The trie shares the transaction batch with every store. All that an update writes there is nodes: a key
outside the table of nodes has the same entry before and after, whatever the update does and however it ends.
-/

namespace Hypersnap

open Overlay

/-- Two batches that differ in the table of trie nodes only. -/
def OffTrie (txn txn' : RocksDbTransactionBatch) : Prop :=
  ∀ key : Bytes, key[0]? ≠ some RootPrefix.merkleTrieNode.toByte → txn' key = txn key

namespace OffTrie

variable {txn txn' txn'' : RocksDbTransactionBatch}

theorem refl : OffTrie txn txn := fun _ _ => rfl

theorem trans (h : OffTrie txn txn') (h' : OffTrie txn' txn'') : OffTrie txn txn'' :=
  fun key hkey => (h' key hkey).trans (h key hkey)

theorem put (h : OffTrie txn txn') (n : TrieNode) (pfx : Bytes) : OffTrie txn (n.putToTxn txn' pfx) := by
  intro key hkey
  rw [← h key hkey]
  exact put_of_ne _ _ _ _ fun he => hkey (by rw [he]; rfl)

theorem delete (h : OffTrie txn txn') (pfx : Bytes) : OffTrie txn (TrieNode.deleteToTxn txn' pfx) := by
  intro key hkey
  rw [← h key hkey]
  exact delete_of_ne _ _ _ fun he => hkey (by rw [he]; rfl)

end OffTrie

namespace TrieNode

/-- An operation on nodes that writes nodes only. -/
def NodeOp.Local (op : NodeOp) : Prop := ∀ self hashes txn keys i, OffTrie txn (op self hashes txn keys i).txn

variable [Blake3] {db : RocksDB}

theorem insert_local (fuel : Nat) : NodeOp.Local (insert db fuel) :=
  fun _ _ _ _ _ => insert_keeps_batch (fun n _ q h => h.put n q) .refl fuel

theorem delete_local (fuel : Nat) : NodeOp.Local (delete db fuel) :=
  fun _ _ _ _ _ => delete_keeps_batch (fun n _ q h => h.put n q) .refl (fun q h => h.delete q) fuel

end TrieNode

/-! ## The whole trie -/

namespace MerkleTrie

theorem update_offTrie {op : Nat → TrieNode.NodeOp} (hop : ∀ fuel, (op fuel).Local) (self : MerkleTrie)
    (txn : RocksDbTransactionBatch) (keys : List Bytes) : OffTrie txn (update op self txn keys).2.1 := by
  unfold update
  dsimp only
  split
  · exact .refl
  · split
    · exact .refl
    · cases self.root with
      | none => exact .refl
      | some root =>
        have hout :=
          hop (depthBound (keys.map expandNibbles)) root ByteMap.empty Batch.empty (keys.map expandNibbles) 0
        dsimp only
        generalize op (depthBound (keys.map expandNibbles)) root ByteMap.empty Batch.empty
          (keys.map expandNibbles) 0 =
          out at hout
        cases out.result with
        | error e => exact .refl
        | ok _ =>
          intro key hkey
          simp only [Batch.merge, hout key hkey]
          rfl

theorem eachKey_offTrie {op : MerkleTrie → RocksDbTransactionBatch → List Bytes →
      MerkleTrie × RocksDbTransactionBatch × Except TrieError (List Bool)}
    (hop : ∀ t txn keys, OffTrie txn (op t txn keys).2.1) (keys : List Bytes) (self : MerkleTrie)
    (txn : RocksDbTransactionBatch) : OffTrie txn (eachKey op keys self txn).2.1 := by
  induction keys generalizing self txn with
  | nil => exact .refl
  | cons key keys ih =>
    have hfirst := hop self txn [key]
    unfold eachKey
    generalize op self txn [key] = r at hfirst ⊢
    rcases r with ⟨self', txn', _ | _⟩
    · exact hfirst
    · exact hfirst.trans (ih self' txn')

/-- An update for an event leaves every other table of the batch alone. -/
theorem updateForEvent_offTrie [Blake3] [Sha256] [TextRules] {self self' : MerkleTrie} {db : RocksDB}
    {event : HubEvent} {txn txn' : RocksDbTransactionBatch} {r : Except TrieError Unit}
    (h : self.updateForEvent db event txn = some (self', txn', r)) : OffTrie txn txn' := by
  unfold updateForEvent at h
  obtain ⟨⟨inserts, deletes⟩, -, h⟩ := Option.bind_eq_some_iff.1 h
  have hinsert := eachKey_offTrie (fun t txn keys => update_offTrie (@TrieNode.insert_local _ db) t txn keys)
    inserts self txn
  have hdelete :=
    eachKey_offTrie (fun t txn keys => update_offTrie (@TrieNode.delete_local _ db) t txn keys) deletes
  dsimp only [MerkleTrie.insert, MerkleTrie.delete] at h
  generalize eachKey (fun t txn keys => update (TrieNode.insert db) t txn keys) inserts self txn =
    first at h hinsert
  rcases first with ⟨self₁, txn₁, _ | _⟩
  · cases h
    exact hinsert
  · have hrest := hdelete self₁ txn₁
    rw [Option.some.inj h] at hrest
    exact hinsert.trans hrest

end MerkleTrie

end Hypersnap
