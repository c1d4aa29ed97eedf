import Hypersnap.Trie.BatchDelete
import Hypersnap.Trie.BatchInsert
import Hypersnap.Trie.Resident

/-!
# `Trie.Refinement` — the merkle trie is a set of keys

A run of single-key `insert` and `delete` calls on a freshly initialized trie, compared with the same run on
a plain finite set. Each call comes with the database and the pending batch it sees, so commits may happen
between the calls. Main results:

* `trie_refines_set` — after every part of a run, `exists` is membership, every call reports whether the set
  changed, and every node counts the keys below it;
* `rootHash_history_independent` — the root hash depends on the resulting set only, not on the run.
-/

namespace Hypersnap

open Overlay PrefixSet

/-! ## Nibbles -/

theorem toNat_highNibble (b : UInt8) : (b >>> 4).toNat = b.toNat / 16 := by
  rw [UInt8.toNat_shiftRight]
  exact Nat.shiftRight_eq_div_pow b.toNat 4

theorem toNat_lowNibble (b : UInt8) : (b &&& 0x0F).toNat = b.toNat % 16 := by
  rw [UInt8.toNat_and]
  exact Nat.and_two_pow_sub_one_eq_mod b.toNat 4

theorem nibbles_inj {a b : UInt8} (hhi : a >>> 4 = b >>> 4) (hlo : a &&& 0x0F = b &&& 0x0F) : a = b := by
  have hhi' := congrArg UInt8.toNat hhi
  have hlo' := congrArg UInt8.toNat hlo
  rw [toNat_highNibble, toNat_highNibble] at hhi'
  rw [toNat_lowNibble, toNat_lowNibble] at hlo'
  exact UInt8.toNat_inj.mp (by omega)

@[simp] theorem expandNibbles_nil : expandNibbles [] = [] := rfl

@[simp] theorem expandNibbles_cons (a : UInt8) (as : Bytes) :
    expandNibbles (a :: as) = (a >>> 4) :: (a &&& 0x0F) :: expandNibbles as := rfl

@[simp] theorem expandNibbles_length (key : Bytes) : (expandNibbles key).length = 2 * key.length := by
  induction key with
  | nil => rfl
  | cons a as ih => simp only [expandNibbles_cons, List.length_cons, ih]; omega

theorem expandNibbles_isPrefix_iff {a b : Bytes} : expandNibbles a <+: expandNibbles b ↔ a <+: b := by
  induction a generalizing b with
  | nil => simp
  | cons x a ih =>
    cases b with
    | nil => simp
    | cons y b =>
      simp only [expandNibbles_cons, List.cons_prefix_cons, ih]
      constructor
      · rintro ⟨hhi, hlo, h⟩
        exact ⟨nibbles_inj hhi hlo, h⟩
      · rintro ⟨rfl, h⟩
        exact ⟨rfl, rfl, h⟩

theorem expandNibbles_injective : Function.Injective expandNibbles := by
  intro a b h
  have hab : a <+: b := expandNibbles_isPrefix_iff.mp (h ▸ List.prefix_rfl)
  have hlen := congrArg List.length h
  rw [expandNibbles_length, expandNibbles_length] at hlen
  exact hab.eq_of_length (by omega)

/-- The keys of a set, as the nodes see them. -/
def nibbleKeys (K : Finset Bytes) : Finset Bytes := K.image expandNibbles

variable {K : Finset Bytes}

theorem mem_nibbleKeys {key : Bytes} : expandNibbles key ∈ nibbleKeys K ↔ key ∈ K :=
  expandNibbles_injective.mem_finset_image

theorem nibbleKeys_insert (K : Finset Bytes) (key : Bytes) :
    nibbleKeys (insert key K) = insert (expandNibbles key) (nibbleKeys K) := Finset.image_insert _ _ _

theorem nibbleKeys_erase (K : Finset Bytes) (key : Bytes) :
    nibbleKeys (K.erase key) = (nibbleKeys K).erase (expandNibbles key) :=
  Finset.image_erase expandNibbles_injective K key

theorem nibbleKeys_eq_empty : nibbleKeys K = ∅ ↔ K = ∅ := Finset.image_eq_empty

theorem card_nibbleKeys (K : Finset Bytes) : (nibbleKeys K).card = K.card :=
  Finset.card_image_of_injective K expandNibbles_injective

theorem nibbleKeys_antichain (h : IsAntichain (· <+: ·) (K : Set Bytes)) :
    IsAntichain (· <+: ·) (nibbleKeys K : Set Bytes) := by
  intro x hx y hy hne hab
  obtain ⟨a, ha, rfl⟩ := Finset.mem_image.mp (Finset.mem_coe.mp hx)
  obtain ⟨b, hb, rfl⟩ := Finset.mem_image.mp (Finset.mem_coe.mp hy)
  exact h ha hb (fun hab => hne (congrArg _ hab)) (expandNibbles_isPrefix_iff.mp hab)

theorem card_below_nibbleKeys (K : Finset Bytes) (q : Bytes) :
    (below q (nibbleKeys K)).card = (K.filter (q <+: expandNibbles ·)).card := by
  rw [below, nibbleKeys, Finset.filter_image, Finset.card_image_of_injective _ expandNibbles_injective]

/-! ## Reading a node -/

namespace TrieNode

variable [Blake3] {db : RocksDB} {n m : TrieNode} {p k r : Bytes} {S : Finset Bytes}

/-- Every node of the tree holds the keys below its path, and only the root may hold none. -/
theorem Represents.getNodeFromTrie (h : Represents db n p S) (hr : n.getNodeFromTrie db p r = some m) :
    Represents db m (p ++ r) (PrefixSet.below (p ++ r) S) ∧
    (r ≠ [] → (PrefixSet.below (p ++ r) S).Nonempty) := by
  induction r generalizing n p S with
  | nil =>
    cases hr
    have hS : PrefixSet.below p S = S := below_eq_self fun k hk => h.isPrefix hk
    simpa [hS] using h
  | cons c r ih =>
    have hc : n.children c ≠ none := by
      intro hc
      simp only [TrieNode.getNodeFromTrie, getOrLoadChild_none hc] at hr
      cases hr
    obtain ⟨child, hload, hne, hrep⟩ := h.exists_child hc
    simp only [TrieNode.getNodeFromTrie, hload] at hr
    have hpath : p ++ c :: r = (p ++ [c]) ++ r := by simp
    obtain ⟨hrep, hne'⟩ := ih hrep hr
    rw [below_below (List.prefix_append _ _)] at hrep hne'
    rw [hpath]
    refine ⟨hrep, fun _ => ?_⟩
    by_cases hr' : r = []
    · rw [hr', List.append_nil]; exact hne
    · exact hne' hr'

/-- `exists` is membership; what it reads into memory changes nothing that can be seen. -/
theorem existsAt_spec (fuel : Nat) (h : Represents db n p S) (hpk : p <+: k) (hk : k ≠ [])
    (hfuel : k.length + 1 ≤ fuel + p.length) : (existsAt db fuel n k p.length).2 = .ok (decide (k ∈ S)) ∧
      Represents db (existsAt db fuel n k p.length).1 p S ∧
      ∀ r, view db (existsAt db fuel n k p.length).1 p r = view db n p r := by
  induction fuel generalizing n p S with
  | zero =>
    have := hpk.length_le
    omega
  | succ fuel ih =>
    rcases h.inv with ⟨rfl, rfl⟩ | ⟨k₀, hs, rfl, rfl, -⟩ | ⟨hne, hshape, hinner⟩
    · have : ¬ [] = k := fun h => hk h.symm
      simp [existsAt, bytesCompare_eq_iff, this, h]
    · have : k₀ = k ↔ k = k₀ := eq_comm
      simp [existsAt, bytesCompare_eq_iff, this, h]
    · have hleaf := hinner.not_isLeaf hne
      have htake : k.take p.length = p := (List.prefix_iff_eq_take.mp hpk).symm
      have hinner' := hinner
      obtain ⟨child, hframe, hchild⟩ := hinner
      cases hc : k[p.length]? with
      | none =>
        have hmem : k ∉ S := by
          intro hmem
          obtain ⟨c, hkc⟩ := hframe.cover k hmem
          rw [(snoc_isPrefix_iff.mp hkc).2] at hc
          cases hc
        simp [existsAt, hleaf, hc, hmem, h]
      | some c =>
        have hkc : p ++ [c] <+: k := snoc_isPrefix_iff.mpr ⟨hpk, hc⟩
        by_cases hb : (below (p ++ [c]) S).Nonempty
        · have hload := hframe.load c hb
          have hsome : (n.children c).isNone = false := by
            rw [Option.isNone_eq_false_iff, Option.isSome_iff_ne_none]
            exact children_ne_none_of_load hload
          obtain ⟨hres, hrep, hview⟩ := ih (hchild c hb) hkc
            (by simp only [List.length_append, List.length_singleton]; omega)
          rw [List.length_append, List.length_singleton] at hres hrep hview
          set out := existsAt db fuel (child c) k (p.length + 1) with hout
          have heq : existsAt db (fuel + 1) n k p.length
              = (n.withChild c (some out.1) n.childHashes n.items, out.2) := by
            simp only [existsAt, hleaf, hc, hsome, htake, hload, ← hout]
            rfl
          have hmem : k ∈ below (p ++ [c]) S ↔ k ∈ S := by simp [mem_below, hkc]
          rw [heq]
          refine ⟨by simp only [hres, hmem], ?_, fun r => ?_⟩
          · exact (hinner'.withChild_same hb hrep).represents hne hshape
          · cases r with
            | nil => rw [view_nil, view_nil, (hinner'.withChild_same hb hrep).forget_eq hinner']
            | cons c' r =>
              by_cases hc' : c' = c
              · subst hc'
                rw [view_withChild, viewOf_some, hview, view_cons_of_load hload]
              · rw [view_cons_congr (withChild_of_ne hc')]
        · rw [Finset.not_nonempty_iff_eq_empty] at hb
          have hmem : k ∉ S := fun hmem => (below_nonempty_of_mem hmem hkc).ne_empty hb
          simp [existsAt, hleaf, hc, (hframe.absent c hb).1, hmem, h]

/-- The empty key, which no trie holds, is reported as present by the empty trie. -/
theorem existsAt_nil (fuel : Nat) (h : Represents db n [] S) :
    existsAt db (fuel + 1) n [] 0 = (n, .ok (decide (S = ∅))) := by
  rcases h.inv with ⟨rfl, rfl⟩ | ⟨k₀, hs, rfl, rfl, hdepth, -⟩ | ⟨hne, -, hinner⟩
  · simp [existsAt, bytesCompare_eq_iff]
  · simp [uncompactedLength] at hdepth
  · simp [existsAt, hinner.not_isLeaf hne, hne.ne_empty]

end TrieNode

/-! ## One call -/

/-- The operation of one call, with its single key. -/
inductive TrieOp where
  | insert (key : Bytes)
  | delete (key : Bytes)
deriving DecidableEq, Repr

namespace TrieOp

def key : TrieOp → Bytes
  | .insert key => key
  | .delete key => key

def onSet : TrieOp → Finset Bytes → Finset Bytes
  | .insert key, K => Insert.insert key K
  | .delete key, K => K.erase key

def apply [Blake3] (op : TrieOp) (t : MerkleTrie) (db : RocksDB) (txnBatch : RocksDbTransactionBatch) :
    MerkleTrie × RocksDbTransactionBatch × Except TrieError (List Bool) :=
  match op with
  | .insert key => t.insert db txnBatch [key]
  | .delete key => t.delete db txnBatch [key]

theorem onSet_subset (op : TrieOp) (K : Finset Bytes) : op.onSet K ⊆ Insert.insert op.key K := by
  cases op with
  | insert key => exact Finset.Subset.refl _
  | delete key => exact (Finset.erase_subset _ _).trans (Finset.subset_insert _ _)

end TrieOp

namespace MerkleTrie

open TrieNode

variable [Blake3] {db : RocksDB} {t : MerkleTrie} {root : TrieNode} {K : Finset Bytes} {key : Bytes}
  {txnBatch : RocksDbTransactionBatch} {calls : List Call}

omit [Blake3] in
theorem nibbles_long {keys : List Bytes} (hlen : ∀ k ∈ keys, 6 ≤ k.length) {k : Bytes}
    (hk : k ∈ keys.map expandNibbles) : uncompactedLength ≤ k.length := by
  obtain ⟨key, hkey, rfl⟩ := List.mem_map.1 hk
  have := hlen key hkey
  rw [expandNibbles_length, uncompactedLength]
  omega

omit [Blake3] in
theorem update_eq {op : Nat → NodeOp} {keys : List Bytes} (hroot : t.root = some root) (hne : keys ≠ [])
    (hlen : ∀ k ∈ keys, 6 ≤ k.length) :
    let out := op (depthBound (keys.map expandNibbles)) root ByteMap.empty Batch.empty
      (keys.map expandNibbles) 0
    update op t txnBatch keys =
      (⟨some out.node⟩, if out.result.isOk then txnBatch.merge out.txn else txnBatch, out.result) := by
  have hempty : (keys.map expandNibbles).isEmpty = false := by simpa using hne
  have hany : ((keys.map expandNibbles).any fun key => decide (key.length < uncompactedLength)) = false := by
    rw [List.any_eq_false]
    exact fun k hk => by simpa using nibbles_long hlen hk
  intro out
  have hout :
      op (depthBound (keys.map expandNibbles)) root ByteMap.empty Batch.empty (keys.map expandNibbles) 0
      = out := rfl
  simp only [update, hempty, hany, hroot, hout, Bool.false_eq_true, if_false]
  cases out.result <;> rfl

theorem insert_single (txnBatch : RocksDbTransactionBatch) (hroot : t.root = some root)
    (hrep : Represents db root [] (nibbleKeys K)) (hlen : 6 ≤ key.length)
    (hfree : IsAntichain (· <+: ·) ((Insert.insert key K : Finset Bytes) : Set Bytes)) :
    let out := TrieNode.insert db (depthBound [expandNibbles key]) root ByteMap.empty Batch.empty
      [expandNibbles key] 0
    Inserted db root [] (expandNibbles key) (nibbleKeys K) ByteMap.empty Batch.empty out ∧
      t.insert db txnBatch [key] = (⟨some out.node⟩, txnBatch.merge out.txn, .ok [decide (key ∉ K)]) := by
  have hlong : ∀ k ∈ [key], 6 ≤ k.length := by simpa using hlen
  have hspec : Inserted db root [] (expandNibbles key) (nibbleKeys K) ByteMap.empty Batch.empty
      (TrieNode.insert db (depthBound [expandNibbles key]) root ByteMap.empty Batch.empty
        [expandNibbles key] 0) := by
    refine insert_spec _ hrep List.nil_prefix (nibbles_long hlong (List.mem_singleton_self _)) ?_
      (by simp [depthBound])
    rw [← nibbleKeys_insert]
    exact nibbleKeys_antichain hfree
  refine ⟨hspec, (update_eq hroot (List.cons_ne_nil _ _) hlong).trans ?_⟩
  simp only [List.map_cons, List.map_nil, hspec.result, mem_nibbleKeys]
  rfl

theorem delete_single (txnBatch : RocksDbTransactionBatch) (hroot : t.root = some root)
    (hrep : Represents db root [] (nibbleKeys K)) (hlen : 6 ≤ key.length)
    (hfree : IsAntichain (· <+: ·) ((Insert.insert key K : Finset Bytes) : Set Bytes)) :
    let out := TrieNode.delete db (depthBound [expandNibbles key]) root ByteMap.empty Batch.empty
      [expandNibbles key] 0
    Deleted db root [] (expandNibbles key) (nibbleKeys K) ByteMap.empty Batch.empty out ∧
      t.delete db txnBatch [key] = (⟨some out.node⟩, txnBatch.merge out.txn, .ok [decide (key ∈ K)]) := by
  have hlong : ∀ k ∈ [key], 6 ≤ k.length := by simpa using hlen
  have hspec : Deleted db root [] (expandNibbles key) (nibbleKeys K) ByteMap.empty Batch.empty
      (TrieNode.delete db (depthBound [expandNibbles key]) root ByteMap.empty Batch.empty
        [expandNibbles key] 0) := by
    refine delete_spec _ hrep List.nil_prefix (nibbles_long hlong (List.mem_singleton_self _)) ?_
      (by simp [depthBound])
    rw [← nibbleKeys_insert]
    exact nibbleKeys_antichain hfree
  refine ⟨hspec, (update_eq hroot (List.cons_ne_nil _ _) hlong).trans ?_⟩
  simp only [List.map_cons, List.map_nil, hspec.result, mem_nibbleKeys]
  rfl

/-- `exists` on a trie that holds `K`: membership, for every key but the empty one; and what it reads into
    memory changes nothing that can be seen. -/
theorem existsKey_spec (hroot : t.root = some root) (hrep : Represents db root [] (nibbleKeys K))
    (key : Bytes) :
    (t.existsKey db key).2 = .ok (if key = [] then decide (K = ∅) else decide (key ∈ K)) ∧
      ∃ root', (t.existsKey db key).1 = ⟨some root'⟩ ∧ ∀ r, view db root' [] r = view db root [] r := by
  simp only [existsKey, hroot]
  by_cases hkey : key = []
  · subst hkey
    rw [expandNibbles_nil, depthBound, existsAt_nil _ hrep]
    exact ⟨by simp [nibbleKeys_eq_empty], root, rfl, fun r => rfl⟩
  · have hne : expandNibbles key ≠ [] := fun h => hkey (expandNibbles_injective h)
    have hex := existsAt_spec (depthBound [expandNibbles key]) hrep List.nil_prefix hne (by simp [depthBound])
    exact ⟨hex.1.trans (by simp only [mem_nibbleKeys, if_neg hkey]), _, rfl, hex.2.2⟩

/-- The trie is in memory and holds the keys `K`, whatever the database says. -/
structure HoldsInMemory (t : MerkleTrie) (K : Finset Bytes) (root : TrieNode) : Prop where
  root_eq : t.root = some root
  resident : Resident root
  represents : ∀ db, Represents db root [] (nibbleKeys K)

/-- **One call keeps the trie a set**, and reports whether the set changed. -/
theorem HoldsInMemory.apply (h : HoldsInMemory t K root) (op : TrieOp) (db : RocksDB)
    (txnBatch : RocksDbTransactionBatch) (hlen : 6 ≤ op.key.length)
    (hfree : IsAntichain (· <+: ·) ((Insert.insert op.key K : Finset Bytes) : Set Bytes)) :
    (∃ root', HoldsInMemory (op.apply t db txnBatch).1 (op.onSet K) root') ∧
      (op.apply t db txnBatch).2.2 = .ok [decide (op.onSet K ≠ K)] := by
  cases op with
  | insert key =>
    change 6 ≤ key.length at hlen
    change IsAntichain _ ((Insert.insert key K : Finset Bytes) : Set Bytes) at hfree
    obtain ⟨hspec, heq⟩ := insert_single txnBatch h.root_eq (h.represents db) hlen hfree
    have hres := insert_resident db (depthBound [expandNibbles key]) root ByteMap.empty Batch.empty
      [expandNibbles key] 0 h.resident
    have hnode := hspec.node
    rw [← nibbleKeys_insert] at hnode
    simp only [TrieOp.apply, TrieOp.onSet, heq]
    exact ⟨⟨_, rfl, hres, fun db' => hnode.of_resident hres⟩, by simp [Finset.insert_eq_self]⟩
  | delete key =>
    change 6 ≤ key.length at hlen
    change IsAntichain _ ((Insert.insert key K : Finset Bytes) : Set Bytes) at hfree
    obtain ⟨hspec, heq⟩ := delete_single txnBatch h.root_eq (h.represents db) hlen hfree
    have hres := delete_resident db (depthBound [expandNibbles key]) root ByteMap.empty Batch.empty
      [expandNibbles key] 0 h.resident
    have hnode := hspec.node (Or.inr (by simp [uncompactedLength]))
    rw [← nibbleKeys_erase] at hnode
    simp only [TrieOp.apply, TrieOp.onSet, heq]
    exact ⟨⟨_, rfl, hres, fun db' => hnode.of_resident hres⟩, by simp [Finset.erase_eq_self]⟩

/-! ## Runs -/

/-- A call, with the database and the pending batch it sees. -/
structure Call where
  op : TrieOp
  db : RocksDB
  txnBatch : RocksDbTransactionBatch

def fresh (db : RocksDB) : MerkleTrie := (new.initializeTrie db).1

def runCall (t : MerkleTrie) (c : Call) : MerkleTrie := (c.op.apply t c.db c.txnBatch).1

def run (t : MerkleTrie) (calls : List Call) : MerkleTrie := calls.foldl runCall t

def keysAfter (K : Finset Bytes) (calls : List Call) : Finset Bytes := calls.foldl (fun K c => c.op.onSet K) K

def usedKeys (calls : List Call) : Set Bytes := {key | ∃ c ∈ calls, c.op.key = key}

/-- The calls a trie is specified for: keys of at least 6 bytes, none a proper prefix of another. -/
structure WellFormed (calls : List Call) : Prop where
  length_le : ∀ c ∈ calls, 6 ≤ c.op.key.length
  prefixFree : IsAntichain (· <+: ·) (usedKeys calls)

omit [Blake3] in
theorem keysAfter_append (K : Finset Bytes) (calls : List Call) (c : Call) :
    keysAfter K (calls ++ [c]) = c.op.onSet (keysAfter K calls) := by simp [keysAfter]

omit [Blake3] in
theorem keysAfter_subset (calls : List Call) : (keysAfter ∅ calls : Set Bytes) ⊆ usedKeys calls := by
  induction calls using List.reverseRecOn with
  | nil => simp [keysAfter]
  | append_singleton calls c ih =>
    intro key hkey
    rw [keysAfter_append] at hkey
    rcases Finset.mem_insert.mp (c.op.onSet_subset _ hkey) with rfl | hkey
    · exact ⟨c, by simp, rfl⟩
    · obtain ⟨c', hc', rfl⟩ := ih hkey
      exact ⟨c', by simp [hc'], rfl⟩

omit [Blake3] in
theorem WellFormed.of_prefix {pre : List Call} (h : WellFormed calls) (hpre : pre <+: calls) :
    WellFormed pre :=
  ⟨fun c hc => h.length_le c (hpre.subset hc),
    h.prefixFree.subset fun _ ⟨c, hc, hkey⟩ => ⟨c, hpre.subset hc, hkey⟩⟩

omit [Blake3] in
theorem WellFormed.of_length {n : Nat} (hn : 6 ≤ n) (h : ∀ c ∈ calls, c.op.key.length = n) :
    WellFormed calls := by
  refine ⟨fun c hc => (h c hc).symm ▸ hn, ?_⟩
  rintro _ ⟨c, hc, rfl⟩ _ ⟨c', hc', rfl⟩ hne hpre
  exact hne (hpre.eq_of_length ((h c hc).trans (h c' hc').symm))

omit [Blake3] in
theorem WellFormed.insert_free {c : Call} (h : WellFormed (calls ++ [c])) :
    IsAntichain (· <+: ·) ((Insert.insert c.op.key (keysAfter ∅ calls) : Finset Bytes) : Set Bytes) := by
  refine h.prefixFree.subset fun key hkey => ?_
  rcases Finset.mem_insert.mp (Finset.mem_coe.mp hkey) with rfl | hkey
  · exact ⟨c, by simp, rfl⟩
  · obtain ⟨c', hc', rfl⟩ := keysAfter_subset calls hkey
    exact ⟨c', by simp [hc'], rfl⟩

omit [Blake3] in
theorem fresh_eq (hfresh : db (nodeKey []) = none) : fresh db = ⟨some TrieNode.new⟩ := by
  simp [fresh, initializeTrie, loadRoot, hfresh, createEmptyRoot]

/-- **A run keeps the trie a set.** -/
theorem run_holds {calls : List Call} (hfresh : db (nodeKey []) = none) (h : WellFormed calls) :
    ∃ root, HoldsInMemory ((fresh db).run calls) (keysAfter ∅ calls) root := by
  induction calls using List.reverseRecOn with
  | nil => exact ⟨TrieNode.new, congrArg root (fresh_eq hfresh), resident_new, fun _ => .empty⟩
  | append_singleton calls c ih =>
    obtain ⟨root, hroot⟩ := ih (h.of_prefix (List.prefix_append _ _))
    have hstep := hroot.apply c.op c.db c.txnBatch (h.length_le c (by simp)) h.insert_free
    rw [run, List.foldl_append, keysAfter_append]
    exact hstep.1

/-- **The trie refines a set of keys.** After every part `pre` of a well-formed run from a freshly initialized
    trie: `exists` is membership in the set the same calls produce; the next call reports whether it changes
    that set; every node counts the keys below its path, and only the root may count none. -/
theorem trie_refines_set {calls pre : List Call} (hfresh : db (nodeKey []) = none) (h : WellFormed calls)
    (hpre : pre <+: calls) :
    (∀ db' key, key ≠ [] →
      (((fresh db).run pre).existsKey db' key).2 = .ok (decide (key ∈ keysAfter ∅ pre))) ∧
    (∀ c, pre ++ [c] <+: calls → (c.op.apply ((fresh db).run pre) c.db c.txnBatch).2.2
      = .ok [decide (keysAfter ∅ (pre ++ [c]) ≠ keysAfter ∅ pre)]) ∧ ∃ root,
      ((fresh db).run pre).root = some root ∧
      ∀ db' q node, root.getNodeFromTrie db' [] q = some node →
        node.items = ((keysAfter ∅ pre).filter (q <+: expandNibbles ·)).card ∧ (q ≠ [] → node.items ≠ 0) := by
  obtain ⟨root, hroot⟩ := run_holds hfresh (h.of_prefix hpre)
  refine ⟨fun db' key hkey => ?_, fun c hc => ?_, root, hroot.root_eq, fun db' q node hq => ?_⟩
  · rw [(existsKey_spec hroot.root_eq (hroot.represents db') key).1, if_neg hkey]
  · have hstep := hroot.apply c.op c.db c.txnBatch ((h.of_prefix hc).length_le c (by simp))
      (h.of_prefix hc).insert_free
    rw [hstep.2, keysAfter_append]
  · obtain ⟨hrep, hne⟩ := (hroot.represents db').getNodeFromTrie hq
    rw [List.nil_append] at hrep hne
    rw [hrep.items_eq, card_below_nibbleKeys]
    refine ⟨rfl, fun hq' => ?_⟩
    rw [← card_below_nibbleKeys]
    exact (Finset.card_pos.mpr (hne hq')).ne'

@[reducible] def constHash : Blake3 := ⟨fun _ => Vector.replicate 32 0⟩

def callOn (op : TrieOp) : Call := ⟨op, fun _ => none, Batch.empty⟩

/-- Two keys below the same uncompacted path, one of which is deleted again. -/
def sampleCalls : List Call :=
  [callOn (.insert [1, 2, 3, 4, 5, 6, 7]), callOn (.insert [1, 2, 3, 4, 5, 6, 8]),
    callOn (.delete [1, 2, 3, 4, 5, 6, 7])]

omit [Blake3] in
theorem trie_refines_set_sample :
    ((@run constHash (fresh fun _ => none) sampleCalls).existsKey (fun _ => none) [1, 2, 3, 4, 5, 6, 8]).2 =
      .ok true ∧
    ((@run constHash (fresh fun _ => none) sampleCalls).existsKey (fun _ => none) [1, 2, 3, 4, 5, 6, 7]).2
      = .ok false := by
  have h := (@trie_refines_set constHash (fun _ => none) sampleCalls sampleCalls rfl
    (WellFormed.of_length (n := 7) (by decide) (by decide)) List.prefix_rfl).1
  exact ⟨(h _ _ (by decide)).trans (by decide), (h _ _ (by decide)).trans (by decide)⟩

/-- **History independence.** Two well-formed runs from freshly initialized tries that leave the same set of
    keys leave the same root hash. -/
theorem rootHash_history_independent {db₁ db₂ : RocksDB} {calls₁ calls₂ : List Call}
    (hfresh₁ : db₁ (nodeKey []) = none) (hfresh₂ : db₂ (nodeKey []) = none) (h₁ : WellFormed calls₁)
    (h₂ : WellFormed calls₂) (hsame : keysAfter ∅ calls₁ = keysAfter ∅ calls₂) :
    ((fresh db₁).run calls₁).rootHash = ((fresh db₂).run calls₂).rootHash := by
  obtain ⟨root₁, hroot₁⟩ := run_holds hfresh₁ h₁
  obtain ⟨root₂, hroot₂⟩ := run_holds hfresh₂ h₂
  have hrep₁ := hroot₁.represents db₁
  rw [hsame] at hrep₁
  simp only [rootHash, hroot₁.root_eq, hroot₂.root_eq]
  rw [hrep₁.hash_eq (hroot₂.represents db₂)]

omit [Blake3] in
theorem rootHash_history_independent_sample :
    @rootHash constHash (@run constHash (fresh fun _ => none) sampleCalls) = @rootHash constHash
      (@run constHash (fresh fun _ => none) [callOn (.insert [1, 2, 3, 4, 5, 6, 8])]) := by
  have hsame : keysAfter ∅ sampleCalls = keysAfter ∅ [callOn (.insert [1, 2, 3, 4, 5, 6, 8])] := by decide
  have h₁ : WellFormed sampleCalls := WellFormed.of_length (n := 7) (by decide) (by decide)
  have h₂ : WellFormed [callOn (.insert [1, 2, 3, 4, 5, 6, 8])] :=
    WellFormed.of_length (n := 7) (by decide) (by decide)
  exact @rootHash_history_independent constHash (fun _ => none) (fun _ => none) _ _ rfl rfl h₁ h₂ hsame

end MerkleTrie
end Hypersnap
