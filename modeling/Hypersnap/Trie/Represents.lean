import Hypersnap.Lib.PrefixSet
import Hypersnap.Trie.View

/-!
# `Trie.Represents` — what it means for a node to hold a set of keys

The abstract meaning of a node is a finite set of keys. `Represents db n p S` says that `n`, sitting at path
`p`, holds exactly the keys `S`, in the one shape the operations are meant to keep:

* a node without keys is the empty node;
* from depth `uncompactedLength` on, a single key is a leaf;
* every other set is an inner node that counts its keys, has a child exactly for the nibbles some key
  continues with, and caches exactly the hashes of those children.

The only freedom left is in a leaf, which may keep a stale cached hash for the next nibble of its own key.
So the hash of a node is a function of the key set (`Represents.hash_eq`).
-/

namespace Hypersnap
namespace TrieNode

open PrefixSet

variable [Blake3]

/-- An inner node at `p` for the keys `S`, as far as it concerns the node itself: `child c` is the child it
    has for a nibble `c` that some key of `S` continues with. -/
structure InnerFrame (db : RocksDB) (n : TrieNode) (p : Bytes) (S : Finset Bytes) (child : UInt8 → TrieNode) :
    Prop where
  items : n.items = S.card
  key : n.key = none
  cover : ∀ k ∈ S, ∃ c, p ++ [c] <+: k
  absent : ∀ c, below (p ++ [c]) S = ∅ → n.children c = none ∧ n.childHashes c = none
  load : ∀ c, (below (p ++ [c]) S).Nonempty → getOrLoadChild db n p c = .ok (child c)
  cached : ∀ c, (below (p ++ [c]) S).Nonempty → n.childHashes c = some (child c).hash

/-- The node `n` at path `p` holds exactly the keys `S`. -/
inductive Represents (db : RocksDB) : TrieNode → Bytes → Finset Bytes → Prop
  | empty {p : Bytes} : Represents db new p ∅
  | leaf {p k : Bytes} {hs : ByteMap Bytes} (hdepth : uncompactedLength ≤ p.length) (hk : p <+: k)
      (hstale : ∀ c, hs c ≠ none → p ++ [c] <+: k) : Represents db (leafNode hs k) p {k}
  | inner {n : TrieNode} {p : Bytes} {S : Finset Bytes} (child : UInt8 → TrieNode)
      (hshape : p.length < uncompactedLength ∨ 2 ≤ S.card) (hne : S.Nonempty)
      (hframe : InnerFrame db n p S child)
      (hchild : ∀ c, (below (p ++ [c]) S).Nonempty →
        Represents db (child c) (p ++ [c]) (below (p ++ [c]) S)) : Represents db n p S

/-- `n` is an inner node for `S`, whatever the size of `S`: the shape between the split of a leaf and the
    insertion of the second key. -/
def InnerAt (db : RocksDB) (n : TrieNode) (p : Bytes) (S : Finset Bytes) : Prop :=
  ∃ child, InnerFrame db n p S child ∧
    ∀ c, (below (p ++ [c]) S).Nonempty → Represents db (child c) (p ++ [c]) (below (p ++ [c]) S)

variable {db db' : RocksDB} {n n' m : TrieNode} {p k : Bytes} {S S' : Finset Bytes} {c : UInt8}
  {child : UInt8 → TrieNode}

theorem InnerAt.represents (h : InnerAt db n p S) (hne : S.Nonempty)
    (hshape : p.length < uncompactedLength ∨ 2 ≤ S.card) : Represents db n p S := by
  obtain ⟨child, hframe, hchild⟩ := h
  exact .inner child hshape hne hframe hchild

theorem Represents.inv (h : Represents db n p S) : (S = ∅ ∧ n = new) ∨
    (∃ k hs, S = {k} ∧ n = leafNode hs k ∧ uncompactedLength ≤ p.length ∧ p <+: k ∧ ∀ c, hs c ≠ none →
      p ++ [c] <+: k) ∨
    (S.Nonempty ∧ (p.length < uncompactedLength ∨ 2 ≤ S.card) ∧ InnerAt db n p S) := by
  cases h with
  | empty => exact Or.inl ⟨rfl, rfl⟩
  | leaf hdepth hk hstale => exact Or.inr (Or.inl ⟨_, _, rfl, rfl, hdepth, hk, hstale⟩)
  | inner child hshape hne hframe hchild => exact Or.inr (Or.inr ⟨hne, hshape, child, hframe, hchild⟩)

theorem Represents.eq_new (h : Represents db n p ∅) : n = new := by
  rcases h.inv with ⟨-, rfl⟩ | ⟨k, hs, hS, -⟩ | ⟨hne, -⟩
  · rfl
  · exact absurd hS (Finset.singleton_ne_empty k).symm
  · exact absurd hne Finset.not_nonempty_empty

/-! ## What a node tells about its set -/

section
variable (h : Represents db n p S)
include h

theorem Represents.items_eq : n.items = S.card := by
  rcases h.inv with ⟨rfl, rfl⟩ | ⟨k, hs, rfl, rfl, -⟩ | ⟨-, -, child, hframe, -⟩
  · rfl
  · rfl
  · exact hframe.items

theorem Represents.isPrefix (hk : k ∈ S) : p <+: k := by
  rcases h.inv with ⟨rfl, -⟩ | ⟨k', hs, rfl, -, -, hk', -⟩ | ⟨-, -, child, hframe, -⟩
  · exact absurd hk (Finset.notMem_empty k)
  · rw [Finset.mem_singleton.mp hk]; exact hk'
  · obtain ⟨c, hc⟩ := hframe.cover k hk
    exact isPrefix_of_snoc hc

theorem Represents.live_eq : live n = if S = ∅ then none else some n := by
  unfold live
  simp only [h.items_eq, Finset.card_eq_zero]

theorem Represents.key_ne : n.key ≠ some [] := by
  rcases h.inv with ⟨rfl, rfl⟩ | ⟨k, hs, rfl, rfl, hdepth, hk, -⟩ | ⟨-, -, child, hframe, -⟩
  · simp [new]
  · have hlen : uncompactedLength ≤ k.length := hdepth.trans hk.length_le
    rw [leafNode_key]
    rintro ⟨⟩
    simp [uncompactedLength] at hlen
  · simp [hframe.key]

end

theorem InnerFrame.children_eq_none_iff (h : InnerFrame db n p S child) (c : UInt8) :
    n.children c = none ↔ below (p ++ [c]) S = ∅ := by
  refine ⟨fun hc => ?_, fun hc => (h.absent c hc).1⟩
  by_contra hne
  exact children_ne_none_of_load (h.load c (Finset.nonempty_iff_ne_empty.mpr hne)) hc

theorem InnerFrame.childHashes_eq_none_iff (h : InnerFrame db n p S child) (c : UInt8) :
    n.childHashes c = none ↔ below (p ++ [c]) S = ∅ := by
  refine ⟨fun hc => ?_, fun hc => (h.absent c hc).2⟩
  by_contra hne
  rw [h.cached c (Finset.nonempty_iff_ne_empty.mpr hne)] at hc
  cases hc

/-! The same, without naming the children. -/

section
variable (h : InnerAt db n p S)
include h

theorem InnerAt.items : n.items = S.card := h.elim fun _ h => h.1.items

theorem InnerAt.key : n.key = none := h.elim fun _ h => h.1.key

theorem InnerAt.cover : ∀ k ∈ S, ∃ c, p ++ [c] <+: k := h.elim fun _ h => h.1.cover

theorem InnerAt.isPrefix (hk : k ∈ S) : p <+: k :=
  (h.cover k hk).elim fun _ => isPrefix_of_snoc

theorem InnerAt.children_eq_none_iff (c : UInt8) :
    n.children c = none ↔ PrefixSet.below (p ++ [c]) S = ∅ := h.elim fun _ h => h.1.children_eq_none_iff c

theorem InnerAt.not_isLeaf (hne : S.Nonempty) : n.isLeaf = false := by
  obtain ⟨child, hframe, -⟩ := h
  obtain ⟨c, hc⟩ := exists_below_snoc_nonempty hne hframe.cover
  refine ByteMap.isEmpty_eq_false (c := c) fun hnone => ?_
  exact hc.ne_empty ((hframe.children_eq_none_iff c).mp hnone)

theorem InnerAt.isEmpty_childHashes (hne : S.Nonempty) : n.childHashes.isEmpty = false := by
  obtain ⟨child, hframe, -⟩ := h
  obtain ⟨c, hc⟩ := exists_below_snoc_nonempty hne hframe.cover
  exact ByteMap.isEmpty_eq_false (c := c) (by rw [hframe.cached c hc]; simp)

end

/-! ## The hash is determined by the set -/

theorem InnerAt.hash_eq_concat (h : InnerAt db n p S) (hne : S.Nonempty) :
    n.hash = blake3_20 (concatHashes n.childHashes) := by
  simp [hash, h.not_isLeaf hne, h.isEmpty_childHashes hne]

@[simp] theorem hash_leafNode (hs : ByteMap Bytes) (k : Bytes) : (leafNode hs k).hash = blake3_20 k := by
  simp [hash]

@[simp] theorem hash_new : hash new = [] := by simp [hash]

theorem Represents.hash_ne_nil (h : Represents db n p S) (hne : S.Nonempty) : n.hash ≠ [] := by
  rcases h.inv with ⟨rfl, -⟩ | ⟨k, hs, rfl, rfl, -⟩ | ⟨-, -, hinner⟩
  · exact absurd hne Finset.not_nonempty_empty
  · rw [hash_leafNode]; exact blake3_20_ne_nil k
  · rw [hinner.hash_eq_concat hne]; exact blake3_20_ne_nil _

/-- **The hash is a function of the key set.** Two nodes at the same path that hold the same keys have the
    same hash, whatever is in memory and whatever database they load the rest from. -/
theorem Represents.hash_eq (h : Represents db n p S) (h' : Represents db' n' p S) : n.hash = n'.hash := by
  induction h generalizing n' with
  | empty => rw [h'.eq_new]
  | leaf hdepth hk hstale =>
    rcases h'.inv with ⟨hS, -⟩ | ⟨k', hs', hS, rfl, -⟩ | ⟨-, hshape, -⟩
    · exact absurd hS (Finset.singleton_ne_empty _)
    · rw [hash_leafNode, hash_leafNode, Finset.singleton_inj.mp hS]
    · rw [Finset.card_singleton] at hshape
      omega
  | @inner n p S child hshape hne hframe hchild ih =>
    rcases h'.inv with ⟨rfl, -⟩ | ⟨k', hs', rfl, -, hdepth, -⟩ | ⟨-, -, hinner'⟩
    · exact absurd hne Finset.not_nonempty_empty
    · rw [Finset.card_singleton] at hshape
      omega
    · rw [InnerAt.hash_eq_concat ⟨child, hframe, hchild⟩ hne, hinner'.hash_eq_concat hne]
      obtain ⟨child', hframe', hchild'⟩ := hinner'
      congr 2
      funext c
      by_cases hc : (PrefixSet.below (p ++ [c]) S).Nonempty
      · rw [hframe.cached c hc, hframe'.cached c hc, ih c hc (hchild' c hc)]
      · rw [Finset.not_nonempty_iff_eq_empty] at hc
        rw [(hframe.absent c hc).2, (hframe'.absent c hc).2]

/-- What is cached for a child is the hash of any node for the same keys. -/
theorem InnerAt.cached (h : InnerAt db n p S) (hne : (PrefixSet.below (p ++ [c]) S).Nonempty)
    (hm : Represents db' m (p ++ [c]) (PrefixSet.below (p ++ [c]) S)) : n.childHashes c = some m.hash := by
  obtain ⟨child, hframe, hchild⟩ := h
  rw [hframe.cached c hne, (hchild c hne).hash_eq hm]

theorem InnerAt.forget_eq (h : InnerAt db n p S) (h' : InnerAt db n' p S) : n.forget = n'.forget := by
  have hhashes : n.childHashes = n'.childHashes := by
    obtain ⟨child, hframe, hchild⟩ := h'
    funext c
    by_cases hc : (PrefixSet.below (p ++ [c]) S).Nonempty
    · rw [hframe.cached c hc, h.cached hc (hchild c hc)]
    · rw [Finset.not_nonempty_iff_eq_empty] at hc
      rw [(hframe.childHashes_eq_none_iff c).2 hc]
      exact h.elim fun _ h => (h.1.childHashes_eq_none_iff c).2 hc
  refine forget_eq_forget_iff.2 ⟨by rw [h.items, h'.items], fun c => ?_, hhashes, by rw [h.key, h'.key]⟩
  rw [h.children_eq_none_iff, h'.children_eq_none_iff]

/-! ## Replacing one child -/

/-- **One child at a time.** If a node differs from an inner node only in the child at `c`, and that child
    holds what the new set has below `c`, it is an inner node for the new set. -/
theorem InnerAt.update (h : InnerAt db n p S) (hitems : n'.items = S'.card) (hkey : n'.key = none)
    (hcover : ∀ k ∈ S', ∃ c, p ++ [c] <+: k)
    (hother : ∀ c', c' ≠ c → n'.children c' = n.children c' ∧ n'.childHashes c' = n.childHashes c' ∧
      below (p ++ [c']) S' = below (p ++ [c']) S)
    (hat : (below (p ++ [c]) S' = ∅ ∧ n'.children c = none ∧ n'.childHashes c = none) ∨
      ((below (p ++ [c]) S').Nonempty ∧ n'.children c = some (.node m) ∧
        n'.childHashes c = some m.hash ∧ Represents db m (p ++ [c]) (below (p ++ [c]) S'))) :
    InnerAt db n' p S' := by
  obtain ⟨child, hframe, hchild⟩ := h
  refine ⟨Function.update child c m, ⟨hitems, hkey, hcover, ?_, ?_, ?_⟩, ?_⟩
  all_goals
    intro c' hc'
    by_cases hcc : c' = c
  · subst hcc
    rcases hat with ⟨-, hch, hh⟩ | ⟨hne, -⟩
    · exact ⟨hch, hh⟩
    · exact absurd hc' hne.ne_empty
  · obtain ⟨hch, hh, hb⟩ := hother c' hcc
    rw [hch, hh]
    exact hframe.absent c' (hb ▸ hc')
  · subst hcc
    rcases hat with ⟨hemp, -⟩ | ⟨-, hch, -⟩
    · exact absurd hemp hc'.ne_empty
    · rw [Function.update_self]
      exact getOrLoadChild_node hch
  · obtain ⟨hch, hh, hb⟩ := hother c' hcc
    rw [Function.update_of_ne hcc, getOrLoadChild_congr hch]
    exact hframe.load c' (hb ▸ hc')
  · subst hcc
    rcases hat with ⟨hemp, -⟩ | ⟨-, -, hh, -⟩
    · exact absurd hemp hc'.ne_empty
    · rw [Function.update_self, hh]
  · obtain ⟨hch, hh, hb⟩ := hother c' hcc
    rw [Function.update_of_ne hcc, hh]
    exact hframe.cached c' (hb ▸ hc')
  · subst hcc
    rcases hat with ⟨hemp, -⟩ | ⟨-, -, -, hrep⟩
    · exact absurd hemp hc'.ne_empty
    · rw [Function.update_self]
      exact hrep
  · obtain ⟨-, -, hb⟩ := hother c' hcc
    rw [Function.update_of_ne hcc, hb]
    exact hchild c' (hb ▸ hc')

theorem innerAt_new (db : RocksDB) (p : Bytes) : InnerAt db new p ∅ :=
  ⟨fun _ => new, ⟨rfl, rfl, by simp, fun _ _ => ⟨rfl, rfl⟩, by simp, by simp⟩, by simp⟩

theorem Represents.exists_child (h : Represents db n p S) (hc : n.children c ≠ none) :
    ∃ m, getOrLoadChild db n p c = .ok m ∧ (PrefixSet.below (p ++ [c]) S).Nonempty ∧
      Represents db m (p ++ [c]) (PrefixSet.below (p ++ [c]) S) := by
  rcases h.inv with ⟨rfl, rfl⟩ | ⟨k, hs, rfl, rfl, -⟩ | ⟨-, -, child, hframe, hchild⟩
  · exact absurd rfl hc
  · exact absurd rfl hc
  · have hne : (PrefixSet.below (p ++ [c]) S).Nonempty := by
      rw [Finset.nonempty_iff_ne_empty]
      exact fun he => hc ((hframe.children_eq_none_iff c).mpr he)
    exact ⟨child c, hframe.load c hne, hne, hchild c hne⟩

end TrieNode
end Hypersnap
