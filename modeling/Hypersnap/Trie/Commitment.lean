import Hypersnap.Trie.Refinement

/-!
# `Trie.Commitment` — the root hash commits to the key set

An inner node hashes the concatenation of its children's hashes and does not mention the nibbles they hang
under; a leaf hashes its whole key. So the argument is about key *sets* and not about positions: if no two
of the strings hashed in two tries collide, nodes with equal hashes hold equal sets, wherever they sit
(`Represents.eq_of_hash_eq`). A leaf and an inner node are told apart by length: the string an inner node
hashes is a nonempty sequence of 20-byte blocks, and the nibble string of a key whose length in bytes is not
a multiple of 10 is none.
-/

namespace Hypersnap

open PrefixSet

variable {x k : Bytes} {α : Type} {w : Nat}

theorem length_flatten_of_length {l : List (List α)} (hl : ∀ b ∈ l, b.length = w) :
    l.flatten.length = l.length * w := by
  rw [List.length_flatten, List.map_eq_replicate_iff.mpr hl, List.sum_replicate_nat]

theorem flatten_inj_of_length (hw : 0 < w) {l l' : List (List α)} (hl : ∀ b ∈ l, b.length = w)
    (hl' : ∀ b ∈ l', b.length = w) (h : l.flatten = l'.flatten) : l = l' := by
  have hcount : l.length = l'.length := by
    have := congrArg List.length h
    rw [length_flatten_of_length hl, length_flatten_of_length hl'] at this
    exact Nat.eq_of_mul_eq_mul_right hw this
  refine List.eq_iff_flatten_eq.mpr ⟨h, ?_⟩
  rw [List.map_eq_replicate_iff.mpr hl, List.map_eq_replicate_iff.mpr hl', hcount]

namespace TrieNode

variable [Blake3] {db db₁ db₂ : RocksDB} {n n₁ n₂ m : TrieNode} {p p₁ p₂ r : Bytes} {S S₁ S₂ : Finset Bytes}
  {c : UInt8}

/-- The string a node's hash is the hash of, if it has one. -/
def preimage (n : TrieNode) : Option Bytes :=
  if n.isLeaf then n.key
  else if n.childHashes.isEmpty then none
  else some (concatHashes n.childHashes)

theorem hash_eq_preimage (n : TrieNode) : n.hash = (n.preimage.map blake3_20).getD [] := by
  unfold hash preimage
  split
  · cases n.key <;> rfl
  · split <;> rfl

/-- The strings that are hashed in the tree below a node. -/
def hashedStrings (db : RocksDB) (n : TrieNode) (p : Bytes) : Set Bytes :=
  {x | ∃ r m, n.getNodeFromTrie db p r = some m ∧ m.preimage = some x}

omit [Blake3] in
theorem preimage_mem_hashedStrings (h : n.preimage = some x) : x ∈ hashedStrings db n p :=
  ⟨[], n, rfl, h⟩

omit [Blake3] in
theorem hashedStrings_child_subset (hload : getOrLoadChild db n p c = .ok m) :
    hashedStrings db m (p ++ [c]) ⊆ hashedStrings db n p := by
  rintro x ⟨r, m', hr, hx⟩
  exact ⟨c :: r, m', by simpa only [getNodeFromTrie, hload] using hr, hx⟩

omit [Blake3] in
theorem preimage_leafNode (hs : ByteMap Bytes) (k : Bytes) : (leafNode hs k).preimage = some k := by
  simp [preimage]

theorem InnerAt.preimage_eq (h : InnerAt db n p S) (hne : S.Nonempty) :
    n.preimage = some (concatHashes n.childHashes) := by
  simp [preimage, h.not_isLeaf hne, h.isEmpty_childHashes hne]

theorem Represents.hash_length (h : Represents db n p S) (hne : S.Nonempty) : n.hash.length = 20 := by
  have hnil := h.hash_ne_nil hne
  rw [hash_eq_preimage] at hnil ⊢
  cases hpre : n.preimage with
  | none => rw [hpre] at hnil; exact absurd rfl hnil
  | some x => exact blake3_20_length x

/-! ## Inner nodes hash the hashes of their children -/

/-- The hashes of the children of an inner node, in the order they are concatenated. -/
def childHashList (n : TrieNode) : List Bytes := n.childHashes.chars.map fun c => (n.childHashes c).getD []

omit [Blake3] in
theorem concatHashes_eq (n : TrieNode) : concatHashes n.childHashes = n.childHashList.flatten := by
  rw [concatHashes, List.flatMap_def, childHashList]

theorem InnerFrame.mem_childHashList {child : UInt8 → TrieNode} (h : InnerFrame db n p S child) :
    x ∈ n.childHashList ↔ ∃ c, (below (p ++ [c]) S).Nonempty ∧ (child c).hash = x := by
  simp only [childHashList, List.mem_map, ByteMap.mem_chars]
  constructor
  · rintro ⟨c, hc, rfl⟩
    rw [ne_eq, h.childHashes_eq_none_iff, ← ne_eq, ← Finset.nonempty_iff_ne_empty] at hc
    exact ⟨c, hc, by rw [h.cached c hc]; rfl⟩
  · rintro ⟨c, hc, rfl⟩
    refine ⟨c, ?_, by rw [h.cached c hc]; rfl⟩
    rw [h.cached c hc]
    simp

theorem InnerAt.childHashList_length (h : InnerAt db n p S) (hx : x ∈ n.childHashList) : x.length = 20 := by
  obtain ⟨child, hframe, hchild⟩ := h
  obtain ⟨c, hc, rfl⟩ := hframe.mem_childHashList.mp hx
  exact (hchild c hc).hash_length hc

theorem InnerAt.dvd_length_concat (h : InnerAt db n p S) : 20 ∣ (concatHashes n.childHashes).length := by
  rw [concatHashes_eq, length_flatten_of_length fun _ => h.childHashList_length]
  exact Nat.dvd_mul_left _ _

/-! ## Equal hashes, equal sets -/

/-- The keys of one inner node are among those of another one whose children have the same hashes, if
    children with equal hashes hold equal sets. -/
theorem InnerFrame.subset_of_childHashList {child₁ child₂ : UInt8 → TrieNode}
    (h₁ : InnerFrame db₁ n₁ p₁ S₁ child₁) (h₂ : InnerFrame db₂ n₂ p₂ S₂ child₂)
    (hlist : n₁.childHashList = n₂.childHashList)
    (heq : ∀ c₁ c₂, (below (p₁ ++ [c₁]) S₁).Nonempty → (below (p₂ ++ [c₂]) S₂).Nonempty →
      (child₁ c₁).hash = (child₂ c₂).hash → below (p₁ ++ [c₁]) S₁ = below (p₂ ++ [c₂]) S₂) :
    S₁ ⊆ S₂ := by
  intro k hk
  obtain ⟨c₁, hkc₁⟩ := h₁.cover k hk
  have hc₁ : (PrefixSet.below (p₁ ++ [c₁]) S₁).Nonempty := below_nonempty_of_mem hk hkc₁
  have hmem : (child₁ c₁).hash ∈ n₂.childHashList := hlist ▸ h₁.mem_childHashList.mpr ⟨c₁, hc₁, rfl⟩
  obtain ⟨c₂, hc₂, hhash⟩ := h₂.mem_childHashList.mp hmem
  have hk₂ : k ∈ PrefixSet.below (p₂ ++ [c₂]) S₂ := by
    rw [← heq c₁ c₂ hc₁ hc₂ hhash.symm]
    exact mem_below.mpr ⟨hk, hkc₁⟩
  exact (mem_below.mp hk₂).1

/-- **Equal hashes, equal sets.** If `blake3_20` does not collide on the strings hashed below two nodes, and
    no key has the length of a sequence of hashes, nodes with equal hashes hold the same keys. -/
theorem Represents.eq_of_hash_eq (h₁ : Represents db₁ n₁ p₁ S₁) (h₂ : Represents db₂ n₂ p₂ S₂)
    (hlen : ∀ k ∈ S₁ ∪ S₂, ¬ 20 ∣ k.length)
    (hinj : Set.InjOn blake3_20 (hashedStrings db₁ n₁ p₁ ∪ hashedStrings db₂ n₂ p₂))
    (hhash : n₁.hash = n₂.hash) : S₁ = S₂ := by
  -- what the two nodes hash is the same string
  have hpre : ∀ {a b : TrieNode} {q₁ q₂ x y : Bytes}, a.preimage = some x → b.preimage = some y →
      Set.InjOn blake3_20 (hashedStrings db₁ a q₁ ∪ hashedStrings db₂ b q₂) → a.hash = b.hash → x = y := by
    intro a b q₁ q₂ x y hx hy hinj hhash
    rw [hash_eq_preimage, hash_eq_preimage, hx, hy] at hhash
    exact hinj (Or.inl (preimage_mem_hashedStrings hx)) (Or.inr (preimage_mem_hashedStrings hy)) hhash
  induction h₁ generalizing n₂ p₂ S₂ with
  | empty =>
    rw [hash_new] at hhash
    by_contra hne
    exact h₂.hash_ne_nil (Finset.nonempty_iff_ne_empty.mpr (Ne.symm hne)) hhash.symm
  | @leaf p k hs hdepth hk hstale =>
    rcases h₂.inv with ⟨rfl, rfl⟩ | ⟨k', hs', rfl, rfl, -⟩ | ⟨hne, -, hinner⟩
    · rw [hash_new, hash_leafNode] at hhash
      exact absurd hhash (blake3_20_ne_nil k)
    · rw [hpre (preimage_leafNode hs k) (preimage_leafNode hs' k') hinj hhash]
    · have hx := hpre (preimage_leafNode hs k) (hinner.preimage_eq hne) hinj hhash
      exact absurd (hx ▸ hinner.dvd_length_concat) (hlen k (by simp))
  | @inner n p S child hshape hne hframe hchild ih =>
    have hinner₁ : InnerAt db₁ n p S := ⟨child, hframe, hchild⟩
    rcases h₂.inv with ⟨rfl, rfl⟩ | ⟨k', hs', rfl, rfl, -⟩ | ⟨hne₂, -, hinner₂⟩
    · rw [hash_new] at hhash
      exact absurd hhash ((hinner₁.represents hne hshape).hash_ne_nil hne)
    · have hx := hpre (hinner₁.preimage_eq hne) (preimage_leafNode hs' k') hinj hhash
      exact absurd (hx ▸ hinner₁.dvd_length_concat) (hlen k' (by simp))
    · have hx := hpre (hinner₁.preimage_eq hne) (hinner₂.preimage_eq hne₂) hinj hhash
      rw [concatHashes_eq, concatHashes_eq] at hx
      have hlist := flatten_inj_of_length (by decide : 0 < 20) (fun _ => hinner₁.childHashList_length)
        (fun _ => hinner₂.childHashList_length) hx
      obtain ⟨child₂, hframe₂, hchild₂⟩ := hinner₂
      have hsub : ∀ c₁ c₂, (PrefixSet.below (p ++ [c₁]) S).Nonempty →
          (PrefixSet.below (p₂ ++ [c₂]) S₂).Nonempty → (child c₁).hash = (child₂ c₂).hash →
          PrefixSet.below (p ++ [c₁]) S = PrefixSet.below (p₂ ++ [c₂]) S₂ := by
        intro c₁ c₂ hc₁ hc₂ hh
        refine ih c₁ hc₁ (hchild₂ c₂ hc₂) (fun k hk => hlen k ?_) (hinj.mono ?_) hh
        · exact Finset.union_subset_union below_subset below_subset hk
        · exact Set.union_subset_union (hashedStrings_child_subset (hframe.load c₁ hc₁))
            (hashedStrings_child_subset (hframe₂.load c₂ hc₂))
      exact Finset.Subset.antisymm (hframe.subset_of_childHashList hframe₂ hlist hsub)
        (hframe₂.subset_of_childHashList hframe hlist.symm fun c₂ c₁ hc₂ hc₁ hh =>
          (hsub c₁ c₂ hc₁ hc₂ hh.symm).symm)

end TrieNode

namespace MerkleTrie

open TrieNode

variable [Blake3] {hash : Bytes → Bytes} {db : RocksDB}

/-- The strings that are hashed in a trie. -/
def hashed (t : MerkleTrie) (db : RocksDB) : Set Bytes :=
  {x | ∃ root, t.root = some root ∧ x ∈ hashedStrings db root []}

/-- **The root commits to the key set.** Two tries reached by well-formed runs over keys whose length is not a
    multiple of 10, in which no two different hashed strings collide: equal root hashes mean equal key
    sets. -/
theorem rootHash_commits_keys {db₁ db₂ : RocksDB} {calls₁ calls₂ : List Call}
    (hfresh₁ : db₁ (nodeKey []) = none) (hfresh₂ : db₂ (nodeKey []) = none) (h₁ : WellFormed calls₁)
    (h₂ : WellFormed calls₂) (hlen : ∀ c ∈ calls₁ ++ calls₂, ¬ 10 ∣ c.op.key.length)
    (hinj : Set.InjOn blake3_20
      (((fresh db₁).run calls₁).hashed db₁ ∪ ((fresh db₂).run calls₂).hashed db₂))
    (hroot : ((fresh db₁).run calls₁).rootHash = ((fresh db₂).run calls₂).rootHash) :
    keysAfter ∅ calls₁ = keysAfter ∅ calls₂ := by
  obtain ⟨root₁, hroot₁⟩ := run_holds hfresh₁ h₁
  obtain ⟨root₂, hroot₂⟩ := run_holds hfresh₂ h₂
  simp only [rootHash, hroot₁.root_eq, hroot₂.root_eq, Except.ok.injEq] at hroot
  have hkeys : ∀ k ∈ nibbleKeys (keysAfter ∅ calls₁) ∪ nibbleKeys (keysAfter ∅ calls₂), ¬ 20 ∣ k.length := by
    intro k hk
    rw [nibbleKeys, nibbleKeys, ← Finset.image_union] at hk
    obtain ⟨key, hkey, rfl⟩ := Finset.mem_image.mp hk
    have hused : ∃ c ∈ calls₁ ++ calls₂, c.op.key = key := by
      rcases Finset.mem_union.mp hkey with hkey | hkey
      · obtain ⟨c, hc, hck⟩ := keysAfter_subset calls₁ hkey
        exact ⟨c, List.mem_append_left _ hc, hck⟩
      · obtain ⟨c, hc, hck⟩ := keysAfter_subset calls₂ hkey
        exact ⟨c, List.mem_append_right _ hc, hck⟩
    obtain ⟨c, hc, rfl⟩ := hused
    have := hlen c hc
    rw [expandNibbles_length]
    omega
  refine Finset.image_injective expandNibbles_injective
    ((hroot₁.represents db₁).eq_of_hash_eq (hroot₂.represents db₂) hkeys (hinj.mono ?_) hroot)
  exact Set.union_subset_union (fun x hx => ⟨root₁, hroot₁.root_eq, hx⟩)
    (fun x hx => ⟨root₂, hroot₂.root_eq, hx⟩)

/-! ## A trie without collisions -/

/-- A hash that maps a block of 20 equal bytes to the next such block. -/
def StepHash (hash : Bytes → Bytes) : Prop :=
  ∀ b, hash b = List.replicate 20 (if b.length = 20 then b.headD 0 + 1 else 1)

/-- What is hashed at height `d` above the leaf of a trie with the single key `k`. -/
def stepString (k : Bytes) (d : Nat) : Bytes := if d = 0 then k else List.replicate 20 (UInt8.ofNat d)

omit [Blake3] in
theorem StepHash.stepString (h : StepHash hash) (hk : k.length ≠ 20) (d : Nat) :
    hash (stepString k d) = List.replicate 20 (UInt8.ofNat (d + 1)) := by
  rw [h, MerkleTrie.stepString]
  by_cases hd : d = 0
  · simp [hd, hk]
  · simp [hd, UInt8.ofNat_add]

theorem preimage_single {m : TrieNode} (hH : StepHash blake3_20) (hk : k.length ≠ 20) (d : Nat) {p : Bytes}
    (hd : uncompactedLength - p.length = d) (h : Represents db m p {k}) :
    m.preimage = some (stepString k d) := by
  induction d generalizing m p with
  | zero =>
    rcases h.inv with ⟨hS, -⟩ | ⟨k', hs, hS, rfl, -⟩ | ⟨-, hshape, -⟩
    · exact absurd hS (Finset.singleton_ne_empty k)
    · rw [preimage_leafNode, Finset.singleton_inj.mp hS]
      rfl
    · rw [Finset.card_singleton] at hshape
      omega
  | succ d ih =>
    rcases h.inv with ⟨hS, -⟩ | ⟨k', hs, -, -, hdepth, -⟩ | ⟨hne, -, hinner⟩
    · exact absurd hS (Finset.singleton_ne_empty k)
    · omega
    · rw [hinner.preimage_eq hne]
      obtain ⟨child, hframe, hchild⟩ := hinner
      obtain ⟨c, hkc⟩ := hframe.cover k (Finset.mem_singleton_self k)
      have hbelow : below (p ++ [c]) ({k} : Finset Bytes) = {k} := below_singleton hkc
      have hb : (below (p ++ [c]) ({k} : Finset Bytes)).Nonempty := by rw [hbelow]; exact hne
      have hchars : m.childHashes.chars = [c] := ByteMap.chars_singleton fun c' => by
        rw [ne_eq, hframe.childHashes_eq_none_iff, below_singleton_eq_empty_iff, not_not]
        exact ⟨fun hkc' => snoc_inj hkc' hkc, fun h => h ▸ hkc⟩
      have hrep := hchild c hb
      rw [hbelow] at hrep
      have hpre := ih (by simp only [List.length_append, List.length_singleton]; omega) hrep
      have hhash : (child c).hash = List.replicate 20 (UInt8.ofNat (d + 1)) := by
        rw [hash_eq_preimage, hpre]
        exact hH.stepString hk d
      simp [concatHashes, hchars, hframe.cached c hb, hhash, stepString]

theorem hashed_single {calls : List Call} {key : Bytes} (hH : StepHash blake3_20)
    (hfresh : db (nodeKey []) = none) (h : WellFormed calls) (hkeys : keysAfter ∅ calls = {key})
    (hlen : key.length ≠ 10) (hx : x ∈ ((fresh db).run calls).hashed db) :
    ∃ d ≤ 12, x = stepString (expandNibbles key) d := by
  obtain ⟨root, hroot, r, m, hr, hx⟩ := hx
  obtain ⟨root', hroot'⟩ := run_holds hfresh h
  obtain rfl : root = root' := Option.some.inj (hroot.symm.trans hroot'.root_eq)
  have hrep := hroot'.represents db
  rw [hkeys, nibbleKeys, Finset.image_singleton] at hrep
  obtain ⟨hm, hne⟩ := hrep.getNodeFromTrie hr
  rw [List.nil_append] at hm hne
  have hpre : r <+: expandNibbles key := by
    by_contra hcon
    rw [below_singleton_eq_empty_iff.mpr hcon] at hne
    exact absurd (hne fun h => hcon (h ▸ List.nil_prefix)) Finset.not_nonempty_empty
  rw [below_singleton hpre] at hm
  have hsingle := preimage_single hH (by rw [expandNibbles_length]; omega) _ rfl hm
  exact ⟨_, Nat.sub_le _ _, Option.some.inj (hx.symm.trans hsingle)⟩

omit [Blake3] in
theorem stepString_inj (h : StepHash hash) (hk : k.length ≠ 20) {d e : Nat} (hd : d ≤ 12) (he : e ≤ 12)
    (heq : hash (stepString k d) = hash (stepString k e)) :
    d = e := by
  rw [h.stepString hk, h.stepString hk] at heq
  have hbyte := (List.replicate_inj.mp heq).2.resolve_left (by decide)
  have hnat := congrArg UInt8.toNat hbyte
  rw [UInt8.toNat_ofNat', UInt8.toNat_ofNat'] at hnat
  omega

omit [Blake3] in
theorem rootHash_commits_keys_sample :
    keysAfter ∅ sampleCalls = keysAfter ∅ [callOn (.insert [1, 2, 3, 4, 5, 6, 8])] := by
  let _ : Blake3 := ⟨fun b => Vector.replicate 32 (if b.length = 20 then b.headD 0 + 1 else 1)⟩
  have hH : StepHash blake3_20 := fun b => by
    show (Vector.replicate 32 _).toList.take 20 = _
    rw [Vector.toList_replicate, List.take_replicate]
    rfl
  have h₁ : WellFormed sampleCalls := WellFormed.of_length (n := 7) (by decide) (by decide)
  have h₂ : WellFormed [callOn (.insert [1, 2, 3, 4, 5, 6, 8])] :=
    WellFormed.of_length (n := 7) (by decide) (by decide)
  have hkeys₁ : keysAfter ∅ sampleCalls = {[1, 2, 3, 4, 5, 6, 8]} := by decide
  have hkeys₂ : keysAfter ∅ [callOn (.insert [1, 2, 3, 4, 5, 6, 8])] = {[1, 2, 3, 4, 5, 6, 8]} := by decide
  obtain ⟨root₁, hroot₁⟩ := @run_holds _ (fun _ => none) _ rfl h₁
  obtain ⟨root₂, hroot₂⟩ := @run_holds _ (fun _ => none) _ rfl h₂
  refine @rootHash_commits_keys _ (fun _ => none) (fun _ => none) _ _ rfl rfl h₁ h₂ (by decide) ?_ ?_
  · have hall : ∀ x ∈ ((fresh fun _ => none).run sampleCalls).hashed (fun _ => none) ∪
        ((fresh fun _ => none).run [callOn (.insert [1, 2, 3, 4, 5, 6, 8])]).hashed (fun _ => none),
        ∃ d ≤ 12, x = stepString (expandNibbles [1, 2, 3, 4, 5, 6, 8]) d := by
      rintro x (hx | hx)
      · exact hashed_single hH rfl h₁ hkeys₁ (by decide) hx
      · exact hashed_single hH rfl h₂ hkeys₂ (by decide) hx
    intro x hx y hy hxy
    obtain ⟨d, hd, rfl⟩ := hall x hx
    obtain ⟨e, he, rfl⟩ := hall y hy
    rw [stepString_inj hH (by decide) hd he hxy]
  · have hrep := hroot₁.represents fun _ => none
    rw [hkeys₁, ← hkeys₂] at hrep
    simp only [rootHash, hroot₁.root_eq, hroot₂.root_eq]
    rw [hrep.hash_eq (hroot₂.represents fun _ => none)]

end MerkleTrie
end Hypersnap
