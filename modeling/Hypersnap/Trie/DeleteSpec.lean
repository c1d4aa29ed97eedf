import Hypersnap.Trie.InsertSpec

/-!
# `Trie.DeleteSpec` — the steps of a deletion

What the end of a deletion does to a node at `p` that goes from the keys `S` to the keys `T` (`Shrunk`): a
node that loses its last key is dead, it counts no items and has no hash, and its parent drops it; a node that
keeps one of several keys is compacted into a leaf; every other node is written back (`deleteFinish_spec`).

The batch records the change, **except where a node is compacted** (`Compacted`): the node takes over the key
of its last child, but the child is deleted under another database key than the one it is stored under. So the
child stays behind (`orphanKeys`), and what is stored under the other key is lost (`strayKeys`).
-/

namespace Hypersnap
namespace TrieNode

open Overlay PrefixSet

variable [Blake3] {db : RocksDB} {n m : TrieNode} {p k : Bytes} {S : Finset Bytes} {c : UInt8}
  {childHashes : ByteMap Bytes} {txn : RocksDbTransactionBatch}

/-- Going from `S` to `T` compacts the node at `q`, at or below `p`: it is deep enough, and one of several
    keys is left. -/
def Compacted (p : Bytes) (S T : Finset Bytes) (q : Bytes) : Prop :=
  p <+: q ∧ uncompactedLength ≤ q.length ∧ 2 ≤ (below q S).card ∧ (below q T).card = 1

/-- Keys of nodes that a compaction may leave behind. -/
def orphanKeys (p : Bytes) (S T : Finset Bytes) : Set Bytes :=
  {key | ∃ q c, Compacted p S T q ∧ key = nodeKey (q ++ [c])}

/-- Keys that a compaction may delete by mistake: the key of a child, taken as a path, has a key of its
    own. -/
def strayKeys (p : Bytes) (S T : Finset Bytes) : Set Bytes :=
  {key | ∃ q c, Compacted p S T q ∧ key = nodeKey (nodeKey (q ++ [c]))}

/-- Keys that may be deleted: by mistake, or because no key is left at the node. -/
def Dropped (p : Bytes) (S T : Finset Bytes) (key : Bytes) : Prop :=
  key ∈ strayKeys p S T ∨ ∃ q, key = nodeKey q ∧ p <+: q ∧ (below q S).Nonempty ∧ below q T = ∅

/-- The outcome of a deletion at the node `n` at `p`, which goes from the keys `S` to the keys `T`. -/
structure Shrunk (db : RocksDB) (n : TrieNode) (p : Bytes) (S T : Finset Bytes) (childHashes : ByteMap Bytes)
    (txn : RocksDbTransactionBatch) (out : Outcome (List Bool)) : Prop where
  node : T.Nonempty ∨ p.length < uncompactedLength → Represents db out.node p T
  dead : T = ∅ → out.node.items = 0 ∧ out.node.hash = []
  hashes : out.childHashes = if T = S then childHashes else out.node.updateHash childHashes p
  tracks : Tracks (orphanKeys p S T) (strayKeys p S T) db p (live n) (live out.node) txn out.txn
  untouched : T = S → out.txn = txn
  removed : ∀ key, out.txn key = some none → txn key = some none ∨ Dropped p S T key

section below

variable {T : Finset Bytes} {q key : Bytes}

omit [Blake3] in
theorem Compacted.of_below
    (h : Compacted (p ++ [c]) (PrefixSet.below (p ++ [c]) S) (PrefixSet.below (p ++ [c]) T) q) :
    Compacted p S T q := by
  obtain ⟨hpq, hlen, hS, hT⟩ := h
  rw [below_below hpq] at hS hT
  exact ⟨isPrefix_of_snoc hpq, hlen, hS, hT⟩

omit [Blake3] in
theorem orphanKeys_below :
    orphanKeys (p ++ [c]) (below (p ++ [c]) S) (below (p ++ [c]) T) ⊆ orphanKeys p S T :=
  fun _ ⟨q, c', hq, hkey⟩ => ⟨q, c', hq.of_below, hkey⟩

omit [Blake3] in
theorem strayKeys_below : strayKeys (p ++ [c]) (below (p ++ [c]) S) (below (p ++ [c]) T) ⊆ strayKeys p S T :=
  fun _ ⟨q, c', hq, hkey⟩ => ⟨q, c', hq.of_below, hkey⟩

omit [Blake3] in
theorem Dropped.of_below
    (h : Dropped (p ++ [c]) (PrefixSet.below (p ++ [c]) S) (PrefixSet.below (p ++ [c]) T) key) :
    Dropped p S T key := by
  refine h.imp (fun h => strayKeys_below h) ?_
  rintro ⟨q, rfl, hpq, hS, hT⟩
  rw [below_below hpq] at hS hT
  exact ⟨q, rfl, isPrefix_of_snoc hpq, hS, hT⟩

end below

/-! ## What an outcome tells about the node -/

section shrunk

variable {T : Finset Bytes} {out : Outcome (List Bool)}

theorem Shrunk.refl (h : Represents db n p S) (r : Except TrieError (List Bool)) :
    Shrunk db n p S S childHashes txn ⟨n, childHashes, txn, r⟩ := by
  refine ⟨fun _ => h, fun he => ?_, by simp, .of_view_eq fun _ => rfl, fun _ => rfl, fun _ => Or.inl⟩
  obtain rfl := (he ▸ h).eq_new
  exact ⟨rfl, hash_new⟩

theorem Shrunk.items_eq_zero_iff (h : Shrunk db n p S T childHashes txn out) :
    out.node.items = 0 ↔ T = ∅ := by
  refine ⟨fun hzero => ?_, fun he => (h.dead he).1⟩
  by_contra hne
  rw [(h.node (Or.inl (Finset.nonempty_iff_ne_empty.mpr hne))).items_eq, Finset.card_eq_zero] at hzero
  exact hne hzero

theorem Shrunk.live_eq (h : Shrunk db n p S T childHashes txn out) :
    live out.node = if T = ∅ then none else some out.node := by
  simp only [live, h.items_eq_zero_iff]

theorem Shrunk.childHashes_eq {U : Finset Bytes} (h : InnerAt db n p U) (hne : (below (p ++ [c]) U).Nonempty)
    (hout : Shrunk db m (p ++ [c]) (below (p ++ [c]) U) T n.childHashes txn out) :
    (if out.node.items = 0 then out.childHashes.remove c else out.childHashes)
      = Function.update n.childHashes c (if T = ∅ then none else some out.node.hash) := by
  rw [hout.hashes]
  by_cases he : T = ∅
  · obtain ⟨hitems, hhash⟩ := hout.dead he
    subst he
    simp [hitems, hne.ne_empty.symm, updateHash, hhash, ByteMap.remove]
  · have hT := Finset.nonempty_iff_ne_empty.mpr he
    have hnode := hout.node (Or.inl hT)
    rw [if_neg (mt hout.items_eq_zero_iff.1 he), if_neg he]
    split
    next heq =>
      -- nothing was deleted, and the hash of the child did not change
      subst heq
      rw [← h.cached hne hnode, Function.update_eq_self]
    next => rw [updateHash_snoc (hnode.hash_ne_nil hT), ByteMap.insert]

end shrunk

/-! ## Compaction -/

theorem InnerAt.eq_new (h : InnerAt db n p ∅) : n = new := by
  obtain ⟨child, hframe, -⟩ := h
  have hch : n.children = ByteMap.empty := funext fun c => (hframe.absent c below_empty).1
  have hhs : n.childHashes = ByteMap.empty := funext fun c => (hframe.absent c below_empty).2
  have hitems := hframe.items
  have hkey := hframe.key
  cases n
  simp_all [new]

/-- An inner node with a single key below the uncompacted levels has one child, and it is a leaf. -/
theorem InnerAt.single_child (h : InnerAt db n p {k}) (hdepth : uncompactedLength ≤ p.length) :
    ∃ c hs, p ++ [c] <+: k ∧ ByteMap.chars n.children = [c] ∧
    getOrLoadChild db n p c = .ok (leafNode hs k) := by
  obtain ⟨child, hframe, hchild⟩ := h
  obtain ⟨c, hkc⟩ := hframe.cover k (Finset.mem_singleton_self k)
  have hbelow : below (p ++ [c]) ({k} : Finset Bytes) = {k} := below_singleton hkc
  have hne : (below (p ++ [c]) ({k} : Finset Bytes)).Nonempty := by
    rw [hbelow]; exact Finset.singleton_nonempty k
  have hrep := hchild c hne
  rw [hbelow] at hrep
  have hchars : ByteMap.chars n.children = [c] := by
    refine ByteMap.chars_singleton fun c' => ?_
    rw [ne_eq, hframe.children_eq_none_iff, below_singleton_eq_empty_iff, not_not]
    exact ⟨fun hkc' => snoc_inj hkc' hkc, fun h => h ▸ hkc⟩
  rcases hrep.inv with ⟨hS, -⟩ | ⟨k', hs, hS, hleaf, -⟩ | ⟨-, hshape, -⟩
  · exact absurd hS (Finset.singleton_ne_empty k)
  · rw [Finset.singleton_inj.mp hS]
    exact ⟨c, hs, Finset.singleton_inj.mp hS ▸ hkc, hchars, hleaf ▸ hframe.load c hne⟩
  · rw [Finset.card_singleton] at hshape
    simp only [List.length_append, List.length_singleton] at hshape
    omega

theorem InnerAt.view_single {c' : UInt8} {r : Bytes} (h : InnerAt db n p {k})
    (hdepth : uncompactedLength ≤ p.length) : view db n p (c :: c' :: r) = none := by
  obtain ⟨c₀, hs, -, hchars, hload⟩ := h.single_child hdepth
  by_cases hc : c = c₀
  · rw [hc, view_cons_of_load hload, view_cons_of_none rfl]
  · have : c ∉ ByteMap.chars n.children := by rw [hchars]; simpa using hc
    exact view_cons_of_none (by simpa using this)

/-- Compaction turns the inner node for one key into the leaf for it; the hashes it had cached stay behind. -/
theorem compact_spec (txn : RocksDbTransactionBatch) (h : InnerAt db n p {k})
    (hdepth : uncompactedLength ≤ p.length) :
    (∃ c, p ++ [c] <+: k ∧ compact db n p txn
      = (leafNode n.childHashes k, deleteToTxn txn (makePrimaryKey p (some c)), none)) ∧
      Represents db (leafNode n.childHashes k) p {k} := by
  obtain ⟨c, hs, hkc, hchars, hload⟩ := h.single_child hdepth
  obtain ⟨child, hframe, -⟩ := h
  have hnode : ({ n with key := some k, children := ByteMap.remove n.children c } : TrieNode)
      = leafNode n.childHashes k := by
    have hch : ByteMap.remove n.children c = ByteMap.empty := by
      funext c'
      by_cases hc' : c' = c
      · rw [hc', ByteMap.remove_self]; rfl
      · have : c' ∉ ByteMap.chars n.children := by rw [hchars]; simpa using hc'
        rw [ByteMap.remove_of_ne _ _ _ hc']
        simpa using this
    have hitems : n.items = 1 := hframe.items
    simp only [hch, hitems, leafNode]
  refine ⟨⟨c, hkc, ?_⟩, .leaf hdepth (isPrefix_of_snoc hkc) fun c' hc' => ?_⟩
  · simp only [compact, hchars, hload, leafNode_key]
    rw [hnode]
  · rwa [ne_eq, hframe.childHashes_eq_none_iff, below_singleton_eq_empty_iff, not_not] at hc'

/-! ## The end of a deletion -/

/-- The loop over the groups is done at the inner node `n`, which went from the keys `S` to the keys `T`. -/
structure LoopDone (db : RocksDB) (n : TrieNode) (p : Bytes) (S T : Finset Bytes)
    (txn : RocksDbTransactionBatch) (s : GroupLoop) : Prop where
  before : InnerAt db n p S
  nonempty : S.Nonempty
  shape : p.length < uncompactedLength ∨ 2 ≤ S.card
  subset : T ⊆ S
  successes : s.successes + T.card = S.card
  node : InnerAt db { s.node with items := s.node.items - s.successes } p T
  tracks : TracksBelow (orphanKeys p S T) (strayKeys p S T) db p n s.node txn s.txn
  untouched : T = S → s.txn = txn
  removed : ∀ key, s.txn key = some none → txn key = some none ∨ Dropped p S T key

section finish

variable {s : GroupLoop} {T : Finset Bytes}

/-- The end of the deletion reports the results of the loop, and leaves the node with the keys `T`. -/
def Finishes (db : RocksDB) (n : TrieNode) (p : Bytes) (S T : Finset Bytes) (childHashes : ByteMap Bytes)
    (txn : RocksDbTransactionBatch) (s : GroupLoop) : Prop :=
  (deleteFinish db p childHashes p.length s).result = .ok s.results ∧
    Shrunk db n p S T childHashes txn (deleteFinish db p childHashes p.length s)

/-- Nothing was deleted: nothing is staged for the node, and it looks as before. -/
theorem LoopDone.same (h : LoopDone db n p S S txn s) : Finishes db n p S S childHashes txn s := by
  have hzero : s.successes = 0 := by
    have := h.successes
    omega
  have hnode := h.node
  have hself : ({ s.node with items := s.node.items - s.successes } : TrieNode) = s.node := by
    rw [hzero]
    cases s.node
    rfl
  rw [hself] at hnode
  unfold Finishes deleteFinish
  rw [if_neg (by omega)]
  refine ⟨rfl, fun _ => hnode.represents h.nonempty h.shape, fun he =>
    absurd he h.nonempty.ne_empty, by simp, ?_,
    h.untouched, h.removed⟩
  refine h.tracks.finish h.before.viewOf_live (fun c r => Or.inr (hnode.viewOf_live c r)) (Or.inr ⟨rfl, ?_⟩)
  rw [hnode.live_eq h.nonempty, h.before.live_eq h.nonempty, viewOf_some, viewOf_some, view_nil, view_nil,
    hnode.forget_eq h.before]

theorem LoopDone.pos (h : LoopDone db n p S T txn s) (hne : T ≠ S) : 0 < s.successes := by
  have hlt : T.card < S.card := Finset.card_lt_card (Finset.ssubset_iff_subset_ne.2 ⟨h.subset, hne⟩)
  have := h.successes
  omega

omit [Blake3] in
theorem view_items (c : UInt8) (r : Bytes) (items : Nat) :
    view db s.node p (c :: r) = view db { s.node with items := items } p (c :: r) := view_cons_congr rfl

/-- The last key is gone: the node is removed. -/
theorem LoopDone.gone (h : LoopDone db n p S ∅ txn s) : Finishes db n p S ∅ childHashes txn s := by
  have hne : ∅ ≠ S := h.nonempty.ne_empty.symm
  have hself := h.node.eq_new
  have hview : ∀ c r, view db s.node p (c :: r) = none := fun c r => by
    rw [view_items c r (s.node.items - s.successes), hself, view_cons_of_none rfl]
  unfold Finishes deleteFinish
  rw [if_pos (h.pos hne), hself]
  simp only [new_items, if_true]
  refine ⟨trivial, fun _ => .empty, fun _ => ⟨rfl, hash_new⟩, by rw [if_neg hne], ?_, fun h => absurd h hne,
    fun key hkey => ?_⟩
  · rw [live_of_eq (n := new) rfl]
    exact h.tracks.finish h.before.viewOf_live (fun c r => Or.inr (by rw [hview, viewOf_none]))
      (Or.inl (deleteToTxn_eq db))
  · rcases deleteToTxn_delete hkey with rfl | hkey
    · have hbelow : below p S = S := below_eq_self fun x hx => h.before.isPrefix hx
      exact Or.inr (Or.inr ⟨p, rfl, List.prefix_rfl, hbelow.symm ▸ h.nonempty, below_empty⟩)
    · exact h.removed key hkey

/-- One key is left below a compacted level: the node becomes its leaf. -/
theorem LoopDone.compacted (h : LoopDone db n p S {k} txn s) (hne : {k} ≠ S)
    (hdepth : uncompactedLength ≤ p.length) :
    Finishes db n p S {k} childHashes txn s := by
  have hSp : below p S = S := below_eq_self fun x hx => h.before.isPrefix hx
  have hpk : p <+: k := h.node.isPrefix (Finset.mem_singleton_self k)
  have htwo : 2 ≤ S.card := h.shape.resolve_left (Nat.not_lt.2 hdepth)
  have hcompacted : Compacted p S {k} p :=
    ⟨List.prefix_rfl, hdepth, by rwa [hSp], by rw [below_singleton hpk, Finset.card_singleton]⟩
  have hone : ({ s.node with items := s.node.items - s.successes } : TrieNode).items = 1 := h.node.items
  obtain ⟨c₁, hs, -, hchars, -⟩ := h.node.single_child hdepth
  have hcond : ({ s.node with items := s.node.items - s.successes } : TrieNode).items = 1 ∧
      ByteMap.len ({ s.node with items := s.node.items - s.successes } : TrieNode).children = 1 ∧
      uncompactedLength ≤ p.length := ⟨hone, by rw [ByteMap.len, hchars]; rfl, hdepth⟩
  have hpos : ({ s.node with items := s.node.items - s.successes } : TrieNode).items ≠ 0 := by
    rw [hone]
    decide
  obtain ⟨⟨c₀, -, hrun⟩, hrep⟩ := compact_spec s.txn h.node hdepth
  have hstray : nodeKey (makePrimaryKey p (some c₀)) ∈ strayKeys p S {k} :=
    ⟨p, c₀, hcompacted, by rw [makePrimaryKey_some]⟩
  unfold Finishes deleteFinish
  simp only [if_pos (h.pos hne), if_neg hpos, if_pos hcond, hrun]
  refine ⟨trivial, fun _ => hrep, fun he => absurd he (Finset.singleton_ne_empty k), by rw [if_neg hne], ?_,
    fun h => absurd h hne, fun key hkey => ?_⟩
  · rw [live_of_ne (n := leafNode _ k) (by simp)]
    refine (h.tracks.delete hstray).finish h.before.viewOf_live (fun c r => ?_) (Or.inl (putToTxn_eq db))
    -- the leaf has no children, and all that is lost with the old ones are orphans
    cases r with
    | nil => exact Or.inl ⟨p, c, hcompacted, rfl⟩
    | cons c' r =>
      refine Or.inr ?_
      rw [view_items c _ (s.node.items - s.successes), h.node.view_single hdepth, viewOf_some,
        view_cons_of_none rfl]
  · rcases deleteToTxn_delete (putToTxn_ne_delete hkey) with rfl | hkey
    · exact Or.inr (Or.inl hstray)
    · exact h.removed key hkey

/-- Several keys are left, or the node is above the compacted levels: it is written back. -/
theorem LoopDone.written (h : LoopDone db n p S T txn s) (hne : T ≠ S) (hT : T.Nonempty)
    (hshape : p.length < uncompactedLength ∨ 2 ≤ T.card) : Finishes db n p S T childHashes txn s := by
  have hitems :
      ({ s.node with items := s.node.items - s.successes } : TrieNode).items = T.card := h.node.items
  have hpos : ({ s.node with items := s.node.items - s.successes } : TrieNode).items ≠ 0 := by
    rw [hitems]
    exact (Finset.card_pos.mpr hT).ne'
  have hcomp : ¬ (({ s.node with items := s.node.items - s.successes } : TrieNode).items = 1 ∧
      ByteMap.len ({ s.node with items := s.node.items - s.successes } : TrieNode).children = 1 ∧
      uncompactedLength ≤ p.length) := by
    rw [hitems]
    omega
  unfold Finishes deleteFinish
  simp only [if_pos (h.pos hne), if_neg hpos, if_neg hcomp]
  refine ⟨trivial, fun _ => h.node.represents hT hshape, fun he =>
    absurd he hT.ne_empty, by rw [if_neg hne], ?_,
    fun h => absurd h hne, fun key hkey => h.removed key (putToTxn_ne_delete hkey)⟩
  rw [live_of_ne hpos]
  exact h.tracks.finish h.before.viewOf_live (fun c r => Or.inr (view_items c r _).symm)
    (Or.inl (putToTxn_eq db))

variable (childHashes) in
/-- **Finishing an inner node** whose children are done: it is removed, compacted or written back. -/
theorem deleteFinish_spec (h : LoopDone db n p S T txn s) : Finishes db n p S T childHashes txn s := by
  by_cases hne : T = S
  · subst hne
    exact h.same
  obtain rfl | hT := T.eq_empty_or_nonempty
  · exact h.gone
  by_cases hshape : p.length < uncompactedLength ∨ 2 ≤ T.card
  · exact h.written hne hT hshape
  · have hone : T.card = 1 := by
      have := Finset.card_pos.mpr hT
      omega
    obtain ⟨k, rfl⟩ := Finset.card_eq_one.mp hone
    exact h.compacted hne (by omega)

end finish

end TrieNode
end Hypersnap
