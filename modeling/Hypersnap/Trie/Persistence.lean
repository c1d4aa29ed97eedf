import Hypersnap.Trie.Refinement

/-!
# `Trie.Persistence` — the trie in memory and the trie in the database

A node operation writes the nodes it changes into a batch. Once the batch is committed, the database is meant
to hold the whole tree, so that nodes may be dropped from memory and read back at any time. This module
compares the two, one tree at a time:

* `Covers` — a key-value map holds the record of every node of the tree under the key of its path;
* `Evicted` — a node is another one with some of its descendants dropped from memory, which is what
  `reload` and `evictStale` do;
* `Represents.getNode_of_covers` and `Evicted.view_eq` — over a database that covers the tree, committing
  its writes and dropping its nodes change nothing that can be seen.
-/

namespace Hypersnap

open Overlay PrefixSet

namespace TrieNode

section evict

variable {n n' m : TrieNode} {p : Bytes} {c : UInt8} {stale : Bytes → Bool}

/-! ## Dropping nodes from memory -/

/-- `n'` is `n` with some descendants dropped from memory: what is still in memory was in memory. -/
inductive Evicted : TrieNode → TrieNode → Prop
  | mk {n n' : TrieNode} (child : UInt8 → TrieNode) (hforget : n'.forget = n.forget)
      (hnode : ∀ c m', n'.children c = some (.node m') → n.children c = some (.node (child c)))
      (hchild : ∀ c m', n'.children c = some (.node m') → Evicted (child c) m') : Evicted n n'

theorem evicted_forget (n : TrieNode) : Evicted n n.forget := by
  have hno : ∀ c m', n.forget.children c ≠ some (.node m') := by
    intro c m'
    cases h : n.children c <;> simp [forget, h]
  exact ⟨fun _ => n, forget_forget n, fun c m' h => absurd h (hno c m'), fun c m' h => absurd h (hno c m')⟩

theorem evictChild_eq_none {o : Option (TrieNodeType TrieNode)} : evictChild stale p o = none ↔ o = none := by
  cases o <;> simp [evictChild]

theorem forget_evictStaleChildren (stale : Bytes → Bool) (p : Bytes) (n : TrieNode) :
    (evictStaleChildren stale p n).forget = n.forget := by
  cases n
  exact forget_eq_forget_iff.mpr ⟨rfl, fun c => evictChild_eq_none, rfl, rfl⟩

theorem evicted_of_children (h : ∀ c m', (evictStaleChildren stale p n).children c = some (.node m') →
      ∃ m, n.children c = some (.node m) ∧ Evicted m m') : Evicted n (evictStaleChildren stale p n) := by
  have : Nonempty TrieNode := ⟨new⟩
  have h' : ∀ c, ∃ m, ∀ m', (evictStaleChildren stale p n).children c = some (.node m') →
      n.children c = some (.node m) ∧ Evicted m m' := by
    intro c
    by_cases hc : ∃ m', (evictStaleChildren stale p n).children c = some (.node m')
    · obtain ⟨m₀, hm₀⟩ := hc
      obtain ⟨m, hm, -⟩ := h c m₀ hm₀
      refine ⟨m, fun m' hm' => ⟨hm, ?_⟩⟩
      obtain ⟨m₁, hm₁, he⟩ := h c m' hm'
      rw [hm] at hm₁
      cases hm₁
      exact he
    · exact ⟨new, fun m' hm' => absurd ⟨m', hm'⟩ hc⟩
  choose child hchild using h'
  exact ⟨child, forget_evictStaleChildren stale p n, fun c m' hm' => (hchild c m' hm').1,
    fun c m' hm' => (hchild c m' hm').2⟩

mutual

theorem evicted_evictStaleChildren (stale : Bytes → Bool) :
    ∀ (n : TrieNode) (p : Bytes), Evicted n (evictStaleChildren stale p n)
  | ⟨_, children, _, _⟩, p =>
    evicted_of_children fun c m' hm' => evicted_evictChild stale (children c) (p ++ [c]) m' hm'
termination_by structural n => n

theorem evicted_evictChild (stale : Bytes → Bool) : ∀ (o : Option (TrieNodeType TrieNode)) (p : Bytes)
    (m' : TrieNode), evictChild stale p o = some (.node m') → ∃ m, o = some (.node m) ∧ Evicted m m'
  | none, _, _, h => nomatch h
  | some t, p, m', h => by
    obtain ⟨m, rfl, hm⟩ := evicted_evictNode stale t p m' (Option.some.inj h)
    exact ⟨m, rfl, hm⟩
termination_by structural o => o

theorem evicted_evictNode (stale : Bytes → Bool) : ∀ (t : TrieNodeType TrieNode) (p : Bytes)
    (m' : TrieNode), evictNode stale p t = .node m' → ∃ m, t = .node m ∧ Evicted m m'
  | .serialized, _, _, h => nomatch h
  | .node m, p, m', h => by
    simp only [evictNode] at h
    split at h
    · cases h
    · cases h
      exact ⟨m, rfl, evicted_evictStaleChildren stale m p⟩
termination_by structural t => t

end

end evict

section cover

variable [Blake3] {db db' stored : RocksDB} {n n' m : TrieNode} {p q r : Bytes} {S : Finset Bytes} {c : UInt8}

/-! ## A map that holds the records of a tree -/

/-- `stored` holds the record of every node at or below `p` under the key of its path. -/
def Covers (db : RocksDB) (n : TrieNode) (p : Bytes) (stored : RocksDB) : Prop :=
  ∀ r, view db n p r ≠ none → stored (nodeKey (p ++ r)) = (view db n p r).map record

omit [Blake3] in
theorem Covers.child (h : Covers db n p stored) (hload : getOrLoadChild db n p c = .ok m) :
    Covers db m (p ++ [c]) stored := by
  intro r hr
  rw [List.append_assoc, List.singleton_append, h (c :: r) (by rwa [view_cons_of_load hload]),
    view_cons_of_load hload]

omit [Blake3] in
theorem Covers.self (h : Covers db n p stored) : stored (nodeKey p) = some n.record := by
  have := h [] (by simp)
  rwa [List.append_nil, view_nil, Option.map_some, record_forget] at this

theorem Represents.two_le_of_view (h : Represents db n p S) (hv : view db n p (r ++ [c]) ≠ none)
    (hlen : uncompactedLength ≤ (p ++ r).length) : 2 ≤ (PrefixSet.below (p ++ r) S).card := by
  induction r generalizing n p S with
  | nil =>
    have hc : n.children c ≠ none := fun hc => hv (view_cons_of_none hc)
    rw [List.append_nil] at hlen ⊢
    rw [below_eq_self fun k hk => h.isPrefix hk]
    rcases h.inv with ⟨rfl, rfl⟩ | ⟨k, hs, rfl, rfl, -⟩ | ⟨-, hshape, -⟩
    · exact absurd rfl hc
    · exact absurd rfl hc
    · omega
  | cons c' r ih =>
    have hc : n.children c' ≠ none := fun hc => hv (view_cons_of_none hc)
    obtain ⟨m, hload, -, hrep⟩ := h.exists_child hc
    rw [List.cons_append, view_cons_of_load hload] at hv
    have hpath : p ++ c' :: r = (p ++ [c']) ++ r := by simp
    rw [hpath] at hlen ⊢
    have := ih hrep hv hlen
    rwa [below_below (List.prefix_append _ _)] at this

theorem Represents.ofRecord_serialize (h : Represents db n p S) (hcard : S.card < 2 ^ 32) :
    ofRecord n.serialize = n.forget :=
  TrieNode.ofRecord_serialize (h.items_eq ▸ hcard) h.key_ne

omit [Blake3] in
theorem getOrLoadChild_serialized {v : DbTrieNode} (hc : n.children c = some .serialized)
    (hdb : db (nodeKey (p ++ [c])) = some (.trieNode v)) : getOrLoadChild db n p c = .ok (ofRecord v) := by
  simp only [getOrLoadChild, hc, makePrimaryKey_some, hdb, deserialize]

omit [Blake3] in
theorem forget_of_loaded (hc : n.children c = some .serialized) (hload : getOrLoadChild db n p c = .ok m) :
    m.forget = m := by
  simp only [getOrLoadChild, hc] at hload
  split at hload
  · cases hload; rfl
  · rename_i v _
    cases v with
    | trieNode v => cases hload; exact forget_ofRecord v
    | _ => cases hload

/-- **Committing changes nothing.** Once a database holds the records of a tree, walking the tree over it
    finds the same nodes as before. -/
theorem Represents.getNode_of_covers (h : Represents db n p S) (hcard : S.card < 2 ^ 32)
    (hm : Covers db n p db') : TrieNode.getNodeFromTrie db' n p r = TrieNode.getNodeFromTrie db n p r := by
  induction r generalizing n p S with
  | nil => rfl
  | cons c r ih =>
    by_cases hc : n.children c = none
    · simp only [TrieNode.getNodeFromTrie, getOrLoadChild_none hc]
    · obtain ⟨m, hload, -, hrep⟩ := h.exists_child hc
      have hcard' := (Finset.card_le_card (below_subset (p := p ++ [c]) (S := S))).trans_lt hcard
      have hload' : getOrLoadChild db' n p c = .ok m := by
        cases hn : n.children c with
        | none => exact absurd hn hc
        | some t =>
          cases t with
          | node m' =>
            rw [getOrLoadChild_node hn] at hload ⊢
            exact hload
          | serialized =>
            rw [getOrLoadChild_serialized hn (hm.child hload).self, hrep.ofRecord_serialize hcard',
              forget_of_loaded hn hload]
      simp only [TrieNode.getNodeFromTrie, hload, hload']
      exact ih hrep hcard' (hm.child hload)

omit [Blake3] in
theorem eq_of_forget_eq (h : n'.forget = n.forget) (hnone : ∀ c, n.children c = none) : n' = n := by
  obtain ⟨hi, hc, hh, hk⟩ := forget_eq_forget_iff.mp h
  have hch : n'.children = n.children := funext fun c => by rw [hnone c, (hc c).mpr (hnone c)]
  cases n'; cases n
  simp_all

/-- What a node represents is seen along its paths: trees that look the same hold the same keys. -/
theorem Represents.of_view (h : Represents db n p S) (hv : ∀ r, view db' n' p r = view db n p r) :
    Represents db' n' p S := by
  induction h generalizing n' with
  | empty =>
    rw [eq_of_forget_eq (n := new) (Option.some.inj (hv [])) fun c => rfl]
    exact .empty
  | leaf hdepth hk hstale =>
    rw [eq_of_forget_eq (n := leafNode _ _) (Option.some.inj (hv [])) fun c => rfl]
    exact .leaf hdepth hk hstale
  | @inner n p S child hshape hne hframe hchild ih =>
    obtain ⟨hi, hc, hh, hk⟩ := forget_eq_forget_iff.mp (Option.some.inj (hv []))
    -- the child that the other tree has where this one has `child c`
    have hload : ∀ c, (PrefixSet.below (p ++ [c]) S).Nonempty → ∃ m', getOrLoadChild db' n' p c = .ok m' ∧
        ∀ r, view db' m' (p ++ [c]) r = view db (child c) (p ++ [c]) r := by
      intro c hb
      have hchildc := fun r => view_cons_of_load (r := r) (hframe.load c hb)
      cases hl : getOrLoadChild db' n' p c with
      | error e =>
        have := hv [c]
        rw [hchildc] at this
        simp [view, TrieNode.getNodeFromTrie, hl] at this
      | ok m' => exact ⟨m', rfl, fun r => by rw [← view_cons_of_load hl, hv, hchildc]⟩
    have : Nonempty TrieNode := ⟨new⟩
    choose! child' hload' hview' using hload
    refine .inner child' hshape hne ⟨hi.trans hframe.items, hk.trans hframe.key, hframe.cover, fun c hb => ?_,
      hload', fun c hb => ?_⟩ fun c hb => ih c hb (hview' c hb)
    · obtain ⟨h₁, h₂⟩ := hframe.absent c hb
      exact ⟨(hc c).mpr h₁, by rw [hh, h₂]⟩
    · have hforget : (child' c).forget = (child c).forget := Option.some.inj (hview' c hb [])
      rw [hh, hframe.cached c hb, ← hash_forget (child c), ← hforget, hash_forget]

/-! ## Reading back what was dropped -/

/-- **Evicted nodes are read back as they were.** While the database holds the records of the tree, a tree
    with nodes dropped from memory looks the same. -/
theorem Evicted.view_eq (he : Evicted n n') (h : Represents db n p S) (hcard : S.card < 2 ^ 32)
    (hm : Covers db n p db) : view db n' p r = view db n p r := by
  induction r generalizing n n' p S with
  | nil =>
    obtain ⟨child, hforget, -, -⟩ := he
    rw [view_nil, view_nil, hforget]
  | cons c r ih =>
    obtain ⟨child, hforget, hnode, hchild⟩ := he
    have hnone := (forget_eq_forget_iff.mp hforget).2.1 c
    by_cases hc : n.children c = none
    · rw [view_cons_of_none hc, view_cons_of_none (hnone.mpr hc)]
    · obtain ⟨m, hload, -, hrep⟩ := h.exists_child hc
      have hcard' := (Finset.card_le_card (below_subset (p := p ++ [c]) (S := S))).trans_lt hcard
      rw [view_cons_of_load hload]
      cases hn' : n'.children c with
      | none => exact absurd (hnone.mp hn') hc
      | some t =>
        cases t with
        | node m' =>
          rw [getOrLoadChild_node (hnode c m' hn')] at hload
          cases hload
          rw [view_cons_of_load (getOrLoadChild_node hn')]
          exact ih (hchild c m' hn') hrep hcard' (hm.child (getOrLoadChild_node (hnode c m' hn')))
        | serialized =>
          rw [view_cons_of_load (getOrLoadChild_serialized hn' (hm.child hload).self),
            hrep.ofRecord_serialize hcard']
          exact ih (evicted_forget m) hrep hcard' (hm.child hload)

omit [Blake3] in
/-- At a root, a node without items is still a node; the record of a change takes it as one. -/
theorem Records.of_live {O W : Set Bytes} {txn txn' : RocksDbTransactionBatch} {key : Bytes}
    (h : Records O W txn txn' key (viewOf db (live n) p r) (view db n' p r))
    (hzero : n.items = 0 → ∀ c, n.children c = none) :
    Records O W txn txn' key (view db n p r) (view db n' p r) := by
  cases h with
  | orphan h => exact .orphan h
  | stray h hdel => exact .stray h hdel
  | written h => exact .written h
  | unchanged htxn hview =>
    refine .unchanged htxn (hview.trans ?_)
    cases r with
    | nil =>
      -- the new tree has a root, so the old one had one too
      by_cases h0 : n.items = 0
      · rw [live_of_eq h0, viewOf_none, view_nil] at hview
        cases hview
      · rw [live_of_ne h0, viewOf_some]
    | cons c r => exact viewOf_live_cons fun h0 => hzero h0 c

theorem Represents.children_eq_none (h : Represents db n p S) (h0 : n.items = 0) (c : UInt8) :
    n.children c = none := by
  rw [h.items_eq, Finset.card_eq_zero] at h0
  rw [(h0 ▸ h : Represents db n p ∅).eq_new, new_children]

end cover

end TrieNode

end Hypersnap
