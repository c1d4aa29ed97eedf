import Hypersnap.Trie.Groups

/-!
# `Trie.Invariants` — what insertions and deletions keep

`insert` and `delete` change nodes and the batch in a few ways only: a key is set or dropped, a child is
loaded, replaced or removed, a record is written or deleted. A property that each of these changes keeps
(`Kept`, with `KeptByInsert` and `KeptByDelete` for the changes that one of the two makes) is kept by a whole
call, whether it succeeds or stops half-way (`insert_keeps`, `delete_keeps`).
-/

namespace Hypersnap
namespace TrieNode

/-- What every group keeps, the loop over the groups keeps, whether it fails or not. -/
theorem forGroups_invariant {step : GroupLoop → UInt8 → List (Nat × Bytes) → GroupLoop × Option TrieError}
    {I : GroupLoop → Prop} {gs : List (UInt8 × List (Nat × Bytes))}
    (hstep : ∀ s, ∀ g ∈ gs, I s → I (step s g.1 g.2).1) {s : GroupLoop} (h : I s) :
    I (forGroups step gs s).1 := by
  induction gs generalizing s with
  | nil => exact h
  | cons g gs ih =>
    have hs := hstep s g (.head _) h
    rcases heq : step s g.1 g.2 with ⟨s', _ | e⟩ <;> rw [heq] at hs
    · simp only [forGroups, heq]
      exact ih (fun s g hg => hstep s g (.tail _ hg)) hs
    · simp only [forGroups, heq]
      exact hs

/-- A property of nodes, by their paths, and of batches that the changes of a call keep. `Ok p k` is what is
    known of the keys `k` that a call brings to the node at `p`; a call takes the path of the node it works on
    from such a key. -/
structure Kept (db : RocksDB) (Ok : Bytes → Bytes → Prop) (N : Bytes → TrieNode → Prop)
    (T : RocksDbTransactionBatch → Prop) : Prop where
  down : ∀ {p k c}, Ok p k → k[p.length]? = some c → Ok (p ++ [c]) k
  congr : ∀ {p n n'}, N p n → n'.key = n.key → n'.children = n.children → N p n'
  dropKey : ∀ {p n n'}, N p n → n'.key = none → n'.children = n.children → N p n'
  load : ∀ {p k n c m}, N p n → Ok p k → getOrLoadChild db n (k.take p.length) c = .ok m → N (p ++ [c]) m
  child : ∀ {p n n' c m}, N p n → n.children c ≠ none → N (p ++ [c]) m → n'.key = n.key →
    n'.children = ByteMap.insert n.children c (.node m) → N p n'
  put : ∀ {p k n txn}, T txn → N p n → Ok p k → T (n.putToTxn txn (k.take p.length))

/-- The changes that insertions make besides. -/
structure KeptByInsert (db : RocksDB) (Ok : Bytes → Bytes → Prop) (N : Bytes → TrieNode → Prop)
    (T : RocksDbTransactionBatch → Prop) : Prop extends Kept db Ok N T where
  new : ∀ p, N p new
  held : ∀ {p n k}, N p n → n.key = some k → Ok p k
  withKey : ∀ {p n n' k}, N p n → Ok p k → uncompactedLength ≤ p.length → n'.key = some k →
    n'.children = n.children → N p n'
  grow : ∀ {p n n' c k m}, N p n → Ok (p ++ [c]) k → N (p ++ [c]) m → n'.key = n.key →
    n'.children = ByteMap.insert n.children c (.node m) → N p n'

/-- The changes that deletions make besides. -/
structure KeptByDelete (db : RocksDB) (Ok : Bytes → Bytes → Prop) (N : Bytes → TrieNode → Prop)
    (T : RocksDbTransactionBatch → Prop) : Prop extends Kept db Ok N T where
  delete : ∀ {txn} q, T txn → T (deleteToTxn txn q)
  remove : ∀ {p n n' c}, N p n → n'.key = n.key → n'.children = ByteMap.remove n.children c → N p n'
  raise : ∀ {p n n' c m k}, N p n → N (p ++ [c]) m → m.key = some k → uncompactedLength ≤ p.length →
    n'.key = some k → n'.children = ByteMap.remove n.children c → N p n'

/-- The operation keeps the property, whether it succeeds or not. -/
def NodeOp.Keeps (Ok : Bytes → Bytes → Prop) (N : Bytes → TrieNode → Prop)
    (T : RocksDbTransactionBatch → Prop) (op : NodeOp) : Prop :=
  ∀ n p hs txn keys, N p n ∧ T txn → (∀ k ∈ keys, Ok p k) →
    N p (op n hs txn keys p.length).node ∧ T (op n hs txn keys p.length).txn

variable {db : RocksDB} {Ok : Bytes → Bytes → Prop} {N : Bytes → TrieNode → Prop}
  {T : RocksDbTransactionBatch → Prop} {op : NodeOp} {n : TrieNode} {p k₀ : Bytes} {c : UInt8}
  {hs : ByteMap Bytes} {txn : RocksDbTransactionBatch} {s : GroupLoop}

theorem NodeOp.Keeps.below (hop : op.Keeps Ok N T) (hs : ByteMap Bytes) {keys : List Bytes}
    (hn : N (p ++ [c]) n) (htxn : T txn) (hkeys : ∀ k ∈ keys, Ok (p ++ [c]) k) :
    N (p ++ [c]) (op n hs txn keys (p.length + 1)).node ∧ T (op n hs txn keys (p.length + 1)).txn := by
  have hout := hop n (p ++ [c]) hs txn keys ⟨hn, htxn⟩ hkeys
  rwa [List.length_append, List.length_singleton] at hout

theorem afterGroups_keeps {finish : GroupLoop → Outcome (List Bool)} {r : GroupLoop × Option TrieError}
    (hfinish : ∀ s, N p s.node ∧ T s.txn → N p (finish s).node ∧ T (finish s).txn)
    (h : N p r.1.node ∧ T r.1.txn) :
    N p (afterGroups hs finish r).node ∧ T (afterGroups hs finish r).txn := by
  rcases r with ⟨s, _ | e⟩
  · exact hfinish s h
  · exact h

theorem Kept.group (h : Kept db Ok N T) {keys group : List (Nat × Bytes)} (hkeys : ∀ ik ∈ keys, Ok p ik.2)
    (hg : (c, group) ∈ (groupedKeys keys p.length).entries) : ∀ k ∈ group.map (·.2), Ok (p ++ [c]) k := by
  intro k hk
  obtain ⟨ik, hik, rfl⟩ := List.mem_map.1 hk
  obtain ⟨hmem, hc⟩ := (mem_group hg).1 hik
  exact h.down (hkeys ik hmem) hc

/-! ## Insertion -/

section insertion

variable (h : KeptByInsert db Ok N T) (hop : op.Keeps Ok N T) (hk₀ : Ok p k₀)

include h hop hk₀

theorem insertGroup_keeps {group : List (Nat × Bytes)} (hs : N p s.node ∧ T s.txn) (hne : group ≠ [])
    (hkeys : ∀ k ∈ group.map (·.2), Ok (p ++ [c]) k) :
    N p (insertGroup op db (k₀.take p.length) p.length s c group).1.node ∧
      T (insertGroup op db (k₀.take p.length) p.length s c group).1.txn := by
  have hself : N p (s.node.ensureChild c) ∧ (s.node.ensureChild c).children c ≠ none := by
    obtain ⟨ik, hik⟩ := List.exists_mem_of_ne_nil _ hne
    unfold ensureChild
    cases hc : s.node.children c with
    | none => exact ⟨h.grow hs.1 (hkeys ik.2 (List.mem_map_of_mem hik)) (h.new _) rfl rfl, by simp⟩
    | some t => exact ⟨hs.1, by rw [hc]; simp⟩
  unfold insertGroup
  generalize s.node.ensureChild c = self at hself ⊢
  dsimp only
  cases hload : getOrLoadChild db self (k₀.take p.length) c with
  | error e => exact ⟨h.congr hself.1 rfl rfl, hs.2⟩
  | ok child =>
    have hout := hop.below self.childHashes (h.load hself.1 hk₀ hload) hs.2 hkeys
    dsimp only
    split <;> exact ⟨h.child hself.1 hself.2 hout.1 rfl rfl, hout.2⟩

variable [Blake3] {results : List Bool}

theorem insertBelow_keeps {keys : List (Nat × Bytes)} (hn : N p n ∧ T txn) (hkeys : ∀ ik ∈ keys, Ok p ik.2) :
    N p (insertBelow op db (k₀.take p.length) n hs txn results keys p.length).node ∧
      T (insertBelow op db (k₀.take p.length) n hs txn results keys p.length).txn := by
  unfold insertBelow
  split
  · exact hn
  refine afterGroups_keeps (fun s hs => ?_) (forGroups_invariant (I := fun s => N p s.node ∧ T s.txn)
    (fun s cg hcg hs => ?_) hn)
  · unfold insertFinish
    split
    · have hnode : N p { s.node with items := s.node.items + s.successes } := h.congr hs.1 rfl rfl
      exact ⟨hnode, h.put hs.2 hnode hk₀⟩
    · exact hs
  · exact insertGroup_keeps h hop hk₀ hs (mem_entries_groupedKeys.1 hcg).2 (h.group hkeys hcg)

omit hk₀ in
theorem splitLeafNode_keeps (hn : N p n ∧ T txn) :
    N p (splitLeafNode op n txn p.length).1 ∧ T (splitLeafNode op n txn p.length).2.1 := by
  unfold splitLeafNode
  cases hkey : n.key with
  | none => exact hn
  | some k =>
    have hk := h.held hn.1 hkey
    have hleaf : N p { n with key := none } := h.dropKey hn.1 rfl rfl
    cases hc : k[p.length]? with
    | none =>
      simp only [hc]
      exact ⟨hleaf, hn.2⟩
    | some c =>
      have hkeys : ∀ k' ∈ [k], Ok (p ++ [c]) k' := fun _ hmem => List.mem_singleton.1 hmem ▸ h.down hk hc
      have hout := hop.below n.childHashes (h.new (p ++ [c])) hn.2 hkeys
      have hnode : ∀ items hs, N p ⟨items, ByteMap.insert n.children c (.node
          (op new n.childHashes txn [k] (p.length + 1)).node), hs, none⟩ := fun items hs =>
        h.grow hleaf (h.down hk hc) hout.1 rfl rfl
      simp only [hc]
      split
      · exact ⟨hnode _ _, hout.2⟩
      · exact ⟨hnode _ _, h.put hout.2 (hnode _ _) hk⟩

theorem insertLeaf_keeps {keys : List Bytes} {offset : Nat} (hn : N p n ∧ T txn)
    (hkeys : ∀ k ∈ keys, Ok p k) :
    N p (insertLeaf op db (k₀.take p.length) n hs txn results keys offset p.length).node ∧
      T (insertLeaf op db (k₀.take p.length) n hs txn results keys offset p.length).txn := by
  unfold insertLeaf
  split
  · exact hn
  simp only
  split
  · exact hn
  have hsplit := splitLeafNode_keeps h hop hn
  rcases hrun : splitLeafNode op n txn p.length with ⟨self, txn', _ | _⟩ <;> rw [hrun] at hsplit
  · exact hsplit
  · refine insertBelow_keeps h hop hk₀ hsplit fun ik hik => ?_
    obtain ⟨⟨k, i⟩, hki, heq⟩ := List.mem_filterMap.1 hik
    split at heq
    · cases heq
    · cases heq
      obtain ⟨-, -, hget⟩ := List.mem_zipIdx hki
      exact hkeys k (hget ▸ List.getElem_mem _)

end insertion

/-- **Insertions keep what their changes keep**, whether they succeed or not. -/
theorem insert_keeps [Blake3] (h : KeptByInsert db Ok N T) (fuel : Nat) : (insert db fuel).Keeps Ok N T := by
  induction fuel with
  | zero => exact fun _ _ _ _ _ hn _ => hn
  | succ fuel ih =>
    intro n p hs txn keys hn hkeys
    cases keys with
    | nil => exact hn
    | cons key₀ keys =>
      have hk₀ := hkeys key₀ (.head _)
      simp only [insert, insertStep]
      split
      next hleaf =>
        cases hkey : n.key with
        | some k => exact insertLeaf_keeps h ih hk₀ hn hkeys
        | none =>
          have hlast : (key₀ :: keys).getLastD [] ∈ key₀ :: keys := by
            rw [List.getLastD_eq_getLast?, List.getLast?_eq_some_getLast (by simp), Option.getD_some]
            exact List.getLast_mem _
          simp only
          split
          · exact hn
          · have hdepth : uncompactedLength ≤ p.length := by simpa using (Bool.and_eq_true_iff.1 hleaf).1
            have hnode : N p { n with key := some ((key₀ :: keys).getLastD []), items := n.items + 1 } :=
              h.withKey hn.1 (hkeys _ hlast) hdepth rfl rfl
            refine insertLeaf_keeps h ih hk₀ ⟨hnode, h.put hn.2 hnode hk₀⟩ fun k hk => ?_
            exact hkeys k (List.dropLast_subset _ hk)
      · exact insertBelow_keeps h ih hk₀ hn fun ik hik => hkeys ik.2 (mem_withPositions hik).2.2

/-! ## Deletion -/

section deletion

variable (h : KeptByDelete db Ok N T) (hk₀ : Ok p k₀)

include h hk₀

theorem deleteGroup_keeps (hop : op.Keeps Ok N T) {group : List (Nat × Bytes)} (hs : N p s.node ∧ T s.txn)
    (hkeys : ∀ k ∈ group.map (·.2), Ok (p ++ [c]) k) :
    N p (deleteGroup op db (k₀.take p.length) p.length s c group).1.node ∧
      T (deleteGroup op db (k₀.take p.length) p.length s c group).1.txn := by
  unfold deleteGroup
  split
  · exact hs
  next hsome =>
    have hc : s.node.children c ≠ none := by simpa using hsome
    cases hload : getOrLoadChild db s.node (k₀.take p.length) c with
    | error e => exact ⟨h.congr hs.1 rfl rfl, hs.2⟩
    | ok child =>
      have hout := hop.below s.node.childHashes (h.load hs.1 hk₀ hload) hs.2 hkeys
      dsimp only
      split
      · exact ⟨h.child hs.1 hc hout.1 rfl rfl, hout.2⟩
      · refine ⟨?_, hout.2⟩
        simp only
        split
        · refine h.remove (n := { s.node with children := ByteMap.insert s.node.children c _ }) ?_ rfl rfl
          exact h.child hs.1 hc hout.1 rfl rfl
        · exact h.child hs.1 hc hout.1 rfl rfl

theorem compact_keeps (hn : N p n ∧ T txn) (hdepth : uncompactedLength ≤ p.length) :
    N p (compact db n (k₀.take p.length) txn).1 ∧ T (compact db n (k₀.take p.length) txn).2.1 := by
  unfold compact
  split
  · exact hn
  next c _ hchars =>
    have hc : n.children c ≠ none := ByteMap.mem_chars.1 (hchars ▸ .head _)
    cases hload : getOrLoadChild db n (k₀.take p.length) c with
    | error e => exact hn
    | ok child =>
      have hchild := h.load hn.1 hk₀ hload
      cases hkey : child.key with
      | none =>
        simp only [hkey]
        exact ⟨h.child hn.1 hc hchild rfl rfl, hn.2⟩
      | some k =>
        simp only [hkey]
        exact ⟨h.raise hn.1 hchild hkey hdepth rfl rfl, h.delete _ hn.2⟩

theorem deleteFinish_keeps [Blake3] (hs : N p s.node ∧ T s.txn) {hashes : ByteMap Bytes} :
    N p (deleteFinish db (k₀.take p.length) hashes p.length s).node ∧
      T (deleteFinish db (k₀.take p.length) hashes p.length s).txn := by
  have hitems : N p { s.node with items := s.node.items - s.successes } := h.congr hs.1 rfl rfl
  unfold deleteFinish
  split
  · simp only
    split
    · exact ⟨hitems, h.delete _ hs.2⟩
    · split
      next hcompact =>
        have hcomp := compact_keeps h hk₀ ⟨hitems, hs.2⟩ hcompact.2.2
        rcases hrun : compact db { s.node with items := s.node.items - s.successes } (k₀.take p.length) s.txn
          with ⟨self, txn', _ | e⟩ <;> rw [hrun] at hcomp
        · exact ⟨hcomp.1, h.put hcomp.2 hcomp.1 hk₀⟩
        · exact hcomp
      · exact ⟨hitems, h.put hs.2 hitems hk₀⟩
  · exact hs

end deletion

/-- **Deletions keep what their changes keep**, whether they succeed or not. -/
theorem delete_keeps [Blake3] (h : KeptByDelete db Ok N T) (fuel : Nat) : (delete db fuel).Keeps Ok N T := by
  induction fuel with
  | zero => exact fun _ _ _ _ _ hn _ => hn
  | succ fuel ih =>
    intro n p hs txn keys hn hkeys
    cases keys with
    | nil => exact hn
    | cons key₀ keys =>
      have hk₀ := hkeys key₀ (.head _)
      simp only [delete, deleteStep]
      split
      · split
        · exact hn
        · exact ⟨h.dropKey hn.1 rfl rfl, h.delete _ hn.2⟩
      · split
        · exact hn
        · refine afterGroups_keeps (fun s hs => deleteFinish_keeps h hk₀ hs)
            (forGroups_invariant (I := fun s => N p s.node ∧ T s.txn) (fun s cg hcg hs => ?_) hn)
          exact deleteGroup_keeps h hk₀ ih hs
            (h.group (fun ik hik => hkeys ik.2 (mem_withPositions hik).2.2) hcg)

/-! ## The batch alone -/

section batch

variable (hput : ∀ n {txn} q, T txn → T (putToTxn n txn q))

include hput

theorem kept_batch : Kept db (fun _ _ => True) (fun _ _ => True) T where
  down _ _ := trivial
  congr _ _ _ := trivial
  dropKey _ _ _ := trivial
  load _ _ _ := trivial
  child _ _ _ _ _ := trivial
  put h _ _ := hput _ _ h

variable [Blake3] {keys : List Bytes} {i : Nat} (htxn : T txn)

include htxn

/-- What writes of nodes keep of the batch, insertions keep. A path of any length will do. -/
theorem insert_keeps_batch (fuel : Nat) : T (insert db fuel n hs txn keys i).txn := by
  have hkept := insert_keeps { (kept_batch hput : Kept db _ _ T) with
    new := fun _ => trivial
    held := fun _ _ => trivial
    withKey := fun _ _ _ _ _ => trivial
    grow := fun _ _ _ _ _ => trivial } fuel n (List.replicate i 0) hs txn keys ⟨trivial, htxn⟩
      fun _ _ => trivial
  rw [List.length_replicate] at hkept
  exact hkept.2

/-- What writes and deletes of nodes keep of the batch, deletions keep. -/
theorem delete_keeps_batch (hdelete : ∀ {txn} q, T txn → T (deleteToTxn txn q)) (fuel : Nat) :
    T (delete db fuel n hs txn keys i).txn := by
  have hkept := delete_keeps { (kept_batch hput : Kept db _ _ T) with
    delete := hdelete
    remove := fun _ _ _ => trivial
    raise := fun _ _ _ _ _ _ => trivial } fuel n (List.replicate i 0) hs txn keys ⟨trivial, htxn⟩
      fun _ _ => trivial
  rw [List.length_replicate] at hkept
  exact hkept.2

end batch

end TrieNode
end Hypersnap
