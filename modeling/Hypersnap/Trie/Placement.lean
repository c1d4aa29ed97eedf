import Hypersnap.Trie.Batch
import Hypersnap.Trie.Durability

/-!
# `Trie.Placement` — where keys sit, in every state of every run

`Represents` describes a trie whose calls were all well-formed and whose database lost nothing. What is shown
here needs neither: in **every** state that calls, commits, roll-backs, reloads, evictions and restarts can
lead to, also after calls that failed half-way and after deletions that removed the record of a live node,
each key in a node extends the path of the node and lies below the uncompacted levels (`Reachable.placed`). A
missing record is read as an empty leaf, which is placed anywhere.
-/

namespace Hypersnap

open Overlay PrefixSet

namespace TrieNode

/-- The nibbles of a key the trie may hold: at least 6 bytes, and short enough for the database, which stores
    the nibbles in one value and takes values of fewer than `2 ^ 32` bytes. -/
def Admissible (k : Bytes) : Prop := ∃ key, k = expandNibbles key ∧ 6 ≤ key.length ∧ key.length < 2 ^ 31

theorem Admissible.ne_nil {k : Bytes} (h : Admissible k) : k ≠ [] := by
  obtain ⟨key, rfl, hlen, -⟩ := h
  intro hnil
  have := congrArg List.length hnil
  rw [expandNibbles_length, List.length_nil] at this
  omega

/-- A path with room below it: the position of a node with children, in a page token, fits into 32 bits. -/
def Branches (p : Bytes) : Prop := p.length + 2 < 2 ^ 32

theorem Admissible.branches {k p : Bytes} {c : UInt8} (h : Admissible k) (hp : p ++ [c] <+: k) :
    Branches p := by
  obtain ⟨key, rfl, -, hlen⟩ := h
  have := hp.length_le
  rw [expandNibbles_length, List.length_append, List.length_singleton] at this
  unfold Branches
  omega

/-- The keys in memory at `p` and below it are where they belong. -/
inductive Placed : TrieNode → Bytes → Prop
  | mk {n : TrieNode} {p : Bytes}
      (key : ∀ k, n.key = some k → Admissible k ∧ p <+: k ∧ uncompactedLength ≤ p.length)
      (branches : ∀ c, n.children c ≠ none → Branches p)
      (sub : ∀ c m, n.children c = some (.node m) → Placed m (p ++ [c])) : Placed n p

variable {db : RocksDB} {txn txn' : RocksDbTransactionBatch} {n n' m : TrieNode} {p q k : Bytes} {c : UInt8}

section

variable (h : Placed n p)
include h

theorem Placed.key (hk : n.key = some k) : Admissible k ∧ p <+: k ∧ uncompactedLength ≤ p.length := by
  cases h with
  | mk key _ _ => exact key k hk

theorem Placed.branches (hc : n.children c ≠ none) : Branches p := by
  cases h with
  | mk _ branches _ => exact branches c hc

theorem Placed.sub (hc : n.children c = some (.node m)) : Placed m (p ++ [c]) := by
  cases h with
  | mk _ _ sub => exact sub c m hc

omit h in
theorem placed_new (p : Bytes) : Placed new p :=
  .mk (fun _ hk => nomatch hk) (fun _ hc => absurd rfl hc) fun _ _ hc => nomatch hc

theorem Placed.congr (hk : n'.key = n.key) (hc : n'.children = n.children) : Placed n' p :=
  .mk (fun _ hkey => h.key (hk ▸ hkey)) (fun _ hchild => h.branches (hc ▸ hchild))
    fun _ _ hchild => h.sub (hc ▸ hchild)

theorem Placed.dropKey (hk : n'.key = none) (hc : n'.children = n.children) : Placed n' p :=
  .mk (fun _ hkey => nomatch hk.symm.trans hkey) (fun _ hchild => h.branches (hc ▸ hchild))
    fun _ _ hchild => h.sub (hc ▸ hchild)

theorem Placed.withKey (hk : n'.key = some k) (hc : n'.children = n.children) (hadm : Admissible k)
    (hp : p <+: k) (hdepth : uncompactedLength ≤ p.length) : Placed n' p := by
  refine .mk (fun k' hk' => ?_) (fun _ hchild => h.branches (hc ▸ hchild))
    fun _ _ hchild => h.sub (hc ▸ hchild)
  obtain rfl := Option.some.inj (hk.symm.trans hk')
  exact ⟨hadm, hp, hdepth⟩

theorem Placed.insert (hm : Placed m (p ++ [c])) (hp : Branches p) (hk : n'.key = n.key)
    (hc : n'.children = ByteMap.insert n.children c (.node m)) : Placed n' p := by
  refine .mk (fun _ hkey => h.key (hk ▸ hkey)) (fun _ _ => hp) fun c' m' hchild => ?_
  by_cases hcc : c' = c
  · subst hcc
    rw [hc, ByteMap.insert_self, Option.some.injEq, TrieNodeType.node.injEq] at hchild
    exact hchild ▸ hm
  · rw [hc, ByteMap.insert_of_ne _ _ _ _ hcc] at hchild
    exact h.sub hchild

theorem Placed.remove (hk : n'.key = n.key) (hc : n'.children = ByteMap.remove n.children c) :
    Placed n' p := by
  have hsame : ∀ c', n'.children c' ≠ none → n'.children c' = n.children c' := by
    intro c' hne
    by_cases hcc : c' = c
    · exact absurd (by rw [hc, hcc, ByteMap.remove_self]) hne
    · rw [hc, ByteMap.remove_of_ne _ _ _ hcc]
  refine .mk (fun _ hkey => h.key (hk ▸ hkey)) (fun c' hne => h.branches (hsame c' hne ▸ hne))
    fun c' m' hchild => ?_
  exact h.sub ((hsame c' (by rw [hchild]; simp)).symm.trans hchild)

end

/-! ## Records -/

/-- A value that may be stored for the node at `q`. -/
def PlacedValue (q : Bytes) (v : DbValue) : Prop := ∃ n, deserialize v = .ok n ∧ Placed n q

theorem Placed.record (h : Placed n p) : PlacedValue p (.trieNode n.serialize) := by
  refine ⟨_, rfl, .mk (fun k hk => ?_) (fun c hc => ?_) fun c m hc => ?_⟩
  · cases hkey : n.key with
    | none => simp [ofRecord, serialize, hkey] at hk
    | some k' =>
      have hne : k'.isEmpty = false := by simpa using (h.key hkey).1.ne_nil
      simp only [ofRecord, serialize, hkey, Option.getD_some, hne, Bool.false_eq_true, if_false,
        Option.some.injEq] at hk
      exact hk ▸ h.key hkey
  · simp only [ofRecord, serialize, ByteMap.mem_chars, ne_eq, ite_eq_right_iff, reduceCtorEq, imp_false,
      not_not] at hc
    exact h.branches hc
  · simp only [ofRecord] at hc
    split at hc <;> cases hc

/-- Every stored node is where it belongs. -/
def StoresPlaced (db : RocksDB) : Prop := ∀ q v, db (nodeKey q) = some v → PlacedValue q v

/-- Every node the batch writes is where it belongs. -/
def StagesPlaced (txn : RocksDbTransactionBatch) : Prop :=
  ∀ q v, txn (nodeKey q) = some (some v) → PlacedValue q v

theorem stagesPlaced_empty : StagesPlaced Batch.empty := fun _ _ h => nomatch h

theorem StagesPlaced.put (h : StagesPlaced txn) (hn : Placed n p) : StagesPlaced (n.putToTxn txn p) := by
  intro q v hv
  rw [putToTxn, Batch.put] at hv
  by_cases hq : nodeKey q = nodeKey p
  · rw [hq, Function.update_self, Option.some.injEq, Option.some.injEq] at hv
    exact nodeKey_inj.1 hq ▸ hv ▸ hn.record
  · rw [Function.update_of_ne hq] at hv
    exact h q v hv

theorem StagesPlaced.delete (h : StagesPlaced txn) (p : Bytes) : StagesPlaced (deleteToTxn txn p) := by
  intro q v hv
  rw [deleteToTxn, Batch.delete] at hv
  by_cases hq : nodeKey q = nodeKey p
  · rw [hq, Function.update_self] at hv
    cases hv
  · rw [Function.update_of_ne hq] at hv
    exact h q v hv

theorem StagesPlaced.merge (h : StagesPlaced txn) (h' : StagesPlaced txn') :
    StagesPlaced (txn.merge txn') := by
  intro q v hv
  cases hq : txn' (nodeKey q) with
  | none => exact h q v (by rwa [merge_of_none _ _ _ hq] at hv)
  | some w => exact h' q v (by rwa [merge_of_some _ _ _ hq, ← hq] at hv)

theorem StoresPlaced.commit (h : StoresPlaced db) (htxn : StagesPlaced txn) :
    StoresPlaced (Overlay.commit db txn) := by
  intro q v hv
  cases hq : txn (nodeKey q) with
  | none => exact h q v (by rwa [commit_of_none _ _ _ hq] at hv)
  | some w => exact htxn q v (by rw [hq, ← commit_of_some db _ _ hq, hv])

/-- **Children can be read**, from memory or from the database, and are placed. -/
theorem Placed.load (h : Placed n p) (hdb : StoresPlaced db) (hc : n.children c ≠ none) :
    ∃ m, getOrLoadChild db n p c = .ok m ∧ Placed m (p ++ [c]) := by
  cases hchild : n.children c with
  | none => exact absurd hchild hc
  | some t =>
    cases t with
    | node m => exact ⟨m, getOrLoadChild_node hchild, h.sub hchild⟩
    | serialized =>
      cases hv : db (makePrimaryKey p (some c)) with
      | none => exact ⟨new, by simp only [getOrLoadChild, hchild, hv], placed_new _⟩
      | some v =>
        obtain ⟨m, hm, hplaced⟩ := hdb (p ++ [c]) v (makePrimaryKey_some p c ▸ hv)
        exact ⟨m, by simp only [getOrLoadChild, hchild, hv, hm], hplaced⟩

/-! ## The operations -/

/-- What is known of the keys that reach the node at `p`: they extend `p` and satisfy `Ok`. -/
def Reaches (Ok : Bytes → Prop) (p k : Bytes) : Prop := Ok k ∧ p <+: k

section

variable (hdb : StoresPlaced db)
include hdb

theorem kept_placed (Ok : Bytes → Prop) : Kept db (Reaches Ok) (fun p n => Placed n p) StagesPlaced where
  down h hc := ⟨h.1, snoc_isPrefix_iff.2 ⟨h.2, hc⟩⟩
  congr h hk hc := h.congr hk hc
  dropKey h hk hc := h.dropKey hk hc
  load h hk hload := by
    rw [← List.prefix_iff_eq_take.1 hk.2] at hload
    obtain ⟨m, hm, hplaced⟩ := h.load hdb (children_ne_none_of_load hload)
    cases hm.symm.trans hload
    exact hplaced
  child h hc hm hk hc' := h.insert hm (h.branches hc) hk hc'
  put htxn h hk := by
    rw [← List.prefix_iff_eq_take.1 hk.2]
    exact htxn.put h

theorem insert_placed [Blake3] (fuel : Nat) :
    (insert db fuel).Keeps (Reaches Admissible) (fun p n => Placed n p) StagesPlaced :=
  insert_keeps
    { kept_placed hdb Admissible with
      new := placed_new
      held := fun h hk => ⟨(h.key hk).1, (h.key hk).2.1⟩
      withKey := fun h hok hdepth hk hc => h.withKey hk hc hok.1 hok.2 hdepth
      grow := fun h hok hm hk hc => h.insert hm (hok.1.branches hok.2) hk hc } fuel

theorem delete_placed [Blake3] (fuel : Nat) :
    (delete db fuel).Keeps (Reaches fun _ => True) (fun p n => Placed n p) StagesPlaced := by
  refine delete_keeps
    { kept_placed hdb fun _ => True with
      delete := fun _ htxn => htxn.delete _
      remove := fun h hk hc => h.remove hk hc
      raise := ?_ } fuel
  intro p n n' c m k h hm hkey hdepth hk hc
  obtain ⟨hadm, hext, -⟩ := hm.key hkey
  exact Placed.withKey (n := { n with children := ByteMap.remove n.children c }) (h.remove rfl rfl) hk hc hadm
    (isPrefix_of_snoc hext) hdepth

theorem existsAt_placed (fuel : Nat) (h : Placed n p) (hpk : p <+: k) :
    Placed (existsAt db fuel n k p.length).1 p := by
  induction fuel generalizing n p with
  | zero => exact h
  | succ fuel ih =>
    rw [existsAt]
    split
    · exact h
    cases hc : k[p.length]? with
    | none => exact h
    | some c =>
      simp only
      split
      · exact h
      next hsome =>
        have hne : n.children c ≠ none := by simpa using hsome
        obtain ⟨child, hload, hchild⟩ := h.load hdb hne
        have hout := ih hchild (snoc_isPrefix_iff.2 ⟨hpk, hc⟩)
        rw [List.length_append, List.length_singleton] at hout
        simp only [← List.prefix_iff_eq_take.1 hpk, hload]
        exact h.insert hout (h.branches hne) rfl rfl

end

theorem Evicted.placed (he : Evicted n n') (h : Placed n p) : Placed n' p := by
  induction he generalizing p with
  | mk child hforget hnode hchild ih =>
    obtain ⟨-, hsame, -, hkey⟩ := forget_eq_forget_iff.1 hforget
    refine .mk (fun k hk => h.key (hkey ▸ hk)) (fun c hc => h.branches fun hnone => hc ((hsame c).2 hnone)) ?_
    intro c m hm
    exact ih c m hm (h.sub (hnode c m hm))

end TrieNode

/-! ## Reachable states -/

namespace TrieState

open TrieNode

/-- A state whose nodes, in memory, in the database and in the batch, are all where they belong. -/
structure PlacedState (s : TrieState) (root : TrieNode) : Prop where
  root_eq : s.trie.root = some root
  placed : Placed root []
  db : StoresPlaced s.db
  txn : StagesPlaced s.txnBatch

variable {s : TrieState} {db : RocksDB} {root : TrieNode}

theorem placed_initial (hdb : StoresPlaced db) : ∃ root, PlacedState (initial db) root := by
  unfold initial MerkleTrie.initializeTrie MerkleTrie.loadRoot
  cases hv : db (makePrimaryKey [] none) with
  | none =>
    refine ⟨TrieNode.new, rfl, placed_new _, ?_, stagesPlaced_empty⟩
    exact hdb.commit (stagesPlaced_empty.put (placed_new []))
  | some v =>
    obtain ⟨n, hn, hplaced⟩ := hdb [] v hv
    simp only [hn, Except.map]
    exact ⟨n, rfl, hplaced, hdb, stagesPlaced_empty⟩

theorem PlacedState.update {op : Nat → NodeOp} {Ok : Bytes → Prop} (h : PlacedState s root)
    (hop : ∀ fuel, (op fuel).Keeps (Reaches Ok) (fun p n => Placed n p) StagesPlaced) {keys : List Bytes}
    (hkeys : ∀ key ∈ keys, 6 ≤ key.length → Ok (expandNibbles key)) :
    ∃ root', PlacedState ⟨(MerkleTrie.update op s.trie s.txnBatch keys).1, s.db,
      (MerkleTrie.update op s.trie s.txnBatch keys).2.1⟩ root' := by
  unfold MerkleTrie.update
  simp only [h.root_eq]
  split
  · exact ⟨root, h⟩
  split
  · exact ⟨root, h⟩
  next hlong =>
    have hok : ∀ k ∈ keys.map expandNibbles, Reaches Ok [] k := by
      intro k hk
      have hlen : uncompactedLength ≤ k.length := by
        by_contra hlt
        exact hlong (List.any_eq_true.2 ⟨k, hk, by simpa using hlt⟩)
      obtain ⟨key, hkey, rfl⟩ := List.mem_map.1 hk
      rw [expandNibbles_length, uncompactedLength] at hlen
      exact ⟨hkeys key hkey (by omega), List.nil_prefix⟩
    have hout := hop (MerkleTrie.depthBound (keys.map expandNibbles)) root [] ByteMap.empty Batch.empty _
      ⟨h.placed, stagesPlaced_empty⟩ hok
    rw [List.length_nil] at hout
    split
    · exact ⟨_, rfl, hout.1, h.db, h.txn⟩
    · exact ⟨_, rfl, hout.1, h.db, h.txn.merge hout.2⟩

variable [Blake3]

/-- The states that the program can bring a trie and its database into: from a database without a trie, by
    calls with any keys, whether they succeed or not, queries, commits, roll-backs, reloads, evictions and
    restarts, in any order, and by writes of other records. -/
inductive Reachable : TrieState → Prop
  | start {db : RocksDB} (hfresh : ∀ q, db (nodeKey q) = none) : Reachable (initial db)
  | insert {s : TrieState} (h : Reachable s) (keys : List Bytes)
    (hshort : ∀ key ∈ keys, key.length < 2 ^ 31) :
      Reachable ⟨(s.trie.insert s.db s.txnBatch keys).1, s.db, (s.trie.insert s.db s.txnBatch keys).2.1⟩
  | delete {s : TrieState} (h : Reachable s) (keys : List Bytes) :
      Reachable ⟨(s.trie.delete s.db s.txnBatch keys).1, s.db, (s.trie.delete s.db s.txnBatch keys).2.1⟩
  | step {s : TrieState} (h : Reachable s) (step : TrieStep) (hstep : ∀ op, step ≠ .call op) :
    Reachable (s.apply step)
  | rollback {s : TrieState} (h : Reachable s) : Reachable { s with txnBatch := Batch.empty }
  | restart {s : TrieState} (h : Reachable s) : Reachable (initial s.db)
  | other {s : TrieState} (h : Reachable s) (db : RocksDB) (txnBatch : RocksDbTransactionBatch)
      (hdb : ∀ q, db (nodeKey q) = s.db (nodeKey q))
      (htxn : ∀ q, txnBatch (nodeKey q) = s.txnBatch (nodeKey q)) : Reachable ⟨s.trie, db, txnBatch⟩

omit [Blake3] in
theorem PlacedState.reload (h : PlacedState s root) :
    ∃ root', PlacedState { s with trie := (s.trie.reload s.db).1 } root' := by
  unfold MerkleTrie.reload MerkleTrie.loadRoot
  cases hv : s.db (makePrimaryKey [] none) with
  | none => exact ⟨root, h⟩
  | some v =>
    obtain ⟨n, hn, hplaced⟩ := h.db [] v hv
    simp only [hn, Except.map]
    exact ⟨n, rfl, hplaced, h.db, h.txn⟩

/-- **Every reachable trie is placed.** -/
theorem Reachable.placed (h : Reachable s) : ∃ root, PlacedState s root := by
  induction h with
  | start hfresh => exact placed_initial fun q v hv => nomatch (hfresh q).symm.trans hv
  | insert _ keys hshort ih =>
    obtain ⟨root, hroot⟩ := ih
    exact hroot.update (fun fuel => insert_placed hroot.db fuel) fun key hkey hlen =>
      ⟨key, rfl, hlen, hshort key hkey⟩
  | delete _ keys ih =>
    obtain ⟨root, hroot⟩ := ih
    exact hroot.update (fun fuel => delete_placed hroot.db fuel) fun _ _ _ => trivial
  | @step s _ step hstep ih =>
    obtain ⟨root, hroot⟩ := ih
    cases step with
    | call op => exact absurd rfl (hstep op)
    | query key =>
      have hout := existsAt_placed hroot.db (MerkleTrie.depthBound [expandNibbles key]) hroot.placed
        (List.nil_prefix (l := expandNibbles key))
      simp only [apply, MerkleTrie.existsKey, hroot.root_eq]
      exact ⟨_, rfl, hout, hroot.db, hroot.txn⟩
    | commit => exact ⟨root, hroot.root_eq, hroot.placed, hroot.db.commit hroot.txn, stagesPlaced_empty⟩
    | reload => exact hroot.reload
    | evictStale stale =>
      simp only [apply, MerkleTrie.evictStale, hroot.root_eq, Option.map_some]
      exact ⟨_, rfl, (evicted_evictStaleChildren stale root []).placed hroot.placed, hroot.db, hroot.txn⟩
  | rollback _ ih =>
    obtain ⟨root, hroot⟩ := ih
    exact ⟨root, hroot.root_eq, hroot.placed, hroot.db, stagesPlaced_empty⟩
  | restart _ ih =>
    obtain ⟨root, hroot⟩ := ih
    exact placed_initial hroot.db
  | other _ db txnBatch hdb htxn ih =>
    obtain ⟨root, hroot⟩ := ih
    exact ⟨root, hroot.root_eq, hroot.placed, fun q v hv => hroot.db q v ((hdb q).symm.trans hv),
      fun q v hv => hroot.txn q v ((htxn q).symm.trans hv)⟩

end TrieState
end Hypersnap
