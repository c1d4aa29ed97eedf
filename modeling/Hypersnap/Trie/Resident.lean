import Hypersnap.Trie.Invariants
import Hypersnap.Trie.Represents

/-!
# `Trie.Resident` — trees that are entirely in memory

A trie that was never reloaded or evicted has no serialized child anywhere, and no operation creates one. So
nothing such a trie does depends on the database: it may change arbitrarily between two calls
(`Represents.of_resident`).
-/

namespace Hypersnap
namespace TrieNode

/-- The node and everything below it is in memory. -/
inductive Resident : TrieNode → Prop
  | mk {n : TrieNode} (mem : ∀ c, n.children c ≠ some .serialized)
      (sub : ∀ c m, n.children c = some (.node m) → Resident m) : Resident n

variable {db db' : RocksDB} {n n' m : TrieNode} {p : Bytes} {c : UInt8}

section

variable (h : Resident n)
include h

theorem Resident.mem (c : UInt8) : n.children c ≠ some .serialized := by
  cases h with
  | mk mem _ => exact mem c

theorem Resident.sub (hc : n.children c = some (.node m)) : Resident m := by
  cases h with
  | mk _ sub => exact sub c m hc

theorem Resident.congr (hc : n'.children = n.children) : Resident n' :=
  .mk (fun c => by rw [hc]; exact h.mem c) fun c m hm => h.sub (c := c) (by rw [← hc]; exact hm)

omit h in
theorem resident_new : Resident new := .mk (by simp) (by simp)

theorem Resident.insert (hm : Resident m) (hc : n'.children = ByteMap.insert n.children c (.node m)) :
    Resident n' := by
  refine .mk (fun c' => ?_) fun c' m' hm' => ?_ <;> by_cases hcc : c' = c
  · rw [hc, hcc, ByteMap.insert_self]
    simp
  · rw [hc, ByteMap.insert_of_ne _ _ _ _ hcc]
    exact h.mem c'
  · rw [hc, hcc, ByteMap.insert_self, Option.some.injEq, TrieNodeType.node.injEq] at hm'
    exact hm' ▸ hm
  · rw [hc, ByteMap.insert_of_ne _ _ _ _ hcc] at hm'
    exact h.sub hm'

theorem Resident.remove (hc : n'.children = ByteMap.remove n.children c) : Resident n' := by
  refine .mk (fun c' => ?_) fun c' m' hm' => ?_ <;> by_cases hcc : c' = c
  · rw [hc, hcc, ByteMap.remove_self]
    simp
  · rw [hc, ByteMap.remove_of_ne _ _ _ hcc]
    exact h.mem c'
  · rw [hc, hcc, ByteMap.remove_self] at hm'
    cases hm'
  · rw [hc, ByteMap.remove_of_ne _ _ _ hcc] at hm'
    exact h.sub hm'

theorem Resident.children_of_load (hload : getOrLoadChild db n p c = .ok m) :
    n.children c = some (.node m) := by
  cases hc : n.children c with
  | none => rw [getOrLoadChild_none hc] at hload; cases hload
  | some t =>
    cases t with
    | serialized => exact absurd hc (h.mem c)
    | node m' =>
      rw [getOrLoadChild_node hc] at hload
      cases hload
      rfl

theorem Resident.load (hload : getOrLoadChild db n p c = .ok m) : Resident m :=
  h.sub (h.children_of_load hload)

end

/-! ## No operation leaves memory -/

/-- The operation keeps resident nodes resident, whether it succeeds or not. -/
def ResidentOp (op : NodeOp) : Prop :=
  ∀ n childHashes txn keys i, Resident n → Resident (op n childHashes txn keys i).node

theorem NodeOp.Keeps.resident {op : NodeOp}
    (hop : op.Keeps (fun _ _ => True) (fun _ => Resident) (fun _ => True)) : ResidentOp op := by
  intro n hs txn keys i hn
  have hout := hop n (List.replicate i 0) hs txn keys ⟨hn, trivial⟩ fun _ _ => trivial
  rw [List.length_replicate] at hout
  exact hout.1

theorem kept_resident (db : RocksDB) : Kept db (fun _ _ => True) (fun _ => Resident) (fun _ => True) where
  down _ _ := trivial
  congr h _ hc := h.congr hc
  dropKey h _ hc := h.congr hc
  load h _ hload := h.load hload
  child h _ hm _ hc := h.insert hm hc
  put _ _ _ := trivial

theorem insert_resident [Blake3] (db : RocksDB) (fuel : Nat) : ResidentOp (insert db fuel) :=
  NodeOp.Keeps.resident (insert_keeps
    { kept_resident db with
      new := fun _ => resident_new
      held := fun _ _ => trivial
      withKey := fun h _ _ _ hc => h.congr hc
      grow := fun h _ hm _ hc => h.insert hm hc } fuel)

theorem delete_resident [Blake3] (db : RocksDB) (fuel : Nat) : ResidentOp (delete db fuel) :=
  NodeOp.Keeps.resident (delete_keeps
    { kept_resident db with
      delete := fun _ _ => trivial
      remove := fun h _ hc => h.remove hc
      raise := fun h _ _ _ _ hc => h.remove hc } fuel)

/-- **A resident tree does not depend on the database.** -/
theorem Represents.of_resident [Blake3] {S : Finset Bytes} (h : Represents db n p S) (hres : Resident n) :
    Represents db' n p S := by
  induction h with
  | empty => exact .empty
  | leaf hdepth hk hstale => exact .leaf hdepth hk hstale
  | inner child hshape hne hframe hchild ih =>
    refine .inner child hshape hne
      ⟨hframe.items, hframe.key, hframe.cover, hframe.absent, fun c hc => ?_, hframe.cached⟩
      fun c hc => ih c hc (hres.load (hframe.load c hc))
    exact getOrLoadChild_node (hres.children_of_load (hframe.load c hc))

end TrieNode
end Hypersnap
