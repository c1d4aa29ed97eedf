import Mathlib.Data.List.Nodup
import Mathlib.Logic.Function.Basic

/-!
# `Lib.ByteMap` — maps keyed by one byte

A map from bytes to values is a function `UInt8 → Option α`. There are only 256 keys, so emptiness, the size
and the **sorted** list of keys are all computed by scanning them in increasing order; a program that
collects the keys of a hash map and sorts them computes exactly `chars`.
-/

/-- A map keyed by one byte, given by its lookup function. -/
abbrev ByteMap (α : Type) := UInt8 → Option α

namespace ByteMap

def allBytes : List UInt8 := (List.range 256).map UInt8.ofNat

theorem mem_allBytes (c : UInt8) : c ∈ allBytes := by
  refine List.mem_map.mpr ⟨c.toNat, List.mem_range.mpr c.toNat_lt, ?_⟩
  exact UInt8.ofNat_toNat

variable {α β : Type}

def empty : ByteMap α := fun _ => none

def insert (m : ByteMap α) (c : UInt8) (v : α) : ByteMap α := Function.update m c (some v)

def remove (m : ByteMap α) (c : UInt8) : ByteMap α := Function.update m c none

def chars (m : ByteMap α) : List UInt8 := allBytes.filter fun c => (m c).isSome

/-- The entries of the map, in increasing order of their keys. -/
def entries (m : ByteMap α) : List (UInt8 × α) := m.chars.filterMap fun c => (m c).map (c, ·)

def isEmpty (m : ByteMap α) : Bool := allBytes.all fun c => (m c).isNone

def len (m : ByteMap α) : Nat := m.chars.length

variable (m : ByteMap α) (c c' : UInt8) (v : α)

@[simp] theorem empty_apply : (empty : ByteMap α) c = none := rfl

@[simp] theorem insert_self : m.insert c v c = some v := by simp [insert]

@[simp] theorem insert_of_ne (h : c' ≠ c) : m.insert c v c' = m c' := by simp [insert, h]

@[simp] theorem remove_self : m.remove c c = none := by simp [remove]

@[simp] theorem remove_of_ne (h : c' ≠ c) : m.remove c c' = m c' := by simp [remove, h]

theorem isEmpty_iff : m.isEmpty = true ↔ m = empty := by
  unfold isEmpty
  rw [List.all_eq_true]
  constructor
  · intro h
    funext c
    exact Option.isNone_iff_eq_none.mp (h c (mem_allBytes c))
  · rintro rfl c -
    rfl

@[simp] theorem isEmpty_empty : (empty : ByteMap α).isEmpty = true := (isEmpty_iff _).mpr rfl

theorem isEmpty_eq_false {m : ByteMap α} {c : UInt8} (h : m c ≠ none) : m.isEmpty = false := by
  rw [Bool.eq_false_iff]
  intro he
  exact h (by rw [(isEmpty_iff m).mp he]; rfl)

@[simp] theorem mem_chars {m : ByteMap α} {c : UInt8} : c ∈ m.chars ↔ m c ≠ none := by
  simp [chars, mem_allBytes, Option.isSome_iff_ne_none]

theorem allBytes_nodup : allBytes.Nodup := by
  refine List.Nodup.map_on ?_ List.nodup_range
  intro x hx y hy hxy
  have := congrArg UInt8.toNat hxy
  rw [List.mem_range] at hx hy
  simpa [Nat.mod_eq_of_lt hx, Nat.mod_eq_of_lt hy] using this

theorem chars_nodup : m.chars.Nodup := allBytes_nodup.filter _

theorem chars_congr {m : ByteMap α} {m' : ByteMap β} (h : ∀ c, m c = none ↔ m' c = none) :
    m.chars = m'.chars := by
  refine List.filter_congr fun c _ => ?_
  rw [Bool.eq_iff_iff, Option.isSome_iff_ne_none, Option.isSome_iff_ne_none]
  exact not_congr (h c)

theorem chars_singleton {m : ByteMap α} {c : UInt8} (h : ∀ c', m c' ≠ none ↔ c' = c) : m.chars = [c] := by
  have hperm : m.chars.Perm [c] :=
    (List.perm_ext_iff_of_nodup m.chars_nodup (List.nodup_singleton c)).mpr fun x => by
      rw [mem_chars, h, List.mem_singleton]
  exact List.perm_singleton.mp hperm

end ByteMap
