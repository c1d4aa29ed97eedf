import Mathlib.Data.List.Basic
import Mathlib.Data.Vector.Basic
import Mathlib.Tactic.Ring

/-!
# `Core.Bytes` — byte strings, big-endian numbers and the hash function

What every layer shares: keys and hashes are byte strings, compared byte by byte; numbers enter a key in
big-endian order, so that the order of the keys is the order of the numbers; and `blake3` stands for
the hash function, of which nothing but its output length is known.
-/

namespace Hypersnap

abbrev Bytes := List UInt8

/-- `blake3`, the hash function of the program: 32 bytes of output, otherwise arbitrary. -/
class Blake3 where
  hash : Bytes → Vector UInt8 32

/-- `hex::encode`, as ASCII: two digits for each byte, from which the bytes can be read back. -/
class Hex where
  encode : Bytes → Bytes
  length_encode : ∀ b, (encode b).length = 2 * b.length
  encode_injective : Function.Injective encode

theorem hexDigit_inj :
    ∀ a < 16, ∀ b < 16, (Nat.digitChar a).toNat.toUInt8 = (Nat.digitChar b).toNat.toUInt8 → a = b := by
  decide

/-- The digits of each byte, the high one first. -/
@[reducible] def lowerHex : Hex where
  encode b :=
    b.flatMap fun x => [Nat.digitChar (x.toNat / 16), Nat.digitChar (x.toNat % 16)].map (·.toNat.toUInt8)
  length_encode b := by
    induction b with
    | nil => rfl
    | cons x b ih =>
      rw [List.flatMap_cons, List.length_append, ih, List.length_cons]
      simp only [List.map_cons, List.map_nil, List.length_cons, List.length_nil]
      omega
  encode_injective a := by
    induction a with
    | nil =>
      rintro (_ | ⟨y, b⟩) h
      · rfl
      · cases h
    | cons x a ih =>
      rintro (_ | ⟨y, b⟩) h
      · cases h
      · simp only [List.flatMap_cons, List.map_cons, List.map_nil, List.cons_append, List.nil_append,
          List.cons.injEq] at h
        obtain ⟨hhigh, hlow, hrest⟩ := h
        have hx := x.toNat_lt
        have hy := y.toNat_lt
        have hhigh := hexDigit_inj _ (by omega) _ (by omega) hhigh
        have hlow := hexDigit_inj _ (by omega) _ (by omega) hlow
        rw [ih hrest, UInt8.toNat_inj.1 (by omega : x.toNat = y.toNat)]

/-- `blake3_20`: the first 20 bytes of the hash. -/
def blake3_20 [Blake3] (b : Bytes) : Bytes := (Blake3.hash b).toList.take 20

@[simp] theorem blake3_20_length [Blake3] (b : Bytes) : (blake3_20 b).length = 20 := by
  simp [blake3_20]

@[simp] theorem blake3_20_ne_nil [Blake3] (b : Bytes) : blake3_20 b ≠ [] := by
  intro h
  simpa [h] using blake3_20_length b

/-! ## Comparison -/

/-- `bytes_compare`: byte by byte, a proper prefix is smaller. The source's `-1`, `0`, `1` are `lt`, `eq`,
    `gt`. -/
def bytesCompare (a b : Bytes) : Ordering := compare a b

theorem bytesCompare_eq_iff {a b : Bytes} : bytesCompare a b = .eq ↔ a = b :=
  Std.LawfulEqOrd.compare_eq_iff_eq

theorem bytesCompare_gt_iff {a b : Bytes} : bytesCompare a b = .gt ↔ bytesCompare b a = .lt := by
  show compare a b = .gt ↔ compare b a = .lt
  exact Std.OrientedCmp.gt_iff_lt

theorem bytesCompare_cons (x y : UInt8) (a b : Bytes) :
    bytesCompare (x :: a) (y :: b) = (compare x y).then (bytesCompare a b) := by
  show compare (x :: a) (y :: b) = (compare x y).then (compare a b)
  exact List.compareLex_cons_cons

theorem bytesCompare_cons_eq_lt {x y : UInt8} {a b : Bytes} :
    bytesCompare (x :: a) (y :: b) = .lt ↔ x < y ∨ x = y ∧ bytesCompare a b = .lt := by
  rw [bytesCompare_cons, Ordering.then_eq_lt, Std.compare_eq_lt, Std.LawfulEqOrd.compare_eq_iff_eq]

theorem bytesCompare_cons_ne_gt {x y : UInt8} {a b : Bytes} :
    bytesCompare (x :: a) (y :: b) ≠ .gt ↔ x < y ∨ x = y ∧ bytesCompare a b ≠ .gt := by
  rw [Ne, Ne, bytesCompare_gt_iff, bytesCompare_gt_iff, bytesCompare_cons_eq_lt]
  grind

theorem bytesCompare_append {a b : Bytes} (c d : Bytes) (h : a.length = b.length) :
    bytesCompare (a ++ c) (b ++ d) = (bytesCompare a b).then (bytesCompare c d) := by
  induction a generalizing b with
  | nil =>
    have hb : b = [] := List.eq_nil_of_length_eq_zero h.symm
    subst hb
    have hnil : bytesCompare [] [] = .eq := bytesCompare_eq_iff.2 rfl
    simp [hnil]
  | cons x a ih =>
    obtain _ | ⟨y, b⟩ := b
    · simp at h
    · have hab : a.length = b.length := by simpa using h
      simp only [List.cons_append, bytesCompare_cons, ih hab, Ordering.then_assoc]

theorem bytesCompare_append_left (p a b : Bytes) : bytesCompare (p ++ a) (p ++ b) = bytesCompare a b := by
  rw [bytesCompare_append _ _ rfl, bytesCompare_eq_iff.2 rfl]
  rfl

theorem compare_div_mod (n a b : Nat) :
    (compare (a / n) (b / n)).then (compare (a % n) (b % n)) = compare a b := by
  have ha := Nat.div_add_mod a n
  have hb := Nat.div_add_mod b n
  rcases Nat.lt_trichotomy (a / n) (b / n) with hlt | heq | hgt
  · rw [Nat.compare_eq_lt.2 hlt, Nat.compare_eq_lt.2 (Nat.lt_of_div_lt_div hlt)]
    rfl
  · rw [heq] at ha
    have hlt : a % n < b % n ↔ a < b := by omega
    have hgt : b % n < a % n ↔ b < a := by omega
    rw [Nat.compare_eq_eq.2 heq, Nat.compare_eq_ite_lt, Nat.compare_eq_ite_lt]
    simp only [hlt, hgt, Ordering.eq_then]
  · rw [Nat.compare_eq_gt.2 hgt, Nat.compare_eq_gt.2 (Nat.lt_of_div_lt_div hgt)]
    rfl

/-! ## Big-endian numbers -/

def toBeBytes (n : UInt32) : Bytes :=
  [(n >>> 24).toUInt8, (n >>> 16).toUInt8, (n >>> 8).toUInt8, n.toUInt8]

/-- The number a big-endian string stands for. -/
def fromBeBytes (bytes : Bytes) : Nat := bytes.foldl (fun n b => 256 * n + b.toNat) 0

def toBeBytes64 (n : UInt64) : Bytes := toBeBytes (n >>> 32).toUInt32 ++ toBeBytes n.toUInt32

@[simp] theorem length_toBeBytes (n : UInt32) : (toBeBytes n).length = 4 := rfl

theorem bytesCompare_toBeBytes (a b : UInt32) : bytesCompare (toBeBytes a) (toBeBytes b) = compare a b := by
  have byte₁ (n : UInt32) : (n >>> 24).toUInt8.toNat = n.toNat / 256 / 256 / 256 := by
    have := n.toNat_lt
    simp [Nat.shiftRight_eq_div_pow]
    omega
  have byte₂ (n : UInt32) : (n >>> 16).toUInt8.toNat = n.toNat / 256 / 256 % 256 := by
    simp [Nat.shiftRight_eq_div_pow]
    omega
  have byte₃ (n : UInt32) : (n >>> 8).toUInt8.toNat = n.toNat / 256 % 256 := by
    simp [Nat.shiftRight_eq_div_pow]
  have byte₄ (n : UInt32) : n.toUInt8.toNat = n.toNat % 256 := by simp
  rw [UInt32.compare_eq_toNat_compare_toNat, ← compare_div_mod 256, ← compare_div_mod 256 (a.toNat / 256),
    ← compare_div_mod 256 (a.toNat / 256 / 256)]
  simp only [toBeBytes, bytesCompare_cons, UInt8.compare_eq_toNat_compare_toNat, byte₁, byte₂, byte₃, byte₄,
    Ordering.then_assoc]
  rw [bytesCompare_eq_iff.2 rfl, Ordering.then_eq]

theorem le_of_bytesCompare_toBeBytes {a b : UInt32} (h : bytesCompare (toBeBytes a) (toBeBytes b) ≠ .gt) :
    a ≤ b := by
  rw [bytesCompare_toBeBytes] at h
  exact Std.isLE_compare.1 (Ordering.isLE_iff_ne_gt.2 h)

theorem toBeBytes_injective : Function.Injective toBeBytes := by
  intro a b h
  rw [← bytesCompare_eq_iff, bytesCompare_toBeBytes] at h
  exact Std.compare_eq_iff_eq.1 h

theorem toNat_highHalf (n : UInt64) : (n >>> 32).toUInt32.toNat = n.toNat / 2 ^ 32 := by
  have := n.toNat_lt
  simp [Nat.shiftRight_eq_div_pow]
  omega

theorem compare_halves (a b : UInt64) :
    (compare (a >>> 32).toUInt32 (b >>> 32).toUInt32).then (compare a.toUInt32 b.toUInt32) = compare a b := by
  simp only [UInt32.compare_eq_toNat_compare_toNat, UInt64.compare_eq_toNat_compare_toNat, toNat_highHalf]
  simp only [UInt64.toNat_toUInt32, compare_div_mod]

theorem bytesCompare_toBeBytes64 (a b : UInt64) :
    bytesCompare (toBeBytes64 a) (toBeBytes64 b) = compare a b := by
  rw [toBeBytes64, toBeBytes64, bytesCompare_append _ _ (by simp), bytesCompare_toBeBytes,
    bytesCompare_toBeBytes,
    compare_halves]

theorem toBeBytes64_injective : Function.Injective toBeBytes64 := by
  intro a b h
  rw [← bytesCompare_eq_iff, bytesCompare_toBeBytes64] at h
  exact Std.compare_eq_iff_eq.1 h

@[simp] theorem length_toBeBytes64 (n : UInt64) : (toBeBytes64 n).length = 8 := rfl

theorem fromBeBytes_append (a b : Bytes) :
    fromBeBytes (a ++ b) = fromBeBytes a * 256 ^ b.length + fromBeBytes b := by
  have hfold : ∀ (b : Bytes) (n : Nat),
      b.foldl (fun n x => 256 * n + x.toNat) n =
      n * 256 ^ b.length + b.foldl (fun n x => 256 * n + x.toNat) 0 := by
    intro b
    induction b with
    | nil => simp
    | cons x b ih =>
      intro n
      rw [List.foldl_cons, List.foldl_cons, ih, ih (256 * 0 + x.toNat), List.length_cons]
      ring
  rw [fromBeBytes, List.foldl_append, hfold, fromBeBytes, fromBeBytes]

@[simp] theorem fromBeBytes_toBeBytes (n : UInt32) : fromBeBytes (toBeBytes n) = n.toNat := by
  have := n.toNat_lt
  simp [fromBeBytes, toBeBytes, Nat.shiftRight_eq_div_pow]
  omega

theorem toBeBytes_fromBeBytes {bytes : Bytes} (h : bytes.length = 4) :
    toBeBytes (fromBeBytes bytes).toUInt32 = bytes := by
  obtain ⟨a, b, c, d, rfl⟩ := List.length_eq_four.1 h
  have := a.toNat_lt
  have := b.toNat_lt
  have := c.toNat_lt
  have := d.toNat_lt
  simp [fromBeBytes, toBeBytes, ← UInt8.toNat_inj, Nat.shiftRight_eq_div_pow]
  omega

@[simp] theorem fromBeBytes_toBeBytes64 (n : UInt64) : fromBeBytes (toBeBytes64 n) = n.toNat := by
  rw [toBeBytes64, fromBeBytes_append, fromBeBytes_toBeBytes, fromBeBytes_toBeBytes, length_toBeBytes,
    toNat_highHalf, UInt64.toNat_toUInt32]
  omega

end Hypersnap
