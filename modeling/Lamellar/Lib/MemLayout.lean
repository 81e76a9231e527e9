import Lamellar.Lib.Wire

/-!
# Values as bytes in memory

`MemLayout α` says how the values of a type lie in memory: their size and alignment, the bytes
of a value, where padding may hold anything, and the value that bytes stand for. Unsigned
integers lie there lowest byte first (`uint`), and the two fields of a record in C order, each
at a multiple of its alignment (`reprC`). A buffer of values, one after the other, read as a
slice of them gives these values again (`fromRawParts_slice`).
-/

namespace Lamellar

open Wire

/-- The first multiple of `a` from `n` on -/
def roundUp (n a : ℕ) : ℕ := (n + a - 1) / a * a

theorem le_roundUp {a : ℕ} (ha : 0 < a) (n : ℕ) : n ≤ roundUp n a := by
  have hdiv := Nat.div_add_mod (n + a - 1) a
  have hlt := Nat.mod_lt (n + a - 1) ha
  rw [roundUp, Nat.mul_comm]
  omega

/-- The memory of a value; `pad` gives the bytes of the padding, by their position. -/
structure MemLayout (α : Type) where
  size : ℕ
  align : ℕ
  align_pos : 0 < align
  bytes : (ℕ → UInt8) → α → List UInt8
  value : List UInt8 → α
  length_bytes : ∀ pad x, (bytes pad x).length = size
  value_bytes : ∀ pad x, value (bytes pad x) = x

namespace MemLayout

variable {α β : Type}

/-- An unsigned integer of `w` bytes, aligned to its size. -/
def uint (w : ℕ) (hw : 0 < w) : MemLayout (BitVec (8 * w)) where
  size := w
  align := w
  align_pos := hw
  bytes _ x := encodeLe w x.toNat
  value bs := BitVec.ofNat (8 * w) (decodeLe bs)
  length_bytes _ x := length_encodeLe w x.toNat
  value_bytes _ x := by
    have hlt : x.toNat < 256 ^ w := by
      have hx := x.isLt
      rwa [Nat.pow_mul] at hx
    rw [decodeLe_encodeLe hlt, BitVec.ofNat_toNat, BitVec.setWidth_eq]

/-! ## Records -/

/-- Where the second field begins -/
def offset (A : MemLayout α) (B : MemLayout β) : ℕ := roundUp A.size B.align

/-- `n` bytes of padding from position `i` on -/
def padding (pad : ℕ → UInt8) (i n : ℕ) : List UInt8 := (List.range' i n).map pad

/-- The memory of two fields in C order -/
def reprC (A : MemLayout α) (B : MemLayout β) : MemLayout (α × β) where
  size := roundUp (A.offset B + B.size) (max A.align B.align)
  align := max A.align B.align
  align_pos := Nat.lt_of_lt_of_le A.align_pos (Nat.le_max_left _ _)
  bytes pad x :=
    let last := A.offset B + B.size
    A.bytes pad x.1 ++ (padding pad A.size (A.offset B - A.size) ++
      (B.bytes (fun i => pad (A.offset B + i)) x.2 ++
        padding pad last (roundUp last (max A.align B.align) - last)))
  value bs := (A.value (bs.take A.size), B.value ((bs.drop (A.offset B)).take B.size))
  length_bytes pad x := by
    have hle : A.size ≤ A.offset B := le_roundUp B.align_pos A.size
    have hle' := le_roundUp (Nat.lt_of_lt_of_le A.align_pos (Nat.le_max_left A.align B.align))
      (A.offset B + B.size)
    simp only [List.length_append, A.length_bytes, B.length_bytes, padding, List.length_map,
      List.length_range']
    omega
  value_bytes pad x := by
    have hle : A.size ≤ A.offset B := le_roundUp B.align_pos A.size
    have hfirst := A.length_bytes pad x.1
    have hsecond := B.length_bytes (fun i => pad (A.offset B + i)) x.2
    have hpad : (padding pad A.size (A.offset B - A.size)).length = A.offset B - A.size := by
      rw [padding, List.length_map, List.length_range']
    rw [List.take_left' hfirst, A.value_bytes, ← List.append_assoc,
      List.drop_left' (by rw [List.length_append, hfirst, hpad]; omega), List.take_left' hsecond,
      B.value_bytes]

theorem reprC_size_pos (A : MemLayout α) (B : MemLayout β) (hA : 0 < A.size) :
    0 < (A.reprC B).size := by
  have hle : A.size ≤ A.offset B := le_roundUp B.align_pos A.size
  have hle' : A.offset B + B.size ≤ (A.reprC B).size := le_roundUp (A.reprC B).align_pos _
  omega

/-! ## Slices -/

/-- A buffer of values, each with the padding that it has -/
def slice (A : MemLayout α) (xs : List ((ℕ → UInt8) × α)) : List UInt8 :=
  xs.flatMap fun x => A.bytes x.1 x.2

/-- `std::slice::from_raw_parts(bytes.as_ptr() as *const α, bytes.len() / size_of::<α>())` -/
def fromRawParts (A : MemLayout α) (bs : List UInt8) : List α :=
  (List.range (bs.length / A.size)).map fun i => A.value ((bs.drop (i * A.size)).take A.size)

theorem length_slice (A : MemLayout α) (xs : List ((ℕ → UInt8) × α)) :
    (A.slice xs).length = xs.length * A.size := by
  induction xs with
  | nil => exact (Nat.zero_mul _).symm
  | cons x xs ih =>
    rw [slice] at ih ⊢
    rw [List.flatMap_cons, List.length_append, ih, A.length_bytes, List.length_cons, Nat.succ_mul,
      Nat.add_comm]

theorem slice_append (A : MemLayout α) (xs ys : List ((ℕ → UInt8) × α)) :
    A.slice (xs ++ ys) = A.slice xs ++ A.slice ys := List.flatMap_append

/-- The values of a buffer, whatever its padding is -/
theorem fromRawParts_slice (A : MemLayout α) (hsize : 0 < A.size)
    (xs : List ((ℕ → UInt8) × α)) : A.fromRawParts (A.slice xs) = xs.map Prod.snd := by
  rw [fromRawParts, length_slice, Nat.mul_div_cancel _ hsize]
  induction xs with
  | nil => rfl
  | cons x xs ih =>
    have hcons : A.slice (x :: xs) = A.bytes x.1 x.2 ++ A.slice xs := List.flatMap_cons
    have hlength := A.length_bytes x.1 x.2
    rw [List.length_cons, List.range_succ_eq_map, List.map_cons, List.map_map, Nat.zero_mul,
      List.drop_zero, hcons, List.take_left' hlength, A.value_bytes, List.map_cons, ← ih]
    congr 1
    apply List.map_congr_left
    intro i _
    simp only [Function.comp_apply]
    rw [Nat.succ_mul, Nat.add_comm, ← List.drop_drop, List.drop_left' hlength]

end MemLayout

end Lamellar
