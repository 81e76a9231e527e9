import Lamellar.Array.Reads
import Lamellar.OneSidedIterator.Chains

/-!
# One-sided iterators of arrays and sub-arrays

What is assumed of `internal_get` holds of the arrays: `ofView` is the get of a view, block or
cyclic and at any offset, and `view_items` says that its iterators hand out the elements of the
view in order.
-/

namespace Lamellar.OneSidedIterator

open Lamellar.Array Lamellar.Array.UnsafeArrayInner

variable {T : Type} {a : UnsafeArrayInner} {len : ℕ} {r : MemoryRegion T}

/-- The elements of a view -/
def viewElems (a : UnsafeArrayInner) (len : ℕ) (r : MemoryRegion T) : List T :=
  (List.range a.size).map fun i => r.valueAt a.distribution len a.numPes a.offset i

/-- An empty get behind the last element asks no PE. -/
theorem read_end (env : Env T) : a.read env .get r a.size [] = some [] := by
  have hpes : a.pesForRange a.size 0 = [] := by
    have hend : a.peForDistIndex a.size = none := if_neg (Nat.lt_irrefl _)
    rw [pesForRange]
    cases a.distribution with
    | block => rw [hend]
    | cyclic => exact List.take_nil
  rw [UnsafeArrayInner.read, List.length_nil, Nat.zero_mul, if_neg (Nat.not_lt_zero _),
    initSmallGet,
    List.length_nil, hpes]
  cases a.distribution with
  | block => rfl
  | cyclic => rfl

section Gets

variable [Inhabited T] (env : Env T)

/-- `internal_get` of a view; the content `default` of the buffer before does not matter. -/
def viewGet (a : UnsafeArrayInner) (r : MemoryRegion T) (index m : ℕ) : Option (List T) :=
  (a.read env .get r index (List.replicate m default)).map (List.take m)

theorem viewGet_eq (h : a.WellFormed len) (hr : r.perPe = perPeSize len a.numPes)
    {index m : ℕ} (hm : 0 < m) (hle : index + m ≤ (viewElems a len r).length) :
    viewGet env a r index m = some (((viewElems a len r).drop index).take m) := by
  rw [viewElems, List.length_map, List.length_range] at hle
  have hpath : ¬ MissesOffset .get a := fun hmiss => ReadPath.noConfusion hmiss.1
  obtain ⟨buf, hread, hlen, hright⟩ := read_right env h hr hm hle
    (List.length_replicate (n := m) (a := default)) hpath
  rw [viewGet, hread, Option.map_some, List.take_of_length_le (Nat.le_of_eq hlen),
    Option.some_inj]
  apply List.ext_getElem?
  intro k
  by_cases hk : k < m
  · rw [hright k hk, List.getElem?_take_of_lt hk, List.getElem?_drop, viewElems,
      List.getElem?_map, List.getElem?_range (by omega), Option.map_some, MemoryRegion.valueAt,
      MemoryRegion.valueAt, Nat.add_assoc]
  · rw [List.getElem?_eq_none (by omega), List.getElem?_eq_none]
    rw [List.length_take]
    omega

theorem viewGet_end :
    viewGet env a r (viewElems a len r).length 0 = some [] := by
  rw [viewGet, viewElems, List.length_map, List.length_range, List.replicate_zero, read_end]
  rfl

theorem length_viewGet_le {index m : ℕ} {vals : List T}
    (h : viewGet env a r index m = some vals) : vals.length ≤ m := by
  obtain ⟨buf, -, rfl⟩ := Option.map_eq_some_iff.mp h
  exact List.length_take_le _ _

/-- The gets of a view as those of a chain -/
def InternalGet.ofView (r : MemoryRegion T) (h : a.WellFormed len)
    (hr : r.perPe = perPeSize len a.numPes) : InternalGet T where
  elems := viewElems a len r
  internalGet := viewGet env a r
  internalGet_eq := viewGet_eq env h hr
  internalGet_end _ := viewGet_end env
  length_le := length_viewGet_le env

end Gets

/-- Both iterators of a view with elements hand these out in order, for any number of PEs, any
distribution, any part of the full array and any buffer. -/
theorem view_items [Inhabited T] (env : Env T) (h : a.WellFormed len)
    (hr : r.perPe = perPeSize len a.numPes) (hsize : 0 < a.size) (bufSize : ℕ)
    (pos : 0 < bufSize) :
    (∃ fuel, (Chain.onesidedIter (.ofView env r h hr)).collect fuel =
        some ((viewElems a len r).map .elem)) ∧
      ∃ fuel, (Chain.bufferedOnesidedIter (.ofView env r h hr) bufSize pos).collect fuel =
        some ((viewElems a len r).map .elem) := by
  have hlen : (InternalGet.ofView env r h hr).elems.length = a.size := by
    show (viewElems a len r).length = a.size
    rw [viewElems, List.length_map, List.length_range]
  have hgets (b : ℕ) (hb : 0 < b) (hle : b ≤ a.size) :
      ((InternalGet.ofView env r h hr).internalGet 0 b).isSome := by
    rw [InternalGet.internalGet_eq _ hb (by rw [hlen]; omega)]
    rfl
  constructor
  · exact (Chain.onesided_items _).mpr (hgets 1 Nat.one_pos hsize)
  · refine (Chain.buffered_onesided_items _ bufSize pos).mpr (hgets _ ?_ ?_)
    · rw [InternalGet.len, hlen]
      omega
    · rw [InternalGet.len, hlen]
      exact Nat.min_le_right _ _

end Lamellar.OneSidedIterator
