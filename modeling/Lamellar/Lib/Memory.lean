import Mathlib.Data.List.Range
import Mathlib.Algebra.Ring.Nat

/-!
# Bytes at addresses

A memory is a function from addresses to bytes. `write` copies bytes to an address, `read` gives
those from an address on.
-/

namespace Lamellar.Memory

variable {β : Type} {mem : ℕ → β} {addr len x i : ℕ} {bytes : List β}

/-- `copy_nonoverlapping` to `addr` -/
def write (mem : ℕ → β) (addr : ℕ) (bytes : List β) (x : ℕ) : β :=
  if h : addr ≤ x ∧ x - addr < bytes.length then bytes[x - addr] else mem x

/-- `copy_nonoverlapping` of `len` bytes from `addr` -/
def read (mem : ℕ → β) (addr len : ℕ) : List β := (List.range len).map fun i => mem (addr + i)

theorem write_inside (hi : i < bytes.length) : write mem addr bytes (addr + i) = bytes[i] := by
  have hsub : addr + i - addr = i := Nat.add_sub_cancel_left addr i
  have hin : addr ≤ addr + i ∧ addr + i - addr < bytes.length := by omega
  rw [write, dif_pos hin]
  simp only [hsub]

theorem write_outside (h : x < addr ∨ addr + bytes.length ≤ x) : write mem addr bytes x = mem x :=
  dif_neg (by omega)

theorem read_write : read (write mem addr bytes) addr bytes.length = bytes := by
  apply List.ext_getElem
  · simp [read]
  · intro i hi hi'
    simp only [read, List.getElem_map, List.getElem_range]
    exact write_inside hi'

/-! ## The same bytes at several addresses -/

def writeAll (mem : ℕ → β) (addrs : List ℕ) (bytes : List β) : ℕ → β :=
  addrs.foldl (fun mem addr => write mem addr bytes) mem

variable {addrs : List ℕ}

theorem writeAll_outside (h : ∀ a ∈ addrs, x < a ∨ a + bytes.length ≤ x) :
    writeAll mem addrs bytes x = mem x := by
  induction addrs generalizing mem with
  | nil => rfl
  | cons a addrs ih =>
    rw [writeAll, List.foldl_cons, ← writeAll, ih fun b hb => h b (List.mem_cons_of_mem a hb)]
    exact write_outside (h a List.mem_cons_self)

theorem read_writeAll (h : addrs.Pairwise fun a b => a + bytes.length ≤ b ∨ b + bytes.length ≤ a)
    (ha : addr ∈ addrs) : read (writeAll mem addrs bytes) addr bytes.length = bytes := by
  induction addrs generalizing mem with
  | nil => cases ha
  | cons a addrs ih =>
    obtain ⟨hfirst, hrest⟩ := List.pairwise_cons.mp h
    rw [writeAll, List.foldl_cons, ← writeAll]
    rcases List.mem_cons.mp ha with rfl | ha
    · have hkept : read (writeAll (write mem addr bytes) addrs bytes) addr bytes.length =
          read (write mem addr bytes) addr bytes.length := by
        refine List.map_congr_left fun i hi => writeAll_outside fun b hb => ?_
        have hlt := List.mem_range.mp hi
        have hapart := hfirst b hb
        omega
      rw [hkept, read_write]
    · exact ih hrest ha

theorem writeAll_single {b : β} (hx : x ∈ addrs) : writeAll mem addrs [b] x = b := by
  induction addrs generalizing mem with
  | nil => cases hx
  | cons a addrs ih =>
    rw [writeAll, List.foldl_cons, ← writeAll]
    by_cases hrest : x ∈ addrs
    · exact ih hrest
    · obtain rfl := (List.mem_cons.mp hx).resolve_right hrest
      rw [writeAll_outside fun c hc => ?_]
      · have hlt : 0 < [b].length := Nat.zero_lt_one
        exact write_inside hlt
      · have hne : x ≠ c := fun heq => hrest (heq ▸ hc)
        rw [List.length_singleton]
        omega

end Lamellar.Memory
