import Lamellar.Lib.MemLayout

/-!
# Regions of memory

A region is an address and a length. Regions that are carved off one after the other (`carve`) do
not overlap (`pairwise_carve`) and lie in the memory that their lengths add up to
(`within_of_mem_carve`). `structSize` is the size of a record in C order.
-/

namespace Lamellar

structure Region where
  addr : ℕ
  len : ℕ
  deriving DecidableEq

namespace Region

def stop (r : Region) : ℕ := r.addr + r.len

/-- One ends before the other begins. -/
def Disjoint (r r' : Region) : Prop := r.stop ≤ r'.addr ∨ r'.stop ≤ r.addr

def Within (r r' : Region) : Prop := r'.addr ≤ r.addr ∧ r.stop ≤ r'.stop

/-- Regions of these lengths, each at the end of the one before, the first at `addr` -/
def carve (addr : ℕ) : List ℕ → List Region
  | [] => []
  | len :: lens => ⟨addr, len⟩ :: carve (addr + len) lens

theorem within_of_mem_carve {addr : ℕ} {lens : List ℕ} {r : Region} (h : r ∈ carve addr lens) :
    r.Within ⟨addr, lens.sum⟩ := by
  induction lens generalizing addr with
  | nil => cases h
  | cons len lens ih =>
    rw [carve, List.mem_cons] at h
    rw [List.sum_cons]
    rcases h with rfl | h
    · simp only [Within, stop]
      omega
    · have hin := ih h
      simp only [Within, stop] at hin ⊢
      omega

theorem pairwise_carve (addr : ℕ) (lens : List ℕ) : (carve addr lens).Pairwise Disjoint := by
  induction lens generalizing addr with
  | nil => exact .nil
  | cons len lens ih =>
    refine .cons ?_ (ih (addr + len))
    intro r hr
    exact .inl (within_of_mem_carve hr).1

end Region

/-! ## Records -/

/-- Where the fields of a record end; a field is a size and an alignment. -/
def fieldsEnd (start : ℕ) (fields : List (ℕ × ℕ)) : ℕ :=
  fields.foldl (fun n f => roundUp n f.2 + f.1) start

def structAlign (fields : List (ℕ × ℕ)) : ℕ := (fields.map Prod.snd).foldl max 1

def structSize (fields : List (ℕ × ℕ)) : ℕ := roundUp (fieldsEnd 0 fields) (structAlign fields)

end Lamellar
