import Lamellar.Alloc.IndexSet
import Lamellar.Lib.SortedMap
import Lamellar.Lib.Word

/-!
# The free entries of a heap: `FreeEntries` of `src/lamellar_alloc.rs`

The free blocks by address, and for every size the addresses of the blocks of that size. The sums
and differences are those of a build. A panic leaves the entries as they are at that moment: what
has been taken out of a map and not yet been put back is gone.
-/

namespace Lamellar.Alloc

open IndexSet (isEmpty pop remove)

def calcPadding (addr align : ℕ) : ℕ :=
  let rem := addr % align
  if rem = 0 then 0 else align - rem

theorem calcPadding_lt (addr : ℕ) {align : ℕ} (halign : 0 < align) :
    calcPadding addr align < align := by
  unfold calcPadding
  simp only
  split
  · exact halign
  · omega

theorem dvd_add_calcPadding (addr : ℕ) {align : ℕ} (halign : 0 < align) :
    align ∣ addr + calcPadding addr align := by
  unfold calcPadding
  simp only
  have hdiv := Nat.div_add_mod addr align
  split
  · rename_i hrem
    exact Nat.dvd_of_mod_eq_zero hrem
  · have hlt := Nat.mod_lt addr halign
    refine ⟨addr / align + 1, ?_⟩
    rw [Nat.mul_succ]
    omega

/-- `size + align - 1`, or none where it panics. -/
def upperSize (build : Build) (size align : ℕ) : Option ℕ :=
  (build.result (size + align)).bind fun sum => build.sub sum 1

structure FreeEntries (S : Type) where
  /-- The addresses of the blocks of each size -/
  sizes : SortedMap S
  /-- Size and padding of each block -/
  addrs : SortedMap (ℕ × ℕ)

/-- What the search of `try_malloc` gives. -/
inductive Search (S : Type) where
  | notFound
  /-- The address and the remaining free entries -/
  | found (addr : Option ℕ) (fe : FreeEntries S)
  | panicked (fe : FreeEntries S)

namespace FreeEntries

variable {S : Type} [IndexSet S]

def new : FreeEntries S := ⟨.empty, .empty⟩

/-- `sizes.entry(size).or_insert(IndexSet::new()).insert(addr)` and
`addrs.insert(addr, (size, 0))` -/
def put (fe : FreeEntries S) (addr size : ℕ) : FreeEntries S where
  sizes := fe.sizes.insert size (IndexSet.insert ((fe.sizes.get? size).getD IndexSet.new) addr)
  addrs := fe.addrs.insert addr (size, 0)

def removeSize (fe : FreeEntries S) (addr size : ℕ) : FreeEntries S :=
  match fe.sizes.get? size with
  | some s =>
    let s' := remove s addr
    if isEmpty s' then { fe with sizes := fe.sizes.erase size }
    else { fe with sizes := fe.sizes.insert size s' }
  | none => fe

/-- `addrs.remove(addr)` and `remove_size(addr, size)` -/
def drop (fe : FreeEntries S) (addr size : ℕ) : FreeEntries S :=
  { fe with addrs := fe.addrs.erase addr }.removeSize addr size

/-- The loop of `merge`. Each turn lowers `addrs.len() - 1 - i` by one, be it by a merge or by
`i`: so many turns there are. An error is what a panic leaves. -/
def mergeTurns (build : Build) : ℕ → FreeEntries S → Except (FreeEntries S) (FreeEntries S)
  | 0, fe => .ok fe
  | n + 1, fe =>
    match fe.addrs.popFirst with
    | none => .error fe
    | some ((faddr, fsize, fpadding), addrs) =>
      match addrs.popFirst with
      | none => .error { fe with addrs }
      | some ((naddr, nsize, npadding), addrs) =>
        let popped := { fe with addrs }
        match build.result (faddr + fsize + fpadding) with
        | none => .error popped
        | some fend =>
          if fend = naddr then
            match build.result (fsize + nsize), build.result (fpadding + npadding) with
            | some newSize, some 0 =>
              mergeTurns build n
                (((popped.removeSize naddr nsize).removeSize faddr fsize).put faddr newSize)
            | _, _ => .error popped
          else
            mergeTurns build n
              { fe with
                addrs := (addrs.insert faddr (fsize, fpadding)).insert naddr (nsize, npadding) }

/-- If nothing is free, `addrs.len() - 1` panics, or wraps around and then `pop_first().unwrap()`
panics. -/
def merge (build : Build) (fe : FreeEntries S) : Except (FreeEntries S) (FreeEntries S) :=
  if fe.addrs.entries = [] then .error fe
  else mergeTurns build (fe.addrs.entries.length - 1) fe

/-- `remove_size`, at the end of `try_malloc`: the size is removed if `s` has become empty. -/
def trim (fe : FreeEntries S) (freeSize : ℕ) (s : S) : FreeEntries S :=
  if isEmpty s then { fe with sizes := fe.sizes.erase freeSize } else fe

def search (build : Build) (fe : FreeEntries S) (upperSize size align : ℕ) : Search S :=
  match fe.sizes.firstFrom upperSize with
  | none => .notFound
  | some (freeSize, addrs) =>
    let popped := pop addrs
    let fe₁ := { fe with sizes := fe.sizes.insert freeSize popped.2 }
    match popped.1 with
    | none => .found none (fe₁.trim freeSize popped.2)
    | some a =>
      match build.result (size + calcPadding a align), fe₁.addrs.get? a with
      | some fullSize, some (fsize, fpadding) =>
        let fe₂ := { fe₁ with addrs := fe₁.addrs.erase a }
        match build.result (fsize + fpadding) with
        | none => .panicked fe₂
        | some fullFree =>
          if fullFree ≠ fullSize then
            match build.sub fullFree fullSize, build.result (a + fullSize) with
            | some remaining, some newAddr =>
              .found (some a) ((fe₂.put newAddr remaining).trim freeSize popped.2)
            | _, _ => .panicked fe₂
          else .found (some a) (fe₂.trim freeSize popped.2)
      | _, _ => .panicked fe₁

/-- `range(..temp_addr).next_back()`, if it is next to the block that is freed; none where the
comparison panics. -/
def before (build : Build) (fe : FreeEntries S) (tempAddr addr : ℕ) :
    Option (Option (ℕ × ℕ × ℕ)) :=
  match fe.addrs.lastBelow tempAddr with
  | none => some none
  | some (faddr, fsize, fpadding) =>
    (build.result (faddr + fsize + fpadding)).map fun fend =>
      if fend = addr then some (faddr, fsize, fpadding) else none

/-- `range(addr..).next()`, if the block that is freed ends there -/
def after (build : Build) (fe : FreeEntries S) (addr tempAddr tempSize : ℕ) :
    Option (Option (ℕ × ℕ × ℕ)) :=
  match fe.addrs.firstFrom addr with
  | none => some none
  | some (faddr, fsize, fpadding) =>
    (build.result (tempAddr + tempSize)).map fun tempEnd =>
      if tempEnd = faddr then some (faddr, fsize, fpadding) else none

/-- `temp_size += fsize + fpadding` -/
def addBlock (build : Build) (tempSize : ℕ) : Option (ℕ × ℕ × ℕ) → Option ℕ
  | none => some tempSize
  | some (_, fsize, fpadding) =>
    (build.result (fsize + fpadding)).bind fun blockSize => build.result (tempSize + blockSize)

/-- The second half of `free`: the block with its neighbours. None where it panics, which is before
anything is removed. -/
def giveBack (build : Build) (fe : FreeEntries S) (addr size padding : ℕ) :
    Option (FreeEntries S) := do
  let unpaddedAddr ← build.sub addr padding
  let fullSize ← build.result (size + padding)
  let before ← fe.before build unpaddedAddr addr
  let tempAddr := (before.map Prod.fst).getD unpaddedAddr
  let tempSize ← addBlock build fullSize before
  let after ← fe.after build addr tempAddr tempSize
  let tempSize ← addBlock build tempSize after
  let fe ← (before.toList ++ after.toList).foldlM
    (fun fe (raddr, rsize, rpadding) => (build.result (rsize + rpadding)).map (fe.drop raddr)) fe
  some (fe.put tempAddr tempSize)

end FreeEntries

end Lamellar.Alloc
