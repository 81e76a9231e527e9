import Lamellar.BatchOps.Batches
import Lamellar.Lib.Buckets

/-!
# The requests of a task

Beside the buffer of a PE, a task of a batch keeps the positions of its entries in the results of
the call (`res_buffs`), and a request has the positions of the entries of its message. The two go
together whenever the buffers are sent (`resBatches_eq`).
-/

namespace Lamellar.BatchOps

variable {E : Type}

/-- `buffs`, `res_buffs` and `reqs` of a task -/
structure ResBuffs where
  buffs : ℕ → List UInt8
  resBuffs : ℕ → List ℕ
  reqs : List (ℕ × List UInt8 × List ℕ)

namespace ResBuffs

def new : ResBuffs := ⟨fun _ => [], fun _ => [], []⟩

/-- An entry for `pe` at position `j`; a buffer of at least `perBatch` bytes is sent. -/
def push (perBatch : ℕ) (st : ResBuffs) (pe : ℕ) (bytes : List UInt8) (j : ℕ) : ResBuffs :=
  let buff := st.buffs pe ++ bytes
  let resBuff := st.resBuffs pe ++ [j]
  if perBatch ≤ buff.length then
    { buffs := Function.update st.buffs pe []
      resBuffs := Function.update st.resBuffs pe []
      reqs := st.reqs ++ [(pe, buff, resBuff)] }
  else
    { st with
      buffs := Function.update st.buffs pe buff
      resBuffs := Function.update st.resBuffs pe resBuff }

/-- The buffers that are left are sent, PE after PE. -/
def finish (st : ResBuffs) (numPes : ℕ) : List (ℕ × List UInt8 × List ℕ) :=
  st.reqs ++ (List.range numPes).filterMap fun pe =>
    if 0 < (st.buffs pe).length then some (pe, st.buffs pe, st.resBuffs pe) else none

end ResBuffs

section Images

variable (bytes : E → List UInt8) (pos : E → ℕ)

/-- The message for a batch of entries -/
def message (b : ℕ × List E) : ℕ × List UInt8 × List ℕ :=
  (b.1, b.2.flatMap bytes, b.2.map pos)

/-- The buffers and requests for buckets of entries -/
def image (bs : Buckets E) : ResBuffs where
  buffs pe := (bs.held pe).flatMap bytes
  resBuffs pe := (bs.held pe).map pos
  reqs := bs.batches.map (message bytes pos)

/-- A bucket is full when its bytes are. -/
def full (perBatch : ℕ) (es : List E) : Bool := perBatch ≤ (es.flatMap bytes).length

variable {bytes pos} {bs : Buckets E}

end Images

end Lamellar.BatchOps
