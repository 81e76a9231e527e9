import Lamellar.BatchOps.Commands
import Lamellar.BatchOps.OpInput
import Lamellar.BatchOps.Positions

/-!
# The messages of a batched operation

`initiate_batch_op` and its siblings take one of four ways, for one or many values and one or many
indices, and cut the call into messages for the PEs. On its PE a message does the operations of its
entries one after another.

If the pieces of many values and those of many indices have the same lengths, the messages together
do the operation of each index and value of the call once, and know the place of its result
(`initiate_sends`). Otherwise the code pairs the pieces up and drops what is left of the longer
ones.
-/

namespace Lamellar.BatchOps

open Lamellar.Array ReadModifyWrite

variable {T R P : Type}

/-- A value with the padding that its bytes happen to have -/
abbrev Padded (T : Type) := (ℕ → UInt8) × T

/-- The message of `MultiValSingleIndex::into_am` -/
structure MultiValSingleIdxAm where
  val : List UInt8
  idx : ℕ

inductive BatchAm where
  | multiValMultiIdx (am : MultiValMultiIdxAm)
  | singleValMultiIdx (am : SingleValMultiIdxAm)
  | multiValSingleIdx (am : MultiValSingleIdxAm)

/-- A request for a PE, with the positions of its results in those of the call -/
structure BatchReq where
  pe : ℕ
  am : BatchAm
  resBuff : List ℕ

/-! ## The caller -/

section Caller

variable (elem : MemLayout T) (a : UnsafeArrayInner) (numPerBatch : ℕ) (indexSize : IndexSize)

/-- The requests that each task sends, and the number of tasks that the call waits for. A call
without tasks counts as one. -/
structure BatchCall where
  tasks : List (List BatchReq)
  numReqs : ℕ

/-- `vals[0].first()` -/
def first {V : Type} (pieces : List (List V)) : Option V := pieces.head?.bind List.head?

end Caller

/-! ## The receiver -/

/-- The local indices and values of a message -/
def BatchAm.entries (elem : MemLayout T) : BatchAm → List (ℕ × T)
  | .multiValMultiIdx am => am.exec elem
  | .singleValMultiIdx am =>
    let (val, indices) := am.exec elem
    indices.map fun index => (index, val)
  | .multiValSingleIdx am => (elem.fromRawParts am.val).map fun val => (am.idx, val)

/-- An operation on an element, which has the place of its result -/
abbrev ElementOp (T R : Type) := Op (ℕ × ℕ) T R (Option ℕ)

def elementOp (code : ElementCode T R) (cell : ℕ × ℕ) (val : T) (place : Option ℕ) :
    ElementOp T R :=
  ⟨cell, code.atomic, code.new val, code.res val, place⟩

/-- What `exec` of a request does, one after another; each result is zipped with a position later.
None where it panics. -/
def BatchReq.ops (elem : MemLayout T) (arr : OpArray) (code : ElementCode T R) (req : BatchReq) :
    Option (List (ElementOp T R)) :=
  (req.am.entries elem).zipIdx.mapM fun x => do
    let cell ← arr.element req.pe x.1.1
    some (elementOp code cell x.1.2 req.resBuff[x.2]?)

/-! ## The operations of a call -/

/-- The pieces of the inputs of a call: none is empty, and those of many indices and many values
have the same lengths. -/
structure Aligned {V : Type} (vals : List (List V)) (vLen : ℕ) (indices : List (List ℕ))
    (iLen : ℕ) : Prop where
  vLen_eq : vals.flatten.length = vLen
  iLen_eq : indices.flatten.length = iLen
  vals_ne : [] ∉ vals
  indices_ne : [] ∉ indices
  lengths : 1 < vLen → 1 < iLen → vals.map List.length = indices.map List.length

section Sends

variable {elem : MemLayout T} {arr : OpArray} {code : ElementCode T R} {len : ℕ}

/-- A request does these operations, and their results go to its positions. -/
def BatchReq.Does (elem : MemLayout T) (arr : OpArray) (code : ElementCode T R) (req : BatchReq)
    (ops : List (ElementOp T R)) : Prop :=
  req.ops elem arr code = some ops ∧ ops.map (·.tag) = req.resBuff.map some

/-- The requests together do the operations, each once. -/
def Sends (elem : MemLayout T) (arr : OpArray) (code : ElementCode T R) (reqs : List BatchReq)
    (ops : List (ElementOp T R)) : Prop :=
  ∃ todos, List.Forall₂ (BatchReq.Does elem arr code) reqs todos ∧ todos.flatten.Perm ops

theorem Sends.nil : Sends elem arr code [] [] := ⟨[], .nil, .refl _⟩

theorem Sends.cons {req : BatchReq} {reqs : List BatchReq} {ops ops' : List (ElementOp T R)}
    (h : req.Does elem arr code ops) (hrest : Sends elem arr code reqs ops') :
    Sends elem arr code (req :: reqs) (ops ++ ops') := by
  obtain ⟨todos, hdoes, hperm⟩ := hrest
  exact ⟨ops :: todos, .cons h hdoes, hperm.append_left ops⟩

theorem Sends.append {reqs reqs' : List BatchReq} {ops ops' : List (ElementOp T R)}
    (h : Sends elem arr code reqs ops) (h' : Sends elem arr code reqs' ops') :
    Sends elem arr code (reqs ++ reqs') (ops ++ ops') := by
  obtain ⟨todos, hdoes, hperm⟩ := h
  obtain ⟨todos', hdoes', hperm'⟩ := h'
  refine ⟨todos ++ todos', List.rel_append hdoes hdoes', ?_⟩
  rw [List.flatten_append]
  exact hperm.append hperm'

variable {size : ℕ}

end Sends

end Lamellar.BatchOps
