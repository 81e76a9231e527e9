import Lamellar.Array.LocalMaps
import Lamellar.Array.Reads
import Lamellar.Array.Writes
import Lamellar.Lib.Word

/-!
# Transfers that are out of range

What a transfer does to the memory of the array when it ends behind the view. `block_op` asks for
the PEs of the first and of the last element, and panics before it does anything else; the
receivers of messages ask the same. `cyclic_op` does not ask: only the memory regions refuse what
ends behind them, one access after the other. The small get of a block distribution asks, and
takes the answer for an empty range.

What the entry point does before it returns, and each of the messages that it launches, is a
`Task`: its accesses to the memory regions of the array, until it panics. When a message panics,
the entry point has returned its future. The index is any word: what `cyclic_op` and the memory
regions add to it, and the products with the size of an element, are those of the build.
(`block_op` panics on an index behind the view; from one in the view, `index + len - 1` is a word.)
-/

namespace Lamellar.Array

/-- An access to `len` elements from position `offset` on, in the memory region of `pe`. -/
structure Access where
  pe : ℕ
  offset : ℕ
  len : ℕ
  deriving DecidableEq, Repr

/-- What a call or a message does to the memory of the array -/
structure Task where
  accesses : List Access
  panicked : Bool
  deriving DecidableEq, Repr

def Task.panic : Task := ⟨[], true⟩

def Task.idle : Task := ⟨[], false⟩

/-- What an entry point does on the thread of its caller, and the messages that it launches -/
structure Call where
  own : Task
  launched : List Task
  deriving DecidableEq, Repr

def Call.panic : Call := ⟨.panic, []⟩

/-- The build, `size_of::<T>()`, and the elements in the memory region of a PE -/
structure Machine where
  build : Build
  sizeOf : ℕ
  perPe : ℕ

namespace Machine

variable (m : Machine)

/-- The check of `MemoryRegion`: `(index + data.len()) * size_of::<R>() <= self.num_bytes`;
false where it fails, and where it panics. -/
def passes (offset len : ℕ) : Bool :=
  match (m.build.result (offset + len)).bind fun stop => m.build.result (stop * m.sizeOf) with
  | some bytes => bytes ≤ m.perPe * m.sizeOf
  | none => false

/-- One access after the other -/
def transfers : List Access → Task
  | [] => .idle
  | x :: xs =>
    if m.passes x.offset x.len then
      let rest := transfers xs
      ⟨x :: rest.accesses, rest.panicked⟩
    else .panic

end Machine

/-! ## The memory of the array -/

/-- The array is in memory: `sizeOf` and `perPe` are those of the calls with data, and the bytes of
a region are a word. -/
structure Machine.Describes {T : Type} (m : Machine) (env : UnsafeArrayInner.Env T)
    (r : MemoryRegion T) : Prop where
  sizeOf : m.sizeOf = env.sizeOf
  perPe : m.perPe = r.perPe
  size_pos : 0 < m.sizeOf
  bytes : m.perPe * m.sizeOf < word

namespace UnsafeArrayInner

/-- The entry points -/
inductive Path where
  | read (path : ReadPath)
  | write (path : WritePath)

/-! ## Messages -/

/-- `exec` of `UnsafePutAm`, `UnsafeSmallPutAm` and `UnsafeRemoteSmallGetAm`, on `pe` -/
def message (m : Machine) (a : UnsafeArrayInner) (pe index n : ℕ) : Task :=
  match (a.onPe pe).localElementsForRange index n with
  | some (some ((start, stop), _)) => m.transfers [⟨pe, start, stop - start⟩]
  | some none => .idle
  | none => .panic

/-- The PEs that `InitSmallGetAm` asks, on a cyclic distribution: `pes_for_range` from
`global_start` on, up to `global_start + len - 1`. -/
def cyclicPes (build : Build) (a : UnsafeArrayInner) (globalStart n : ℕ) : Option (List ℕ) := do
  let globalEnd ← build.sub (← build.result (globalStart + n)) 1
  some (((List.range' globalStart (globalEnd + 1 - globalStart)).map (· % a.numPes)).take a.numPes)

/-- `InitSmallGetAm`, and the messages that it sends -/
def smallGet (m : Machine) (a : UnsafeArrayInner) (index n : ℕ) : List Task :=
  match a.distribution with
  | .block => (a.pesForRange index n).map fun pe => a.message m pe index n
  | .cyclic =>
    match (m.build.result (index + a.offset)).bind fun g => a.cyclicPes m.build g n with
    | some pes => pes.map fun pe => a.message m pe index n
    | none => [.panic]

/-! ## Calls -/

def blockOp (m : Machine) (a : UnsafeArrayInner) (path : Path) (index n : ℕ) : Call :=
  let access (p : BlockPiece) : Access := ⟨p.pe, p.offset, p.len⟩
  match a.blockPieces index n with
  | none => .panic
  | some pieces =>
    match path with
    | .write .putUnchecked | .read .getUnchecked | .read .blockingGet =>
      ⟨m.transfers (pieces.map access), []⟩
    | .write .put => ⟨.idle, pieces.map fun p => a.message m p.pe index n⟩
    | .read .get => ⟨.idle, pieces.map fun p => m.transfers [access p]⟩

def cyclicOp (m : Machine) (a : UnsafeArrayInner) (path : Path) (index n : ℕ) : Call :=
  match m.build.result (index + a.offset) with
  | none => .panic
  | some globalIndex =>
    let turns := cyclicLoop a.numPes globalIndex (List.range (min n a.numPes)) 0
    let get (t : CyclicTurn) : Access := ⟨t.pe, t.offset, a.cyclicNumElems n t.i⟩
    match path with
    | .write .putUnchecked =>
      ⟨m.transfers (turns.map fun t => ⟨t.pe, t.offset, (stepBy t.i n a.numPes).length⟩), []⟩
    | .write .put => ⟨.idle, turns.map fun t => a.message m t.pe index n⟩
    | .read .blockingGet => ⟨m.transfers (turns.map get), []⟩
    | .read .getUnchecked =>
      ⟨m.transfers ((List.range n).map fun i =>
        ⟨(index + i) % a.numPes, (index + i) / a.numPes, 1⟩), []⟩
    | .read .get => ⟨.idle, turns.map fun t => m.transfers [get t]⟩

def op (m : Machine) (a : UnsafeArrayInner) (path : Path) (index n : ℕ) : Call :=
  match a.distribution with
  | .block => a.blockOp m path index n
  | .cyclic => a.cyclicOp m path index n

/-- The call for `n` elements from `index` on -/
def call (m : Machine) (a : UnsafeArrayInner) (path : Path) (index n : ℕ) : Call :=
  match path with
  | .read .get =>
    if batchAmSize < n * m.sizeOf then a.op m path index n else ⟨.idle, a.smallGet m index n⟩
  | .read .getUnchecked | .read .blockingGet | .write _ => a.op m path index n

/-- The entry point panics, and no element is read or written. -/
structure Rejected (c : Call) : Prop where
  panicked : c.own.panicked = true
  accesses : c.own.accesses = []
  launched : ∀ t ∈ c.launched, t.accesses = []

variable {a : UnsafeArrayInner} {m : Machine} {len index n : ℕ}

/-! ## Rejected calls -/

theorem rejected_panic : Rejected .panic := ⟨rfl, rfl, fun _ ht => (List.not_mem_nil ht).elim⟩

theorem not_rejected_idle (launched : List Task) : ¬ Rejected ⟨.idle, launched⟩ :=
  fun h => nomatch h.panicked

/-- One access after the other is rejected at the first. -/
theorem rejected_transfers {xs : List Access} : Rejected ⟨m.transfers xs, []⟩ ↔
    ∃ x, xs.head? = some x ∧ m.passes x.offset x.len = false := by
  cases xs with
  | nil => exact iff_of_false (not_rejected_idle []) fun ⟨x, hx, _⟩ => nomatch hx
  | cons x xs =>
    simp only [List.head?_cons, Option.some.injEq, exists_eq_left', Machine.transfers]
    cases m.passes x.offset x.len with
    | true => exact iff_of_false (fun h => nomatch h.accesses) (by decide)
    | false => exact iff_of_true rejected_panic rfl

/-! ## What asks for the PEs -/

theorem peForDistIndex_none (hout : a.size < index + n) :
    a.peForDistIndex index = none ∨ a.peForDistIndex (index + n - 1) = none := by
  by_cases hindex : index < a.size
  · exact Or.inr (peForDistIndex_of_le (by omega))
  · exact Or.inl (peForDistIndex_of_le (by omega))

theorem blockPieces_none (hout : a.size < index + n) : a.blockPieces index n = none := by
  rcases peForDistIndex_none hout with hnone | hnone
  · simp [blockPieces, hnone]
  · simp [blockPieces, hnone]

/-! ## When a call is rejected -/

/-- When `block_op` and `cyclic_op` reject a range that ends behind the view. On a cyclic
distribution, the sum of the index panics, or the memory regions refuse what the entry point itself
accesses before anything else. -/
def OpRefuses (m : Machine) (a : UnsafeArrayInner) (path : Path) (index n : ℕ) : Prop :=
  match a.distribution with
  | .block => True
  | .cyclic =>
    match m.build.result (index + a.offset) with
    | none => True
    | some globalIndex =>
      match path with
      | .write .putUnchecked | .read .blockingGet =>
        0 < n ∧ m.passes (globalIndex / a.numPes) (a.cyclicNumElems n 0) = false
      | .read .getUnchecked => 0 < n ∧ m.passes (index / a.numPes) 1 = false
      | .write .put | .read .get => False

/-- The exact condition for a call that is out of range -/
def Refuses (m : Machine) (a : UnsafeArrayInner) (path : Path) (index n : ℕ) : Prop :=
  (path = .read .get → batchAmSize < n * m.sizeOf) ∧ a.OpRefuses m path index n

theorem blockOp_panics (hout : a.size < index + n) (path : Path) :
    a.blockOp m path index n = .panic := by
  rw [blockOp, blockPieces_none hout]

theorem head?_turns (P g n : ℕ) (hP : 0 < P) :
    ((List.range (min n P)).map (cyclicPart P g)).head? =
      if 0 < n then some ⟨0, g % P, g / P⟩ else none := by
  by_cases hn : 0 < n
  · obtain ⟨k, hk⟩ := Nat.exists_eq_succ_of_ne_zero (show min n P ≠ 0 by omega)
    rw [if_pos hn, hk, List.range_succ_eq_map]
    rfl
  · rw [if_neg hn, show min n P = 0 by omega]
    rfl

/-- Turn after turn is rejected at the first. -/
theorem rejected_turns (hP : 0 < a.numPes) {g : ℕ} {access : CyclicTurn → Access} {len : ℕ}
    (hoffset : ∀ t, (access t).offset = t.offset)
    (hlen : ∀ pe offset, (access ⟨0, pe, offset⟩).len = len) :
    Rejected
        ⟨m.transfers (((List.range (min n a.numPes)).map (cyclicPart a.numPes g)).map access), []⟩ ↔
      0 < n ∧ m.passes (g / a.numPes) len = false := by
  rw [rejected_transfers, List.head?_map, head?_turns _ _ _ hP]
  by_cases hn : 0 < n
  · simp [hn, hoffset, hlen]
  · simp [hn]

theorem op_rejected (hP : 0 < a.numPes) (hout : a.size < index + n) (path : Path) :
    Rejected (a.op m path index n) ↔ a.OpRefuses m path index n := by
  rw [op, OpRefuses]
  cases a.distribution with
  | block =>
    dsimp only
    rw [blockOp_panics hout]
    exact iff_of_true rejected_panic trivial
  | cyclic =>
    dsimp only
    rw [cyclicOp]
    cases m.build.result (index + a.offset) with
    | none => exact iff_of_true rejected_panic trivial
    | some g =>
      simp only [cyclicTurns_eq hP]
      rcases path with (_ | _ | _) | (_ | _)
      case write.putUnchecked =>
        refine rejected_turns hP (fun _ => rfl) fun _ _ => ?_
        rw [length_stepBy hP hP, cyclicNumElems, cyclicNumElemsPe, Nat.add_sub_cancel]
      case read.blockingGet => exact rejected_turns hP (fun _ => rfl) fun _ _ => rfl
      case read.getUnchecked =>
        dsimp only
        rw [rejected_transfers]
        cases n with
        | zero => simp
        | succ n => simp [List.range_succ_eq_map]
      case write.put => exact iff_of_false (not_rejected_idle _) id
      case read.get => exact iff_of_false (not_rejected_idle _) id

/-! ## The same calls, with their data -/

variable {T : Type} {r : MemoryRegion T} {env : Env T}

theorem not_fits (hm : m.Describes env r) {offset k : ℕ} (h : m.passes offset k = false) :
    ¬ offset + k ≤ r.perPe := by
  intro hle
  rw [← hm.perPe] at hle
  have hbytes := Nat.mul_le_mul_right m.sizeOf hle
  have hbytes' := Nat.lt_of_le_of_lt hbytes hm.bytes
  have hstop := Nat.lt_of_le_of_lt (Nat.le_mul_of_pos_right (offset + k) hm.size_pos) hbytes'
  simp [Machine.passes, Build.result_of_lt _ hstop, Build.result_of_lt _ hbytes', hbytes] at h

theorem blockingGet_none (hm : m.Describes env r) {offset k : ℕ} (h : m.passes offset k = false)
    (pe : ℕ) : r.blockingGet pe offset k = none :=
  if_neg (not_fits hm h)

theorem foldlM_eq_none {α β : Type} {f : β → α → Option β} {xs : List α} {x : α}
    (hx : xs.head? = some x) {b : β} (h : f b x = none) : xs.foldlM f b = none := by
  cases xs with
  | nil => cases hx
  | cons y ys =>
    cases hx
    rw [List.foldlM_cons, h]
    rfl

theorem cyclicGetTurn_none (hm : m.Describes env r) {t : CyclicTurn} {buf temp : List T}
    (h : m.passes t.offset (a.cyclicNumElems buf.length t.i) = false) :
    a.cyclicGetTurn r temp buf t = none := by
  rw [cyclicGetTurn, blockingGet_none hm h]
  rfl

/-- The turns of a call whose index does not wrap around -/
theorem head?_cyclicTurns (hP : 0 < a.numPes) (hn : 0 < n) :
    (a.cyclicTurns index n).head? =
      some ⟨0, (index + a.offset) % a.numPes, (index + a.offset) / a.numPes⟩ := by
  rw [cyclicTurns, cyclicTurns_eq hP, head?_turns _ _ _ hP, if_pos hn]

/-- Where the call is rejected, the read with its data panics. -/
theorem read_of_rejected (h : a.WellFormed len) (hm : m.Describes env r)
    (hindex : index + a.offset < word) {buf : List T} (hout : a.size < index + buf.length)
    {path : ReadPath} (hrefuses : a.Refuses m (.read path) index buf.length) :
    a.read env path r index buf = none := by
  obtain ⟨hlarge, hop⟩ := hrefuses
  rw [OpRefuses] at hop
  cases hd : a.distribution with
  | block =>
    have hpieces := blockPieces_none hout
    cases path with
    | getUnchecked => simp [read, hd, blockGet, hpieces]
    | blockingGet => simp [read, hd, blockGet, hpieces]
    | get =>
      rw [hm.sizeOf] at hlarge
      simp [read, hd, blockGetAm, hpieces, hlarge rfl]
  | cyclic =>
    simp only [hd, Build.result_of_lt _ hindex] at hop
    cases path with
    | getUnchecked =>
      obtain ⟨hpos, hpass⟩ := hop
      obtain ⟨k, hk⟩ := Nat.exists_eq_succ_of_ne_zero (Nat.ne_of_gt hpos)
      simp only [read, hd, cyclicGetUnchecked]
      refine foldlM_eq_none (x := 0) (by rw [hk, List.range_succ_eq_map]; rfl) ?_
      rw [Nat.add_zero, blockingGet_none hm hpass]
      rfl
    | blockingGet =>
      obtain ⟨hpos, hpass⟩ := hop
      simp only [read, hd, cyclicBlockingGet]
      rw [foldlM_eq_none (head?_cyclicTurns h.pos hpos) (cyclicGetTurn_none hm hpass)]
      rfl
    | get => exact hop.elim

theorem gatherLoop_count {buf : List T} {js : List ℕ} {k k' : ℕ} {temp temp' : List T}
    (h : gatherLoop buf js k temp = some (temp', k')) : k' = k + js.length := by
  induction js generalizing k temp with
  | nil =>
    cases h
    rfl
  | cons j js ih =>
    obtain ⟨data, -, h⟩ := Option.bind_eq_some_iff.mp h
    obtain ⟨temp₁, -, h⟩ := Option.bind_eq_some_iff.mp h
    rw [ih h, List.length_cons]
    omega

theorem cyclicPutTurn_none (hm : m.Describes env r) {t : CyclicTurn} {buf temp : List T}
    (h : m.passes t.offset (stepBy t.i buf.length a.numPes).length = false) :
    a.cyclicPutTurn buf temp r t = none := by
  rw [cyclicPutTurn]
  cases hgather : gatherLoop buf (stepBy t.i buf.length a.numPes) 0 temp with
  | none => rfl
  | some x =>
    obtain ⟨temp', k⟩ := x
    have hk := gatherLoop_count hgather
    rw [Nat.zero_add] at hk
    by_cases hroom : 0 + k ≤ temp'.length
    · have hlen := length_subRegion hroom
      have hput : r.blockingPut t.pe t.offset ((temp'.drop 0).take k) = none :=
        if_neg (by rw [hlen, hk]; exact not_fits hm h)
      simp only [Option.bind_eq_bind, Option.bind_some, subRegion_eq_some hroom, hput,
        Option.bind_none]
    · rw [Nat.zero_add] at hroom
      simp [subRegion, hroom]

/-- Where the call is rejected, the write with its data panics. -/
theorem write_of_rejected (h : a.WellFormed len) (hm : m.Describes env r)
    (hindex : index + a.offset < word) {buf : List T} (hout : a.size < index + buf.length)
    {path : WritePath} (hrefuses : a.Refuses m (.write path) index buf.length) :
    a.write env path r index buf = none := by
  have hop := hrefuses.2
  rw [OpRefuses] at hop
  cases hd : a.distribution with
  | block =>
    have hpieces := blockPieces_none hout
    cases path with
    | putUnchecked => simp [write, hd, blockPut, hpieces]
    | put => simp [write, hd, blockPutAms, hpieces]
  | cyclic =>
    simp only [hd, Build.result_of_lt _ hindex] at hop
    cases path with
    | putUnchecked =>
      obtain ⟨hpos, hpass⟩ := hop
      rw [cyclicNumElems, cyclicNumElemsPe, Nat.add_sub_cancel,
        ← length_stepBy h.pos h.pos] at hpass
      simp only [write, hd, cyclicPut]
      rw [foldlM_eq_none (head?_cyclicTurns h.pos hpos) (cyclicPutTurn_none hm hpass)]
      rfl
    | put => exact hop.elim

/-! ## Calls that end behind the view -/

theorem out_of_range_exact (h : a.WellFormed len) (hout : a.size < index + n) (m : Machine)
    (path : Path) : Rejected (a.call m path index n) ↔ a.Refuses m path index n := by
  have hop := @op_rejected a m index n h.pos hout path
  rcases path with (_ | _ | _) | path
  case read.get =>
    rw [call, Refuses]
    split
    · rename_i hlarge
      rw [hop]
      exact ⟨fun hrefuses => ⟨fun _ => hlarge, hrefuses⟩, fun hrefuses => hrefuses.2⟩
    · rename_i hsmall
      exact iff_of_false (not_rejected_idle _) fun hrefuses => hsmall (hrefuses.1 rfl)
  all_goals
    rw [call, Refuses, hop]
    exact ⟨fun hrefuses => ⟨fun hpath => (nomatch hpath), hrefuses⟩, fun hrefuses => hrefuses.2⟩

/-- Nine elements from index 2 on of the last three of five, on two PEs -/
theorem out_of_range_exact_block : 3 < 2 + 9 ∧
    Rejected ((view 0 2 5 .block 1 3).call ⟨.wrapping, 8, 3⟩ (.write .putUnchecked) 2 9) :=
  ⟨by decide, (out_of_range_exact (view_wellFormed (by decide) (by decide) (by decide)) (by decide)
    ⟨.wrapping, 8, 3⟩ (.write .putUnchecked)).mpr ⟨fun hpath => (nomatch hpath), trivial⟩⟩

/-- Two elements from index 4 on of the first five of ten: `put_unchecked` on the cyclic view
writes both, the second of them behind the view, `put` returns its future, and the small get of
the block view asks no PE. -/
theorem out_of_range_transferred :
    (view 0 2 10 .cyclic 0 5).size < 4 + 2 ∧
      (view 0 2 10 .cyclic 0 5).call ⟨.wrapping, 8, 5⟩ (.write .putUnchecked) 4 2 =
        ⟨⟨[⟨0, 2, 1⟩, ⟨1, 2, 1⟩], false⟩, []⟩ ∧
      (view 0 2 10 .cyclic 0 5).call ⟨.wrapping, 8, 5⟩ (.write .put) 4 2 =
        ⟨.idle, [.panic, .panic]⟩ ∧
      (view 0 2 10 .block 0 5).call ⟨.wrapping, 8, 5⟩ (.read .get) 4 2 = ⟨.idle, []⟩ ∧
      ¬ Rejected ((view 0 2 10 .cyclic 0 5).call ⟨.wrapping, 8, 5⟩ (.write .putUnchecked) 4 2) ∧
      ¬ Rejected ((view 0 2 10 .cyclic 0 5).call ⟨.wrapping, 8, 5⟩ (.write .put) 4 2) ∧
      ¬ Rejected ((view 0 2 10 .block 0 5).call ⟨.wrapping, 8, 5⟩ (.read .get) 4 2) := by
  have hunchecked : (view 0 2 10 .cyclic 0 5).call ⟨.wrapping, 8, 5⟩ (.write .putUnchecked) 4 2 =
      ⟨⟨[⟨0, 2, 1⟩, ⟨1, 2, 1⟩], false⟩, []⟩ := by decide +kernel
  have hput : (view 0 2 10 .cyclic 0 5).call ⟨.wrapping, 8, 5⟩ (.write .put) 4 2 =
      ⟨.idle, [.panic, .panic]⟩ := by decide +kernel
  have hget : (view 0 2 10 .block 0 5).call ⟨.wrapping, 8, 5⟩ (.read .get) 4 2 = ⟨.idle, []⟩ := by
    decide +kernel
  refine ⟨by decide, hunchecked, hput, hget, fun h => ?_, fun h => ?_, fun h => ?_⟩
  · rw [hunchecked] at h
    exact nomatch h.accesses
  · rw [hput] at h
    exact not_rejected_idle _ h
  · rw [hget] at h
    exact not_rejected_idle _ h

end UnsafeArrayInner

end Lamellar.Array
