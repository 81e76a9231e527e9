import Lamellar.CommandQueue.Buffers
import Lamellar.Lib.Wire
import Lamellar.Lib.Word

/-!
# The hashes of commands: `calc_hash` and `CmdMsg::hash` of `src/lamellae/command_queues.rs`

The hash of a command is the sum of its fields. The checksum of its data, one of the fields, is
a sum that wraps around (`calcHashBytes`); the sum of the fields is a plain one, which panics in
a build with overflow checks when it reaches `word` (`CmdMsg.hashIn`). The checksum can be any
word, whatever the address is: whether the sum stays below `word` is up to the data.

Without overflow checks the functions here are those of `CmdMsg` and `CmdMsgBuffer`.
-/

namespace Lamellar.CommandQueue

open Wire

/-! ## The checksum of data -/

/-- `calc_hash` over the bytes at an address: words, and the bytes that are left -/
def calcHashBytes (bs : List UInt8) : UInt64 :=
  let numU64s := bs.length / 8
  let u64s := (List.range numU64s).map fun i => UInt64.ofNat (decodeLe ((bs.drop (8 * i)).take 8))
  let u8s := (bs.drop (numU64s * 8)).map UInt8.toUInt64
  u64s.foldl (· + ·) 0 + u8s.foldl (· + ·) 0

/-- The bytes of words -/
def bytesOfWords (ws : List UInt64) : List UInt8 := ws.flatMap fun w => encodeLe 8 w.toNat

theorem length_bytesOfWords (ws : List UInt64) : (bytesOfWords ws).length = 8 * ws.length := by
  induction ws with
  | nil => rfl
  | cons w ws ih =>
    rw [bytesOfWords] at ih ⊢
    rw [List.flatMap_cons, List.length_append, length_encodeLe, ih, List.length_cons]
    omega

theorem drop_bytesOfWords (ws : List UInt64) (i : ℕ) :
    (bytesOfWords ws).drop (8 * i) = bytesOfWords (ws.drop i) := by
  induction i generalizing ws with
  | zero => rfl
  | succ i ih =>
    cases ws with
    | nil => simp [bytesOfWords]
    | cons w ws =>
      have hcons : bytesOfWords (w :: ws) = encodeLe 8 w.toNat ++ bytesOfWords ws := rfl
      rw [hcons, Nat.mul_succ, Nat.add_comm, ← List.drop_drop,
        List.drop_left' (length_encodeLe 8 w.toNat), ih, List.drop_succ_cons]

theorem word_of_bytesOfWords {ws : List UInt64} {i : ℕ} (hi : i < ws.length) :
    UInt64.ofNat (decodeLe (((bytesOfWords ws).drop (8 * i)).take 8)) = ws[i] := by
  have hcons : bytesOfWords (ws.drop i) =
      encodeLe 8 ws[i].toNat ++ bytesOfWords (ws.drop (i + 1)) := by
    rw [List.drop_eq_getElem_cons hi]
    rfl
  rw [drop_bytesOfWords, hcons, List.take_left' (length_encodeLe 8 _),
    decodeLe_encodeLe (by exact ws[i].toNat_lt), UInt64.ofNat_toNat]

/-- The checksum of words is their sum. -/
theorem calcHashBytes_bytesOfWords (ws : List UInt64) :
    calcHashBytes (bytesOfWords ws) = ws.foldl (· + ·) 0 := by
  have hdiv : (bytesOfWords ws).length / 8 = ws.length := by
    rw [length_bytesOfWords, Nat.mul_div_cancel_left _ (by decide)]
  have hrest : (bytesOfWords ws).drop (ws.length * 8) = [] := by
    rw [Nat.mul_comm, drop_bytesOfWords, List.drop_length]
    rfl
  have hwords : ((List.range ws.length).map fun i =>
      UInt64.ofNat (decodeLe (((bytesOfWords ws).drop (8 * i)).take 8))) = ws := by
    apply List.ext_getElem
    · simp
    · intro i hi hi'
      rw [List.getElem_map, List.getElem_range]
      exact word_of_bytesOfWords hi'
  simp only [calcHashBytes, hdiv, hrest, hwords, List.map_nil, List.foldl_nil, UInt64.add_zero]

/-- Any word is the checksum of some data. -/
theorem exists_calcHashBytes (w : UInt64) : ∃ bs, bs.length = 8 ∧ calcHashBytes bs = w := by
  refine ⟨bytesOfWords [w], length_bytesOfWords [w], ?_⟩
  rw [calcHashBytes_bytesOfWords, List.foldl_cons, List.foldl_nil, UInt64.zero_add]

/-! ## The hash of a command -/

namespace CmdMsg

/-- `hash`, or none where the sum panics. -/
def hashIn (build : Build) (c : CmdMsg) : Option UInt64 := do
  let sum ← build.result (c.daddr.toNat + c.dsize.toNat)
  let sum ← build.result (sum + c.cmd.toUInt64.toNat)
  let sum ← build.result (sum + c.msgHash.toNat)
  let res := UInt64.ofNat sum
  return if res = 0 then 1 else res

/-- `calc_hash` -/
def calcHashIn (build : Build) (c : CmdMsg) : Option CmdMsg := do
  return { c with cmdHash := ← c.hashIn build }

/-- `check_hash` -/
def checkHashIn (build : Build) (c : CmdMsg) : Option Bool := do
  let hash ← c.hashIn build
  return c.cmdHash = hash ∧ c.cmdHash ≠ 0

/-- The test whether a slot is free: `hash() == clear_cmd.hash()` -/
def isClearIn (build : Build) (c : CmdMsg) : Option Bool := do
  let hash ← c.hashIn build
  let clear ← clearCmd.hashIn build
  return hash = clear

/-- The sum that `hash` is made from -/
def sum (c : CmdMsg) : ℕ :=
  c.daddr.toNat + c.dsize.toNat + c.cmd.toUInt64.toNat + c.msgHash.toNat

variable {build : Build} {c c' : CmdMsg}

theorem hash_eq (c : CmdMsg) :
    c.hash = if UInt64.ofNat c.sum = 0 then 1 else UInt64.ofNat c.sum := by
  simp only [hash, sum, UInt64.ofNat_add, UInt64.ofNat_toNat]

theorem hashIn_of_lt (build : Build) (h : c.sum < word) : c.hashIn build = some c.hash := by
  have hle : c.daddr.toNat + c.dsize.toNat + c.cmd.toUInt64.toNat ≤ c.sum := Nat.le_add_right _ _
  have hlt : c.daddr.toNat + c.dsize.toNat + c.cmd.toUInt64.toNat < word := by omega
  rw [hashIn, Build.result_of_lt build (by omega), Option.bind_eq_bind, Option.bind_some,
    Build.result_of_lt build hlt, Option.bind_some, ← sum, Build.result_of_lt build h, hash_eq]
  rfl

theorem checked_hashIn_of_le (h : word ≤ c.sum) : c.hashIn .checked = none := by
  rw [Option.eq_none_iff_forall_ne_some]
  intro hash heq
  simp only [hashIn, Option.bind_eq_bind, Option.bind_eq_some_iff,
    Build.checked_result_eq_some_iff] at heq
  obtain ⟨_, ⟨-, rfl⟩, _, ⟨-, rfl⟩, _, ⟨hlt, -⟩, -⟩ := heq
  exact Nat.not_lt.mpr h hlt

theorem checked_hashIn_ne_none_iff : c.hashIn .checked ≠ none ↔ c.sum < word := by
  constructor
  · intro h
    exact Nat.lt_of_not_le fun hle => h (checked_hashIn_of_le hle)
  · intro h
    rw [hashIn_of_lt .checked h]
    exact Option.some_ne_none _

theorem wrapping_hashIn (c : CmdMsg) : c.hashIn .wrapping = some c.hash := by
  have hmod (n : ℕ) : UInt64.ofNat (n % word) = UInt64.ofNat n := UInt64.ofNat_mod_size
  simp only [hashIn, Build.wrapping_result, Option.bind_eq_bind, Option.bind_some, hmod,
    UInt64.ofNat_add, hash_eq, sum]
  rfl

/-- A hash is the one of a build without overflow checks. -/
theorem hashIn_eq_some {hash : UInt64} (h : c.hashIn build = some hash) : hash = c.hash := by
  cases build with
  | wrapping =>
    rw [wrapping_hashIn] at h
    exact (Option.some.inj h).symm
  | checked =>
    have hlt : c.sum < word := checked_hashIn_ne_none_iff.mp (h ▸ Option.some_ne_none hash)
    rw [hashIn_of_lt .checked hlt] at h
    exact (Option.some.inj h).symm

theorem calcHashIn_eq_some_iff :
    c.calcHashIn build = some c' ↔ c.hashIn build ≠ none ∧ c' = c.calcHash := by
  cases hhash : c.hashIn build with
  | none => simp [calcHashIn, hhash]
  | some hash =>
    cases hashIn_eq_some hhash
    simp [calcHashIn, hhash, CmdMsg.calcHash, eq_comm]

@[simp] theorem calcHash_hash (c : CmdMsg) : c.calcHash.hash = c.hash := rfl

@[simp] theorem hashIn_calcHash (c : CmdMsg) : c.calcHash.hashIn build = c.hashIn build := rfl

/-- What `calc_hash` has stamped passes the check, in any build. -/
theorem checkHashIn_of_calcHashIn (h : c.calcHashIn build = some c') :
    c'.checkHashIn build = some true := by
  obtain ⟨hne, rfl⟩ := calcHashIn_eq_some_iff.mp h
  obtain ⟨hash, hhash⟩ := Option.ne_none_iff_exists'.mp hne
  have hcheck : c.calcHash.checkHash = true := checkHash_of_eq rfl
  cases hashIn_eq_some hhash
  simp only [checkHash, decide_eq_true_eq] at hcheck
  simp only [checkHashIn, hashIn_calcHash, hhash]
  exact congrArg some (decide_eq_true hcheck)

theorem isClearIn_ne_none_iff : c.isClearIn build ≠ none ↔ c.hashIn build ≠ none := by
  have hclear : clearCmd.hashIn build = some clearCmd.hash :=
    hashIn_of_lt build (by decide)
  cases hhash : c.hashIn build <;> simp [isClearIn, hhash, hclear]

/-- A command whose fields have a sum below `word`, and the slot that it is in -/
theorem checked_calcHashIn_of_lt (h : c.sum < word) :
    c.calcHashIn .checked = some c.calcHash ∧ c.calcHash.checkHashIn .checked = some true ∧
      c.calcHash.isClearIn .checked ≠ none := by
  have hne := checked_hashIn_ne_none_iff.mpr h
  have hstamp : c.calcHashIn .checked = some c.calcHash :=
    calcHashIn_eq_some_iff.mpr ⟨hne, rfl⟩
  exact ⟨hstamp, checkHashIn_of_calcHashIn hstamp, isClearIn_ne_none_iff.mpr hne⟩

end CmdMsg

/-! ## Where commands are stamped -/

/-- `push`; none is its panic, or the one of the sum. -/
def CmdBuf.pushIn (build : Build) (mem : Mem) (b : CmdBuf) (daddr dsize hash : UInt64) (k : ℕ) :
    Option (Mem × CmdBuf) :=
  if daddr = 0 ∨ dsize = 0 then none
  else do
    let cmd := { mem b.addr b.index with daddr, dsize, cmd := .tx, msgHash := hash, send := k }
    return (mem.write b.addr b.index (← cmd.calcHashIn build),
      { b with
        index := b.index + 1
        allocatedCnt := if 0 < dsize then b.allocatedCnt + 1 else b.allocatedCnt })

/-- The assignments of `flush_buffer` to a slot, for a buffer at `addr` of `size` bytes, `bs` -/
def txCmdIn (build : Build) (addr size : UInt64) (bs : List UInt8) (slot : CmdMsg) :
    Option CmdMsg :=
  { slot with daddr := addr, dsize := size, cmd := .tx, msgHash := calcHashBytes bs }.calcHashIn
    build

/-- `flush_buffer` -/
def CmdMsgBuffer.flushBufferIn (build : Build) (mem : Mem) (m : CmdMsgBuffer) (slot : CmdMsg) :
    Option (CmdMsgBuffer × CmdMsg) :=
  match m.takeFlush with
  | some (b, m) => do
    let bs := bytesOfWords ((b.cmds mem).flatMap CmdMsg.words)
    return ({ m with txBufs := insert b m.txBufs }, ← txCmdIn build b.addr b.size bs slot)
  | none => some (m, slot)

theorem CmdMsg.wrapping_calcHashIn (c : CmdMsg) : c.calcHashIn .wrapping = some c.calcHash :=
  CmdMsg.calcHashIn_eq_some_iff.mpr ⟨by simp [CmdMsg.wrapping_hashIn], rfl⟩

theorem CmdBuf.wrapping_pushIn (mem : Mem) (b : CmdBuf) (daddr dsize hash : UInt64) (k : ℕ) :
    b.pushIn .wrapping mem daddr dsize hash k = b.push mem daddr dsize hash k := by
  simp only [pushIn, push, CmdMsg.wrapping_calcHashIn]
  rfl

theorem CmdMsgBuffer.wrapping_flushBufferIn (mem : Mem) (m : CmdMsgBuffer) (slot : CmdMsg) :
    m.flushBufferIn .wrapping mem slot = some (m.flushBuffer mem slot) := by
  unfold flushBufferIn flushBuffer
  cases m.takeFlush with
  | none => rfl
  | some taken =>
    simp only [txCmdIn, CmdMsg.wrapping_calcHashIn, calcHashBytes_bytesOfWords]
    rfl

/-- The sum of a `Tx` with the checksum of its data -/
def txSum (daddr dsize : UInt64) (bs : List UInt8) : ℕ :=
  daddr.toNat + dsize.toNat + Cmd.tx.toUInt64.toNat + (calcHashBytes bs).toNat

variable {daddr dsize : UInt64} {bs : List UInt8}

theorem checked_txCmdIn_of_lt (h : txSum daddr dsize bs < word) (slot : CmdMsg) :
    ∃ c, txCmdIn .checked daddr dsize bs slot = some c ∧
      c.checkHashIn .checked = some true ∧ c.isClearIn .checked ≠ none :=
  ⟨_, CmdMsg.checked_calcHashIn_of_lt
    (c := { slot with daddr, dsize, cmd := .tx, msgHash := calcHashBytes bs }) h⟩

theorem checked_pushIn_of_lt (h : txSum daddr dsize bs < word) (hdaddr : daddr ≠ 0)
    (hdsize : dsize ≠ 0) (mem : Mem) (b : CmdBuf) (k : ℕ) :
    ∃ mem' b', b.pushIn .checked mem daddr dsize (calcHashBytes bs) k = some (mem', b') ∧
      (mem' b.addr b.index).checkHashIn .checked = some true := by
  obtain ⟨hstamp, hcheck, -⟩ := CmdMsg.checked_calcHashIn_of_lt (c :=
    { mem b.addr b.index with daddr, dsize, cmd := .tx, msgHash := calcHashBytes bs, send := k }) h
  rw [CmdBuf.pushIn, if_neg (not_or.mpr ⟨hdaddr, hdsize⟩)]
  simp only [hstamp]
  refine ⟨_, _, rfl, ?_⟩
  simp only [Mem.write, Function.update_self]
  exact hcheck

/-- The sum for the buffer that a flush takes: the buffer has an address, a size and a checksum of
its own, that of the commands in it. -/
def CmdMsgBuffer.flushSum (mem : Mem) (m : CmdMsgBuffer) : ℕ :=
  match m.takeFlush with
  | some (b, _) => txSum b.addr b.size (bytesOfWords ((b.cmds mem).flatMap CmdMsg.words))
  | none => 0

/-- The command for the data `bs` at `daddr`, and that for the buffer that `m` flushes, are stamped
in a build with overflow checks, and accepted. -/
structure Hashed (mem : Mem) (m : CmdMsgBuffer) (daddr dsize : UInt64) (bs : List UInt8) :
    Prop where
  push : daddr ≠ 0 → dsize ≠ 0 → ∀ (b : CmdBuf) (k : ℕ), ∃ mem' b',
    b.pushIn .checked mem daddr dsize (calcHashBytes bs) k = some (mem', b') ∧
      (mem' b.addr b.index).checkHashIn .checked = some true
  /-- With the test whether the slot is free, once the command is in it -/
  flush : ∀ slot, ∃ m' c, m.flushBufferIn .checked mem slot = some (m', c) ∧
    (m.takeFlush ≠ none → c.checkHashIn .checked = some true ∧ c.isClearIn .checked ≠ none)

variable {mem : Mem} {m : CmdMsgBuffer}

theorem checked_pushIn_lt {b b' : CmdBuf} {mem' : Mem} {k : ℕ}
    (h : b.pushIn .checked mem daddr dsize (calcHashBytes bs) k = some (mem', b')) :
    txSum daddr dsize bs < word := by
  rw [CmdBuf.pushIn] at h
  split at h
  · cases h
  · obtain ⟨c, hstamp, -⟩ := Option.bind_eq_some_iff.mp h
    exact CmdMsg.checked_hashIn_ne_none_iff.mp (CmdMsg.calcHashIn_eq_some_iff.mp hstamp).1

theorem checked_flushBufferIn_of_lt (h : m.flushSum mem < word) (slot : CmdMsg) :
    ∃ m' c, m.flushBufferIn .checked mem slot = some (m', c) ∧
      (m.takeFlush ≠ none → c.checkHashIn .checked = some true ∧ c.isClearIn .checked ≠ none) := by
  unfold CmdMsgBuffer.flushSum at h
  unfold CmdMsgBuffer.flushBufferIn
  split at h
  · rename_i b m' htake
    obtain ⟨c, hstamp, hcheck⟩ := checked_txCmdIn_of_lt h slot
    simp only [htake, hstamp]
    exact ⟨_, c, rfl, fun _ => hcheck⟩
  · rename_i htake
    simp only [htake]
    exact ⟨m, slot, rfl, fun hne => absurd rfl hne⟩

theorem flushSum_lt {slot : CmdMsg} (h : m.flushBufferIn .checked mem slot ≠ none) :
    m.flushSum mem < word := by
  unfold CmdMsgBuffer.flushSum
  unfold CmdMsgBuffer.flushBufferIn at h
  split
  · rename_i b m' htake
    simp only [htake] at h
    obtain ⟨taken, htaken⟩ := Option.ne_none_iff_exists'.mp h
    obtain ⟨c, hstamp, -⟩ := Option.bind_eq_some_iff.mp htaken
    exact CmdMsg.checked_hashIn_ne_none_iff.mp (CmdMsg.calcHashIn_eq_some_iff.mp hstamp).1
  · decide

theorem hashed_iff (mem : Mem) (m : CmdMsgBuffer) (daddr dsize : UInt64) (bs : List UInt8) :
    (∀ build (c c' : CmdMsg), c.calcHashIn build = some c' →
      c'.checkHashIn build = some true) ∧
    (Hashed mem m daddr dsize bs ↔
      (daddr ≠ 0 → dsize ≠ 0 → txSum daddr dsize bs < word) ∧ m.flushSum mem < word) := by
  refine ⟨fun _ _ _ h => CmdMsg.checkHashIn_of_calcHashIn h, fun h => ⟨?_, ?_⟩, fun h => ?_⟩
  · intro hdaddr hdsize
    obtain ⟨mem', b', hpush, -⟩ := h.push hdaddr hdsize ⟨0, 0, 0⟩ 0
    exact checked_pushIn_lt hpush
  · obtain ⟨m', c, hflush, -⟩ := h.flush CmdMsg.clearCmd
    exact flushSum_lt (hflush ▸ Option.some_ne_none _)
  · obtain ⟨hpush, hflush⟩ := h
    exact {
      push := fun hdaddr hdsize b k =>
        checked_pushIn_of_lt (hpush hdaddr hdsize) hdaddr hdsize mem b k
      flush := checked_flushBufferIn_of_lt hflush }

/-- Eight bytes 0xff at the address 4096. -/
theorem not_hashed_ones : ¬ ∀ mem m daddr dsize bs, Hashed mem m daddr dsize bs := by
  intro h
  have hlt := ((hashed_iff _ _ _ _ _).2.mp
    (h (fun _ _ => CmdMsg.clearCmd) ⟨[], [], [], [], none, 0⟩ 4096 8
      (List.replicate 8 255))).1 (by decide) (by decide)
  revert hlt
  decide +kernel

end Lamellar.CommandQueue
