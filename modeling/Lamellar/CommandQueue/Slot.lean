import Lamellar.CommandQueue.Delivery
import Lamellar.CommandQueue.Sound

/-!
# The send slot

The slot for a destination is `Clear`, or it holds the `Tx` of the one buffer in `tx_bufs`.
A `Print` breaks this: `send_print` writes it into the slot, and nothing clears it again. So
does a `Tx` with the hash of a clear slot. In all other runs the slot is cleared in the end:
the `Tx` is on its way to the receiver or in its slot, or a task that fetches its buffer has
`Release` still to put, or `Release` is on its way back (`Fed.fed`); and the bytes that the
task reads have the hash that it waits for (`Fed.get`, `Fed.wait`).
-/

namespace Lamellar.CommandQueue

variable {P : ℕ} {cfg : Config P} {sends : List (Send P)} {p d : Fin P} {l : Link}
  {stage : UInt64 → Stage}

/-- `recv_data` only looks after the transfers; it does not send. -/
def Crit.Sends : Crit → Prop
  | .sending h | .flush h | .sent h _ => h ≠ .recv
  | _ => True

structure Fed (l : Link) : Prop where
  puts : ∀ c ∈ l.slotPuts, c.cmd = .tx
  kind : l.sendSlot.cmd = .clear ∧ l.sendSlot.dsize = 0 ∨ l.sendSlot.cmd = .tx
  fed : ∀ b ∈ l.cmdBuffer.txBufs, b.state l.mem = .tx →
    (∃ c ∈ l.recvSlot :: l.slotPuts, c.cmd = .tx ∧ c.daddr = b.addr) ∨
      (∃ f ∈ l.fetches, f.reading = true ∧ f.cmd.daddr = b.addr) ∨
        ∃ x ∈ l.statePuts, x.1 = b.addr
  inbox : ∀ c ∈ l.recvSlot :: l.slotPuts, c.cmd = .tx → ∀ b ∈ l.cmdBuffer.inFlight,
    b.addr = c.daddr → c.msgHash = calcHash (b.cmds l.mem)
  get : ∀ f ∈ l.fetches, f.pc = .get → ∀ b ∈ l.cmdBuffer.inFlight, b.addr = f.cmd.daddr →
    f.cmd.msgHash = calcHash (b.cmds l.mem)
  wait : ∀ f ∈ l.fetches, ∀ data, f.pc = .wait data → calcHash data = f.cmd.msgHash
  holder : ∀ x, l.crit = some x → x.Sends

namespace Fed

theorem new {addrs : List UInt64} {mem : Mem} : Fed (.new addrs mem) where
  puts := by simp [Link.new]
  kind := Or.inl ⟨rfl, rfl⟩
  fed := by simp [Link.new, CmdMsgBuffer.new]
  inbox := by simp [Link.new, CmdMsgBuffer.new, CmdMsgBuffer.inFlight]
  get := by simp [Link.new]
  wait := by simp [Link.new]
  holder := by simp [Link.new]

/-- The sender moves buffers, and writes none of those in flight. -/
theorem sender {l' : Link} (h : Fed l) (hrecv : l'.recvSlot = l.recvSlot)
    (hputs : l'.slotPuts = l.slotPuts) (hstates : l'.statePuts = l.statePuts)
    (hfetches : l'.fetches = l.fetches)
    (hflight : ∀ b ∈ l'.cmdBuffer.inFlight,
      b ∈ l.cmdBuffer.inFlight ∧ l'.mem b.addr = l.mem b.addr)
    (htx : ∀ b ∈ l'.cmdBuffer.txBufs, b ∈ l.cmdBuffer.txBufs)
    (hkind : l'.sendSlot.cmd = .clear ∧ l'.sendSlot.dsize = 0 ∨ l'.sendSlot.cmd = .tx)
    (hholder : ∀ x, l'.crit = some x → x.Sends) : Fed l' where
  puts := by
    rw [hputs]
    exact h.puts
  kind := hkind
  fed := by
    intro b hb hstate
    rw [hrecv, hputs, hstates, hfetches]
    refine h.fed b (htx b hb) ?_
    rw [← hstate, CmdBuf.state, CmdBuf.state, (hflight b (mem_inFlight_of_tx hb)).2]
  inbox := by
    intro c hc hcmd b hb haddr
    rw [hrecv, hputs] at hc
    rw [CmdBuf.cmds, (hflight b hb).2]
    exact h.inbox c hc hcmd b (hflight b hb).1 haddr
  get := by
    intro f hf hpc b hb haddr
    rw [hfetches] at hf
    rw [CmdBuf.cmds, (hflight b hb).2]
    exact h.get f hf hpc b (hflight b hb).1 haddr
  wait := by
    rw [hfetches]
    exact h.wait
  holder := hholder

theorem setCrit {crit : Option Crit} (h : Fed l) (hholder : ∀ x, crit = some x → x.Sends) :
    Fed { l with crit := crit } :=
  { h with holder := hholder }

theorem unlock {sendWaiting : Bool} (h : Fed l) : Fed { l with sendWaiting, crit := none } :=
  { h with holder := by simp }

theorem push {b : CmdBuf} {c : CmdMsg} {k : ℕ} (h : Fed l)
    (hplaced : Placed cfg p d l.cmdBuffer)
    (hcur : l.cmdBuffer.takeCur.curBuf = some b) :
    Fed { l with
      mem := l.mem.write b.addr b.index c
      cmdBuffer := l.cmdBuffer.takeCur.putCur cfg.cmdBufLen b.next
      crit := some (.pushed k) } := by
  have hb : b ∈ l.cmdBuffer.takeCur.filling := by simp [CmdMsgBuffer.filling, hcur]
  refine h.sender rfl rfl rfl rfl ?_ ?_ h.kind ?_
  · intro x hx
    rw [putCur_inFlight] at hx
    have hne := hplaced.takeCur.filling_ne_inFlight hb hx
    rw [takeCur_inFlight] at hx
    refine ⟨hx, ?_⟩
    funext i
    exact Mem.write_of_ne (Or.inl hne.symm)
  · intro x hx
    rwa [putCur_txBufs, takeCur_txBufs] at hx
  · rintro x ⟨rfl⟩
    trivial

/-- The slot takes the `Tx` of a buffer that holds commands, and it is put. -/
theorem flushed {b : CmdBuf} {m' : CmdMsgBuffer} {hd : Holder} (h : Fed l)
    (hl : LinkInv cfg sends p d l stage) (htx : l.cmdBuffer.txBufs = [])
    (htake : l.cmdBuffer.takeFlush = some (b, m')) (hhd : hd ≠ .recv) :
    Fed { l with
      cmdBuffer := { m' with txBufs := insert b m'.txBufs }
      sendSlot := CmdMsgBuffer.txCmd l.mem b l.sendSlot
      slotPuts := l.slotPuts ++ [CmdMsgBuffer.txCmd l.mem b l.sendSlot]
      crit := some (.sent hd true) } := by
  obtain ⟨hperm, -, htx', hwaiting, -, -⟩ := takeFlush_cases htake
  have hb : b ∈ l.cmdBuffer.filling := hperm.mem_iff.mpr List.mem_cons_self
  have hno := hl.inbox_no_tx htx
  have hin : ∀ x, x ∈ ({ m' with txBufs := insert b m'.txBufs } : CmdMsgBuffer).inFlight →
      x = b ∨ x ∈ l.cmdBuffer.inFlight := by
    intro x hx
    simp only [CmdMsgBuffer.inFlight, insert, htx', htx, hwaiting, remove, List.filter_nil,
      List.mem_append, List.mem_singleton] at hx
    rcases hx with rfl | hx
    · exact Or.inl rfl
    · exact Or.inr (mem_inFlight_of_waiting hx)
  constructor
  case puts =>
    intro c hc
    rcases List.mem_append.mp hc with hc | hc
    · exact h.puts c hc
    · rw [List.mem_singleton.mp hc]
      rfl
  case kind => exact Or.inr rfl
  case fed =>
    intro x hx _
    have hxb : x = b := by simpa [insert, htx', htx, remove] using hx
    refine Or.inl ⟨CmdMsgBuffer.txCmd l.mem b l.sendSlot, by simp, rfl, ?_⟩
    rw [hxb]
    rfl
  case inbox =>
    intro c hc hcmd x hx haddr
    rw [← List.cons_append] at hc
    rcases List.mem_append.mp hc with hc | hc
    · exact absurd hcmd (hno c hc)
    · rw [List.mem_singleton.mp hc] at haddr ⊢
      have hxb : x = b := by
        rcases hin x hx with rfl | hx
        · rfl
        · exact absurd haddr (hl.placed.filling_ne_inFlight hb hx).symm
      rw [hxb]
      rfl
  case get =>
    intro f hf hpc x hx haddr
    rcases hin x hx with rfl | hx
    · -- a task that has not read names a buffer in flight
      have hreading : f.reading = true := by simp [Fetch.reading, hpc]
      obtain ⟨j, hj⟩ := List.mem_iff_getElem?.mp hf
      obtain ⟨-, b', hb', haddr', -⟩ := hl.carried hj (Fetch.closed_of_reading hreading)
      exact absurd (haddr.trans haddr'.symm) (hl.placed.filling_ne_inFlight hb hb')
    · exact h.get f hf hpc x hx haddr
  case wait => exact h.wait
  case holder =>
    rintro x ⟨rfl⟩
    exact hhd

theorem deliverSlot {c : CmdMsg} {rest : List CmdMsg} (h : Fed l)
    (hl : LinkInv cfg sends p d l stage) (hputs : l.slotPuts = c :: rest) :
    Fed { l with recvSlot := c, slotPuts := rest } := by
  have hsub : ∀ x ∈ c :: rest, x ∈ l.recvSlot :: l.slotPuts := by
    intro x hx
    rw [hputs]
    exact List.mem_cons_of_mem _ hx
  exact {
    puts := fun x hx => h.puts x (by rw [hputs]; exact List.mem_cons_of_mem _ hx)
    kind := h.kind
    fed := by
      intro b hb hstate
      refine (h.fed b hb hstate).imp_left ?_
      rintro ⟨x, hx, hcmd, haddr⟩
      rcases List.mem_cons.mp hx with rfl | hx
      · -- there is one `Tx`, so none is written over
        exfalso
        have hone := hl.inbox.one
        have hc : c.cmd = .tx := h.puts c (by simp [hputs])
        simp only [hputs, List.countP_cons, hcmd, hc, decide_true, if_true] at hone
        omega
      · exact ⟨x, hputs ▸ hx, hcmd, haddr⟩
    inbox := fun x hx => h.inbox x (hsub x hx)
    get := h.get
    wait := h.wait
    holder := h.holder }

/-- The slot is read and cleared, and a task for its `Tx` is there. -/
theorem readTx (h : Fed l) (htx : l.recvSlot.cmd = .tx) :
    Fed { l with
      recvSlot := l.recvSlot.clear
      fetches := l.fetches ++ [⟨l.recvSlot, .get, 0, []⟩] } := by
  constructor
  case puts => exact h.puts
  case kind => exact h.kind
  case fed =>
    intro b hb hstate
    rcases h.fed b hb hstate with ⟨c, hc, hcmd, haddr⟩ | ⟨f, hf, hreading, haddr⟩ | hback
    · rcases List.mem_cons.mp hc with rfl | hc
      · exact Or.inr (Or.inl ⟨⟨l.recvSlot, .get, 0, []⟩, by simp, rfl, haddr⟩)
      · exact Or.inl ⟨c, List.mem_cons_of_mem _ hc, hcmd, haddr⟩
    · exact Or.inr (Or.inl ⟨f, List.mem_append_left _ hf, hreading, haddr⟩)
    · exact Or.inr (Or.inr hback)
  case inbox =>
    intro c hc hcmd
    rcases List.mem_cons.mp hc with rfl | hc
    · cases hcmd
    · exact h.inbox c (List.mem_cons_of_mem _ hc) hcmd
  case get =>
    intro f hf hpc b hb haddr
    rcases List.mem_append.mp hf with hf | hf
    · exact h.get f hf hpc b hb haddr
    · rw [List.mem_singleton.mp hf] at haddr ⊢
      exact h.inbox l.recvSlot List.mem_cons_self htx b hb haddr
  case wait =>
    intro f hf data hpc
    rcases List.mem_append.mp hf with hf | hf
    · exact h.wait f hf data hpc
    · rw [List.mem_singleton.mp hf] at hpc
      cases hpc
  case holder => exact h.holder

/-- The slot is read and cleared, without a `Tx` in it. -/
theorem readSlot (h : Fed l) (htx : l.recvSlot.cmd ≠ .tx) :
    Fed { l with recvSlot := l.recvSlot.clear } where
  puts := h.puts
  kind := h.kind
  fed := by
    intro b hb hstate
    refine (h.fed b hb hstate).imp_left ?_
    rintro ⟨c, hc, hcmd, haddr⟩
    rcases List.mem_cons.mp hc with rfl | hc
    · exact absurd hcmd htx
    · exact ⟨c, List.mem_cons_of_mem _ hc, hcmd, haddr⟩
  inbox := by
    intro c hc hcmd
    rcases List.mem_cons.mp hc with rfl | hc
    · cases hcmd
    · exact h.inbox c (List.mem_cons_of_mem _ hc) hcmd
  get := h.get
  wait := h.wait
  holder := h.holder

/-- A task goes on. If it reads no longer, it has put `Release`. -/
theorem setFetch {j : ℕ} {f : Fetch} (f' : Fetch) (puts : List (UInt64 × Cmd)) (h : Fed l)
    (hf : l.fetches[j]? = some f) (hcmd : f'.cmd = f.cmd)
    (hreading : f.reading = true → f'.reading = true ∨ ∃ x ∈ puts, x.1 = f.cmd.daddr)
    (hget : f'.pc ≠ .get) (hwait : ∀ data, f'.pc = .wait data → calcHash data = f.cmd.msgHash) :
    Fed { l with statePuts := l.statePuts ++ puts, fetches := l.fetches.set j f' } where
  puts := h.puts
  kind := h.kind
  fed := by
    obtain ⟨hj, hget⟩ := List.getElem?_eq_some_iff.mp hf
    intro b hb hstate
    rcases h.fed b hb hstate with hin | ⟨g, hg, hgreading, haddr⟩ | ⟨x, hx, haddr⟩
    · exact Or.inl hin
    · obtain ⟨i, hi⟩ := List.mem_iff_getElem?.mp hg
      by_cases hij : j = i
      · subst hij
        obtain rfl : f = g := by simpa [hf] using hi
        rcases hreading hgreading with hread | ⟨x, hx, hxaddr⟩
        · exact Or.inr (Or.inl ⟨f', List.mem_set hj f', hread, hcmd ▸ haddr⟩)
        · exact Or.inr (Or.inr ⟨x, List.mem_append_right _ hx, hxaddr.trans haddr⟩)
      · refine Or.inr (Or.inl ⟨g, List.mem_of_getElem? (i := i) ?_, hgreading, haddr⟩)
        rw [List.getElem?_set_ne hij, hi]
    · exact Or.inr (Or.inr ⟨x, List.mem_append_left _ hx, haddr⟩)
  inbox := h.inbox
  get := by
    intro g hg hpc
    rcases List.mem_or_eq_of_mem_set hg with hg | rfl
    · exact h.get g hg hpc
    · exact absurd hpc hget
  wait := by
    intro g hg data hpc
    rcases List.mem_or_eq_of_mem_set hg with hg | rfl
    · exact h.wait g hg data hpc
    · rw [hcmd]
      exact hwait data hpc
  holder := h.holder

/-- A put arrives at a buffer that nobody reads any more. -/
theorem deliverState {addr : UInt64} {cmd : Cmd} {rest : List (UInt64 × Cmd)} (h : Fed l)
    (hl : LinkInv cfg sends p d l stage) (hsound : Sound cfg p d l)
    (hputs : l.statePuts = (addr, cmd) :: rest) :
    Fed { l with mem := l.mem.write addr 0 { l.mem addr 0 with cmd }, statePuts := rest } := by
  have hcmd : cmd = .release ∨ cmd = .free := hsound.puts (addr, cmd) (by simp [hputs])
  -- a buffer with one state in its trail has no put on its way
  have hne : ∀ b ∈ l.cmdBuffer.inFlight, (stage b.addr).trail l.fetches = [.tx] →
      b.addr ≠ addr := by
    rintro b hb htrail rfl
    have hsuffix := hl.back.suffix b hb
    rw [htrail] at hsuffix
    have hlen := hsuffix.length_le
    simp [backTo, hputs] at hlen
  have hmem : ∀ b : CmdBuf, b.addr ≠ addr →
      b.cmds (l.mem.write addr 0 { l.mem addr 0 with cmd }) = b.cmds l.mem := by
    intro b haddr
    refine List.map_congr_left fun i _ => ?_
    exact Mem.write_of_ne (Or.inl haddr)
  constructor
  case puts => exact h.puts
  case kind => exact h.kind
  case fed =>
    intro b hb hstate
    change b.state (l.mem.write addr 0 { l.mem addr 0 with cmd }) = .tx at hstate
    have haddr : b.addr ≠ addr := by
      rintro rfl
      rw [CmdBuf.state, Mem.write_self] at hstate
      rcases hcmd with hcmd | hcmd <;> simp [hcmd] at hstate
    rw [CmdBuf.state, Mem.write_of_ne (Or.inl haddr)] at hstate
    refine (h.fed b hb hstate).imp_right (Or.imp_right ?_)
    rintro ⟨x, hx, hxaddr⟩
    rw [hputs] at hx
    rcases List.mem_cons.mp hx with rfl | hx
    · exact absurd hxaddr.symm haddr
    · exact ⟨x, hx, hxaddr⟩
  case inbox =>
    intro c hc hctx b hb haddr
    have hsent := (hl.inbox.tx c hc hctx).1
    rw [hmem b (hne b hb (by rw [haddr, hsent]; rfl))]
    exact h.inbox c hc hctx b hb haddr
  case get =>
    intro f hf hpc b hb haddr
    have hreading : f.reading = true := by simp [Fetch.reading, hpc]
    obtain ⟨j, hj⟩ := List.mem_iff_getElem?.mp hf
    obtain ⟨hstage, -⟩ := hl.carried hj (Fetch.closed_of_reading hreading)
    have htrail : (stage b.addr).trail l.fetches = [.tx] := by
      rw [haddr, hstage]
      simp [Stage.trail, hj, Fetch.trail_of_reading hreading]
    rw [hmem b (hne b hb htrail)]
    exact h.get f hf hpc b hb haddr
  case wait => exact h.wait
  case holder => exact h.holder

end Fed

/-! ## Runs -/

/-- A call to the PE itself never comes to the command queue. -/
def Action.Remote : Action P → Prop
  | .send p d .. => p ≠ d
  | _ => True

def Action.Silent : Action P → Prop
  | .print .. => False
  | _ => True

instance : (a : Action P) → Decidable a.Remote
  | .send p d .. => inferInstanceAs (Decidable (p ≠ d))
  | .task .. | .crit .. | .transfer .. | .exchange .. | .checkTransfers .. | .poll .. | .fetch ..
  | .cmd .. | .print .. | .deliverSlot .. | .deliverState .. | .status .. | .hold .. | .drop .. =>
    isTrue trivial

instance : (a : Action P) → Decidable a.Silent
  | .print .. => isFalse id
  | .send .. | .task .. | .crit .. | .transfer .. | .exchange .. | .checkTransfers .. | .poll ..
  | .fetch .. | .cmd .. | .deliverSlot .. | .deliverState .. | .status .. | .hold .. | .drop .. =>
    isTrue trivial

/-- No `send_print` writes a slot, and no `Tx` passes for a clear one. -/
def SlotRun (s : State P) (a : Action P) : Prop := a.Remote ∧ a.Silent ∧ NoCollision s a

instance (s : State P) (a : Action P) : Decidable (SlotRun s a) :=
  inferInstanceAs (Decidable (a.Remote ∧ a.Silent ∧ NoCollision s a))

structure State.SlotOk (cfg : Config P) (s : State P) : Prop where
  tasks : s.TaskOk
  sound : s.SoundLinks cfg
  delivers : s.Delivers cfg
  fed : ∀ p d, Fed (s.links p d)
  remote : ∀ t ∈ s.sends, t.pe ≠ t.dst

namespace State

variable {s s' : State P} {a : Action P}

/-- What a step does to a link, as far as the slot goes. -/
theorem fed_setLink (h : ∀ p d, Fed (s.links p d)) (hl : Fed l) :
    ∀ p' d', Fed ((s.setLink p d l).links p' d') := by
  intro p' d'
  rw [links_setLink]
  split
  · exact hl
  · exact h p' d'

theorem Next.keeps_sends {c c' : Crit} (hnext : Crit.Next cfg s p d c c') (h : c.Sends) :
    c'.Sends := by
  cases hnext with
  | freeEnd hh => exact hh
  | sending hgo => exact h
  | notSending hpending hfull => exact h
  | notClear hslot => exact h
  | _ => trivial

theorem fed_transfer {hd : Holder} {order : List UInt64} {m : CmdMsgBuffer} {done : Bool}
    (h : Fed l) (hsound : Sound cfg p d l)
    (hcheck : l.cmdBuffer.checkTransfer l.mem l.sendSlot.daddr = (m, .ok done)) :
    Fed { l with
      cmdBuffer := m
      sendSlot := if done then l.sendSlot.clear else l.sendSlot
      crit := some (.scan hd order []) } := by
  have hholder : ∀ x, some (Crit.scan hd order []) = some x → x.Sends := by
    rintro x ⟨rfl⟩
    trivial
  rcases hsound.checkTransfer with heq | ⟨b, hb, -, heq | ⟨-, heq⟩⟩
  all_goals
    rw [hcheck] at heq
    cases heq
  · exact h.setCrit hholder
  · have hmem : ∀ x, x ∈ insert b (remove b.addr l.cmdBuffer.txBufs) → x ∈ l.cmdBuffer.txBufs := by
      intro x hx
      simp only [insert, List.mem_cons, mem_remove] at hx
      rcases hx with rfl | hx
      · exact hb
      · exact hx.1.1
    refine h.sender rfl rfl rfl rfl ?_ hmem h.kind hholder
    intro x hx
    refine ⟨?_, rfl⟩
    rcases List.mem_append.mp hx with hx | hx
    · exact mem_inFlight_of_tx (hmem x hx)
    · exact mem_inFlight_of_waiting hx
  · refine h.sender rfl rfl rfl rfl ?_ (fun x hx => (mem_remove.mp hx).1) (Or.inl ⟨rfl, rfl⟩)
      hholder
    intro x hx
    refine ⟨?_, rfl⟩
    simp only [CmdMsgBuffer.inFlight, insert, List.mem_append, List.mem_cons, mem_remove] at hx ⊢
    rcases hx with hx | rfl | hx
    · exact Or.inl hx.1
    · exact Or.inl hb
    · exact Or.inr hx.1

theorem fed_flush {hd : Holder} {m : CmdMsgBuffer} {slot : CmdMsg} (h : Fed l)
    (hl : LinkInv cfg sends p d l stage) (hcrit : l.crit = some (.flush hd))
    (hslot : l.sendSlot.hash = CmdMsg.clearCmd.hash)
    (hflush : l.cmdBuffer.flushBuffer l.mem l.sendSlot = (m, slot)) :
    Fed { l with
      cmdBuffer := m
      sendSlot := slot
      slotPuts := if 0 < slot.dsize then l.slotPuts ++ [slot] else l.slotPuts
      crit := some (.sent hd true) } := by
  have hhd : hd ≠ .recv := h.holder _ hcrit
  have hkind := hl.slot_ne_tx hslot
  simp only [CmdMsgBuffer.flushBuffer] at hflush
  split at hflush
  · rename_i b m' htake
    cases hflush
    have hpos := hl.ready hd hcrit b m' htake
    have hb := (takeFlush_cases htake).1.mem_iff.mpr List.mem_cons_self
    have hle := hl.placed.le b (mem_all_of_used (mem_used_of_filling hb))
    have hsize : 0 < (CmdMsgBuffer.txCmd l.mem b l.sendSlot).dsize := by
      show 0 < b.size
      rw [UInt64.pos_iff_ne_zero]
      intro hzero
      have hindex := size_toNat hle
      rw [hzero] at hindex
      simp at hindex
      omega
    rw [if_pos hsize]
    exact h.flushed hl (hl.slot.free hkind) htake hhd
  · cases hflush
    rw [(h.kind.resolve_right hkind).2, if_neg (by decide)]
    refine h.setCrit ?_
    rintro x ⟨rfl⟩
    exact hhd

/-- The task of a command belongs to a fetching task that reads no longer. -/
theorem SlotOk.fed_task {j i : ℕ} {f : Fetch} {c : CmdMsg} {pc : CmdPc} (h : s.SlotOk cfg)
    (hf : (s.links p d).fetches[j]? = some f) (hi : f.tasks[i]? = some (c, pc)) (f' : Fetch)
    (puts : List (UInt64 × Cmd)) (hcmd : f'.cmd = f.cmd) (hpc : f'.pc = f.pc) :
    Fed { s.links p d with
      statePuts := (s.links p d).statePuts ++ puts
      fetches := (s.links p d).fetches.set j f' } := by
  obtain ⟨stage, hl⟩ := h.delivers.links p d
  have hreading : f.reading = false := by
    by_contra hread
    have hnil := (hl.fetching.ok f (List.mem_of_getElem? hf)).unspawned (by simpa using hread)
    simp [hnil] at hi
  refine (h.fed p d).setFetch f' puts hf hcmd (by simp [hreading]) ?_ ?_
  · rw [hpc]
    intro hget
    simp [Fetch.reading, hget] at hreading
  · intro data hwait
    rw [hpc] at hwait
    simp [Fetch.reading, hwait] at hreading

theorem SlotOk.fed_step (h : s.SlotOk cfg) (hrun : SlotRun s a) (hstep : Step cfg s a s') :
    ∀ p d, Fed (s'.links p d) := by
  have hfed := h.fed
  cases hstep with
  | send p d addr len hash => exact hfed
  | start ht htask hpc => exact hfed
  | loop1 ht htask hpc => exact hfed
  | loop2 ht htask hpc => exact hfed
  | lock1 | lock2 =>
    refine fed_setLink hfed ((hfed _ _).setCrit ?_)
    rintro x ⟨rfl⟩
    trivial
  | next hcrit hnext =>
    refine fed_setLink hfed ((hfed _ _).setCrit ?_)
    rintro x ⟨rfl⟩
    exact Next.keeps_sends hnext ((hfed _ _).holder _ hcrit)
  | @push p d k t mem m hcrit ht hpush =>
    obtain ⟨b, hcur, -, heq⟩ | ⟨-, heq⟩ | ⟨-, heq⟩ := tryPush_cases cfg.cmdBufLen
      (s.links p d).mem (s.links p d).cmdBuffer t.addr t.len t.hash k
    all_goals
      rw [hpush] at heq
      cases heq
    exact fed_setLink hfed ((hfed p d).push (h.sound p d).placed hcur)
  | @pushPanic p d k t m hcrit ht hpush =>
    obtain ⟨b, -, -, heq⟩ | ⟨-, heq⟩ | ⟨-, heq⟩ := tryPush_cases cfg.cmdBufLen
      (s.links p d).mem (s.links p d).cmdBuffer t.addr t.len t.hash k
    all_goals
      rw [hpush] at heq
      cases heq
    refine fed_setLink hfed ((hfed p d).sender rfl rfl rfl rfl ?_ ?_ (hfed p d).kind (by simp))
    · intro x hx
      rw [takeCur_inFlight] at hx
      exact ⟨hx, rfl⟩
    · intro x hx
      rwa [takeCur_txBufs] at hx
  | pushed hcrit => exact fed_setLink hfed ((hfed _ _).setCrit (by simp))
  | headEmpty hcrit hempty => exact fed_setLink hfed (hfed _ _).unlock
  | transfer hcrit hcheck horder =>
    exact fed_setLink hfed (fed_transfer (hfed _ _) (h.sound _ _) hcheck)
  | @transferPanic p d _ _ _ _ hcrit hcheck =>
    rcases (h.sound p d).checkTransfer with heq | ⟨b, -, -, heq | ⟨-, heq⟩⟩
    all_goals
      rw [hcheck] at heq
      cases heq
  | scanPanic hcrit hb hcheck =>
    exact absurd hcheck ((h.sound _ _).checkFreed (mem_of_lookup hb).1)
  | @freeData p d hd addr freed b hcrit hb =>
    have hlinks := (freeCmds_frame s p (b.cmds (s.links p d).mem)).1
    refine fed_setLink ?_ ((hfed p d).sender rfl rfl rfl rfl ?_ (fun x hx => hx) (hfed p d).kind ?_)
    · rw [hlinks]
      exact hfed
    · intro x hx
      refine ⟨?_, rfl⟩
      rcases List.mem_append.mp hx with hx | hx
      · exact mem_inFlight_of_tx hx
      · exact mem_inFlight_of_waiting (mem_remove.mp hx).1
    · rintro x ⟨rfl⟩
      trivial
  | checked hcrit => exact fed_setLink hfed ((hfed _ _).setCrit (by simp))
  | @flush p d hd m slot hcrit hslot hflush =>
    obtain ⟨stage, hl⟩ := h.delivers.links p d
    exact fed_setLink hfed (fed_flush (hfed p d) hl hcrit hslot hflush)
  | sentFirst hcrit => exact fed_setLink hfed ((hfed _ _).setCrit (by simp))
  | sentSecond hcrit => exact fed_setLink hfed (hfed _ _).unlock
  | goOn hcrit htask hwaiting => exact fed_setLink hfed ((hfed _ _).setCrit (by simp))
  | exchangeFails hcrit htask hwaiting hflag =>
    exact fed_setLink hfed ((hfed _ _).setCrit (by simp))
  | exchange hcrit htask hwaiting hflag => exact fed_setLink hfed (hfed _ _).unlock
  | checkTransfers hpd hcrit =>
    refine fed_setLink hfed ((hfed _ _).setCrit ?_)
    rintro x ⟨rfl⟩
    trivial
  | poll => exact hfed
  | pollTx hcmd => exact fed_setLink hfed ((hfed _ _).readTx hcmd)
  | pollPrint hcmd => exact fed_setLink hfed ((hfed _ _).readSlot (by simp [hcmd]))
  | @pollPanic p d l cmd hcmd hne hl =>
    refine fed_setLink hfed ?_
    rcases hl with rfl | rfl
    · exact hfed p d
    · exact (hfed p d).readSlot (by rw [hcmd]; exact hne.2.2)
  | @fetchGet p d j f hf hpc =>
    obtain ⟨stage, hl⟩ := h.delivers.links p d
    have hreading : f.reading = true := by simp [Fetch.reading, hpc]
    obtain ⟨-, b, hb, haddr, hcarries⟩ := hl.carried hf (Fetch.closed_of_reading hreading)
    have hle := hl.placed.le b (mem_all_of_used (mem_used_of_inFlight hb))
    have hset := (hfed p d).setFetch
      { f with pc := .wait ((List.range (f.cmd.dsize.toNat / cmdMsgSize)).map
        ((s.links p d).mem f.cmd.daddr)) } [] hf rfl (fun _ => Or.inl rfl) (by simp) ?_
    · rw [List.append_nil] at hset
      exact fed_setLink hfed hset
    · rintro data ⟨rfl⟩
      rw [hcarries.size, size_toNat hle, ← haddr]
      exact ((hfed p d).get f (List.mem_of_getElem? hf) hpc b hb haddr).symm
  | @fetchWait p d j f data hf hpc =>
    have hset := (hfed p d).setFetch { f with pc := .release data } [] hf rfl
      (fun _ => Or.inl rfl) (by simp) (by simp)
    rw [List.append_nil] at hset
    exact fed_setLink hfed hset
  | @fetchRelease p d j f data hf hpc =>
    exact fed_setLink hfed ((hfed p d).setFetch _ _ hf rfl
      (fun _ => Or.inr ⟨(f.cmd.daddr, .release), by simp, rfl⟩) (by simp) (by simp))
  | @fetchSpawn p d j f c rest hf hpc =>
    have hset := (hfed p d).setFetch { f with pc := .spawn rest, tasks := f.tasks ++ [(c, .get)] }
      [] hf rfl (by simp [Fetch.reading, hpc]) (by simp) (by simp)
    rw [List.append_nil] at hset
    exact fed_setLink hfed hset
  | @fetchPanic p d j f c rest hf hpc hsize =>
    have hset := (hfed p d).setFetch { f with pc := .panicked }
      [] hf rfl (by simp [Fetch.reading, hpc]) (by simp) (by simp)
    rw [List.append_nil] at hset
    exact fed_setLink hfed hset
  | @fetchDone p d j f hf hpc =>
    have hset := (hfed p d).setFetch { f with pc := .done }
      [] hf rfl (by simp [Fetch.reading, hpc]) (by simp) (by simp)
    rw [List.append_nil] at hset
    exact fed_setLink hfed hset
  | @cmdGet p d j i _ f c hf hi =>
    have hset := h.fed_task hf hi { f with tasks := f.tasks.set i (c, .submit) } [] rfl rfl
    rw [List.append_nil] at hset
    exact fed_setLink hfed hset
  | @cmdSubmit p d j i _ f c hf hi =>
    have hset := h.fed_task hf hi { f with tasks := f.tasks.set i (c, .count) } [] rfl rfl
    rw [List.append_nil] at hset
    exact fed_setLink hfed hset
  | @cmdCount p d j i _ f c hf hi =>
    have hset := h.fed_task hf hi { f with
      cmdCnt := f.cmdCnt - 1
      tasks := f.tasks.set i (c, if f.cmdCnt = 1 then .free else .done) } [] rfl rfl
    rw [List.append_nil] at hset
    exact fed_setLink hfed hset
  | @cmdFree p d j i _ f c hf hi =>
    exact fed_setLink hfed (h.fed_task hf hi { f with tasks := f.tasks.set i (c, .done) } _ rfl rfl)
  | print hslot hhash hcmd => exact absurd hrun.2.1 id
  | @deliverSlot p d c rest hputs =>
    obtain ⟨stage, hl⟩ := h.delivers.links p d
    exact fed_setLink hfed ((hfed p d).deliverSlot hl hputs)
  | @deliverState p d addr cmd rest hputs =>
    obtain ⟨stage, hl⟩ := h.delivers.links p d
    exact fed_setLink hfed ((hfed p d).deliverState hl (h.sound p d) hputs)
  | status p status => exact hfed
  | hold p addr => exact hfed
  | drop hpos => exact hfed

theorem SlotOk.remote_step (h : s.SlotOk cfg) (hrun : SlotRun s a) (hstep : Step cfg s a s') :
    ∀ t ∈ s'.sends, t.pe ≠ t.dst := by
  cases hstep with
  | send p d addr len hash =>
    intro t ht
    rcases List.mem_append.mp ht with ht | ht
    · exact h.remote t ht
    · rw [List.mem_singleton.mp ht]
      exact hrun.1
  | @freeData p d hd addr freed b hcrit hb =>
    intro t ht
    obtain ⟨-, -, -, -, -, hcores⟩ := freeCmds_frame s p (b.cmds (s.links p d).mem)
    have hmem : t.core ∈ s.sends.map Send.core := hcores ▸ List.mem_map_of_mem ht
    obtain ⟨t₀, ht₀, heq⟩ := List.mem_map.mp hmem
    have hpe : t₀.pe = t.pe := congrArg Core.pe heq
    have hdst : t₀.dst = t.dst := congrArg Core.dst heq
    rw [← hpe, ← hdst]
    exact h.remote t₀ ht₀
  | start ht htask hpc => exact Roster.forall_modify h.remote fun t ht => ht
  | push hcrit ht hpush => exact Roster.forall_modify h.remote fun t ht => ht
  | pushed hcrit => exact Roster.forall_modify h.remote fun t ht => ht
  | cmdGet hf hi => exact Roster.forall_modify h.remote fun t ht => ht
  | cmdSubmit hf hi => exact Roster.forall_modify h.remote fun t ht => ht
  | @transferPanic p d hd _ _ _ hcrit hcheck => cases hd <;> exact h.remote
  | @scanPanic p d hd _ _ _ _ _ hcrit hb hcheck => cases hd <;> exact h.remote
  | _ => exact h.remote

theorem SlotOk.step (h : s.SlotOk cfg) (hrun : SlotRun s a) (hstep : Step cfg s a s') :
    s'.SlotOk cfg := by
  refine ⟨h.tasks.step hstep, h.sound.step h.tasks hstep,
    h.delivers.step h.tasks hrun.2.2 hstep, ?_, ?_⟩
  · exact h.fed_step hrun hstep
  · exact h.remote_step hrun hstep

theorem SlotOk.new {mem : Fin P → Fin P → Mem} : (State.new cfg mem).SlotOk cfg :=
  ⟨.new, .new, .new, fun _ _ => .new, by simp [State.new]⟩

end State

end Lamellar.CommandQueue
