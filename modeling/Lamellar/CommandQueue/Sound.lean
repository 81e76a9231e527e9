import Lamellar.CommandQueue.Tasks

/-!
# What every run keeps

The containers, and the states that the sender sees in its buffers. A state is `Tx` from the
first push on, and the puts of the receiver make it `Release` or `Free`; this holds of all
runs, also of those in which a buffer is fetched twice or a slot is overwritten.
-/

namespace Lamellar.CommandQueue

variable {P : ℕ} {cfg : Config P} {p d : Fin P} {l : Link}

/-- A state of a buffer in use. -/
def Cmd.ofBuffer (c : Cmd) : Prop := c = .tx ∨ c = .release ∨ c = .free

structure Sound (cfg : Config P) (p d : Fin P) (l : Link) : Prop where
  placed : Placed cfg p d l.cmdBuffer
  numBufs : l.cmdBuffer.numBufs = (cfg.addrs p d).length
  slot : l.sendSlot.cmd = .tx → ∃ b ∈ l.cmdBuffer.txBufs, b.addr = l.sendSlot.daddr
  clear : l.sendSlot.cmd = .clear → l.sendSlot.hash = CmdMsg.clearCmd.hash
  state : ∀ b ∈ l.cmdBuffer.used, 0 < b.index → (b.state l.mem).ofBuffer
  waiting : ∀ b ∈ l.cmdBuffer.waitingBufs, b.state l.mem ≠ .tx
  puts : ∀ x ∈ l.statePuts, x.2 = .release ∨ x.2 = .free
  ready : ∀ h, l.crit = some (.flush h) → ∀ b m, l.cmdBuffer.takeFlush = some (b, m) →
    0 < b.index

theorem takeCur_numBufs {m : CmdMsgBuffer} : m.takeCur.numBufs = m.numBufs := by
  unfold CmdMsgBuffer.takeCur
  split <;> rfl

theorem putCur_numBufs {m : CmdMsgBuffer} {b : CmdBuf} :
    (m.putCur cfg.cmdBufLen b).numBufs = m.numBufs := by
  unfold CmdMsgBuffer.putCur
  split <;> rfl

theorem takeFlush_numBufs {m m' : CmdMsgBuffer} {b : CmdBuf} (h : m.takeFlush = some (b, m')) :
    m'.numBufs = m.numBufs := by
  simp only [CmdMsgBuffer.takeFlush] at h
  split at h
  · cases h
    rfl
  · obtain ⟨b', -, heq⟩ := Option.map_eq_some_iff.mp h
    cases heq
    rfl

namespace Sound

theorem setCrit (crit : Option Crit) (h : Sound cfg p d l)
    (hflush : ∀ hd, crit ≠ some (.flush hd)) : Sound cfg p d { l with crit := crit } :=
  { h with ready := fun hd hc => absurd hc (hflush hd) }

theorem setWaiting (sendWaiting : Bool) (h : Sound cfg p d l) :
    Sound cfg p d { l with sendWaiting := sendWaiting } :=
  { h with }

theorem takeCur (crit : Option Crit) (h : Sound cfg p d l)
    (hflush : ∀ hd, crit ≠ some (.flush hd)) :
    Sound cfg p d { l with cmdBuffer := l.cmdBuffer.takeCur, crit := crit } := by
  have hplaced := h.placed.takeCur
  have hnum := (takeCur_numBufs (m := l.cmdBuffer)).trans h.numBufs
  rcases takeCur_cases (m := l.cmdBuffer) with heq | ⟨b, rest, hcur, hempty, heq⟩
  · rw [heq]
    exact h.setCrit crit hflush
  rw [heq] at hplaced hnum ⊢
  have hzero := h.placed.empty b (by simp [hempty])
  exact {
    placed := hplaced
    numBufs := hnum
    slot := h.slot
    clear := h.clear
    state := by
      intro x hx hpos
      refine h.state x ?_ hpos
      simp only [CmdMsgBuffer.used, CmdMsgBuffer.filling, hcur, Option.toList_some,
        Option.toList_none, List.append_nil, List.mem_append, List.mem_singleton] at hx ⊢
      rcases hx with (hx | rfl) | hx
      · exact Or.inl hx
      · omega
      · exact Or.inr hx
    waiting := h.waiting
    puts := h.puts
    ready := fun hd hc => absurd hc (hflush hd) }

theorem push {b : CmdBuf} {c : CmdMsg} (crit : Option Crit) (h : Sound cfg p d l)
    (hcur : l.cmdBuffer.curBuf = some b) (hcmd : c.cmd = .tx)
    (hflush : ∀ hd, crit ≠ some (.flush hd)) :
    Sound cfg p d { l with
      mem := l.mem.write b.addr b.index c
      cmdBuffer := l.cmdBuffer.putCur cfg.cmdBufLen b.next
      crit := crit } := by
  have hb : b ∈ l.cmdBuffer.filling := by simp [CmdMsgBuffer.filling, hcur]
  have hother : ∀ x : CmdBuf, x.addr ≠ b.addr →
      x.state (l.mem.write b.addr b.index c) = x.state l.mem := by
    intro x hne
    rw [CmdBuf.state, CmdBuf.state, Mem.write_of_ne (Or.inl hne)]
  have hflight : ∀ x ∈ l.cmdBuffer.inFlight, x.addr ≠ b.addr := fun x hx =>
    (h.placed.filling_ne_inFlight hb hx).symm
  exact {
    placed := h.placed.putCur hcur
    numBufs := putCur_numBufs.trans h.numBufs
    slot := by
      simp only [putCur_txBufs]
      exact h.slot
    clear := h.clear
    state := by
      intro x hx hpos
      simp only [CmdMsgBuffer.used, putCur_inFlight, List.mem_append, putCur_filling.mem_iff,
        List.mem_cons] at hx
      rcases hx with (rfl | hx) | hx
      · show (l.mem.write b.addr b.index c b.addr 0).cmd.ofBuffer
        by_cases hzero : b.index = 0
        · rw [hzero, Mem.write_self, hcmd]
          exact Or.inl rfl
        · rw [Mem.write_of_ne (Or.inr (Ne.symm hzero))]
          exact h.state b (mem_used_of_filling hb) (Nat.pos_of_ne_zero hzero)
      · rw [hother x (h.placed.full_ne_cur hcur x hx)]
        exact h.state x (mem_used_of_filling (List.mem_append_left _ hx)) hpos
      · rw [hother x (hflight x hx)]
        exact h.state x (mem_used_of_inFlight hx) hpos
    waiting := by
      simp only [putCur_waitingBufs]
      intro x hx
      rw [hother x (hflight x (mem_inFlight_of_waiting hx))]
      exact h.waiting x hx
    puts := h.puts
    ready := fun hd hc => absurd hc (hflush hd) }

/-- `check_transfer` does not panic, and moves the buffer that the slot names or leaves it. -/
theorem checkTransfer (h : Sound cfg p d l) :
    l.cmdBuffer.checkTransfer l.mem l.sendSlot.daddr = (l.cmdBuffer, .ok false) ∨
    ∃ b ∈ l.cmdBuffer.txBufs, b.addr = l.sendSlot.daddr ∧
      (l.cmdBuffer.checkTransfer l.mem l.sendSlot.daddr =
        ({ l.cmdBuffer with txBufs := insert b (remove b.addr l.cmdBuffer.txBufs) }, .ok false) ∨
      b.state l.mem ≠ .tx ∧ l.cmdBuffer.checkTransfer l.mem l.sendSlot.daddr =
        ({ l.cmdBuffer with
          txBufs := remove b.addr l.cmdBuffer.txBufs
          waitingBufs := insert b l.cmdBuffer.waitingBufs }, .ok true)) := by
  rcases checkTransfer_cases l.mem l.cmdBuffer l.sendSlot.daddr with
    ⟨-, heq⟩ | ⟨b, hlookup, ⟨-, heq⟩ | ⟨hstate, heq⟩ | ⟨hbad, -⟩⟩
  · exact Or.inl heq
  · obtain ⟨hb, haddr⟩ := mem_of_lookup hlookup
    exact Or.inr ⟨b, hb, haddr, Or.inl (by rw [haddr, heq])⟩
  · obtain ⟨hb, haddr⟩ := mem_of_lookup hlookup
    exact Or.inr ⟨b, hb, haddr, Or.inr ⟨hstate, by rw [haddr, heq]⟩⟩
  · exfalso
    have hin := mem_inFlight_of_tx (mem_of_lookup hlookup).1
    have hused := mem_used_of_inFlight hin
    have hpos := h.placed.pos b (List.mem_append_right _ hin)
    rcases hbad with hzero | ⟨htx, hrelease, hfree⟩
    · rw [h.placed.cnt b (mem_all_of_used hused)] at hzero
      omega
    · rcases h.state b hused hpos with hstate | hstate | hstate
      · exact htx hstate
      · exact hrelease hstate
      · exact hfree hstate

theorem transfer {m : CmdMsgBuffer} {done : Bool} {crit : Option Crit} (h : Sound cfg p d l)
    (hcheck : l.cmdBuffer.checkTransfer l.mem l.sendSlot.daddr = (m, .ok done))
    (hflush : ∀ hd, crit ≠ some (.flush hd)) :
    Sound cfg p d { l with
      cmdBuffer := m
      sendSlot := if done then l.sendSlot.clear else l.sendSlot
      crit := crit } := by
  rcases h.checkTransfer with heq | ⟨b, hb, haddr, heq | ⟨hstate, heq⟩⟩
  all_goals
    rw [hcheck] at heq
    cases heq
  · exact h.setCrit crit hflush
  · have hmem : ∀ x, x ∈ insert b (remove b.addr l.cmdBuffer.txBufs) ↔
        x ∈ l.cmdBuffer.txBufs := by
      intro x
      rw [insert, remove_eq_self fun x hx => (mem_remove.mp hx).2]
      exact (perm_cons_remove hb h.placed.nodup_tx).symm.mem_iff
    exact {
      placed := h.placed.requeued hb
      numBufs := h.numBufs
      slot := by
        intro hcmd
        obtain ⟨x, hx, hxaddr⟩ := h.slot hcmd
        exact ⟨x, (hmem x).mpr hx, hxaddr⟩
      clear := h.clear
      state := by
        intro x hx
        refine h.state x ?_
        simpa only [CmdMsgBuffer.used, CmdMsgBuffer.inFlight, CmdMsgBuffer.filling,
          List.mem_append, hmem] using hx
      waiting := h.waiting
      puts := h.puts
      ready := fun hd hc => absurd hc (hflush hd) }
  · have hplaced := h.placed.released hb
    exact {
      placed := hplaced
      numBufs := h.numBufs
      slot := by simp [CmdMsg.clear, CmdMsg.calcHash]
      clear := fun _ => rfl
      state := by
        intro x hx
        refine h.state x ?_
        simp only [CmdMsgBuffer.used, CmdMsgBuffer.inFlight, CmdMsgBuffer.filling, insert,
          List.mem_append, mem_remove, List.mem_cons] at hx ⊢
        rcases hx with hx | hx | rfl | hx
        · exact Or.inl hx
        · exact Or.inr (Or.inl hx.1)
        · exact Or.inr (Or.inl hb)
        · exact Or.inr (Or.inr hx.1)
      waiting := by
        intro x hx
        simp only [insert, List.mem_cons, mem_remove] at hx
        rcases hx with rfl | hx
        · exact hstate
        · exact h.waiting x hx.1
      puts := h.puts
      ready := fun hd hc => absurd hc (hflush hd) }

/-- `check_free_data` does not panic. -/
theorem checkFreed {b : CmdBuf} {e : Panic} (h : Sound cfg p d l)
    (hb : b ∈ l.cmdBuffer.waitingBufs) :
    CmdMsgBuffer.checkFreed (b.state l.mem) ≠ .error e := by
  have hin := mem_inFlight_of_waiting hb
  have hpos := h.placed.pos b (List.mem_append_right _ hin)
  rcases h.state b (mem_used_of_inFlight hin) hpos with hstate | hstate | hstate
  · exact absurd hstate (h.waiting b hb)
  all_goals
    rw [hstate]
    simp [CmdMsgBuffer.checkFreed]

theorem gaveBack {b : CmdBuf} {crit : Option Crit} (h : Sound cfg p d l)
    (hb : b ∈ l.cmdBuffer.waitingBufs) (hflush : ∀ hd, crit ≠ some (.flush hd)) :
    Sound cfg p d { l with cmdBuffer := l.cmdBuffer.giveBack b, crit := crit } where
  placed := h.placed.gaveBack hb
  numBufs := h.numBufs
  slot := h.slot
  clear := h.clear
  state := by
    intro x hx
    refine h.state x ?_
    simp only [CmdMsgBuffer.used, CmdMsgBuffer.inFlight, CmdMsgBuffer.filling,
      CmdMsgBuffer.giveBack, List.mem_append, mem_remove] at hx ⊢
    rcases hx with hx | hx | hx
    · exact Or.inl hx
    · exact Or.inr (Or.inl hx)
    · exact Or.inr (Or.inr hx.1)
  waiting := fun x hx => h.waiting x (mem_remove.mp hx).1
  puts := h.puts
  ready := fun hd hc => absurd hc (hflush hd)

theorem flush {m : CmdMsgBuffer} {slot : CmdMsg} {puts : List CmdMsg} {hd : Holder}
    (h : Sound cfg p d l) (hcrit : l.crit = some (.flush hd))
    (hslot : l.cmdBuffer.flushBuffer l.mem l.sendSlot = (m, slot)) :
    Sound cfg p d { l with
      cmdBuffer := m, sendSlot := slot, slotPuts := puts, crit := some (.sent hd true) } := by
  simp only [CmdMsgBuffer.flushBuffer] at hslot
  split at hslot
  · rename_i b m' htake
    cases hslot
    obtain ⟨hplaced, hinsert⟩ := h.placed.flushed htake (h.ready hd hcrit b m' htake)
    obtain ⟨hperm, -, -, hwaiting, -, -⟩ := takeFlush_cases htake
    exact {
      placed := hplaced
      numBufs := (takeFlush_numBufs htake).trans h.numBufs
      slot := fun _ => ⟨b, by simp [insert], rfl⟩
      clear := by simp [CmdMsgBuffer.txCmd, CmdMsg.calcHash]
      state := by
        intro x hx
        refine h.state x ?_
        simp only [CmdMsgBuffer.used, CmdMsgBuffer.inFlight, hinsert, hwaiting, List.mem_append,
          List.mem_cons, hperm.mem_iff] at hx ⊢
        rcases hx with hx | (rfl | hx) | hx
        · exact Or.inl (Or.inr hx)
        · exact Or.inl (Or.inl rfl)
        · exact Or.inr (Or.inl hx)
        · exact Or.inr (Or.inr hx)
      waiting := by
        simp only [hwaiting]
        exact h.waiting
      puts := h.puts
      ready := by simp }
  · cases hslot
    exact { h with ready := by simp }

theorem deliverState {addr : UInt64} {cmd : Cmd} {rest : List (UInt64 × Cmd)}
    (h : Sound cfg p d l) (hputs : l.statePuts = (addr, cmd) :: rest) :
    Sound cfg p d { l with
      mem := l.mem.write addr 0 { l.mem addr 0 with cmd }, statePuts := rest } := by
  have hcmd := h.puts (addr, cmd) (by simp [hputs])
  have hstate : ∀ x : CmdBuf, x.state (l.mem.write addr 0 { l.mem addr 0 with cmd }) = cmd ∨
      x.state (l.mem.write addr 0 { l.mem addr 0 with cmd }) = x.state l.mem := by
    intro x
    by_cases haddr : x.addr = addr
    · left
      rw [CmdBuf.state, haddr, Mem.write_self]
    · right
      rw [CmdBuf.state, CmdBuf.state, Mem.write_of_ne (Or.inl haddr)]
  exact {
    placed := h.placed
    numBufs := h.numBufs
    slot := h.slot
    clear := h.clear
    state := by
      intro x hx hpos
      rcases hstate x with heq | heq
      · rw [heq]
        exact Or.inr hcmd
      · rw [heq]
        exact h.state x hx hpos
    waiting := by
      intro x hx
      rcases hstate x with heq | heq
      · rw [heq]
        rcases hcmd with rfl | rfl <;> simp
      · rw [heq]
        exact h.waiting x hx
    puts := fun x hx => h.puts x (by rw [hputs]; exact List.mem_cons_of_mem _ hx)
    ready := h.ready }

/-- The receiver's side of the link changes. -/
theorem receive {recvSlot : CmdMsg} {fetches : List Fetch} {slotPuts : List CmdMsg}
    {statePuts : List (UInt64 × Cmd)} (h : Sound cfg p d l)
    (hputs : ∀ x ∈ statePuts, x.2 = .release ∨ x.2 = .free) :
    Sound cfg p d { l with recvSlot, fetches, slotPuts, statePuts } :=
  { h with puts := hputs }

theorem putState {recvSlot : CmdMsg} {fetches : List Fetch} {addr : UInt64} {cmd : Cmd}
    (h : Sound cfg p d l) (hcmd : cmd = .release ∨ cmd = .free) :
    Sound cfg p d { l with recvSlot, fetches, statePuts := l.statePuts ++ [(addr, cmd)] } := by
  refine h.receive fun x hx => ?_
  rcases List.mem_append.mp hx with hx | hx
  · exact h.puts x hx
  · rw [List.mem_singleton.mp hx]
    exact hcmd

end Sound

namespace State

variable {s s' : State P} {a : Action P}

def SoundLinks (cfg : Config P) (s : State P) : Prop := ∀ p d, Sound cfg p d (s.links p d)

theorem SoundLinks.setLink (h : s.SoundLinks cfg) (hl : Sound cfg p d l) :
    (s.setLink p d l).SoundLinks cfg := by
  intro p' d'
  rw [links_setLink]
  split
  · rename_i heq
    rw [heq.1, heq.2]
    exact hl
  · exact h p' d'

theorem SoundLinks.next {c c' : Crit} (h : s.SoundLinks cfg) (htasks : s.TaskOk)
    (hnext : Crit.Next cfg s p d c c') : (s.setCrit p d (some c')).SoundLinks cfg := by
  refine h.setLink { h p d with ready := ?_ }
  rintro hd ⟨rfl⟩
  cases hnext with
  | sending hgo => exact htasks.flush_pos (h p d).placed hgo

theorem SoundLinks.push {k : ℕ} {t : Send P} {mem : Mem} {m : CmdMsgBuffer}
    (h : s.SoundLinks cfg)
    (hpush : (s.links p d).cmdBuffer.tryPush cfg.cmdBufLen (s.links p d).mem t.addr t.len
      t.hash k = .pushed mem m) :
    (s.setLink p d { s.links p d with
      mem, cmdBuffer := m, crit := some (.pushed k) }).SoundLinks cfg := by
  obtain ⟨b, hcur, -, heq⟩ | ⟨-, heq⟩ | ⟨-, heq⟩ := tryPush_cases cfg.cmdBufLen
    (s.links p d).mem (s.links p d).cmdBuffer t.addr t.len t.hash k
  all_goals
    rw [hpush] at heq
    cases heq
  have htake := (h p d).takeCur (some (.pushed k)) (by simp)
  exact h.setLink (htake.push (some (.pushed k)) hcur rfl (by simp))

theorem SoundLinks.step (h : s.SoundLinks cfg) (htasks : s.TaskOk) (hstep : Step cfg s a s') :
    s'.SoundLinks cfg := by
  cases hstep with
  | send p d addr len hash => exact h
  | start ht htask hpc => exact h
  | loop1 ht htask hpc => exact h
  | loop2 ht htask hpc => exact h
  | lock1 ht htask hpc hcrit => exact h.setLink ((h _ _).setCrit _ (by simp))
  | lock2 ht htask hpc hcrit => exact h.setLink ((h _ _).setCrit _ (by simp))
  | next hcrit hnext => exact h.next htasks hnext
  | push hcrit ht hpush => exact h.push hpush
  | @pushPanic p d k t m hcrit ht hpush =>
    obtain ⟨b, -, -, heq⟩ | ⟨-, heq⟩ | ⟨-, heq⟩ := tryPush_cases cfg.cmdBufLen
      (s.links p d).mem (s.links p d).cmdBuffer t.addr t.len t.hash k
    all_goals
      rw [hpush] at heq
      cases heq
    exact h.setLink ((h p d).takeCur none (by simp))
  | pushed hcrit => exact h.setLink ((h _ _).setCrit none (by simp))
  | headEmpty hcrit hempty =>
    exact h.setLink (((h _ _).setWaiting false).setCrit none (by simp))
  | transfer hcrit hcheck horder => exact h.setLink ((h _ _).transfer hcheck (by simp))
  | @transferPanic p d _ _ _ _ hcrit hcheck =>
    rcases (h p d).checkTransfer with heq | ⟨b, -, -, heq | ⟨-, heq⟩⟩
    all_goals
      rw [hcheck] at heq
      cases heq
  | scanPanic hcrit hb hcheck => exact absurd hcheck ((h _ _).checkFreed (mem_of_lookup hb).1)
  | @freeData p d hd addr freed b hcrit hb =>
    have hlinks := (freeCmds_frame s p (b.cmds (s.links p d).mem)).1
    refine SoundLinks.setLink ?_ ((h p d).gaveBack (mem_of_lookup hb).1 (by simp))
    intro p' d'
    rw [hlinks]
    exact h p' d'
  | checked hcrit => exact h.setLink ((h _ _).setCrit none (by simp))
  | flush hcrit hslot hflush => exact h.setLink ((h _ _).flush hcrit hflush)
  | sentFirst hcrit => exact h.setLink ((h _ _).setCrit none (by simp))
  | sentSecond hcrit => exact h.setLink (((h _ _).setWaiting false).setCrit none (by simp))
  | goOn hcrit htask hwaiting => exact h.setLink ((h _ _).setCrit none (by simp))
  | exchangeFails hcrit htask hwaiting hflag => exact h.setLink ((h _ _).setCrit none (by simp))
  | exchange hcrit htask hwaiting hflag =>
    exact h.setLink (((h _ _).setWaiting true).setCrit none (by simp))
  | checkTransfers hpd hcrit => exact h.setLink ((h _ _).setCrit _ (by simp))
  | poll => exact h
  | pollTx hcmd => exact h.setLink ((h _ _).receive (h _ _).puts)
  | pollPrint hcmd => exact h.setLink ((h _ _).receive (h _ _).puts)
  | @pollPanic p d l cmd hcmd hne hl =>
    have hset : (s.setLink p d l).SoundLinks cfg := by
      refine h.setLink ?_
      rcases hl with rfl | rfl
      · exact h p d
      · exact (h p d).receive (h p d).puts
    exact hset
  | fetchGet hf hpc => exact h.setLink ((h _ _).receive (h _ _).puts)
  | fetchWait hf hpc => exact h.setLink ((h _ _).receive (h _ _).puts)
  | fetchRelease hf hpc => exact h.setLink ((h _ _).putState (Or.inl rfl))
  | fetchSpawn hf hpc => exact h.setLink ((h _ _).receive (h _ _).puts)
  | fetchPanic hf hpc hsize => exact h.setLink ((h _ _).receive (h _ _).puts)
  | fetchDone hf hpc => exact h.setLink ((h _ _).receive (h _ _).puts)
  | cmdGet hf hi => exact h.setLink ((h _ _).receive (h _ _).puts)
  | cmdSubmit hf hi => exact h.setLink ((h _ _).receive (h _ _).puts)
  | cmdCount hf hi => exact h.setLink ((h _ _).receive (h _ _).puts)
  | cmdFree hf hi => exact h.setLink ((h _ _).putState (Or.inr rfl))
  | @print p d j i slot hslot hhash hcmd =>
    exact h.setLink { h d p with
      slot := by simp [hcmd]
      clear := by simp [hcmd] }
  | deliverSlot hputs => exact h.setLink ((h _ _).receive (h _ _).puts)
  | deliverState hputs => exact h.setLink ((h _ _).deliverState hputs)
  | status p status => exact h
  | hold p addr => exact h
  | drop hpos => exact h

theorem SoundLinks.new {mem : Fin P → Fin P → Mem} : (State.new cfg mem).SoundLinks cfg := by
  intro p d
  exact {
    placed := .new
    numBufs := rfl
    slot := by simp [State.new, Link.new, CmdMsg.clearCmd, CmdMsg.clear, CmdMsg.calcHash]
    clear := fun _ => rfl
    state := by
      intro b hb
      cases hb
    waiting := by
      intro b hb
      cases hb
    puts := by
      intro x hx
      cases hx
    ready := by simp [State.new, Link.new] }

end State

end Lamellar.CommandQueue
