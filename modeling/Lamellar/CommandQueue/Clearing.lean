import Lamellar.CommandQueue.Slot

/-!
# The slot becomes clear again

While the state of the buffer that the slot names is `Tx`, the receiver has something to do
for it, and each of its steps leaves less work (`Link.work`). After that the sender has to
come to `check_transfer`, and each step of the holder of the lock brings it closer
(`Crit.rank`).
-/

namespace Lamellar.CommandQueue

variable {P : ℕ} {cfg : Config P} {p d : Fin P}

open Transition (Reach Next)

/-! ## The receiver -/

/-- What a fetching task has to do up to its `Release`, and that `Release` on its way. -/
def Fetch.work (f : Fetch) : ℕ :=
  match f.pc with
  | .get => 4
  | .wait _ => 3
  | .release _ => 2
  | .spawn _ | .done | .panicked => 0

def Link.work (l : Link) : ℕ :=
  12 * l.slotPuts.length + (if l.recvSlot.cmd = .tx then 6 else 0) +
    (l.fetches.map Fetch.work).sum + l.statePuts.length

/-- The state of the buffer in `tx_bufs` is not `Tx` any more, or there is none. -/
def Link.Released (l : Link) : Prop :=
  l.sendSlot.cmd = .clear ∨ ∃ b ∈ l.cmdBuffer.txBufs, b.state l.mem ≠ .tx

namespace State

variable {s s' : State P} {a : Action P}

theorem SlotOk.next (h : s.SlotOk cfg) (hstep : s.step cfg a = some s') (hrun : SlotRun s a) :
    Next (State.step cfg) SlotRun s s' ∧ s'.SlotOk cfg :=
  ⟨⟨a, hrun, hstep⟩, h.step hrun (step_cases hstep)⟩

/-- A buffer in use holds the command of a call to another PE. -/
theorem SlotOk.ne_self {b : CmdBuf} (h : s.SlotOk cfg)
    (hb : b ∈ (s.links p d).cmdBuffer.txBufs) : p ≠ d := by
  obtain ⟨stage, hl⟩ := h.delivers.links p d
  have hin := mem_inFlight_of_tx hb
  have hpos := hl.placed.pos b (List.mem_append_right _ hin)
  obtain ⟨t, ht, hholds⟩ := hl.content.held b (mem_used_of_inFlight hin) 0 hpos
  rw [← hholds.pe, ← hholds.dst]
  exact h.remote t (List.mem_of_getElem? ht)

/-- The receiver reads the `Tx` in its slot. -/
theorem SlotOk.poll_tx (h : s.SlotOk cfg) (hpd : p ≠ d)
    (htx : (s.links p d).recvSlot.cmd = .tx) :
    s.step cfg (.poll p d) = some (s.setLink p d { s.links p d with
      recvSlot := (s.links p d).recvSlot.clear
      fetches := (s.links p d).fetches ++ [⟨(s.links p d).recvSlot, .get, 0, []⟩] }) := by
  obtain ⟨stage, hl⟩ := h.delivers.links p d
  have hhash := CmdMsg.checkHash_of_eq (hl.inbox.hash _ List.mem_cons_self)
  obtain ⟨-, b, hb, haddr, -⟩ := hl.inbox.tx _ List.mem_cons_self htx
  have hne : (s.links p d).recvSlot.daddr ≠ 0 := by
    intro hzero
    refine cfg.addrs_ne_zero p d (hl.placed.addrs.mem_iff.mp ?_)
    rw [← hzero, ← haddr]
    exact List.mem_map_of_mem (mem_all_of_used (mem_used_of_inFlight hb))
  simp [State.step, State.poll, hpd, hhash, htx, hne]

/-- A task that has not put `Release` goes on. -/
theorem SlotOk.fetch_goes {j : ℕ} {f : Fetch} (h : s.SlotOk cfg)
    (hf : (s.links p d).fetches[j]? = some f) (hreading : f.reading = true) :
    ∃ s', Next (State.step cfg) SlotRun s s' ∧ s'.SlotOk cfg ∧
      (s'.links p d).work < (s.links p d).work := by
  have hstep : s.step cfg (.fetch p d j) = s.runFetch p d j f := by simp [State.step, hf]
  cases hpc : f.pc with
  | get =>
    simp only [State.runFetch, hpc] at hstep
    obtain ⟨hnext, hok⟩ := h.next hstep ⟨trivial, trivial, trivial⟩
    refine ⟨_, hnext, hok, ?_⟩
    have hset := Roster.sum_map_set Fetch.work { f with
      pc := .wait ((List.range (f.cmd.dsize.toNat / cmdMsgSize)).map
        ((s.links p d).mem f.cmd.daddr)) } hf
    simp only [Fetch.work, hpc] at hset
    simp only [State.setFetch, links_setLink_self, Link.work]
    omega
  | wait data =>
    have hhash := (h.fed p d).wait f (List.mem_of_getElem? hf) data hpc
    simp only [State.runFetch, hpc, hhash, true_or, if_true] at hstep
    obtain ⟨hnext, hok⟩ := h.next hstep ⟨trivial, trivial, trivial⟩
    refine ⟨_, hnext, hok, ?_⟩
    have hset := Roster.sum_map_set Fetch.work { f with pc := .release data } hf
    simp only [Fetch.work, hpc] at hset
    simp only [State.setFetch, links_setLink_self, Link.work]
    omega
  | release data =>
    simp only [State.runFetch, hpc] at hstep
    obtain ⟨hnext, hok⟩ := h.next hstep ⟨trivial, trivial, trivial⟩
    refine ⟨_, hnext, hok, ?_⟩
    have hset := Roster.sum_map_set Fetch.work
      { f with pc := .spawn data, cmdCnt := data.length } hf
    simp only [Fetch.work, hpc] at hset
    simp only [State.setFetch, State.putState, links_setLink_self, Link.work,
      List.length_append, List.length_singleton]
    omega
  | spawn rest => simp [Fetch.reading, hpc] at hreading
  | done => simp [Fetch.reading, hpc] at hreading
  | panicked => simp [Fetch.reading, hpc] at hreading

theorem SlotOk.receive (h : s.SlotOk cfg) (hnot : ¬ (s.links p d).Released) :
    ∃ s', Next (State.step cfg) SlotRun s s' ∧ s'.SlotOk cfg ∧
      (s'.links p d).work < (s.links p d).work := by
  obtain ⟨stage, hl⟩ := h.delivers.links p d
  have hfed := h.fed p d
  obtain ⟨hclear, hstates⟩ := not_or.mp hnot
  have htx : (s.links p d).sendSlot.cmd = .tx :=
    hfed.kind.resolve_left fun hkind => hclear hkind.1
  obtain ⟨-, b, hbufs, -⟩ := hl.slot.tx htx
  have hb : b ∈ (s.links p d).cmdBuffer.txBufs := by simp [hbufs]
  have hstate : b.state (s.links p d).mem = .tx := by
    by_contra hne
    exact hstates ⟨b, hb, hne⟩
  rcases hfed.fed b hb hstate with ⟨c, hc, hcmd, -⟩ | ⟨f, hf, hreading, -⟩ | ⟨x, hx, -⟩
  · by_cases hslot : (s.links p d).recvSlot.cmd = .tx
    · obtain ⟨hnext, hok⟩ := h.next (h.poll_tx (h.ne_self hb) hslot)
        ⟨trivial, trivial, trivial⟩
      refine ⟨_, hnext, hok, ?_⟩
      simp [Link.work, hslot, Fetch.work, CmdMsg.clear, CmdMsg.calcHash]
      omega
    · -- it is still on its way
      cases hputs : (s.links p d).slotPuts with
      | nil =>
        rw [hputs, List.mem_singleton] at hc
        exact absurd (hc ▸ hcmd) hslot
      | cons c' rest =>
        have hstep : s.step cfg (.deliverSlot p d) =
            some (s.setLink p d { s.links p d with recvSlot := c', slotPuts := rest }) := by
          simp [State.step, hputs]
        obtain ⟨hnext, hok⟩ := h.next hstep ⟨trivial, trivial, trivial⟩
        refine ⟨_, hnext, hok, ?_⟩
        simp only [links_setLink_self, Link.work, hputs, hslot, if_false, List.length_cons]
        split <;> omega
  · obtain ⟨j, hj⟩ := List.mem_iff_getElem?.mp hf
    exact h.fetch_goes hj hreading
  · cases hputs : (s.links p d).statePuts with
    | nil => simp [hputs] at hx
    | cons x' rest =>
      have hstep : s.step cfg (.deliverState p d) = some (s.setLink p d { s.links p d with
          mem := (s.links p d).mem.write x'.1 0 { (s.links p d).mem x'.1 0 with cmd := x'.2 }
          statePuts := rest }) := by
        simp [State.step, hputs]
      obtain ⟨hnext, hok⟩ := h.next hstep ⟨trivial, trivial, trivial⟩
      refine ⟨_, hnext, hok, ?_⟩
      simp only [links_setLink_self, Link.work, hputs, List.length_cons]
      omega

end State

/-! ## The sender -/

/-- How far the holder of the lock, or who takes it next, is from `check_transfer`. -/
def rank : Option Crit → ℕ
  | some (.transfer _) => 1
  | none => 2
  | some (.pushed _) | some (.head _) | some (.sent _ _) => 3
  | some (.push _) | some (.flush _) => 4
  | some (.sending _) => 5
  | some (.freeData _ freed) => 6 + freed.length
  | some (.scan _ todo freed) => 7 + 2 * todo.length + freed.length

/-- The slot and its buffer stay, and `check_transfer` is closer. -/
structure Link.Closer (l l' : Link) : Prop where
  slot : l'.sendSlot = l.sendSlot
  tx : l'.cmdBuffer.txBufs = l.cmdBuffer.txBufs
  mem : ∀ b ∈ l.cmdBuffer.txBufs, l'.mem b.addr = l.mem b.addr
  rank : rank l'.crit < rank l.crit

theorem Link.Closer.setCrit {l : Link} {crit : Option Crit} {sendWaiting : Bool}
    (h : CommandQueue.rank crit < CommandQueue.rank l.crit) :
    l.Closer { l with sendWaiting, crit } :=
  ⟨rfl, rfl, fun _ _ => rfl, h⟩

theorem Link.Closer.released {l l' : Link} (h : l.Closer l')
    (hstate : ∃ b ∈ l.cmdBuffer.txBufs, b.state l.mem ≠ .tx) : l'.Released := by
  obtain ⟨b, hb, hne⟩ := hstate
  refine Or.inr ⟨b, h.tx ▸ hb, ?_⟩
  rw [CmdBuf.state, h.mem b hb]
  exact hne

namespace State

variable {s s' : State P}

theorem Next.closer {c c' : Crit} (h : Crit.Next cfg s p d c c') :
    rank (some c') < rank (some c) := by
  cases h <;> simp [rank]
  all_goals omega

theorem SlotOk.crit_closer (h : s.SlotOk cfg) (htx : (s.links p d).sendSlot.cmd = .tx)
    (hstep : Step cfg s (.crit p d) s') : (s.links p d).Closer (s'.links p d) := by
  cases hstep with
  | next hcrit hnext =>
    rw [State.setCrit, links_setLink_self]
    exact .setCrit (by rw [hcrit]; exact Next.closer hnext)
  | @push _ _ k t mem m hcrit ht hpush =>
    obtain ⟨b, hcur, -, heq⟩ | ⟨-, heq⟩ | ⟨-, heq⟩ := tryPush_cases cfg.cmdBufLen
      (s.links p d).mem (s.links p d).cmdBuffer t.addr t.len t.hash k
    all_goals
      rw [hpush] at heq
      cases heq
    simp only [State.setSend, links_setLink_self]
    have hb : b ∈ (s.links p d).cmdBuffer.takeCur.filling := by
      simp [CmdMsgBuffer.filling, hcur]
    refine ⟨rfl, by rw [putCur_txBufs, takeCur_txBufs], fun x hx => ?_, ?_⟩
    · have hin := mem_inFlight_of_tx hx
      rw [← takeCur_inFlight] at hin
      have hne := (h.sound p d).placed.takeCur.filling_ne_inFlight hb hin
      funext i
      exact Mem.write_of_ne (Or.inl hne.symm)
    · simp [rank, hcrit]
  | @pushPanic _ _ k t m hcrit ht hpush =>
    obtain ⟨b, -, -, heq⟩ | ⟨-, heq⟩ | ⟨-, heq⟩ := tryPush_cases cfg.cmdBufLen
      (s.links p d).mem (s.links p d).cmdBuffer t.addr t.len t.hash k
    all_goals
      rw [hpush] at heq
      cases heq
    simp only [State.panicHolder, State.goto, State.setTask, State.panic, links_setLink_self]
    exact ⟨rfl, takeCur_txBufs, fun _ _ => rfl, by simp [rank, hcrit]⟩
  | pushed hcrit =>
    simp only [State.goto, State.setTask, State.setSend, State.setCrit, links_setLink_self]
    exact .setCrit (by simp [rank, hcrit])
  | headEmpty hcrit hempty =>
    simp only [State.goto, State.setTask, links_setLink_self]
    exact .setCrit (by simp [rank, hcrit])
  | scanPanic hcrit hb hcheck =>
    exact absurd hcheck ((h.sound p d).checkFreed (mem_of_lookup hb).1)
  | freeData hcrit hb =>
    rw [links_setLink_self]
    exact ⟨rfl, rfl, fun _ _ => rfl, by simp [rank, hcrit]⟩
  | checked hcrit =>
    rw [State.setCrit, links_setLink_self]
    exact .setCrit (by simp [rank, hcrit])
  | flush hcrit hslot hflush =>
    -- the slot is not clear
    obtain ⟨stage, hl⟩ := h.delivers.links p d
    exact absurd htx (hl.slot_ne_tx hslot)
  | sentFirst hcrit =>
    simp only [State.goto, State.setTask, State.setCrit, links_setLink_self]
    exact .setCrit (by simp [rank, hcrit])
  | sentSecond hcrit =>
    simp only [State.goto, State.setTask, links_setLink_self]
    exact .setCrit (by simp [rank, hcrit])

/-- `check_transfer` finds the buffer that the slot names, and the slot is cleared. -/
theorem SlotOk.transfer_clears {hd : Holder} {b : CmdBuf} (h : s.SlotOk cfg)
    (hcrit : (s.links p d).crit = some (.transfer hd))
    (htx : (s.links p d).sendSlot.cmd = .tx) (hb : b ∈ (s.links p d).cmdBuffer.txBufs)
    (hstate : b.state (s.links p d).mem ≠ .tx) :
    ∃ order s', s.step cfg (.transfer p d order) = some s' ∧
      (s'.links p d).sendSlot.cmd = .clear := by
  obtain ⟨stage, hl⟩ := h.delivers.links p d
  obtain ⟨-, b', hbufs, haddr⟩ := hl.slot.tx htx
  obtain rfl : b = b' := by simpa [hbufs] using hb
  have hlookup : lookup (s.links p d).sendSlot.daddr (s.links p d).cmdBuffer.txBufs = some b := by
    simp [lookup, hbufs, haddr]
  have hcheck : ∃ m, (s.links p d).cmdBuffer.checkTransfer (s.links p d).mem
      (s.links p d).sendSlot.daddr = (m, .ok true) := by
    rcases checkTransfer_cases (s.links p d).mem (s.links p d).cmdBuffer
      (s.links p d).sendSlot.daddr
      with ⟨hnone, -⟩ | ⟨b', hsome, ⟨htx', -⟩ | ⟨-, heq⟩ | ⟨-, m, e, heq⟩⟩
    · simp [hlookup] at hnone
    · obtain rfl : b = b' := by simpa [hlookup] using hsome
      exact absurd htx' hstate
    · exact ⟨_, heq⟩
    · rcases (h.sound p d).checkTransfer with heq' | ⟨_, _, _, heq' | ⟨_, heq'⟩⟩
      all_goals
        rw [heq] at heq'
        cases heq'
  obtain ⟨m, hcheck⟩ := hcheck
  have hstep : s.step cfg (.transfer p d (m.waitingBufs.map CmdBuf.addr)) =
      some (s.setLink p d { s.links p d with
        cmdBuffer := m
        sendSlot := (s.links p d).sendSlot.clear
        crit := some (.scan hd (m.waitingBufs.map CmdBuf.addr) []) }) := by
    simp [State.step, hcrit, State.transfer, hcheck]
  refine ⟨_, _, hstep, ?_⟩
  rw [links_setLink_self]
  rfl

/-- The holder of the lock has a step. -/
theorem SlotOk.crit_step {x : Crit} (h : s.SlotOk cfg) (hcrit : (s.links p d).crit = some x)
    (htransfer : ∀ hd, x ≠ .transfer hd) (hsent : ∀ k, x ≠ .sent (.second k) false) :
    ∃ s', s.step cfg (.crit p d) = some s' := by
  have hstep : s.step cfg (.crit p d) = s.runCrit cfg p d x := by simp [State.step, hcrit]
  rw [hstep]
  cases x with
  | push k =>
    obtain ⟨c, -, hc, -⟩ := TaskInv.holder h.tasks p d (.push k) k hcrit rfl
    obtain ⟨t, ht, -⟩ : ∃ t, s.sends[k]? = some t ∧ t.core = c := by simpa using hc
    simp only [State.runCrit, ht]
    split <;> exact ⟨_, rfl⟩
  | pushed k => exact ⟨_, rfl⟩
  | head k =>
    simp only [State.runCrit]
    split <;> exact ⟨_, rfl⟩
  | transfer hd => exact absurd rfl (htransfer hd)
  | scan hd todo freed =>
    cases todo with
    | nil => exact ⟨_, rfl⟩
    | cons addr todo =>
      simp only [State.runCrit]
      split
      · exact ⟨_, rfl⟩
      · split <;> exact ⟨_, rfl⟩
  | freeData hd freed =>
    cases freed with
    | nil => cases hd <;> exact ⟨_, rfl⟩
    | cons addr freed =>
      simp only [State.runCrit]
      split <;> exact ⟨_, rfl⟩
  | sending hd =>
    simp only [State.runCrit]
    split <;> exact ⟨_, rfl⟩
  | flush hd => exact ⟨_, rfl⟩
  | sent hd result =>
    cases hd with
    | first k => exact ⟨_, rfl⟩
    | second k =>
      cases result with
      | true => exact ⟨_, rfl⟩
      | false => exact absurd rfl (hsent k)
    | recv => exact absurd rfl ((h.fed p d).holder _ hcrit)

theorem SlotOk.exchange_closer {k : ℕ} (h : s.SlotOk cfg)
    (hcrit : (s.links p d).crit = some (.sent (.second k) false)) :
    ∃ s', s.step cfg (.exchange p d false) = some s' ∧
      (s.links p d).Closer (s'.links p d) := by
  obtain ⟨-, task, -, htask, -⟩ := TaskInv.holder h.tasks p d _ k hcrit rfl
  simp only [State.step, hcrit, State.exchange, htask]
  split
  · refine ⟨_, rfl, ?_⟩
    simp only [State.goto, State.setTask, State.setCrit, links_setLink_self]
    exact .setCrit (by simp [rank, hcrit])
  · split
    · refine ⟨_, rfl, ?_⟩
      simp only [State.goto, State.setTask, State.setCrit, links_setLink_self]
      exact .setCrit (by simp [rank, hcrit])
    · refine ⟨_, rfl, ?_⟩
      simp only [State.setTask, links_setLink_self]
      exact .setCrit (by simp [rank, hcrit])

/-- While the slot is not clear, nobody flushes. -/
theorem SlotOk.no_collision (h : s.SlotOk cfg) (htx : (s.links p d).sendSlot.cmd = .tx) :
    SlotRun s (.crit p d) := by
  obtain ⟨stage, hl⟩ := h.delivers.links p d
  have hne := (hl.slot.tx htx).1
  refine ⟨trivial, trivial, ?_⟩
  simp only [NoCollision, State.collides]
  split
  · simp [hne]
  · rfl

/-- The steps that the sender has to make, and none once the slot is clear. -/
def toClear (l : Link) : ℕ := if l.sendSlot.cmd = .clear then 0 else rank l.crit + 1

theorem SlotOk.clear (h : s.SlotOk cfg) (hreleased : (s.links p d).Released)
    (hnot : (s.links p d).sendSlot.cmd ≠ .clear) :
    ∃ s', Next (State.step cfg) SlotRun s s' ∧ (s'.SlotOk cfg ∧ (s'.links p d).Released) ∧
      toClear (s'.links p d) < toClear (s.links p d) := by
  obtain ⟨b, hb, hstate⟩ := hreleased.resolve_left hnot
  have htx : (s.links p d).sendSlot.cmd = .tx :=
    (h.fed p d).kind.resolve_left fun hkind => hnot hkind.1
  have hcloser : ∀ {a s'}, s.step cfg a = some s' → SlotRun s a →
      (s.links p d).Closer (s'.links p d) →
      ∃ s', Next (State.step cfg) SlotRun s s' ∧ (s'.SlotOk cfg ∧ (s'.links p d).Released) ∧
        toClear (s'.links p d) < toClear (s.links p d) := by
    intro a s' hstep hrun hclose
    obtain ⟨hnext, hok⟩ := h.next hstep hrun
    refine ⟨s', hnext, ⟨hok, hclose.released ⟨b, hb, hstate⟩⟩, ?_⟩
    rw [toClear, toClear, hclose.slot, if_neg hnot, if_neg hnot]
    exact Nat.succ_lt_succ hclose.rank
  cases hcrit : (s.links p d).crit with
  | none =>
    have hstep : s.step cfg (.checkTransfers p d) =
        some (s.setCrit p d (some (.transfer .recv))) := by
      simp [State.step, hcrit, h.ne_self hb]
    refine hcloser hstep ⟨trivial, trivial, trivial⟩ ?_
    rw [State.setCrit, links_setLink_self]
    exact .setCrit (by simp [rank, hcrit])
  | some x =>
    by_cases htransfer : ∃ hd, x = .transfer hd
    · obtain ⟨hd, rfl⟩ := htransfer
      obtain ⟨order, s', hstep, hclear⟩ := h.transfer_clears hcrit htx hb hstate
      obtain ⟨hnext, hok⟩ := h.next hstep ⟨trivial, trivial, trivial⟩
      refine ⟨s', hnext, ⟨hok, Or.inl hclear⟩, ?_⟩
      rw [toClear, toClear, if_pos hclear, if_neg hnot]
      exact Nat.succ_pos _
    · by_cases hsent : ∃ k, x = .sent (.second k) false
      · obtain ⟨k, rfl⟩ := hsent
        obtain ⟨s', hstep, hclose⟩ := h.exchange_closer hcrit
        exact hcloser hstep ⟨trivial, trivial, trivial⟩ hclose
      · obtain ⟨s', hstep⟩ := h.crit_step hcrit (fun hd heq => htransfer ⟨hd, heq⟩)
          fun k heq => hsent ⟨k, heq⟩
        exact hcloser hstep (h.no_collision htx) (h.crit_closer htx (step_cases hstep))

theorem SlotOk.exists_clear (h : s.SlotOk cfg) (p d : Fin P) :
    ∃ s', Relation.ReflTransGen (Next (State.step cfg) SlotRun) s s' ∧
      (s'.links p d).sendSlot.cmd = .clear := by
  obtain ⟨s₁, hsteps₁, hreleased⟩ := Transition.exists_goal_of_progress
    (fun s : State P => (s.links p d).work)
    (fun s (hs : s.SlotOk cfg) (hnot : ¬ (s.links p d).Released) => hs.receive hnot) h
  have hok : s₁.SlotOk cfg := Transition.invariant_of_continues
    (fun s a s' hs hrun hstep => SlotOk.step hs hrun (step_cases hstep)) h hsteps₁
  obtain ⟨s₂, hsteps₂, hclear⟩ := Transition.exists_goal_of_progress
    (fun s : State P => toClear (s.links p d))
    (fun s (hs : s.SlotOk cfg ∧ (s.links p d).Released)
      (hnot : ¬ (s.links p d).sendSlot.cmd = .clear) => hs.1.clear hs.2 hnot) ⟨hok, hreleased⟩
  exact ⟨s₂, hsteps₁.trans hsteps₂, hclear⟩

/-! ## No slot is written over -/

/-- The slot stays; or someone with the lock clears it, or finds it with the hash of a clear
slot. -/
def SlotStep (locks : Prop) (l l' : Link) : Prop :=
  l'.sendSlot = l.sendSlot ∨
    locks ∧ (l'.sendSlot.cmd = .clear ∨ l.sendSlot.hash = CmdMsg.clearCmd.hash)

variable {locks : Fin P → Prop}

theorem slotStep_setLink {l : Link} (h : SlotStep (locks p) (s.links p d) l) :
    ∀ p' d', SlotStep (locks p') (s.links p' d') ((s.setLink p d l).links p' d') := by
  intro p' d'
  rw [links_setLink]
  split
  · rename_i heq
    rw [heq.1, heq.2]
    exact h
  · exact Or.inl rfl

theorem slotStep_setLink_same {l : Link} (h : l.sendSlot = (s.links p d).sendSlot) :
    ∀ p' d', SlotStep (locks p') (s.links p' d') ((s.setLink p d l).links p' d') :=
  slotStep_setLink (Or.inl h)

theorem slotStep_panicHolder {hd : Holder} {e : Panic} {s₀ : State P}
    (h : ∀ p d, SlotStep (locks p) (s₀.links p d) (s.links p d)) :
    ∀ p d, SlotStep (locks p) (s₀.links p d) ((s.panicHolder hd e).links p d) := by
  cases hd <;> exact h

theorem slotStep {a : Action P} (hstep : Step cfg s a s') :
    ∀ p d, SlotStep (a.sendBuffer s = some p) (s.links p d) (s'.links p d) := by
  cases hstep with
  | send p d addr len hash => exact fun _ _ => Or.inl rfl
  | start ht htask hpc => exact fun _ _ => Or.inl rfl
  | loop1 ht htask hpc => exact fun _ _ => Or.inl rfl
  | loop2 ht htask hpc => exact fun _ _ => Or.inl rfl
  | lock1 ht htask hpc hcrit => exact slotStep_setLink_same rfl
  | lock2 ht htask hpc hcrit => exact slotStep_setLink_same rfl
  | next hcrit hnext => exact slotStep_setLink_same rfl
  | push hcrit ht hpush => exact slotStep_setLink_same rfl
  | pushPanic hcrit ht hpush => exact slotStep_panicHolder (slotStep_setLink_same rfl)
  | pushed hcrit => exact slotStep_setLink_same rfl
  | headEmpty hcrit hempty => exact slotStep_setLink_same rfl
  | @transfer p d hd order m done hcrit hcheck horder =>
    refine slotStep_setLink ?_
    cases done with
    | true => exact Or.inr ⟨rfl, Or.inl rfl⟩
    | false => exact Or.inl rfl
  | transferPanic hcrit hcheck => exact slotStep_panicHolder (slotStep_setLink_same rfl)
  | scanPanic hcrit hb hcheck => exact slotStep_panicHolder (slotStep_setLink_same rfl)
  | @freeData p d hd addr freed b hcrit hb =>
    have hlinks := (freeCmds_frame s p (b.cmds (s.links p d).mem)).1
    have hset : ∀ p' d', SlotStep (Action.sendBuffer s (.crit p d) = some p')
        ((s.freeCmds p (b.cmds (s.links p d).mem)).links p' d')
        (((s.freeCmds p (b.cmds (s.links p d).mem)).setLink p d { s.links p d with
          cmdBuffer := (s.links p d).cmdBuffer.giveBack b
          crit := some (.freeData hd freed) }).links p' d') :=
      slotStep_setLink_same (by rw [hlinks])
    rw [hlinks] at hset
    exact hset
  | checked hcrit => exact slotStep_setLink_same rfl
  | flush hcrit hslot hflush =>
    exact slotStep_setLink (Or.inr ⟨by simp only [Action.sendBuffer, hcrit], Or.inr hslot⟩)
  | sentFirst hcrit => exact slotStep_setLink_same rfl
  | sentSecond hcrit => exact slotStep_setLink_same rfl
  | goOn hcrit htask hwaiting => exact slotStep_setLink_same rfl
  | exchangeFails hcrit htask hwaiting hflag => exact slotStep_setLink_same rfl
  | exchange hcrit htask hwaiting hflag => exact slotStep_setLink_same rfl
  | checkTransfers hpd hcrit => exact slotStep_setLink_same rfl
  | poll => exact fun _ _ => Or.inl rfl
  | pollTx hcmd => exact slotStep_setLink_same rfl
  | pollPrint hcmd => exact slotStep_setLink_same rfl
  | pollPanic hcmd hne hl =>
    refine slotStep_setLink_same ?_
    rcases hl with rfl | rfl <;> rfl
  | fetchGet hf hpc => exact slotStep_setLink_same rfl
  | fetchWait hf hpc => exact slotStep_setLink_same rfl
  | fetchRelease hf hpc => exact slotStep_setLink_same rfl
  | fetchSpawn hf hpc => exact slotStep_setLink_same rfl
  | fetchPanic hf hpc hsize => exact slotStep_setLink_same rfl
  | fetchDone hf hpc => exact slotStep_setLink_same rfl
  | cmdGet hf hi => exact slotStep_setLink_same rfl
  | cmdSubmit hf hi => exact slotStep_setLink_same rfl
  | cmdCount hf hi => exact slotStep_setLink_same rfl
  | cmdFree hf hi => exact slotStep_setLink_same rfl
  | print hslot hhash hcmd => exact slotStep_setLink (Or.inr ⟨rfl, Or.inr hslot⟩)
  | deliverSlot hputs => exact slotStep_setLink_same rfl
  | deliverState hputs => exact slotStep_setLink_same rfl
  | status p status => exact fun _ _ => Or.inl rfl
  | hold p addr => exact fun _ _ => Or.inl rfl
  | drop hpos => exact fun _ _ => Or.inl rfl

end State

/-! ## The slot and its containers -/

/-- What holds of the slot of PE `p` for `d`, in runs whose steps satisfy `ok`. -/
structure State.SlotKept (cfg : Config P) (ok : State P → Action P → Prop) (s : State P)
    (p d : Fin P) : Prop where
  /-- It is `Clear`, or the `Tx` of the one buffer in `tx_bufs`. -/
  names : (s.links p d).sendSlot.cmd = .clear ∧ (s.links p d).cmdBuffer.txBufs = [] ∨
    (s.links p d).sendSlot.cmd = .tx ∧
      ∃ b, (s.links p d).cmdBuffer.txBufs = [b] ∧ b.addr = (s.links p d).sendSlot.daddr
  /-- The five containers partition the buffers. -/
  partition : ((s.links p d).cmdBuffer.all.map CmdBuf.addr).Perm (cfg.addrs p d)
  numBufs : (s.links p d).cmdBuffer.all.length = (s.links p d).cmdBuffer.numBufs
  /-- The test on the hash holds only for a `Clear` slot. -/
  test : (s.links p d).sendSlot.hash = CmdMsg.clearCmd.hash ↔ (s.links p d).sendSlot.cmd = .clear
  /-- No step writes over a slot that is not `Clear`. -/
  kept : ∀ a s', s.step cfg a = some s' → (s.links p d).sendSlot.cmd ≠ .clear →
    (s'.links p d).sendSlot = (s.links p d).sendSlot ∨ (s'.links p d).sendSlot.cmd = .clear
  /-- Some continuation makes it `Clear`. -/
  clears : ∃ s', Relation.ReflTransGen (Next (State.step cfg) ok) s s' ∧
    (s'.links p d).sendSlot.cmd = .clear

theorem State.SlotOk.slotKept {s : State P} (h : s.SlotOk cfg) (p d : Fin P) :
    s.SlotKept cfg SlotRun p d := by
  obtain ⟨stage, hl⟩ := h.delivers.links p d
  have hkind := (h.fed p d).kind
  have htest : (s.links p d).sendSlot.hash = CmdMsg.clearCmd.hash ↔
      (s.links p d).sendSlot.cmd = .clear := by
    constructor
    · intro hhash
      exact (hkind.resolve_right (hl.slot_ne_tx hhash)).1
    · exact (h.sound p d).clear
  constructor
  case names =>
    rcases hkind with ⟨hclear, -⟩ | htx
    · exact Or.inl ⟨hclear, hl.slot.free (by simp [hclear])⟩
    · exact Or.inr ⟨htx, (hl.slot.tx htx).2⟩
  case partition => exact hl.placed.addrs
  case numBufs =>
    have hlen := hl.placed.addrs.length_eq
    rw [List.length_map] at hlen
    rw [hlen, (h.sound p d).numBufs]
  case test => exact htest
  case kept =>
    intro a s' hstep hnot
    rcases slotStep (step_cases hstep) p d with hsame | ⟨-, hclear | hhash⟩
    · exact Or.inl hsame
    · exact Or.inr hclear
    · exact absurd (htest.mp hhash) hnot
  case clears => exact h.exists_clear p d

/-- In every run without a `Print` and without a `Tx` that passes for a clear slot. -/
theorem State.slotKept_of_run {P : ℕ} {cfg : Config P} {s : State P}
    (hs : Reach (Initial cfg) (State.step cfg) SlotRun s) (p d : Fin P) :
    s.SlotKept cfg SlotRun p d := by
  have hinv : s.SlotOk cfg := by
    refine Reach.invariant (I := fun s => s.SlotOk cfg) ?_ ?_ hs
    · rintro s ⟨mem, rfl⟩
      exact .new
    · intro s a s' h hrun hstep
      exact h.step hrun (step_cases hstep)
  exact hinv.slotKept p d

/-! ## The lock of the slots -/

section Queues

variable {q q' : Queues P}

theorem Queues.step_act {a : Action P} (h : q.step cfg (.act a) = some q') :
    (∀ p, a.sendBuffer q.state = some p → q.deadlocked p = false) ∧
      q.state.step cfg a = some q'.state ∧ q'.deadlocked = q.deadlocked := by
  simp only [Queues.step] at h
  obtain ⟨hfree, h⟩ := Option.ite_none_left_eq_some.mp h
  obtain ⟨s', hs', rfl⟩ := Option.map_eq_some_iff.mp h
  refine ⟨fun p hp => ?_, hs', rfl⟩
  rw [hp, Option.any_some] at hfree
  exact eq_false_of_ne_true hfree

theorem Queues.step_printTimeout {j : ℕ} {i : Option ℕ}
    (h : q.step cfg (.printTimeout p d j i) = some q') :
    q'.state = q.state ∧ ∀ p, q.deadlocked p = true → q'.deadlocked p = true := by
  simp only [Queues.step] at h
  obtain ⟨f, -, h⟩ := Option.bind_eq_some_iff.mp h
  obtain ⟨c, -, h⟩ := Option.bind_eq_some_iff.mp h
  obtain ⟨-, h⟩ := Option.ite_none_right_eq_some.mp h
  cases h
  refine ⟨rfl, fun p hp => ?_⟩
  by_cases hpd : p = d
  · subst hpd
    exact Function.update_self ..
  · exact (Function.update_of_ne hpd ..).trans hp

/-- Whatever happens next, the slots of a PE with a deadlock stay as they are. -/
theorem Queues.slot_stays {ok : Queues P → QueueAction P → Prop}
    (hsteps : Relation.ReflTransGen (Next (Queues.step cfg) ok) q q')
    (hp : q.deadlocked p = true) (d : Fin P) :
    q'.deadlocked p = true ∧
      (q'.state.links p d).sendSlot = (q.state.links p d).sendSlot := by
  induction hsteps with
  | refl => exact ⟨hp, rfl⟩
  | tail _ hnext ih =>
    obtain ⟨hlock, hslot⟩ := ih
    obtain ⟨a, -, hs⟩ := hnext
    cases a with
    | act a =>
      obtain ⟨hfree, hstep, hsame⟩ := Queues.step_act hs
      refine ⟨hsame ▸ hlock, ?_⟩
      rcases State.slotStep (step_cases hstep) p d with hkept | ⟨hlocks, -⟩
      · exact hkept.trans hslot
      · rw [hfree p hlocks] at hlock
        cases hlock
    | printTimeout =>
      obtain ⟨hstate, hkept⟩ := Queues.step_printTimeout hs
      exact ⟨hkept p hlock, hstate ▸ hslot⟩

/-- A `send_print` that runs into the deadlock leaves a slot in use for ever. -/
theorem Queues.never_clear {ok : Queues P → QueueAction P → Prop} (hp : q.deadlocked p = true)
    (hslot : (q.state.links p d).sendSlot.cmd ≠ .clear) :
    ¬ ∃ q', Relation.ReflTransGen (Next (Queues.step cfg) ok) q q' ∧
      (q'.state.links p d).sendSlot.cmd = .clear := by
  rintro ⟨q', hsteps, hclear⟩
  rw [(Queues.slot_stays hsteps hp d).2] at hclear
  exact hslot hclear

/-- The steps of the queues that are steps of the command queues and satisfy `ok` -/
def QueueAction.Only (ok : State P → Action P → Prop) (q : Queues P) : QueueAction P → Prop
  | .act a => ok q.state a
  | .printTimeout .. => False

def QueueAction.Remote : QueueAction P → Prop
  | .act a => a.Remote
  | .printTimeout .. => True

instance (ok : State P → Action P → Prop) [∀ s a, Decidable (ok s a)] (q : Queues P)
    (a : QueueAction P) : Decidable (a.Only ok q) :=
  match a with
  | .act a => inferInstanceAs (Decidable (ok q.state a))
  | .printTimeout .. => isFalse id

instance (a : QueueAction P) : Decidable a.Remote :=
  match a with
  | .act a => inferInstanceAs (Decidable a.Remote)
  | .printTimeout .. => isTrue trivial

/-- Where no `send_print` runs into the deadlock, the queues have the steps of their command
queues. -/
theorem Queues.next_of_next {ok : State P → Action P → Prop} {s s' : State P}
    (h : Next (State.step cfg) ok s s') :
    Next (Queues.step cfg) (fun q a => a.Only ok q) (.ofState s) (.ofState s') := by
  obtain ⟨a, hok, hstep⟩ := h
  refine ⟨.act a, hok, ?_⟩
  have hfree : ¬ ((a.sendBuffer s).any fun _ => false) = true := by simp
  simp only [Queues.step, Queues.ofState, if_neg hfree, hstep, Option.map_some]

theorem Queues.reach_state {ok : State P → Action P → Prop}
    (h : Reach (Queues.Initial cfg) (Queues.step cfg) (fun q a => a.Only ok q) q) :
    Reach (CommandQueue.Initial cfg) (State.step cfg) ok q.state ∧ q = .ofState q.state := by
  induction h with
  | init h =>
    obtain ⟨mem, rfl⟩ := h
    exact ⟨.init ⟨mem, rfl⟩, rfl⟩
  | @step q q' a _ hok hs ih =>
    cases a with
    | act a =>
      obtain ⟨-, hstep, hsame⟩ := Queues.step_act hs
      refine ⟨.step ih.1 hok hstep, ?_⟩
      have hfree : q.deadlocked = fun _ => false := by
        rw [ih.2]
        rfl
      rw [hfree] at hsame
      cases q'
      cases hsame
      rfl
    | printTimeout => exact hok.elim

/-- What holds of the slot of PE `p` for `d`, in runs whose steps satisfy `ok`. -/
structure Queues.SlotKept (cfg : Config P) (ok : Queues P → QueueAction P → Prop) (q : Queues P)
    (p d : Fin P) : Prop where
  /-- It is `Clear`, or the `Tx` of the one buffer in `tx_bufs`. -/
  names : (q.state.links p d).sendSlot.cmd = .clear ∧
      (q.state.links p d).cmdBuffer.txBufs = [] ∨
    (q.state.links p d).sendSlot.cmd = .tx ∧ ∃ b, (q.state.links p d).cmdBuffer.txBufs = [b] ∧
      b.addr = (q.state.links p d).sendSlot.daddr
  /-- The five containers partition the buffers. -/
  partition : ((q.state.links p d).cmdBuffer.all.map CmdBuf.addr).Perm (cfg.addrs p d)
  numBufs : (q.state.links p d).cmdBuffer.all.length = (q.state.links p d).cmdBuffer.numBufs
  /-- The test on the hash holds only for a `Clear` slot. -/
  test : (q.state.links p d).sendSlot.hash = CmdMsg.clearCmd.hash ↔
    (q.state.links p d).sendSlot.cmd = .clear
  /-- No step writes over a slot that is not `Clear`. -/
  kept : ∀ a q', q.step cfg a = some q' → (q.state.links p d).sendSlot.cmd ≠ .clear →
    (q'.state.links p d).sendSlot = (q.state.links p d).sendSlot ∨
      (q'.state.links p d).sendSlot.cmd = .clear
  /-- Some continuation makes it `Clear`. -/
  clears : ∃ q', Relation.ReflTransGen (Next (Queues.step cfg) ok) q q' ∧
    (q'.state.links p d).sendSlot.cmd = .clear

end Queues

/-- In every run without a `send_print` and without a `Tx` that passes for a clear slot. -/
theorem slot_kept (P : ℕ) (cfg : Config P) (q : Queues P)
    (hq : Reach (Queues.Initial cfg) (Queues.step cfg) (fun q a => a.Only SlotRun q) q)
    (p d : Fin P) : q.SlotKept cfg (fun q a => a.Only SlotRun q) p d := by
  obtain ⟨hs, hfree⟩ := Queues.reach_state hq
  have hkept := State.slotKept_of_run hs p d
  obtain ⟨s', hsteps, hclear⟩ := hkept.clears
  refine ⟨hkept.names, hkept.partition, hkept.numBufs, hkept.test, fun a q' hstep hnot => ?_,
    .ofState s', ?_, hclear⟩
  · cases a with
    | act a => exact hkept.kept a q'.state (Queues.step_act hstep).2.1 hnot
    | printTimeout => exact Or.inl (by rw [(Queues.step_printTimeout hstep).1])
  · rw [hfree]
    exact hsteps.lift Queues.ofState fun _ _ => Queues.next_of_next

/-- PE 0 has put a `Tx`, and PE 1 has read it. -/
def fetchingCall : List (Action 2) :=
  [.send 0 1 0x2000008 8 7] ++ pushCall 0 ++ flushCall 0 ++ readSlot

theorem slot_kept_fetching :
    ∃ q : Queues 2, Transition.run
        (Transition.guarded (Queues.step .twoPes) fun q a => a.Only SlotRun q) (.ofState .twoPes)
        (fetchingCall.map .act) = some q ∧ (q.state.links 0 1).sendSlot.cmd = .tx ∧
      q.SlotKept .twoPes (fun q a => a.Only SlotRun q) 0 1 := by
  have hrun : (Transition.run
      (Transition.guarded (Queues.step .twoPes) fun q a => a.Only SlotRun q) (.ofState .twoPes)
      (fetchingCall.map .act)).map (fun q => (q.state.links 0 1).sendSlot.cmd) = some .tx := by
    decide +kernel
  obtain ⟨q, hq, hcmd⟩ := Option.map_eq_some_iff.mp hrun
  exact ⟨q, hq, hcmd, slot_kept 2 .twoPes q (Reach.run_guarded (.init ⟨_, rfl⟩) hq) 0 1⟩

/-- The task of PE 1 runs into its timeout. Its `Print` stays in the slot for PE 0. -/
theorem slot_printed :
    ¬ ∀ (P : ℕ) (cfg : Config P) (q : Queues P),
      Reach (Queues.Initial cfg) (Queues.step cfg) (fun _ a => a.Remote) q → ∀ p d,
      q.SlotKept cfg (fun _ a => a.Remote) p d := by
  intro h
  have hrun : (Transition.run (Transition.guarded (Queues.step .twoPes) fun _ a => a.Remote)
      (.ofState .twoPes) ((fetchingCall ++ [Action.print 0 1 0 none]).map .act)).map
      (fun q => (q.state.links 1 0).sendSlot.cmd) = some .print := by
    decide +kernel
  obtain ⟨q, hq, hcmd⟩ := Option.map_eq_some_iff.mp hrun
  have hkept := h 2 .twoPes q (Reach.run_guarded (.init ⟨_, rfl⟩) hq) 1 0
  rcases hkept.names with ⟨hclear, -⟩ | ⟨htx, -⟩
  · simp [hcmd] at hclear
  · simp [hcmd] at htx

end Lamellar.CommandQueue
