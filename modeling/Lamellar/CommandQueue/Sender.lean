import Lamellar.CommandQueue.Containers

/-!
# The sender's steps on a link

What `check_transfer`, `flush_buffer` and `check_free_data` do to the invariant of a link.
-/

namespace Lamellar.CommandQueue

variable {P : ℕ} {cfg : Config P} {sends : List (Send P)} {p d : Fin P} {l : Link}
  {m : CmdMsgBuffer} {mem : Mem} {stage : UInt64 → Stage}

/-! ## Content -/

theorem Send.Holds.congr {t : Send P} {c c' : CmdMsg} {counts counts' : ℕ × ℕ}
    (h : t.Holds p d c counts) (hbody : c'.body = c.body) (hcounts : counts' = counts) :
    t.Holds p d c' counts' := by
  simp only [CmdMsg.body, Prod.mk.injEq] at hbody
  exact {
    pe := h.pe
    dst := h.dst
    addr := h.addr.trans hbody.1.symm
    len := h.len.trans hbody.2.1.symm
    hash := h.hash.trans hbody.2.2.1.symm
    len_ne := h.len_ne
    pushed := h.pushed
    counts := h.counts.trans hcounts.symm
    decremented := h.decremented }

namespace Content

variable {counts counts' : UInt64 → ℕ → ℕ × ℕ} {mem' : Mem} {m' : CmdMsgBuffer}

/-- The commands in the buffers and how far they are stay the same. -/
theorem congr (h : Content sends p d mem m counts)
    (hused : ∀ b, 0 < b.index → (b ∈ m'.used ↔ b ∈ m.used))
    (hmem : ∀ b ∈ m.used, ∀ i < b.index, (mem' b.addr i).body = (mem b.addr i).body)
    (hcounts : ∀ b ∈ m.used, ∀ i < b.index, counts' b.addr i = counts b.addr i) :
    Content sends p d mem' m' counts' := by
  have hsend : ∀ b ∈ m.used, ∀ i < b.index, (mem' b.addr i).send = (mem b.addr i).send :=
    fun b hb i hi => congrArg (fun x => x.2.2.2) (hmem b hb i hi)
  have hheld : ∀ k, Held mem' m' k ↔ Held mem m k := by
    intro k
    constructor
    · rintro ⟨b, hb, i, hi, hk⟩
      have hb' := (hused b (by omega)).mp hb
      exact ⟨b, hb', i, hi, by rw [← hsend b hb' i hi, hk]⟩
    · rintro ⟨b, hb, i, hi, hk⟩
      exact ⟨b, (hused b (by omega)).mpr hb, i, hi, by rw [hsend b hb i hi, hk]⟩
  constructor
  case held =>
    intro b hb i hi
    have hb' := (hused b (by omega)).mp hb
    obtain ⟨t, ht, hholds⟩ := h.held b hb' i hi
    exact ⟨t, by rw [hsend b hb' i hi, ht],
      hholds.congr (hmem b hb' i hi) (hcounts b hb' i hi)⟩
  case inj =>
    intro b hb b' hb' i hi i' hi' hk
    have hb₁ := (hused b (by omega)).mp hb
    have hb₂ := (hused b' (by omega)).mp hb'
    rw [hsend b hb₁ i hi, hsend b' hb₂ i' hi'] at hk
    exact h.inj b hb₁ b' hb₂ i hi i' hi' hk
  case unpushed => exact h.unpushed
  case gone =>
    intro k t ht hpe hdst hpushed hk
    exact h.gone k t ht hpe hdst hpushed fun hold => hk ((hheld k).mpr hold)

end Content

/-! ## States -/

theorem Fetch.mem_trail {f : Fetch} {c : Cmd} (h : c ∈ f.trail) :
    c = .tx ∨ c = .release ∨ c = .free := by
  unfold Fetch.trail at h
  split at h
  · simp_all
  · split at h <;> simp only [List.mem_cons, List.not_mem_nil, or_false] at h <;> grind

theorem Stage.mem_trail {fetches : List Fetch} {st : Stage} {c : Cmd}
    (h : c ∈ st.trail fetches) : c = .tx ∨ c = .release ∨ c = .free := by
  cases st with
  | idle => simp [Stage.trail] at h
  | sent => simp_all [Stage.trail]
  | fetch j =>
    simp only [Stage.trail] at h
    split at h
    · exact Fetch.mem_trail h
    · simp at h

namespace Back

variable {statePuts : List (UInt64 × Cmd)} {fetches : List Fetch} {b : CmdBuf}

/-- The states that the sender sees. -/
theorem state_cases (h : Back mem m stage statePuts fetches) (hb : b ∈ m.inFlight) :
    b.state mem = .tx ∨ b.state mem = .release ∨ b.state mem = .free :=
  Stage.mem_trail ((h.suffix b hb).subset List.mem_cons_self)

theorem state_of_sent (h : Back mem m stage statePuts fetches) (hb : b ∈ m.inFlight)
    (hstage : stage b.addr = .sent) : b.state mem = .tx := by
  have hsuffix := h.suffix b hb
  rw [hstage] at hsuffix
  simp only [Stage.trail, List.suffix_cons_iff, List.suffix_nil] at hsuffix
  simp_all

/-- A buffer that is not read yet has not left `tx_bufs`. -/
theorem mem_tx_of_sent (h : Back mem m stage statePuts fetches) (hb : b ∈ m.inFlight)
    (hstage : stage b.addr = .sent) : b ∈ m.txBufs := by
  rcases List.mem_append.mp hb with htx | hwaiting
  · exact htx
  · exact absurd (h.state_of_sent hb hstage) (h.waiting b hwaiting)

end Back

/-! ## The lock -/

/-- The holder goes on: what it has found free is free, and what it sends is not empty. -/
theorem LinkInv.setCrit (crit : Option Crit) (h : LinkInv cfg sends p d l stage)
    (hfreed : ∀ c, crit = some c → ∀ addr ∈ c.freed, ∀ b ∈ l.cmdBuffer.waitingBufs,
      b.addr = addr → b.state l.mem = .free)
    (hready : ∀ h, crit = some (.flush h) → ∀ b m, l.cmdBuffer.takeFlush = some (b, m) →
      0 < b.index) :
    LinkInv cfg sends p d { l with crit := crit } stage where
  placed := h.placed
  flight := h.flight
  slot := h.slot
  inbox := h.inbox
  back := h.back
  fetching := h.fetching
  content := h.content
  freed := hfreed
  ready := hready

/-- The waiting flag is no part of the invariant. -/
theorem LinkInv.setWaiting (sendWaiting : Bool) (h : LinkInv cfg sends p d l stage) :
    LinkInv cfg sends p d { l with sendWaiting := sendWaiting } stage where
  placed := h.placed
  flight := h.flight
  slot := h.slot
  inbox := h.inbox
  back := h.back
  fetching := h.fetching
  content := h.content
  freed := h.freed
  ready := h.ready

/-! ## `check_transfer` -/

theorem SlotOk.clear {slot : CmdMsg} : SlotOk slot.clear [] where
  hash := by simp [CmdMsg.clear, CmdMsg.calcHash, CmdMsg.hash]
  kind := Or.inl rfl
  tx := by simp [CmdMsg.clear, CmdMsg.calcHash]
  free := fun _ => rfl

/-- The receiver has released the buffer in `tx_bufs`. -/
theorem LinkInv.released {b : CmdBuf} {hd : Holder} {order : List UInt64}
    (h : LinkInv cfg sends p d l stage) (htx : l.cmdBuffer.txBufs = [b])
    (hstate : b.state l.mem ≠ .tx) :
    LinkInv cfg sends p d
      { l with
        cmdBuffer := { l.cmdBuffer with
          txBufs := [], waitingBufs := b :: l.cmdBuffer.waitingBufs }
        sendSlot := l.sendSlot.clear
        crit := some (.scan hd order []) } stage := by
  have hflight : ∀ b', b' ∈ ({ l.cmdBuffer with
      txBufs := [], waitingBufs := b :: l.cmdBuffer.waitingBufs } : CmdMsgBuffer).inFlight ↔
      b' ∈ l.cmdBuffer.inFlight := by
    intro b'
    simp [CmdMsgBuffer.inFlight, htx]
  constructor
  case placed =>
    refine h.placed.inFlight_moved ?_ rfl rfl rfl
    simp [CmdMsgBuffer.inFlight, htx]
  case flight =>
    intro addr
    simp only [hflight, h.flight]
  case slot => exact .clear
  case inbox => exact {
    hash := h.inbox.hash
    kind := h.inbox.kind
    tx := by simpa only [hflight] using h.inbox.tx
    one := h.inbox.one }
  case back => exact {
    fresh := h.back.fresh
    suffix := fun b' hb' => h.back.suffix b' ((hflight b').mp hb')
    waiting := by
      intro b' hb'
      rcases List.mem_cons.mp hb' with rfl | hb'
      · exact hstate
      · exact h.back.waiting b' hb'
    puts := h.back.puts }
  case fetching => exact {
    ok := h.fetching.ok
    named := h.fetching.named
    opened := h.fetching.opened
    carries := fun b' hb' => h.fetching.carries b' ((hflight b').mp hb') }
  case content =>
    refine h.content.congr ?_ (fun _ _ _ _ => rfl) fun _ _ _ _ => rfl
    intro b' _
    simp only [CmdMsgBuffer.used, List.mem_append, hflight]
    rfl
  case freed => simp [Crit.freed]
  case ready => simp

/-- One step of `progress_transfers`: nothing is said that should not be. -/
theorem LinkInv.checkTransfer (h : LinkInv cfg sends p d l stage) :
    (∃ b, l.cmdBuffer.txBufs = [b] ∧ b.state l.mem ≠ .tx ∧
      l.cmdBuffer.checkTransfer l.mem l.sendSlot.daddr =
        ({ l.cmdBuffer with
          txBufs := [], waitingBufs := b :: l.cmdBuffer.waitingBufs }, .ok true)) ∨
    l.cmdBuffer.checkTransfer l.mem l.sendSlot.daddr = (l.cmdBuffer, .ok false) := by
  by_cases htx : l.sendSlot.cmd = .tx
  · obtain ⟨-, b, hbufs, haddr⟩ := h.slot.tx htx
    have hb : b ∈ l.cmdBuffer.txBufs := by simp [hbufs]
    have hcnt : 0 < b.allocatedCnt := by
      rw [h.placed.cnt b (mem_all_of_used (mem_used_of_inFlight (mem_inFlight_of_tx hb)))]
      exact h.placed.pos b (List.mem_append_right _ (mem_inFlight_of_tx hb))
    have hwaiting : remove b.addr l.cmdBuffer.waitingBufs = l.cmdBuffer.waitingBufs :=
      remove_eq_self fun b' hb' => (h.placed.tx_ne_waiting hb hb').symm
    have hlookup : lookup l.sendSlot.daddr l.cmdBuffer.txBufs = some b := by
      simp [lookup, hbufs, haddr]
    have hremove : remove l.sendSlot.daddr l.cmdBuffer.txBufs = [] := by
      simp [remove, hbufs, haddr]
    rcases h.back.state_cases (mem_inFlight_of_tx hb) with hstate | hstate | hstate
    · right
      simp only [CmdMsgBuffer.checkTransfer, hlookup, hremove, hstate, insert]
      simp [remove, ← hbufs]
    all_goals
      left
      refine ⟨b, hbufs, by simp [hstate], ?_⟩
      simp [CmdMsgBuffer.checkTransfer, hlookup, hremove, hstate, insert, hcnt, hwaiting]
  · right
    simp [CmdMsgBuffer.checkTransfer, lookup, h.slot.free htx]

/-! ## `flush_buffer` -/

theorem Inbox.append {inbox : List CmdMsg} {c : CmdMsg} (h : Inbox m stage inbox)
    (hhash : c.cmdHash = c.hash) (hkind : c.cmd = .clear ∨ c.cmd = .print) :
    Inbox m stage (inbox ++ [c]) where
  hash := by
    intro x hx
    rcases List.mem_append.mp hx with hx | hx
    · exact h.hash x hx
    · rw [List.mem_singleton.mp hx, hhash]
  kind := by
    intro x hx
    rcases List.mem_append.mp hx with hx | hx
    · exact h.kind x hx
    · rw [List.mem_singleton.mp hx]
      exact hkind.imp_right Or.inl
  tx := by
    intro x hx htx
    rcases List.mem_append.mp hx with hx | hx
    · exact h.tx x hx htx
    · rw [List.mem_singleton.mp hx] at htx
      simp [htx] at hkind
  one := by
    have hc : c.cmd ≠ .tx := by rintro htx; simp [htx] at hkind
    simpa [List.countP_append, hc] using h.one

/-- Without a `Tx`, the buffers do not matter. -/
theorem Inbox.of_no_tx {inbox : List CmdMsg} {m' : CmdMsgBuffer} {stage' : UInt64 → Stage}
    (h : Inbox m stage inbox) (hno : ∀ c ∈ inbox, c.cmd ≠ .tx) : Inbox m' stage' inbox where
  hash := h.hash
  kind := h.kind
  tx := fun c hc htx => absurd htx (hno c hc)
  one := h.one

theorem Inbox.append_tx {inbox : List CmdMsg} {c : CmdMsg} {b : CmdBuf}
    (h : Inbox m stage inbox) (hno : ∀ c ∈ inbox, c.cmd ≠ .tx) (hhash : c.cmdHash = c.hash)
    (hcmd : c.cmd = .tx) (hstage : stage c.daddr = .sent) (hb : b ∈ m.inFlight)
    (haddr : b.addr = c.daddr) (hsize : b.size = c.dsize) : Inbox m stage (inbox ++ [c]) where
  hash := by
    intro x hx
    rcases List.mem_append.mp hx with hx | hx
    · exact h.hash x hx
    · rw [List.mem_singleton.mp hx, hhash]
  kind := by
    intro x hx
    rcases List.mem_append.mp hx with hx | hx
    · exact h.kind x hx
    · rw [List.mem_singleton.mp hx]
      exact Or.inr (Or.inr hcmd)
  tx := by
    intro x hx htx
    rcases List.mem_append.mp hx with hx | hx
    · exact absurd htx (hno x hx)
    · rw [List.mem_singleton.mp hx]
      exact ⟨hstage, b, hb, haddr, hsize⟩
  one := by
    have hzero : inbox.countP (·.cmd = .tx) = 0 :=
      List.countP_eq_zero.mpr (by simpa using hno)
    simp [List.countP_append, hzero, hcmd]

theorem backTo_eq_nil {addr : UInt64} {statePuts : List (UInt64 × Cmd)}
    (h : ∀ x ∈ statePuts, x.1 ≠ addr) : backTo addr statePuts = [] := by
  simpa [backTo] using h

/-- A buffer that is being filled is idle. -/
theorem LinkInv.stage_filling {b : CmdBuf} (h : LinkInv cfg sends p d l stage)
    (hb : b ∈ l.cmdBuffer.filling) : stage b.addr = .idle := by
  by_contra hne
  obtain ⟨b', hb', haddr⟩ := (h.flight b.addr).mp hne
  exact h.placed.filling_ne_inFlight hb hb' haddr.symm

/-- There is no `Tx` in the receive slot or on its way to it while the slot has none. -/
theorem LinkInv.inbox_no_tx (h : LinkInv cfg sends p d l stage)
    (htx : l.cmdBuffer.txBufs = []) : ∀ c ∈ l.recvSlot :: l.slotPuts, c.cmd ≠ .tx := by
  intro c hc hcmd
  obtain ⟨hsent, b, hb, haddr, -⟩ := h.inbox.tx c hc hcmd
  have hbtx := h.back.mem_tx_of_sent hb (by rw [haddr, hsent])
  rw [htx] at hbtx
  exact List.not_mem_nil hbtx

theorem LinkInv.flushed {b : CmdBuf} {m' : CmdMsgBuffer} {hd : Holder} {put : Bool}
    (h : LinkInv cfg sends p d l stage) (htx : l.cmdBuffer.txBufs = [])
    (htake : l.cmdBuffer.takeFlush = some (b, m')) (hpos : 0 < b.index)
    (hhash : (CmdMsgBuffer.txCmd l.mem b l.sendSlot).hash ≠ CmdMsg.clearCmd.hash) :
    LinkInv cfg sends p d
      { l with
        cmdBuffer := { m' with txBufs := insert b m'.txBufs }
        sendSlot := CmdMsgBuffer.txCmd l.mem b l.sendSlot
        slotPuts := if put then l.slotPuts ++ [CmdMsgBuffer.txCmd l.mem b l.sendSlot]
          else l.slotPuts
        crit := some (.sent hd true) } (Function.update stage b.addr .sent) := by
  obtain ⟨hperm, -, htx', hwaiting, -, -⟩ := takeFlush_cases htake
  have hb : b ∈ l.cmdBuffer.filling := hperm.mem_iff.mpr List.mem_cons_self
  have hfilling : ∀ b' ∈ m'.filling, b' ∈ l.cmdBuffer.filling :=
    fun b' hb' => hperm.mem_iff.mpr (List.mem_cons_of_mem _ hb')
  have hin : l.cmdBuffer.inFlight = l.cmdBuffer.waitingBufs := by
    simp [CmdMsgBuffer.inFlight, htx]
  have hin' : ({ m' with txBufs := insert b m'.txBufs } : CmdMsgBuffer).inFlight =
      b :: l.cmdBuffer.waitingBufs := by
    simp [CmdMsgBuffer.inFlight, htx', htx, hwaiting, insert, remove]
  have hidle := h.stage_filling hb
  have hne : ∀ b' ∈ l.cmdBuffer.waitingBufs, b'.addr ≠ b.addr := fun b' hb' =>
    (h.placed.filling_ne_inFlight hb (mem_inFlight_of_waiting hb')).symm
  have hused : ({ m' with txBufs := insert b m'.txBufs } : CmdMsgBuffer).used.Perm
      l.cmdBuffer.used := by
    rw [CmdMsgBuffer.used, CmdMsgBuffer.used, hin, hin']
    exact List.perm_middle.trans (.append_right _ hperm.symm)
  constructor
  case placed => exact (h.placed.flushed htake hpos).1
  case flight =>
    intro addr
    rw [hin']
    by_cases haddr : addr = b.addr
    · subst haddr
      simp
    · rw [Function.update_of_ne haddr, h.flight, hin]
      simp [Ne.symm haddr]
  case slot => exact {
    hash := rfl
    kind := Or.inr (Or.inr rfl)
    tx := fun _ => ⟨hhash, b, by simp [htx', htx, insert, remove], rfl⟩
    free := fun hcmd => absurd rfl hcmd }
  case inbox =>
    have hno := h.inbox_no_tx htx
    have hold : Inbox ({ m' with txBufs := insert b m'.txBufs } : CmdMsgBuffer)
        (Function.update stage b.addr .sent) (l.recvSlot :: l.slotPuts) :=
      h.inbox.of_no_tx hno
    cases put with
    | false => exact hold
    | true =>
      refine Inbox.append_tx hold hno rfl rfl (Function.update_self _ _ _) ?_ rfl rfl
      rw [hin']
      exact List.mem_cons_self
  case back => exact {
    fresh := fun b' hb' => h.back.fresh b' (hfilling b' hb')
    suffix := by
      intro b' hb'
      rw [hin'] at hb'
      rcases List.mem_cons.mp hb' with rfl | hb'
      · have hnil : backTo b'.addr l.statePuts = [] :=
          backTo_eq_nil fun x hx haddr => h.back.puts x hx (by rw [haddr, hidle])
        simp [h.back.fresh b' hb hpos, hnil, Stage.trail]
      · rw [Function.update_of_ne (hne b' hb')]
        exact h.back.suffix b' (mem_inFlight_of_waiting hb')
    waiting := by
      simp only [hwaiting]
      exact h.back.waiting
    puts := by
      intro x hx
      by_cases haddr : x.1 = b.addr
      · simp [haddr]
      · rw [Function.update_of_ne haddr]
        exact h.back.puts x hx }
  case fetching => exact {
    ok := h.fetching.ok
    named := by
      intro addr j hj
      by_cases haddr : addr = b.addr
      · simp [haddr] at hj
      · rw [Function.update_of_ne haddr] at hj
        exact h.fetching.named addr j hj
    opened := by
      intro j f hf hopen
      have hstage := h.fetching.opened j f hf hopen
      have haddr : f.cmd.daddr ≠ b.addr := by
        rintro haddr
        simp [haddr, hidle] at hstage
      rw [Function.update_of_ne haddr, hstage]
    carries := by
      intro b' hb' j f hj
      rw [hin'] at hb'
      rcases List.mem_cons.mp hb' with rfl | hb'
      · simp at hj
      · rw [Function.update_of_ne (hne b' hb')] at hj
        exact h.fetching.carries b' (mem_inFlight_of_waiting hb') j f hj }
  case content =>
    refine h.content.congr (fun _ _ => hused.mem_iff) (fun _ _ _ _ => rfl) ?_
    intro b' _ i _
    by_cases haddr : b'.addr = b.addr
    · simp [placeCounts, haddr, hidle, Stage.counts]
    · simp [placeCounts, haddr]
  case freed => simp [Crit.freed]
  case ready => simp

/-! ## `check_free_data` -/

/-- A task that has put `Free` has seen all its commands through. -/
theorem Fetch.Ok.finished {f : Fetch} (h : f.Ok) (hclosed : f.closed) :
    f.rest = [] ∧ ∀ t ∈ f.tasks, t.2 = .done := by
  simp only [Fetch.closed, Bool.and_eq_true, Bool.not_eq_true', decide_eq_true_eq,
    List.all_eq_true] at hclosed
  obtain ⟨⟨hreading, hzero⟩, hfree⟩ := hclosed
  have hcount := h.count (by simp [hreading])
  rw [hzero] at hcount
  refine ⟨List.length_eq_zero_iff.mp (by omega), fun t ht => ?_⟩
  have hcounted := List.countP_eq_zero.mp (show f.tasks.countP (·.2.uncounted) = 0 by omega) t ht
  have hne := hfree t ht
  cases hpc : t.2 <;> simp_all [CmdPc.uncounted]

theorem Fetch.Carries.length {f : Fetch} {b : CmdBuf} (h : f.Carries mem b)
    (hpc : f.pc ≠ .get) : f.tasks.length + f.rest.length = b.index := by
  have hlen := congrArg List.length (h.cmds hpc)
  simpa [CmdBuf.cmds] using hlen

theorem Stage.trail_free {fetches : List Fetch} {st : Stage} {back : List Cmd}
    (h : (.free :: back) <:+ st.trail fetches) :
    back = [] ∧ ∃ j f, st = .fetch j ∧ fetches[j]? = some f ∧ f.closed := by
  cases st with
  | idle => simp [Stage.trail] at h
  | sent => simp [Stage.trail, List.suffix_cons_iff] at h
  | fetch j =>
    simp only [Stage.trail] at h
    split at h
    · rename_i f hf
      unfold Fetch.trail at h
      split at h
      · simp [List.suffix_cons_iff] at h
      · split at h
        · simp only [List.suffix_cons_iff, List.suffix_nil] at h
          exact ⟨by simp_all, j, f, rfl, hf, ‹_›⟩
        · simp [List.suffix_cons_iff] at h
    · simp at h

/-- The commands of a buffer that is free have all been fetched and submitted. -/
theorem LinkInv.counts_of_free {b : CmdBuf} (h : LinkInv cfg sends p d l stage)
    (hb : b ∈ l.cmdBuffer.inFlight) (hstate : b.state l.mem = .free) :
    ∀ i < b.index, placeCounts stage l.fetches b.addr i = (1, 1) := by
  intro i hi
  have hsuffix := h.back.suffix b hb
  rw [hstate] at hsuffix
  obtain ⟨-, j, f, hstage, hf, hclosed⟩ := Stage.trail_free hsuffix
  have hok := h.fetching.ok f (List.mem_of_getElem? hf)
  obtain ⟨hrest, hdone⟩ := hok.finished hclosed
  have hpc : f.pc ≠ .get := by
    intro hpc
    simp [Fetch.closed, Fetch.reading, hpc] at hclosed
  have hlen := (h.fetching.carries b hb j f hstage hf).length hpc
  rw [hrest, List.length_nil, Nat.add_zero] at hlen
  have hlt : i < f.tasks.length := by omega
  have hpc' := hdone _ (List.getElem_mem hlt)
  simp [placeCounts, hstage, Stage.counts, hf, Fetch.counts, hlt, hpc', CmdPc.counts]

/-- The calls whose commands are in `cmds` have been counted down. -/
def Decremented (cmds : List CmdMsg) (sends sends' : List (Send P)) : Prop :=
  ∀ k, sends'[k]? = if k ∈ cmds.map CmdMsg.send then
    (sends[k]?).map fun t => { t with decremented := t.decremented + 1 } else sends[k]?

theorem mem_cmds {b : CmdBuf} {k : ℕ} :
    k ∈ (b.cmds mem).map CmdMsg.send ↔ ∃ i < b.index, (mem b.addr i).send = k := by
  simp [CmdBuf.cmds]

/-- The commands in `b` go, those in the other buffers stay. -/
theorem Content.gaveBack {sends' : List (Send P)} {counts : UInt64 → ℕ → ℕ × ℕ}
    {counts' : UInt64 → ℕ → ℕ × ℕ} {m' : CmdMsgBuffer} {b : CmdBuf}
    (h : Content sends p d mem m counts) (hb : b ∈ m.used)
    (hdone : ∀ i < b.index, counts b.addr i = (1, 1))
    (hused : ∀ b', b' ∈ m'.used ↔ b' ∈ m.used ∧ b'.addr ≠ b.addr)
    (haddr : ∀ b' ∈ m.used, b'.addr = b.addr → b' = b)
    (hcounts : ∀ addr, addr ≠ b.addr → counts' addr = counts addr)
    (hsends : Decremented (b.cmds mem) sends sends') : Content sends' p d mem m' counts' := by
  have hother : ∀ b' ∈ m'.used, ∀ i < b'.index,
      (mem b'.addr i).send ∉ (b.cmds mem).map CmdMsg.send := by
    intro b' hb' i hi hmem
    obtain ⟨i', hi', hk⟩ := mem_cmds.mp hmem
    obtain ⟨hb₀, hne⟩ := (hused b').mp hb'
    exact hne (h.inj b' hb₀ b hb i hi i' hi' hk.symm).1
  constructor
  case held =>
    intro b' hb' i hi
    obtain ⟨hb₀, hne⟩ := (hused b').mp hb'
    obtain ⟨t, ht, hholds⟩ := h.held b' hb₀ i hi
    refine ⟨t, ?_, hholds.congr rfl (by rw [hcounts _ hne])⟩
    rw [hsends, if_neg (hother b' hb' i hi), ht]
  case inj =>
    intro b₁ hb₁ b₂ hb₂
    exact h.inj b₁ ((hused b₁).mp hb₁).1 b₂ ((hused b₂).mp hb₂).1
  case unpushed =>
    intro k t' ht' hpe hdst hpushed
    rw [hsends] at ht'
    split at ht'
    · rename_i hk
      obtain ⟨t, ht, rfl⟩ := Option.map_eq_some_iff.mp ht'
      obtain ⟨i, hi, rfl⟩ := mem_cmds.mp hk
      obtain ⟨t₀, ht₀, hholds⟩ := h.held b hb i hi
      obtain rfl : t₀ = t := by simpa [ht] using ht₀.symm
      simp [hholds.pushed] at hpushed
    · exact h.unpushed k t' ht' hpe hdst hpushed
  case gone =>
    intro k t' ht' hpe hdst hpushed hgone
    rw [hsends] at ht'
    split at ht'
    · rename_i hk
      obtain ⟨t, ht, rfl⟩ := Option.map_eq_some_iff.mp ht'
      obtain ⟨i, hi, rfl⟩ := mem_cmds.mp hk
      obtain ⟨t₀, ht₀, hholds⟩ := h.held b hb i hi
      obtain rfl : t₀ = t := by simpa [ht] using ht₀.symm
      have hone := hholds.counts
      rw [hdone i hi, Prod.mk.injEq] at hone
      exact ⟨hone.1, hone.2, by simp [hholds.decremented]⟩
    · rename_i hk
      refine h.gone k t' ht' hpe hdst hpushed ?_
      rintro ⟨b', hb', i, hi, rfl⟩
      by_cases hne : b'.addr = b.addr
      · obtain rfl := haddr b' hb' hne
        exact hk (mem_cmds.mpr ⟨i, hi, rfl⟩)
      · exact hgone ⟨b', (hused b').mpr ⟨hb', hne⟩, i, hi, rfl⟩

theorem LinkInv.gaveBack {b : CmdBuf} {hd : Holder} {freed : List UInt64}
    {sends' : List (Send P)} (h : LinkInv cfg sends p d l stage)
    (hb : b ∈ l.cmdBuffer.waitingBufs) (hstate : b.state l.mem = .free)
    (hfreed : ∀ addr ∈ freed, ∀ b' ∈ l.cmdBuffer.waitingBufs, b'.addr = addr →
      b'.state l.mem = .free)
    (hsends : Decremented (b.cmds l.mem) sends sends') :
    LinkInv cfg sends' p d
      { l with cmdBuffer := l.cmdBuffer.giveBack b, crit := some (.freeData hd freed) }
      (Function.update stage b.addr .idle) := by
  have hin := mem_inFlight_of_waiting hb
  have hsuffix := h.back.suffix b hin
  rw [hstate] at hsuffix
  obtain ⟨hback, j, f, hstage, hf, hclosed⟩ := Stage.trail_free hsuffix
  have hflight : ∀ b', b' ∈ (l.cmdBuffer.giveBack b).inFlight ↔
      b' ∈ l.cmdBuffer.inFlight ∧ b'.addr ≠ b.addr := by
    intro b'
    simp only [CmdMsgBuffer.inFlight, CmdMsgBuffer.giveBack, List.mem_append, mem_remove]
    constructor
    · rintro (htx | ⟨hw, hne⟩)
      · exact ⟨Or.inl htx, h.placed.tx_ne_waiting htx hb⟩
      · exact ⟨Or.inr hw, hne⟩
    · rintro ⟨htx | hw, hne⟩
      · exact Or.inl htx
      · exact Or.inr ⟨hw, hne⟩
  have hused : ∀ b', b' ∈ (l.cmdBuffer.giveBack b).used ↔
      b' ∈ l.cmdBuffer.used ∧ b'.addr ≠ b.addr := by
    intro b'
    simp only [CmdMsgBuffer.used, List.mem_append, hflight]
    constructor
    · rintro (hfill | hb')
      · exact ⟨Or.inl hfill, h.placed.filling_ne_inFlight hfill hin⟩
      · exact ⟨Or.inr hb'.1, hb'.2⟩
    · rintro ⟨hfill | hb', hne⟩
      · exact Or.inl hfill
      · exact Or.inr ⟨hb', hne⟩
  constructor
  case placed => exact h.placed.gaveBack hb
  case flight =>
    intro addr
    by_cases haddr : addr = b.addr
    · subst haddr
      simp [hflight]
    · rw [Function.update_of_ne haddr, h.flight]
      constructor
      · rintro ⟨b', hb', rfl⟩
        exact ⟨b', (hflight b').mpr ⟨hb', haddr⟩, rfl⟩
      · rintro ⟨b', hb', rfl⟩
        exact ⟨b', ((hflight b').mp hb').1, rfl⟩
  case slot => exact h.slot
  case inbox => exact {
    hash := h.inbox.hash
    kind := h.inbox.kind
    tx := by
      intro c hc htx
      obtain ⟨hsent, b', hb', haddr, hsize⟩ := h.inbox.tx c hc htx
      have hne : c.daddr ≠ b.addr := by
        intro heq
        rw [heq, hstage] at hsent
        cases hsent
      rw [Function.update_of_ne hne]
      exact ⟨hsent, b', (hflight b').mpr ⟨hb', haddr ▸ hne⟩, haddr, hsize⟩
    one := h.inbox.one }
  case back => exact {
    fresh := h.back.fresh
    suffix := by
      intro b' hb'
      obtain ⟨hb₀, hne⟩ := (hflight b').mp hb'
      rw [Function.update_of_ne hne]
      exact h.back.suffix b' hb₀
    waiting := fun b' hb' => h.back.waiting b' (mem_remove.mp hb').1
    puts := by
      intro x hx
      have hne : x.1 ≠ b.addr := by
        intro heq
        have hmem : x.2 ∈ backTo b.addr l.statePuts := by
          refine List.mem_map_of_mem (List.mem_filter.mpr ⟨hx, by simpa using heq⟩)
        rw [hback] at hmem
        exact List.not_mem_nil hmem
      rw [Function.update_of_ne hne]
      exact h.back.puts x hx }
  case fetching => exact {
    ok := h.fetching.ok
    named := by
      intro addr j' hj'
      by_cases haddr : addr = b.addr
      · simp [haddr] at hj'
      · rw [Function.update_of_ne haddr] at hj'
        exact h.fetching.named addr j' hj'
    opened := by
      intro j' f' hf' hopen
      have hstage' := h.fetching.opened j' f' hf' hopen
      have hne : f'.cmd.daddr ≠ b.addr := by
        intro heq
        rw [heq, hstage] at hstage'
        cases hstage'
        obtain rfl : f = f' := by simpa [hf] using hf'
        exact hopen hclosed
      rw [Function.update_of_ne hne, hstage']
    carries := by
      intro b' hb' j' f' hj'
      obtain ⟨hb₀, hne⟩ := (hflight b').mp hb'
      rw [Function.update_of_ne hne] at hj'
      exact h.fetching.carries b' hb₀ j' f' hj' }
  case content =>
    refine h.content.gaveBack (mem_used_of_inFlight hin) (h.counts_of_free hin hstate) hused
      ?_ ?_ hsends
    · exact fun b' hb' haddr => h.placed.eq_of_addr (mem_all_of_used hb')
        (mem_all_of_used (mem_used_of_inFlight hin)) haddr
    · intro addr hne
      funext i
      simp [placeCounts, hne]
  case freed =>
    rintro c ⟨rfl⟩ addr haddr b' hb'
    exact hfreed addr haddr b' (mem_remove.mp hb').1
  case ready => simp

end Lamellar.CommandQueue
