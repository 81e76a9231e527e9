import Lamellar.CommandQueue.Model

/-!
# What one step of the command queue does

`Step` lists the steps with what is known before them. The sections under the lock that only
pass it on from one part of the code to the next are `Crit.Next`.
-/

namespace Lamellar.CommandQueue

variable {P : ℕ}

/-- A section after which the lock stays and nothing else changes. -/
inductive Crit.Next (cfg : Config P) (s : State P) (p d : Fin P) : Crit → Crit → Prop
  | busy {k : ℕ} {t : Send P} (ht : s.sends[k]? = some t)
      (hpush : (s.links p d).cmdBuffer.tryPush cfg.cmdBufLen (s.links p d).mem t.addr t.len
        t.hash k = .busy) : Next cfg s p d (.push k) (.transfer (.first k))
  | head {k : ℕ} (hempty : (s.links p d).cmdBuffer.empty = false) :
      Next cfg s p d (.head k) (.transfer (.second k))
  | scanEnd {h : Holder} {freed : List UInt64} :
      Next cfg s p d (.scan h [] freed) (.freeData h freed)
  | scanGone {h : Holder} {addr : UInt64} {todo freed : List UInt64}
      (hb : lookup addr (s.links p d).cmdBuffer.waitingBufs = none) :
      Next cfg s p d (.scan h (addr :: todo) freed) (.scan h todo freed)
  | scanFree {h : Holder} {addr : UInt64} {todo freed : List UInt64} {b : CmdBuf}
      (hb : lookup addr (s.links p d).cmdBuffer.waitingBufs = some b)
      (hstate : b.state (s.links p d).mem = .free) :
      Next cfg s p d (.scan h (addr :: todo) freed) (.scan h todo (freed ++ [addr]))
  | scanRelease {h : Holder} {addr : UInt64} {todo freed : List UInt64} {b : CmdBuf}
      (hb : lookup addr (s.links p d).cmdBuffer.waitingBufs = some b)
      (hstate : b.state (s.links p d).mem = .release) :
      Next cfg s p d (.scan h (addr :: todo) freed) (.scan h todo freed)
  | freeGone {h : Holder} {addr : UInt64} {freed : List UInt64}
      (hb : lookup addr (s.links p d).cmdBuffer.waitingBufs = none) :
      Next cfg s p d (.freeData h (addr :: freed)) (.freeData h freed)
  | freeEnd {h : Holder} (hh : h ≠ .recv) : Next cfg s p d (.freeData h []) (.sending h)
  | sending {h : Holder}
      (hgo : s.pendingCmds p = 0 ∨ 0 < (s.links p d).cmdBuffer.fullBufs.length) :
      Next cfg s p d (.sending h) (.flush h)
  | notSending {h : Holder} (hpending : s.pendingCmds p ≠ 0)
      (hfull : (s.links p d).cmdBuffer.fullBufs = []) :
      Next cfg s p d (.sending h) (.sent h false)
  | notClear {h : Holder}
      (hslot : (s.links p d).sendSlot.hash ≠ CmdMsg.clearCmd.hash) :
      Next cfg s p d (.flush h) (.sent h false)

open Crit (Next)

namespace State

variable (s : State P) (p d : Fin P)

theorem links_setLink (l : Link) (p' d' : Fin P) :
    (s.setLink p d l).links p' d' = if p' = p ∧ d' = d then l else s.links p' d' := by
  simp only [setLink]
  by_cases hp : p' = p
  · subst hp
    by_cases hd : d' = d
    · simp [hd]
    · simp [hd]
  · simp [hp]

@[simp]
theorem links_setLink_self (l : Link) : (s.setLink p d l).links p d = l := by
  simp [links_setLink]

@[simp]
theorem setLink_setLink (l l' : Link) : (s.setLink p d l).setLink p d l' = s.setLink p d l' := by
  simp [setLink]

theorem setLink_self : s.setLink p d (s.links p d) = s := by
  simp [setLink]

end State

inductive Step (cfg : Config P) (s : State P) : Action P → State P → Prop
  | send (p d : Fin P) (addr len hash : UInt64) :
      Step cfg s (.send p d addr len hash) (s.send p d addr len hash)
  -- `send` outside the lock
  | start {k : ℕ} {t : Send P} {task : Task} (ht : s.sends[k]? = some t)
      (htask : s.tasks[k]? = some task) (hpc : task.pc = .start) :
      Step cfg s (.task k)
        (({ s with
            pendingCmds := Function.update s.pendingCmds t.pe (s.pendingCmds t.pe + 1) }.setSend
          k fun t => { t with pending := true }).goto k .loop1)
  | loop1 {k : ℕ} {t : Send P} {task : Task} (ht : s.sends[k]? = some t)
      (htask : s.tasks[k]? = some task) (hpc : task.pc = .loop1) :
      Step cfg s (.task k) (s.goto k (if s.active t.pe = .panic then .loop2 else .lock1))
  | loop2 {k : ℕ} {t : Send P} {task : Task} (ht : s.sends[k]? = some t)
      (htask : s.tasks[k]? = some task) (hpc : task.pc = .loop2) :
      Step cfg s (.task k) (s.goto k (if s.active t.pe = .panic then .returned else .lock2))
  | lock1 {k : ℕ} {t : Send P} {task : Task} (ht : s.sends[k]? = some t)
      (htask : s.tasks[k]? = some task) (hpc : task.pc = .lock1)
      (hcrit : (s.links t.pe t.dst).crit = none) :
      Step cfg s (.task k) ((s.setCrit t.pe t.dst (some (.push k))).goto k .inside)
  | lock2 {k : ℕ} {t : Send P} {task : Task} (ht : s.sends[k]? = some t)
      (htask : s.tasks[k]? = some task) (hpc : task.pc = .lock2)
      (hcrit : (s.links t.pe t.dst).crit = none) :
      Step cfg s (.task k) ((s.setCrit t.pe t.dst (some (.head k))).goto k .inside)
  -- under the lock
  | next {p d : Fin P} {c c' : Crit} (hcrit : (s.links p d).crit = some c)
      (hnext : Next cfg s p d c c') : Step cfg s (.crit p d) (s.setCrit p d (some c'))
  | push {p d : Fin P} {k : ℕ} {t : Send P} {mem : Mem} {m : CmdMsgBuffer}
      (hcrit : (s.links p d).crit = some (.push k)) (ht : s.sends[k]? = some t)
      (hpush : (s.links p d).cmdBuffer.tryPush cfg.cmdBufLen (s.links p d).mem t.addr t.len
        t.hash k = .pushed mem m) :
      Step cfg s (.crit p d)
        ((s.setLink p d { s.links p d with mem, cmdBuffer := m, crit := some (.pushed k) }).setSend
          k fun t => { t with pushed := true })
  | pushPanic {p d : Fin P} {k : ℕ} {t : Send P} {m : CmdMsgBuffer}
      (hcrit : (s.links p d).crit = some (.push k)) (ht : s.sends[k]? = some t)
      (hpush : (s.links p d).cmdBuffer.tryPush cfg.cmdBufLen (s.links p d).mem t.addr t.len
        t.hash k = .panicked m) :
      Step cfg s (.crit p d)
        ((s.setLink p d { s.links p d with cmdBuffer := m, crit := none }).panicHolder (.first k)
          .push)
  | pushed {p d : Fin P} {k : ℕ} (hcrit : (s.links p d).crit = some (.pushed k)) :
      Step cfg s (.crit p d)
        (((({ s with
            pendingCmds := Function.update s.pendingCmds p (s.pendingCmds p - 1) }.setCrit p d
          none)).setSend k fun t => { t with pending := false }).goto k .loop2)
  | headEmpty {p d : Fin P} {k : ℕ} (hcrit : (s.links p d).crit = some (.head k))
      (hempty : (s.links p d).cmdBuffer.empty = true) :
      Step cfg s (.crit p d)
        ((s.setLink p d { s.links p d with sendWaiting := false, crit := none }).goto k .returned)
  | transfer {p d : Fin P} {h : Holder} {order : List UInt64} {m : CmdMsgBuffer} {done : Bool}
      (hcrit : (s.links p d).crit = some (.transfer h))
      (hcheck : (s.links p d).cmdBuffer.checkTransfer (s.links p d).mem
        (s.links p d).sendSlot.daddr = (m, .ok done))
      (horder : order.Perm (m.waitingBufs.map CmdBuf.addr)) :
      Step cfg s (.transfer p d order)
        (s.setLink p d { s.links p d with
          cmdBuffer := m
          sendSlot := if done then (s.links p d).sendSlot.clear else (s.links p d).sendSlot
          crit := some (.scan h order []) })
  | transferPanic {p d : Fin P} {h : Holder} {order : List UInt64} {m : CmdMsgBuffer}
      {e : Panic} (hcrit : (s.links p d).crit = some (.transfer h))
      (hcheck : (s.links p d).cmdBuffer.checkTransfer (s.links p d).mem
        (s.links p d).sendSlot.daddr = (m, .error e)) :
      Step cfg s (.transfer p d order)
        ((s.setLink p d { s.links p d with cmdBuffer := m, crit := none }).panicHolder h e)
  | scanPanic {p d : Fin P} {h : Holder} {addr : UInt64} {todo freed : List UInt64} {b : CmdBuf}
      {e : Panic} (hcrit : (s.links p d).crit = some (.scan h (addr :: todo) freed))
      (hb : lookup addr (s.links p d).cmdBuffer.waitingBufs = some b)
      (hcheck : CmdMsgBuffer.checkFreed (b.state (s.links p d).mem) = .error e) :
      Step cfg s (.crit p d) ((s.setCrit p d none).panicHolder h e)
  | freeData {p d : Fin P} {h : Holder} {addr : UInt64} {freed : List UInt64} {b : CmdBuf}
      (hcrit : (s.links p d).crit = some (.freeData h (addr :: freed)))
      (hb : lookup addr (s.links p d).cmdBuffer.waitingBufs = some b) :
      Step cfg s (.crit p d)
        ((s.freeCmds p (b.cmds (s.links p d).mem)).setLink p d
          { s.links p d with
            cmdBuffer := (s.links p d).cmdBuffer.giveBack b
            crit := some (.freeData h freed) })
  | checked {p d : Fin P} (hcrit : (s.links p d).crit = some (.freeData .recv [])) :
      Step cfg s (.crit p d) (s.setCrit p d none)
  | flush {p d : Fin P} {h : Holder} {m : CmdMsgBuffer} {slot : CmdMsg}
      (hcrit : (s.links p d).crit = some (.flush h))
      (hslot : (s.links p d).sendSlot.hash = CmdMsg.clearCmd.hash)
      (hflush : (s.links p d).cmdBuffer.flushBuffer (s.links p d).mem (s.links p d).sendSlot =
        (m, slot)) :
      Step cfg s (.crit p d)
        (s.setLink p d { s.links p d with
          cmdBuffer := m
          sendSlot := slot
          slotPuts := if 0 < slot.dsize then (s.links p d).slotPuts ++ [slot]
            else (s.links p d).slotPuts
          crit := some (.sent h true) })
  | sentFirst {p d : Fin P} {k : ℕ} {result : Bool}
      (hcrit : (s.links p d).crit = some (.sent (.first k) result)) :
      Step cfg s (.crit p d) ((s.setCrit p d none).goto k .loop1)
  | sentSecond {p d : Fin P} {k : ℕ}
      (hcrit : (s.links p d).crit = some (.sent (.second k) true)) :
      Step cfg s (.crit p d)
        ((s.setLink p d { s.links p d with sendWaiting := false, crit := none }).goto k .returned)
  | goOn {p d : Fin P} {k : ℕ} {task : Task} {weak : Bool}
      (hcrit : (s.links p d).crit = some (.sent (.second k) false))
      (htask : s.tasks[k]? = some task) (hwaiting : task.imWaiting = true) :
      Step cfg s (.exchange p d weak) ((s.setCrit p d none).goto k .loop2)
  | exchangeFails {p d : Fin P} {k : ℕ} {task : Task} {weak : Bool}
      (hcrit : (s.links p d).crit = some (.sent (.second k) false))
      (htask : s.tasks[k]? = some task) (hwaiting : task.imWaiting = false)
      (hflag : (s.links p d).sendWaiting = true ∨ weak = true) :
      Step cfg s (.exchange p d weak) ((s.setCrit p d none).goto k .returned)
  | exchange {p d : Fin P} {k : ℕ} {task : Task} {weak : Bool}
      (hcrit : (s.links p d).crit = some (.sent (.second k) false))
      (htask : s.tasks[k]? = some task) (hwaiting : task.imWaiting = false)
      (hflag : (s.links p d).sendWaiting = false) :
      Step cfg s (.exchange p d weak)
        ((s.setLink p d { s.links p d with sendWaiting := true, crit := none }).setTask k
          fun t => { t with pc := .loop2, imWaiting := true })
  | checkTransfers {p d : Fin P} (hpd : p ≠ d) (hcrit : (s.links p d).crit = none) :
      Step cfg s (.checkTransfers p d) (s.setCrit p d (some (.transfer .recv)))
  -- the receiver
  | poll {p d : Fin P} : Step cfg s (.poll p d) s
  | pollTx {p d : Fin P} (hcmd : (s.links p d).recvSlot.cmd = .tx) :
      Step cfg s (.poll p d)
        (s.setLink p d { s.links p d with
          recvSlot := (s.links p d).recvSlot.clear
          fetches := (s.links p d).fetches ++ [⟨(s.links p d).recvSlot, .get, 0, []⟩] })
  | pollPrint {p d : Fin P} (hcmd : (s.links p d).recvSlot.cmd = .print) :
      Step cfg s (.poll p d)
        (s.setLink p d { s.links p d with recvSlot := (s.links p d).recvSlot.clear })
  | pollPanic {p d : Fin P} {l : Link} {cmd : Cmd} (hcmd : (s.links p d).recvSlot.cmd = cmd)
      (hne : cmd ≠ .clear ∧ cmd ≠ .print ∧ cmd ≠ .tx)
      (hl : l = s.links p d ∨
        l = { s.links p d with recvSlot := (s.links p d).recvSlot.clear }) :
      Step cfg s (.poll p d) ((s.setLink p d l).panic (.recvData cmd))
  | fetchGet {p d : Fin P} {j : ℕ} {f : Fetch} (hf : (s.links p d).fetches[j]? = some f)
      (hpc : f.pc = .get) :
      Step cfg s (.fetch p d j)
        (s.setLink p d { s.links p d with
          fetches := (s.links p d).fetches.set j
            { f with pc := .wait ((List.range (f.cmd.dsize.toNat / cmdMsgSize)).map
              ((s.links p d).mem f.cmd.daddr)) } })
  | fetchWait {p d : Fin P} {j : ℕ} {f : Fetch} {data : List CmdMsg}
      (hf : (s.links p d).fetches[j]? = some f) (hpc : f.pc = .wait data) :
      Step cfg s (.fetch p d j)
        (s.setLink p d { s.links p d with
          fetches := (s.links p d).fetches.set j { f with pc := .release data } })
  | fetchRelease {p d : Fin P} {j : ℕ} {f : Fetch} {data : List CmdMsg}
      (hf : (s.links p d).fetches[j]? = some f) (hpc : f.pc = .release data) :
      Step cfg s (.fetch p d j)
        (s.setLink p d { s.links p d with
          statePuts := (s.links p d).statePuts ++ [(f.cmd.daddr, .release)]
          fetches := (s.links p d).fetches.set j
            { f with pc := .spawn data, cmdCnt := data.length } })
  | fetchSpawn {p d : Fin P} {j : ℕ} {f : Fetch} {c : CmdMsg} {rest : List CmdMsg}
      (hf : (s.links p d).fetches[j]? = some f) (hpc : f.pc = .spawn (c :: rest)) :
      Step cfg s (.fetch p d j)
        (s.setLink p d { s.links p d with
          fetches := (s.links p d).fetches.set j
            { f with pc := .spawn rest, tasks := f.tasks ++ [(c, .get)] } })
  | fetchPanic {p d : Fin P} {j : ℕ} {f : Fetch} {c : CmdMsg} {rest : List CmdMsg}
      (hf : (s.links p d).fetches[j]? = some f) (hpc : f.pc = .spawn (c :: rest))
      (hsize : c.dsize = 0) :
      Step cfg s (.fetch p d j)
        ((s.setLink p d { s.links p d with
          fetches := (s.links p d).fetches.set j { f with pc := .panicked } }).panic .fetch)
  | fetchDone {p d : Fin P} {j : ℕ} {f : Fetch} (hf : (s.links p d).fetches[j]? = some f)
      (hpc : f.pc = .spawn []) :
      Step cfg s (.fetch p d j)
        (s.setLink p d { s.links p d with
          fetches := (s.links p d).fetches.set j { f with pc := .done } })
  | cmdGet {p d : Fin P} {j i : ℕ} {checksum : UInt64} {f : Fetch} {c : CmdMsg}
      (hf : (s.links p d).fetches[j]? = some f) (hi : f.tasks[i]? = some (c, .get)) :
      Step cfg s (.cmd p d j i checksum)
        ((s.setLink p d { s.links p d with
          fetches := (s.links p d).fetches.set j
            { f with tasks := f.tasks.set i (c, .submit) } }).setSend c.send
          fun t => { t with fetched := t.fetched + 1 })
  | cmdSubmit {p d : Fin P} {j i : ℕ} {checksum : UInt64} {f : Fetch} {c : CmdMsg}
      (hf : (s.links p d).fetches[j]? = some f) (hi : f.tasks[i]? = some (c, .submit)) :
      Step cfg s (.cmd p d j i checksum)
        ((s.setLink p d { s.links p d with
          fetches := (s.links p d).fetches.set j
            { f with tasks := f.tasks.set i (c, .count) } }).setSend c.send
          fun t => { t with submitted := t.submitted + 1 })
  | cmdCount {p d : Fin P} {j i : ℕ} {checksum : UInt64} {f : Fetch} {c : CmdMsg}
      (hf : (s.links p d).fetches[j]? = some f) (hi : f.tasks[i]? = some (c, .count)) :
      Step cfg s (.cmd p d j i checksum)
        (s.setLink p d { s.links p d with
          fetches := (s.links p d).fetches.set j
            { f with
              cmdCnt := f.cmdCnt - 1
              tasks := f.tasks.set i (c, if f.cmdCnt = 1 then .free else .done) } })
  | cmdFree {p d : Fin P} {j i : ℕ} {checksum : UInt64} {f : Fetch} {c : CmdMsg}
      (hf : (s.links p d).fetches[j]? = some f) (hi : f.tasks[i]? = some (c, .free)) :
      Step cfg s (.cmd p d j i checksum)
        (s.setLink p d { s.links p d with
          statePuts := (s.links p d).statePuts ++ [(f.cmd.daddr, .free)]
          fetches := (s.links p d).fetches.set j
            { f with tasks := f.tasks.set i (c, .done) } })
  | print {p d : Fin P} {j : ℕ} {i : Option ℕ} {slot : CmdMsg}
      (hslot : (s.links d p).sendSlot.hash = CmdMsg.clearCmd.hash)
      (hhash : slot.cmdHash = slot.hash) (hcmd : slot.cmd = .print) :
      Step cfg s (.print p d j i)
        (s.setLink d p { s.links d p with
          sendSlot := slot, slotPuts := (s.links d p).slotPuts ++ [slot] })
  | deliverSlot {p d : Fin P} {c : CmdMsg} {rest : List CmdMsg}
      (hputs : (s.links p d).slotPuts = c :: rest) :
      Step cfg s (.deliverSlot p d)
        (s.setLink p d { s.links p d with recvSlot := c, slotPuts := rest })
  | deliverState {p d : Fin P} {addr : UInt64} {cmd : Cmd} {rest : List (UInt64 × Cmd)}
      (hputs : (s.links p d).statePuts = (addr, cmd) :: rest) :
      Step cfg s (.deliverState p d)
        (s.setLink p d { s.links p d with
          mem := (s.links p d).mem.write addr 0 { (s.links p d).mem addr 0 with cmd }
          statePuts := rest })
  | status (p : Fin P) (status : CmdQStatus) :
      Step cfg s (.status p status) { s with active := Function.update s.active p status }
  | hold (p : Fin P) (addr : UInt64) :
      Step cfg s (.hold p addr)
        { s with
          handles := Function.update s.handles p
            (Function.update (s.handles p) addr (s.handles p addr + 1))
          refCnt := Function.update s.refCnt p
            (Function.update (s.refCnt p) addr (s.refCnt p addr + 1)) }
  | drop {p : Fin P} {addr : UInt64} (hpos : 0 < s.handles p addr) :
      Step cfg s (.drop p addr)
        { s.decrement p addr with
          handles := Function.update s.handles p
            (Function.update (s.handles p) addr (s.handles p addr - 1)) }

variable {cfg : Config P} {s s' : State P} {p d : Fin P}

theorem runTask_cases {k : ℕ} {t : Send P} {task : Task} (ht : s.sends[k]? = some t)
    (htask : s.tasks[k]? = some task) (h : s.runTask k t task.pc = some s') :
    Step cfg s (.task k) s' := by
  cases hpc : task.pc <;> simp only [hpc, State.runTask] at h
  case start =>
    cases h
    exact .start ht htask hpc
  case loop1 =>
    cases h
    exact .loop1 ht htask hpc
  case loop2 =>
    cases h
    exact .loop2 ht htask hpc
  case lock1 =>
    split at h
    · cases h
      exact .lock1 ht htask hpc (Option.isNone_iff_eq_none.mp ‹_›)
    · cases h
  case lock2 =>
    split at h
    · cases h
      exact .lock2 ht htask hpc (Option.isNone_iff_eq_none.mp ‹_›)
    · cases h
  all_goals cases h

theorem transfer_cases {h : Holder} {order : List UInt64}
    (hcrit : (s.links p d).crit = some (.transfer h))
    (hstep : s.transfer p d h order = some s') : Step cfg s (.transfer p d order) s' := by
  simp only [State.transfer] at hstep
  split at hstep
  · rename_i hcheck
    cases hstep
    exact .transferPanic hcrit hcheck
  · rename_i hcheck
    split at hstep
    · cases hstep
      exact .transfer hcrit hcheck ‹_›
    · cases hstep

theorem checkFreed_cases {state : Cmd} {freed : Bool}
    (h : CmdMsgBuffer.checkFreed state = .ok freed) :
    freed = true ∧ state = .free ∨ freed = false ∧ state = .release := by
  cases state <;> simp [CmdMsgBuffer.checkFreed] at h <;> simp [h]

theorem runCrit_cases {c : Crit} (hcrit : (s.links p d).crit = some c)
    (h : s.runCrit cfg p d c = some s') : Step cfg s (.crit p d) s' := by
  cases c with
  | push k =>
    simp only [State.runCrit] at h
    split at h
    · cases h
    · rename_i t ht
      split at h
      · cases h
        exact .push hcrit ht ‹_›
      · cases h
        exact .next hcrit (.busy ht ‹_›)
      · cases h
        exact .pushPanic hcrit ht ‹_›
  | pushed k =>
    cases h
    exact .pushed hcrit
  | head k =>
    simp only [State.runCrit] at h
    split at h
    · cases h
      exact .headEmpty hcrit ‹_›
    · cases h
      exact .next hcrit (.head (by simpa using ‹¬ (s.links p d).cmdBuffer.empty = true›))
  | transfer hd => cases h
  | scan hd todo freed =>
    cases todo with
    | nil =>
      cases h
      exact .next hcrit .scanEnd
    | cons addr todo =>
      simp only [State.runCrit] at h
      split at h
      · cases h
        exact .next hcrit (.scanGone ‹_›)
      · rename_i b hb
        split at h
        · cases h
          exact .scanPanic hcrit hb ‹_›
        · rename_i hcheck
          cases h
          obtain ⟨-, hstate⟩ | ⟨hfalse, -⟩ := checkFreed_cases hcheck
          · exact .next hcrit (.scanFree hb hstate)
          · cases hfalse
        · rename_i hcheck
          cases h
          obtain ⟨htrue, -⟩ | ⟨-, hstate⟩ := checkFreed_cases hcheck
          · cases htrue
          · exact .next hcrit (.scanRelease hb hstate)
  | freeData hd freed =>
    cases freed with
    | nil =>
      cases hd with
      | recv =>
        cases h
        exact .checked hcrit
      | first k =>
        cases h
        exact .next hcrit (.freeEnd (by simp))
      | second k =>
        cases h
        exact .next hcrit (.freeEnd (by simp))
    | cons addr freed =>
      simp only [State.runCrit] at h
      split at h
      · cases h
        exact .next hcrit (.freeGone ‹_›)
      · cases h
        exact .freeData hcrit ‹_›
  | sending hd =>
    simp only [State.runCrit] at h
    split at h
    · cases h
      exact .next hcrit (.sending ‹_›)
    · rename_i hnot
      cases h
      rw [not_or] at hnot
      exact .next hcrit (.notSending hnot.1 (List.length_eq_zero_iff.mp (by omega)))
  | flush hd =>
    cases h
    by_cases hslot : (s.links p d).sendSlot.hash = CmdMsg.clearCmd.hash
    · simp only [State.flush, if_pos hslot]
      exact .flush hcrit hslot rfl
    · simp only [State.flush, if_neg hslot]
      exact .next hcrit (.notClear hslot)
  | sent hd result =>
    cases hd with
    | first k =>
      cases h
      exact .sentFirst hcrit
    | second k =>
      cases result with
      | true =>
        cases h
        exact .sentSecond hcrit
      | false => cases h
    | recv => cases h

theorem exchange_cases {k : ℕ} {weak : Bool}
    (hcrit : (s.links p d).crit = some (.sent (.second k) false))
    (h : s.exchange p d k weak = some s') : Step cfg s (.exchange p d weak) s' := by
  simp only [State.exchange] at h
  split at h
  · cases h
  · rename_i task htask
    split at h
    · cases h
      exact .goOn hcrit htask ‹_›
    · rename_i hwaiting
      have hwaiting : task.imWaiting = false := by simpa using hwaiting
      split at h
      · cases h
        exact .exchangeFails hcrit htask hwaiting ‹_›
      · rename_i hflag
        cases h
        rw [not_or] at hflag
        exact .exchange hcrit htask hwaiting (by simpa using hflag.1)

theorem poll_cases : Step cfg s (.poll p d) (s.poll p d) := by
  simp only [State.poll]
  split
  · cases hcmd : (s.links p d).recvSlot.cmd with
    | clear => exact .poll
    | tx =>
      simp only
      split
      · exact .poll
      · exact .pollTx hcmd
    | print =>
      simp only
      split
      · exact .poll
      · exact .pollPrint hcmd
    | free =>
      simp only
      split
      · exact .poll
      · exact .pollPanic hcmd (by simp) (Or.inr rfl)
    | release =>
      simp only
      split
      · exact .poll
      · exact .pollPanic hcmd (by simp) (Or.inr rfl)
    | alloc =>
      have hstep := @Step.pollPanic P cfg s p d _ _ hcmd (by simp) (Or.inl rfl)
      rwa [State.setLink_self] at hstep
    | panic =>
      have hstep := @Step.pollPanic P cfg s p d _ _ hcmd (by simp) (Or.inl rfl)
      rwa [State.setLink_self] at hstep
  · exact .poll

theorem runFetch_cases {j : ℕ} {f : Fetch} (hf : (s.links p d).fetches[j]? = some f)
    (h : s.runFetch p d j f = some s') : Step cfg s (.fetch p d j) s' := by
  unfold State.runFetch at h
  split at h
  · cases h
    exact .fetchGet hf ‹_›
  · split at h
    · cases h
      exact .fetchWait hf ‹_›
    · cases h
  · cases h
    simp only [State.setFetch, State.putState, State.links_setLink_self, State.setLink_setLink]
    exact .fetchRelease hf ‹_›
  · cases h
    exact .fetchDone hf ‹_›
  · split at h
    · cases h
      exact .fetchSpawn hf ‹_›
    · cases h
      exact .fetchPanic hf ‹_› (not_not.mp ‹_›)
  · cases h
  · cases h

theorem runCmd_cases {j i : ℕ} {checksum : UInt64} {f : Fetch} {c : CmdMsg} {pc : CmdPc}
    (hf : (s.links p d).fetches[j]? = some f) (hi : f.tasks[i]? = some (c, pc))
    (h : s.runCmd p d j i checksum f c pc = some s') :
    Step cfg s (.cmd p d j i checksum) s' := by
  cases pc with
  | get =>
    simp only [State.runCmd] at h
    split at h
    · cases h
      exact .cmdGet hf hi
    · cases h
  | submit =>
    cases h
    exact .cmdSubmit hf hi
  | count =>
    cases h
    exact .cmdCount hf hi
  | free =>
    cases h
    simp only [State.setFetch, State.putState, State.links_setLink_self, State.setLink_setLink]
    exact .cmdFree hf hi
  | done => cases h

/-- Every step is one of the list. -/
theorem step_cases {a : Action P} (h : s.step cfg a = some s') : Step cfg s a s' := by
  cases a with
  | send p d addr len hash =>
    cases h
    exact .send p d addr len hash
  | task k =>
    simp only [State.step] at h
    split at h
    · exact runTask_cases ‹_› ‹_› h
    · cases h
  | crit p d =>
    simp only [State.step] at h
    split at h
    · exact runCrit_cases ‹_› h
    · cases h
  | transfer p d order =>
    simp only [State.step] at h
    split at h
    · exact transfer_cases ‹_› h
    · cases h
  | exchange p d weak =>
    simp only [State.step] at h
    split at h
    · exact exchange_cases ‹_› h
    · cases h
  | checkTransfers p d =>
    simp only [State.step] at h
    split at h
    · rename_i hif
      cases h
      exact .checkTransfers hif.1 (Option.isNone_iff_eq_none.mp hif.2)
    · cases h
  | poll p d =>
    simp only [State.step] at h
    split at h
    · cases h
      exact poll_cases
    · cases h
  | fetch p d j =>
    simp only [State.step] at h
    split at h
    · exact runFetch_cases ‹_› h
    · cases h
  | cmd p d j i checksum =>
    simp only [State.step] at h
    split at h
    · split at h
      · exact runCmd_cases ‹_› ‹_› h
      · cases h
    · cases h
  | print p d j i =>
    simp only [State.step] at h
    split at h
    · split at h
      · simp only [State.print] at h
        split at h
        · cases h
          exact .print ‹_› rfl rfl
        · cases h
      · cases h
    · cases h
  | deliverSlot p d =>
    simp only [State.step] at h
    split at h
    · cases h
      exact .deliverSlot ‹_›
    · cases h
  | deliverState p d =>
    simp only [State.step] at h
    split at h
    · cases h
      exact .deliverState ‹_›
    · cases h
  | status p status =>
    cases h
    exact .status p status
  | hold p addr =>
    cases h
    exact .hold p addr
  | drop p addr =>
    simp only [State.step] at h
    split at h
    · cases h
      exact .drop ‹_›
    · cases h

end Lamellar.CommandQueue
