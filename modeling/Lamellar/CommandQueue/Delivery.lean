import Lamellar.CommandQueue.Fetches
import Lamellar.CommandQueue.Tasks

/-!
# Delivery

`try_sending_buffer` takes a slot for clear when its hash is that of a clear one. A `Tx` may
have this hash as well: then the slot is put once more, and its buffer is fetched twice. In
the runs in which no such `Tx` is written the invariant of the links holds, and with it every
call of `send` is fetched, submitted and counted down once.
-/

namespace Lamellar.CommandQueue

variable {P : ℕ} {cfg : Config P} {sends sends' : List (Send P)} {p d : Fin P} {l : Link}
  {stage : UInt64 → Stage}

/-- The sum over the fields of the `Tx` that names a buffer. -/
def CmdBuf.txSum (mem : Mem) (b : CmdBuf) : UInt64 :=
  b.addr + b.size + Cmd.tx.toUInt64 + calcHash (b.cmds mem)

theorem txCmd_hash_eq_clear {mem : Mem} {b : CmdBuf} {slot : CmdMsg} :
    (CmdMsgBuffer.txCmd mem b slot).hash = CmdMsg.clearCmd.hash ↔
      b.txSum mem = 0 ∨ b.txSum mem = 1 := by
  have hclear : CmdMsg.clearCmd.hash = 1 := by decide
  rw [hclear]
  show (if b.txSum mem = 0 then 1 else b.txSum mem) = 1 ↔ _
  split
  · rename_i hzero
    simp [hzero]
  · rename_i hne
    simp [hne]

/-- The buffer that is flushed next has a `Tx` that passes for a clear slot. -/
def State.collides (s : State P) (p d : Fin P) : Bool :=
  match (s.links p d).crit, (s.links p d).cmdBuffer.takeFlush with
  | some (.flush _), some (b, _) =>
    (s.links p d).sendSlot.hash = CmdMsg.clearCmd.hash ∧
      (b.txSum (s.links p d).mem = 0 ∨ b.txSum (s.links p d).mem = 1)
  | _, _ => false

def NoCollision (s : State P) : Action P → Prop
  | .crit p d => s.collides p d = false
  | _ => True

instance (s : State P) : (a : Action P) → Decidable (NoCollision s a)
  | .crit p d => inferInstanceAs (Decidable (s.collides p d = false))
  | .send .. | .task .. | .transfer .. | .exchange .. | .checkTransfers .. | .poll ..
  | .fetch .. | .cmd .. | .print .. | .deliverSlot .. | .deliverState .. | .status ..
  | .hold .. | .drop .. => isTrue trivial

/-! ## The calls of other links -/

/-- The calls of a link keep what they have, apart from `pending`. New ones have nothing. -/
structure Kept (p d : Fin P) (sends sends' : List (Send P)) : Prop where
  kept : ∀ (k : ℕ) (t : Send P), sends[k]? = some t → t.pe = p → t.dst = d →
    ∃ pending, sends'[k]? = some { t with pending }
  fresh : ∀ (k : ℕ) (t' : Send P), sends'[k]? = some t' → t'.pe = p → t'.dst = d →
    (∃ t pending, sends[k]? = some t ∧ t' = { t with pending }) ∨
      t'.pushed = false ∧ t'.fetched = 0 ∧ t'.submitted = 0 ∧ t'.decremented = 0

theorem Content.kept {mem : Mem} {m : CmdMsgBuffer} {counts : UInt64 → ℕ → ℕ × ℕ}
    (h : Content sends p d mem m counts) (hsends : Kept p d sends sends') :
    Content sends' p d mem m counts where
  held := by
    intro b hb i hi
    obtain ⟨t, ht, hholds⟩ := h.held b hb i hi
    obtain ⟨pending, ht'⟩ := hsends.kept _ t ht hholds.pe hholds.dst
    exact ⟨_, ht', hholds.pe, hholds.dst, hholds.addr, hholds.len, hholds.hash, hholds.len_ne,
      hholds.pushed, hholds.counts, hholds.decremented⟩
  inj := h.inj
  unpushed := by
    intro k t' ht' hpe hdst hpushed
    rcases hsends.fresh k t' ht' hpe hdst with ⟨t, pending, ht, rfl⟩ | ⟨-, hnew⟩
    · exact h.unpushed k t ht hpe hdst hpushed
    · exact hnew
  gone := by
    intro k t' ht' hpe hdst hpushed hgone
    rcases hsends.fresh k t' ht' hpe hdst with ⟨t, pending, ht, rfl⟩ | ⟨hnew, -⟩
    · exact h.gone k t ht hpe hdst hpushed hgone
    · rw [hpushed] at hnew
      cases hnew

theorem LinkInv.kept (h : LinkInv cfg sends p d l stage) (hsends : Kept p d sends sends') :
    LinkInv cfg sends' p d l stage :=
  { h with content := h.content.kept hsends }

namespace Kept

theorem refl : Kept p d sends sends where
  kept := fun _ t ht _ _ => ⟨t.pending, ht⟩
  fresh := fun _ t ht _ _ => Or.inl ⟨t, t.pending, ht, rfl⟩

theorem append {t : Send P} (hpushed : t.pushed = false) (hfetched : t.fetched = 0)
    (hsubmitted : t.submitted = 0) (hdecremented : t.decremented = 0) :
    Kept p d sends (sends ++ [t]) where
  kept := by
    intro k t₀ ht₀ _ _
    refine ⟨t₀.pending, ?_⟩
    rw [List.getElem?_append_left (List.getElem?_eq_some_iff.mp ht₀).1, ht₀]
  fresh := by
    intro k t' ht' _ _
    by_cases hk : k < sends.length
    · rw [List.getElem?_append_left hk] at ht'
      exact Or.inl ⟨t', t'.pending, ht', rfl⟩
    · rw [List.getElem?_append_right (Nat.not_lt.mp hk), List.getElem?_singleton] at ht'
      split at ht'
      · cases ht'
        exact Or.inr ⟨hpushed, hfetched, hsubmitted, hdecremented⟩
      · cases ht'

theorem pending {k : ℕ} {value : Bool} :
    Kept p d sends (sends.modify k fun t => { t with pending := value }) where
  kept := by
    intro k' t ht _ _
    by_cases hk : k = k'
    · exact ⟨value, by simp [hk, ht]⟩
    · exact ⟨t.pending, by simp [hk, ht]⟩
  fresh := by
    intro k' t' ht' _ _
    rw [List.getElem?_modify] at ht'
    obtain ⟨t, ht, rfl⟩ := Option.map_eq_some_iff.mp ht'
    refine Or.inl ⟨t, if k = k' then value else t.pending, ht, ?_⟩
    split <;> rfl

/-- A call of another link changes. -/
theorem modify {k : ℕ} {g : Send P → Send P}
    (hg : ∀ t : Send P, (g t).pe = t.pe ∧ (g t).dst = t.dst)
    (hother : ∀ t, sends[k]? = some t → ¬ (t.pe = p ∧ t.dst = d)) :
    Kept p d sends (sends.modify k g) where
  kept := by
    intro k' t ht hpe hdst
    have hk : k ≠ k' := by
      rintro rfl
      exact hother t ht ⟨hpe, hdst⟩
    exact ⟨t.pending, by simp [hk, ht]⟩
  fresh := by
    intro k' t' ht' hpe hdst
    rw [List.getElem?_modify] at ht'
    obtain ⟨t, ht, rfl⟩ := Option.map_eq_some_iff.mp ht'
    split at hpe
    · rename_i hk
      subst hk
      rw [if_pos rfl] at hdst
      exact absurd ⟨(hg t).1 ▸ hpe, (hg t).2 ▸ hdst⟩ (hother t ht)
    · rename_i hk
      rw [if_neg hk]
      exact Or.inl ⟨t, t.pending, ht, rfl⟩

/-- The commands of a buffer of another link are counted down. -/
theorem decremented {cmds : List CmdMsg}
    (hother : ∀ c ∈ cmds, ∀ t, sends[c.send]? = some t → ¬ (t.pe = p ∧ t.dst = d))
    (hsends : Decremented cmds sends sends') : Kept p d sends sends' := by
  have hnot : ∀ (k : ℕ) (t : Send P), sends[k]? = some t → t.pe = p → t.dst = d →
      k ∉ cmds.map CmdMsg.send := by
    intro k t ht hpe hdst hk
    obtain ⟨c, hc, rfl⟩ := List.mem_map.mp hk
    exact hother c hc t ht ⟨hpe, hdst⟩
  constructor
  case kept =>
    intro k t ht hpe hdst
    exact ⟨t.pending, by rw [hsends k, if_neg (hnot k t ht hpe hdst), ht]⟩
  case fresh =>
    intro k t' ht' hpe hdst
    rw [hsends k] at ht'
    split at ht'
    · rename_i hk
      obtain ⟨t, ht, rfl⟩ := Option.map_eq_some_iff.mp ht'
      exact absurd hk (hnot k t ht hpe hdst)
    · exact Or.inl ⟨t', t'.pending, ht', rfl⟩

end Kept

/-! ## Reference counts -/

/-- The call holds a reference to an address of a PE. -/
def Send.owed (p : Fin P) (addr : UInt64) (t : Send P) : Bool :=
  t.pe = p ∧ t.addr = addr ∧ t.decremented = 0

/-- A reference count has one for each handle, and one for each call that has not been counted
down. -/
def State.Refs (s : State P) : Prop :=
  ∀ p addr, s.refCnt p addr = s.handles p addr + s.sends.countP (Send.owed p addr)

namespace State

variable {s : State P}

/-- Something else about a call changes. -/
theorem Refs.setSend {k : ℕ} {g : Send P → Send P} (h : s.Refs)
    (hg : ∀ t : Send P, (g t).pe = t.pe ∧ (g t).addr = t.addr ∧ (g t).decremented = t.decremented) :
    (s.setSend k g).Refs := by
  intro p addr
  have hcount : (s.sends.modify k g).countP (Send.owed p addr) =
      s.sends.countP (Send.owed p addr) := by
    refine Roster.countP_modify_of_iff fun t => ?_
    unfold Send.owed
    rw [(hg t).1, (hg t).2.1, (hg t).2.2]
  exact (h p addr).trans (congrArg _ hcount.symm)

theorem Refs.send {addr len hash : UInt64} (h : s.Refs) : (s.send p d addr len hash).Refs := by
  intro p' addr'
  have hold := h p' addr'
  simp only [State.send, List.countP_append, List.countP_singleton, Function.update_apply]
  by_cases hp : p' = p
  · subst hp
    by_cases ha : addr' = addr
    · subst ha
      simp [Send.owed, hold, Nat.add_assoc]
    · simp [Send.owed, ha, Ne.symm ha, hold]
  · simp [Send.owed, hp, Ne.symm hp, hold]

theorem Refs.hold {addr : UInt64} (h : s.Refs) :
    ({ s with
      handles := Function.update s.handles p
        (Function.update (s.handles p) addr (s.handles p addr + 1))
      refCnt := Function.update s.refCnt p
        (Function.update (s.refCnt p) addr (s.refCnt p addr + 1)) } : State P).Refs := by
  intro p' addr'
  have hold := h p' addr'
  simp only [Function.update_apply]
  by_cases hp : p' = p
  · subst hp
    by_cases ha : addr' = addr
    · subst ha
      simp only [if_true, Function.update_self]
      omega
    · simp [ha, hold]
  · simp [hp, hold]

theorem Refs.drop {addr : UInt64} (h : s.Refs) (hpos : 0 < s.handles p addr) :
    ({ s.decrement p addr with
      handles := Function.update s.handles p
        (Function.update (s.handles p) addr (s.handles p addr - 1)) } : State P).Refs := by
  intro p' addr'
  have hold := h p' addr'
  simp only [State.decrement, Function.update_apply]
  by_cases hp : p' = p
  · subst hp
    by_cases ha : addr' = addr
    · subst ha
      simp only [if_true, Function.update_self]
      omega
    · simp [ha, hold]
  · simp [hp, hold]

/-- One turn of the loop over the commands in `check_free_data`. -/
theorem Refs.decrement {c : CmdMsg} {t : Send P} (h : s.Refs) (ht : s.sends[c.send]? = some t)
    (hpe : t.pe = p) (haddr : t.addr = c.daddr) (hzero : t.decremented = 0) :
    ((s.decrement p c.daddr).setSend c.send
      fun t => { t with decremented := t.decremented + 1 }).Refs := by
  intro p' addr'
  have hold := h p' addr'
  have hcount := Roster.countP_modify (Send.owed p' addr')
    (fun t : Send P => { t with decremented := t.decremented + 1 }) ht
  simp only [State.setSend, State.decrement, Function.update_apply]
  by_cases hp : p' = p
  · subst hp
    by_cases ha : addr' = c.daddr
    · subst ha
      simp only [Send.owed, hpe, haddr, hzero, and_self, decide_true, if_true, Nat.zero_add,
        Nat.one_ne_zero, and_false, decide_false, Bool.false_eq_true, if_false] at hcount
      simp only [if_true, Function.update_self]
      omega
    · have hne : t.addr ≠ addr' := fun heq => ha (heq.symm.trans haddr)
      simp only [Send.owed, hne, false_and, and_false, decide_false, Bool.false_eq_true, if_false,
        Nat.add_zero] at hcount
      simp [ha, hold, hcount]
  · have hne : t.pe ≠ p' := fun heq => hp (heq.symm.trans hpe)
    simp only [Send.owed, hne, false_and, decide_false, Bool.false_eq_true, if_false,
      Nat.add_zero] at hcount
    simp [hp, hold, hcount]

theorem Refs.freeCmds {cmds : List CmdMsg} (h : s.Refs)
    (hnodup : (cmds.map CmdMsg.send).Nodup)
    (hcmds : ∀ c ∈ cmds, 0 < c.dsize ∧ ∃ t, s.sends[c.send]? = some t ∧ t.pe = p ∧
      t.addr = c.daddr ∧ t.decremented = 0) :
    (s.freeCmds p cmds).Refs ∧ Decremented cmds s.sends (s.freeCmds p cmds).sends := by
  induction cmds generalizing s with
  | nil => exact ⟨h, fun k => by simp [State.freeCmds]⟩
  | cons c cmds ih =>
    obtain ⟨hsize, t, ht, hpe, haddr, hzero⟩ := hcmds c List.mem_cons_self
    rw [List.map_cons, List.nodup_cons] at hnodup
    have hne : ∀ c' ∈ cmds, c.send ≠ c'.send := by
      intro c' hc' heq
      exact hnodup.1 (heq ▸ List.mem_map_of_mem hc')
    obtain ⟨hrefs, hsends⟩ := ih (h.decrement ht hpe haddr hzero) hnodup.2 (by
      intro c' hc'
      obtain ⟨hsize', t', ht', hrest⟩ := hcmds c' (List.mem_cons_of_mem c hc')
      exact ⟨hsize', t', by rw [← ht']; exact Roster.modify_of_ne (hne c' hc'), hrest⟩)
    have hfree : s.freeCmds p (c :: cmds) = ((s.decrement p c.daddr).setSend c.send
        fun t => { t with decremented := t.decremented + 1 }).freeCmds p cmds := by
      simp only [State.freeCmds, List.foldl_cons, if_pos hsize]
    rw [hfree]
    refine ⟨hrefs, fun k => ?_⟩
    rw [hsends k]
    by_cases hk : c.send = k
    · subst hk
      rw [if_neg hnodup.1, if_pos (by simp)]
      simp [State.setSend, State.decrement, ht]
    · have hold : ((s.decrement p c.daddr).setSend c.send
          fun t => { t with decremented := t.decremented + 1 }).sends[k]? = s.sends[k]? :=
        Roster.modify_of_ne hk
      rw [hold]
      simp [Ne.symm hk]

end State

/-! ## Steps -/

theorem LinkInv.next {s : State P} {c c' : Crit}
    (h : LinkInv cfg s.sends p d (s.links p d) stage) (htasks : s.TaskOk)
    (hcrit : (s.links p d).crit = some c) (hnext : Crit.Next cfg s p d c c') :
    LinkInv cfg s.sends p d { s.links p d with crit := some c' } stage := by
  have hfreed := h.freed c hcrit
  refine h.setCrit _ ?_ ?_
  · rintro x ⟨rfl⟩
    cases hnext with
    | scanFree hb hstate =>
      intro addr' haddr' b' hb' heq
      rcases List.mem_append.mp haddr' with haddr' | haddr'
      · exact hfreed addr' haddr' b' hb' heq
      · obtain ⟨hmem, haddr⟩ := mem_of_lookup hb
        rw [List.mem_singleton.mp haddr', ← haddr] at heq
        rw [h.placed.eq_of_addr
          (mem_all_of_used (mem_used_of_inFlight (mem_inFlight_of_waiting hb')))
          (mem_all_of_used (mem_used_of_inFlight (mem_inFlight_of_waiting hmem))) heq]
        exact hstate
    | freeGone hb => exact fun addr' haddr' => hfreed addr' (List.mem_cons_of_mem _ haddr')
    | _ => exact hfreed
  · rintro hd ⟨rfl⟩
    cases hnext with
    | sending hgo => exact htasks.flush_pos h.placed hgo

/-- `try_sending_buffer` finds nothing to send, and puts the slot as it is. -/
theorem LinkInv.reput {hd : Holder} {put : Bool} (h : LinkInv cfg sends p d l stage)
    (hslot : l.sendSlot.cmd ≠ .tx) :
    LinkInv cfg sends p d
      { l with
        slotPuts := if put then l.slotPuts ++ [l.sendSlot] else l.slotPuts
        crit := some (.sent hd true) } stage where
  placed := h.placed
  flight := h.flight
  slot := h.slot
  inbox := by
    cases put with
    | false => exact h.inbox
    | true =>
      rw [if_pos rfl, ← List.cons_append]
      refine h.inbox.append h.slot.hash ?_
      rcases h.slot.kind with hkind | hkind | hkind
      · exact Or.inl hkind
      · exact Or.inr hkind
      · exact absurd hkind hslot
  back := h.back
  fetching := h.fetching
  content := h.content
  freed := by simp [Crit.freed]
  ready := by simp

theorem LinkInv.slot_ne_tx (h : LinkInv cfg sends p d l stage)
    (hslot : l.sendSlot.hash = CmdMsg.clearCmd.hash) : l.sendSlot.cmd ≠ .tx :=
  fun htx => (h.slot.tx htx).1 hslot

theorem LinkInv.flush {s : State P} {hd : Holder} {m : CmdMsgBuffer} {slot : CmdMsg}
    (h : LinkInv cfg s.sends p d (s.links p d) stage)
    (hcrit : (s.links p d).crit = some (.flush hd))
    (hslot : (s.links p d).sendSlot.hash = CmdMsg.clearCmd.hash)
    (hflush : (s.links p d).cmdBuffer.flushBuffer (s.links p d).mem (s.links p d).sendSlot =
      (m, slot)) (hok : s.collides p d = false) (put : Bool) :
    ∃ stage', LinkInv cfg s.sends p d
      { s.links p d with
        cmdBuffer := m
        sendSlot := slot
        slotPuts := if put then (s.links p d).slotPuts ++ [slot] else (s.links p d).slotPuts
        crit := some (.sent hd true) } stage' := by
  have hkind := h.slot_ne_tx hslot
  simp only [CmdMsgBuffer.flushBuffer] at hflush
  split at hflush
  · rename_i b m' htake
    cases hflush
    refine ⟨_, h.flushed (h.slot.free hkind) htake (h.ready hd hcrit b m' htake) ?_⟩
    rw [ne_eq, txCmd_hash_eq_clear]
    simpa [State.collides, hcrit, htake, hslot] using hok
  · cases hflush
    exact ⟨stage, h.reput hkind⟩

/-- The calls of the commands in a buffer in flight. -/
theorem LinkInv.cmds_owed {b : CmdBuf} (h : LinkInv cfg sends p d l stage)
    (hb : b ∈ l.cmdBuffer.used) :
    ((b.cmds l.mem).map CmdMsg.send).Nodup ∧
      ∀ c ∈ b.cmds l.mem, 0 < c.dsize ∧ ∃ t, sends[c.send]? = some t ∧ t.pe = p ∧ t.dst = d ∧
        t.addr = c.daddr ∧ t.decremented = 0 := by
  constructor
  · rw [CmdBuf.cmds, List.map_map]
    refine List.Nodup.map_on ?_ List.nodup_range
    intro i hi i' hi' heq
    exact (h.content.inj b hb b hb i (List.mem_range.mp hi) i' (List.mem_range.mp hi') heq).2
  · intro c hc
    obtain ⟨i, hi, rfl⟩ := List.mem_map.mp hc
    obtain ⟨t, ht, hholds⟩ := h.content.held b hb i (List.mem_range.mp hi)
    refine ⟨?_, t, ht, hholds.pe, hholds.dst, hholds.addr, hholds.decremented⟩
    rw [← hholds.len, UInt64.pos_iff_ne_zero]
    exact hholds.len_ne

structure State.Delivers (cfg : Config P) (s : State P) : Prop where
  links : ∀ p d, ∃ stage, LinkInv cfg s.sends p d (s.links p d) stage
  refs : s.Refs
  panics : ∀ e ∈ s.panics, e = .push

namespace State.Delivers

variable {s : State P}

theorem setTask {k : ℕ} {f : Task → Task} (h : s.Delivers cfg) :
    (s.setTask k f).Delivers cfg :=
  ⟨h.links, h.refs, h.panics⟩

/-- One link changes, and the calls stay. -/
theorem setLink (h : s.Delivers cfg) (hl : ∃ stage, LinkInv cfg s.sends p d l stage) :
    (s.setLink p d l).Delivers cfg where
  links := by
    intro p' d'
    rw [State.links_setLink]
    split
    · rename_i heq
      rw [heq.1, heq.2]
      exact hl
    · exact h.links p' d'
  refs := h.refs
  panics := h.panics

/-- One link changes, and a call of this link with it. -/
theorem setLink_setSend {k : ℕ} {g : Send P → Send P} (h : s.Delivers cfg)
    (hl : ∃ stage, LinkInv cfg (s.sends.modify k g) p d l stage)
    (hk : ∀ t, s.sends[k]? = some t → t.pe = p ∧ t.dst = d)
    (hg : ∀ t : Send P, (g t).pe = t.pe ∧ (g t).dst = t.dst ∧ (g t).addr = t.addr ∧
      (g t).decremented = t.decremented) : ((s.setLink p d l).setSend k g).Delivers cfg where
  links := by
    intro p' d'
    show ∃ stage, LinkInv cfg (s.sends.modify k g) p' d' ((s.setLink p d l).links p' d') stage
    rw [State.links_setLink]
    split
    · rename_i heq
      rw [heq.1, heq.2]
      exact hl
    · rename_i hne
      obtain ⟨stage, hlink⟩ := h.links p' d'
      refine ⟨stage, hlink.kept (Kept.modify (fun t => ⟨(hg t).1, (hg t).2.1⟩) fun t ht heq => ?_)⟩
      obtain ⟨hpe, hdst⟩ := hk t ht
      exact hne ⟨heq.1.symm.trans hpe, heq.2.symm.trans hdst⟩
  refs := by
    have hrefs : (s.setLink p d l).Refs := h.refs
    exact hrefs.setSend fun t => ⟨(hg t).1, (hg t).2.2⟩
  panics := h.panics

theorem setCrit {crit : Option Crit} (h : s.Delivers cfg)
    (hfreed : ∀ c, crit = some c → c.freed = []) (hflush : ∀ hd, crit ≠ some (.flush hd)) :
    (s.setCrit p d crit).Delivers cfg := by
  obtain ⟨stage, hl⟩ := h.links p d
  refine h.setLink ⟨stage, hl.setCrit crit ?_ ?_⟩
  · intro c hc addr haddr
    rw [hfreed c hc] at haddr
    cases haddr
  · exact fun hd hc => absurd hc (hflush hd)

/-- The lock is given back, and the waiting flag may change. -/
theorem unlock {sendWaiting : Bool} (h : s.Delivers cfg) :
    (s.setLink p d { s.links p d with sendWaiting, crit := none }).Delivers cfg := by
  obtain ⟨stage, hl⟩ := h.links p d
  exact h.setLink ⟨stage, (hl.setWaiting sendWaiting).setCrit none (by simp) (by simp)⟩

theorem push {k : ℕ} {t : Send P} {mem : Mem} {m : CmdMsgBuffer} (h : s.Delivers cfg)
    (htasks : s.TaskOk) (hcrit : (s.links p d).crit = some (.push k))
    (ht : s.sends[k]? = some t)
    (hpush : (s.links p d).cmdBuffer.tryPush cfg.cmdBufLen (s.links p d).mem t.addr t.len
      t.hash k = .pushed mem m) :
    ((s.setLink p d { s.links p d with mem, cmdBuffer := m, crit := some (.pushed k) }).setSend
      k fun t => { t with pushed := true }).Delivers cfg := by
  obtain ⟨c, task, hc, htask, hpe, hdst, -, hfirst⟩ :=
    TaskInv.holder htasks p d (.push k) k hcrit rfl
  rw [State.core_of_send ht] at hc
  cases hc
  have hunpushed : t.pushed = false := (hfirst rfl).2
  obtain ⟨b, hcur, hlen, heq⟩ | ⟨-, heq⟩ | ⟨-, heq⟩ := tryPush_cases cfg.cmdBufLen
    (s.links p d).mem (s.links p d).cmdBuffer t.addr t.len t.hash k
  all_goals
    rw [hpush] at heq
    cases heq
  obtain ⟨stage, hl⟩ := h.links p d
  have htake := hl.takeCur (some (.pushed k))
    (fun c hc => by cases hc; rfl) (by simp)
  have hpushed := htake.push (c := b.pushCmd (s.links p d).mem t.addr t.len t.hash k)
    (some (.pushed k)) hcur ht hpe hdst hunpushed hlen rfl rfl
    (fun c hc => by cases hc; rfl) (by simp)
  refine h.setLink_setSend ⟨stage, hpushed⟩ ?_ fun t => ⟨rfl, rfl, rfl, rfl⟩
  intro t' ht'
  rw [ht] at ht'
  cases ht'
  exact ⟨hpe, hdst⟩

theorem freeData {hd : Holder} {addr : UInt64} {freed : List UInt64} {b : CmdBuf}
    (h : s.Delivers cfg) (hcrit : (s.links p d).crit = some (.freeData hd (addr :: freed)))
    (hb : lookup addr (s.links p d).cmdBuffer.waitingBufs = some b) :
    ((s.freeCmds p (b.cmds (s.links p d).mem)).setLink p d
      { s.links p d with
        cmdBuffer := (s.links p d).cmdBuffer.giveBack b
        crit := some (.freeData hd freed) }).Delivers cfg := by
  obtain ⟨stage, hl⟩ := h.links p d
  obtain ⟨hmem, haddr⟩ := mem_of_lookup hb
  have hfreed := hl.freed _ hcrit
  obtain ⟨hnodup, howed⟩ :=
    hl.cmds_owed (mem_used_of_inFlight (mem_inFlight_of_waiting hmem))
  obtain ⟨hrefs, hsends⟩ := h.refs.freeCmds (p := p) hnodup (by
    intro c hc
    obtain ⟨hsize, t, ht, hpe, -, hrest⟩ := howed c hc
    exact ⟨hsize, t, ht, hpe, hrest⟩)
  obtain ⟨hlinks, -, -, hpanics, -⟩ := State.freeCmds_frame s p (b.cmds (s.links p d).mem)
  constructor
  case links =>
    intro p' d'
    rw [State.links_setLink]
    split
    · rename_i heq
      rw [heq.1, heq.2]
      exact ⟨_, hl.gaveBack hmem (hfreed addr List.mem_cons_self b hmem haddr)
        (fun addr' haddr' => hfreed addr' (List.mem_cons_of_mem addr haddr')) hsends⟩
    · rename_i hne
      rw [hlinks]
      obtain ⟨stage', hl'⟩ := h.links p' d'
      refine ⟨stage', hl'.kept (Kept.decremented ?_ hsends)⟩
      intro c hc t ht heq
      obtain ⟨-, t', ht', hpe, hdst, -⟩ := howed c hc
      rw [ht] at ht'
      cases ht'
      exact hne ⟨heq.1.symm.trans hpe, heq.2.symm.trans hdst⟩
  case refs => exact hrefs
  case panics =>
    intro e he
    exact h.panics e (hpanics ▸ he)

/-- The task of a command goes on, and its call counts it. -/
theorem advanceCmd {j i : ℕ} {f : Fetch} {c : CmdMsg} {pc pc' : CmdPc} {g : Send P → Send P}
    (h : s.Delivers cfg) (hf : (s.links p d).fetches[j]? = some f)
    (hi : f.tasks[i]? = some (c, pc)) (hpc : pc.uncounted) (hpc' : pc'.uncounted)
    (hg : ∀ (t : Send P) c, t.Holds p d c pc.counts → (g t).Holds p d c pc'.counts)
    (hkeep : ∀ t : Send P, (g t).pe = t.pe ∧ (g t).dst = t.dst ∧ (g t).addr = t.addr ∧
      (g t).decremented = t.decremented) :
    ((s.setLink p d { s.links p d with
      fetches := (s.links p d).fetches.set j
        { f with tasks := f.tasks.set i (c, pc') } }).setSend c.send g).Delivers cfg := by
  obtain ⟨stage, hl⟩ := h.links p d
  have hne : pc ≠ .done := by
    rintro rfl
    cases hpc
  refine h.setLink_setSend ⟨stage, hl.advanceCmd hf hi hpc hpc' hg⟩ ?_ hkeep
  intro t ht
  obtain ⟨t', ht', hholds⟩ := hl.task_send hf hi hne
  rw [ht] at ht'
  cases ht'
  exact ⟨hholds.pe, hholds.dst⟩

theorem step {a : Action P} {s' : State P} (h : s.Delivers cfg) (htasks : s.TaskOk)
    (hok : NoCollision s a) (hstep : Step cfg s a s') : s'.Delivers cfg := by
  cases hstep with
  | send p d addr len hash =>
    refine ⟨fun p' d' => ?_, h.refs.send, h.panics⟩
    obtain ⟨stage, hl⟩ := h.links p' d'
    exact ⟨stage, hl.kept (Kept.append rfl rfl rfl rfl)⟩
  | start ht htask hpc =>
    refine ⟨fun p' d' => ?_, h.refs.setSend fun t => ⟨rfl, rfl, rfl⟩, h.panics⟩
    obtain ⟨stage, hl⟩ := h.links p' d'
    exact ⟨stage, hl.kept Kept.pending⟩
  | loop1 ht htask hpc => exact h.setTask
  | loop2 ht htask hpc => exact h.setTask
  | lock1 ht htask hpc hcrit =>
    exact (h.setCrit (fun c hc => by cases hc; rfl) (by simp)).setTask
  | lock2 ht htask hpc hcrit =>
    exact (h.setCrit (fun c hc => by cases hc; rfl) (by simp)).setTask
  | @next p d c c' hcrit hnext =>
    obtain ⟨stage, hl⟩ := h.links p d
    exact h.setLink ⟨stage, hl.next htasks hcrit hnext⟩
  | push hcrit ht hpush => exact h.push htasks hcrit ht hpush
  | @pushPanic p d k t m hcrit ht hpush =>
    obtain ⟨b, -, -, heq⟩ | ⟨-, heq⟩ | ⟨-, heq⟩ := tryPush_cases cfg.cmdBufLen
      (s.links p d).mem (s.links p d).cmdBuffer t.addr t.len t.hash k
    all_goals
      rw [hpush] at heq
      cases heq
    obtain ⟨stage, hl⟩ := h.links p d
    have hset := h.setLink ⟨stage, hl.takeCur none (by simp) (by simp)⟩
    refine ⟨hset.links, hset.refs, fun e he => ?_⟩
    rcases List.mem_cons.mp he with rfl | he
    · rfl
    · exact h.panics e he
  | @pushed p d k hcrit =>
    have hset : (s.setCrit p d none).Delivers cfg := h.setCrit (by simp) (by simp)
    refine ⟨fun p' d' => ?_, h.refs.setSend fun t => ⟨rfl, rfl, rfl⟩, h.panics⟩
    obtain ⟨stage, hl⟩ := hset.links p' d'
    exact ⟨stage, hl.kept Kept.pending⟩
  | headEmpty hcrit hempty => exact h.unlock.setTask
  | @transfer p d hd order m done hcrit hcheck horder =>
    obtain ⟨stage, hl⟩ := h.links p d
    refine h.setLink ⟨stage, ?_⟩
    obtain ⟨b, htx, hstate, heq⟩ | heq := hl.checkTransfer
    · rw [hcheck] at heq
      cases heq
      exact hl.released htx hstate
    · rw [hcheck] at heq
      cases heq
      exact hl.setCrit _ (fun c hc => by cases hc; simp [Crit.freed]) (by simp)
  | @transferPanic p d hd order m e hcrit hcheck =>
    obtain ⟨stage, hl⟩ := h.links p d
    obtain ⟨b, -, -, heq⟩ | heq := hl.checkTransfer
    all_goals
      rw [hcheck] at heq
      cases heq
  | @scanPanic p d hd addr todo freed b e hcrit hb hcheck =>
    obtain ⟨stage, hl⟩ := h.links p d
    have hmem := (mem_of_lookup hb).1
    rcases hl.back.state_cases (mem_inFlight_of_waiting hmem) with hstate | hstate | hstate
    · exact absurd hstate (hl.back.waiting b hmem)
    all_goals
      rw [hstate] at hcheck
      cases hcheck
  | freeData hcrit hb => exact h.freeData hcrit hb
  | checked hcrit => exact h.setCrit (by simp) (by simp)
  | @flush p d hd m slot hcrit hslot hflush =>
    obtain ⟨stage, hl⟩ := h.links p d
    have hflushed := hl.flush hcrit hslot hflush hok (decide (0 < slot.dsize))
    simp only [decide_eq_true_eq] at hflushed
    exact h.setLink hflushed
  | sentFirst hcrit => exact (h.setCrit (by simp) (by simp)).setTask
  | sentSecond hcrit => exact h.unlock.setTask
  | goOn hcrit htask hwaiting => exact (h.setCrit (by simp) (by simp)).setTask
  | exchangeFails hcrit htask hwaiting hflag => exact (h.setCrit (by simp) (by simp)).setTask
  | exchange hcrit htask hwaiting hflag => exact h.unlock.setTask
  | checkTransfers hpd hcrit => exact h.setCrit (fun c hc => by cases hc; rfl) (by simp)
  | poll => exact h
  | @pollTx p d hcmd =>
    obtain ⟨stage, hl⟩ := h.links p d
    exact h.setLink ⟨_, hl.readTx hcmd⟩
  | @pollPrint p d hcmd =>
    obtain ⟨stage, hl⟩ := h.links p d
    exact h.setLink ⟨_, hl.readSlot (by simp [hcmd])⟩
  | @pollPanic p d l cmd hcmd hne hlink =>
    obtain ⟨stage, hl⟩ := h.links p d
    rcases hl.inbox.kind _ List.mem_cons_self with hkind | hkind | hkind
    · exact absurd (hcmd.symm.trans hkind) hne.1
    · exact absurd (hcmd.symm.trans hkind) hne.2.1
    · exact absurd (hcmd.symm.trans hkind) hne.2.2
  | @fetchGet p d j f hf hpc =>
    obtain ⟨stage, hl⟩ := h.links p d
    exact h.setLink ⟨stage, hl.fetchGet hf hpc⟩
  | @fetchWait p d j f data hf hpc =>
    obtain ⟨stage, hl⟩ := h.links p d
    exact h.setLink ⟨stage, hl.fetchWait hf hpc⟩
  | @fetchRelease p d j f data hf hpc =>
    obtain ⟨stage, hl⟩ := h.links p d
    exact h.setLink ⟨stage, hl.fetchRelease hf hpc⟩
  | @fetchSpawn p d j f c rest hf hpc =>
    obtain ⟨stage, hl⟩ := h.links p d
    exact h.setLink ⟨stage, hl.fetchSpawn hf hpc⟩
  | @fetchPanic p d j f c rest hf hpc hsize =>
    obtain ⟨stage, hl⟩ := h.links p d
    exact absurd hsize (hl.dsize_ne_zero hf hpc)
  | @fetchDone p d j f hf hpc =>
    obtain ⟨stage, hl⟩ := h.links p d
    exact h.setLink ⟨stage, hl.fetchDone hf hpc⟩
  | cmdGet hf hi =>
    refine h.advanceCmd hf hi rfl rfl ?_ fun t => ⟨rfl, rfl, rfl, rfl⟩
    rintro t c ⟨hpe, hdst, haddr, hlen, hhash, hlen_ne, hpushed, hcounts, hdec⟩
    obtain ⟨hfetched, hsubmitted⟩ := Prod.mk.inj hcounts
    exact ⟨hpe, hdst, haddr, hlen, hhash, hlen_ne, hpushed,
      by simp [hfetched, hsubmitted, CmdPc.counts], hdec⟩
  | cmdSubmit hf hi =>
    refine h.advanceCmd hf hi rfl rfl ?_ fun t => ⟨rfl, rfl, rfl, rfl⟩
    rintro t c ⟨hpe, hdst, haddr, hlen, hhash, hlen_ne, hpushed, hcounts, hdec⟩
    obtain ⟨hfetched, hsubmitted⟩ := Prod.mk.inj hcounts
    exact ⟨hpe, hdst, haddr, hlen, hhash, hlen_ne, hpushed,
      by simp [hfetched, hsubmitted, CmdPc.counts], hdec⟩
  | @cmdCount p d j i _ f c hf hi =>
    obtain ⟨stage, hl⟩ := h.links p d
    exact h.setLink ⟨stage, hl.countCmd hf hi⟩
  | @cmdFree p d j i _ f c hf hi =>
    obtain ⟨stage, hl⟩ := h.links p d
    exact h.setLink ⟨stage, hl.freeCmd hf hi⟩
  | @print p d j i slot hslot hhash hcmd =>
    obtain ⟨stage, hl⟩ := h.links d p
    exact h.setLink ⟨stage, hl.print (hl.slot_ne_tx hslot) hhash hcmd⟩
  | @deliverSlot p d c rest hputs =>
    obtain ⟨stage, hl⟩ := h.links p d
    exact h.setLink ⟨stage, hl.deliverSlot hputs⟩
  | @deliverState p d addr cmd rest hputs =>
    obtain ⟨stage, hl⟩ := h.links p d
    exact h.setLink ⟨stage, hl.deliverState hputs⟩
  | status p status => exact ⟨h.links, h.refs, h.panics⟩
  | hold p addr => exact ⟨h.links, h.refs.hold, h.panics⟩
  | drop hpos => exact ⟨h.links, h.refs.drop hpos, h.panics⟩

end State.Delivers

theorem State.Delivers.new {mem : Fin P → Fin P → Mem} : (State.new cfg mem).Delivers cfg where
  links := by
    intro p d
    have hused : (CmdMsgBuffer.new (cfg.addrs p d)).used = [] := rfl
    refine ⟨fun _ => .idle, ?_⟩
    constructor
    case placed => exact .new
    case flight => simp [State.new, Link.new, CmdMsgBuffer.new, CmdMsgBuffer.inFlight]
    case slot => exact SlotOk.clear
    case inbox => exact {
      hash := by
        simp [State.new, Link.new, CmdMsg.clearCmd, CmdMsg.clear, CmdMsg.calcHash, CmdMsg.hash]
      kind := by simp [State.new, Link.new, CmdMsg.clearCmd, CmdMsg.clear, CmdMsg.calcHash]
      tx := by simp [State.new, Link.new, CmdMsg.clearCmd, CmdMsg.clear, CmdMsg.calcHash]
      one := by simp [State.new, Link.new, CmdMsg.clearCmd, CmdMsg.clear, CmdMsg.calcHash] }
    case back => exact {
      fresh := by simp [State.new, Link.new, CmdMsgBuffer.new, CmdMsgBuffer.filling]
      suffix := by simp [State.new, Link.new, CmdMsgBuffer.new, CmdMsgBuffer.inFlight]
      waiting := by simp [State.new, Link.new, CmdMsgBuffer.new]
      puts := by simp [State.new, Link.new] }
    case fetching => exact {
      ok := by simp [State.new, Link.new]
      named := by simp
      opened := by simp [State.new, Link.new]
      carries := by simp }
    case content => exact {
      held := by simp [State.new, Link.new, hused]
      inj := by simp [State.new, Link.new, hused]
      unpushed := by simp [State.new]
      gone := by simp [State.new] }
    case freed => simp [State.new, Link.new]
    case ready => simp [State.new, Link.new]
  refs := by simp [State.Refs, State.new]
  panics := by simp [State.new]

/-! ## Every call once -/

/-- The command of call `k` lies in a buffer of its PE as it was pushed. -/
def State.Lies (s : State P) (k : ℕ) (t : Send P) : Prop :=
  ∃ b ∈ (s.links t.pe t.dst).cmdBuffer.used, ∃ i < b.index,
    ((s.links t.pe t.dst).mem b.addr i).body = (t.addr, t.len, t.hash, k)

structure State.DeliveredOnce (s : State P) : Prop where
  /-- Nothing happens twice. -/
  once : ∀ (k : ℕ) (t : Send P), s.sends[k]? = some t →
    t.fetched ≤ 1 ∧ t.submitted ≤ 1 ∧ t.decremented ≤ 1
  /-- Nothing happens before the command has been pushed. -/
  unpushed : ∀ (k : ℕ) (t : Send P), s.sends[k]? = some t → t.pushed = false →
    t.fetched = 0 ∧ t.submitted = 0 ∧ t.decremented = 0
  /-- A command stays in its buffer until it has been fetched, and only then its reference is
  dropped. -/
  kept : ∀ (k : ℕ) (t : Send P), s.sends[k]? = some t → t.pushed = true →
    s.Lies k t ∧ t.decremented = 0 ∨ t.fetched = 1 ∧ t.submitted = 1 ∧ t.decremented = 1
  /-- A PE fetches only what has been sent to it. -/
  addressed : ∀ (p d : Fin P) (j i : ℕ) (f : Fetch) (c : CmdMsg) (pc : CmdPc),
    (s.links p d).fetches[j]? = some f → f.tasks[i]? = some (c, pc) → pc ≠ .done →
    ∃ t, s.sends[c.send]? = some t ∧ t.pe = p ∧ t.dst = d ∧ t.addr = c.daddr ∧ t.len = c.dsize ∧
      t.hash = c.msgHash
  refs : ∀ p addr, s.refCnt p addr = s.handles p addr +
    s.sends.countP fun t => t.pe = p ∧ t.addr = addr ∧ t.decremented = 0
  /-- Only `push` panics. -/
  panics : ∀ e ∈ s.panics, e = .push

theorem Stage.counts_le (fetches : List Fetch) (i : ℕ) (st : Stage) :
    (st.counts fetches i).1 ≤ 1 ∧ (st.counts fetches i).2 ≤ 1 := by
  have hpc : ∀ pc : CmdPc, pc.counts.1 ≤ 1 ∧ pc.counts.2 ≤ 1 := by
    intro pc
    cases pc <;> decide
  cases st with
  | idle => simp [Stage.counts]
  | sent => simp [Stage.counts]
  | fetch j =>
    simp only [Stage.counts]
    split
    · simp only [Fetch.counts]
      split
      · exact hpc _
      · simp
    · simp

theorem LinkInv.kept_or_done {k : ℕ} {t : Send P} (h : LinkInv cfg sends p d l stage)
    (ht : sends[k]? = some t) (hpe : t.pe = p) (hdst : t.dst = d) (hpushed : t.pushed = true) :
    (∃ b ∈ l.cmdBuffer.used, ∃ i < b.index,
      (l.mem b.addr i).body = (t.addr, t.len, t.hash, k) ∧
        t.fetched ≤ 1 ∧ t.submitted ≤ 1 ∧ t.decremented = 0) ∨
      t.fetched = 1 ∧ t.submitted = 1 ∧ t.decremented = 1 := by
  by_cases hheld : Held l.mem l.cmdBuffer k
  · obtain ⟨b, hb, i, hi, hsend⟩ := hheld
    obtain ⟨t', ht', hholds⟩ := h.content.held b hb i hi
    rw [hsend, ht] at ht'
    cases ht'
    obtain ⟨hfetched, hsubmitted⟩ := Prod.mk.inj hholds.counts
    have hle := Stage.counts_le l.fetches i (stage b.addr)
    refine Or.inl ⟨b, hb, i, hi, ?_, ?_, ?_, hholds.decremented⟩
    · rw [CmdMsg.body, hholds.addr, hholds.len, hholds.hash, hsend]
    · rw [hfetched]
      exact hle.1
    · rw [hsubmitted]
      exact hle.2
  · exact Or.inr (h.content.gone k t ht hpe hdst hpushed hheld)

theorem State.Delivers.deliveredOnce {s : State P} (h : s.Delivers cfg) : s.DeliveredOnce where
  once := by
    intro k t ht
    obtain ⟨stage, hl⟩ := h.links t.pe t.dst
    cases hpushed : t.pushed with
    | false =>
      obtain ⟨hfetched, hsubmitted, hdec⟩ := hl.content.unpushed k t ht rfl rfl hpushed
      omega
    | true =>
      rcases hl.kept_or_done ht rfl rfl hpushed with ⟨-, -, -, -, -, hrest⟩ | hdone
      · omega
      · omega
  unpushed := by
    intro k t ht hpushed
    obtain ⟨stage, hl⟩ := h.links t.pe t.dst
    exact hl.content.unpushed k t ht rfl rfl hpushed
  kept := by
    intro k t ht hpushed
    obtain ⟨stage, hl⟩ := h.links t.pe t.dst
    rcases hl.kept_or_done ht rfl rfl hpushed with ⟨b, hb, i, hi, hbody, -, -, hdec⟩ | hdone
    · exact Or.inl ⟨⟨b, hb, i, hi, hbody⟩, hdec⟩
    · exact Or.inr hdone
  addressed := by
    intro p d j i f c pc hf hi hpc
    obtain ⟨stage, hl⟩ := h.links p d
    obtain ⟨t, ht, hholds⟩ := hl.task_send hf hi hpc
    exact ⟨t, ht, hholds.pe, hholds.dst, hholds.addr, hholds.len, hholds.hash⟩
  refs := h.refs
  panics := h.panics

open Transition (Reach)

/-- In every run in which no `Tx` passes for a clear slot, each call of `send` is delivered once,
and only `push` panics. -/
theorem delivered_once (P : ℕ) (cfg : Config P) (s : State P)
    (hs : Reach (Initial cfg) (State.step cfg) NoCollision s) : s.DeliveredOnce := by
  have hinv : s.Delivers cfg ∧ s.TaskOk := by
    refine Reach.invariant (I := fun s => s.Delivers cfg ∧ s.TaskOk) ?_ ?_ hs
    · rintro s ⟨mem, rfl⟩
      exact ⟨.new, .new⟩
    · intro s a s' h hok hstep
      exact ⟨h.1.step h.2 hok (step_cases hstep), h.2.step (step_cases hstep)⟩
  exact hinv.1.deliveredOnce

/-! ## Two PEs -/

def Config.twoPes : Config 2 where
  cmdBufLen := 50000
  addrs := fun _ d => if d = 0 then [0x1000000, 0x1200000] else [0x1400000, 0x1600000]
  cmdBufLen_pos := default_pos
  size_lt := default_lt
  addrs_ne_zero := by decide
  addrs_nodup := by decide

def State.twoPes : State 2 := .new .twoPes fun _ _ _ _ => ⟨0, 0, .clear, 0, 0, 0, 0⟩

/-- Call `k` from PE 0 to PE 1 pushes its command. -/
def pushCall (k : ℕ) : List (Action 2) := [.task k, .task k, .task k, .crit 0 1, .crit 0 1]

/-- It goes through its second loop with nothing to free, and sends. -/
def flushCall (k : ℕ) : List (Action 2) :=
  [.task k, .task k, .crit 0 1, .transfer 0 1 []] ++ List.replicate 5 (.crit 0 1)

/-- PE 1 reads its slot. -/
def readSlot : List (Action 2) := [.deliverSlot 0 1, .poll 0 1]

/-- One call, up to the end of its command. -/
theorem delivered_once_one_call :
    ∃ s : State 2, Transition.run (Transition.guarded (State.step .twoPes) NoCollision) .twoPes
        ([.send 0 1 0x2000008 8 7] ++ pushCall 0 ++ flushCall 0 ++ readSlot ++
          List.replicate 5 (.fetch 0 1 0) ++ List.replicate 4 (.cmd 0 1 0 0 7) ++
          [.deliverState 0 1, .deliverState 0 1, .checkTransfers 0 1,
            .transfer 0 1 [0x1600000]] ++ List.replicate 4 (.crit 0 1)) = some s ∧
      s.sends.map (fun t => (t.fetched, t.submitted, t.decremented)) = [(1, 1, 1)] ∧
      s.DeliveredOnce := by
  have hrun : (Transition.run (Transition.guarded (State.step .twoPes) NoCollision) .twoPes
        ([.send 0 1 0x2000008 8 7] ++ pushCall 0 ++ flushCall 0 ++ readSlot ++
          List.replicate 5 (.fetch 0 1 0) ++ List.replicate 4 (.cmd 0 1 0 0 7) ++
          [.deliverState 0 1, .deliverState 0 1, .checkTransfers 0 1,
            .transfer 0 1 [0x1600000]] ++ List.replicate 4 (.crit 0 1))).map
      (fun s => s.sends.map fun t => (t.fetched, t.submitted, t.decremented)) =
        some [(1, 1, 1)] := by
    decide +kernel
  obtain ⟨s, hs, hcounts⟩ := Option.map_eq_some_iff.mp hrun
  exact ⟨s, hs, hcounts, delivered_once 2 .twoPes s (Reach.run_guarded (.init ⟨_, rfl⟩) hs)⟩

/-- The `Tx` of the first command has the hash of a clear slot. The second call puts it again,
and PE 1 fetches the command twice. -/
theorem delivered_twice :
    ¬ ∀ (P : ℕ) (cfg : Config P) (s : State P),
      Reach (Initial cfg) (State.step cfg) (fun _ _ => True) s → s.DeliveredOnce := by
  intro h
  have hrun : (Transition.run (State.step .twoPes) .twoPes
        ([.send 0 1 0x2000008 8 18446744073630908309, .send 0 1 0x2000018 8 7] ++ pushCall 0 ++
          pushCall 1 ++ flushCall 0 ++ readSlot ++ flushCall 1 ++ readSlot ++
          List.replicate 5 (.fetch 0 1 0) ++ List.replicate 5 (.fetch 0 1 1) ++
          [.cmd 0 1 0 0 18446744073630908309, .cmd 0 1 1 0 18446744073630908309])).map
      (fun s => s.sends.map fun t => t.fetched) = some [2, 0] := by
    decide +kernel
  obtain ⟨s, hs, hcounts⟩ := Option.map_eq_some_iff.mp hrun
  have honce := (h 2 .twoPes s (Reach.run (.init ⟨_, rfl⟩) hs)).once
  cases hsends : s.sends with
  | nil => simp [hsends] at hcounts
  | cons t rest =>
    have htwo : t.fetched = 2 := by
      rw [hsends] at hcounts
      exact (List.cons.inj hcounts).1
    have hle := (honce 0 t (by rw [hsends]; rfl)).1
    omega

end Lamellar.CommandQueue
