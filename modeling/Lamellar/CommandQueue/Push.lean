import Lamellar.CommandQueue.Sender

/-!
# `try_push` on a link

A command is written behind those that the current buffer holds. The buffer is idle, so
nobody else reads or writes its words.
-/

namespace Lamellar.CommandQueue

variable {P : ℕ} {cfg : Config P} {sends : List (Send P)} {p d : Fin P} {l : Link}
  {m : CmdMsgBuffer} {mem : Mem} {stage : UInt64 → Stage}

theorem Mem.write_of_ne {addr addr' : UInt64} {i i' : ℕ} {c : CmdMsg}
    (h : addr' ≠ addr ∨ i' ≠ i) : mem.write addr i c addr' i' = mem addr' i' := by
  unfold Mem.write
  by_cases haddr : addr' = addr
  · subst haddr
    simp [h.resolve_left (by simp)]
  · simp [haddr]

@[simp]
theorem Mem.write_self {addr : UInt64} {i : ℕ} {c : CmdMsg} :
    mem.write addr i c addr i = c := by
  simp [Mem.write]

/-! ## The current buffer -/

/-- A buffer from `empty_bufs` becomes the current one. -/
theorem LinkInv.takeCur (crit : Option Crit) (h : LinkInv cfg sends p d l stage)
    (hcrit : ∀ c, crit = some c → c.freed = []) (hflush : ∀ h, crit ≠ some (.flush h)) :
    LinkInv cfg sends p d { l with cmdBuffer := l.cmdBuffer.takeCur, crit := crit } stage := by
  have hfreed : ∀ c, crit = some c → ∀ addr ∈ c.freed, ∀ b ∈ l.cmdBuffer.waitingBufs,
      b.addr = addr → b.state l.mem = .free := by
    intro c hc addr haddr
    simp [hcrit c hc] at haddr
  rcases takeCur_cases (m := l.cmdBuffer) with heq | ⟨b, rest, hcur, hempty, heq⟩
  · rw [heq]
    exact h.setCrit crit hfreed fun hd hc => absurd hc (hflush hd)
  rw [heq]
  have hb : b ∈ l.cmdBuffer.emptyBufs := by simp [hempty]
  have hzero := h.placed.empty b hb
  have hfilling : ∀ b', b' ∈ ({ l.cmdBuffer with
      curBuf := some b, emptyBufs := rest } : CmdMsgBuffer).filling ↔
      b' = b ∨ b' ∈ l.cmdBuffer.filling := by
    intro b'
    simp only [CmdMsgBuffer.filling, hcur, Option.toList_some, Option.toList_none,
      List.append_nil, List.mem_append, List.mem_singleton]
    exact or_comm
  constructor
  case placed =>
    have hplaced := h.placed.takeCur
    rwa [heq] at hplaced
  case flight => exact h.flight
  case slot => exact h.slot
  case inbox => exact {
    hash := h.inbox.hash
    kind := h.inbox.kind
    tx := h.inbox.tx
    one := h.inbox.one }
  case back => exact {
    fresh := by
      intro b' hb' hpos
      rcases (hfilling b').mp hb' with rfl | hb'
      · omega
      · exact h.back.fresh b' hb' hpos
    suffix := h.back.suffix
    waiting := h.back.waiting
    puts := h.back.puts }
  case fetching => exact {
    ok := h.fetching.ok
    named := h.fetching.named
    opened := h.fetching.opened
    carries := h.fetching.carries }
  case content =>
    refine h.content.congr ?_ (fun _ _ _ _ => rfl) fun _ _ _ _ => rfl
    intro b' hpos
    simp only [CmdMsgBuffer.used, List.mem_append, hfilling]
    have hne : b' ≠ b := by
      rintro rfl
      omega
    simp only [hne, false_or]
    rfl
  case freed => exact hfreed
  case ready => exact fun hd hc => absurd hc (hflush hd)

/-! ## The push -/

/-- The command that `push` writes. -/
def CmdBuf.pushCmd (mem : Mem) (b : CmdBuf) (daddr dsize hash : UInt64) (k : ℕ) : CmdMsg :=
  { mem b.addr b.index with daddr, dsize, cmd := .tx, msgHash := hash, send := k }.calcHash

theorem tryPush_cases (cmdBufLen : ℕ) (mem : Mem) (m : CmdMsgBuffer) (addr len hash : UInt64)
    (k : ℕ) :
    (∃ b, m.takeCur.curBuf = some b ∧ len ≠ 0 ∧
      m.tryPush cmdBufLen mem addr len hash k =
        .pushed (mem.write b.addr b.index (b.pushCmd mem addr len hash k))
          (m.takeCur.putCur cmdBufLen b.next)) ∨
    (m.takeCur.curBuf = none ∧ m.tryPush cmdBufLen mem addr len hash k = .busy) ∨
    (addr = 0 ∨ len = 0) ∧ m.tryPush cmdBufLen mem addr len hash k = .panicked m.takeCur := by
  unfold CmdMsgBuffer.tryPush
  cases hcur : m.takeCur.curBuf with
  | none => exact Or.inr (Or.inl ⟨rfl, rfl⟩)
  | some b =>
    by_cases hzero : addr = 0 ∨ len = 0
    · right; right
      refine ⟨hzero, ?_⟩
      simp [CmdBuf.push, hzero]
    · left
      rw [not_or] at hzero
      have hpos : 0 < len := UInt64.pos_iff_ne_zero.mpr hzero.2
      refine ⟨b, rfl, hzero.2, ?_⟩
      simp only [CmdBuf.push, hzero, or_self, if_false, hpos, if_true, CmdMsgBuffer.putCur,
        CmdBuf.next, CmdBuf.pushCmd, takeCur_fullBufs]
      split <;> rfl

/-- The sends after the command of call `k` has been pushed. -/
def markPushed (sends : List (Send P)) (k : ℕ) : List (Send P) :=
  sends.modify k fun t => { t with pushed := true }

theorem markPushed_of_ne {k k' : ℕ} (h : k ≠ k') : (markPushed sends k)[k']? = sends[k']? := by
  simp [markPushed, h]

theorem markPushed_self {k : ℕ} {t : Send P} (h : sends[k]? = some t) :
    (markPushed sends k)[k]? = some { t with pushed := true } := by
  simp [markPushed, h]

section

variable {counts : UInt64 → ℕ → ℕ × ℕ} {m' : CmdMsgBuffer} {b : CmdBuf} {c : CmdMsg} {k : ℕ}
  {t : Send P}

/-- The places in the buffers after a push: the new one and those before it. -/
theorem write_place (hb : b ∈ m.used)
    (hused : ∀ x, x ∈ m'.used ↔ x = b.next ∨ x ∈ m.used ∧ x.addr ≠ b.addr) {x : CmdBuf} {i : ℕ}
    (hx : x ∈ m'.used) (hi : i < x.index) :
    x.addr = b.addr ∧ i = b.index ∧ mem.write b.addr b.index c x.addr i = c ∨
      (∃ x' ∈ m.used, x'.addr = x.addr ∧ i < x'.index) ∧
        mem.write b.addr b.index c x.addr i = mem x.addr i := by
  rcases (hused x).mp hx with rfl | ⟨hx', hne⟩
  · by_cases hlast : i = b.index
    · left
      refine ⟨rfl, hlast, ?_⟩
      rw [hlast]
      exact Mem.write_self
    · right
      refine ⟨⟨b, hb, rfl, ?_⟩, Mem.write_of_ne (Or.inr hlast)⟩
      simp only [CmdBuf.next] at hi
      omega
  · exact Or.inr ⟨⟨x, hx', rfl, hi⟩, Mem.write_of_ne (Or.inl hne)⟩

theorem Content.push (h : Content sends p d mem m counts) (hb : b ∈ m.used)
    (hinj : ∀ b' ∈ m.used, b'.addr = b.addr → b' = b)
    (hused : ∀ x, x ∈ m'.used ↔ x = b.next ∨ x ∈ m.used ∧ x.addr ≠ b.addr)
    (hzero : ∀ i, counts b.addr i = (0, 0)) (ht : sends[k]? = some t) (hpe : t.pe = p)
    (hdst : t.dst = d) (hunpushed : t.pushed = false) (hlen : t.len ≠ 0)
    (hbody : c.body = (t.addr, t.len, t.hash, k)) :
    Content (markPushed sends k) p d (mem.write b.addr b.index c) m' counts := by
  simp only [CmdMsg.body, Prod.mk.injEq] at hbody
  obtain ⟨haddr, hsize, hhash, hsend⟩ := hbody
  have hold : ∀ x ∈ m.used, ∀ i < x.index, k ≠ (mem x.addr i).send := by
    intro x hx i hi hk
    obtain ⟨t₀, ht₀, hholds⟩ := h.held x hx i hi
    rw [← hk, ht] at ht₀
    cases ht₀
    simp [hholds.pushed] at hunpushed
  have hcnt := h.unpushed k t ht hpe hdst hunpushed
  -- a place is either the new one or an old one, which has kept its command
  have hplace := fun {x : CmdBuf} {i : ℕ} =>
    @write_place m mem m' b c hb hused x i
  constructor
  case held =>
    intro x hx i hi
    rcases hplace hx hi with ⟨hxb, rfl, hc⟩ | ⟨⟨x', hx', hxx, hi'⟩, hc⟩
    · rw [hc, hsend]
      refine ⟨_, markPushed_self ht, ?_⟩
      exact {
        pe := hpe
        dst := hdst
        addr := haddr.symm
        len := hsize.symm
        hash := hhash.symm
        len_ne := hlen
        pushed := rfl
        counts := by rw [hxb, hzero, hcnt.1, hcnt.2.1]
        decremented := hcnt.2.2 }
    · rw [hc, ← hxx, markPushed_of_ne (hold x' hx' i hi')]
      exact h.held x' hx' i hi'
  case inj =>
    intro x hx y hy i hi i' hi' hk
    rcases hplace hx hi with ⟨hxb, rfl, hc⟩ | ⟨⟨x', hx', hxx, hlt⟩, hc⟩ <;>
      rcases hplace hy hi' with ⟨hyb, rfl, hc'⟩ | ⟨⟨y', hy', hyy, hlt'⟩, hc'⟩ <;>
      rw [hc, hc'] at hk
    · exact ⟨hxb.trans hyb.symm, rfl⟩
    · rw [hsend, ← hyy] at hk
      exact absurd hk (hold y' hy' i' hlt')
    · rw [hsend, ← hxx] at hk
      exact absurd hk.symm (hold x' hx' i hlt)
    · rw [← hxx, ← hyy] at hk ⊢
      exact h.inj x' hx' y' hy' i hlt i' hlt' hk
  case unpushed =>
    intro k' t' ht' hpe' hdst' hpushed
    by_cases hk : k = k'
    · subst hk
      rw [markPushed_self ht] at ht'
      cases ht'
      cases hpushed
    · rw [markPushed_of_ne hk] at ht'
      exact h.unpushed k' t' ht' hpe' hdst' hpushed
  case gone =>
    intro k' t' ht' hpe' hdst' hpushed hgone
    by_cases hk : k = k'
    · subst hk
      refine absurd ⟨b.next, (hused _).mpr (Or.inl rfl), b.index, Nat.lt_succ_self _, ?_⟩ hgone
      exact (congrArg CmdMsg.send Mem.write_self).trans hsend
    · rw [markPushed_of_ne hk] at ht'
      refine h.gone k' t' ht' hpe' hdst' hpushed ?_
      rintro ⟨x, hx, i, hi, hki⟩
      -- the command of `k'` stays where it was, in `b.next` if it was in `b`
      have hmem : mem.write b.addr b.index c x.addr i = mem x.addr i := by
        refine Mem.write_of_ne ?_
        by_cases hxb : x.addr = b.addr
        · right
          rw [hinj x hx hxb] at hi
          omega
        · exact Or.inl hxb
      by_cases hxb : x.addr = b.addr
      · obtain rfl := hinj x hx hxb
        exact hgone ⟨x.next, (hused _).mpr (Or.inl rfl), i, Nat.lt_succ_of_lt hi,
          (congrArg CmdMsg.send hmem).trans hki⟩
      · exact hgone ⟨x, (hused x).mpr (Or.inr ⟨hx, hxb⟩), i, hi,
          (congrArg CmdMsg.send hmem).trans hki⟩

end

theorem LinkInv.push {b : CmdBuf} {c : CmdMsg} {k : ℕ} {t : Send P} (crit : Option Crit)
    (h : LinkInv cfg sends p d l stage) (hcur : l.cmdBuffer.curBuf = some b)
    (ht : sends[k]? = some t) (hpe : t.pe = p) (hdst : t.dst = d)
    (hunpushed : t.pushed = false) (hlen : t.len ≠ 0)
    (hbody : c.body = (t.addr, t.len, t.hash, k)) (hcmd : c.cmd = .tx)
    (hcrit : ∀ c, crit = some c → c.freed = []) (hflush : ∀ h, crit ≠ some (.flush h)) :
    LinkInv cfg (markPushed sends k) p d
      { l with
        mem := l.mem.write b.addr b.index c
        cmdBuffer := l.cmdBuffer.putCur cfg.cmdBufLen b.next
        crit := crit } stage := by
  have hfill : l.cmdBuffer.filling = l.cmdBuffer.fullBufs ++ [b] := by
    simp [CmdMsgBuffer.filling, hcur]
  have hb : b ∈ l.cmdBuffer.filling := by simp [hfill]
  have hfull := h.placed.full_ne_cur hcur
  have hflight : ∀ x ∈ l.cmdBuffer.inFlight, x.addr ≠ b.addr := fun x hx =>
    (h.placed.filling_ne_inFlight hb hx).symm
  have hbused : b ∈ l.cmdBuffer.used := mem_used_of_filling hb
  have hinj : ∀ x ∈ l.cmdBuffer.used, x.addr = b.addr → x = b := fun x hx =>
    h.placed.eq_of_addr (mem_all_of_used hx) (mem_all_of_used hbused)
  have hfill' : ∀ x, x ∈ (l.cmdBuffer.putCur cfg.cmdBufLen b.next).filling ↔
      x = b.next ∨ x ∈ l.cmdBuffer.fullBufs := by
    intro x
    rw [putCur_filling.mem_iff, List.mem_cons]
  have hused : ∀ x, x ∈ (l.cmdBuffer.putCur cfg.cmdBufLen b.next).used ↔
      x = b.next ∨ x ∈ l.cmdBuffer.used ∧ x.addr ≠ b.addr := by
    intro x
    simp only [CmdMsgBuffer.used, List.mem_append, hfill', putCur_inFlight, hfill,
      List.mem_singleton]
    constructor
    · rintro ((rfl | hx) | hx)
      · exact Or.inl rfl
      · exact Or.inr ⟨Or.inl (Or.inl hx), hfull x hx⟩
      · exact Or.inr ⟨Or.inr hx, hflight x hx⟩
    · rintro (rfl | ⟨(hx | rfl) | hx, hne⟩)
      · exact Or.inl (Or.inl rfl)
      · exact Or.inl (Or.inr hx)
      · exact absurd rfl hne
      · exact Or.inr hx
  -- the words of the other buffers stay as they are
  have hmem : ∀ x : CmdBuf, x.addr ≠ b.addr →
      (l.mem.write b.addr b.index c) x.addr = l.mem x.addr := by
    intro x hne
    funext i
    exact Mem.write_of_ne (Or.inl hne)
  have hstate : ∀ x : CmdBuf, x.addr ≠ b.addr →
      x.state (l.mem.write b.addr b.index c) = x.state l.mem := by
    intro x hne
    rw [CmdBuf.state, CmdBuf.state, hmem x hne]
  constructor
  case placed => exact h.placed.putCur hcur
  case flight =>
    simp only [putCur_inFlight]
    exact h.flight
  case slot =>
    simp only [putCur_txBufs]
    exact h.slot
  case inbox => exact {
    hash := h.inbox.hash
    kind := h.inbox.kind
    tx := by
      simp only [putCur_inFlight]
      exact h.inbox.tx
    one := h.inbox.one }
  case back => exact {
    fresh := by
      intro x hx hpos
      rcases (hfill' x).mp hx with rfl | hx
      · show (l.mem.write b.addr b.index c b.addr 0).cmd = .tx
        by_cases hzero : b.index = 0
        · rw [hzero, Mem.write_self, hcmd]
        · rw [Mem.write_of_ne (Or.inr (Ne.symm hzero))]
          exact h.back.fresh b hb (Nat.pos_of_ne_zero hzero)
      · rw [hstate x (hfull x hx)]
        exact h.back.fresh x (List.mem_append_left _ hx) hpos
    suffix := by
      simp only [putCur_inFlight]
      intro x hx
      rw [hstate x (hflight x hx)]
      exact h.back.suffix x hx
    waiting := by
      simp only [putCur_waitingBufs]
      intro x hx
      rw [hstate x (hflight x (mem_inFlight_of_waiting hx))]
      exact h.back.waiting x hx
    puts := h.back.puts }
  case fetching => exact {
    ok := h.fetching.ok
    named := h.fetching.named
    opened := h.fetching.opened
    carries := by
      simp only [putCur_inFlight]
      intro x hx j f hj hf
      have hcarries := h.fetching.carries x hx j f hj hf
      exact ⟨hcarries.size, by
        rw [CmdBuf.cmds, hmem x (hflight x hx)]
        exact hcarries.cmds⟩ }
  case content =>
    refine h.content.push hbused hinj hused ?_ ht hpe hdst hunpushed hlen hbody
    intro i
    simp [placeCounts, h.stage_filling hb, Stage.counts]
  case freed =>
    intro x hx addr haddr
    simp [hcrit x hx] at haddr
  case ready => exact fun hd hc => absurd hc (hflush hd)

end Lamellar.CommandQueue
