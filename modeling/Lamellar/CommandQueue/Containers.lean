import Lamellar.CommandQueue.Invariant

/-!
# The containers of a `CmdMsgBuffer`

Every buffer of a destination is in one of the five containers. `try_push`, `flush_buffer`,
`check_transfer` and `check_free_data` move buffers from one to another and lose none.
-/

namespace Lamellar.CommandQueue

variable {P : ℕ} {cfg : Config P} {p d : Fin P} {m : CmdMsgBuffer} {mem : Mem}

/-! ## Buffers by address -/

namespace Placed

theorem nodup (h : Placed cfg p d m) : (m.all.map CmdBuf.addr).Nodup :=
  h.addrs.nodup_iff.mpr (cfg.addrs_nodup p d)

theorem eq_of_addr (h : Placed cfg p d m) {b b' : CmdBuf} (hb : b ∈ m.all) (hb' : b' ∈ m.all)
    (haddr : b.addr = b'.addr) : b = b' :=
  List.inj_on_of_nodup_map h.nodup hb hb' haddr

end Placed

theorem mem_used_of_filling {b : CmdBuf} (hb : b ∈ m.filling) : b ∈ m.used :=
  List.mem_append_left _ hb

theorem mem_used_of_inFlight {b : CmdBuf} (hb : b ∈ m.inFlight) : b ∈ m.used :=
  List.mem_append_right _ hb

theorem mem_all_of_used {b : CmdBuf} (hb : b ∈ m.used) : b ∈ m.all :=
  List.mem_append_right _ hb

theorem mem_inFlight_of_tx {b : CmdBuf} (hb : b ∈ m.txBufs) : b ∈ m.inFlight :=
  List.mem_append_left _ hb

theorem mem_inFlight_of_waiting {b : CmdBuf} (hb : b ∈ m.waitingBufs) : b ∈ m.inFlight :=
  List.mem_append_right _ hb

namespace Placed

theorem filling_ne_inFlight (h : Placed cfg p d m) {b b' : CmdBuf} (hb : b ∈ m.filling)
    (hb' : b' ∈ m.inFlight) : b.addr ≠ b'.addr := by
  have hnodup := h.nodup
  simp only [CmdMsgBuffer.all, CmdMsgBuffer.used, List.map_append] at hnodup
  have hdisj := (List.nodup_append.mp (List.nodup_append.mp hnodup).2.1).2.2
  exact hdisj _ (List.mem_map_of_mem hb) _ (List.mem_map_of_mem hb')

theorem tx_ne_waiting (h : Placed cfg p d m) {b b' : CmdBuf} (hb : b ∈ m.txBufs)
    (hb' : b' ∈ m.waitingBufs) : b.addr ≠ b'.addr := by
  have hnodup := h.nodup
  simp only [CmdMsgBuffer.all, CmdMsgBuffer.used, CmdMsgBuffer.inFlight, List.map_append]
    at hnodup
  have hdisj :=
    (List.nodup_append.mp (List.nodup_append.mp (List.nodup_append.mp hnodup).2.1).2.1).2.2
  exact hdisj _ (List.mem_map_of_mem hb) _ (List.mem_map_of_mem hb')

/-- Only where the buffers are matters, and what they count. -/
theorem congr {m' : CmdMsgBuffer} (h : Placed cfg p d m)
    (hall : (m'.all.map CmdBuf.addr).Perm (m.all.map CmdBuf.addr))
    (hmem : ∀ b ∈ m'.all, b.allocatedCnt = b.index ∧ b.index ≤ cfg.cmdBufLen)
    (hempty : ∀ b ∈ m'.emptyBufs, b.index = 0)
    (hpos : ∀ b ∈ m'.fullBufs ++ m'.inFlight, 0 < b.index)
    (hcur : ∀ b ∈ m'.curBuf, b.index < cfg.cmdBufLen) : Placed cfg p d m' where
  addrs := hall.trans h.addrs
  cnt := fun b hb => (hmem b hb).1
  le := fun b hb => (hmem b hb).2
  empty := hempty
  pos := hpos
  cur := hcur

end Placed

theorem mem_of_lookup {addr : UInt64} {bufs : List CmdBuf} {b : CmdBuf}
    (h : lookup addr bufs = some b) : b ∈ bufs ∧ b.addr = addr :=
  ⟨List.mem_of_find?_eq_some h, by simpa using List.find?_some h⟩

theorem mem_remove {addr : UInt64} {bufs : List CmdBuf} {b : CmdBuf} :
    b ∈ remove addr bufs ↔ b ∈ bufs ∧ b.addr ≠ addr := by
  simp [remove]

theorem remove_eq_self {addr : UInt64} {bufs : List CmdBuf} (h : ∀ b ∈ bufs, b.addr ≠ addr) :
    remove addr bufs = bufs :=
  List.filter_eq_self.mpr (by simpa using h)

theorem perm_cons_remove {bufs : List CmdBuf} {b : CmdBuf} (hb : b ∈ bufs)
    (hnodup : (bufs.map CmdBuf.addr).Nodup) : bufs.Perm (b :: remove b.addr bufs) := by
  have hne : ∀ x ∈ bufs, (x.addr ≠ b.addr ↔ x ≠ b) := by
    intro x hx
    rw [not_iff_not]
    exact ⟨fun haddr => List.inj_on_of_nodup_map hnodup hx hb haddr, fun heq => by rw [heq]⟩
  have herase : remove b.addr bufs = bufs.erase b := by
    rw [(List.Nodup.of_map _ hnodup).erase_eq_filter, remove]
    refine List.filter_congr fun x hx => ?_
    simp only [hne x hx, bne, decide_not]
    by_cases hxb : x = b <;> simp [hxb]
  rw [herase]
  exact List.perm_cons_erase hb

/-! ## What the operations take -/

/-- What `flush_buffer` takes comes from the buffers that are being filled. -/
theorem takeFlush_cases {b : CmdBuf} {m' : CmdMsgBuffer} (h : m.takeFlush = some (b, m')) :
    m.filling.Perm (b :: m'.filling) ∧ m'.emptyBufs = m.emptyBufs ∧ m'.txBufs = m.txBufs ∧
      m'.waitingBufs = m.waitingBufs ∧ (∀ x ∈ m'.fullBufs, x ∈ m.fullBufs) ∧
      ∀ x ∈ m'.curBuf, x ∈ m.curBuf := by
  simp only [CmdMsgBuffer.takeFlush] at h
  split at h
  · rename_i b' rest hfull
    cases h
    refine ⟨by simp [CmdMsgBuffer.filling, hfull], rfl, rfl, rfl, ?_, fun x hx => hx⟩
    intro x hx
    rw [hfull]
    exact List.mem_cons_of_mem _ hx
  · rename_i hfull
    obtain ⟨b', hcur, heq⟩ := Option.map_eq_some_iff.mp h
    cases heq
    simp [CmdMsgBuffer.filling, hfull, hcur]

/-- What `check_transfer` does with the buffer that the slot names. -/
theorem checkTransfer_cases (mem : Mem) (m : CmdMsgBuffer) (addr : UInt64) :
    lookup addr m.txBufs = none ∧ m.checkTransfer mem addr = (m, .ok false) ∨
    ∃ b, lookup addr m.txBufs = some b ∧
      (b.state mem = .tx ∧ m.checkTransfer mem addr =
        ({ m with txBufs := insert b (remove addr m.txBufs) }, .ok false) ∨
      b.state mem ≠ .tx ∧ m.checkTransfer mem addr =
        ({ m with
          txBufs := remove addr m.txBufs, waitingBufs := insert b m.waitingBufs }, .ok true) ∨
      (b.allocatedCnt = 0 ∨ b.state mem ≠ .tx ∧ b.state mem ≠ .release ∧ b.state mem ≠ .free) ∧
        ∃ m' e, m.checkTransfer mem addr = (m', .error e)) := by
  unfold CmdMsgBuffer.checkTransfer
  cases hlookup : lookup addr m.txBufs with
  | none => exact Or.inl ⟨rfl, rfl⟩
  | some b =>
    refine Or.inr ⟨b, rfl, ?_⟩
    by_cases hcnt : 0 < b.allocatedCnt
    · cases hstate : b.state mem <;> simp [hstate, hcnt]
    · have hzero : b.allocatedCnt = 0 := by omega
      cases hstate : b.state mem <;> simp [hstate, hzero]

/-! ## The current buffer -/

theorem takeCur_inFlight : m.takeCur.inFlight = m.inFlight := by
  unfold CmdMsgBuffer.takeCur
  split <;> rfl

theorem takeCur_fullBufs : m.takeCur.fullBufs = m.fullBufs := by
  unfold CmdMsgBuffer.takeCur
  split <;> rfl

theorem takeCur_txBufs : m.takeCur.txBufs = m.txBufs := by
  unfold CmdMsgBuffer.takeCur
  split <;> rfl

theorem takeCur_cases : m.takeCur = m ∨ ∃ b rest, m.curBuf = none ∧ m.emptyBufs = b :: rest ∧
    m.takeCur = { m with curBuf := some b, emptyBufs := rest } := by
  unfold CmdMsgBuffer.takeCur
  split
  · rename_i hcur
    rw [Option.isNone_iff_eq_none] at hcur
    cases hempty : m.emptyBufs with
    | nil =>
      left
      cases m
      simp_all
    | cons b rest => exact Or.inr ⟨b, rest, hcur, rfl, rfl⟩
  · exact Or.inl rfl

/-- The end of `try_push`: a full buffer is no longer the current one. -/
def CmdMsgBuffer.putCur (cmdBufLen : ℕ) (m : CmdMsgBuffer) (b : CmdBuf) : CmdMsgBuffer :=
  if b.full cmdBufLen then { m with fullBufs := b :: m.fullBufs, curBuf := none }
  else { m with curBuf := some b }

/-- The buffer with one more command. -/
def CmdBuf.next (b : CmdBuf) : CmdBuf :=
  { b with index := b.index + 1, allocatedCnt := b.allocatedCnt + 1 }

theorem putCur_inFlight {b : CmdBuf} :
    (m.putCur cfg.cmdBufLen b).inFlight = m.inFlight := by
  unfold CmdMsgBuffer.putCur
  split <;> rfl

theorem putCur_waitingBufs {b : CmdBuf} :
    (m.putCur cfg.cmdBufLen b).waitingBufs = m.waitingBufs := by
  unfold CmdMsgBuffer.putCur
  split <;> rfl

theorem putCur_txBufs {b : CmdBuf} : (m.putCur cfg.cmdBufLen b).txBufs = m.txBufs := by
  unfold CmdMsgBuffer.putCur
  split <;> rfl

theorem putCur_emptyBufs {b : CmdBuf} : (m.putCur cfg.cmdBufLen b).emptyBufs = m.emptyBufs := by
  unfold CmdMsgBuffer.putCur
  split <;> rfl

/-- The buffer that is written to takes the place of the current one. -/
theorem putCur_filling {b : CmdBuf} :
    (m.putCur cfg.cmdBufLen b).filling.Perm (b :: m.fullBufs) := by
  unfold CmdMsgBuffer.putCur
  split
  · simp [CmdMsgBuffer.filling]
  · simp only [CmdMsgBuffer.filling, Option.toList_some]
    exact List.perm_append_singleton _ _

/-! ## Moves -/

namespace Placed

/-- The buffers are the same, in other containers. -/
theorem moved {m' : CmdMsgBuffer} (h : Placed cfg p d m) (hall : m'.all.Perm m.all)
    (hempty : ∀ b ∈ m'.emptyBufs, b ∈ m.emptyBufs)
    (hpos : ∀ b ∈ m'.fullBufs ++ m'.inFlight, 0 < b.index)
    (hcur : ∀ b ∈ m'.curBuf, b.index < cfg.cmdBufLen) : Placed cfg p d m' := by
  refine h.congr (hall.map _) ?_ (fun b hb => h.empty b (hempty b hb)) hpos hcur
  intro b hb
  have hb' := hall.mem_iff.mp hb
  exact ⟨h.cnt b hb', h.le b hb'⟩

theorem takeCur (h : Placed cfg p d m) : Placed cfg p d m.takeCur := by
  rcases takeCur_cases (m := m) with heq | ⟨b, rest, hcur, hempty, heq⟩
  · rw [heq]
    exact h
  rw [heq]
  refine h.moved ?_ ?_ h.pos ?_
  · simp only [CmdMsgBuffer.all, CmdMsgBuffer.used, CmdMsgBuffer.filling, CmdMsgBuffer.inFlight,
      hcur, hempty, Option.toList_some, Option.toList_none, List.append_nil, List.cons_append,
      List.append_assoc, List.nil_append]
    rw [← List.append_assoc, ← List.append_assoc rest]
    exact List.perm_middle
  · intro b' hb'
    rw [hempty]
    exact List.mem_cons_of_mem b hb'
  · rintro b' ⟨rfl⟩
    rw [h.empty b (by simp [hempty])]
    exact cfg.cmdBufLen_pos

/-- The words that a `push` writes are behind those of the current buffer. -/
theorem full_ne_cur {b : CmdBuf} (h : Placed cfg p d m) (hcur : m.curBuf = some b) :
    ∀ x ∈ m.fullBufs, x.addr ≠ b.addr := by
  have hnodup := h.nodup
  simp only [CmdMsgBuffer.all, CmdMsgBuffer.used, CmdMsgBuffer.filling, hcur, Option.toList_some,
    List.map_append] at hnodup
  have hdisj := (List.nodup_append.mp (List.nodup_append.mp
    (List.nodup_append.mp hnodup).2.1).1).2.2
  intro x hx
  exact hdisj _ (List.mem_map_of_mem hx) _ (List.mem_map_of_mem (List.mem_singleton_self b))

theorem putCur {b : CmdBuf} (h : Placed cfg p d m) (hcur : m.curBuf = some b) :
    Placed cfg p d (m.putCur cfg.cmdBufLen b.next) := by
  have hfill : m.filling = m.fullBufs ++ [b] := by
    simp [CmdMsgBuffer.filling, hcur]
  have hb : b ∈ m.all := mem_all_of_used (mem_used_of_filling (by simp [hfill]))
  have hlt : b.index < cfg.cmdBufLen := h.cur b hcur
  refine h.congr ?_ ?_ ?_ ?_ ?_
  · simp only [CmdMsgBuffer.all, CmdMsgBuffer.used, putCur_inFlight, putCur_emptyBufs,
      List.map_append, hfill]
    refine .append_left _ (.append_right _ ?_)
    refine (putCur_filling.map _).trans ?_
    exact (List.perm_append_singleton _ _).symm
  · intro x hx
    simp only [CmdMsgBuffer.all, CmdMsgBuffer.used, putCur_inFlight, putCur_emptyBufs,
      List.mem_append, putCur_filling.mem_iff, List.mem_cons] at hx
    have hold : x ∈ m.all → x.allocatedCnt = x.index ∧ x.index ≤ cfg.cmdBufLen :=
      fun hx => ⟨h.cnt x hx, h.le x hx⟩
    rcases hx with hx | (rfl | hx) | hx
    · exact hold (List.mem_append_left _ hx)
    · exact ⟨congrArg (· + 1) (h.cnt b hb), hlt⟩
    · exact hold (mem_all_of_used (mem_used_of_filling (List.mem_append_left _ hx)))
    · exact hold (mem_all_of_used (mem_used_of_inFlight hx))
  · rw [putCur_emptyBufs]
    exact h.empty
  · intro x hx
    rw [putCur_inFlight] at hx
    rcases List.mem_append.mp hx with hx | hx
    · rcases List.mem_cons.mp (putCur_filling.mem_iff.mp (List.mem_append_left _ hx)) with rfl | hx
      · exact Nat.succ_pos _
      · exact h.pos x (List.mem_append_left _ hx)
    · exact h.pos x (List.mem_append_right _ hx)
  · intro x hx
    unfold CmdMsgBuffer.putCur at hx
    split at hx
    · cases hx
    · rename_i hnot
      cases hx
      have hne : b.index + 1 ≠ cfg.cmdBufLen := fun heq => hnot (decide_eq_true heq)
      show b.index + 1 < cfg.cmdBufLen
      omega

theorem flushed {b : CmdBuf} {m' : CmdMsgBuffer} (h : Placed cfg p d m)
    (htake : m.takeFlush = some (b, m')) (hpos : 0 < b.index) :
    Placed cfg p d { m' with txBufs := insert b m'.txBufs } ∧
      insert b m'.txBufs = b :: m.txBufs := by
  obtain ⟨hperm, hempty, htx, hwaiting, hfull, hcur⟩ := takeFlush_cases htake
  have hb : b ∈ m.filling := hperm.mem_iff.mpr List.mem_cons_self
  have hinsert : insert b m'.txBufs = b :: m.txBufs := by
    rw [insert, htx, remove_eq_self fun b' hb' =>
      (h.filling_ne_inFlight hb (mem_inFlight_of_tx hb')).symm]
  refine ⟨h.moved ?_ ?_ ?_ ?_, hinsert⟩
  · simp only [CmdMsgBuffer.all, CmdMsgBuffer.used, CmdMsgBuffer.inFlight, hinsert, hempty,
      hwaiting]
    exact .append_left _ (List.perm_middle.trans (.append_right _ hperm.symm))
  · exact fun b' hb' => hempty ▸ hb'
  · intro b' hb'
    simp only [CmdMsgBuffer.inFlight, hinsert, hwaiting, List.cons_append] at hb'
    rcases List.mem_append.mp hb' with hb' | hb'
    · exact h.pos b' (List.mem_append_left _ (hfull b' hb'))
    · rcases List.mem_cons.mp hb' with rfl | hb'
      · exact hpos
      · exact h.pos b' (List.mem_append_right _ hb')
  · exact fun b' hb' => h.cur b' (hcur b' hb')

/-- The containers of the buffers in flight, each on its own. -/
theorem nodup_tx (h : Placed cfg p d m) : (m.txBufs.map CmdBuf.addr).Nodup :=
  List.Nodup.sublist (List.Sublist.map _ ((List.sublist_append_left _ _).trans
    ((List.sublist_append_right _ _).trans (List.sublist_append_right _ _)))) h.nodup

theorem nodup_waiting (h : Placed cfg p d m) : (m.waitingBufs.map CmdBuf.addr).Nodup :=
  List.Nodup.sublist (List.Sublist.map _ ((List.sublist_append_right _ _).trans
    ((List.sublist_append_right _ _).trans (List.sublist_append_right _ _)))) h.nodup

/-- A buffer in flight is put back into `tx_bufs`, or into `waiting_bufs`. -/
theorem inFlight_moved {m' : CmdMsgBuffer} (h : Placed cfg p d m)
    (hflight : m'.inFlight.Perm m.inFlight) (hempty : m'.emptyBufs = m.emptyBufs)
    (hfull : m'.fullBufs = m.fullBufs) (hcur : m'.curBuf = m.curBuf) : Placed cfg p d m' := by
  refine h.moved ?_ ?_ ?_ ?_
  · simp only [CmdMsgBuffer.all, CmdMsgBuffer.used, CmdMsgBuffer.filling, hempty, hfull, hcur]
    exact .append_left _ (.append_left _ hflight)
  · exact fun b hb => hempty ▸ hb
  · intro b hb
    rw [hfull] at hb
    rcases List.mem_append.mp hb with hb | hb
    · exact h.pos b (List.mem_append_left _ hb)
    · exact h.pos b (List.mem_append_right _ (hflight.mem_iff.mp hb))
  · rw [hcur]
    exact h.cur

theorem requeued {b : CmdBuf} (h : Placed cfg p d m) (hb : b ∈ m.txBufs) :
    Placed cfg p d { m with txBufs := insert b (remove b.addr m.txBufs) } := by
  refine h.inFlight_moved ?_ rfl rfl rfl
  have hinsert : insert b (remove b.addr m.txBufs) = b :: remove b.addr m.txBufs := by
    rw [insert, remove_eq_self fun b' hb' => (mem_remove.mp hb').2]
  simp only [CmdMsgBuffer.inFlight, hinsert]
  exact .append_right _ (perm_cons_remove hb h.nodup_tx).symm

theorem released {b : CmdBuf} (h : Placed cfg p d m) (hb : b ∈ m.txBufs) :
    Placed cfg p d { m with
      txBufs := remove b.addr m.txBufs, waitingBufs := insert b m.waitingBufs } := by
  refine h.inFlight_moved ?_ rfl rfl rfl
  have hinsert : insert b m.waitingBufs = b :: m.waitingBufs := by
    rw [insert, remove_eq_self fun b' hb' => (h.tx_ne_waiting hb hb').symm]
  simp only [CmdMsgBuffer.inFlight, hinsert]
  exact List.perm_middle.trans (.append_right _ (perm_cons_remove hb h.nodup_tx).symm)

theorem gaveBack {b : CmdBuf} (h : Placed cfg p d m) (hb : b ∈ m.waitingBufs) :
    Placed cfg p d (m.giveBack b) := by
  have hall : m.all.Perm (b :: (m.emptyBufs ++ (m.filling ++
      (m.txBufs ++ remove b.addr m.waitingBufs)))) := by
    refine (List.Perm.append_left _ (.append_left _ (.append_left _
      (perm_cons_remove hb h.nodup_waiting)))).trans ?_
    simp only [← List.append_assoc]
    exact List.perm_middle
  refine h.congr (hall.map CmdBuf.addr).symm ?_ ?_ ?_ h.cur
  · intro b' hb'
    rcases List.mem_cons.mp hb' with rfl | hb'
    · exact ⟨rfl, Nat.zero_le _⟩
    · have hb₀ := hall.mem_iff.mpr (List.mem_cons_of_mem _ hb')
      exact ⟨h.cnt b' hb₀, h.le b' hb₀⟩
  · intro b' hb'
    rcases List.mem_cons.mp hb' with rfl | hb'
    · rfl
    · exact h.empty b' hb'
  · intro b' hb'
    rcases List.mem_append.mp hb' with hfull | hb'
    · exact h.pos b' (List.mem_append_left _ hfull)
    · refine h.pos b' (List.mem_append_right _ ?_)
      rcases List.mem_append.mp hb' with hb' | hb'
      · exact mem_inFlight_of_tx hb'
      · exact mem_inFlight_of_waiting (mem_remove.mp hb').1

theorem new : Placed cfg p d (.new (cfg.addrs p d)) := by
  have hall : (CmdMsgBuffer.new (cfg.addrs p d)).all =
      ((cfg.addrs p d).map fun addr => (⟨addr, 0, 0⟩ : CmdBuf)).reverse :=
    List.append_nil _
  have hempty : ∀ b ∈ (CmdMsgBuffer.new (cfg.addrs p d)).all,
      b.index = 0 ∧ b.allocatedCnt = 0 := by
    intro b hb
    rw [hall, List.mem_reverse, List.mem_map] at hb
    obtain ⟨addr, -, rfl⟩ := hb
    exact ⟨rfl, rfl⟩
  exact {
    addrs := by
      rw [hall, List.map_reverse, List.map_map]
      refine (List.reverse_perm _).trans ?_
      rw [show CmdBuf.addr ∘ (fun addr => (⟨addr, 0, 0⟩ : CmdBuf)) = id from rfl, List.map_id]
    cnt := fun b hb => (hempty b hb).2.trans (hempty b hb).1.symm
    le := fun b hb => (hempty b hb).1.le.trans (Nat.zero_le _)
    empty := fun b hb => (hempty b (List.mem_append_left _ hb)).1
    pos := by simp [CmdMsgBuffer.new, CmdMsgBuffer.inFlight]
    cur := by simp [CmdMsgBuffer.new] }

end Placed

end Lamellar.CommandQueue
