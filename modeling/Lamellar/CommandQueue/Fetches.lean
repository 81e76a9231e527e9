import Lamellar.CommandQueue.Receiver
import Lamellar.Lib.Roster

/-!
# The steps of the fetching tasks

The task that fetches a buffer, and the tasks for its commands. Only the last of these to
come to `cmd_cnt` puts `Free`, and by then all have fetched and submitted.
-/

namespace Lamellar.CommandQueue

variable {P : ℕ} {cfg : Config P} {sends : List (Send P)} {p d : Fin P} {l : Link}
  {mem : Mem} {stage : UInt64 → Stage} {j : ℕ} {f : Fetch}

namespace Fetch

theorem closed_of_reading (h : f.reading) : f.closed = false := by
  simp [closed, h]

theorem trail_of_reading (h : f.reading) : f.trail = [.tx] := by
  simp [trail, h]

theorem trail_of_open (hreading : f.reading = false) (hopen : f.closed = false) :
    f.trail = [.tx, .release] := by
  simp [trail, hreading, hopen]

theorem closed_of_cmdCnt (h : f.cmdCnt ≠ 0) : f.closed = false := by
  simp [closed, h]

end Fetch

/-! ## The task of a buffer -/

/-- The number of commands that a `Tx` announces. -/
theorem size_toNat {b : CmdBuf} (hle : b.index ≤ cfg.cmdBufLen) :
    b.size.toNat / cmdMsgSize = b.index := by
  have hlt : b.index * cmdMsgSize < 2 ^ 64 :=
    lt_of_le_of_lt (Nat.mul_le_mul_right _ hle) cfg.size_lt
  rw [CmdBuf.size, UInt64.toNat_ofNat_of_lt' hlt]
  exact Nat.mul_div_cancel _ (by decide)

/-- A task that has not put `Free` fetches a buffer that is in flight. -/
theorem LinkInv.carried (h : LinkInv cfg sends p d l stage) (hf : l.fetches[j]? = some f)
    (hopen : f.closed = false) :
    stage f.cmd.daddr = .fetch j ∧ ∃ b ∈ l.cmdBuffer.inFlight, b.addr = f.cmd.daddr ∧
      f.Carries l.mem b := by
  have hstage := h.fetching.opened j f hf (by simp [hopen])
  obtain ⟨b, hb, haddr⟩ := (h.flight f.cmd.daddr).mp (by simp [hstage])
  exact ⟨hstage, b, hb, haddr, h.fetching.carries b hb j f (haddr ▸ hstage) hf⟩

theorem LinkInv.fetchGet (h : LinkInv cfg sends p d l stage) (hf : l.fetches[j]? = some f)
    (hpc : f.pc = .get) :
    LinkInv cfg sends p d
      { l with
        fetches := l.fetches.set j
          { f with pc := .wait ((List.range (f.cmd.dsize.toNat / cmdMsgSize)).map
            (l.mem f.cmd.daddr)) } } stage := by
  have hok := h.fetching.ok f (List.mem_of_getElem? hf)
  have hreading : f.reading := by simp [Fetch.reading, hpc]
  have hstep := h.setFetch_counts
    { f with pc := .wait ((List.range (f.cmd.dsize.toNat / cmdMsgSize)).map
      (l.mem f.cmd.daddr)) } [] hf ?_ rfl ?_ ?_ (by simp) ?_ fun _ => rfl
  · simpa using hstep
  · exact {
      calm := by simp
      unspawned := fun _ => hok.unspawned hreading
      count := by simp [Fetch.reading]
      last := hok.last
      one := hok.one }
  · simp [Fetch.closed_of_reading hreading]
  · rw [Fetch.trail_of_reading hreading, Fetch.trail_of_reading rfl]
    rfl
  · intro b haddr hle hcarries
    refine ⟨hcarries.size, fun _ => ?_⟩
    rw [hcarries.size, size_toNat hle, hok.unspawned hreading, ← haddr]
    simp [Fetch.rest, CmdBuf.cmds]

theorem LinkInv.fetchWait {data : List CmdMsg} (h : LinkInv cfg sends p d l stage)
    (hf : l.fetches[j]? = some f) (hpc : f.pc = .wait data) :
    LinkInv cfg sends p d
      { l with fetches := l.fetches.set j { f with pc := .release data } } stage := by
  have hok := h.fetching.ok f (List.mem_of_getElem? hf)
  have hreading : f.reading := by simp [Fetch.reading, hpc]
  have hstep := h.setFetch_counts { f with pc := .release data } [] hf ?_ rfl ?_ ?_
    (by simp) ?_ fun _ => rfl
  · simpa using hstep
  · exact {
      calm := by simp
      unspawned := fun _ => hok.unspawned hreading
      count := by simp [Fetch.reading]
      last := hok.last
      one := hok.one }
  · simp [Fetch.closed_of_reading hreading]
  · rw [Fetch.trail_of_reading hreading, Fetch.trail_of_reading rfl]
    rfl
  · intro b _ _ hcarries
    refine ⟨hcarries.size, fun _ => ?_⟩
    simpa [Fetch.rest, hpc] using hcarries.cmds (by simp [hpc])

/-- `send_release` -/
theorem LinkInv.fetchRelease {data : List CmdMsg} (h : LinkInv cfg sends p d l stage)
    (hf : l.fetches[j]? = some f) (hpc : f.pc = .release data) :
    LinkInv cfg sends p d
      { l with
        statePuts := l.statePuts ++ [(f.cmd.daddr, .release)]
        fetches := l.fetches.set j { f with pc := .spawn data, cmdCnt := data.length } }
      stage := by
  have hok := h.fetching.ok f (List.mem_of_getElem? hf)
  have hreading : f.reading := by simp [Fetch.reading, hpc]
  have htasks := hok.unspawned hreading
  obtain ⟨hstage, b, hb, -, hcarries⟩ := h.carried hf (Fetch.closed_of_reading hreading)
  have hlen : data.length = b.index := by
    simpa [htasks, Fetch.rest, hpc] using hcarries.length (by simp [hpc])
  have hpos : 0 < b.index := h.placed.pos b (List.mem_append_right _ hb)
  have hopen : ({ f with pc := .spawn data, cmdCnt := data.length } : Fetch).closed = false :=
    Fetch.closed_of_cmdCnt (show data.length ≠ 0 by omega)
  refine h.setFetch_counts { f with pc := .spawn data, cmdCnt := data.length }
    [.release] hf ?_ rfl ?_ ?_ (fun _ => hstage) ?_ fun _ => rfl
  · exact {
      calm := by simp
      unspawned := by simp [Fetch.reading]
      count := by simp [htasks, Fetch.rest]
      last := by simp [htasks]
      one := hok.one }
  · simp [Fetch.closed_of_reading hreading]
  · rw [Fetch.trail_of_reading hreading, Fetch.trail_of_open rfl hopen]
    rfl
  · intro b _ _ hcarries
    refine ⟨hcarries.size, fun _ => ?_⟩
    simpa [Fetch.rest, hpc] using hcarries.cmds (by simp [hpc])

/-- The commands that a task has read are the ones that were pushed. -/
theorem LinkInv.dsize_ne_zero {c : CmdMsg} {rest : List CmdMsg}
    (h : LinkInv cfg sends p d l stage) (hf : l.fetches[j]? = some f)
    (hpc : f.pc = .spawn (c :: rest)) : c.dsize ≠ 0 := by
  have hok := h.fetching.ok f (List.mem_of_getElem? hf)
  have hcount := hok.count (by simp [Fetch.reading, hpc])
  have hopen : f.closed = false := by
    refine Fetch.closed_of_cmdCnt ?_
    simp only [Fetch.rest, hpc, List.length_cons] at hcount
    omega
  obtain ⟨-, b, hb, -, hcarries⟩ := h.carried hf hopen
  have hcmds := hcarries.cmds (by simp [hpc])
  have hlen := hcarries.length (by simp [hpc])
  simp only [Fetch.rest, hpc, List.length_cons] at hcmds hlen
  have hlt : f.tasks.length < b.index := by omega
  have hat := congrArg (fun cs => cs[f.tasks.length]?) hcmds
  simp only [List.map_append, List.map_cons, List.map_map] at hat
  rw [List.getElem?_append_right (by simp)] at hat
  simp only [List.length_map, Nat.sub_self, List.getElem?_cons_zero, CmdBuf.cmds,
    List.getElem?_map, List.getElem?_range hlt, Option.map_some, Option.some.injEq] at hat
  obtain ⟨t, -, hholds⟩ := h.content.held b (mem_used_of_inFlight hb) _ hlt
  have hsize : c.dsize = (l.mem b.addr f.tasks.length).dsize :=
    congrArg (fun x => x.2.1) hat
  rw [hsize, ← hholds.len]
  exact hholds.len_ne

theorem LinkInv.fetchSpawn {c : CmdMsg} {rest : List CmdMsg}
    (h : LinkInv cfg sends p d l stage) (hf : l.fetches[j]? = some f)
    (hpc : f.pc = .spawn (c :: rest)) :
    LinkInv cfg sends p d
      { l with
        fetches := l.fetches.set j
          { f with pc := .spawn rest, tasks := f.tasks ++ [(c, .get)] } } stage := by
  have hok := h.fetching.ok f (List.mem_of_getElem? hf)
  have hreading : f.reading = false := by simp [Fetch.reading, hpc]
  have hcount := hok.count (by simp [hreading])
  simp only [Fetch.rest, hpc, List.length_cons] at hcount
  have hpos : f.cmdCnt ≠ 0 := by omega
  have hstep := h.setFetch_counts
    { f with pc := .spawn rest, tasks := f.tasks ++ [(c, .get)] } [] hf ?_ rfl ?_ ?_
    (by simp) ?_ ?_
  · simpa using hstep
  · exact {
      calm := by simp
      unspawned := by simp [Fetch.reading]
      count := by
        intro _
        have hget : CmdPc.get.uncounted = true := rfl
        simp only [Fetch.rest, List.countP_append, List.countP_singleton, hget, if_true]
        omega
      last := by
        intro t ht hfree
        rcases List.mem_append.mp ht with ht | ht
        · exact hok.last t ht hfree
        · rw [List.mem_singleton.mp ht] at hfree
          cases hfree
      one := by simpa [List.countP_append] using hok.one }
  · simp [Fetch.closed_of_cmdCnt hpos]
  · rw [Fetch.trail_of_open hreading (Fetch.closed_of_cmdCnt hpos)]
    exact Fetch.trail_of_open rfl (Fetch.closed_of_cmdCnt hpos)
  · intro b _ _ hcarries
    refine ⟨hcarries.size, fun _ => ?_⟩
    simpa [Fetch.rest, hpc] using hcarries.cmds (by simp [hpc])
  · intro i
    by_cases hi : i < f.tasks.length
    · simp only [Fetch.counts, List.getElem?_append_left hi]
    · simp only [Fetch.counts, List.getElem?_append_right (Nat.not_lt.mp hi),
        List.getElem?_eq_none (Nat.not_lt.mp hi)]
      rcases Nat.eq_zero_or_pos (i - f.tasks.length) with hzero | hlt
      · simp [hzero, CmdPc.counts]
      · rw [List.getElem?_eq_none (show [(c, CmdPc.get)].length ≤ _ from hlt)]

theorem LinkInv.fetchDone (h : LinkInv cfg sends p d l stage) (hf : l.fetches[j]? = some f)
    (hpc : f.pc = .spawn []) :
    LinkInv cfg sends p d { l with fetches := l.fetches.set j { f with pc := .done } }
      stage := by
  have hok := h.fetching.ok f (List.mem_of_getElem? hf)
  have hreading : f.reading = false := by simp [Fetch.reading, hpc]
  have hclosed : ({ f with pc := .done } : Fetch).closed = f.closed := by
    simp [Fetch.closed, Fetch.reading, hpc]
  have hstep := h.setFetch_counts { f with pc := .done } [] hf ?_ rfl ?_ ?_
    (by simp) ?_ fun _ => rfl
  · simpa using hstep
  · exact {
      calm := by simp
      unspawned := by simp [Fetch.reading]
      count := by simpa [Fetch.reading, Fetch.rest, hpc] using hok.count
      last := hok.last
      one := hok.one }
  · simp [hclosed]
  · unfold Fetch.trail
    rw [hclosed, hreading]
    simp [Fetch.reading]
  · intro b _ _ hcarries
    refine ⟨hcarries.size, fun _ => ?_⟩
    simpa [Fetch.rest, hpc] using hcarries.cmds (by simp [hpc])

/-! ## The task of a command -/

section

variable {i : ℕ} {c : CmdMsg} {pc pc' : CmdPc}

theorem Fetch.countP_set (q : CmdPc → Bool) (pc' : CmdPc) (hi : f.tasks[i]? = some (c, pc)) :
    (f.tasks.set i (c, pc')).countP (fun t => q t.2) + (if q pc then 1 else 0) =
      f.tasks.countP (fun t => q t.2) + if q pc' then 1 else 0 :=
  Roster.countP_set (fun t => q t.2) (c, pc') hi

/-- A task that still has something to do belongs to a buffer that is in flight. -/
theorem Fetch.Ok.open_of_task (hok : f.Ok) (hi : f.tasks[i]? = some (c, pc))
    (hpc : pc ≠ .done) : f.reading = false ∧ f.closed = false := by
  have hmem := List.mem_of_getElem? hi
  constructor
  · by_contra hreading
    have hnil := hok.unspawned (by simpa using hreading)
    simp [hnil] at hi
  · by_contra hclosed
    exact hpc ((hok.finished (by simpa using hclosed)).2 _ hmem)

theorem Fetch.map_fst_set (hi : f.tasks[i]? = some (c, pc)) :
    (f.tasks.set i (c, pc')).map Prod.fst = f.tasks.map Prod.fst := by
  refine List.ext_getElem? fun n => ?_
  simp only [List.getElem?_map, List.getElem?_set]
  split
  · rename_i hn
    subst hn
    obtain ⟨hlt, hget⟩ := List.getElem?_eq_some_iff.mp hi
    simp [hlt, hget]
  · rfl

/-- The command at one place goes on, and its call counts it. -/
theorem Content.advance {m : CmdMsgBuffer} {counts counts' : UInt64 → ℕ → ℕ × ℕ} {b : CmdBuf}
    {g : Send P → Send P} (h : Content sends p d mem m counts) (hb : b ∈ m.used)
    (hi : i < b.index)
    (hcounts : ∀ b' ∈ m.used, ∀ i' < b'.index, b'.addr ≠ b.addr ∨ i' ≠ i →
      counts' b'.addr i' = counts b'.addr i')
    (hg : ∀ t : Send P, t.Holds p d (mem b.addr i) (counts b.addr i) →
      (g t).Holds p d (mem b.addr i) (counts' b.addr i)) :
    Content (sends.modify (mem b.addr i).send g) p d mem m counts' := by
  obtain ⟨t, ht, hholds⟩ := h.held b hb i hi
  have hself : (sends.modify (mem b.addr i).send g)[(mem b.addr i).send]? = some (g t) := by
    simp [ht]
  have hne : ∀ k, k ≠ (mem b.addr i).send →
      (sends.modify (mem b.addr i).send g)[k]? = sends[k]? := by
    intro k hk
    simp [hk.symm]
  constructor
  case held =>
    intro b' hb' i' hi'
    by_cases hk : (mem b'.addr i').send = (mem b.addr i).send
    · obtain ⟨haddr, rfl⟩ := h.inj b' hb' b hb i' hi' i hi hk
      rw [haddr]
      exact ⟨g t, hself, hg t hholds⟩
    · have hother : b'.addr ≠ b.addr ∨ i' ≠ i := by
        by_contra heq
        rw [not_or, not_not, not_not] at heq
        exact hk (by rw [heq.1, heq.2])
      obtain ⟨t', ht', hholds'⟩ := h.held b' hb' i' hi'
      exact ⟨t', by rw [hne _ hk, ht'], hholds'.congr rfl (hcounts b' hb' i' hi' hother)⟩
  case inj => exact h.inj
  case unpushed =>
    intro k t' ht' hpe hdst hpushed
    by_cases hk : k = (mem b.addr i).send
    · rw [hk, hself] at ht'
      cases ht'
      simp [(hg t hholds).pushed] at hpushed
    · rw [hne k hk] at ht'
      exact h.unpushed k t' ht' hpe hdst hpushed
  case gone =>
    intro k t' ht' hpe hdst hpushed hgone
    by_cases hk : k = (mem b.addr i).send
    · exact absurd ⟨b, hb, i, hi, hk.symm⟩ hgone
    · rw [hne k hk] at ht'
      exact h.gone k t' ht' hpe hdst hpushed hgone

/-- The counts of the commands after a task has gone from `pc` to `pc'`. -/
theorem Fetch.counts_set (hi : f.tasks[i]? = some (c, pc)) (n i' : ℕ) :
    ({ f with cmdCnt := n, tasks := f.tasks.set i (c, pc') } : Fetch).counts i' =
      if i' = i then pc'.counts else f.counts i' := by
  obtain ⟨hlt, -⟩ := List.getElem?_eq_some_iff.mp hi
  simp only [Fetch.counts, List.getElem?_set]
  by_cases hii : i = i'
  · subst hii
    simp [hlt]
  · simp [hii, Ne.symm hii]

/-- What a task has still to do does not change the commands. -/
theorem Fetch.Carries.set {b : CmdBuf} {n : ℕ} (h : f.Carries mem b)
    (hi : f.tasks[i]? = some (c, pc)) :
    ({ f with cmdCnt := n, tasks := f.tasks.set i (c, pc') } : Fetch).Carries mem b := by
  refine ⟨h.size, fun hne => ?_⟩
  show ((f.tasks.set i (c, pc')).map Prod.fst ++ f.rest).map CmdMsg.body = _
  rw [Fetch.map_fst_set hi]
  exact h.cmds hne

/-- The command of a task that still has something to do lies in the buffer. -/
theorem LinkInv.task_place (h : LinkInv cfg sends p d l stage) (hf : l.fetches[j]? = some f)
    (hi : f.tasks[i]? = some (c, pc)) (hpc : pc ≠ .done) :
    stage f.cmd.daddr = .fetch j ∧ ∃ b ∈ l.cmdBuffer.inFlight, b.addr = f.cmd.daddr ∧
      i < b.index ∧ c.body = (l.mem b.addr i).body := by
  have hok := h.fetching.ok f (List.mem_of_getElem? hf)
  obtain ⟨hreading, hopen⟩ := hok.open_of_task hi hpc
  obtain ⟨hstage, b, hb, haddr, hcarries⟩ := h.carried hf hopen
  have hpc_get : f.pc ≠ .get := by
    intro hget
    simp [Fetch.reading, hget] at hreading
  have hlen := hcarries.length hpc_get
  obtain ⟨hlt, -⟩ := List.getElem?_eq_some_iff.mp hi
  have hindex : i < b.index := by omega
  refine ⟨hstage, b, hb, haddr, hindex, ?_⟩
  have hat := congrArg (fun cs => cs[i]?) (hcarries.cmds hpc_get)
  simp only [List.map_append, List.map_map] at hat
  rw [List.getElem?_append_left (by simpa using hlt)] at hat
  simpa only [List.getElem?_map, hi, Option.map_some, Function.comp_apply, CmdBuf.cmds,
    List.getElem?_range hindex, Option.some.injEq] using hat

/-- The call that a task works for. -/
theorem LinkInv.task_send (h : LinkInv cfg sends p d l stage) (hf : l.fetches[j]? = some f)
    (hi : f.tasks[i]? = some (c, pc)) (hpc : pc ≠ .done) :
    ∃ t, sends[c.send]? = some t ∧ t.Holds p d c pc.counts := by
  obtain ⟨hstage, b, hb, haddr, hindex, hbody⟩ := h.task_place hf hi hpc
  obtain ⟨t, ht, hholds⟩ := h.content.held b (mem_used_of_inFlight hb) i hindex
  have hsend : c.send = (l.mem b.addr i).send := congrArg (fun x => x.2.2.2) hbody
  refine ⟨t, by rw [hsend, ht], hholds.congr hbody ?_⟩
  simp [placeCounts, haddr, hstage, Stage.counts, hf, Fetch.counts, hi]

/-- A task whose work is ahead goes on, and what it fetches or submits is counted. -/
theorem LinkInv.advanceCmd {g : Send P → Send P} (h : LinkInv cfg sends p d l stage)
    (hf : l.fetches[j]? = some f) (hi : f.tasks[i]? = some (c, pc)) (hpc : pc.uncounted)
    (hpc' : pc'.uncounted)
    (hg : ∀ (t : Send P) c, t.Holds p d c pc.counts → (g t).Holds p d c pc'.counts) :
    LinkInv cfg (sends.modify c.send g) p d
      { l with fetches := l.fetches.set j { f with tasks := f.tasks.set i (c, pc') } }
      stage := by
  have hok := h.fetching.ok f (List.mem_of_getElem? hf)
  have hne : pc ≠ .done := by
    rintro rfl
    cases hpc
  have hfree : pc' ≠ .free := by
    rintro rfl
    cases hpc'
  obtain ⟨hreading, hopen⟩ := hok.open_of_task hi hne
  obtain ⟨hstage, b, hb, haddr, hindex, hbody⟩ := h.task_place hf hi hne
  have hsend : c.send = (l.mem b.addr i).send := congrArg (fun x => x.2.2.2) hbody
  obtain ⟨hlt, -⟩ := List.getElem?_eq_some_iff.mp hi
  have hcount := hok.count (by simp [hreading])
  have hset := Fetch.countP_set CmdPc.uncounted pc' hi
  simp only [hpc, hpc', if_true, Nat.add_right_cancel_iff] at hset
  have hpos : f.cmdCnt ≠ 0 := by
    have hmem : 0 < f.tasks.countP fun t => t.2.uncounted :=
      List.countP_pos_iff.mpr ⟨(c, pc), List.mem_of_getElem? hi, hpc⟩
    omega
  have hplace : placeCounts stage l.fetches b.addr i = pc.counts := by
    simp [placeCounts, haddr, hstage, Stage.counts, hf, Fetch.counts, hi]
  have hf' : (l.fetches.set j { f with tasks := f.tasks.set i (c, pc') })[j]? =
      some { f with tasks := f.tasks.set i (c, pc') } := by
    obtain ⟨hj, -⟩ := List.getElem?_eq_some_iff.mp hf
    simp [hj]
  have hplace' : placeCounts stage
      (l.fetches.set j { f with tasks := f.tasks.set i (c, pc') }) b.addr i = pc'.counts := by
    simp only [placeCounts, haddr, hstage, Stage.counts, hf']
    simp [Fetch.counts, hlt]
  have hstep := h.setFetch (sends.modify c.send g)
    { f with tasks := f.tasks.set i (c, pc') } [] hf ?_ rfl ?_ ?_ (by simp) ?_ ?_
  · simpa using hstep
  · exact {
      calm := hok.calm
      unspawned := by
        intro hread
        exact absurd (show f.reading = true from hread) (by simp [hreading])
      count := fun _ => by
        show f.cmdCnt = f.rest.length + _
        rw [hset]
        exact hcount
      last := by
        intro t ht hfr
        rcases List.mem_or_eq_of_mem_set ht with ht | rfl
        · exact hok.last t ht hfr
        · exact absurd hfr hfree
      one := by
        have hone := Fetch.countP_set (fun x => x = .free) pc' hi
        simp only [decide_eq_true_eq, hfree, if_false] at hone
        have hle := hok.one
        show (f.tasks.set i (c, pc')).countP (fun t => t.2 = .free) ≤ 1
        omega }
  · simp [hopen]
  · rw [Fetch.trail_of_open hreading hopen]
    exact Fetch.trail_of_open hreading (Fetch.closed_of_cmdCnt hpos)
  · intro b' _ _ hc
    exact hc.set (n := f.cmdCnt) hi
  · rw [hsend]
    refine h.content.advance (mem_used_of_inFlight hb) hindex ?_ ?_
    · intro b' hb' i' _ hother
      refine Stage.counts_set hf fun hst => ?_
      have hii : i' ≠ i := by
        rintro rfl
        obtain ⟨f₀, hf₀, haddr₀⟩ := h.fetching.named b'.addr j hst
        obtain rfl : f₀ = f := by simpa [hf] using hf₀.symm
        exact (hother.resolve_right (by simp)) (haddr₀.symm.trans haddr.symm)
      rw [show ({ f with tasks := f.tasks.set i (c, pc') } : Fetch) =
        { f with cmdCnt := f.cmdCnt, tasks := f.tasks.set i (c, pc') } from rfl,
        Fetch.counts_set hi, if_neg hii]
    · rw [hplace, hplace']
      exact fun t => hg t _

/-- The `fetch_sub` of `cmd_cnt` -/
theorem LinkInv.countCmd (h : LinkInv cfg sends p d l stage)
    (hf : l.fetches[j]? = some f) (hi : f.tasks[i]? = some (c, .count)) :
    LinkInv cfg sends p d
      { l with
        fetches := l.fetches.set j
          { f with
            cmdCnt := f.cmdCnt - 1
            tasks := f.tasks.set i (c, if f.cmdCnt = 1 then .free else .done) } } stage := by
  have hok := h.fetching.ok f (List.mem_of_getElem? hf)
  obtain ⟨hreading, hopen⟩ := hok.open_of_task hi (by simp)
  have hcount := hok.count (by simp [hreading])
  have hpos : 0 < f.tasks.countP fun t => t.2.uncounted :=
    List.countP_pos_iff.mpr ⟨_, List.mem_of_getElem? hi, rfl⟩
  -- nobody puts `Free` as long as somebody is left to count
  have hnone : ∀ t ∈ f.tasks, t.2 ≠ .free := by
    intro t ht hfree
    have hzero := hok.last t ht hfree
    omega
  obtain ⟨hlt, -⟩ := List.getElem?_eq_some_iff.mp hi
  have hopen' : ({ f with
      cmdCnt := f.cmdCnt - 1
      tasks := f.tasks.set i (c, if f.cmdCnt = 1 then .free else .done) } : Fetch).closed =
      false := by
    by_cases hone : f.cmdCnt = 1
    · simp only [Fetch.closed, hone, if_true, Bool.and_eq_false_iff, List.all_eq_false]
      exact Or.inr ⟨(c, .free), List.mem_set hlt _, by simp⟩
    · exact Fetch.closed_of_cmdCnt (show f.cmdCnt - 1 ≠ 0 by omega)
  have hstep := h.setFetch_counts { f with
      cmdCnt := f.cmdCnt - 1
      tasks := f.tasks.set i (c, if f.cmdCnt = 1 then .free else .done) } [] hf ?_ rfl ?_ ?_
    (by simp) ?_ ?_
  · simpa using hstep
  · exact {
      calm := hok.calm
      unspawned := by
        intro hread
        exact absurd (show f.reading = true from hread) (by simp [hreading])
      count := by
        intro _
        have hset := Fetch.countP_set CmdPc.uncounted (if f.cmdCnt = 1 then .free else .done) hi
        have huncounted :
            (if f.cmdCnt = 1 then CmdPc.free else .done).uncounted = false := by
          split <;> rfl
        rw [huncounted, show CmdPc.count.uncounted = true from rfl] at hset
        simp only [if_true, Bool.false_eq_true, if_false, Nat.add_zero] at hset
        show f.cmdCnt - 1 = f.rest.length + (f.tasks.set i _).countP (fun t => t.2.uncounted)
        omega
      last := by
        intro t ht hfree
        rcases List.mem_or_eq_of_mem_set ht with ht | rfl
        · exact absurd hfree (hnone t ht)
        · by_cases hone : f.cmdCnt = 1
          · simp [hone]
          · simp [hone] at hfree
      one := by
        have hzero : f.tasks.countP (fun t => t.2 = .free) = 0 :=
          List.countP_eq_zero.mpr (by simpa using hnone)
        have hset := Fetch.countP_set (fun x => x = .free)
          (if f.cmdCnt = 1 then .free else .done) hi
        simp only [hzero, Nat.zero_add] at hset
        have hle : ∀ x : Bool, (if x = true then 1 else 0) ≤ 1 := by decide
        have hnew := hle (decide ((if f.cmdCnt = 1 then CmdPc.free else .done) = .free))
        show (f.tasks.set i _).countP (fun t => t.2 = .free) ≤ 1
        omega }
  · simp [hopen]
  · rw [Fetch.trail_of_open hreading hopen]
    exact Fetch.trail_of_open hreading hopen'
  · exact fun b _ _ hcarries => hcarries.set hi
  · intro i'
    rw [Fetch.counts_set hi]
    split
    · rename_i hii
      subst hii
      simp only [Fetch.counts, hi]
      split <;> rfl
    · rfl

/-- `send_free` -/
theorem LinkInv.freeCmd (h : LinkInv cfg sends p d l stage)
    (hf : l.fetches[j]? = some f) (hi : f.tasks[i]? = some (c, .free)) :
    LinkInv cfg sends p d
      { l with
        statePuts := l.statePuts ++ [(f.cmd.daddr, .free)]
        fetches := l.fetches.set j { f with tasks := f.tasks.set i (c, .done) } } stage := by
  have hok := h.fetching.ok f (List.mem_of_getElem? hf)
  obtain ⟨hreading, hopen⟩ := hok.open_of_task hi (by simp)
  obtain ⟨hstage, -⟩ := h.carried hf hopen
  have hzero := hok.last _ (List.mem_of_getElem? hi) rfl
  have hset := Fetch.countP_set (fun x => x = .free) .done hi
  simp only [decide_true, if_true, reduceCtorEq, decide_false, Bool.false_eq_true,
    if_false] at hset
  have hone := hok.one
  have hnone : ∀ t ∈ f.tasks.set i (c, .done), t.2 ≠ .free := by
    have hcountP : (f.tasks.set i (c, .done)).countP (fun t => t.2 = .free) = 0 := by omega
    simpa using List.countP_eq_zero.mp hcountP
  have hclosed : ({ f with tasks := f.tasks.set i (c, .done) } : Fetch).closed = true := by
    simp only [Fetch.closed, Bool.and_eq_true, Bool.not_eq_true', decide_eq_true_eq,
      List.all_eq_true]
    exact ⟨⟨hreading, hzero⟩, by simpa using hnone⟩
  refine h.setFetch_counts { f with tasks := f.tasks.set i (c, .done) } [.free] hf ?_
    rfl ?_ ?_ (fun _ => hstage) ?_ ?_
  · exact {
      calm := hok.calm
      unspawned := by
        intro hread
        exact absurd (show f.reading = true from hread) (by simp [hreading])
      count := by
        intro _
        have hcount := hok.count (by simp [hreading])
        have huncounted := Fetch.countP_set CmdPc.uncounted .done hi
        simp only [CmdPc.uncounted, Bool.false_eq_true, if_false, Nat.add_zero] at huncounted
        show f.cmdCnt = f.rest.length + _
        rw [hcount]
        exact congrArg _ huncounted.symm
      last := fun t ht hfree => absurd hfree (hnone t ht)
      one := by
        show (f.tasks.set i (c, .done)).countP (fun t => t.2 = .free) ≤ 1
        omega }
  · exact fun _ => hclosed
  · rw [Fetch.trail_of_open hreading hopen, Fetch.trail, hclosed]
    show (if f.reading = true then [Cmd.tx] else _) = _
    simp [hreading]
  · exact fun b _ _ hcarries => hcarries.set (n := f.cmdCnt) hi
  · intro i'
    rw [show ({ f with tasks := f.tasks.set i (c, .done) } : Fetch) =
      { f with cmdCnt := f.cmdCnt, tasks := f.tasks.set i (c, .done) } from rfl,
      Fetch.counts_set hi]
    split
    · rename_i hii
      subst hii
      simp [Fetch.counts, hi, CmdPc.counts]
    · rfl

end

end Lamellar.CommandQueue
