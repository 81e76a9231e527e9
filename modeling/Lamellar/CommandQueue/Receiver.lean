import Lamellar.CommandQueue.Push

/-!
# The receiver's steps on a link

What the puts, `recv_data` and the fetching tasks do to the invariant of a link.
-/

namespace Lamellar.CommandQueue

variable {P : ℕ} {cfg : Config P} {sends : List (Send P)} {p d : Fin P} {l : Link}
  {m : CmdMsgBuffer} {mem : Mem} {stage : UInt64 → Stage} {fetches : List Fetch}

/-! ## Puts -/

theorem LinkInv.deliverSlot {c : CmdMsg} {rest : List CmdMsg}
    (h : LinkInv cfg sends p d l stage) (hputs : l.slotPuts = c :: rest) :
    LinkInv cfg sends p d { l with recvSlot := c, slotPuts := rest } stage where
  placed := h.placed
  flight := h.flight
  slot := h.slot
  inbox := by
    have hinbox := h.inbox
    rw [hputs] at hinbox
    exact {
      hash := fun x hx => hinbox.hash x (List.mem_cons_of_mem _ hx)
      kind := fun x hx => hinbox.kind x (List.mem_cons_of_mem _ hx)
      tx := fun x hx => hinbox.tx x (List.mem_cons_of_mem _ hx)
      one := (List.Sublist.countP_le (List.sublist_cons_self _ _)).trans hinbox.one }
  back := h.back
  fetching := h.fetching
  content := h.content
  freed := h.freed
  ready := h.ready

/-- A state that is on its way is not the first one. -/
theorem Stage.trail_next {st : Stage} {x c : Cmd} {back : List Cmd}
    (h : (x :: c :: back) <:+ st.trail fetches) : c ≠ .tx := by
  have hlist : st.trail fetches = [] ∨ st.trail fetches = [.tx] ∨
      st.trail fetches = [.tx, .release] ∨ st.trail fetches = [.tx, .release, .free] := by
    cases st with
    | idle => exact Or.inl rfl
    | sent => exact Or.inr (Or.inl rfl)
    | fetch j =>
      simp only [Stage.trail]
      split
      · unfold Fetch.trail
        split
        · exact Or.inr (Or.inl rfl)
        · split
          · exact Or.inr (Or.inr (Or.inr rfl))
          · exact Or.inr (Or.inr (Or.inl rfl))
      · exact Or.inl rfl
  rintro rfl
  rcases hlist with htrail | htrail | htrail | htrail <;>
    simp [htrail, List.suffix_cons_iff] at h

theorem LinkInv.deliverState {addr : UInt64} {cmd : Cmd} {rest : List (UInt64 × Cmd)}
    (h : LinkInv cfg sends p d l stage) (hputs : l.statePuts = (addr, cmd) :: rest) :
    LinkInv cfg sends p d
      { l with mem := l.mem.write addr 0 { l.mem addr 0 with cmd }, statePuts := rest }
      stage := by
  have hne : ∀ b : CmdBuf, b.addr ≠ addr →
      b.state (l.mem.write addr 0 { l.mem addr 0 with cmd }) = b.state l.mem ∧
        backTo b.addr l.statePuts = backTo b.addr rest := by
    intro b hb
    refine ⟨congrArg CmdMsg.cmd (Mem.write_of_ne (Or.inl hb)), ?_⟩
    simp [hputs, backTo, Ne.symm hb]
  have heq : ∀ b : CmdBuf, b.addr = addr →
      b.state (l.mem.write addr 0 { l.mem addr 0 with cmd }) = cmd ∧
        backTo b.addr l.statePuts = cmd :: backTo b.addr rest := by
    rintro b rfl
    refine ⟨congrArg CmdMsg.cmd Mem.write_self, ?_⟩
    simp [hputs, backTo]
  have hbody : ∀ a i, (l.mem.write addr 0 { l.mem addr 0 with cmd } a i).body =
      (l.mem a i).body := by
    intro a i
    by_cases hai : a = addr ∧ i = 0
    · obtain ⟨rfl, rfl⟩ := hai
      rw [Mem.write_self]
      rfl
    · rw [Mem.write_of_ne (by tauto)]
  have hidle : stage addr ≠ .idle := h.back.puts (addr, cmd) (by simp [hputs])
  constructor
  case placed => exact h.placed
  case flight => exact h.flight
  case slot => exact h.slot
  case inbox => exact h.inbox
  case back => exact {
    fresh := by
      intro b hb hpos
      have haddr : b.addr ≠ addr := by
        rintro rfl
        exact hidle (h.stage_filling hb)
      rw [(hne b haddr).1]
      exact h.back.fresh b hb hpos
    suffix := by
      intro b hb
      have hsuffix := h.back.suffix b hb
      by_cases haddr : b.addr = addr
      · rw [(heq b haddr).1]
        rw [(heq b haddr).2] at hsuffix
        exact (List.suffix_cons _ _).trans hsuffix
      · rw [(hne b haddr).1, ← (hne b haddr).2]
        exact hsuffix
    waiting := by
      intro b hb
      by_cases haddr : b.addr = addr
      · have hsuffix := h.back.suffix b (mem_inFlight_of_waiting hb)
        rw [(heq b haddr).2] at hsuffix
        rw [(heq b haddr).1]
        exact Stage.trail_next hsuffix
      · rw [(hne b haddr).1]
        exact h.back.waiting b hb
    puts := fun x hx => h.back.puts x (by simp [hputs, hx]) }
  case fetching => exact {
    ok := h.fetching.ok
    named := h.fetching.named
    opened := h.fetching.opened
    carries := by
      intro b hb j f hj hf
      have hcarries := h.fetching.carries b hb j f hj hf
      refine ⟨hcarries.size, fun hpc => (hcarries.cmds hpc).trans ?_⟩
      simp [CmdBuf.cmds, hbody] }
  case content =>
    exact h.content.congr (fun _ _ => Iff.rfl) (fun b _ i _ => hbody b.addr i)
      fun _ _ _ _ => rfl
  case freed =>
    intro c hc a ha b hb haddr
    have hstate := h.freed c hc a ha b hb haddr
    by_cases hb' : b.addr = addr
    · have hsuffix := h.back.suffix b (mem_inFlight_of_waiting hb)
      rw [(heq b hb').2, hstate] at hsuffix
      cases (Stage.trail_free hsuffix).1
    · rw [(hne b hb').1, hstate]
  case ready => exact h.ready

/-- A `Print` on its way to the receive slot changes nothing. -/
theorem LinkInv.print {slot : CmdMsg} (h : LinkInv cfg sends p d l stage)
    (hclear : l.sendSlot.cmd ≠ .tx) (hhash : slot.cmdHash = slot.hash)
    (hcmd : slot.cmd = .print) :
    LinkInv cfg sends p d { l with sendSlot := slot, slotPuts := l.slotPuts ++ [slot] }
      stage where
  placed := h.placed
  flight := h.flight
  slot := {
    hash := hhash
    kind := Or.inr (Or.inl hcmd)
    tx := by simp [hcmd]
    free := fun _ => h.slot.free hclear }
  inbox := h.inbox.append hhash (Or.inr hcmd)
  back := h.back
  fetching := h.fetching
  content := h.content
  freed := h.freed
  ready := h.ready

/-! ## `recv_data` -/

theorem CmdMsg.clear_cmd (c : CmdMsg) : c.clear.cmd = .clear := rfl

/-- The receive slot is read and cleared, without a `Tx` in it. -/
theorem LinkInv.readSlot (h : LinkInv cfg sends p d l stage) (hcmd : l.recvSlot.cmd ≠ .tx) :
    LinkInv cfg sends p d { l with recvSlot := l.recvSlot.clear } stage where
  placed := h.placed
  flight := h.flight
  slot := h.slot
  inbox := {
    hash := by
      intro c hc
      rcases List.mem_cons.mp hc with rfl | hc
      · rfl
      · exact h.inbox.hash c (List.mem_cons_of_mem _ hc)
    kind := by
      intro c hc
      rcases List.mem_cons.mp hc with rfl | hc
      · exact Or.inl rfl
      · exact h.inbox.kind c (List.mem_cons_of_mem _ hc)
    tx := by
      intro c hc htx
      rcases List.mem_cons.mp hc with rfl | hc
      · cases htx
      · exact h.inbox.tx c (List.mem_cons_of_mem _ hc) htx
    one := by
      have hone := h.inbox.one
      simp only [List.countP_cons, hcmd, CmdMsg.clear_cmd] at hone ⊢
      simpa using hone }
  back := h.back
  fetching := h.fetching
  content := h.content
  freed := h.freed
  ready := h.ready

theorem getElem?_append_new {f f' : Fetch} {j : ℕ} (h : (fetches ++ [f])[j]? = some f') :
    fetches[j]? = some f' ∨ j = fetches.length ∧ f' = f := by
  rw [List.getElem?_append] at h
  split at h
  · exact Or.inl h
  · right
    obtain ⟨hj, hf⟩ := List.getElem?_eq_some_iff.mp h
    have hlen : j - fetches.length = 0 := by simpa using hj
    refine ⟨by omega, ?_⟩
    simpa [hlen] using h.symm

theorem getElem?_append_old {f f' : Fetch} {j : ℕ} (h : fetches[j]? = some f') :
    (fetches ++ [f])[j]? = some f' := by
  obtain ⟨hj, -⟩ := List.getElem?_eq_some_iff.mp h
  rw [List.getElem?_append_left hj, h]

/-- A `Tx` is read: a task is submitted that fetches its buffer. -/
theorem LinkInv.readTx (h : LinkInv cfg sends p d l stage) (hcmd : l.recvSlot.cmd = .tx) :
    LinkInv cfg sends p d
      { l with
        recvSlot := l.recvSlot.clear
        fetches := l.fetches ++ [⟨l.recvSlot, .get, 0, []⟩] }
      (Function.update stage l.recvSlot.daddr (.fetch l.fetches.length)) := by
  obtain ⟨hsent, b, hb, haddr, hsize⟩ := h.inbox.tx l.recvSlot List.mem_cons_self hcmd
  have hno : ∀ c ∈ l.slotPuts, c.cmd ≠ .tx := by
    have hone := h.inbox.one
    simp only [List.countP_cons, hcmd, decide_true, if_true] at hone
    have hzero := List.countP_eq_zero.mp (show l.slotPuts.countP (·.cmd = .tx) = 0 by omega)
    simpa using hzero
  -- a stage that names a task names one that is there
  have hnamed : ∀ a j, stage a = .fetch j → ∃ f, l.fetches[j]? = some f := fun a j hj => by
    obtain ⟨f, hf, -⟩ := h.fetching.named a j hj
    exact ⟨f, hf⟩
  have htrail : ∀ a, a ≠ l.recvSlot.daddr →
      (Function.update stage l.recvSlot.daddr (.fetch l.fetches.length) a).trail
        (l.fetches ++ [⟨l.recvSlot, .get, 0, []⟩]) = (stage a).trail l.fetches := by
    intro a ha
    rw [Function.update_of_ne ha]
    cases hst : stage a with
    | idle => rfl
    | sent => rfl
    | fetch j =>
      obtain ⟨f, hf⟩ := hnamed a j hst
      simp [Stage.trail, hf, getElem?_append_old hf]
  have hcounts : ∀ a i, placeCounts (Function.update stage l.recvSlot.daddr
      (.fetch l.fetches.length)) (l.fetches ++ [⟨l.recvSlot, .get, 0, []⟩]) a i =
      placeCounts stage l.fetches a i := by
    intro a i
    by_cases ha : a = l.recvSlot.daddr
    · subst ha
      simp [placeCounts, Stage.counts, hsent, Fetch.counts]
    · rw [placeCounts, placeCounts, Function.update_of_ne ha]
      cases hst : stage a with
      | idle => rfl
      | sent => rfl
      | fetch j =>
        obtain ⟨f, hf⟩ := hnamed a j hst
        simp [Stage.counts, hf, getElem?_append_old hf]
  constructor
  case placed => exact h.placed
  case flight =>
    intro a
    by_cases ha : a = l.recvSlot.daddr
    · subst ha
      simp only [Function.update_self, ne_eq, reduceCtorEq, not_false_eq_true, true_iff]
      exact ⟨b, hb, haddr⟩
    · rw [Function.update_of_ne ha]
      exact h.flight a
  case slot => exact h.slot
  case inbox =>
    refine Inbox.of_no_tx (show Inbox l.cmdBuffer stage _ from ?_) ?_
    · exact {
        hash := by
          intro c hc
          rcases List.mem_cons.mp hc with rfl | hc
          · rfl
          · exact h.inbox.hash c (List.mem_cons_of_mem _ hc)
        kind := by
          intro c hc
          rcases List.mem_cons.mp hc with rfl | hc
          · exact Or.inl rfl
          · exact h.inbox.kind c (List.mem_cons_of_mem _ hc)
        tx := by
          intro c hc htx
          rcases List.mem_cons.mp hc with rfl | hc
          · cases htx
          · exact absurd htx (hno c hc)
        one := by
          have hzero : l.slotPuts.countP (·.cmd = .tx) = 0 :=
            List.countP_eq_zero.mpr (by simpa using hno)
          simp [hzero, CmdMsg.clear_cmd] }
    · intro c hc
      rcases List.mem_cons.mp hc with rfl | hc
      · simp [CmdMsg.clear_cmd]
      · exact hno c hc
  case back => exact {
    fresh := h.back.fresh
    suffix := by
      intro b' hb'
      have hsuffix := h.back.suffix b' hb'
      by_cases ha : b'.addr = l.recvSlot.daddr
      · rw [ha, hsent] at hsuffix
        rw [ha]
        simpa [Stage.trail, Fetch.trail, Fetch.reading] using hsuffix
      · rw [htrail b'.addr ha]
        exact hsuffix
    waiting := h.back.waiting
    puts := by
      intro x hx
      by_cases ha : x.1 = l.recvSlot.daddr
      · simp [ha]
      · rw [Function.update_of_ne ha]
        exact h.back.puts x hx }
  case fetching => exact {
    ok := by
      intro f hf
      rcases List.mem_append.mp hf with hf | hf
      · exact h.fetching.ok f hf
      · rw [List.mem_singleton.mp hf]
        exact {
          calm := by simp
          unspawned := fun _ => rfl
          count := by simp [Fetch.reading]
          last := by simp
          one := by simp }
    named := by
      intro a j hj
      by_cases ha : a = l.recvSlot.daddr
      · subst ha
        rw [Function.update_self] at hj
        cases hj
        exact ⟨⟨l.recvSlot, .get, 0, []⟩, by simp, rfl⟩
      · rw [Function.update_of_ne ha] at hj
        obtain ⟨f, hf, hfa⟩ := h.fetching.named a j hj
        exact ⟨f, getElem?_append_old hf, hfa⟩
    opened := by
      intro j f hf hopen
      rcases getElem?_append_new hf with hf | ⟨rfl, rfl⟩
      · have hstage := h.fetching.opened j f hf hopen
        have hne : f.cmd.daddr ≠ l.recvSlot.daddr := by
          intro heq
          rw [heq, hsent] at hstage
          cases hstage
        rw [Function.update_of_ne hne, hstage]
      · exact Function.update_self _ _ _
    carries := by
      intro b' hb' j f hj hf
      by_cases ha : b'.addr = l.recvSlot.daddr
      · rw [ha, Function.update_self] at hj
        cases hj
        have hbb : b' = b := h.placed.eq_of_addr (mem_all_of_used (mem_used_of_inFlight hb'))
          (mem_all_of_used (mem_used_of_inFlight hb)) (ha.trans haddr.symm)
        obtain rfl : (⟨l.recvSlot, .get, 0, []⟩ : Fetch) = f := by simpa using hf
        exact ⟨by rw [hbb, hsize], fun hpc => absurd rfl hpc⟩
      · rw [Function.update_of_ne ha] at hj
        obtain ⟨f', hf'⟩ := hnamed b'.addr j hj
        rw [getElem?_append_old hf'] at hf
        obtain rfl : f' = f := by simpa using hf
        exact h.fetching.carries b' hb' j f' hj hf' }
  case content =>
    exact h.content.congr (fun _ _ => Iff.rfl) (fun _ _ _ _ => rfl)
      fun b _ i _ => hcounts b.addr i
  case freed => exact h.freed
  case ready => exact h.ready

/-! ## Fetching tasks -/

section

variable {j : ℕ} {f f' : Fetch}

theorem Stage.trail_set {st : Stage} (h : st ≠ .fetch j) :
    st.trail (fetches.set j f') = st.trail fetches := by
  cases st with
  | idle => rfl
  | sent => rfl
  | fetch j' =>
    have hne : j ≠ j' := by
      rintro rfl
      exact h rfl
    simp [Stage.trail, hne]

theorem Stage.trail_set_self (hf : fetches[j]? = some f) :
    (Stage.fetch j).trail (fetches.set j f') = f'.trail := by
  obtain ⟨hj, -⟩ := List.getElem?_eq_some_iff.mp hf
  simp [Stage.trail, hj]

theorem Stage.counts_set {st : Stage} {i : ℕ} (hf : fetches[j]? = some f)
    (h : st = .fetch j → f'.counts i = f.counts i) :
    st.counts (fetches.set j f') i = st.counts fetches i := by
  obtain ⟨hj, -⟩ := List.getElem?_eq_some_iff.mp hf
  cases st with
  | idle => rfl
  | sent => rfl
  | fetch j' =>
    by_cases hne : j = j'
    · subst hne
      simp only [Stage.counts, List.getElem?_set_self hj, hf, h rfl]
    · simp [Stage.counts, hne]

theorem backTo_append (addr addr' : UInt64) (statePuts : List (UInt64 × Cmd)) (puts : List Cmd) :
    backTo addr (statePuts ++ puts.map fun c => (addr', c)) =
      backTo addr statePuts ++ if addr' = addr then puts else [] := by
  unfold backTo
  rw [List.filter_append, List.map_append]
  congr 1
  split
  · rename_i heq
    subst heq
    induction puts with
    | nil => rfl
    | cons c puts ih => simpa using ih
  · rename_i hne
    simp [List.filter_map, Function.comp_def, hne]

/-- A task goes on, and puts what its trail gains. -/
theorem LinkInv.setFetch (sends' : List (Send P)) (f' : Fetch) (puts : List Cmd)
    (h : LinkInv cfg sends p d l stage) (hf : l.fetches[j]? = some f) (hok : f'.Ok)
    (hcmd : f'.cmd = f.cmd) (hclosed : f.closed → f'.closed)
    (htrail : f'.trail = f.trail ++ puts)
    (hputs : puts ≠ [] → stage f.cmd.daddr = .fetch j)
    (hcarries : ∀ b, b.addr = f.cmd.daddr → b.index ≤ cfg.cmdBufLen →
      f.Carries l.mem b → f'.Carries l.mem b)
    (hcontent : Content sends' p d l.mem l.cmdBuffer
      (placeCounts stage (l.fetches.set j f'))) :
    LinkInv cfg sends' p d
      { l with
        statePuts := l.statePuts ++ puts.map fun c => (f.cmd.daddr, c)
        fetches := l.fetches.set j f' } stage := by
  obtain ⟨hj, -⟩ := List.getElem?_eq_some_iff.mp hf
  have hat : ∀ a, stage a = .fetch j → a = f.cmd.daddr := by
    intro a ha
    obtain ⟨f₀, hf₀, haddr⟩ := h.fetching.named a j ha
    obtain rfl : f₀ = f := by simpa [hf] using hf₀.symm
    exact haddr.symm
  constructor
  case placed => exact h.placed
  case flight => exact h.flight
  case slot => exact h.slot
  case inbox => exact h.inbox
  case back => exact {
    fresh := h.back.fresh
    suffix := by
      intro b hb
      have hsuffix := h.back.suffix b hb
      rw [backTo_append]
      by_cases hst : stage b.addr = .fetch j
      · rw [hst, Stage.trail_set_self hf, htrail, if_pos (hat _ hst).symm]
        rw [hst, show (Stage.fetch j).trail l.fetches = f.trail by simp [Stage.trail, hf]]
          at hsuffix
        rw [← List.cons_append]
        obtain ⟨pre, hpre⟩ := hsuffix
        exact ⟨pre, by rw [← List.append_assoc, hpre]⟩
      · rw [Stage.trail_set hst]
        split
        · rename_i haddr
          -- nothing is put: the buffer is not the one of this task any more
          have hnil : puts = [] := by
            by_contra hne
            exact hst (haddr ▸ hputs hne)
          rw [hnil, List.append_nil]
          exact hsuffix
        · rw [List.append_nil]
          exact hsuffix
    waiting := h.back.waiting
    puts := by
      intro x hx
      rcases List.mem_append.mp hx with hx | hx
      · exact h.back.puts x hx
      · obtain ⟨c, hc, rfl⟩ := List.mem_map.mp hx
        rw [hputs (List.ne_nil_of_mem hc)]
        simp }
  case fetching => exact {
    ok := by
      intro x hx
      rcases List.mem_or_eq_of_mem_set hx with hx | rfl
      · exact h.fetching.ok x hx
      · exact hok
    named := by
      intro a j' ha
      obtain ⟨x, hx, haddr⟩ := h.fetching.named a j' ha
      by_cases hjj : j = j'
      · subst hjj
        exact ⟨f', by simp [hj], by rw [hcmd, hat a ha]⟩
      · exact ⟨x, by simp [hjj, hx], haddr⟩
    opened := by
      intro j' x hx hopen
      by_cases hjj : j = j'
      · subst hjj
        obtain rfl : f' = x := by simpa [hj] using hx
        rw [hcmd]
        exact h.fetching.opened j f hf fun hc => hopen (hclosed hc)
      · rw [List.getElem?_set_ne hjj] at hx
        exact h.fetching.opened j' x hx hopen
    carries := by
      intro b hb j' x ha hx
      by_cases hjj : j = j'
      · subst hjj
        obtain rfl : f' = x := by simpa [hj] using hx
        exact hcarries b (hat _ ha) (h.placed.le b (mem_all_of_used (mem_used_of_inFlight hb)))
          (h.fetching.carries b hb j f ha hf)
      · rw [List.getElem?_set_ne hjj] at hx
        exact h.fetching.carries b hb j' x ha hx }
  case content => exact hcontent
  case freed => exact h.freed
  case ready => exact h.ready

/-- The same, where no command has been fetched or submitted. -/
theorem LinkInv.setFetch_counts (f' : Fetch) (puts : List Cmd)
    (h : LinkInv cfg sends p d l stage) (hf : l.fetches[j]? = some f) (hok : f'.Ok)
    (hcmd : f'.cmd = f.cmd) (hclosed : f.closed → f'.closed)
    (htrail : f'.trail = f.trail ++ puts)
    (hputs : puts ≠ [] → stage f.cmd.daddr = .fetch j)
    (hcarries : ∀ b, b.addr = f.cmd.daddr → b.index ≤ cfg.cmdBufLen →
      f.Carries l.mem b → f'.Carries l.mem b)
    (hcounts : ∀ i, f'.counts i = f.counts i) :
    LinkInv cfg sends p d
      { l with
        statePuts := l.statePuts ++ puts.map fun c => (f.cmd.daddr, c)
        fetches := l.fetches.set j f' } stage := by
  refine h.setFetch sends f' puts hf hok hcmd hclosed htrail hputs hcarries ?_
  refine h.content.congr (fun _ _ => Iff.rfl) (fun _ _ _ _ => rfl) fun b _ i _ => ?_
  exact Stage.counts_set hf fun _ => hcounts i

end

end Lamellar.CommandQueue
