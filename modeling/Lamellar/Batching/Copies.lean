import Lamellar.Batching.Broadcast

/-!
# Broadcasts that do not mix teams reach their teams

The executions so far, those that the requests still have to see to and those of the messages
in the batcher are together one for each PE of the team of each request (`Inv.account`). A
transfer takes messages out of the batcher and executes them where it is sent; these are
their own PEs in the runs of `Unmixed`.
-/

namespace Lamellar.Batching.Broadcast

open Team (LamellarArchRT)

variable {A D R B : Type} {cfg : Config} {I : Inner (Message A D R) B}

/-! ## The PEs of a team -/

section Teams

variable {arch arch' : LamellarArchRT}

theorem isOk_iff (h : arch.WellFormed cfg.numPes) (pe : ℕ) :
    isOk arch pe = true ↔ pe ∈ arch.teamIter := by
  rw [h.mem_teamIter, isOk]
  cases arch.teamPe pe with
  | ok t => simp
  | error e => simp

theorem sendToPes_of_mem (h : arch.WellFormed cfg.numPes) (hme : cfg.me ∈ arch.teamIter) :
    arch.teamIter.Perm (cfg.me :: sendToPes cfg arch) := by
  have herase : arch.teamIter.erase cfg.me = sendToPes cfg arch := by
    rw [h.teamIter_nodup.erase_eq_filter]
    refine List.filter_congr ?_
    intro pe _
    simp [bne, beq_eq_decide]
  rw [← herase]
  exact List.perm_cons_erase hme

theorem sendToPes_of_not_mem (hme : cfg.me ∉ arch.teamIter) :
    sendToPes cfg arch = arch.teamIter := by
  rw [sendToPes, List.filter_eq_self]
  intro pe hpe
  simp only [decide_eq_true_eq]
  rintro rfl
  exact hme hpe

theorem sendToPes_perm (h : arch.WellFormed cfg.numPes) (h' : arch'.WellFormed cfg.numPes)
    (hsame : ∀ pe, pe ∈ arch.teamIter ↔ pe ∈ arch'.teamIter) :
    (sendToPes cfg arch).Perm (sendToPes cfg arch') :=
  ((List.perm_ext_iff_of_nodup h.teamIter_nodup h'.teamIter_nodup).mpr hsame).filter _

/-- A team of one PE that is not this one is served remotely. -/
theorem sendToPes_eq_nil (h : arch.WellFormed cfg.numPes) (hone : ¬ arch.numPes > 1)
    (hok : isOk arch cfg.me = true) : sendToPes cfg arch = [] := by
  have hperm := sendToPes_of_mem h ((isOk_iff h _).mp hok)
  have hlen := hperm.length_eq
  rw [h.teamIter_length, List.length_cons] at hlen
  exact List.eq_nil_of_length_eq_zero (by omega)

/-- With one PE in the world, all teams are of that PE. -/
theorem isOk_of_single (h : arch.WellFormed cfg.numPes) (hone : cfg.numPes = 1) :
    arch.numPes = 1 ∧ isOk arch cfg.me = true := by
  have hmem : ∀ pe ∈ arch.teamIter, pe = cfg.me := by
    intro pe hpe
    obtain ⟨t, ht⟩ := h.mem_teamIter.mp hpe
    have hlt := h.teamPe_lt ht
    have hme := cfg.me_lt
    omega
  have hlen := h.teamIter_length
  have hpos := h.numPes_pos
  cases hteam : arch.teamIter with
  | nil =>
    rw [hteam, List.length_nil] at hlen
    omega
  | cons pe pes =>
    have hpe := hmem pe (by simp [hteam])
    have hpes : pes = [] := by
      refine List.eq_nil_iff_forall_not_mem.mpr ?_
      intro q hq
      have hq' := hmem q (by simp [hteam, hq])
      have hnodup := h.teamIter_nodup
      rw [hteam, List.nodup_cons] at hnodup
      exact hnodup.1 (hpe.trans hq'.symm ▸ hq)
    rw [hteam, hpes, List.length_singleton] at hlen
    exact ⟨hlen.symm, (isOk_iff h _).mpr (by simp [hteam, hpe])⟩

/-- A request that `process_msg` does not send anywhere has no other PEs. -/
theorem sendToPes_of_not_remote (h : arch.WellFormed cfg.numPes)
    (hnot : ¬ (cfg.localBackend = false ∧ (arch.numPes > 1 ∨ isOk arch cfg.me = false))) :
    sendToPes cfg arch = [] := by
  by_cases hlocal : cfg.localBackend = true
  · obtain ⟨hone, hok⟩ := isOk_of_single h (cfg.single hlocal)
    exact sendToPes_eq_nil h (by omega) hok
  · simp only [Bool.not_eq_true] at hlocal
    have hboth := not_or.mp fun hor => hnot ⟨hlocal, hor⟩
    exact sendToPes_eq_nil h hboth.1 (by simpa using hboth.2)

end Teams

/-- A message for a well-formed team. -/
structure Sound (cfg : Config) (m : Message A D R) : Prop where
  dst : m.req.dst = none
  worldPe : m.req.team.worldPe = cfg.me
  wf : m.req.team.arch.WellFormed cfg.numPes

theorem Request.msg_sound {r : Request A} (h : r.arch.WellFormed cfg.numPes) :
    Sound cfg (r.msg cfg : Message A D R) :=
  ⟨rfl, rfl, h⟩

/-- The distributed count is raised for each of the other PEs. -/
theorem Sound.darcSerCnt_eq {m : Message A D R} (h : Sound cfg m) :
    darcSerCnt m.req = (sendToPes cfg m.req.team.arch).length := by
  have hlen := h.wf.teamIter_length
  have hiff := isOk_iff h.wf cfg.me
  simp only [darcSerCnt, h.dst, h.worldPe]
  rw [isOk] at hiff
  by_cases hme : cfg.me ∈ m.req.team.arch.teamIter
  · have hperm := (sendToPes_of_mem h.wf hme).length_eq
    rw [hlen, List.length_cons] at hperm
    split
    · omega
    · rename_i heq
      simp [heq, hme] at hiff
  · rw [sendToPes_of_not_mem hme, hlen]
    split
    · rename_i heq
      simp [heq, hme] at hiff
    · rfl

theorem Request.everywhere_perm {r : Request A} (h : r.arch.WellFormed cfg.numPes) :
    (r.everywhere cfg : List (Message A D R × ℕ)).Perm
      (remoteExecs cfg (r.msg cfg) ++ r.localExec cfg) := by
  by_cases hme : cfg.me ∈ r.arch.teamIter
  · have hperm := (sendToPes_of_mem h hme).map fun pe => ((r.msg cfg : Message A D R), pe)
    rw [Request.localExec, if_pos ((isOk_iff h _).mpr hme)]
    exact hperm.trans (List.perm_append_singleton _ _).symm
  · have hnot : isOk r.arch cfg.me = false := by
      rw [← Bool.not_eq_true, isOk_iff h]
      exact hme
    have hremote : (remoteExecs cfg (r.msg cfg) : List (Message A D R × ℕ)) =
        r.everywhere cfg := by
      simp only [remoteExecs, Request.everywhere, Request.msg, Request.reqData,
        sendToPes_of_not_mem hme]
    rw [Request.localExec, hnot, hremote]
    simp

/-! ## The account of executions -/

structure Inv (cfg : Config) (I : Inner (Message A D R) B) (s : State A D R B) : Prop where
  batching : Batching.Inv I s.batching
  wf : ∀ r ∈ s.requests, r.1.arch.WellFormed cfg.numPes
  calls : ∀ c ∈ s.batching.calls, Sound cfg c.msg
  tasks : ∀ t ∈ s.batching.tasks, Sound cfg t.msg
  same : ∀ t ∈ s.batching.tasks, ∀ buf, t.pc = .send buf → ∀ route,
    I.route buf t.msg = some route → ∀ m ∈ I.messages buf, SamePes m route
  account : (s.execs ++ s.requests.flatMap (due cfg) ++
      s.batching.msgs.flatMap (remoteExecs cfg)).Perm
    (s.expected cfg ++ (s.batching.sentMessages I).flatMap (remoteExecs cfg))
  sers : ∀ e ∈ s.sers, e.2.1 = e.2.2
  waiting : ∀ r ∈ s.requests, ∀ i, r.2 = .waiting i → i < s.batching.calls.length

variable {s s' : State A D R B}

theorem Inv.new : Inv cfg I (State.new I) where
  batching := .new
  wf := by simp [State.new]
  calls := by simp [State.new, Batching.State.new]
  tasks := by simp [State.new, Batching.State.new]
  same := by simp [State.new, Batching.State.new]
  account := by
    simp [State.new, Batching.State.new, State.expected, Batching.State.sentMessages,
      Batching.State.msgs]
  sers := by simp [State.new]
  waiting := by simp [State.new]

/-- What the batcher holds comes from its calls. -/
theorem Inv.sound_of_added (h : Inv cfg I s) {m : Message A D R} (hm : m ∈ s.batching.added) :
    Sound cfg m := by
  obtain ⟨c, hc, hmc⟩ := List.mem_flatMap.mp hm
  have hmsg : m = c.msg := by
    unfold Call.added at hmc
    split at hmc <;> simp_all
  exact hmsg ▸ h.calls c hc

theorem Inv.sound_of_send (h : Inv cfg I s) {t : Task (Message A D R) B}
    (ht : t ∈ s.batching.tasks) {buf : B} (hpc : t.pc = .send buf) {m : Message A D R}
    (hm : m ∈ I.messages buf) : Sound cfg m := by
  refine h.sound_of_added (h.batching.conserved.mem_iff.mpr ?_)
  refine List.mem_append_left _ (List.mem_append_right _ (List.mem_flatMap.mpr ⟨t, ht, ?_⟩))
  simpa [Task.held, hpc] using hm

theorem Inv.request (h : Inv cfg I s) {r : Request A} (hr : r.arch.WellFormed cfg.numPes) :
    Inv cfg I { s with requests := s.requests ++ [(r, .start)] } where
  batching := h.batching
  wf r' hr' := by
    rcases List.mem_append.mp hr' with hr' | hr'
    · exact h.wf r' hr'
    · exact List.mem_singleton.mp hr' ▸ hr
  calls := h.calls
  tasks := h.tasks
  same := h.same
  account := by
    classical
    rw [List.perm_iff_count]
    intro x
    have hx := List.perm_iff_count.mp h.account x
    simp only [State.expected, List.flatMap_append, List.flatMap_cons, List.flatMap_nil,
      List.append_nil, List.count_append, due] at hx ⊢
    omega
  sers := h.sers
  waiting r' hr' i hi := by
    rcases List.mem_append.mp hr' with hr' | hr'
    · exact h.waiting r' hr' i hi
    · rw [List.mem_singleton.mp hr'] at hi
      cases hi

/-- A step of a request: what it is due less has been executed, or goes through a call. -/
theorem Inv.setPc (h : Inv cfg I s) {k : ℕ} {r : Request A} {pc : Pc}
    (hk : s.requests[k]? = some (r, pc)) (pc' : Pc) (calls : List (Call (Message A D R)))
    (execs : List (Message A D R × ℕ)) (sers : List (Message A D R × ℕ × ℕ))
    (hcalls : ∀ c ∈ calls, c.pc = .start ∧ Sound cfg c.msg)
    (hdue : (due cfg (r, pc)).Perm (due cfg (r, pc') ++ execs ++
      calls.flatMap fun c => remoteExecs cfg c.msg))
    (hsers : ∀ e ∈ sers, e.2.1 = e.2.2)
    (hwaiting : ∀ i, pc' = .waiting i → i < s.batching.calls.length + calls.length) :
    Inv cfg I { s with
      requests := s.requests.set k (r, pc')
      batching := { s.batching with calls := s.batching.calls ++ calls }
      execs := s.execs ++ execs
      sers := s.sers ++ sers } where
  batching := by
    have hadded : Batching.State.added { s.batching with calls := s.batching.calls ++ calls } =
        s.batching.added := by
      have hnil : calls.flatMap Call.added = [] := by
        refine List.flatMap_eq_nil_iff.mpr ?_
        intro c hc
        simp [Call.added, (hcalls c hc).1]
      rw [Batching.State.added, List.flatMap_append, hnil, List.append_nil]
      rfl
    refine ⟨h.batching.size_eq_zero, ?_, ?_, h.batching.send_ne_nil, h.batching.not_panicked⟩
    · rw [hadded]
      exact h.batching.conserved
    · intro hne
      rcases h.batching.covered hne with htask | ⟨c, hc, hpc⟩
      · exact Or.inl htask
      · exact Or.inr ⟨c, List.mem_append_left _ hc, hpc⟩
  wf r' hr' := by
    rcases List.mem_or_eq_of_mem_set hr' with hr' | rfl
    · exact h.wf r' hr'
    · exact h.wf (r, pc) (List.mem_of_getElem? hk)
  calls c hc := by
    rcases List.mem_append.mp hc with hc | hc
    · exact h.calls c hc
    · exact (hcalls c hc).2
  tasks := h.tasks
  same := h.same
  account := by
    classical
    rw [List.perm_iff_count]
    intro x
    have hx := List.perm_iff_count.mp h.account x
    have hset := Roster.count_flatMap_set (due cfg) x (r, pc') hk
    have hd := List.perm_iff_count.mp hdue x
    have hexp : (s.requests.set k (r, pc')).flatMap (fun r => r.1.everywhere cfg) =
        (s.requests.flatMap fun r => r.1.everywhere cfg : List (Message A D R × ℕ)) := by
      obtain ⟨hlt, hget⟩ := List.getElem?_eq_some_iff.mp hk
      rw [← List.flatMap_map (f := Prod.fst) (g := fun r => Request.everywhere cfg r),
        ← List.flatMap_map (f := Prod.fst) (g := fun r => Request.everywhere cfg r),
        List.map_set]
      have hself := List.set_getElem_self (show k < (s.requests.map Prod.fst).length by
        simpa using hlt)
      rw [List.getElem_map, hget] at hself
      rw [hself]
    simp only [State.expected, Batching.State.sentMessages, Batching.State.msgs, List.map_append,
      List.flatMap_append, List.flatMap_map, List.count_append, hexp] at hx hset hd ⊢
    omega
  sers e he := by
    rcases List.mem_append.mp he with he | he
    · exact h.sers e he
    · exact hsers e he
  waiting r' hr' i hi := by
    rw [List.length_append]
    rcases List.mem_or_eq_of_mem_set hr' with hr' | rfl
    · have hlt := h.waiting r' hr' i hi
      omega
    · exact hwaiting i hi

theorem Inv.reqStep (h : Inv cfg I s) {k : ℕ} {r : Request A} {pc : Pc}
    (hk : s.requests[k]? = some (r, pc)) (hstep : s.reqStep cfg k r pc = some s') :
    Inv cfg I s' := by
  have hwf := h.wf (r, pc) (List.mem_of_getElem? hk)
  have hperm : (r.everywhere cfg).Perm (remoteExecs cfg (r.msg cfg : Message A D R) ++
      r.localExec cfg) := Request.everywhere_perm hwf
  cases pc with
  | start =>
    simp only [State.reqStep] at hstep
    split at hstep
    · split at hstep
      · cases hstep
        have hinv := h.setPc hk (.waiting s.batching.calls.length)
          [⟨addRemoteAmToBatch (r.reqData cfg) r.am r.amId r.amSize r.stallMark, .start⟩] [] []
          (fun c hc => List.mem_singleton.mp hc ▸ ⟨rfl, Request.msg_sound hwf⟩)
          (by simpa [due, addRemoteAmToBatch, Request.msg] using hperm.trans List.perm_append_comm)
          (by simp) (by simp)
        simp only [List.append_nil] at hinv
        exact hinv
      · cases hstep
        have hinv := h.setPc hk .direct [] [] [] (by simp)
          (by simp [due]) (by simp) (by simp)
        simp only [List.append_nil] at hinv
        exact hinv
    · rename_i hnot
      cases hstep
      have hnil : remoteExecs cfg (r.msg cfg : Message A D R) = [] := by
        rw [remoteExecs, List.map_eq_nil_iff]
        exact sendToPes_of_not_remote hwf hnot
      have hinv := h.setPc hk .exec [] [] [] (by simp)
        (by simpa [due, hnil] using hperm) (by simp) (by simp)
      simp only [List.append_nil] at hinv
      exact hinv
  | direct =>
    simp only [State.reqStep, Option.some.injEq] at hstep
    subst hstep
    have hsound : Sound cfg (r.msg cfg : Message A D R) := Request.msg_sound hwf
    have hinv := h.setPc hk .exec [] (remoteExecs cfg (r.msg cfg))
      [(r.msg cfg, darcSerCnt (r.reqData cfg), (sendToPes cfg r.arch).length)] (by simp)
      (by simpa [due] using hperm.trans List.perm_append_comm)
      (fun e he => List.mem_singleton.mp he ▸ hsound.darcSerCnt_eq) (by simp)
    simp only [List.append_nil] at hinv
    simpa [State.transmit, State.setPc, remoteExecs, Request.msg, Request.reqData] using hinv
  | waiting i =>
    simp only [State.reqStep] at hstep
    split at hstep
    · split at hstep
      · cases hstep
        have hinv := h.setPc hk .exec [] [] [] (by simp)
          (by simp [due]) (by simp) (by simp)
        simp only [List.append_nil] at hinv
        exact hinv
      · cases hstep
    · cases hstep
  | exec =>
    simp only [State.reqStep] at hstep
    split at hstep
    · rename_i hok
      cases hstep
      have hinv := h.setPc hk .done [] [(r.msg cfg, cfg.me)] []
        (by simp) (by simp [due, Request.localExec, hok]) (by simp) (by simp)
      simp only [List.append_nil] at hinv
      exact hinv
    · rename_i hok
      cases hstep
      have hinv := h.setPc hk .done [] [] [] (by simp)
        (by simp [due, Request.localExec, hok]) (by simp) (by simp)
      simp only [List.append_nil] at hinv
      exact hinv
  | done => cases hstep

/-! ## Steps of the batcher -/

/-- Messages for the PEs of the route are executed where they belong. -/
theorem flatMap_remoteExecs {ms : List (Message A D R)} {route : Message A D R}
    (hroute : Sound cfg route) (hms : ∀ m ∈ ms, Sound cfg m ∧ SamePes m route) :
    (ms.flatMap fun m => (sendToPes cfg route.req.team.arch).map fun pe => (m, pe)).Perm
      (ms.flatMap (remoteExecs cfg)) := by
  refine List.Perm.flatMap_left _ ?_
  intro m hm
  obtain ⟨hsound, hsame⟩ := hms m hm
  exact (sendToPes_perm hroute.wf hsound.wf fun pe => (hsame pe).symm).map _

theorem Inv.batch (h : Inv cfg I s) {a : Batching.Action (Message A D R)}
    (ha : ∀ c, a ≠ .call c) {b : Batching.State (Message A D R) B}
    (hstep : s.batching.step I a = some b)
    (hswap : ∀ j, a = .taskStep j → Unmixed cfg I s (.taskStep j : Action A))
    (execs : List (Message A D R × ℕ)) (sers : List (Message A D R × ℕ × ℕ))
    (hexecs : (execs ++ (s.batching.sentMessages I).flatMap (remoteExecs cfg)).Perm
      ((b.sentMessages I).flatMap (remoteExecs cfg)))
    (hsers : ∀ e ∈ sers, e.2.1 = e.2.2) :
    Inv cfg I { s with batching := b, execs := s.execs ++ execs, sers := s.sers ++ sers } := by
  have hmsgs : b.msgs = s.batching.msgs := step_msgs ha hstep
  refine ⟨h.batching.step hstep, h.wf, ?_, ?_, ?_, ?_, ?_, ?_⟩
  · intro c hc
    have hc' : c.msg ∈ b.msgs := List.mem_map_of_mem hc
    rw [hmsgs] at hc'
    obtain ⟨c₀, hc₀, hmsg⟩ := List.mem_map.mp hc'
    exact hmsg ▸ h.calls c₀ hc₀
  · intro t ht
    rcases step_tasks hstep ht with ht | ⟨c, hc, hmsg, -⟩ | ⟨j, t₀, -, hj, hmsg, -⟩
    · exact h.tasks t ht
    · exact hmsg ▸ h.calls c hc
    · exact hmsg ▸ h.tasks t₀ (List.mem_of_getElem? hj)
  · intro t ht buf hpc route hroute
    rcases step_tasks hstep ht with ht | ⟨c, -, -, hnot⟩ | ⟨j, t₀, ha', hj, hmsg, hsend⟩
    · exact h.same t ht buf hpc route hroute
    · exact absurd hpc (hnot buf)
    · obtain ⟨hswapping, rfl⟩ := hsend buf hpc
      rw [hmsg] at hroute
      exact hswap j ha' t₀ hj hswapping route hroute
  · classical
    rw [List.perm_iff_count]
    intro x
    have hx := List.perm_iff_count.mp h.account x
    have he := List.perm_iff_count.mp hexecs x
    simp only [List.count_append, hmsgs, State.expected] at hx he ⊢
    omega
  · intro e he
    rcases List.mem_append.mp he with he | he
    · exact h.sers e he
    · exact hsers e he
  · intro r hr i hi
    have hlt := h.waiting r hr i hi
    have hlen := congrArg List.length hmsgs
    simp only [Batching.State.msgs, List.length_map] at hlen
    exact hlen ▸ hlt

theorem Inv.batchStep (h : Inv cfg I s) {a : Batching.Action (Message A D R)}
    (ha : ∀ c, a ≠ .call c)
    (hswap : ∀ j, a = .taskStep j → Unmixed cfg I s (.taskStep j : Action A))
    (hstep : s.batchStep cfg I a = some s') : Inv cfg I s' := by
  simp only [State.batchStep] at hstep
  split at hstep
  · rename_i b hb
    cases hstep
    rcases step_sent hb with hsent | ⟨j, t, buf, route, -, hj, hpc, hroute, hsent⟩
    · have hinv := h.batch ha hb hswap [] []
        (by simp [Batching.State.sentMessages, hsent]) (by simp)
      simp only [List.append_nil] at hinv
      simpa [hsent] using hinv
    · have ht := List.mem_of_getElem? hj
      have hms : ∀ m ∈ I.messages buf, Sound cfg m ∧ SamePes m route := fun m hm =>
        ⟨h.sound_of_send ht hpc hm, h.same t ht buf hpc route hroute m hm⟩
      have hsound : Sound cfg route := by
        rcases I.route_mem buf t.msg route hroute with hmem | rfl
        · exact (hms route hmem).1
        · exact h.tasks t ht
      have hinv := h.batch ha hb hswap
        ((I.messages buf).flatMap fun m =>
          (sendToPes cfg route.req.team.arch).map fun pe => (m, pe))
        ((I.messages buf).map fun m =>
          (m, darcSerCnt m.req, (sendToPes cfg route.req.team.arch).length))
        (by
          simp only [Batching.State.sentMessages, hsent, List.flatMap_append, List.flatMap_cons,
            List.flatMap_nil, List.append_nil]
          exact ((flatMap_remoteExecs hsound hms).append_right _).trans List.perm_append_comm)
        (by
          intro e he
          obtain ⟨m, hm, rfl⟩ := List.mem_map.mp he
          obtain ⟨hm', hsame⟩ := hms m hm
          exact hm'.darcSerCnt_eq.trans (sendToPes_perm hm'.wf hsound.wf hsame).length_eq)
      simpa [hsent, State.transmit] using hinv
  · cases hstep

theorem Inv.step (h : Inv cfg I s) {a : Action A} (hok : Unmixed cfg I s a)
    (hstep : s.step cfg I a = some s') : Inv cfg I s' := by
  cases a with
  | request r =>
    cases hstep
    exact h.request hok
  | mark => exact h.batchStep (a := .mark) (by simp) (by simp) hstep
  | reqStep k =>
    simp only [State.step] at hstep
    split at hstep
    · exact h.reqStep ‹_› hstep
    · cases hstep
  | callStep k => exact h.batchStep (a := .callStep k) (by simp) (by simp) hstep
  | taskStep j =>
    refine h.batchStep (a := .taskStep j) (by simp) ?_ hstep
    intro i hi
    cases hi
    exact hok

end Lamellar.Batching.Broadcast
