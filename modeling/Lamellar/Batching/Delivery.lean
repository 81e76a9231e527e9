import Lamellar.Batching.Copies

/-!
# Broadcasts reach exactly their own team

In runs that do not mix the PEs of different teams in a transfer, every request is executed
once on each PE of its team and nowhere else. Once no further request comes in, every run
ends. Two requests for different teams that share a batch go to the PEs of one of them.
-/

namespace Lamellar.Batching

variable {M B : Type} {I : Inner M B}

/-! ## Further calls that have not started -/

/-- The state with further calls. -/
def State.extend (s : State M B) (cs : List (Call M)) : State M B :=
  { s with calls := s.calls ++ cs }

theorem step_extend {s s' : State M B} {a : Action M} (ha : a.Internal)
    (hstep : s.step I a = some s') (cs : List (Call M)) :
    (s.extend cs).step I a = some (s'.extend cs) := by
  cases a with
  | call c => exact ha.elim
  | mark => exact ha.elim
  | callStep k =>
    simp only [State.step] at hstep
    split at hstep
    · rename_i c hk
      have hlt := (List.getElem?_eq_some_iff.mp hk).1
      have hset : ∀ pc, (s.calls ++ cs).set k { c with pc } = s.calls.set k { c with pc } ++ cs :=
        fun pc => List.set_append_left k _ hlt
      have hk' : (s.extend cs).calls[k]? = some c := Roster.append_old hk
      simp only [State.step, hk']
      simp only [State.callStep] at hstep ⊢
      split at hstep
      all_goals
        cases hstep
        try simp only [State.extend, State.setCall, hset]
    · cases hstep
  | taskStep j =>
    simp only [State.step] at hstep
    split at hstep
    · rename_i t hj
      have hj' : (s.extend cs).tasks[j]? = some t := hj
      simp only [State.step, hj']
      simp only [State.taskStep] at hstep ⊢
      split at hstep
      case h_7 =>
        split at hstep
        all_goals
          cases hstep
          rfl
      all_goals
        cases hstep
        try rfl
    · cases hstep

theorem work_perm (s : State M B) {cs cs' : List (Call M)} (h : cs.Perm cs') :
    State.work { s with calls := cs } = State.work { s with calls := cs' } := by
  simp only [State.work, h.countP_eq, (h.map Call.work).sum_eq]

/-- A call that was to come has come. -/
theorem work_extend_perm (s : State M B) {c : Call M} {cs cs' : List (Call M)}
    (h : ([c] ++ cs').Perm cs) :
    (State.extend { s with calls := s.calls ++ [c] } cs').work = (s.extend cs).work := by
  refine work_perm s ?_
  rw [List.append_assoc]
  exact h.append_left _

theorem work_cons_le (s : State M B) (c : Call M) (cs : List (Call M)) :
    State.work { s with calls := cs } ≤ State.work { s with calls := c :: cs } := by
  have hstarting : cs.countP Call.starting ≤ (c :: cs).countP Call.starting := by
    rw [List.countP_cons]
    omega
  have hopen : cs.countP Call.open ≤ (c :: cs).countP Call.open := by
    rw [List.countP_cons]
    omega
  have hmul := Nat.mul_le_mul hstarting (show 4 * (s.tasks.length + cs.countP Call.open) + 1 ≤
    4 * (s.tasks.length + (c :: cs).countP Call.open) + 1 by omega)
  simp only [State.work, List.map_cons, List.sum_cons]
  omega

theorem stopped_of_done {s : State M B} (hcalls : ∀ c ∈ s.calls, c.pc = .returned)
    (htasks : ∀ t ∈ s.tasks, t.pc = .done) : s.Stopped I := by
  intro a ha
  cases a with
  | call c => exact ha.elim
  | mark => exact ha.elim
  | callStep k =>
    simp only [State.step]
    split
    · rename_i c hk
      simp [State.callStep, hcalls c (List.mem_of_getElem? hk)]
    · rfl
  | taskStep j =>
    simp only [State.step]
    split
    · rename_i t hj
      simp [State.taskStep, htasks t (List.mem_of_getElem? hj)]
    · rfl

namespace Broadcast

open Team (LamellarArchRT)

variable {A D R B : Type} {cfg : Config} {I : Inner (Message A D R) B} {s s' : State A D R B}

/-! ## Every run ends -/

def Action.Internal : Action A → Prop
  | .request _ | .mark => False
  | .reqStep _ | .callStep _ | .taskStep _ => True

/-- The call that a request will make, if any. -/
def Request.call (cfg : Config) (r : Request A × Pc) : List (Call (Message A D R)) :=
  match r.2 with
  | .start =>
    [⟨addRemoteAmToBatch (r.1.reqData cfg) r.1.am r.1.amId r.1.amSize r.1.stallMark, .start⟩]
  | .direct | .waiting _ | .exec | .done => []

def Pc.work : Pc → ℕ
  | .start => 4
  | .direct => 3
  | .waiting _ => 2
  | .exec => 1
  | .done => 0

/-- The work of the batcher with the calls to come, and that of the requests. -/
def State.work (cfg : Config) (s : State A D R B) : ℕ :=
  (s.batching.extend (s.requests.flatMap (Request.call cfg))).work +
    (s.requests.map fun r => r.2.work).sum

theorem work_setPc {k : ℕ} {r : Request A} {pc : Pc}
    (hk : s.requests[k]? = some (r, pc)) (pc' : Pc) (hlt : pc'.work < pc.work) (hpc' : pc' ≠ .start)
    {execs : List (Message A D R × ℕ)} {sers : List (Message A D R × ℕ × ℕ)} :
    State.work cfg { s with requests := s.requests.set k (r, pc'), execs, sers } <
      s.work cfg := by
  classical
  have hsum := Roster.sum_map_set (fun r : Request A × Pc => r.2.work) (r, pc') hk
  have hnil : (Request.call cfg (r, pc') : List (Call (Message A D R))) = [] := by
    cases pc' with
    | start => exact absurd rfl hpc'
    | _ => rfl
  have hle : Batching.State.work (s.batching.extend
      ((s.requests.set k (r, pc')).flatMap (Request.call cfg))) ≤
      (s.batching.extend (s.requests.flatMap (Request.call cfg))).work := by
    have hperm : (s.batching.calls ++ s.requests.flatMap (Request.call cfg)).Perm
        (Request.call cfg (r, pc) ++
          (s.batching.calls ++ (s.requests.set k (r, pc')).flatMap (Request.call cfg))) := by
      rw [List.perm_iff_count]
      intro x
      have hset := Roster.count_flatMap_set (Request.call cfg) x (r, pc') hk
      rw [hnil] at hset
      simp only [List.count_append, List.count_nil] at hset ⊢
      omega
    have heq := work_perm s.batching hperm
    rw [State.extend, State.extend, heq]
    cases hcall : (Request.call cfg (r, pc) : List (Call (Message A D R))) with
    | nil => rfl
    | cons c cs =>
      have hcs : cs = [] := by
        cases pc with
        | start =>
          cases hcall
          rfl
        | _ => cases hcall
      rw [hcs]
      exact work_cons_le s.batching c _
  simp only [State.work]
  dsimp only at hsum
  omega

theorem work_reqStep {k : ℕ} {r : Request A} {pc : Pc} (hk : s.requests[k]? = some (r, pc))
    (hstep : s.reqStep cfg k r pc = some s') : s'.work cfg < s.work cfg := by
  classical
  cases pc with
  | start =>
    simp only [State.reqStep] at hstep
    split at hstep
    · split at hstep
      · cases hstep
        have hsum := Roster.sum_map_set (fun r : Request A × Pc => r.2.work)
          (r, .waiting s.batching.calls.length) hk
        have hperm : (Request.call cfg (r, .start) ++
            (s.requests.set k (r, .waiting s.batching.calls.length)).flatMap
              (Request.call cfg)).Perm
            (s.requests.flatMap (Request.call cfg) : List (Call (Message A D R))) := by
          rw [List.perm_iff_count]
          intro x
          have hset := Roster.count_flatMap_set (Request.call cfg) x
            (r, .waiting s.batching.calls.length) hk
          have hnil : (Request.call cfg (r, .waiting s.batching.calls.length) :
            List (Call (Message A D R))) = [] := rfl
          rw [hnil] at hset
          simp only [List.count_append, List.count_nil] at hset ⊢
          omega
        have hwork := work_extend_perm s.batching hperm
        have hstart : Pc.start.work = 4 := rfl
        have hwaiting : (Pc.waiting s.batching.calls.length).work = 2 := rfl
        simp only [State.work, State.setPc]
        rw [hwork]
        dsimp only at hsum
        omega
      · cases hstep
        exact work_setPc hk _ (by decide) (by simp)
    · cases hstep
      exact work_setPc hk _ (by decide) (by simp)
  | direct =>
    cases hstep
    exact work_setPc hk _ (by decide) (by simp)
  | waiting i =>
    simp only [State.reqStep] at hstep
    split at hstep
    · split at hstep
      · cases hstep
        exact work_setPc hk .exec (Nat.lt_succ_self 1) (by simp)
      · cases hstep
    · cases hstep
  | exec =>
    simp only [State.reqStep] at hstep
    split at hstep
    all_goals
      cases hstep
      exact work_setPc hk _ (by decide) (by simp)
  | done => cases hstep

theorem foldl_transmit (cfg : Config) (I : Inner (Message A D R) B)
    (sent : List (Sent (Message A D R) B)) (s : State A D R B) :
    (sent.foldl (fun s b => s.transmit cfg (I.messages b.buf) b.route.req.team.arch) s).requests =
        s.requests ∧
      (sent.foldl (fun s b => s.transmit cfg (I.messages b.buf) b.route.req.team.arch) s).batching =
        s.batching := by
  induction sent generalizing s with
  | nil => exact ⟨rfl, rfl⟩
  | cons b sent ih => exact ih _

theorem work_batchStep {a : Batching.Action (Message A D R)} (ha : a.Internal)
    (hstep : s.batchStep cfg I a = some s') : s'.work cfg < s.work cfg := by
  simp only [State.batchStep] at hstep
  split at hstep
  · rename_i b hb
    cases hstep
    obtain ⟨hrequests, hbatching⟩ := foldl_transmit cfg I
      (b.sent.drop s.batching.sent.length) { s with batching := b }
    have hlt := work_step ha (step_extend ha hb (s.requests.flatMap (Request.call cfg)))
    simp only [State.work, hrequests, hbatching]
    omega
  · cases hstep

theorem work_step_lt {a : Action A} (ha : a.Internal) (hstep : s.step cfg I a = some s') :
    s'.work cfg < s.work cfg := by
  cases a with
  | request r => exact ha.elim
  | mark => exact ha.elim
  | reqStep k =>
    simp only [State.step] at hstep
    split at hstep
    · exact work_reqStep ‹_› hstep
    · cases hstep
  | callStep k => exact work_batchStep (a := .callStep k) trivial hstep
  | taskStep j => exact work_batchStep (a := .taskStep j) trivial hstep

/-! ## The end of a run -/

def State.Stopped (cfg : Config) (I : Inner (Message A D R) B) (s : State A D R B) : Prop :=
  ∀ a : Action A, a.Internal → s.step cfg I a = none

theorem State.Stopped.settled (h : s.Stopped cfg I) (hinv : Inv cfg I s) : s.Settled I := by
  have hbatching : s.batching.Stopped I := by
    intro a ha
    cases a with
    | call c => exact ha.elim
    | mark => exact ha.elim
    | callStep k =>
      have hnone := h (.callStep k) trivial
      simp only [State.step, State.batchStep] at hnone
      split at hnone
      · cases hnone
      · assumption
    | taskStep j =>
      have hnone := h (.taskStep j) trivial
      simp only [State.step, State.batchStep] at hnone
      split at hnone
      · cases hnone
      · assumption
  refine ⟨?_, hbatching⟩
  rintro ⟨r, pc⟩ hr
  obtain ⟨k, hk⟩ := List.mem_iff_getElem?.mp hr
  have hnone := h (.reqStep k) trivial
  simp only [State.step, hk] at hnone
  cases pc with
  | start =>
    simp only [State.reqStep] at hnone
    split at hnone
    · split at hnone <;> cases hnone
    · cases hnone
  | direct => cases hnone
  | waiting i =>
    have hlt := hinv.waiting _ hr i rfl
    have hreturned := hbatching.call_returned (List.getElem_mem hlt)
    simp [State.reqStep, List.getElem?_eq_getElem hlt, hreturned] at hnone
  | exec =>
    simp only [State.reqStep] at hnone
    split at hnone <;> cases hnone
  | done => rfl

/-! ## Exactness -/

/-- Messages of calls that are not in the batch yet. -/
def Call.unadded {M : Type} (c : Call M) : List M :=
  match c.pc with
  | .start | .add => [c.msg]
  | .first | .loaded _ | .full | .returned => []

theorem msgs_perm {M B : Type} (s : Batching.State M B) :
    s.msgs.Perm (s.calls.flatMap Call.unadded ++ s.added) := by
  classical
  rw [List.perm_iff_count]
  intro x
  rw [Batching.State.msgs, Batching.State.added, List.count_append]
  induction s.calls with
  | nil => rfl
  | cons c cs ih =>
    simp only [List.map_cons, List.flatMap_cons, List.count_append, List.count_cons, ih]
    have hsplit : (Call.unadded c).count x + c.added.count x = if c.msg == x then 1 else 0 := by
      unfold Call.unadded Call.added
      cases c.pc <;> simp [List.count_singleton]
    omega

theorem Inv.exact (h : Inv cfg I s) : Exact cfg I s where
  within := by
    classical
    refine ⟨s.requests.flatMap (due cfg) ++ (s.batching.calls.flatMap Call.unadded ++
      (I.messages s.batching.batch ++ s.batching.held I)).flatMap (remoteExecs cfg), ?_⟩
    have hmsgs := (msgs_perm s.batching).trans (h.batching.conserved.append_left _)
    have hflat := List.perm_iff_count.mp (hmsgs.flatMap_right (remoteExecs cfg))
    rw [List.perm_iff_count]
    intro x
    have hx := List.perm_iff_count.mp h.account x
    have hf := hflat x
    simp only [List.count_append, List.flatMap_append] at hx hf ⊢
    omega
  settled hsettled := by
    classical
    have hsent := hsettled.2.sent h.batching
    have hflat := List.perm_iff_count.mp (hsent.flatMap_right (remoteExecs cfg))
    have hdue : s.requests.flatMap (due cfg) = ([] : List (Message A D R × ℕ)) := by
      refine List.flatMap_eq_nil_iff.mpr ?_
      intro r hr
      simp [due, hsettled.1 r hr]
    rw [List.perm_iff_count]
    intro x
    have hx := List.perm_iff_count.mp h.account x
    have hf := hflat x
    simp only [List.count_append, hdue, List.count_nil] at hx hf ⊢
    omega
  sers := h.sers

theorem inv_of_unmixedReach (hs : UnmixedReach cfg I s) : Inv cfg I s := by
  refine Transition.Reach.invariant (I := Inv cfg I) ?_ ?_ hs
  · rintro s rfl
    exact .new
  · intro s a s' h hok hstep
    exact h.step hok hstep

/-- The broadcasts of a state are exact, and once no further request comes in, every run
ends; if it does not mix teams, then with all broadcasts executed. -/
structure Broadcasts (cfg : Config) (I : Inner (Message A D R) B) (s : State A D R B) : Prop where
  exact : Exact cfg I s
  ends : ∀ as s', (∀ a ∈ as, a.Internal) → Transition.run (State.step cfg I) s as = some s' →
    as.length ≤ s.work cfg
  settles : s.Stopped cfg I → s.execs.Perm (s.expected cfg)

theorem broadcasts_of_unmixedReach (hs : UnmixedReach cfg I s) : Broadcasts cfg I s where
  exact := (inv_of_unmixedReach hs).exact
  ends as s' has hrun := by
    have hle := Transition.length_add_le_of_decreases (State.work cfg)
      (fun _ _ _ ha hstep => work_step_lt ha hstep) has hrun
    omega
  settles hstopped :=
    let h := inv_of_unmixedReach hs
    h.exact.settled (hstopped.settled h)

theorem broadcasts_exact {A D R : Type} (cfg : Config) :
    (∀ s, UnmixedReach cfg (simpleBatcher (A := A) (D := D) (R := R)) s →
      Broadcasts cfg simpleBatcher s) ∧
      ∀ s, UnmixedReach cfg (teamAmBatcher (A := A) (D := D) (R := R)) s →
        Broadcasts cfg teamAmBatcher s :=
  ⟨fun _ hs => broadcasts_of_unmixedReach hs, fun _ hs => broadcasts_of_unmixedReach hs⟩

/-- PE 0 of a world of three PEs. -/
def three : Config := ⟨3, 0, false, by decide, by decide⟩

def world : LamellarArchRT := .root (.globalArch 3)

/-- PE 0 and PE 1. -/
def pair : LamellarArchRT := .sub world (Team.BlockedArch.new 0 2)

theorem world_wf : world.WellFormed 3 := Team.LamellarArchEnum.globalArch_lawful (by decide)

theorem pair_wf : pair.WellFormed 3 :=
  ⟨world_wf, Team.LamellarArchEnum.blockedArch_lawful (by decide) (by decide)⟩

def request (arch : LamellarArchRT) (stallMark : UInt64) : Request Unit :=
  ⟨arch, ⟨1, 0⟩, 0, (), 0, 8, stallMark, false⟩

abbrev unitBatcher : Inner (Message Unit Unit Unit) (SimpleBatch Unit Unit Unit) := simpleBatcher

/-- A broadcast to the world alone in its batch. -/
theorem broadcasts_exact_world : ∃ s, UnmixedReach three unitBatcher s ∧
    s.execs.map Prod.snd = [1, 2, 0] ∧ Broadcasts three unitBatcher s := by
  have init : UnmixedReach three unitBatcher (State.new unitBatcher) := .init rfl
  have h₁ := Transition.Reach.step (a := .mark) init (by trivial) rfl
  have h₂ := Transition.Reach.step (a := .request (request world 1)) h₁ (by exact world_wf) rfl
  have h₃ := Transition.Reach.step (a := .reqStep 0) h₂ (by trivial) rfl
  have h₄ := Transition.Reach.step (a := .callStep 0) h₃ (by trivial) rfl
  have h₅ := Transition.Reach.step (a := .callStep 0) h₄ (by trivial) rfl
  have h₆ := Transition.Reach.step (a := .callStep 0) h₅ (by trivial) rfl
  have h₇ := Transition.Reach.step (a := .callStep 0) h₆ (by trivial) rfl
  have h₈ := Transition.Reach.step (a := .taskStep 0) h₇ (by rintro t ⟨⟩ ⟨⟩) rfl
  have h₉ := Transition.Reach.step (a := .taskStep 0) h₈ (by rintro t ⟨⟩ ⟨⟩) rfl
  have h₁₀ := Transition.Reach.step (a := .taskStep 0) h₉
    (by
      rintro t ⟨⟩ - route ⟨⟩ m hm
      cases List.mem_singleton.mp hm
      exact fun pe => Iff.rfl) rfl
  have h₁₁ := Transition.Reach.step (a := .taskStep 0) h₁₀ (by rintro t ⟨⟩ ⟨⟩) rfl
  have h₁₂ := Transition.Reach.step (a := .reqStep 0) h₁₁ (by trivial) rfl
  have h₁₃ := Transition.Reach.step (a := .reqStep 0) h₁₂ (by trivial) rfl
  exact ⟨_, h₁₃, rfl, (broadcasts_exact three).1 _ h₁₃⟩

/-! ## Two teams in a batch -/

def mixedActions : List (Action Unit) :=
  [.request (request pair 0), .request (request world 0), .reqStep 0, .reqStep 1, .callStep 0,
    .callStep 0, .callStep 1, .callStep 1, .callStep 0, .callStep 0, .taskStep 0, .taskStep 0,
    .taskStep 0, .taskStep 0, .taskStep 0, .taskStep 0, .taskStep 0, .taskStep 0, .reqStep 0,
    .reqStep 0, .reqStep 1, .reqStep 1]

/-- The broadcast to the world goes with that to the pair, and PE 2 does not get it; its Darcs
are counted for two copies. -/
theorem broadcast_lost : ∃ s,
    Transition.run (State.step three unitBatcher) (State.new unitBatcher) mixedActions = some s ∧
      (∀ r ∈ s.requests, r.1.arch.WellFormed 3) ∧ s.Settled unitBatcher ∧
      ((request world 0).msg three, 2) ∈ s.expected three ∧ 2 ∉ s.execs.map Prod.snd ∧
      (s.sers.map fun e => e.2) = [(1, 1), (2, 1)] := by
  refine ⟨_, rfl, ?_, ⟨?_, ?_⟩, ?_, ?_, rfl⟩
  · intro r hr
    rcases List.mem_cons.mp hr with rfl | hr
    · exact pair_wf
    · cases List.mem_singleton.mp hr
      exact world_wf
  · intro r hr
    rcases List.mem_cons.mp hr with rfl | hr
    · rfl
    · cases List.mem_singleton.mp hr
      rfl
  · refine stopped_of_done ?_ ?_
    · intro c hc
      rcases List.mem_cons.mp hc with rfl | hc
      · rfl
      · cases List.mem_singleton.mp hc
        rfl
    · intro t ht
      cases List.mem_singleton.mp ht
      rfl
  · exact List.mem_of_getElem? (i := 4) rfl
  · exact (by decide : 2 ∉ [1, 1, 0, 0])

end Broadcast

end Lamellar.Batching
