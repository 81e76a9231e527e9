import Lamellar.Darc.Snapshot

/-!
# What a round detects

When the last PE enters the barrier after the counters were put, the words that the PEs have
exchanged are a snapshot. If nobody sees a counter that has changed since, or a sum of
received handles that differs from what was sent, then at that moment no PE had a strong
handle and none was in flight (`quiet_of_not_bad`). `Phase` carries this through the votes: a
round is the last one only if everything was quiet, unless a task outside of `W` takes part.
-/

namespace Lamellar.Darc

open State

variable {P : ℕ}

/-- No PE has a strong handle, and none is being delivered or in flight. -/
def Quiet (s : State P) : Prop := (∀ p, Vacant s p) ∧ s.inFlight = 0

theorem Quiet.arriving {s : State P} (h : Quiet s) : s.arriving = 0 := by
  by_contra hne
  obtain ⟨m, hm⟩ := Multiset.exists_mem_of_ne_zero hne
  exact (h.1 m.dst).2.2 m hm rfl

theorem Quiet.opStep {s s' : State P} {a : Action P} (h : Quiet s)
    (hc : ∀ p g, a = .upgrade p g → s.valid p = true → False) (hs : OpStep s a s') :
    Quiet s' := by
  have hown : ∀ {r g}, g ∉ s.handles r := by
    intro r g
    rw [(h.1 r).1]
    exact Multiset.notMem_zero g
  refine ⟨fun p => ?_, ?_⟩
  · rcases opStep_vacant hs (h.1 p) with hnone | ⟨m, hm, _⟩ | ⟨g, hact, hvalid⟩
    · exact hnone
    · simp [h.2] at hm
    · exact (hc p g hact hvalid).elim
  · cases hs with
    | serialize p g dsts hg _ => exact absurd hg hown
    | deliver m hm _ => simp [h.2] at hm
    | credit m hm _ => simp [h.2] at hm
    | _ => exact h.2

theorem Quiet.taskStep {s s' : State P} {p : Fin P} {t : Task P} (h : Quiet s)
    (hs : TaskStep s p t s') (hhandles : s'.handles = s.handles) : Quiet s' := by
  refine ⟨fun r => (h.1 r).taskStep hs (congrFun hhandles r), ?_⟩
  rw [(taskStep_frame hs).2.2.2.1]
  exact h.2

/-- A task for which nothing is known of its local test. -/
def Exempt (W : DarcMode → Prop) (s : State P) : Prop :=
  ∃ r t, s.task r = some t ∧ ¬ W t.state

/-- The task has seen, or will see, that something is outstanding. -/
def Bad (s : State P) (r : Fin P) (t : Task P) : Prop :=
  match t.pc with
  | .await .counted | .checkLocal =>
    t.outstandingRefs = true ∨ t.oldLocalCnt ≠ s.totalLocalCnt r ∨
      t.oldDistCnt ≠ s.totalDistCnt r ∨ (∃ q, t.oldRefCnts q ≠ s.totalRefCnts r q) ∨
      ∑ q, s.modeRefCnts r q ≠ t.oldDistCnt
  | .checkDist =>
    t.outstandingRefs = true ∨ t.oldDistCnt ≠ s.totalDistCnt r ∨
      (∃ q, t.oldRefCnts q ≠ s.totalRefCnts r q) ∨ ∑ q, s.modeRefCnts r q ≠ t.oldDistCnt
  | .checkRefs todo sum =>
    t.outstandingRefs = true ∨ (∃ q ∈ todo, t.oldRefCnts q ≠ s.totalRefCnts r q) ∨
      sum + ∑ q ∈ todo, s.modeRefCnts r q ≠ t.oldDistCnt
  | .await .checked | .putIds _ => t.outstandingRefs = true
  | .await .voted => s.modeBarriers r r = 0
  | _ => False

def SomeBad (s : State P) : Prop := ∃ r t, s.task r = some t ∧ Bad s r t

/-- All PEs have entered the last barrier of `p`. -/
def Complete (s : State P) (p : Fin P) : Prop := ∀ r, s.entered p ≤ s.entered r

/-- What all PEs having entered the barrier says about the round. -/
def Phase (W : DarcMode → Prop) (s : State P) : BarrierPoint → Prop
  | .counted | .checked => Exempt W s ∨ Quiet s ∨ SomeBad s
  | .voted => Exempt W s ∨ Quiet s ∨ VotedAgain s.modeBarriers
  | _ => True

def Detect (W : DarcMode → Prop) (s : State P) : Prop :=
  ∀ p, Complete s p → Phase W s (s.lastBarrier p)

/-! ## The PEs of a round -/

/-- A PE that is ahead waits there. -/
theorem Aligned.waiting_of_ahead {s : State P} (h : Aligned s) {p x : Fin P}
    (hx : Complete s x) (hne : s.entered p ≠ s.entered x) : Waiting s p := by
  by_contra hno
  exact hne (Nat.le_antisymm (h.passed p hno x) (hx p))

/-- In a round, between its local test and its end, every PE has a task that has passed its
test. -/
theorem Aligned.pastTest {s : State P} (h : Aligned s) {x : Fin P} (hx : Complete s x)
    (hround : s.lastBarrier x = .counted ∨ s.lastBarrier x = .checked ∨
      s.lastBarrier x = .voted ∧ ¬ VotedAgain s.modeBarriers) (p : Fin P) :
    ∃ t, s.task p = some t ∧ t.pc.PastTest := by
  by_cases heq : s.entered p = s.entered x
  · have hlast := (h.same p x heq).1
    cases ht : s.task p with
    | none =>
      have hfinal := (h.idle p ht).1
      rw [hlast] at hfinal
      simp [hfinal] at hround
    | some t =>
      refine ⟨t, rfl, ?_⟩
      have hlocal := h.busy p t ht
      rw [hlast] at hlocal
      cases hpc : t.pc with
      | await b =>
        cases b with
        | initial =>
          simp only [LocalOk, hpc] at hlocal
          simp [hlocal.1] at hround
        | _ => simp [Pc.PastTest]
      | start =>
        simp only [LocalOk, hpc] at hlocal
        simp [hlocal.1] at hround
      | soloTest =>
        simp only [LocalOk, hpc] at hlocal
        simp [hlocal.1] at hround
      | localTest =>
        simp only [LocalOk, hpc] at hlocal
        rcases hlocal.1 with hb | ⟨hb, hagain⟩
        · simp [hb] at hround
        · simp [hb, hagain] at hround
      | _ => simp [Pc.PastTest]
  · obtain ⟨t, b, ht, hpc⟩ := h.waiting_of_ahead hx heq
    refine ⟨t, ht, ?_⟩
    cases b with
    | initial =>
      have hlocal := h.busy p t ht
      simp only [LocalOk, hpc] at hlocal
      have hnear := h.near p x
      have hnext := h.next x p (by have := hx p; omega)
      rw [hlocal.1] at hnext
      rcases hround with hb | hb | ⟨hb, _⟩
      all_goals simp [Follows, hb] at hnext
    | _ => simp [hpc, Pc.PastTest]

/-- While a round goes on, no call ends. -/
theorem Aligned.running {s s' : State P} (h : Aligned s) {p : Fin P} {t : Task P}
    (ht : s.task p = some t) (hs : TaskStep s p t s') (hlast : s.lastBarrier p ≠ .final) :
    ∃ t', s'.task = Function.update s.task p (some t') ∧ t'.state = t.state ∧
      s'.handles = s.handles ∧ s'.totalLocalCnt = s.totalLocalCnt := by
  rcases taskStep_task ht hs with hrun | ⟨_, _, _, hpc⟩
  · exact hrun
  · have hlocal := h.busy p t ht
    rcases hpc with hpc | hpc
    · simp only [LocalOk, hpc] at hlocal
      exact absurd hlocal.1 hlast
    · simp only [LocalOk, hpc] at hlocal
      exact absurd hlocal.1 hlast

/-! ## Steps of a round -/

/-- A counter that has changed stays changed. -/
theorem Bad.grown {s s' : State P} {r : Fin P} {t : Task P} (h : Bad s r t)
    (hb : t.Below s r) (hg : Grown s s')
    (hslots : ∀ q, s'.modeRefCnts r q = s.modeRefCnts r q)
    (hids : s'.modeBarriers r r = s.modeBarriers r r) : Bad s' r t := by
  have hlocal : t.oldLocalCnt ≠ s.totalLocalCnt r → t.oldLocalCnt ≠ s'.totalLocalCnt r := by
    have h1 := hb.locals
    have h2 := hg.locals r
    omega
  have hdist : t.oldDistCnt ≠ s.totalDistCnt r → t.oldDistCnt ≠ s'.totalDistCnt r := by
    have h1 := hb.dists
    have h2 := hg.dists r
    omega
  have href : ∀ q, t.oldRefCnts q ≠ s.totalRefCnts r q →
      t.oldRefCnts q ≠ s'.totalRefCnts r q := by
    intro q
    have h1 := hb.refs q
    have h2 := hg.refs r q
    omega
  cases hpc : t.pc with
  | await b =>
    cases b with
    | counted =>
      simp only [Bad, hpc, hslots] at h ⊢
      exact h.imp_right
        (Or.imp hlocal (Or.imp hdist (Or.imp_left fun ⟨q, hq⟩ => ⟨q, href q hq⟩)))
    | checked =>
      simp only [Bad, hpc] at h ⊢
      exact h
    | voted =>
      simp only [Bad, hpc, hids] at h ⊢
      exact h
    | _ => simp [Bad, hpc] at h
  | checkLocal =>
    simp only [Bad, hpc, hslots] at h ⊢
    exact h.imp_right
      (Or.imp hlocal (Or.imp hdist (Or.imp_left fun ⟨q, hq⟩ => ⟨q, href q hq⟩)))
  | checkDist =>
    simp only [Bad, hpc, hslots] at h ⊢
    exact h.imp_right (Or.imp hdist (Or.imp_left fun ⟨q, hq⟩ => ⟨q, href q hq⟩))
  | checkRefs todo sum =>
    simp only [Bad, hpc, hslots] at h ⊢
    exact h.imp_right (Or.imp_left fun ⟨q, hq, hne⟩ => ⟨q, hq, href q hne⟩)
  | putIds todo =>
    simp only [Bad, hpc] at h ⊢
    exact h
  | _ => simp [Bad, hpc] at h

/-- Only votes change the barrier ids. -/
theorem taskStep_ids {s s' : State P} {p : Fin P} {t : Task P} (hs : TaskStep s p t s') :
    s'.modeBarriers = s.modeBarriers ∨ ∃ q todo, t.pc = .putIds todo ∧
      s'.modeBarriers = update₂ s.modeBarriers q p t.barrierId := by
  cases hs
  case putId q todo hpc _ => exact Or.inr ⟨q, todo, hpc, rfl⟩
  all_goals exact Or.inl rfl

/-- A task that has seen a change, or will, votes for another round. -/
theorem Bad.taskStep {s s' : State P} {p : Fin P} {t t' : Task P} (h : Bad s p t)
    (hlocal : LocalOk s.modeBarriers (s.lastBarrier p) p t)
    (hlast : s.lastBarrier p = .counted ∨ s.lastBarrier p = .checked)
    (hs : TaskStep s p t s') (ht' : s'.task p = some t') : Bad s' p t' := by
  cases hs
  case returnFinal hpc _ _ => simp [Bad, hpc] at h
  case soloReturn hpc _ => simp [Bad, hpc] at h
  case spin hpc =>
    rcases hpc with ⟨todo, hpc⟩ | ⟨todo, hpc⟩ | hpc
    all_goals simp [Bad, hpc] at h
  all_goals
    simp only [State.setTask, State.enter, State.called, State.putRef, State.putId,
      State.putMode, State.sendFinished, Function.update_self, Option.some_inj] at ht'
    subst ht'
  case passCounted hpc _ =>
    simp only [Bad, hpc] at h
    exact h
  case checkLocal hpc =>
    simp only [Bad, hpc] at h
    simp only [Bad, Task.flag, Bool.or_eq_true, decide_eq_true_eq]
    exact or_assoc.mpr h
  case checkDist hpc =>
    simp only [Bad, hpc] at h
    simp only [Bad, Task.flag, Bool.or_eq_true, decide_eq_true_eq]
    rcases h with h | h | ⟨q, hq⟩ | h
    · exact Or.inl (Or.inl h)
    · exact Or.inl (Or.inr h)
    · exact Or.inr (Or.inl ⟨q, Finset.mem_univ q, hq⟩)
    · rw [← Nat.zero_add (∑ q, _)] at h
      exact Or.inr (Or.inr h)
  case checkRef q todo sum hpc hq =>
    simp only [Bad, hpc] at h
    simp only [Bad, Task.flag, Bool.or_eq_true, decide_eq_true_eq]
    rcases h with h | ⟨r, hr, hne⟩ | h
    · exact Or.inl (Or.inl h)
    · by_cases hrq : r = q
      · subst hrq
        exact Or.inl (Or.inr hne)
      · exact Or.inr (Or.inl ⟨r, Finset.mem_erase.mpr ⟨hrq, hr⟩, hne⟩)
    · rw [← Finset.add_sum_erase _ _ hq, ← Nat.add_assoc] at h
      exact Or.inr (Or.inr h)
  case enterChecked sum hpc =>
    simp only [Bad, hpc] at h
    have hflag : (t.flag (sum ≠ t.oldDistCnt)).outstandingRefs = true := by
      simpa [Task.flag] using h
    simp only [Bad, Task.resetId, if_pos hflag]
    exact hflag
  case passChecked hpc _ =>
    simp only [Bad, hpc] at h
    exact h
  case putId q todo hpc _ =>
    simp only [Bad, hpc] at h
    exact h
  case enterVoted hpc =>
    simp only [Bad, hpc] at h
    simp only [LocalOk, hpc] at hlocal
    obtain ⟨_, ⟨_, hready⟩, hput⟩ := hlocal
    exact (hput p (by simp)).trans (hready.mpr h)
  case passVoted hpc _ =>
    simp only [LocalOk, hpc] at hlocal
    simp [hlocal.1] at hlast
  all_goals
    rename_i hpc
    simp [Bad, *] at h

section Phases

variable {W : DarcMode → Prop} {s s' : State P} {p : Fin P} {t : Task P}

theorem Exempt.update {t' : Task P} (h : Exempt W s) (ht : s.task p = some t)
    (htask : s'.task = Function.update s.task p (some t')) (hstate : t'.state = t.state) :
    Exempt W s' := by
  obtain ⟨r, u, hr, hu⟩ := h
  by_cases hrp : r = p
  · subst hrp
    rw [ht, Option.some_inj] at hr
    subst hr
    exact ⟨r, t', by rw [htask, Function.update_self], hstate ▸ hu⟩
  · exact ⟨r, u, by rw [htask, Function.update_of_ne hrp, hr], hu⟩

theorem SomeBad.taskStep (h : SomeBad s) (ha : Aligned s) (hb : Bounded s)
    (ht : s.task p = some t) (hs : TaskStep s p t s')
    (hlast : s.lastBarrier p = .counted ∨ s.lastBarrier p = .checked) : SomeBad s' := by
  have hlocal := ha.busy p t ht
  have hne : s.lastBarrier p ≠ .final := by
    rcases hlast with hlast | hlast
    all_goals simp [hlast]
  obtain ⟨t', htask, _⟩ := ha.running ht hs hne
  obtain ⟨r, u, hr, hbad⟩ := h
  by_cases hrp : r = p
  · subst hrp
    rw [ht, Option.some_inj] at hr
    subst hr
    have ht' : s'.task r = some t' := by rw [htask, Function.update_self]
    exact ⟨r, t', ht', hbad.taskStep hlocal hlast hs ht'⟩
  · refine ⟨r, u, by rw [htask, Function.update_of_ne hrp, hr], ?_⟩
    refine hbad.grown (hb.tasks r u hr) (taskStep_grown hs) (fun q => ?_) ?_
    · refine (taskStep_slots hs r q).resolve_right ?_
      rintro ⟨_, _, todo, hpc⟩
      simp only [LocalOk, hpc] at hlocal
      rcases hlast with hlast | hlast
      all_goals simp [hlast] at hlocal
    · rcases taskStep_ids hs with hids | ⟨q, todo, _, hids⟩
      · rw [hids]
      · rw [hids, update₂_of_ne _ _ (Or.inr hrp)]

/-- What is known about a round stays known while the tasks go on. -/
theorem Phase.taskStep (h : Phase W s (s.lastBarrier p)) (ha : Aligned s) (hb : Bounded s)
    (ht : s.task p = some t) (hs : TaskStep s p t s') : Phase W s' (s.lastBarrier p) := by
  have hstay : s.lastBarrier p ≠ .final →
      (Exempt W s → Exempt W s') ∧ (Quiet s → Quiet s') := by
    intro hne
    obtain ⟨t', htask, hstate, hhandles, _⟩ := ha.running ht hs hne
    exact ⟨fun he => he.update ht htask hstate, fun hq => hq.taskStep hs hhandles⟩
  cases hlast : s.lastBarrier p with
  | initial => trivial
  | final => trivial
  | counted =>
    rw [hlast] at h
    obtain ⟨hexempt, hquiet⟩ := hstay (by simp [hlast])
    exact h.imp hexempt (Or.imp hquiet fun hbad => hbad.taskStep ha hb ht hs (Or.inl hlast))
  | checked =>
    rw [hlast] at h
    obtain ⟨hexempt, hquiet⟩ := hstay (by simp [hlast])
    exact h.imp hexempt (Or.imp hquiet fun hbad => hbad.taskStep ha hb ht hs (Or.inr hlast))
  | voted =>
    rw [hlast] at h
    obtain ⟨hexempt, hquiet⟩ := hstay (by simp [hlast])
    refine h.imp hexempt (Or.imp hquiet fun hagain => ?_)
    rcases taskStep_ids hs with hids | ⟨q, todo, hpc, _⟩
    · rw [hids]
      exact hagain
    · have hlocal := ha.busy p t ht
      simp only [LocalOk, hpc, hlast] at hlocal
      simp at hlocal

/-- What is known about a round stays known while handles are used. -/
theorem Phase.opStep {a : Action P} {x : Fin P} (h : Phase W s (s.lastBarrier x))
    (ha : Aligned s) (hb : Bounded s) (hx : Complete s x) (hc : Careful W s a)
    (hs : OpStep s a s') : Phase W s' (s.lastBarrier x) := by
  obtain ⟨hslots, hids, _⟩ := opStep_frame hs
  have hexempt : Exempt W s → Exempt W s' :=
    fun ⟨r, u, hr, hu⟩ => ⟨r, u, opStep_task_kept hs hr, hu⟩
  have hbad : SomeBad s → SomeBad s' := by
    rintro ⟨r, u, hr, hu⟩
    refine ⟨r, u, opStep_task_kept hs hr, hu.grown (hb.tasks r u hr) (opStep_grown hs) ?_ ?_⟩
    · exact fun q => by rw [hslots]
    · rw [hids]
  have hquiet : (∀ p, ∃ u, s.task p = some u ∧ u.pc.PastTest) → Quiet s →
      Exempt W s ∨ Quiet s' := by
    intro hpast hq
    by_cases he : Exempt W s
    · exact Or.inl he
    · refine Or.inr (hq.opStep (fun p g hact hvalid => ?_) hs)
      obtain ⟨u, hu, hupast⟩ := hpast p
      have hW : W u.state := by
        by_contra hW
        exact he ⟨p, u, hu, hW⟩
      subst hact
      exact hc u hu hW hupast hvalid (hq.1 p).1
  have hround : (∀ p, ∃ u, s.task p = some u ∧ u.pc.PastTest) →
      Exempt W s ∨ Quiet s ∨ SomeBad s → Exempt W s' ∨ Quiet s' ∨ SomeBad s' := by
    rintro hpast (he | hq | hbad')
    · exact Or.inl (hexempt he)
    · exact (hquiet hpast hq).imp hexempt Or.inl
    · exact Or.inr (Or.inr (hbad hbad'))
  cases hlast : s.lastBarrier x with
  | initial => trivial
  | final => trivial
  | counted =>
    rw [hlast] at h
    exact hround (ha.pastTest hx (Or.inl hlast)) h
  | checked =>
    rw [hlast] at h
    exact hround (ha.pastTest hx (Or.inr (Or.inl hlast))) h
  | voted =>
    rw [hlast] at h
    simp only [Phase, hids]
    by_cases hagain : VotedAgain s.modeBarriers
    · exact Or.inr (Or.inr hagain)
    · rcases h with he | hq | hv
      · exact Or.inl (hexempt he)
      · exact (hquiet (ha.pastTest hx (Or.inr (Or.inr ⟨hlast, hagain⟩))) hq).imp hexempt Or.inl
      · exact absurd hv hagain

/-! ## The snapshot -/

/-- All PEs have put what they have read, and no counter has changed since: everything that
was sent has arrived, and no PE has a strong handle. -/
theorem quiet_of_not_bad (hsent : TotalConserved s) (hsnap : Snapped W s)
    (hall : ∀ r, ∃ u, s.task r = some u ∧ u.pc = .await .counted) :
    Exempt W s ∨ Quiet s ∨ SomeBad s := by
  by_cases he : Exempt W s
  · exact Or.inl he
  by_cases hbad : SomeBad s
  · exact Or.inr (Or.inr hbad)
  choose u hu hpc using hall
  have hW : ∀ r, W (u r).state := by
    intro r
    by_contra hW
    exact he ⟨r, u r, hu r, hW⟩
  have hseen : ∀ r, (u r).outstandingRefs = false ∧ (u r).oldDistCnt = s.totalDistCnt r ∧
      (∀ q, (u r).oldRefCnts q = s.totalRefCnts r q) ∧
      ∑ q, s.modeRefCnts r q = (u r).oldDistCnt := by
    intro r
    have hr : ¬ Bad s r (u r) := fun h => hbad ⟨r, u r, hu r, h⟩
    simp only [Bad, hpc, not_or, not_not, not_exists, Bool.not_eq_true] at hr
    exact ⟨hr.1, hr.2.2.1, hr.2.2.2.1, hr.2.2.2.2⟩
  have hknown : ∀ r, Tested W s r (u r) ∧ SlotsOld s r (u r) ∧
      ((u r).outstandingRefs = false → (u r).prevRefCnts = (u r).oldRefCnts) := by
    intro r
    have hr := hsnap r (u r) (hu r)
    simp only [SnapOk, hpc] at hr
    exact hr
  have hvacant : ∀ r, Vacant s r := by
    intro r
    obtain ⟨hflag, _, hrefs, _⟩ := hseen r
    obtain ⟨htested, _, hprev⟩ := hknown r
    refine (htested (hW r)).resolve_right ?_
    rintro ⟨q, hq⟩
    rw [hprev hflag, hrefs q] at hq
    exact hq rfl
  refine Or.inr (Or.inl ⟨hvacant, ?_⟩)
  -- what is in flight was not opened, and nothing unopened is missing in the sums
  have hzero : ∀ r, unopenedFrom s r = 0 := by
    intro r
    have hcount : s.totalDistCnt r = ∑ q, s.totalRefCnts q r := by
      rw [← (hseen r).2.1, ← (hseen r).2.2.2]
      refine Finset.sum_congr rfl (fun q _ => ?_)
      rw [(hknown q).2.1 r, (hseen q).2.2.1 r]
    have := hsent r
    omega
  by_contra hne
  obtain ⟨m, hm⟩ := Multiset.exists_mem_of_ne_zero hne
  have hpos := hzero m.src
  simp only [unopenedFrom, Multiset.countP_eq_zero] at hpos
  exact hpos m hm ⟨rfl, (hvacant m.dst).2.1 m hm rfl⟩

/-! ## Barriers of a round -/

theorem LocalOk.lastBarrier_eq {ids : Fin P → Fin P → ℕ} {b b' : BarrierPoint}
    (h : LocalOk ids b p t) (hpc : t.pc = .await b') : b = b' := by
  cases b' with
  | _ =>
    simp only [LocalOk, hpc] at h
    exact h.1

/-- A task steps only when all PEs have entered the last barrier of its PE. -/
theorem Aligned.complete (h : Aligned s) (ht : s.task p = some t) (hs : TaskStep s p t s') :
    Complete s p := by
  by_cases hw : ∃ b, t.pc = .await b
  · obtain ⟨b, hb⟩ := hw
    cases hs
    case passInitial hall => exact hall
    case passCounted hall => exact hall
    case passChecked hall => exact hall
    case passVoted hall => exact hall
    case passFinal hall _ => exact hall
    case returnFinal hall _ => exact hall
    all_goals simp_all
  · exact h.passed p (not_waiting ht (fun b hb => hw ⟨b, hb⟩))

theorem Aligned.taskStep_entered (h : Aligned s) (ht : s.task p = some t)
    (hs : TaskStep s p t s') :
    s'.entered = s.entered ∧ s'.lastBarrier = s.lastBarrier ∨
      ∃ b t', s'.entered = Function.update s.entered p (s.entered p + 1) ∧
        s'.lastBarrier = Function.update s.lastBarrier p b ∧
        s'.task = Function.update s.task p (some t') ∧ t'.pc = .await b ∧
        (b = .checked → s.lastBarrier p = .counted) ∧
        (b = .voted → s.lastBarrier p = .checked) := by
  have hlocal := h.busy p t ht
  cases hs
  case enterInitial => exact Or.inr ⟨_, _, rfl, rfl, rfl, rfl, by simp, by simp⟩
  case enterCounted => exact Or.inr ⟨_, _, rfl, rfl, rfl, rfl, by simp, by simp⟩
  case enterFinal => exact Or.inr ⟨_, _, rfl, rfl, rfl, rfl, by simp, by simp⟩
  case enterChecked hpc =>
    simp only [LocalOk, hpc] at hlocal
    exact Or.inr ⟨_, _, rfl, rfl, rfl, rfl, fun _ => hlocal.1, by simp⟩
  case enterVoted hpc =>
    simp only [LocalOk, hpc] at hlocal
    exact Or.inr ⟨_, _, rfl, rfl, rfl, rfl, by simp, fun _ => hlocal.1⟩
  all_goals exact Or.inl ⟨rfl, rfl⟩

/-- When the last PE enters a barrier, all wait there. -/
theorem Aligned.all_waiting (h : Aligned s) (ht : s.task p = some t) (hs : TaskStep s p t s')
    {t' : Task P} {b : BarrierPoint}
    (hentered : s'.entered = Function.update s.entered p (s.entered p + 1))
    (htask : s'.task = Function.update s.task p (some t')) (hpc : t'.pc = .await b)
    (hall : ∀ r, s.entered p + 1 ≤ s'.entered r) (r : Fin P) :
    ∃ u, s'.task r = some u ∧ u.pc = .await b := by
  have ha' := h.taskStep ht hs
  by_cases hrp : r = p
  · subst hrp
    exact ⟨t', by rw [htask, Function.update_self], hpc⟩
  · have hr := hall r
    rw [hentered, Function.update_of_ne hrp] at hr
    obtain ⟨u, b', hu, hb'⟩ := h.waiting_of_ahead (h.complete ht hs)
      (show s.entered r ≠ s.entered p by omega)
    have hu' : s'.task r = some u := by rw [htask, Function.update_of_ne hrp, hu]
    have hnear := h.near r p
    have hsame := (ha'.same r p (by
      rw [hentered, Function.update_self, Function.update_of_ne hrp]
      omega)).1
    have hp := (ha'.busy p t' (by rw [htask, Function.update_self])).lastBarrier_eq hpc
    have hr := (ha'.busy r u hu').lastBarrier_eq hb'
    exact ⟨u, hu', by rw [hb', ← hr, hsame, hp]⟩

/-- A PE whose last barrier all have entered has not been left behind by `p`, or `p` was the
last one to enter. -/
theorem Aligned.behind_or_last (h : Aligned s) (ht : s.task p = some t)
    (hs : TaskStep s p t s')
    (hentered : s'.entered = Function.update s.entered p (s.entered p + 1)) {x : Fin P}
    (hx : Complete s' x) :
    x ≠ p ∧ s.entered x = s.entered p ∨ ∀ r, s.entered p + 1 ≤ s'.entered r := by
  by_cases hbehind : x ≠ p ∧ s.entered x = s.entered p
  · exact Or.inl hbehind
  · refine Or.inr (fun r => le_trans ?_ (hx r))
    rw [hentered]
    by_cases hxp : x = p
    · rw [hxp, Function.update_self]
    · rw [Function.update_of_ne hxp]
      have h1 := h.complete ht hs x
      have h2 : s.entered x ≠ s.entered p := fun heq => hbehind ⟨hxp, heq⟩
      omega

theorem Detect.taskStep (h : Detect W s) (ha : Aligned s) (hb : Bounded s)
    (hsent : TotalConserved s') (hsnap : Snapped W s') (ht : s.task p = some t)
    (hs : TaskStep s p t s') : Detect W s' := by
  have hcomplete := ha.complete ht hs
  have hphase := (h p hcomplete).taskStep ha hb ht hs
  intro x hx
  rcases ha.taskStep_entered ht hs with ⟨hentered, hlast⟩ |
    ⟨b, t', hentered, hlast, htask, hpc, hchecked, hvoted⟩
  · rw [Complete, hentered] at hx
    rw [hlast, ha.lastBarrier_eq hx hcomplete]
    exact hphase
  · rcases ha.behind_or_last ht hs hentered hx with hbehind | hall
    · rw [hlast, Function.update_of_ne hbehind.1, (ha.same x p hbehind.2).1]
      exact hphase
    · have hwait := ha.all_waiting ht hs hentered htask hpc hall
      have hxb : s'.lastBarrier x = b := by
        obtain ⟨u, hu, hpcu⟩ := hwait x
        exact ((ha.taskStep ht hs).busy x u hu).lastBarrier_eq hpcu
      rw [hxb]
      cases b with
      | initial => trivial
      | final => trivial
      | counted => exact quiet_of_not_bad hsent hsnap hwait
      | checked =>
        rw [hchecked rfl] at hphase
        exact hphase
      | voted =>
        rw [hvoted rfl] at hphase
        refine hphase.imp_right (Or.imp_right ?_)
        rintro ⟨r, u, hu, hbad⟩
        obtain ⟨u', hu', hpcu⟩ := hwait r
        rw [hu, Option.some_inj] at hu'
        subst hu'
        simp only [Bad, hpcu] at hbad
        exact ⟨r, hbad⟩

theorem Detect.opStep {a : Action P} (h : Detect W s) (ha : Aligned s)
    (hb : Bounded s) (hc : Careful W s a) (hs : OpStep s a s') : Detect W s' := by
  obtain ⟨_, _, hentered, hlast, _⟩ := opStep_frame hs
  intro x hx
  rw [Complete, hentered] at hx
  rw [hlast]
  exact (h x hx).opStep ha hb hx hc hs

end Phases

/-! ## The invariant -/

structure Sound (W : DarcMode → Prop) (s : State P) : Prop where
  owned : Owned s
  aligned : Aligned s
  conserved : TotalConserved s
  bounded : Bounded s
  snapped : Snapped W s
  detect : Detect W s

theorem Sound.step {W : DarcMode → Prop} {s s' : State P} {a : Action P} (h : Sound W s)
    (ha : StartsAlone s a) (hc : Careful W s a) (hs : s.step a = some s') : Sound W s' := by
  have hconserved := h.conserved.step h.owned ha hs
  have hsnapped := h.snapped.step h.owned h.bounded ha hc hs
  refine ⟨h.owned.step ha hs, h.aligned.step h.owned ha hs, hconserved,
    h.bounded.step h.owned ha hs, hsnapped, ?_⟩
  rcases h.owned.single.cases ha hs with hop | ⟨p, q, t, _, ht, htask⟩
  · exact h.detect.opStep h.aligned h.bounded hc hop
  · exact h.detect.taskStep h.aligned h.bounded hconserved hsnapped ht htask

/-- A new `Darc` whose `total_ref_cnt` words happen to be zero. -/
theorem Sound.init {W : DarcMode → Prop} {s : State P} (hs : Initial s)
    (hzero : ∀ p q, s.totalRefCnts p q = 0) : Sound W s := by
  have howned := Owned.init hs
  have haligned := Aligned.init hs
  obtain ⟨mode, garbage, _, rfl⟩ := hs
  refine ⟨howned, haligned, fun p => ?_, ⟨fun p t ht => ?_, fun p q => Nat.zero_le _⟩,
    fun p t ht => ?_, fun p _ => trivial⟩
  · rw [Finset.sum_eq_zero (fun q _ => hzero q p)]
    rfl
  · cases ht
  · cases ht

end Lamellar.Darc
