import Lamellar.Darc.Lifetime

/-!
# Exclusive conversion

When a collective conversion returns on a PE, every strong handle, on any PE or in flight,
stems from that conversion: its generation is the number of the call. Handles of earlier
generations are gone. This holds in all runs without `WeakDarc::upgrade` of a `Darc` whose
`total_ref_cnt` words were zero when it was made, if no delivery is half-way where a
conversion tests `local_cnt`, and no `block_on_outstanding` begins on a PE where another one
runs.
-/

namespace Lamellar.Darc

open State

variable {P : ℕ} {s s' : State P} {p : Fin P} {t : Task P}

/-- A strong handle of generation `g` exists. -/
def HasGen (s : State P) (g : ℕ) : Prop :=
  (∃ r, g ∈ s.handles r) ∨ (∃ m ∈ s.inFlight, m.gen = g) ∨ ∃ m ∈ s.arriving, m.gen = g

def NoUpgrade (_ : State P) : Action P → Prop
  | .upgrade _ _ => False
  | _ => True

instance (s : State P) (a : Action P) : Decidable (NoUpgrade s a) :=
  match a with
  | .upgrade _ _ => isFalse id
  | .clone _ _ | .drop _ _ | .runDrop _ _ | .serialize _ _ _ | .deliver _ | .credit _ | .hold _
  | .settle _ | .execFinished _ | .downgrade _ _ | .weakClone _ _ | .weakDrop _ _
  | .convert _ _ _ | .switch _ _ | .run _ _ => isTrue trivial

/-- Where a conversion passes its local test, no delivery to its PE is half-way. -/
def TestsDelivered (s : State P) : Action P → Prop
  | .run p _ => ∀ t ∈ s.task p, t.state ≠ .dropped → t.pc = .localTest → Delivered s p
  | _ => True

instance (s : State P) (a : Action P) : Decidable (TestsDelivered s a) :=
  match a with
  | .run _ _ => inferInstanceAs (Decidable (∀ t ∈ _, _))
  | .clone _ _ | .drop _ _ | .runDrop _ _ | .serialize _ _ _ | .deliver _ | .credit _ | .hold _
  | .settle _ | .execFinished _ | .downgrade _ _ | .weakClone _ _ | .weakDrop _ _ | .upgrade _ _
  | .convert _ _ _ | .switch _ _ => isTrue trivial

def Orderly (s : State P) (a : Action P) : Prop :=
  NoUpgrade s a ∧ StartsAlone s a ∧ TestsDelivered s a

instance (s : State P) (a : Action P) : Decidable (Orderly s a) :=
  inferInstanceAs (Decidable (_ ∧ _))

theorem Quiet.not_hasGen (h : Quiet s) (g : ℕ) : ¬ HasGen s g := by
  rintro (⟨r, hr⟩ | ⟨m, hm, _⟩ | ⟨m, hm, _⟩)
  · simp [(h.1 r).1] at hr
  · simp [h.2] at hm
  · simp [h.arriving] at hm

theorem mem_update_handles {f : Fin P → Multiset ℕ} {h : Multiset ℕ} {g : ℕ} {r : Fin P}
    (hg : g ∈ Function.update f p h r) : g ∈ h ∨ g ∈ f r := by
  by_cases hrp : r = p
  · subst hrp
    rw [Function.update_self] at hg
    exact Or.inl hg
  · rw [Function.update_of_ne hrp] at hg
    exact Or.inr hg

/-- The operations make handles of the generations that exist. -/
theorem opStep_hasGen {a : Action P} (hno : NoUpgrade s a) (hs : OpStep s a s') {g : ℕ}
    (hg : HasGen s' g) : HasGen s g := by
  have hcons : ∀ {r q g'}, HasGen s g' → g ∈ Function.update s.handles q (g' ::ₘ s.handles q) r →
      HasGen s g := by
    intro r q g' hg' hmem
    rcases mem_update_handles hmem with hmem | hmem
    · rcases Multiset.mem_cons.mp hmem with rfl | hmem
      · exact hg'
      · exact Or.inl ⟨q, hmem⟩
    · exact Or.inl ⟨r, hmem⟩
  have herase : ∀ {r q g'}, g ∈ Function.update s.handles q ((s.handles q).erase g') r →
      HasGen s g := by
    intro r q g' hmem
    rcases mem_update_handles hmem with hmem | hmem
    · exact Or.inl ⟨q, Multiset.mem_of_mem_erase hmem⟩
    · exact Or.inl ⟨r, hmem⟩
  cases hs with
  | clone q g' hg' => exact hg.elim (fun ⟨r, hr⟩ => hcons (Or.inl ⟨q, hg'⟩) hr) Or.inr
  | drop q g' _ => exact hg.elim (fun ⟨r, hr⟩ => herase hr) Or.inr
  | convert q g' state _ _ _ => exact hg.elim (fun ⟨r, hr⟩ => herase hr) Or.inr
  | serialize q g' dsts hg' _ =>
    rcases hg with hg | ⟨m, hm, rfl⟩ | hg
    · exact Or.inl hg
    · simp only [State.serialized, Multiset.mem_add, Multiset.mem_coe, List.mem_map] at hm
      rcases hm with hm | ⟨r, _, rfl⟩
      · exact Or.inr (Or.inl ⟨m, hm, rfl⟩)
      · exact Or.inl ⟨q, hg'⟩
    · exact Or.inr (Or.inr hg)
  | deliver m hm _ =>
    refine hg.imp_right (Or.imp_left ?_)
    rintro ⟨m', hm', rfl⟩
    rcases Multiset.mem_cons.mp hm' with rfl | hm'
    · exact ⟨m, hm, rfl⟩
    · exact ⟨m', Multiset.mem_of_mem_erase hm', rfl⟩
  | credit m hm _ =>
    refine hg.imp_right ?_
    rintro (⟨m', hm', rfl⟩ | ⟨m', hm', rfl⟩)
    · exact Or.inl ⟨m', Multiset.mem_of_mem_erase hm', rfl⟩
    · rcases Multiset.mem_cons.mp hm' with rfl | hm'
      · exact Or.inl ⟨m', hm, rfl⟩
      · exact Or.inr ⟨m', hm', rfl⟩
  | hold m hm =>
    rcases hg with ⟨r, hr⟩ | hflight | ⟨m', hm', rfl⟩
    · exact hcons (Or.inr (Or.inr ⟨m, hm, rfl⟩)) hr
    · exact Or.inr (Or.inl hflight)
    · exact Or.inr (Or.inr ⟨m', Multiset.mem_of_mem_erase hm', rfl⟩)
  | upgrade q g' _ _ => exact hno.elim
  | _ => exact hg

/-- A task makes a handle when a conversion returns. -/
theorem taskStep_hasGen (ht : s.task p = some t) (hs : TaskStep s p t s') {g : ℕ}
    (hg : HasGen s' g) : HasGen s g ∨ g = s.calls p ∧ t.state ≠ .dropped ∧
      (t.pc = .await .final ∨ t.pc = .soloStore) := by
  rw [HasGen, (taskStep_frame hs).2.2.2.1, (taskStep_frame hs).2.2.2.2.1] at hg
  rcases taskStep_task ht hs with ⟨_, _, _, hhandles, _⟩ | ⟨hconv, _, hhandles, hpc⟩
  · rw [hhandles] at hg
    exact Or.inl hg
  · rw [hhandles] at hg
    rcases hg with ⟨r, hr⟩ | hm
    · rcases mem_update_handles hr with hr | hr
      · rcases Multiset.mem_cons.mp hr with rfl | hr
        · exact Or.inr ⟨rfl, hconv, hpc⟩
        · exact Or.inl (Or.inl ⟨p, hr⟩)
      · exact Or.inl (Or.inl ⟨r, hr⟩)
    · exact Or.inl (Or.inr hm)

/-- A conversion tests for the handle it has consumed, so its test finds no other. -/
theorem Owned.careful {a : Action P} (h : Owned s) (ha : Orderly s a)
    (hs : s.step a = some s') : Careful (· ≠ .dropped) s a := by
  obtain ⟨hno, halone, hdelivered⟩ := ha
  rcases h.single.cases halone hs with hop | ⟨p, q, t, rfl, ht, htask⟩
  · cases hop
    case upgrade => exact hno.elim
    case upgradeFailed => exact hno.elim
    all_goals trivial
  · intro t' ht' hconv hpc
    have hnone := hdelivered t' ht' hconv hpc
    rw [Option.mem_def, ht, Option.some_inj] at ht'
    subst ht'
    refine ⟨?_, hnone⟩
    cases htask
    case localTest hcnt =>
      have hcount := h.localCnt p
      rw [State.goal, ht, Option.map_some, heldBy_of_ne hconv] at hcount
      exact Multiset.card_eq_zero.mp (by omega)
    all_goals simp_all

/-! ## Generations and calls -/

/-- The generation of a handle is a call that all PEs have begun. -/
def GensCalled (s : State P) : Prop := ∀ g, HasGen s g → ∀ r, g ≤ s.calls r

/-- PEs have begun at least the calls of one whose last barrier all have entered. -/
theorem Aligned.calls_le (h : Aligned s) (hp : Complete s p) (hlast : s.lastBarrier p = .final)
    (r : Fin P) : s.calls p ≤ s.calls r := by
  rcases Nat.eq_or_lt_of_le (hp r) with heq | hlt
  · exact (h.same p r heq).2.le
  · have hnear := h.near r p
    have hnext := h.next p r (by omega)
    simp only [Follows, hlast] at hnext
    omega

theorem taskStep_calls (hs : TaskStep s p t s') :
    s'.calls = s.calls ∨ t.pc = .start ∧ s'.calls = Function.update s.calls p (s.calls p + 1) := by
  cases hs
  case startSolo hpc _ => exact Or.inr ⟨hpc, rfl⟩
  case enterInitial hpc _ => exact Or.inr ⟨hpc, rfl⟩
  all_goals exact Or.inl rfl

theorem GensCalled.step {a : Action P} (h : GensCalled s) (ho : Owned s) (ha : Aligned s)
    (hok : Orderly s a) (hs : s.step a = some s') : GensCalled s' := by
  rcases ho.single.cases hok.2.1 hs with hop | ⟨p, q, t, _, ht, htask⟩
  · intro g hg
    rw [(opStep_frame hop).2.2.2.2]
    exact h g (opStep_hasGen hok.1 hop hg)
  · have hgrow : ∀ r, s.calls r ≤ s'.calls r := by
      intro r
      rcases taskStep_calls htask with hcalls | ⟨_, hcalls⟩
      · rw [hcalls]
      · rw [hcalls]
        exact le_update_succ _ p 1 r
    intro g hg r
    refine le_trans ?_ (hgrow r)
    rcases taskStep_hasGen ht htask hg with hg | ⟨rfl, _, hpc⟩
    · exact h g hg r
    · have hlast : s.lastBarrier p = .final := by
        have hlocal := ha.busy p t ht
        rcases hpc with hpc | hpc
        all_goals
          simp only [LocalOk, hpc] at hlocal
          exact hlocal.1
      exact ha.calls_le (ha.complete ht htask) hlast r

/-! ## The barrier at the end of a call -/

/-- A conversion that may leave its last barrier finds no handle older than its call. -/
def FinalFree (s : State P) : Prop :=
  ∀ p t, s.task p = some t → t.pc = .await .final → t.state ≠ .dropped → Complete s p →
    ∀ g, HasGen s g → s.calls p ≤ g

/-- All PEs have entered the last barrier: the last round of their call has found all quiet. -/
theorem quiet_of_all_final (hS : Sound (· ≠ .dropped) s) (hC' : Closing (· ≠ .dropped) s')
    (ht : s.task p = some t) (hpc : t.pc = .waitModes ∅) (hs : TaskStep s p t s')
    (hwait : ∀ r, ∃ u, s'.task r = some u ∧ u.pc = .await .final) {x : Fin P} {v : Task P}
    (hx : s'.task x = some v) (hconv : v.state ≠ .dropped) : Quiet s := by
  have hlocal := hS.aligned.busy p t ht
  simp only [LocalOk, hpc] at hlocal
  have hphase := hS.detect p (hS.aligned.complete ht hs)
  rw [hlocal.1] at hphase
  rcases hphase with ⟨r, u, hu, hdrop⟩ | hquiet | hagain
  · -- a PE that drops has entered the last barrier only if all do
    exfalso
    obtain ⟨u', hu', hpc'⟩ := hwait r
    have hstate : u'.state = u.state := by
      by_cases hrp : r = p
      · subst hrp
        rw [ht, Option.some_inj] at hu
        subst hu
        exact taskStep_state ht hs hu'
      · rw [taskStep_task_eq ht hs, Function.update_of_ne hrp, hu, Option.some_inj] at hu'
        rw [hu']
    have hall := hC'.all r u' hu' (hstate.trans (not_not.mp hdrop)) (Or.inl hpc')
    obtain ⟨v', hv', hdrop', _⟩ := hall.1 x
    rw [hx, Option.some_inj] at hv'
    exact hconv (hv' ▸ hdrop')
  · exact hquiet
  · exact absurd hagain hlocal.2.2

theorem FinalFree.taskStep (h : FinalFree s) (hS : Sound (· ≠ .dropped) s)
    (hC' : Closing (· ≠ .dropped) s') (ht : s.task p = some t) (hs : TaskStep s p t s') :
    FinalFree s' := by
  have ha := hS.aligned
  -- a PE that was free to leave the barrier before this step
  have hold : ∀ x v, x ≠ p → s.task x = some v → v.pc = .await .final → v.state ≠ .dropped →
      Complete s x → ∀ g, HasGen s' g → s'.calls x ≤ g := by
    intro x v hxp hx hpc hconv hcx g hg
    have hcalls : s'.calls x = s.calls x := by
      rcases taskStep_calls hs with hcalls | ⟨_, hcalls⟩
      · rw [hcalls]
      · rw [hcalls, Function.update_of_ne hxp]
    rw [hcalls]
    rcases taskStep_hasGen ht hs hg with hg | ⟨rfl, _⟩
    · exact h x v hx hpc hconv hcx g hg
    · exact (ha.same x p (Nat.le_antisymm (hcx p) (ha.complete ht hs x))).2.le
  intro x v hx hpc hconv hcx g hg
  have hkept : x ≠ p → s.task x = some v := by
    intro hxp
    rw [taskStep_task_eq ht hs, Function.update_of_ne hxp] at hx
    exact hx
  rcases ha.taskStep_entered ht hs with ⟨hentered, hlast⟩ |
    ⟨b, t', hentered, _, htask, hpc', _⟩
  · by_cases hxp : x = p
    · subst hxp
      have hwaited := (taskStep_ending ht hs hx).2.2.1 hpc
      have hbad := ((ha.taskStep ht hs).busy x v hx).lastBarrier_eq hpc
      have hgood := ha.busy x t ht
      simp only [LocalOk, hwaited] at hgood
      rw [hlast, hgood.1] at hbad
      cases hbad
    · rw [Complete, hentered] at hcx
      exact hold x v hxp (hkept hxp) hpc hconv hcx g hg
  · rcases ha.behind_or_last ht hs hentered hcx with ⟨hxp, heq⟩ | hall
    · have hcx' : Complete s x := fun r => heq ▸ ha.complete ht hs r
      exact hold x v hxp (hkept hxp) hpc hconv hcx' g hg
    · have hwait := ha.all_waiting ht hs hentered htask hpc' hall
      obtain ⟨v', hv', hb⟩ := hwait x
      rw [hx, Option.some_inj] at hv'
      subst hv'
      rw [hpc, Pc.await.injEq] at hb
      subst hb
      have hwaited := (taskStep_ending ht hs (by rw [htask, Function.update_self])).2.2.1 hpc'
      have hquiet := quiet_of_all_final hS hC' ht hwaited hs hwait hx hconv
      rcases taskStep_hasGen ht hs hg with hg | ⟨_, _, hend⟩
      · exact absurd hg (hquiet.not_hasGen g)
      · simp [hwaited] at hend

theorem FinalFree.opStep {a : Action P} (h : FinalFree s) (hno : NoUpgrade s a)
    (hs : OpStep s a s') : FinalFree s' := by
  obtain ⟨_, _, hentered, _, hcalls⟩ := opStep_frame hs
  have hkeep : ∀ x v, s.task x = some v → v.pc = .await .final → v.state ≠ .dropped →
      Complete s' x → ∀ g, HasGen s' g → s'.calls x ≤ g := by
    intro x v hx hpc hconv hcx g hg
    rw [Complete, hentered] at hcx
    rw [hcalls]
    exact h x v hx hpc hconv hcx g (opStep_hasGen hno hs hg)
  rcases opStep_task hs with htask | ⟨p, m, _, htask⟩
  · rw [FinalFree, htask]
    exact hkeep
  · refine forall_task_update htask (fun v hv hpc => ?_) (fun x v _ hx => hkeep x v hx)
    cases hv
    simp [Task.new] at hpc

theorem FinalFree.step {a : Action P} (h : FinalFree s) (hS : Sound (· ≠ .dropped) s)
    (hC' : Closing (· ≠ .dropped) s') (hok : Orderly s a) (hs : s.step a = some s') :
    FinalFree s' := by
  rcases hS.owned.single.cases hok.2.1 hs with hop | ⟨p, q, t, _, ht, htask⟩
  · exact h.opStep hok.1 hop
  · exact h.taskStep hS hC' ht htask

/-! ## All runs -/

/-- The task of a single PE: a conversion that may return has no other strong handle. -/
def SoloOk (s : State P) (p : Fin P) (t : Task P) : Prop :=
  match t.pc with
  | .start | .soloTest => True
  | .soloStore => t.state ≠ .dropped → s.handles p = 0
  | pc => pc.Ending

def SoloFree (s : State P) : Prop := ∀ p t, s.task p = some t → SoloOk s p t

theorem SoloOk.taskStep {t' : Task P} (h : SoloOk s p t) (ho : Owned s) (hP : P = 1)
    (ht : s.task p = some t) (hs : TaskStep s p t s') (ht' : s'.task p = some t') :
    SoloOk s' p t' := by
  cases hs
  case returnFinal => simp [State.returned] at ht'
  case soloReturn => simp [State.returned] at ht'
  case enterInitial hP' => exact absurd hP hP'
  case spin hpc =>
    change s.task p = some t' at ht'
    rw [ht, Option.some_inj] at ht'
    subst ht'
    exact h
  all_goals
    simp only [State.setTask, State.enter, State.called, State.putRef, State.putId,
      State.putMode, State.sendFinished, Function.update_self, Option.some_inj] at ht'
    subst ht'
  case soloTest hpc hcnt =>
    intro hconv
    have hlocal := ho.localCnt p
    rw [State.goal, ht, Option.map_some, heldBy_of_ne hconv] at hlocal
    have hcard : (s.handles p).card = 0 := by omega
    exact Multiset.card_eq_zero.mp hcard
  all_goals simp_all [SoloOk, Pc.Ending]

theorem SoloFree.step {a : Action P} (h : SoloFree s) (hA : Alone s) (hP : P = 1)
    (hok : Orderly s a) (hs : s.step a = some s') : SoloFree s' := by
  have hkeep : ∀ x v, (s.handles x = 0 → s'.handles x = 0) → s.task x = some v →
      SoloOk s' x v := by
    intro x v hhandles hx
    have hv := h x v hx
    cases hpc : v.pc with
    | soloStore =>
      simp only [SoloOk, hpc] at hv ⊢
      exact fun hconv => hhandles (hv hconv)
    | _ =>
      rw [SoloOk, hpc] at hv ⊢
      exact hv
  rcases hA.owned.single.cases hok.2.1 hs with hop | ⟨p, q, t, _, ht, htask⟩
  · have hhandles : ∀ x, s.handles x = 0 → s'.handles x = 0 := by
      intro x hx
      rcases opStep_vacant hop (hA.vacant hx) with hnone | ⟨m, hm, _⟩ | ⟨g, rfl, _⟩
      · exact hnone.1
      · simp [hA.inFlight] at hm
      · exact hok.1.elim
    rcases opStep_task hop with htask | ⟨p, m, _, htask⟩
    · rw [SoloFree, htask]
      exact fun x v => hkeep x v (hhandles x)
    · refine forall_task_update htask (fun v hv => ?_) (fun x v _ => hkeep x v (hhandles x))
      cases hv
      trivial
  · refine forall_task_update (taskStep_task_eq ht htask) (fun t' ht' => ?_)
      (fun x v hxp hx => hkeep x v (fun hnone => ?_) hx)
    · exact (h p t ht).taskStep hA.owned hP ht htask ht'
    · rw [taskStep_handles ht htask hxp, hnone]

/-- The two ways to return, on one PE and on several. -/
theorem no_older_handle (hs : Transition.Reach InitialZeroed State.step Orderly s)
    (ht : s.task p = some t) (hconv : t.state ≠ .dropped)
    (hpc : t.pc = .await .final ∧ Complete s p ∨ t.pc = .soloStore) :
    ∀ g, HasGen s g → s.calls p ≤ g := by
  by_cases hP : P = 1
  · let I : State P → Prop := fun s => Alone s ∧ SoloFree s
    have hinv : I s := by
      refine hs.invariant ?_ ?_
      · refine fun s hs => ⟨Alone.init hs.1, ?_⟩
        obtain ⟨⟨mode, garbage, _, rfl⟩, _⟩ := hs
        intro p t ht
        cases ht
      · rintro s a s' ⟨halone, hfree⟩ hok hstep
        exact ⟨halone.step hP hok.2.1 hstep, hfree.step halone hP hok hstep⟩
    obtain ⟨halone, hfree⟩ := hinv
    have hsolo := hfree p t ht
    rcases hpc with ⟨hpc, _⟩ | hpc
    · simp only [SoloOk, hpc] at hsolo
      exact hsolo.elim
    · simp only [SoloOk, hpc] at hsolo
      have hquiet : Quiet s := by
        refine ⟨fun r => halone.vacant ?_, halone.inFlight⟩
        rw [show r = p from Fin.ext (by omega)]
        exact hsolo hconv
      exact fun g hg => absurd hg (hquiet.not_hasGen g)
  · let I : State P → Prop :=
      fun s => Sound (· ≠ .dropped) s ∧ Closing (· ≠ .dropped) s ∧ FinalFree s
    have hinv : I s := by
      refine hs.invariant ?_ ?_
      · refine fun s hs => ⟨Sound.init hs.1 (hs.2 hP), Closing.init hs.1, ?_⟩
        obtain ⟨⟨mode, garbage, _, rfl⟩, _⟩ := hs
        intro p t ht
        cases ht
      · rintro s a s' ⟨hsound, hclosing, hfree⟩ hok hstep
        have hcareful := hsound.owned.careful hok hstep
        have hclosing' := hclosing.step hsound hP hok.2.1 hcareful hstep
        exact ⟨hsound.step hok.2.1 hcareful hstep, hclosing',
          hfree.step hsound hclosing' hok hstep⟩
    obtain ⟨_, hclosing, hfree⟩ := hinv
    rcases hpc with ⟨hpc, hcomplete⟩ | hpc
    · exact hfree p t ht hpc hconv hcomplete
    · exact absurd hpc (hclosing.notSolo p t ht).2

theorem gens_called (hs : Transition.Reach InitialZeroed State.step Orderly s) :
    Owned s ∧ Aligned s ∧ GensCalled s := by
  let I : State P → Prop := fun s => Owned s ∧ Aligned s ∧ GensCalled s
  have hinv : I s := by
    refine hs.invariant ?_ ?_
    · refine fun s hs => ⟨Owned.init hs.1, Aligned.init hs.1, fun g hg r => ?_⟩
      obtain ⟨⟨mode, garbage, _, rfl⟩, _⟩ := hs
      rcases hg with ⟨q, hq⟩ | ⟨m, hm, _⟩ | ⟨m, hm, _⟩
      · simp only [State.new, Multiset.mem_singleton] at hq
        exact hq.le
      · simp [State.new] at hm
      · simp [State.new] at hm
    · rintro s a s' ⟨howned, haligned, hgens⟩ hok hstep
      exact ⟨howned.step hok.2.1 hstep, haligned.step howned hok.2.1 hstep,
        hgens.step howned haligned hok hstep⟩
  exact hinv

/-- When a collective conversion returns on `p`, every strong handle on any PE and every
handle in flight or being delivered is one that this conversion, which all PEs have called,
has made. -/
theorem conversion_exclusive (P : ℕ) (s s' : State P)
    (hs : Transition.Reach InitialZeroed State.step Orderly s) (p q : Fin P)
    (hcall : s.task p ≠ none) (hstep : s.step (.run p q) = some s')
    (hreturn : s'.task p = none) :
    (∀ r, ∀ g ∈ s'.handles r, g = s'.calls p) ∧ (∀ m ∈ s'.inFlight, m.gen = s'.calls p) ∧
      ∀ m ∈ s'.arriving, m.gen = s'.calls p := by
  obtain ⟨howned, haligned, hgens⟩ := gens_called hs
  obtain ⟨t, ht⟩ := Option.ne_none_iff_exists'.mp hcall
  have htask : TaskStep s p t s' := by
    simp only [State.step, ht] at hstep
    exact runTask_cases hstep
  have hend : t.state ≠ .dropped ∧ (t.pc = .await .final ∨ t.pc = .soloStore) := by
    rcases taskStep_task ht htask with ⟨u, hu, _⟩ | ⟨hconv, _, _, hpc⟩
    · simp [hu] at hreturn
    · exact ⟨hconv, hpc⟩
  have horderly : Orderly s (.run p q) := by
    refine ⟨trivial, trivial, fun t' ht' _ hpc => ?_⟩
    rw [Option.mem_def, ht, Option.some_inj] at ht'
    simp [ht', hpc] at hend
  have hgens' := hgens.step howned haligned horderly hstep
  have hcalls : s'.calls = s.calls := by
    rcases taskStep_calls htask with hcalls | ⟨hpc, _⟩
    · exact hcalls
    · simp [hpc] at hend
  have hmade : ∀ g, HasGen s' g → g = s'.calls p := by
    intro g hg
    refine Nat.le_antisymm (hgens' g hg p) ?_
    rw [hcalls]
    rcases taskStep_hasGen ht htask hg with hg | ⟨rfl, _⟩
    · refine no_older_handle hs ht hend.1 (hend.2.imp_left fun hpc => ⟨hpc, ?_⟩) g hg
      exact haligned.complete ht htask
    · exact le_rfl
  exact ⟨fun r g hg => hmade g (Or.inl ⟨r, hg⟩),
    fun m hm => hmade m.gen (Or.inr (Or.inl ⟨m, hm, rfl⟩)),
    fun m hm => hmade m.gen (Or.inr (Or.inr ⟨m, hm, rfl⟩))⟩

/-- Both PEs convert their handle, after `work`, in so many rounds, and PE 0 may return. -/
def convertBoth (work : List (Action 2)) (rounds : ℕ) : List (Action 2) :=
  work ++ [.convert 0 0 .localRw, .convert 1 0 .localRw] ++
    [0, 1].flatMap (fun p => turns p [0]) ++ [0, 1].flatMap (fun p => turns p [0]) ++
    (List.replicate rounds round).flatten ++ exchange

set_option maxRecDepth 10000 in
/-- A handle that PE 0 has sent to PE 1 arrives and is dropped, then both PEs convert. -/
theorem conversion_exclusive_after_drop :
    ∃ s s' : State 2, Transition.Reach InitialZeroed State.step Orderly s ∧
      s.task 0 ≠ none ∧ s.step (.run 0 0) = some s' ∧ s'.task 0 = none ∧
      (∀ r, ∀ g ∈ s'.handles r, g = s'.calls 0) ∧ (∀ m ∈ s'.inFlight, m.gen = s'.calls 0) ∧
      ∀ m ∈ s'.arriving, m.gen = s'.calls 0 := by
  have hrun : ((Transition.run (Transition.guarded State.step Orderly)
      (State.new .darc fun _ _ => 0)
      (convertBoth ([.serialize 0 0 [1]] ++ receive 0 1 ++ [.drop 1 0, .runDrop 1 .localTest])
        2)).bind fun s =>
        (s.step (.run 0 0)).map fun s' => ((s.task 0).isSome, (s'.task 0).isNone)) =
      some (true, true) := by
    decide +kernel
  obtain ⟨s, hs, hlast⟩ := Option.bind_eq_some_iff.mp hrun
  obtain ⟨s', hs', hresult⟩ := Option.map_eq_some_iff.mp hlast
  simp only [Prod.mk.injEq, Option.isNone_iff_eq_none] at hresult
  have hinit : InitialZeroed (State.new .darc fun _ _ => 0 : State 2) :=
    ⟨⟨_, _, by decide, rfl⟩, fun _ _ _ => rfl⟩
  have hreach := Transition.Reach.run_guarded (.init hinit) hs
  have hcall := Option.isSome_iff_ne_none.mp hresult.1
  exact ⟨s, s', hreach, hcall, hs', hresult.2,
    conversion_exclusive 2 s s' hreach 0 0 hcall hs' hresult.2⟩

set_option maxRecDepth 10000 in
/-- Where the `total_ref_cnt` words are not zero, a conversion returns while a handle that
PE 0 has sent before it is still in flight. -/
theorem conversion_returns_under_flight :
    ∃ s s' : State 2, Transition.Reach Initial State.step Orderly s ∧ s.task 0 ≠ none ∧
      s.step (.run 0 0) = some s' ∧ s'.task 0 = none ∧ s'.calls 0 = 1 ∧
      s'.inFlight = {⟨0, 1, 0, false⟩} := by
  have hrun : ((Transition.run (Transition.guarded State.step Orderly)
      (State.new .darc fun p q => if p = 1 ∧ q = 0 then 1 else 0)
      (convertBoth [.serialize 0 0 [1]] 2)).bind fun s =>
        (s.step (.run 0 0)).map fun s' =>
          ((s.task 0).isSome, (s'.task 0).isNone, s'.calls 0, s'.inFlight)) =
      some (true, true, 1, {⟨0, 1, 0, false⟩}) := by
    decide +kernel
  obtain ⟨s, hs, hlast⟩ := Option.bind_eq_some_iff.mp hrun
  obtain ⟨s', hs', hresult⟩ := Option.map_eq_some_iff.mp hlast
  simp only [Prod.mk.injEq, Option.isNone_iff_eq_none] at hresult
  have hreach : Transition.Reach Initial State.step Orderly s :=
    Transition.Reach.run_guarded (.init ⟨_, _, by decide, rfl⟩) hs
  exact ⟨s, s', hreach, Option.isSome_iff_ne_none.mp hresult.1, hs', hresult.2.1,
    hresult.2.2.1, hresult.2.2.2⟩

end Lamellar.Darc
