import Lamellar.Darc.Closing
import Mathlib.Data.Multiset.Sort

/-!
# The lifetime of the item

An item is dropped, and the memory of the `Darc` freed, only when no PE has a strong handle
and none is in flight, in every run of which

* the `total_ref_cnt` words, which `try_new_with_drop` does not initialise, were zero,
* the local test of a `DroppedWaitAM` finds `local_cnt = 0`: it accepts one strong handle,
  because `block_on_outstanding` is called with the same `extra_cnt` as by a conversion, which
  owns a handle,
* no delivery is half-way then: `total_ref_cnt` and `ref_cnts` count a handle before
  `local_cnt` does,
* no weak handle becomes a strong one after that test, and
* no `block_on_outstanding` begins on a PE where another one runs.

With one PE only the last of these is needed.
-/

namespace Lamellar.Darc

open State

variable {P : ℕ} {s s' : State P}

/-! ## One PE -/

structure Alone (s : State P) : Prop where
  owned : Owned s
  inFlight : s.inFlight = 0
  arriving : s.arriving = 0
  invalid : ∀ p t, s.task p = some t → t.pc = .waitDist ∨ t.pc = .waitLocal ∨ t.pc.Unheld →
    s.valid p = false
  unheld : ∀ p t, s.task p = some t → t.pc.Unheld → s.handles p = 0

theorem Alone.vacant {p : Fin P} (h : Alone s) (hp : s.handles p = 0) : Vacant s p := by
  refine ⟨hp, fun m hm => ?_, fun m hm => ?_⟩
  · simp [h.inFlight] at hm
  · simp [h.arriving] at hm

theorem Alone.opStep {a : Action P} (h : Alone s) (hP : P = 1) (hs : OpStep s a s') :
    Alone s' := by
  have hvalid : s'.valid = s.valid := by
    cases hs
    all_goals rfl
  have htasks : ∀ {Q : Fin P → Task P → Prop}, (∀ r m, Q r (Task.new m)) →
      (∀ r u, s.task r = some u → Q r u) → ∀ r u, s'.task r = some u → Q r u := by
    intro Q hnew hold
    rcases opStep_task hs with htask | ⟨p, m, _, htask⟩
    · rw [htask]
      exact hold
    · refine forall_task_update htask (fun u hu => ?_) (fun r u _ hr => hold r u hr)
      cases hu
      exact hnew p m
  refine ⟨h.owned.opStep hs, ?_, ?_, ?_, ?_⟩
  · cases hs with
    | serialize p g dsts _ hdsts =>
      have hnil : dsts = [] := by
        refine List.eq_nil_iff_forall_not_mem.mpr (fun q hq => hdsts ?_)
        rwa [show p = q from Fin.ext (by omega)]
      simp [State.serialized, hnil, h.inFlight]
    | deliver m hm _ => simp [h.inFlight] at hm
    | credit m hm _ => simp [h.inFlight] at hm
    | _ => exact h.inFlight
  · cases hs with
    | credit m hm _ => simp [h.inFlight] at hm
    | hold m hm => simp [h.arriving] at hm
    | _ => exact h.arriving
  · rw [hvalid]
    exact htasks (fun r m hpc => by simp [Task.new, Pc.Unheld] at hpc) h.invalid
  · refine htasks (fun r m hpc => by simp [Task.new, Pc.Unheld] at hpc) ?_
    intro r u hr hpc
    rcases opStep_vacant hs (h.vacant (h.unheld r u hr hpc)) with
      hnone | ⟨m, hm, _⟩ | ⟨g, _, htrue⟩
    · exact hnone.1
    · simp [h.inFlight] at hm
    · rw [h.invalid r u hr (Or.inr (Or.inr hpc))] at htrue
      cases htrue

theorem Alone.taskStep {p : Fin P} {t : Task P} (h : Alone s) (ht : s.task p = some t)
    (hs : TaskStep s p t s') : Alone s' := by
  have hinvalid := h.invalid p t ht
  have hunheld := h.unheld p t ht
  have hlocal := h.owned.localCnt p
  refine ⟨h.owned.taskStep ht hs, (taskStep_frame hs).2.2.2.1.trans h.inFlight,
    (taskStep_frame hs).2.2.2.2.1.trans h.arriving, ?_, ?_⟩
  · refine forall_task_update (taskStep_task_eq ht hs) (fun t' ht' hpc => ?_)
      (fun r u hrp hr hpc => ?_)
    · cases hs
      case returnFinal => simp [State.returned] at ht'
      case soloReturn => simp [State.returned] at ht'
      case spin =>
        change s.task p = some t' at ht'
        rw [ht, Option.some_inj] at ht'
        exact hinvalid (ht' ▸ hpc)
      case invalidate => exact Function.update_self _ _ _
      all_goals
        simp only [State.setTask, State.enter, State.called, State.putRef, State.putId,
          State.putMode, State.sendFinished, Function.update_self, Option.some_inj] at ht'
        subst ht'
      case waitDist hpc' _ => exact hinvalid (Or.inl hpc')
      case waitLocal hpc' _ => exact hinvalid (Or.inr (Or.inl hpc'))
      case retry hpc' _ => exact hinvalid (Or.inr (Or.inl hpc'))
      case dropItem hpc' => exact hinvalid (Or.inr (Or.inr (by simp [hpc', Pc.Unheld])))
      case waitWeak hpc' _ => exact hinvalid (Or.inr (Or.inr (by simp [hpc', Pc.Unheld])))
      case free hpc' => exact hinvalid (Or.inr (Or.inr (by simp [hpc', Pc.Unheld])))
      all_goals simp [Pc.Unheld, Task.head] at hpc
    · have hsame := h.invalid r u hr hpc
      cases hs
      case invalidate =>
        simp only [State.setTask, Function.update_of_ne hrp]
        exact hsame
      all_goals exact hsame
  · refine forall_task_update (taskStep_task_eq ht hs) (fun t' ht' hpc => ?_)
      (fun r u hrp hr hpc => ?_)
    · cases hs
      case returnFinal => simp [State.returned] at ht'
      case soloReturn => simp [State.returned] at ht'
      case spin =>
        change s.task p = some t' at ht'
        rw [ht, Option.some_inj] at ht'
        exact hunheld (ht' ▸ hpc)
      all_goals
        simp only [State.setTask, State.enter, State.called, State.putRef, State.putId,
          State.putMode, State.sendFinished, Function.update_self, Option.some_inj] at ht'
        subst ht'
      case waitLocal hzero =>
        have hcard : (s.handles p).card = 0 := by omega
        exact Multiset.card_eq_zero.mp hcard
      case dropItem hpc' => exact hunheld (by simp [hpc', Pc.Unheld])
      case waitWeak hpc' _ => exact hunheld (by simp [hpc', Pc.Unheld])
      case free hpc' => exact hunheld (by simp [hpc', Pc.Unheld])
      all_goals simp [Pc.Unheld, Task.head] at hpc
    · rw [taskStep_handles ht hs hrp]
      exact h.unheld r u hr hpc

theorem Alone.step {a : Action P} (h : Alone s) (hP : P = 1) (ha : StartsAlone s a)
    (hs : s.step a = some s') : Alone s' := by
  rcases h.owned.single.cases ha hs with hop | ⟨p, q, t, _, ht, htask⟩
  · exact h.opStep hP hop
  · exact h.taskStep ht htask

theorem Alone.init (hs : Initial s) : Alone s := by
  have howned := Owned.init hs
  obtain ⟨mode, garbage, _, rfl⟩ := hs
  refine ⟨howned, rfl, rfl, fun p t ht => ?_, fun p t ht => ?_⟩
  · cases ht
  · cases ht

/-! ## All runs -/

/-- A new `Darc` whose `total_ref_cnt` words were zero, if there are other PEs. -/
def InitialZeroed (s : State P) : Prop :=
  Initial s ∧ (P ≠ 1 → ∀ p q, s.totalRefCnts p q = 0)

/-- The step begins no second task on a PE and, with several PEs, does not let the test of a
`DroppedWaitAM` pass a strong handle. -/
def Guarded (s : State P) (a : Action P) : Prop :=
  StartsAlone s a ∧ (P ≠ 1 → Careful (· = .dropped) s a)

instance (s : State P) (a : Action P) : Decidable (Guarded s a) :=
  inferInstanceAs (Decidable (_ ∧ (_ → _)))

/-- In a run whose steps are all guarded, no PE drops the item or frees the memory while a
PE has a strong handle or one is in flight or being delivered. -/
theorem item_outlives_handles (P : ℕ) (s : State P)
    (hs : Transition.Reach InitialZeroed State.step Guarded s) (p : Fin P)
    (hp : s.itemDropped p = true ∨ s.freed p = true) :
    (∀ q, s.handles q = 0) ∧ s.inFlight = 0 ∧ s.arriving = 0 := by
  by_cases hP : P = 1
  · have hinv : Alone s ∧ Released s := by
      refine hs.invariant (I := fun s => Alone s ∧ Released s) ?_ ?_
      · exact fun s hs => ⟨Alone.init hs.1, Released.init hs.1⟩
      · exact fun s a s' h hok hstep =>
          ⟨h.1.step hP hok.1 hstep, h.2.step h.1.owned hok.1 hstep⟩
    obtain ⟨t, ht, hpc⟩ := hinv.2 p hp
    refine ⟨fun q => ?_, hinv.1.inFlight, hinv.1.arriving⟩
    rw [show q = p from Fin.ext (by omega)]
    exact hinv.1.unheld p t ht hpc
  · let I : State P → Prop :=
      fun s => Sound (· = .dropped) s ∧ Closing (· = .dropped) s ∧ Released s
    have hinv : I s := by
      refine hs.invariant ?_ ?_
      · exact fun s hs => ⟨Sound.init hs.1 (hs.2 hP), Closing.init hs.1, Released.init hs.1⟩
      · rintro s a s' ⟨hsound, hclosing, hreleased⟩ ⟨halone, hcareful⟩ hstep
        exact ⟨hsound.step halone (hcareful hP) hstep,
          hclosing.step hsound hP halone (hcareful hP) hstep,
          hreleased.step hsound.owned halone hstep⟩
    obtain ⟨_, hclosing, hreleased⟩ := hinv
    obtain ⟨t, ht, hpc⟩ := hreleased p hp
    have hdropped := hclosing.ending p t ht hpc.ending
    have hquiet := (hclosing.all p t ht hdropped (Or.inr hpc.ending)).2 rfl
    exact ⟨fun q => (hquiet.1 q).1, hquiet.2, hquiet.arriving⟩

section Runs

/-- Steps of the task of `p`, with the PEs that its loops visit. -/
def turns (p : Fin 2) (qs : List (Fin 2)) : List (Action 2) := qs.map fun q => .run p q

/-- A round of two PEs, from the local test to the end. -/
def round : List (Action 2) :=
  [0, 1].flatMap (fun p => turns p [0, 0, 0, 1, 0, 0, 0, 1, 0]) ++
    [0, 1].flatMap (fun p => turns p [0, 0, 0, 0, 1, 0]) ++
    [0, 1].flatMap (fun p => turns p [0, 0, 1, 0]) ++
    [0, 1].flatMap (fun p => turns p [0, 0, 1, 0])

/-- The exchange of the modes of two PEs up to the barrier after it. -/
def exchange : List (Action 2) :=
  [0, 1].flatMap (fun p => turns p [0, 0, 1, 0]) ++ [0, 1].flatMap (fun p => turns p [0, 1, 0])

/-- `p` drops its last handle, made with the `Darc`. -/
def dropLast (p : Fin 2) : List (Action 2) :=
  [.drop p 0, .runDrop p .sendFinished, .runDrop p .localTest, .runDrop p .exchange]

/-- A handle made with the `Darc` is sent from `p` and delivered to `q`. -/
def receive (p q : Fin 2) : List (Action 2) :=
  [.deliver ⟨p, q, 0, false⟩, .credit ⟨p, q, 0, true⟩, .hold ⟨p, q, 0, true⟩, .settle q]

/-- Both PEs drop their handle. -/
def dropBoth : List (Action 2) :=
  dropLast 0 ++ dropLast 1 ++ [0, 1].flatMap (fun p => turns p [0]) ++
    [0, 1].flatMap (fun p => turns p [0]) ++ round ++ exchange ++
    turns 0 [0, 0, 1, 0, 0, 0, 0, 0]

/-- PE 1 drops its handle while another one is on its way to it from PE 0. -/
def dropBeforeDelivery : List (Action 2) :=
  [.serialize 0 0 [1]] ++ dropLast 1 ++ receive 0 1 ++ dropLast 0 ++
    [0, 1].flatMap (fun p => turns p [0]) ++ [0, 1].flatMap (fun p => turns p [0]) ++ round ++
    [.execFinished ⟨0, 1⟩] ++ round ++ exchange ++ turns 0 [0, 0, 1, 0, 0, 0, 0, 0]

end Runs

set_option maxRecDepth 10000 in
theorem item_outlives_handles_drop_both :
    ∃ s : State 2, Transition.run (Transition.guarded State.step Guarded)
        (State.new .darc fun _ _ => 0) dropBoth = some s ∧ s.itemDropped 0 = true ∧
      (∀ q, s.handles q = 0) ∧ s.inFlight = 0 ∧ s.arriving = 0 := by
  have hrun : (Transition.run (Transition.guarded State.step Guarded)
      (State.new .darc fun _ _ => 0) dropBoth).map (·.itemDropped 0) = some true := by
    decide +kernel
  obtain ⟨s, hs, hdropped⟩ := Option.map_eq_some_iff.mp hrun
  have hinit : InitialZeroed (State.new .darc fun _ _ => 0 : State 2) :=
    ⟨⟨_, _, by decide, rfl⟩, fun _ _ _ => rfl⟩
  exact ⟨s, hs, hdropped, item_outlives_handles 2 s (Transition.Reach.run_guarded (.init hinit) hs)
    0 (Or.inl hdropped)⟩

set_option maxRecDepth 10000 in
/-- PE 0 drops its item while PE 1 has a strong handle: the test on PE 1 has accepted it. -/
theorem item_dropped_under_handle :
    ∃ s : State 2, Reachable s ∧ s.itemDropped 0 = true ∧ s.handles 1 ≠ 0 := by
  have hrun : (Transition.run State.step (State.new .darc fun _ _ => 0)
      dropBeforeDelivery).map (fun s => (s.itemDropped 0, s.handles 1)) = some (true, {0}) := by
    decide +kernel
  obtain ⟨s, hs, hresult⟩ := Option.map_eq_some_iff.mp hrun
  simp only [Prod.mk.injEq] at hresult
  refine ⟨s, Transition.Reach.run (.init ⟨_, _, by decide, rfl⟩) hs, hresult.1, ?_⟩
  rw [hresult.2]
  decide

end Lamellar.Darc
