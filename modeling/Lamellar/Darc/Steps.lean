import Lamellar.Darc.Model

/-!
# What one step does

`TaskStep s p t s'` lists the steps of the task `t` of PE `p` with their guards, one
constructor for each way through `runTask`, and `OpStep` lists the operations on handles.
Every invariant of the development is checked against these lists (`step_cases`).

A PE may begin a task while it has another one, a conversion beside a `DroppedWaitAM` for
instance, and both then go through the same barriers: `Overlap`. Where every task is begun
on a PE that has none (`StartsAlone`), there is no such step (`Single.cases`).
-/

namespace Lamellar.Darc

variable {P : ℕ}

open State

inductive TaskStep (s : State P) (p : Fin P) (t : Task P) : State P → Prop
  | startSolo (hpc : t.pc = .start) (hP : P = 1) :
      TaskStep s p t ((s.called p).setTask p { t with pc := .soloTest })
  | enterInitial (hpc : t.pc = .start) (hP : P ≠ 1) :
      TaskStep s p t ((s.called p).enter p t .initial)
  | passInitial (hpc : t.pc = .await .initial) (hall : ∀ r, s.entered p ≤ s.entered r) :
      TaskStep s p t (s.setTask p t.head)
  | passCounted (hpc : t.pc = .await .counted) (hall : ∀ r, s.entered p ≤ s.entered r) :
      TaskStep s p t (s.setTask p { t with pc := .checkLocal })
  | passChecked (hpc : t.pc = .await .checked) (hall : ∀ r, s.entered p ≤ s.entered r) :
      TaskStep s p t (s.setTask p { t with pc := .putIds Finset.univ })
  | passVoted (hpc : t.pc = .await .voted) (hall : ∀ r, s.entered p ≤ s.entered r) :
      TaskStep s p t (s.setTask p { t with pc := .readIds Finset.univ })
  | passFinal (hpc : t.pc = .await .final) (hall : ∀ r, s.entered p ≤ s.entered r)
      (hdrop : t.state = .dropped) :
      TaskStep s p t (s.setTask p { t with pc := .waitDropped Finset.univ })
  | returnFinal (hpc : t.pc = .await .final) (hall : ∀ r, s.entered p ≤ s.entered r)
      (hconv : t.state ≠ .dropped) : TaskStep s p t (s.returned p)
  | localTest (hpc : t.pc = .localTest) (hcnt : s.localCnt p ≤ 1) :
      TaskStep s p t (s.setTask p { t with pc := .sendFinished })
  | sendFinished (hpc : t.pc = .sendFinished) :
      TaskStep s p t ((s.sendFinished p).setTask p { t with pc := .readRefs Finset.univ })
  | readRef (q : Fin P) (todo : Finset (Fin P)) (hpc : t.pc = .readRefs todo) (hq : q ∈ todo) :
      TaskStep s p t (s.setTask p
        { t with
          oldRefCnts := Function.update t.oldRefCnts q (s.totalRefCnts p q)
          pc := .readRefs (todo.erase q) })
  | readLocal (hpc : t.pc = .readRefs ∅) :
      TaskStep s p t (s.setTask p { t with oldLocalCnt := s.totalLocalCnt p, pc := .readDist })
  | readDist (hpc : t.pc = .readDist) :
      TaskStep s p t (s.setTask p
        { t with oldDistCnt := s.totalDistCnt p, pc := .putRefs Finset.univ })
  | keepRef (q : Fin P) (todo : Finset (Fin P)) (hpc : t.pc = .putRefs todo) (hq : q ∈ todo)
      (hsame : t.prevRefCnts q = t.oldRefCnts q) :
      TaskStep s p t (s.setTask p { t with pc := .putRefs (todo.erase q) })
  | putRef (q : Fin P) (todo : Finset (Fin P)) (hpc : t.pc = .putRefs todo) (hq : q ∈ todo)
      (hdiff : t.prevRefCnts q ≠ t.oldRefCnts q) :
      TaskStep s p t ((s.putRef p q (t.oldRefCnts q)).setTask p
        { t with outstandingRefs := true, barrierId := 0, pc := .putRefs (todo.erase q) })
  | enterCounted (hpc : t.pc = .putRefs ∅) : TaskStep s p t (s.enter p t .counted)
  | checkLocal (hpc : t.pc = .checkLocal) :
      TaskStep s p t (s.setTask p
        { t.flag (t.oldLocalCnt ≠ s.totalLocalCnt p) with pc := .checkDist })
  | checkDist (hpc : t.pc = .checkDist) :
      TaskStep s p t (s.setTask p
        { t.flag (t.oldDistCnt ≠ s.totalDistCnt p) with pc := .checkRefs Finset.univ 0 })
  | checkRef (q : Fin P) (todo : Finset (Fin P)) (sum : ℕ) (hpc : t.pc = .checkRefs todo sum)
      (hq : q ∈ todo) :
      TaskStep s p t (s.setTask p
        { t.flag (t.oldRefCnts q ≠ s.totalRefCnts p q) with
          pc := .checkRefs (todo.erase q) (sum + s.modeRefCnts p q) })
  | enterChecked (sum : ℕ) (hpc : t.pc = .checkRefs ∅ sum) :
      TaskStep s p t (s.enter p (t.flag (sum ≠ t.oldDistCnt)).resetId .checked)
  | putId (q : Fin P) (todo : Finset (Fin P)) (hpc : t.pc = .putIds todo) (hq : q ∈ todo) :
      TaskStep s p t ((s.putId p q t.barrierId).setTask p { t with pc := .putIds (todo.erase q) })
  | enterVoted (hpc : t.pc = .putIds ∅) : TaskStep s p t (s.enter p t .voted)
  | readId (q : Fin P) (todo : Finset (Fin P)) (hpc : t.pc = .readIds todo) (hq : q ∈ todo) :
      TaskStep s p t (s.setTask p
        { t.flag (s.modeBarriers p q = 0) with pc := .readIds (todo.erase q) })
  | loop (hpc : t.pc = .readIds ∅) (hflag : t.outstandingRefs = true) :
      TaskStep s p t (s.setTask p t.nextRound.head)
  | exit (hpc : t.pc = .readIds ∅) (hflag : t.outstandingRefs = false) :
      TaskStep s p t (s.setTask p { t.nextRound with pc := .storeMode })
  | storeMode (hpc : t.pc = .storeMode) :
      TaskStep s p t ((s.putMode p p t.state).setTask p { t with pc := .putModes Finset.univ })
  | putMode (q : Fin P) (todo : Finset (Fin P)) (hpc : t.pc = .putModes todo) (hq : q ∈ todo) :
      TaskStep s p t ((s.putMode p q t.state).setTask p { t with pc := .putModes (todo.erase q) })
  | modesPut (hpc : t.pc = .putModes ∅) :
      TaskStep s p t (s.setTask p { t with pc := .waitModes Finset.univ })
  | waitMode (q : Fin P) (todo : Finset (Fin P)) (hpc : t.pc = .waitModes todo) (hq : q ∈ todo)
      (hmode : s.modes p q = t.state) :
      TaskStep s p t (s.setTask p { t with pc := .waitModes (todo.erase q) })
  | spin (hpc : (∃ todo, t.pc = .waitModes todo) ∨ (∃ todo, t.pc = .waitDropped todo) ∨
      t.pc = .waitDist) : TaskStep s p t (s.sendFinished p)
  | enterFinal (hpc : t.pc = .waitModes ∅) : TaskStep s p t (s.enter p t .final)
  | waitDropped (q : Fin P) (todo : Finset (Fin P)) (hpc : t.pc = .waitDropped todo)
      (hq : q ∈ todo) (hmode : s.modes p q = .dropped) :
      TaskStep s p t (s.setTask p { t with pc := .waitDropped (todo.erase q) })
  | allDropped (hpc : t.pc = .waitDropped ∅) :
      TaskStep s p t (s.setTask p { t with pc := .invalidate })
  | invalidate (hpc : t.pc = .invalidate) :
      TaskStep s p t ({ s with valid := Function.update s.valid p false }.setTask p
        { t with pc := .waitDist })
  | waitDist (hpc : t.pc = .waitDist) (hdist : s.distCnt p = 0) :
      TaskStep s p t (s.setTask p { t with pc := .waitLocal })
  | waitLocal (hpc : t.pc = .waitLocal) (hlocal : s.localCnt p = 0) :
      TaskStep s p t (s.setTask p { t with pc := .dropItem })
  | retry (hpc : t.pc = .waitLocal) (hlocal : s.localCnt p ≠ 0) :
      TaskStep s p t (s.setTask p { t with pc := .waitDist })
  | dropItem (hpc : t.pc = .dropItem) :
      TaskStep s p t ({ s with itemDropped := Function.update s.itemDropped p true }.setTask p
        { t with pc := .waitWeak })
  | waitWeak (hpc : t.pc = .waitWeak) (hweak : s.weakLocalCnt p = 0) :
      TaskStep s p t (s.setTask p { t with pc := .free })
  | free (hpc : t.pc = .free) :
      TaskStep s p t ({ s with freed := Function.update s.freed p true }.setTask p
        { t with pc := .done })
  | soloTest (hpc : t.pc = .soloTest) (hcnt : s.localCnt p ≤ 1) :
      TaskStep s p t (s.setTask p { t with pc := .soloStore })
  | soloStore (hpc : t.pc = .soloStore) (hdrop : t.state = .dropped) :
      TaskStep s p t ((s.putMode p p t.state).setTask p { t with pc := .waitDropped Finset.univ })
  | soloReturn (hpc : t.pc = .soloStore) (hconv : t.state ≠ .dropped) :
      TaskStep s p t ((s.putMode p p t.state).returned p)

theorem runTask_cases {s s' : State P} {p q : Fin P} {t : Task P}
    (h : s.runTask p t q = some s') : TaskStep s p t s' := by
  unfold runTask at h
  split at h
  case h_1 hpc =>
    split at h
    · cases h
      exact .startSolo hpc ‹_›
    · cases h
      exact .enterInitial hpc ‹_›
  case h_2 b hpc =>
    split at h
    · rename_i hall
      cases h
      cases b with
      | initial => exact .passInitial hpc hall
      | counted => exact .passCounted hpc hall
      | checked => exact .passChecked hpc hall
      | voted => exact .passVoted hpc hall
      | final =>
        simp only [passBarrier, finishCall]
        split
        · exact .passFinal hpc hall ‹_›
        · exact .returnFinal hpc hall ‹_›
    · cases h
  case h_3 hpc =>
    split at h
    · cases h
      exact .localTest hpc ‹_›
    · cases h
  case h_4 hpc =>
    cases h
    exact .sendFinished hpc
  case h_5 todo hpc =>
    split at h
    · cases h
      exact .readRef q todo hpc ‹_›
    · split at h
      · cases h
        subst todo
        exact .readLocal hpc
      · cases h
  case h_6 hpc =>
    cases h
    exact .readDist hpc
  case h_7 todo hpc =>
    split at h
    · rename_i hq
      cases h
      by_cases hdiff : t.prevRefCnts q ≠ t.oldRefCnts q
      · simp only [if_pos hdiff, Task.flagRef]
        exact .putRef q todo hpc hq hdiff
      · simp only [if_neg hdiff, Task.flagRef]
        exact .keepRef q todo hpc hq (not_not.mp hdiff)
    · split at h
      · cases h
        subst todo
        exact .enterCounted hpc
      · cases h
  case h_8 hpc =>
    cases h
    exact .checkLocal hpc
  case h_9 hpc =>
    cases h
    exact .checkDist hpc
  case h_10 todo sum hpc =>
    split at h
    · cases h
      exact .checkRef q todo sum hpc ‹_›
    · split at h
      · cases h
        subst todo
        exact .enterChecked sum hpc
      · cases h
  case h_11 todo hpc =>
    split at h
    · cases h
      exact .putId q todo hpc ‹_›
    · split at h
      · cases h
        subst todo
        exact .enterVoted hpc
      · cases h
  case h_12 todo hpc =>
    split at h
    · cases h
      exact .readId q todo hpc ‹_›
    · split at h
      · cases h
        subst todo
        simp only [endRound]
        split
        · exact .loop hpc ‹_›
        · rename_i hflag
          exact .exit hpc (Bool.eq_false_iff.mpr hflag)
      · cases h
  case h_13 hpc =>
    cases h
    exact .storeMode hpc
  case h_14 todo hpc =>
    split at h
    · cases h
      exact .putMode q todo hpc ‹_›
    · split at h
      · cases h
        subst todo
        exact .modesPut hpc
      · cases h
  case h_15 todo hpc =>
    split at h
    · rename_i hq
      split at h
      · cases h
        exact .waitMode q todo hpc hq ‹_›
      · split at h
        · cases h
          exact .spin (Or.inl ⟨todo, hpc⟩)
        · cases h
    · split at h
      · cases h
        subst todo
        exact .enterFinal hpc
      · cases h
  case h_16 todo hpc =>
    split at h
    · rename_i hq
      split at h
      · cases h
        exact .waitDropped q todo hpc hq ‹_›
      · split at h
        · cases h
          exact .spin (Or.inr (Or.inl ⟨todo, hpc⟩))
        · cases h
    · split at h
      · cases h
        subst todo
        exact .allDropped hpc
      · cases h
  case h_17 hpc =>
    cases h
    exact .invalidate hpc
  case h_18 hpc =>
    split at h
    · cases h
      exact .waitDist hpc ‹_›
    · split at h
      · cases h
        exact .spin (Or.inr (Or.inr hpc))
      · cases h
  case h_19 hpc =>
    split at h
    · cases h
      exact .waitLocal hpc ‹_›
    · cases h
      exact .retry hpc ‹_›
  case h_20 hpc =>
    cases h
    exact .dropItem hpc
  case h_21 hpc =>
    split at h
    · cases h
      exact .waitWeak hpc ‹_›
    · cases h
  case h_22 hpc =>
    cases h
    exact .free hpc
  case h_23 hpc => cases h
  case h_24 hpc =>
    split at h
    · cases h
      exact .soloTest hpc ‹_›
    · cases h
  case h_25 hpc =>
    cases h
    simp only [finishCall]
    split
    · exact .soloStore hpc ‹_›
    · exact .soloReturn hpc ‹_›

/-! ## Operations on handles -/

/-- The operations on handles, with their guards. -/
inductive OpStep (s : State P) : Action P → State P → Prop
  | clone (p : Fin P) (g : ℕ) (hg : g ∈ s.handles p) :
      OpStep s (.clone p g) (s.cloned p g)
  | drop (p : Fin P) (g : ℕ) (hg : g ∈ s.handles p) :
      OpStep s (.drop p g) (s.uncounted p g)
  | dropOn (p : Fin P) (pc : DropPc) (next : Multiset DropPc) :
      OpStep s (.runDrop p pc) (s.dropOn p pc next)
  | dropSending (p : Fin P) (pc : DropPc) (next : Multiset DropPc) :
      OpStep s (.runDrop p pc) ((s.dropOn p pc next).sendFinished p)
  | launch (p : Fin P) (pc : DropPc) (next : Multiset DropPc) (hmode : s.modes p p ≠ .dropped)
      (htask : s.task p = none) : OpStep s (.runDrop p pc) ((s.dropOn p pc next).launched p)
  | serialize (p : Fin P) (g : ℕ) (dsts : List (Fin P)) (hg : g ∈ s.handles p)
      (hdsts : p ∉ dsts) : OpStep s (.serialize p g dsts) (s.serialized p g dsts)
  | deliver (m : NetworkDarc P) (hm : m ∈ s.inFlight) (hnew : m.opened = false) :
      OpStep s (.deliver m) (s.opened m)
  | credit (m : NetworkDarc P) (hm : m ∈ s.inFlight) (hopen : m.opened = true) :
      OpStep s (.credit m) (s.credited m)
  | hold (m : NetworkDarc P) (hm : m ∈ s.arriving) : OpStep s (.hold m) (s.held m)
  | settle (p : Fin P) : OpStep s (.settle p) (s.settled p)
  | execFinished (m : FinishedAm P) (hm : m ∈ s.finished) :
      OpStep s (.execFinished m) (s.executed m)
  | downgrade (p : Fin P) (g cnt : ℕ) (weak : Multiset ℕ) :
      OpStep s (.downgrade p g) (s.reweakened p cnt weak)
  | weakClone (p : Fin P) (g cnt : ℕ) (weak : Multiset ℕ) :
      OpStep s (.weakClone p g) (s.reweakened p cnt weak)
  | weakDrop (p : Fin P) (g cnt : ℕ) (weak : Multiset ℕ) :
      OpStep s (.weakDrop p g) (s.reweakened p cnt weak)
  | upgrade (p : Fin P) (g : ℕ) (hg : g ∈ s.weakHandles p) (hvalid : s.valid p = true) :
      OpStep s (.upgrade p g) (s.cloned p g)
  | upgradeFailed (p : Fin P) (g : ℕ) (hvalid : s.valid p = false) :
      OpStep s (.upgrade p g) (s.upgradeFailed p)
  | convert (p : Fin P) (g : ℕ) (state : DarcMode) (hg : g ∈ s.handles p)
      (htask : s.task p = none) (hstate : state ≠ .dropped) :
      OpStep s (.convert p g state) (s.converting p g state)

/-- The steps that begin a task on a PE that has one, or change to another one. -/
inductive Overlap (s : State P) : Action P → State P → Prop
  | launch (p : Fin P) (next : Multiset DropPc) (hmode : s.modes p p ≠ .dropped)
      (htask : s.task p ≠ none) :
      Overlap s (.runDrop p .exchange) ((s.dropOn p .exchange next).launched p)
  | convert (p : Fin P) (g : ℕ) (state : DarcMode) (htask : s.task p ≠ none) :
      Overlap s (.convert p g state) (s.converting p g state)
  | switch (p : Fin P) (i : ℕ) (t : Task P) (ht : t ∈ s.suspended p) :
      Overlap s (.switch p i) (s.switched p i t)

theorem runDrop_cases {s s' : State P} {p : Fin P} {pc : DropPc}
    (h : s.runDrop p pc = some s') :
    OpStep s (.runDrop p pc) s' ∨ Overlap s (.runDrop p pc) s' := by
  simp only [State.runDrop] at h
  split at h
  · cases pc with
    | sendFinished =>
      simp only [Option.some.injEq] at h
      subst h
      split
      · exact Or.inl (.dropSending p _ _)
      · exact Or.inl (.dropOn p _ _)
    | localTest =>
      cases h
      exact Or.inl (.dropOn p _ _)
    | exchange =>
      simp only [Option.some.injEq] at h
      subst h
      split
      · rename_i hmode
        by_cases htask : s.task p = none
        · exact Or.inl (.launch p _ _ hmode htask)
        · exact Or.inr (.launch p _ hmode htask)
      · exact Or.inl (.dropOn p _ _)
  · cases h

/-- A step is an operation on handles, a step of a task, or makes a PE have several tasks. -/
theorem step_cases {s s' : State P} {a : Action P} (h : s.step a = some s') :
    (OpStep s a s' ∨ Overlap s a s') ∨
      ∃ p q t, a = .run p q ∧ s.task p = some t ∧ TaskStep s p t s' := by
  cases a with
  | clone p g =>
    simp only [State.step, State.clone] at h
    split at h
    · cases h
      exact Or.inl (Or.inl (.clone p g ‹_›))
    · cases h
  | drop p g =>
    simp only [State.step, State.drop] at h
    split at h
    · cases h
      exact Or.inl (Or.inl (.drop p g ‹_›))
    · cases h
  | runDrop p pc => exact Or.inl (runDrop_cases h)
  | serialize p g dsts =>
    simp only [State.step, State.serialize] at h
    split at h
    · rename_i hguard
      cases h
      exact Or.inl (Or.inl (.serialize p g dsts hguard.1 hguard.2))
    · cases h
  | deliver m =>
    simp only [State.step, State.deliver] at h
    split at h
    · rename_i hguard
      cases h
      exact Or.inl (Or.inl (.deliver m hguard.1 hguard.2))
    · cases h
  | credit m =>
    simp only [State.step, State.credit] at h
    split at h
    · rename_i hguard
      cases h
      exact Or.inl (Or.inl (.credit m hguard.1 hguard.2))
    · cases h
  | hold m =>
    simp only [State.step, State.hold] at h
    split at h
    · cases h
      exact Or.inl (Or.inl (.hold m ‹_›))
    · cases h
  | settle p =>
    simp only [State.step, State.settle] at h
    split at h
    · cases h
      exact Or.inl (Or.inl (.settle p))
    · cases h
  | execFinished m =>
    simp only [State.step, State.execFinished] at h
    split at h
    · cases h
      exact Or.inl (Or.inl (.execFinished m ‹_›))
    · cases h
  | downgrade p g =>
    simp only [State.step, State.downgrade] at h
    split at h
    · cases h
      exact Or.inl (Or.inl (.downgrade p g _ _))
    · cases h
  | weakClone p g =>
    simp only [State.step, State.weakClone] at h
    split at h
    · cases h
      exact Or.inl (Or.inl (.weakClone p g _ _))
    · cases h
  | weakDrop p g =>
    simp only [State.step, State.weakDrop] at h
    split at h
    · cases h
      exact Or.inl (Or.inl (.weakDrop p g _ _))
    · cases h
  | upgrade p g =>
    simp only [State.step, State.upgrade] at h
    split at h
    · split at h
      · cases h
        exact Or.inl (Or.inl (.upgrade p g ‹_› ‹_›))
      · rename_i hvalid
        cases h
        exact Or.inl (Or.inl (.upgradeFailed p g (Bool.eq_false_iff.mpr hvalid)))
    · cases h
  | convert p g state =>
    simp only [State.step, State.convert] at h
    split at h
    · rename_i hguard
      cases h
      by_cases htask : s.task p = none
      · exact Or.inl (Or.inl (.convert p g state hguard.1 htask hguard.2))
      · exact Or.inl (Or.inr (.convert p g state htask))
    · cases h
  | switch p i =>
    obtain ⟨t, ht, rfl⟩ := Option.map_eq_some_iff.mp h
    exact Or.inl (Or.inr (.switch p i t (List.mem_of_getElem? ht)))
  | run p q =>
    simp only [State.step] at h
    split at h
    · rename_i t ht
      exact Or.inr ⟨p, q, t, rfl, ht, runTask_cases h⟩
    · cases h

/-! ## One task on every PE -/

/-- The step does not begin a `block_on_outstanding` on a PE where one runs. -/
def StartsAlone (s : State P) : Action P → Prop
  | .convert p _ _ => s.task p = none
  | .runDrop p .exchange => s.modes p p ≠ .dropped → s.task p = none
  | _ => True

instance (s : State P) (a : Action P) : Decidable (StartsAlone s a) :=
  match a with
  | .convert p _ _ => inferInstanceAs (Decidable (s.task p = none))
  | .runDrop p .exchange => inferInstanceAs (Decidable (s.modes p p ≠ .dropped → s.task p = none))
  | .runDrop _ .sendFinished | .runDrop _ .localTest | .clone _ _ | .drop _ _
  | .serialize _ _ _ | .deliver _ | .credit _ | .hold _ | .settle _ | .execFinished _
  | .downgrade _ _ | .weakClone _ _ | .weakDrop _ _ | .upgrade _ _ | .switch _ _ | .run _ _ =>
    isTrue trivial

/-- No PE has a task besides the one that it steps. -/
def Single (s : State P) : Prop := ∀ p, s.suspended p = []

theorem Single.cases {s s' : State P} {a : Action P} (h : Single s) (ha : StartsAlone s a)
    (hs : s.step a = some s') :
    OpStep s a s' ∨ ∃ p q t, a = .run p q ∧ s.task p = some t ∧ TaskStep s p t s' := by
  rcases step_cases hs with (hop | hover) | hrun
  · exact Or.inl hop
  · cases hover with
    | launch p next hmode htask => exact absurd (ha hmode) htask
    | convert p g state htask => exact absurd ha htask
    | switch p i t ht => simp [h p] at ht
  · exact Or.inr hrun

end Lamellar.Darc
