import Lamellar.GlobalRw.Model

/-!
# What one step of a call does

`CallStep l c l' c'` lists the steps of a call with the type of its lock. It needs that a call
is only ever where its lock type leads (`Call.Typed`).
-/

namespace Lamellar.GlobalRw

variable {P : ℕ}

/-- The lock type of a call, its PE and its guards fit where it stands. -/
def Call.Typed (c : Call P) : Prop :=
  match c.pc with
  | .readWait | .readAdd | .readCheck | .readBack | .readSub => c.lockType = .read ∧ c.guards = 0
  | .writerSwap | .writerReaders =>
    (c.lockType = .write ∨ ∃ k, c.lockType = .collectiveWrite k ∧ c.pe.val = 0) ∧ c.guards = 0
  | .collectiveWriter | .collectiveReaders =>
    (∃ k, c.lockType = .collectiveWrite k) ∧ c.pe.val ≠ 0 ∧ c.guards = 0
  | .collectiveSub | .collectiveZero | .collectiveCheck | .collectiveAdd | .collectiveFull =>
    (∃ k, c.lockType = .collectiveWrite k) ∧ c.guards = 0
  | .collectiveRelease => (∃ k, c.lockType = .collectiveWrite k) ∧ c.pe.val = 0 ∧ c.guards = 0
  | .held => 0 < c.guards ∧ c.localCnt = c.guards ∧ (c.lockType ≠ .read → c.guards = 1)
  | .writerRelease => c.lockType = .write ∧ c.guards = 0
  | .done | .panicked => c.guards = 0

inductive CallStep (l : DistRwLock) (c : Call P) : DistRwLock → Call P → Prop
  | readWait (ht : c.lockType = .read) (hpc : c.pc = .readWait) (hw : l.writer = P) :
      CallStep l c l { c with pc := .readAdd }
  | readAdd (ht : c.lockType = .read) (hpc : c.pc = .readAdd) :
      CallStep l c { l with readers := l.readers + 1 } { c with pc := .readCheck }
  | readCheck (ht : c.lockType = .read) (hpc : c.pc = .readCheck) (hw : l.writer = P) :
      CallStep l c l c.acquired
  | readFail (ht : c.lockType = .read) (hpc : c.pc = .readCheck) (hw : l.writer ≠ P) :
      CallStep l c l { c with pc := .readBack }
  | readBack (ht : c.lockType = .read) (hpc : c.pc = .readBack) :
      CallStep l c { l with readers := l.readers - 1 } { c with pc := .readWait }
  | readSub (ht : c.lockType = .read) (hpc : c.pc = .readSub) :
      CallStep l c { l with readers := l.readers - 1 } { c with pc := .done }
  | readClone (ht : c.lockType = .read) (hpc : c.pc = .held) :
      CallStep l c l { c with localCnt := c.localCnt + 1, guards := c.guards + 1 }
  | readDrop (ht : c.lockType = .read) (hpc : c.pc = .held) (hmore : c.localCnt ≠ 1) :
      CallStep l c l { c with localCnt := c.localCnt - 1, guards := c.guards - 1 }
  | readDropLast (ht : c.lockType = .read) (hpc : c.pc = .held) (hlast : c.localCnt = 1) :
      CallStep l c l
        { c with localCnt := c.localCnt - 1, guards := c.guards - 1, pc := .readSub }
  | writeSwap (ht : c.lockType = .write) (hpc : c.pc = .writerSwap) (hw : l.writer = P) :
      CallStep l c { l with writer := c.id } { c with pc := .writerReaders }
  | writeReaders (ht : c.lockType = .write) (hpc : c.pc = .writerReaders)
      (hr : l.readers = 0) : CallStep l c l c.acquired
  | writeDrop (ht : c.lockType = .write) (hpc : c.pc = .held) :
      CallStep l c l { c with guards := c.guards - 1, pc := .writerRelease }
  | writeRelease (ht : c.lockType = .write) (hpc : c.pc = .writerRelease)
      (hw : l.writer = c.id) : CallStep l c { l with writer := P } { c with pc := .done }
  | writePanic (ht : c.lockType = .write) (hpc : c.pc = .writerRelease)
      (hw : l.writer ≠ c.id) : CallStep l c l { c with pc := .panicked }
  | collSwap (k : ℕ) (ht : c.lockType = .collectiveWrite k) (hpe : c.pe.val = 0)
      (hpc : c.pc = .writerSwap) (hw : l.writer = P) :
      CallStep l c { l with writer := c.id } { c with pc := .writerReaders }
  | collOwner (k : ℕ) (ht : c.lockType = .collectiveWrite k) (hpe : c.pe.val = 0)
      (hpc : c.pc = .writerReaders) (hr : l.readers = 0) :
      CallStep l c l { c with pc := .collectiveSub }
  | collWriter (k : ℕ) (ht : c.lockType = .collectiveWrite k) (hpe : c.pe.val ≠ 0)
      (hpc : c.pc = .collectiveWriter) (hw : l.writer = c.id) :
      CallStep l c l { c with pc := .collectiveReaders }
  | collReaders (k : ℕ) (ht : c.lockType = .collectiveWrite k) (hpe : c.pe.val ≠ 0)
      (hpc : c.pc = .collectiveReaders) (hr : l.readers = 0) :
      CallStep l c l { c with pc := .collectiveSub }
  | collSub (k : ℕ) (ht : c.lockType = .collectiveWrite k) (hpc : c.pc = .collectiveSub) :
      CallStep l c { l with collectiveWriter := l.collectiveWriter - 1 }
        { c with pc := .collectiveZero }
  | collZero (k : ℕ) (ht : c.lockType = .collectiveWrite k) (hpc : c.pc = .collectiveZero)
      (hz : l.collectiveWriter = 0) : CallStep l c l c.acquired
  | collDrop (k : ℕ) (ht : c.lockType = .collectiveWrite k) (hpc : c.pc = .held) :
      CallStep l c l { c with guards := c.guards - 1, pc := .collectiveCheck }
  | collCheck (k : ℕ) (ht : c.lockType = .collectiveWrite k) (hpc : c.pc = .collectiveCheck)
      (hw : l.writer = c.id) : CallStep l c l { c with pc := .collectiveAdd }
  | collCheckPanic (k : ℕ) (ht : c.lockType = .collectiveWrite k)
      (hpc : c.pc = .collectiveCheck) (hw : l.writer ≠ c.id) :
      CallStep l c l { c with pc := .panicked }
  | collAdd (k : ℕ) (ht : c.lockType = .collectiveWrite k) (hpc : c.pc = .collectiveAdd) :
      CallStep l c { l with collectiveWriter := l.collectiveWriter + 1 }
        { c with pc := .collectiveFull }
  | collFull (k : ℕ) (ht : c.lockType = .collectiveWrite k) (hpe : c.pe.val = 0)
      (hpc : c.pc = .collectiveFull) (hf : l.collectiveWriter = P) :
      CallStep l c l { c with pc := .collectiveRelease }
  | collDone (k : ℕ) (ht : c.lockType = .collectiveWrite k) (hpe : c.pe.val ≠ 0)
      (hpc : c.pc = .collectiveFull) (hf : l.collectiveWriter = P) :
      CallStep l c l { c with pc := .done }
  | collRelease (k : ℕ) (ht : c.lockType = .collectiveWrite k) (hpe : c.pe.val = 0)
      (hpc : c.pc = .collectiveRelease) (hw : l.writer = c.id) :
      CallStep l c { l with writer := P } { c with pc := .done }
  | collReleasePanic (k : ℕ) (ht : c.lockType = .collectiveWrite k) (hpe : c.pe.val = 0)
      (hpc : c.pc = .collectiveRelease) (hw : l.writer ≠ c.id) :
      CallStep l c l { c with pc := .panicked }

theorem run_cases {l l' : DistRwLock} {c c' : Call P} (hc : c.Typed)
    (h : c.run l = some (l', c')) : CallStep l c l' c' := by
  unfold Call.run at h
  unfold Call.Typed at hc
  cases hpc : c.pc
  all_goals simp only [hpc] at h hc
  case readWait =>
    split at h
    · cases h
      exact .readWait hc.1 hpc ‹_›
    · cases h
  case readAdd =>
    cases h
    exact .readAdd hc.1 hpc
  case readCheck =>
    split at h
    · cases h
      exact .readCheck hc.1 hpc ‹_›
    · cases h
      exact .readFail hc.1 hpc ‹_›
  case readBack =>
    cases h
    exact .readBack hc.1 hpc
  case writerSwap =>
    split at h
    · rename_i hw
      cases h
      rcases hc.1 with ht | ⟨k, ht, hpe⟩
      · exact .writeSwap ht hpc hw
      · exact .collSwap k ht hpe hpc hw
    · cases h
  case writerReaders =>
    split at h
    · rename_i hr
      split at h
      · rename_i k ht
        have hpe : c.pe.val = 0 := by simpa [ht] using hc.1
        cases h
        exact .collOwner k ht hpe hpc hr
      · rename_i ht
        cases h
        exact .writeReaders (hc.1.resolve_right fun ⟨k, hk, _⟩ => ht k hk) hpc hr
    · cases h
  case collectiveWriter =>
    obtain ⟨⟨k, ht⟩, hpe, _⟩ := hc
    split at h
    · cases h
      exact .collWriter k ht hpe hpc ‹_›
    · cases h
  case collectiveReaders =>
    obtain ⟨⟨k, ht⟩, hpe, _⟩ := hc
    split at h
    · cases h
      exact .collReaders k ht hpe hpc ‹_›
    · cases h
  case collectiveSub =>
    obtain ⟨⟨k, ht⟩, _⟩ := hc
    cases h
    exact .collSub k ht hpc
  case collectiveZero =>
    obtain ⟨⟨k, ht⟩, _⟩ := hc
    split at h
    · cases h
      exact .collZero k ht hpc ‹_›
    · cases h
  case held => cases h
  case readSub =>
    cases h
    exact .readSub hc.1 hpc
  case writerRelease =>
    split at h
    · cases h
      exact .writeRelease hc.1 hpc ‹_›
    · cases h
      exact .writePanic hc.1 hpc ‹_›
  case collectiveCheck =>
    obtain ⟨⟨k, ht⟩, _⟩ := hc
    split at h
    · cases h
      exact .collCheck k ht hpc ‹_›
    · cases h
      exact .collCheckPanic k ht hpc ‹_›
  case collectiveAdd =>
    obtain ⟨⟨k, ht⟩, _⟩ := hc
    cases h
    exact .collAdd k ht hpc
  case collectiveFull =>
    obtain ⟨⟨k, ht⟩, _⟩ := hc
    split at h
    · rename_i hf
      split at h
      · cases h
        exact .collFull k ht ‹_› hpc hf
      · cases h
        exact .collDone k ht ‹_› hpc hf
    · cases h
  case collectiveRelease =>
    obtain ⟨⟨k, ht⟩, hpe, _⟩ := hc
    split at h
    · cases h
      exact .collRelease k ht hpe hpc ‹_›
    · cases h
      exact .collReleasePanic k ht hpe hpc ‹_›
  case done => cases h
  case panicked => cases h

/-- A call with guards has not launched its `UnlockAm`. -/
theorem Call.Typed.held_of_guards {c : Call P} (hc : c.Typed) (hg : 0 < c.guards) :
    c.pc = .held := by
  unfold Call.Typed at hc
  cases hpc : c.pc
  all_goals simp only [hpc] at hc
  case held => rfl
  all_goals omega

theorem cloneGuard_cases {l : DistRwLock} {c c' : Call P} (hc : c.Typed)
    (h : c.cloneGuard = some c') : CallStep l c l c' ∧ c.pc = .held := by
  unfold Call.cloneGuard at h
  split at h
  · rename_i hguard
    have hpc := hc.held_of_guards hguard.1
    cases h
    exact ⟨.readClone hguard.2 hpc, hpc⟩
  · cases h

theorem dropGuard_cases {l : DistRwLock} {c c' : Call P} (hc : c.Typed)
    (h : c.dropGuard = some c') : CallStep l c l c' ∧ c.pc = .held := by
  unfold Call.dropGuard at h
  split at h
  · rename_i hg
    have hpc := hc.held_of_guards hg
    refine ⟨?_, hpc⟩
    split at h
    · rename_i ht
      cases h
      by_cases hlast : c.localCnt = 1
      · simp only [if_pos hlast]
        exact .readDropLast ht hpc hlast
      · simp only [if_neg hlast]
        exact .readDrop ht hpc hlast
    · cases h
      exact .writeDrop ‹_› hpc
    · cases h
      exact .collDrop _ ‹_› hpc
  · cases h

/-- A step begins a call or is a step of one. -/
theorem step_cases {s s' : State P} {a : Action P} (htyped : ∀ c ∈ s.calls, c.Typed)
    (h : s.step a = some s') :
    (∃ pe, a = .read pe ∧ s' = s.called pe .read .readWait) ∨
      (∃ pe, a = .write pe ∧ s' = s.called pe .write .writerSwap) ∨
      (∃ pe, a = .collectiveWrite pe ∧ s' = s.collectiveWrite pe) ∨
      ∃ c l' c', c ∈ s.calls ∧ CallStep s.lock c l' c' ∧ s' = s.stepped l' c c' ∧
        (a = .run c ∨ c.pc = .held) := by
  cases a with
  | read pe =>
    cases h
    exact Or.inl ⟨pe, rfl, rfl⟩
  | write pe =>
    cases h
    exact Or.inr (Or.inl ⟨pe, rfl, rfl⟩)
  | collectiveWrite pe =>
    cases h
    exact Or.inr (Or.inr (Or.inl ⟨pe, rfl, rfl⟩))
  | run c =>
    simp only [State.step] at h
    split at h
    · rename_i hc
      obtain ⟨⟨l', c'⟩, hrun, rfl⟩ := Option.map_eq_some_iff.mp h
      have hstep := run_cases (htyped c hc) hrun
      exact Or.inr (Or.inr (Or.inr ⟨c, l', c', hc, hstep, rfl, Or.inl rfl⟩))
    · cases h
  | cloneGuard c =>
    simp only [State.step] at h
    split at h
    · rename_i hc
      obtain ⟨c', hclone, rfl⟩ := Option.map_eq_some_iff.mp h
      obtain ⟨hstep, hpc⟩ := cloneGuard_cases (l := s.lock) (htyped c hc) hclone
      exact Or.inr (Or.inr (Or.inr ⟨c, _, c', hc, hstep, rfl, Or.inr hpc⟩))
    · cases h
  | dropGuard c =>
    simp only [State.step] at h
    split at h
    · rename_i hc
      obtain ⟨c', hdrop, rfl⟩ := Option.map_eq_some_iff.mp h
      obtain ⟨hstep, hpc⟩ := dropGuard_cases (l := s.lock) (htyped c hc) hdrop
      exact Or.inr (Or.inr (Or.inr ⟨c, _, c', hc, hstep, rfl, Or.inr hpc⟩))
    · cases h

theorem Call.Typed.callStep {l l' : DistRwLock} {c c' : Call P} (hc : c.Typed)
    (hs : CallStep l c l' c') : c'.Typed := by
  cases hs
  case readClone ht hpc =>
    simp only [Call.Typed, hpc] at hc ⊢
    exact ⟨by omega, by omega, fun hne => absurd ht hne⟩
  case readDrop ht hpc hmore =>
    simp only [Call.Typed, hpc] at hc ⊢
    exact ⟨by omega, by omega, fun hne => absurd ht hne⟩
  case readDropLast ht hpc hlast =>
    simp only [Call.Typed, hpc] at hc ⊢
    exact ⟨ht, by omega⟩
  case writeDrop ht hpc =>
    simp only [Call.Typed, hpc] at hc ⊢
    have hone := hc.2.2 (by simp [ht])
    exact ⟨ht, by omega⟩
  case collDrop k ht hpc =>
    simp only [Call.Typed, hpc] at hc ⊢
    have hone := hc.2.2 (by simp [ht])
    exact ⟨⟨k, ht⟩, by omega⟩
  all_goals simp_all [Call.Typed, Call.acquired]

end Lamellar.GlobalRw
