import Lamellar.GlobalRw.Invariant
import Mathlib.Algebra.BigOperators.Fin
import Mathlib.Data.Finset.Lattice.Fold

/-!
# Collective calls return

The runs of collective calls only, each PE making them one after the other. A PE that enters
its unlock adds to `collective_writer` at once; one that still spins in its lock for a zero
then misses it, and neither ever returns (`collective_stuck`). If nobody adds while somebody
still spins, every call can return from every state (`collective_returns`).
-/

namespace Lamellar.GlobalRw

variable {P : ℕ}

namespace Call

/-- The guard of a collective call has been dropped. -/
def Dropped (c : Call P) : Prop :=
  c.pc = .collectiveCheck ∨ c.pc = .collectiveAdd ∨ c.pc = .collectiveFull ∨
    c.pc = .collectiveRelease ∨ c.pc = .done

/-- A collective call that has joined its unlock. -/
def Added (c : Call P) : Prop :=
  c.pc = .collectiveFull ∨ c.pc = .collectiveRelease ∨ c.pc = .done

instance : DecidablePred (Dropped (P := P)) := fun _ => inferInstanceAs (Decidable (_ ∨ _))

end Call

/-- Collective calls only; a PE begins one when it has dropped the guard of the last. -/
def Collective (s : State P) : Action P → Prop
  | .collectiveWrite pe => ∀ c ∈ s.calls, c.pe = pe → c.Dropped
  | .run _ | .dropGuard _ => True
  | .read _ | .write _ | .cloneGuard _ => False

instance (s : State P) (a : Action P) : Decidable (Collective s a) :=
  match a with
  | .collectiveWrite _ => inferInstanceAs (Decidable (∀ c ∈ s.calls, _))
  | .run _ | .dropGuard _ => isTrue trivial
  | .read _ | .write _ | .cloneGuard _ => isFalse id

/-- Nobody joins an unlock while a PE still waits in a lock for `collective_writer` to be
zero. -/
def NoneLeftSpinning (s : State P) : Action P → Prop
  | .run c => c.pc = .collectiveAdd → ∀ d ∈ s.calls, d.pc ≠ .collectiveZero
  | _ => True

instance (s : State P) (a : Action P) : Decidable (NoneLeftSpinning s a) :=
  match a with
  | .run _ => inferInstanceAs (Decidable (_ → ∀ d ∈ s.calls, _))
  | .read _ | .write _ | .collectiveWrite _ | .cloneGuard _ | .dropGuard _ => isTrue trivial

/-- What collective runs keep in addition to the invariant of the lock. -/
structure Ordered (s : State P) : Prop where
  inv : Inv s
  collective : ∀ c ∈ s.calls, ∃ k, c.lockType = .collectiveWrite k
  made : ∀ pe k, P < k → k < s.collectiveCnt pe →
    ∃ c ∈ s.calls, c.lockType = .collectiveWrite k ∧ c.pe = pe
  latest : ∀ c ∈ s.calls, ∀ k, c.lockType = .collectiveWrite k →
    k + 1 = s.collectiveCnt c.pe ∨ c.Dropped
  spinning : ∀ c ∈ s.calls, ∀ d ∈ s.calls, c.lockType = d.lockType →
    c.pc = .collectiveZero → ¬ d.Added

section Steps

variable {l l' : DistRwLock} {c c' : Call P} {k : ℕ}

theorem callStep_dropped (hs : CallStep l c l' c') (ht : c.lockType = .collectiveWrite k)
    (hcalm : c'.pc ≠ .panicked) (h : c.Dropped) : c'.Dropped := by
  cases hs
  all_goals simp_all [Call.Dropped]

theorem callStep_added (hs : CallStep l c l' c') (h : c'.Added) (hc : c.lockType ≠ .read)
    (hw : c.lockType ≠ .write) : c.Added ∨ c.pc = .collectiveAdd := by
  cases hs
  all_goals simp_all [Call.Added, Call.acquired]

theorem callStep_zero (hs : CallStep l c l' c') (h : c'.pc = .collectiveZero) :
    c.pc = .collectiveSub := by
  cases hs
  all_goals simp_all [Call.acquired]

end Steps

namespace Ordered

variable {s s' : State P} {c : Call P}

theorem stepped {l' : DistRwLock} {c' : Call P} (h : Ordered s) (hc : c ∈ s.calls)
    (hs : CallStep s.lock c l' c')
    (hspin : c.pc = .collectiveAdd → ∀ d ∈ s.calls, d.pc ≠ .collectiveZero) :
    Ordered (s.stepped l' c c') := by
  obtain ⟨hpe, ht, _⟩ := callStep_same hs
  obtain ⟨k, hk⟩ := h.collective c hc
  have hcalm := h.inv.no_panic hc hs
  refine ⟨h.inv.stepped hc hs, ?_, fun pe j hj hlt => ?_, ?_, ?_⟩
  · exact Pool.forall_replace ⟨k, ht.trans hk⟩ h.collective
  · obtain ⟨d, hd, hdj, hdpe⟩ := h.made pe j hj hlt
    by_cases hdc : d = c
    · subst hdc
      exact ⟨c', Pool.mem_replace_self _ _ _, ht.trans hdj, hpe.trans hdpe⟩
    · exact ⟨d, Pool.mem_replace_of_ne hd hdc, hdj, hdpe⟩
  · refine Pool.forall_replace (fun j hj => ?_) h.latest
    rw [ht] at hj
    simp only [State.stepped, hpe]
    exact (h.latest c hc j hj).imp_right (callStep_dropped hs hk hcalm)
  · intro x hx d hd hxd hzero hadded
    rcases Pool.mem_replace hx with rfl | hxold
    · have hsub := callStep_zero hs hzero
      rcases Pool.mem_replace hd with rfl | hd
      · simp [Call.Added, hzero] at hadded
      · have hentered : d.Entered := by
          simp only [Call.Added, Call.Entered] at hadded ⊢
          tauto
        have hck := (h.inv.entered d hd k (by rw [← hxd, ht, hk]) hentered).2 c hc hk
        simp [Call.Entered, hsub] at hck
    · rcases Pool.mem_replace hd with rfl | hd
      · rcases callStep_added hs hadded (by simp [hk]) (by simp [hk]) with hold | hadd
        · exact h.spinning x hxold c hc (by rw [hxd, ht]) hzero hold
        · exact hspin hadd x hxold hzero
      · exact h.spinning x hxold d hd hxd hzero hadded

theorem collectiveWrite (h : Ordered s) {pe : Fin P}
    (hidle : ∀ c ∈ s.calls, c.pe = pe → c.Dropped) : Ordered (s.collectiveWrite pe) := by
  have hpc : (if pe.val = 0 then Pc.writerSwap else .collectiveWriter) = .writerSwap ∨
      (if pe.val = 0 then Pc.writerSwap else .collectiveWriter) = .collectiveWriter := by
    by_cases hpe : pe.val = 0
    · exact Or.inl (if_pos hpe)
    · exact Or.inr (if_neg hpe)
  refine ⟨h.inv.collectiveWrite pe, ?_, fun q j hj hlt => ?_, ?_, ?_⟩
  · exact Multiset.forall_mem_cons.mpr ⟨⟨_, rfl⟩, h.collective⟩
  · by_cases hlast : q = pe ∧ j = s.collectiveCnt pe
    · obtain ⟨rfl, rfl⟩ := hlast
      exact ⟨_, Multiset.mem_cons_self _ _, rfl, rfl⟩
    · have hold : j < s.collectiveCnt q := by
        simp only [State.collectiveWrite] at hlt
        by_cases hq : q = pe
        · subst hq
          rw [Function.update_self] at hlt
          have hne : j ≠ s.collectiveCnt q := fun heq => hlast ⟨rfl, heq⟩
          omega
        · rwa [Function.update_of_ne hq] at hlt
      obtain ⟨d, hd, hdj, hdpe⟩ := h.made q j hj hold
      exact ⟨d, Multiset.mem_cons_of_mem hd, hdj, hdpe⟩
  · refine Multiset.forall_mem_cons.mpr ⟨fun j hj => ?_, fun d hd j hj => ?_⟩
    · cases hj
      simp [State.collectiveWrite]
    · by_cases hdpe : d.pe = pe
      · exact Or.inr (hidle d hd hdpe)
      · simp only [State.collectiveWrite, Function.update_of_ne hdpe]
        exact h.latest d hd j hj
  · refine Multiset.forall_mem_cons.mpr ⟨fun d _ _ hzero => ?_, fun x hx => ?_⟩
    · rcases hpc with hpc | hpc
      all_goals simp [hpc] at hzero
    · refine Multiset.forall_mem_cons.mpr ⟨fun _ _ hadded => ?_, h.spinning x hx⟩
      rcases hpc with hpc | hpc
      all_goals simp [Call.Added, hpc] at hadded

theorem step {a : Action P} (h : Ordered s) (hok : Collective s a) (hspin : NoneLeftSpinning s a)
    (hs : s.step a = some s') : Ordered s' := by
  rcases step_cases h.inv.typed hs with ⟨pe, rfl, _⟩ | ⟨pe, rfl, _⟩ | ⟨pe, rfl, rfl⟩ |
    ⟨c, l', c', hc, hcall, rfl, hact⟩
  · exact hok.elim
  · exact hok.elim
  · exact h.collectiveWrite hok
  · refine h.stepped hc hcall (fun hadd => ?_)
    rcases hact with rfl | hheld
    · exact hspin hadd
    · simp [hadd] at hheld

theorem init : Ordered (State.new : State P) := by
  refine ⟨Inv.init, ?_, fun pe k hlow hhigh => ?_, ?_, ?_⟩
  case refine_2 =>
    simp only [State.new] at hhigh
    omega
  all_goals
    intro c hc
    simp [State.new] at hc

end Ordered

/-! ## Progress -/

/-- Some call can take a step. -/
def Advances (s : State P) : Prop :=
  ∃ a c l' c', Collective s a ∧ NoneLeftSpinning s a ∧ c ∈ s.calls ∧
    CallStep s.lock c l' c' ∧ s.step a = some (s.stepped l' c c')

/-- Where a collective call waits for others. -/
def Call.Waits (c : Call P) : Prop :=
  c.pc = .writerSwap ∨ c.pc = .collectiveWriter ∨ c.pc = .collectiveZero ∨
    c.pc = .collectiveAdd ∨ c.pc = .collectiveFull ∨ c.pc = .done

namespace Ordered

variable {s : State P} {c : Call P}

theorem advances_of_run (h : Ordered s) (hc : c ∈ s.calls) (hrun : (c.run s.lock).isSome)
    (hspin : c.pc = .collectiveAdd → ∀ d ∈ s.calls, d.pc ≠ .collectiveZero) : Advances s := by
  obtain ⟨⟨l', c'⟩, hrun⟩ := Option.isSome_iff_exists.mp hrun
  refine ⟨.run c, c, l', c', trivial, hspin, hc, run_cases (h.inv.typed c hc) hrun, ?_⟩
  simp only [State.step, if_pos hc, hrun, Option.map_some]

theorem no_readers (h : Ordered s) : s.lock.readers = 0 := by
  rw [h.inv.readers, Multiset.countP_eq_zero]
  intro c hc hcounted
  obtain ⟨k, hk⟩ := h.collective c hc
  simp [Call.Counted, hk] at hcounted

/-- A call that does not wait for others takes a step. -/
theorem advances_or_waits (h : Ordered s) (hc : c ∈ s.calls) : Advances s ∨ c.Waits := by
  obtain ⟨k, hk⟩ := h.collective c hc
  have htyped := h.inv.typed c hc
  have hcalm := h.inv.calm c hc
  have hreaders := h.no_readers
  unfold Call.Waits
  cases hpc : c.pc
  all_goals simp only [Call.Typed, hpc, hk] at htyped
  case writerReaders =>
    exact Or.inl (h.advances_of_run hc (by simp [Call.run, hpc, hk, hreaders]) (by simp [hpc]))
  case collectiveReaders =>
    exact Or.inl (h.advances_of_run hc (by simp [Call.run, hpc, hreaders]) (by simp [hpc]))
  case collectiveSub =>
    exact Or.inl (h.advances_of_run hc (by simp [Call.run, hpc]) (by simp [hpc]))
  case held =>
    refine Or.inl ⟨.dropGuard c, c, s.lock, _, trivial, trivial, hc, .collDrop k hk hpc, ?_⟩
    simp [State.step, hc, Call.dropGuard, htyped.1, hk]
  case collectiveCheck =>
    have hw : s.lock.writer = c.id := h.inv.inside c hc (by simp [Call.Inside, hpc, hk])
    exact Or.inl (h.advances_of_run hc (by simp [Call.run, hpc, hw]) (by simp [hpc]))
  case collectiveRelease =>
    have hw : s.lock.writer = c.id :=
      h.inv.ownerId c hc (by simp [Call.Owns, hpc, hk, htyped.2.1])
    exact Or.inl (h.advances_of_run hc (by simp [Call.run, hpc, hw]) (by simp [hpc]))
  case panicked => exact absurd hpc hcalm
  all_goals simp at htyped ⊢

/-- A PE is behind another one and may begin its next collective call. -/
def MayCall (s : State P) (pe : Fin P) : Prop :=
  (∃ q, s.collectiveCnt pe < s.collectiveCnt q) ∧ ∀ c ∈ s.calls, c.pe = pe → c.Dropped

/-- The collective call of PE 0 whose id is in `writer`. -/
theorem exists_owner (h : Ordered s) (hw : s.lock.writer ≠ P) :
    ∃ e ∈ s.calls, e.Owns ∧ e.pe.val = 0 ∧ e.lockType = .collectiveWrite s.lock.writer := by
  have hcount := h.inv.owner
  rw [if_neg hw] at hcount
  obtain ⟨e, he, howns⟩ := Multiset.countP_pos.mp (by rw [hcount]; exact Nat.one_pos)
  obtain ⟨k, hk⟩ := h.collective e he
  have hid := h.inv.ownerId e he howns
  rw [Inv.id_eq hk] at hid
  have hpe : e.pe.val = 0 := howns.2.1.resolve_left (by simp [hk])
  exact ⟨e, he, howns, hpe, by rw [hk, hid]⟩

/-- Calls of earlier ids than a call of PE 0 are past their lock on all PEs. -/
theorem entered_of_earlier (h : Ordered s) {d e : Call P} (hd : d ∈ s.calls) (he : e ∈ s.calls)
    {j k : ℕ} (hdj : d.lockType = .collectiveWrite j)
    (hek : e.lockType = .collectiveWrite k) (hjk : j < k) :
    d.pc = .collectiveZero ∨ d.Entered := by
  have hlow := (h.inv.fresh d hd j hdj).1
  have hhigh := (h.inv.fresh e he k hek).2
  obtain ⟨f, hf, hfj, hfpe⟩ := h.made e.pe j hlow (by omega)
  have hdropped : f.Dropped := by
    refine (h.latest f hf j hfj).resolve_left ?_
    rw [hfpe]
    omega
  have hentered : f.Entered := by
    simp only [Call.Dropped, Call.Entered] at hdropped ⊢
    tauto
  exact (h.inv.entered f hf j hfj hentered).2 d hd hdj

/-- While a PE spins for a zero, some PE has still to join it. -/
theorem progress_of_zero (h : Ordered s) (hwaits : ∀ d ∈ s.calls, d.Waits) (hc : c ∈ s.calls)
    (hzero : c.pc = .collectiveZero) : Advances s ∨ ∃ pe, MayCall s pe := by
  obtain ⟨k, hk⟩ := h.collective c hc
  have hw : s.lock.writer = k := by
    rw [h.inv.inside c hc (by simp [Call.Inside, hzero, hk]), Inv.id_eq hk]
  have hkP : P < k := (h.inv.fresh c hc k hk).1
  obtain ⟨e, he, howns, hepe, hek⟩ := h.exists_owner (by omega)
  rw [hw] at hek
  by_cases hcw : s.lock.collectiveWriter = 0
  · exact Or.inl (h.advances_of_run hc (by simp [Call.run, hzero, hcw]) (by simp [hzero]))
  -- some PE is not subtracted
  obtain ⟨q, hq⟩ : ∃ q, ∀ d ∈ s.calls, ¬ (d.Between ∧ d.pe = q) := by
    by_contra hall
    push Not at hall
    have hcard := Pool.card_le_countP Call.pe hall
    have hsum := h.inv.between
    rw [Fintype.card_fin] at hcard
    omega
  by_cases hmade : ∃ d ∈ s.calls, d.lockType = .collectiveWrite k ∧ d.pe = q
  · obtain ⟨d, hd, hdk, hdpe⟩ := hmade
    have hadded := h.spinning c hc d hd (by rw [hk, hdk]) hzero
    have hbetween : ¬ d.Between := fun hb => hq d hd ⟨hb, hdpe⟩
    have hpc : d.pc = .collectiveWriter := by
      have hdw := hwaits d hd
      have hswap : d.pc ≠ .writerSwap := by
        intro hswap
        have htyped := h.inv.typed d hd
        simp only [Call.Typed, hswap, hdk] at htyped
        have hpe0 : d.pe.val = 0 := by simpa using htyped.1
        have hde := h.inv.eq_of_collective hd he hdk hek (Fin.ext (by omega))
        rw [← hde] at howns
        simp [Call.Owns, hswap] at howns
      simp only [Call.Waits, Call.Added] at hdw hadded
      simp [Call.Between, hdk] at hbetween
      tauto
    have hid : s.lock.writer = d.id := by rw [hw, Inv.id_eq hdk]
    exact Or.inl (h.advances_of_run hd (by simp [Call.run, hpc, hid]) (by simp [hpc]))
  · -- it has not begun this collective call
    have hcnt : s.collectiveCnt q ≤ k := by
      by_contra hlt
      exact hmade (h.made q k hkP (by omega))
    have hck := (h.inv.fresh c hc k hk).2
    refine Or.inr ⟨q, ⟨c.pe, by omega⟩, fun d hd hdpe => ?_⟩
    obtain ⟨j, hdj⟩ := h.collective d hd
    have hjq := (h.inv.fresh d hd j hdj).2
    rw [hdpe] at hjq
    have hout : ¬ d.Inside := by
      intro hin
      have hdid := h.inv.inside d hd hin
      rw [Inv.id_eq hdj] at hdid
      omega
    have hentered := h.entered_of_earlier hd he hdj hek (by omega)
    have hcalm := h.inv.calm d hd
    simp only [Call.Entered] at hentered
    simp [Call.Inside, hdj] at hout
    simp only [Call.Dropped]
    tauto

theorem progress (h : Ordered s) (hopen : ¬ ∀ c ∈ s.calls, c.pc = .done) :
    Advances s ∨ ∃ pe, MayCall s pe := by
  by_cases hadv : Advances s
  · exact Or.inl hadv
  have hwaits : ∀ c ∈ s.calls, c.Waits := fun c hc => (h.advances_or_waits hc).resolve_left hadv
  by_cases hzero : ∃ c ∈ s.calls, c.pc = .collectiveZero
  · obtain ⟨c, hc, hpc⟩ := hzero
    exact h.progress_of_zero hwaits hc hpc
  push Not at hzero
  by_cases hadd : ∃ c ∈ s.calls, c.pc = .collectiveAdd
  · obtain ⟨c, hc, hpc⟩ := hadd
    exact Or.inl (h.advances_of_run hc (by simp [Call.run, hpc]) (fun _ => hzero))
  push Not at hadd
  by_cases hfull : ∃ c ∈ s.calls, c.pc = .collectiveFull
  · obtain ⟨c, hc, hpc⟩ := hfull
    have hcw : s.lock.collectiveWriter = P := by
      have hnone : s.calls.countP Call.Between = 0 := by
        rw [Multiset.countP_eq_zero]
        intro d hd hbetween
        have hd1 := hwaits d hd
        have hd2 := hzero d hd
        have hd3 := hadd d hd
        simp only [Call.Waits, Call.Between] at hd1 hbetween
        grind
      have hsum := h.inv.between
      omega
    refine Or.inl (h.advances_of_run hc ?_ (by simp [hpc]))
    by_cases hpe : c.pe.val = 0
    · simp [Call.run, hpc, hcw, hpe]
    · simp [Call.run, hpc, hcw, hpe]
  push Not at hfull
  -- what is left waits for PE 0 to take the lock
  by_cases hswap : ∃ c ∈ s.calls, c.pc = .writerSwap
  · obtain ⟨c, hc, hpc⟩ := hswap
    have hfree : s.lock.writer = P := by
      by_contra hw
      obtain ⟨e, he, howns, _⟩ := h.exists_owner hw
      have he1 := hwaits e he
      have he2 := hzero e he
      have he3 := hadd e he
      have he4 := hfull e he
      simp only [Call.Waits, Call.Owns] at he1 howns
      grind
    exact Or.inl (h.advances_of_run hc (by simp [Call.run, hpc, hfree]) (by simp [hpc]))
  push Not at hswap
  push Not at hopen
  obtain ⟨c, hc, hpc⟩ := hopen
  have hwriter : c.pc = .collectiveWriter := by
    have h1 := hwaits c hc
    have h2 := hzero c hc
    have h3 := hadd c hc
    have h4 := hfull c hc
    have h5 := hswap c hc
    simp only [Call.Waits] at h1
    tauto
  obtain ⟨k, hk⟩ := h.collective c hc
  have hdone : ∀ d ∈ s.calls, d.pe.val = 0 → d.pc = .done := by
    intro d hd hdpe
    have h1 := hwaits d hd
    have h2 := hzero d hd
    have h3 := hadd d hd
    have h4 := hfull d hd
    have h5 := hswap d hd
    have h6 : d.pc ≠ .collectiveWriter := by
      intro hdpc
      have htyped := h.inv.typed d hd
      simp only [Call.Typed, hdpc] at htyped
      exact htyped.2.1 hdpe
    simp only [Call.Waits] at h1
    tauto
  let zero : Fin P := ⟨0, c.pe.pos⟩
  refine Or.inr ⟨zero, ⟨c.pe, ?_⟩, fun d hd hdpe => ?_⟩
  · have hck := h.inv.fresh c hc k hk
    by_contra hlt
    obtain ⟨d, hd, hdk, hdpe⟩ := h.made zero k hck.1 (by omega)
    have hpe0 : d.pe.val = 0 := by rw [hdpe]
    have hentered := (h.inv.entered d hd k hdk (by simp [Call.Entered, hdone d hd hpe0])).2 c hc hk
    simp [Call.Entered, hwriter] at hentered
  · have hpe0 : d.pe.val = 0 := by rw [hdpe]
    simp [Call.Dropped, hdone d hd hpe0]

end Ordered

/-! ## All calls return -/

/-- How many steps a collective call has still to take, at most. -/
def Pc.rank : Pc → ℕ
  | .writerSwap | .collectiveWriter => 10
  | .writerReaders | .collectiveReaders => 9
  | .collectiveSub => 8
  | .collectiveZero => 7
  | .held => 6
  | .collectiveCheck => 5
  | .collectiveAdd => 4
  | .collectiveFull => 3
  | .collectiveRelease => 2
  | _ => 0

theorem callStep_rank {l l' : DistRwLock} {c c' : Call P} {k : ℕ} (hs : CallStep l c l' c')
    (ht : c.lockType = .collectiveWrite k) : c'.pc.rank < c.pc.rank := by
  cases hs
  all_goals simp_all [Pc.rank, Call.acquired]

/-- The steps that remain until every PE has made `n` calls and all have returned. -/
def remaining (n : ℕ) (s : State P) : ℕ :=
  (∑ pe, (n - s.collectiveCnt pe)) * 11 + (s.calls.map fun c => c.pc.rank).sum

theorem remaining_stepped {s : State P} {l' : DistRwLock} {c c' : Call P} {k : ℕ} (n : ℕ)
    (hc : c ∈ s.calls) (ht : c.lockType = .collectiveWrite k)
    (hs : CallStep s.lock c l' c') : remaining n (s.stepped l' c c') < remaining n s := by
  have hrank := callStep_rank hs ht
  have hsum := Pool.sum_map_replace (b := c') (fun c => c.pc.rank) hc
  simp only [remaining, State.stepped]
  omega

theorem remaining_collectiveWrite {s : State P} {n : ℕ} {pe : Fin P}
    (hlt : s.collectiveCnt pe < n) : remaining n (s.collectiveWrite pe) < remaining n s := by
  have hrank : (if pe.val = 0 then Pc.writerSwap else .collectiveWriter).rank = 10 := by
    split
    · rfl
    · rfl
  have hsum : ∑ q, (n - Function.update s.collectiveCnt pe (s.collectiveCnt pe + 1) q) + 1 =
      ∑ q, (n - s.collectiveCnt q) := by
    rw [← Finset.add_sum_erase _ _ (Finset.mem_univ pe),
      ← Finset.add_sum_erase _ (fun q => n - s.collectiveCnt q) (Finset.mem_univ pe),
      Function.update_self]
    have hrest : ∑ q ∈ Finset.univ.erase pe,
        (n - Function.update s.collectiveCnt pe (s.collectiveCnt pe + 1) q) =
        ∑ q ∈ Finset.univ.erase pe, (n - s.collectiveCnt q) := by
      refine Finset.sum_congr rfl (fun q hq => ?_)
      rw [Function.update_of_ne (Finset.ne_of_mem_erase hq)]
    omega
  simp only [remaining, State.collectiveWrite, State.called, Multiset.map_cons,
    Multiset.sum_cons, hrank]
  omega

/-- In a run of collective calls in which nobody joins an unlock while a PE still spins in the
lock, every state has a continuation in which all calls return. -/
theorem collective_returns (P : ℕ) (s : State P)
    (hs : Transition.Reach (· = State.new) State.step
      (fun s a => Collective s a ∧ NoneLeftSpinning s a) s) :
    ∃ s', Relation.ReflTransGen (Transition.Next State.step Collective) s s' ∧
      ∀ c ∈ s'.calls, c.pc = .done := by
  have hordered : Ordered s := hs.invariant (fun _ h => h ▸ Ordered.init)
    (fun _ _ _ h hok hstep => h.step hok.1 hok.2 hstep)
  let n := Finset.univ.sup s.collectiveCnt
  have hbound : ∀ pe, s.collectiveCnt pe ≤ n := fun pe => Finset.le_sup (Finset.mem_univ pe)
  refine Transition.exists_goal_of_progress
    (I := fun s => Ordered s ∧ ∀ pe, s.collectiveCnt pe ≤ n) (remaining n) ?_
    ⟨hordered, hbound⟩
  rintro s ⟨hordered, hbound⟩ hopen
  rcases hordered.progress hopen with ⟨a, c, l', c', hok, hspin, hc, hcall, hstep⟩ |
    ⟨pe, ⟨q, hq⟩, hidle⟩
  · obtain ⟨k, hk⟩ := hordered.collective c hc
    exact ⟨_, ⟨a, hok, hstep⟩, ⟨hordered.step hok hspin hstep, hbound⟩,
      remaining_stepped n hc hk hcall⟩
  · have hlt : s.collectiveCnt pe < n := hq.trans_le (hbound q)
    refine ⟨_, ⟨.collectiveWrite pe, hidle, rfl⟩, ⟨hordered.collectiveWrite hidle, fun r => ?_⟩,
      remaining_collectiveWrite hlt⟩
    simp only [State.collectiveWrite]
    by_cases hr : r = pe
    · rw [hr, Function.update_self]
      omega
    · rw [Function.update_of_ne hr]
      exact hbound r

/-- The lock of one collective call of two PEs: PE 0 waits for a zero, PE 1 has seen it. -/
def lockBoth : List (Action 2) :=
  [.collectiveWrite 0, .collectiveWrite 1, .run ⟨0, .collectiveWrite 3, .writerSwap, 0, 0⟩,
    .run ⟨0, .collectiveWrite 3, .writerReaders, 0, 0⟩,
    .run ⟨0, .collectiveWrite 3, .collectiveSub, 0, 0⟩,
    .run ⟨1, .collectiveWrite 3, .collectiveWriter, 0, 0⟩,
    .run ⟨1, .collectiveWrite 3, .collectiveReaders, 0, 0⟩,
    .run ⟨1, .collectiveWrite 3, .collectiveSub, 0, 0⟩,
    .run ⟨1, .collectiveWrite 3, .collectiveZero, 0, 0⟩]

/-- PE 1 drops its guard and joins the unlock. -/
def unlockOne : List (Action 2) :=
  [.dropGuard ⟨1, .collectiveWrite 3, .held, 1, 1⟩,
    .run ⟨1, .collectiveWrite 3, .collectiveCheck, 1, 0⟩,
    .run ⟨1, .collectiveWrite 3, .collectiveAdd, 1, 0⟩]

/-- PE 1 has the lock, PE 0 has not seen it yet. -/
theorem collective_returns_after_lock :
    ∃ s s' : State 2, Transition.run (Transition.guarded State.step
        (fun s a => Collective s a ∧ NoneLeftSpinning s a)) State.new lockBoth = some s ∧
      Relation.ReflTransGen (Transition.Next State.step Collective) s s' ∧
      ∀ c ∈ s'.calls, c.pc = .done := by
  have hrun : (Transition.run (Transition.guarded State.step
      (fun s a => Collective s a ∧ NoneLeftSpinning s a)) (State.new : State 2)
      lockBoth).isSome := by
    decide +kernel
  obtain ⟨s, hs⟩ := Option.isSome_iff_exists.mp hrun
  obtain ⟨s', hsteps, hdone⟩ :=
    collective_returns 2 s (Transition.Reach.run_guarded (.init rfl) hs)
  exact ⟨s, s', hs, hsteps, hdone⟩

/-- The call of PE 0 that has missed the zero. -/
def spinner : Call 2 := ⟨0, .collectiveWrite 3, .collectiveZero, 0, 0⟩

/-- PE 0 spins for a zero, and PE 1 for `P`. -/
structure Stuck (s : State 2) : Prop where
  writer : s.lock.writer = 3
  collectiveWriter : s.lock.collectiveWriter = 1
  counter : 3 < s.collectiveCnt 1
  spins : spinner ∈ s.calls
  calls : ∀ c ∈ s.calls, c = spinner ∨ c = ⟨1, .collectiveWrite 3, .collectiveFull, 1, 0⟩ ∨
    (c.pc = .collectiveWriter ∧ c.id ≠ 3 ∧ c.guards = 0)

theorem Stuck.step {s s' : State 2} {a : Action 2} (h : Stuck s) (hok : Collective s a)
    (hs : s.step a = some s') : Stuck s' := by
  cases a with
  | read pe => exact hok.elim
  | write pe => exact hok.elim
  | cloneGuard c => exact hok.elim
  | collectiveWrite pe =>
    have hpe : pe = 1 := by
      have hne : pe ≠ 0 := by
        rintro rfl
        have hdropped := hok spinner h.spins rfl
        simp [Call.Dropped, spinner] at hdropped
      omega
    subst hpe
    cases hs
    have hcounter := h.counter
    refine ⟨h.writer, h.collectiveWriter, ?_, Multiset.mem_cons_of_mem h.spins, ?_⟩
    · simp only [State.collectiveWrite, Function.update_self]
      omega
    · refine Multiset.forall_mem_cons.mpr ⟨Or.inr (Or.inr ⟨rfl, ?_, rfl⟩), h.calls⟩
      simp only [Call.id]
      omega
  | run c =>
    simp only [State.step] at hs
    split at hs
    · rename_i hc
      exfalso
      rcases h.calls c hc with rfl | rfl | ⟨hpc, hid, _⟩
      · simp [Call.run, spinner, h.collectiveWriter] at hs
      · simp [Call.run, h.collectiveWriter] at hs
      · simp [Call.run, hpc, h.writer, Ne.symm hid] at hs
    · cases hs
  | dropGuard c =>
    simp only [State.step] at hs
    split at hs
    · rename_i hc
      exfalso
      rcases h.calls c hc with rfl | rfl | ⟨_, _, hguards⟩
      · simp [Call.dropGuard, spinner] at hs
      · simp [Call.dropGuard] at hs
      · simp [Call.dropGuard, hguards] at hs
    · cases hs

/-- Two PEs are in the lock; PE 1 joins the unlock before PE 0 has seen the zero. Then no
continuation lets the lock of PE 0 return. -/
theorem collective_stuck :
    ∃ s : State 2, Transition.Reach (· = State.new) State.step Collective s ∧
      spinner ∈ s.calls ∧ ∀ s', Relation.ReflTransGen (Transition.Next State.step Collective) s s' →
        spinner ∈ s'.calls ∧ spinner.pc = .collectiveZero := by
  have hrun : (Transition.run (Transition.guarded State.step Collective) (State.new : State 2)
      (lockBoth ++ unlockOne)).map (fun s => (s.lock.writer, s.lock.collectiveWriter,
        s.collectiveCnt 1, s.calls)) = some (3, 1, 4,
          {spinner, ⟨1, .collectiveWrite 3, .collectiveFull, 1, 0⟩}) := by
    decide +kernel
  obtain ⟨s, hs, hresult⟩ := Option.map_eq_some_iff.mp hrun
  simp only [Prod.mk.injEq] at hresult
  obtain ⟨hwriter, hcollective, hcounter, hcalls⟩ := hresult
  have hstuck : Stuck s := by
    refine ⟨hwriter, hcollective, by omega, by rw [hcalls]; decide, ?_⟩
    rw [hcalls]
    intro c hc
    simp only [Multiset.insert_eq_cons, Multiset.mem_cons, Multiset.mem_singleton] at hc
    exact hc.imp_right Or.inl
  refine ⟨s, Transition.Reach.run_guarded (.init rfl) hs, hstuck.spins, fun s' hsteps => ?_⟩
  have hstuck' := Transition.invariant_of_continues
    (fun _ _ _ h hok hstep => Stuck.step h hok hstep) hstuck hsteps
  exact ⟨hstuck'.spins, rfl⟩

end Lamellar.GlobalRw
