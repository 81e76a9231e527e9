import Lamellar.GlobalRw.Steps

/-!
# The invariant of the lock

`readers` counts the calls between its increment and its decrement; `writer` names the one
call that owns the lock, a `write` or the collective call of PE 0; a collective call of
another PE passes the writer test only under the id of its collective call, which stays in
`writer` until all PEs have left it; and `collective_writer` counts down from `P` the calls
between its decrement and its increment. When it was zero, all PEs had entered
(`Inv.entered`), so nobody is left behind when PE 0 releases the lock (`Inv.release`).
-/

namespace Lamellar.GlobalRw

variable {P : ℕ}

namespace Call

/-- Counted in `readers`. -/
def Counted (c : Call P) : Prop :=
  c.lockType = .read ∧
    (c.pc = .readCheck ∨ c.pc = .readBack ∨ c.pc = .held ∨ c.pc = .readSub)

/-- The call has put its id into `writer`, and not taken it out again. -/
def Owns (c : Call P) : Prop :=
  c.lockType ≠ .read ∧ (c.lockType = .write ∨ c.pe.val = 0) ∧
    (c.pc = .writerReaders ∨ c.pc = .collectiveSub ∨ c.pc = .collectiveZero ∨ c.pc = .held ∨
      c.pc = .writerRelease ∨ c.pc = .collectiveCheck ∨ c.pc = .collectiveAdd ∨
      c.pc = .collectiveFull ∨ c.pc = .collectiveRelease)

/-- A collective call that has seen its id in `writer`, and not yet joined its unlock. -/
def Inside (c : Call P) : Prop :=
  c.lockType ≠ .read ∧ c.lockType ≠ .write ∧
    (c.pc = .collectiveReaders ∨ c.pc = .collectiveSub ∨ c.pc = .collectiveZero ∨
      c.pc = .held ∨ c.pc = .collectiveCheck ∨ c.pc = .collectiveAdd)

/-- Subtracted from `collective_writer`. -/
def Between (c : Call P) : Prop :=
  c.lockType ≠ .read ∧ c.lockType ≠ .write ∧
    (c.pc = .collectiveZero ∨ c.pc = .held ∨ c.pc = .collectiveCheck ∨ c.pc = .collectiveAdd)

/-- A writer that has seen no readers. -/
def PastReaders (c : Call P) : Prop :=
  c.lockType ≠ .read ∧
    (c.pc = .collectiveSub ∨ c.pc = .collectiveZero ∨ c.pc = .held ∨ c.pc = .writerRelease ∨
      c.pc = .collectiveCheck ∨ c.pc = .collectiveAdd)

/-- A reader whose lock has returned, until its unlock. -/
def Reads (c : Call P) : Prop := c.lockType = .read ∧ (c.pc = .held ∨ c.pc = .readSub)

/-- A collective lock that has returned, whatever has happened since. -/
def Entered (c : Call P) : Prop :=
  c.pc = .held ∨ c.pc = .collectiveCheck ∨ c.pc = .collectiveAdd ∨ c.pc = .collectiveFull ∨
    c.pc = .collectiveRelease ∨ c.pc = .done ∨ c.pc = .panicked

instance : DecidablePred (Counted (P := P)) := fun _ => inferInstanceAs (Decidable (_ ∧ _))
instance : DecidablePred (Owns (P := P)) := fun _ => inferInstanceAs (Decidable (_ ∧ _))
instance : DecidablePred (Between (P := P)) := fun _ => inferInstanceAs (Decidable (_ ∧ _))

end Call

structure Inv (s : State P) : Prop where
  typed : ∀ c ∈ s.calls, c.Typed
  readers : s.lock.readers = s.calls.countP Call.Counted
  owner : s.calls.countP Call.Owns = if s.lock.writer = P then 0 else 1
  ownerId : ∀ c ∈ s.calls, c.Owns → s.lock.writer = c.id
  inside : ∀ c ∈ s.calls, c.Inside → s.lock.writer = c.id
  between : s.lock.collectiveWriter + s.calls.countP Call.Between = P
  excluded : ∀ c ∈ s.calls, c.PastReaders → ∀ r ∈ s.calls, ¬ r.Reads
  counter : ∀ pe, P < s.collectiveCnt pe
  unique : ∀ k pe,
    s.calls.countP (fun c => c.lockType = .collectiveWrite k ∧ c.pe = pe) ≤ 1
  fresh : ∀ c ∈ s.calls, ∀ k, c.lockType = .collectiveWrite k →
    P < k ∧ k < s.collectiveCnt c.pe
  entered : ∀ c ∈ s.calls, ∀ k, c.lockType = .collectiveWrite k → c.Entered →
    (∀ pe, k < s.collectiveCnt pe) ∧
      ∀ d ∈ s.calls, d.lockType = .collectiveWrite k → d.pc = .collectiveZero ∨ d.Entered
  release : ∀ c ∈ s.calls, c.pc = .collectiveRelease → ∀ d ∈ s.calls, ¬ d.Between
  calm : ∀ c ∈ s.calls, c.pc ≠ .panicked

/-! ## Steps of a call -/

section CallSteps

variable {l l' : DistRwLock} {c c' : Call P}

/-- What a call is does not change. -/
theorem callStep_same (hs : CallStep l c l' c') :
    c'.pe = c.pe ∧ c'.lockType = c.lockType ∧ c'.id = c.id := by
  cases hs
  all_goals exact ⟨rfl, rfl, rfl⟩

theorem callStep_readers (hs : CallStep l c l' c') :
    (l'.readers = l.readers ∧ (c.Counted ↔ c'.Counted)) ∨
      (l'.readers = l.readers + 1 ∧ ¬ c.Counted ∧ c'.Counted) ∨
      (l'.readers = l.readers - 1 ∧ c.Counted ∧ ¬ c'.Counted) := by
  cases hs
  case readAdd ht hpc =>
    exact Or.inr (Or.inl ⟨rfl, by simp [Call.Counted, hpc], by simp [Call.Counted, ht]⟩)
  case readBack ht hpc =>
    exact Or.inr (Or.inr ⟨rfl, by simp [Call.Counted, hpc, ht], by simp [Call.Counted]⟩)
  case readSub ht hpc =>
    exact Or.inr (Or.inr ⟨rfl, by simp [Call.Counted, hpc, ht], by simp [Call.Counted]⟩)
  all_goals exact Or.inl ⟨rfl, by simp [Call.Counted, Call.acquired, *]⟩

/-- Who owns the lock is in `writer`. -/
theorem callStep_writer (hs : CallStep l c l' c') (hcalm : c'.pc ≠ .panicked) :
    (l'.writer = l.writer ∧ (c.Owns ↔ c'.Owns)) ∨
      (l.writer = P ∧ l'.writer = c.id ∧ ¬ c.Owns ∧ c'.Owns ∧ ¬ c'.Inside) ∨
      (l.writer = c.id ∧ l'.writer = P ∧ c.Owns ∧ ¬ c'.Owns ∧ ¬ c'.Inside ∧
        (c.lockType = .write ∨ c.pc = .collectiveRelease)) := by
  cases hs
  case writeSwap ht hpc hw =>
    exact Or.inr (Or.inl ⟨hw, rfl, by simp [Call.Owns, hpc], by simp [Call.Owns, ht],
      by simp [Call.Inside]⟩)
  case collSwap k ht hpe hpc hw =>
    exact Or.inr (Or.inl ⟨hw, rfl, by simp [Call.Owns, hpc], by simp [Call.Owns, ht, hpe],
      by simp [Call.Inside]⟩)
  case writeRelease ht hpc hw =>
    exact Or.inr (Or.inr ⟨hw, rfl, by simp [Call.Owns, hpc, ht], by simp [Call.Owns],
      by simp [Call.Inside], Or.inl ht⟩)
  case collRelease k ht hpe hpc hw =>
    exact Or.inr (Or.inr ⟨hw, rfl, by simp [Call.Owns, hpc, ht, hpe], by simp [Call.Owns],
      by simp [Call.Inside], Or.inr hpc⟩)
  case writePanic => exact absurd rfl hcalm
  case collCheckPanic => exact absurd rfl hcalm
  case collReleasePanic => exact absurd rfl hcalm
  all_goals exact Or.inl ⟨rfl, by simp [Call.Owns, Call.acquired, *]⟩

theorem callStep_inside (hs : CallStep l c l' c') (h : c'.Inside) :
    c.Inside ∨ c.Owns ∨ l.writer = c.id := by
  cases hs
  case collOwner k ht hpe hpc hr =>
    exact Or.inr (Or.inl (by simp [Call.Owns, hpc, ht, hpe]))
  case collWriter hw => exact Or.inr (Or.inr hw)
  all_goals simp_all [Call.Inside, Call.acquired]

theorem callStep_between (hs : CallStep l c l' c') (hcalm : c'.pc ≠ .panicked) :
    (l'.collectiveWriter = l.collectiveWriter ∧ (c.Between ↔ c'.Between)) ∨
      (c.pc = .collectiveSub ∧ c.Inside ∧ ¬ c.Between ∧ c'.Between ∧
        l'.collectiveWriter = l.collectiveWriter - 1) ∨
      (c.Between ∧ ¬ c'.Between ∧ l'.collectiveWriter = l.collectiveWriter + 1) := by
  cases hs
  case collSub k ht hpc =>
    exact Or.inr (Or.inl ⟨hpc, by simp [Call.Inside, hpc, ht], by simp [Call.Between, hpc],
      by simp [Call.Between, ht], rfl⟩)
  case collAdd k ht hpc =>
    exact Or.inr (Or.inr ⟨by simp [Call.Between, hpc, ht], by simp [Call.Between], rfl⟩)
  case writePanic => exact absurd rfl hcalm
  case collCheckPanic => exact absurd rfl hcalm
  case collReleasePanic => exact absurd rfl hcalm
  all_goals exact Or.inl ⟨rfl, by simp [Call.Between, Call.acquired, *]⟩

theorem callStep_pastReaders (hs : CallStep l c l' c') (h : c'.PastReaders) :
    c.PastReaders ∨ l.readers = 0 := by
  cases hs
  case writeReaders hr => exact Or.inr hr
  case collOwner hr => exact Or.inr hr
  case collReaders hr => exact Or.inr hr
  all_goals simp_all [Call.PastReaders, Call.acquired]

theorem callStep_reads (hs : CallStep l c l' c') (h : c'.Reads) :
    c.Reads ∨ l.writer = P := by
  cases hs
  case readCheck hw => exact Or.inr hw
  all_goals simp_all [Call.Reads, Call.acquired]

theorem callStep_entered {k : ℕ} (hs : CallStep l c l' c')
    (ht : c.lockType = .collectiveWrite k) (h : c'.Entered) :
    c.Entered ∨ c.Between ∧ l.collectiveWriter = 0 := by
  cases hs
  case collZero k' ht' hpc hz => exact Or.inr ⟨by simp [Call.Between, hpc, ht], hz⟩
  all_goals simp_all [Call.Entered]

theorem callStep_subbed {k : ℕ} (hs : CallStep l c l' c')
    (ht : c.lockType = .collectiveWrite k) (h : c.pc = .collectiveZero ∨ c.Entered) :
    c'.pc = .collectiveZero ∨ c'.Entered := by
  cases hs
  all_goals simp_all [Call.Entered, Call.acquired]

theorem callStep_release (hs : CallStep l c l' c') (h : c'.pc = .collectiveRelease) :
    l.collectiveWriter = P ∧ c.Entered ∧ ¬ c.Between ∧ l' = l ∧ ¬ c'.Between := by
  cases hs
  case collFull k ht hpe hpc hf =>
    exact ⟨hf, by simp [Call.Entered, hpc], by simp [Call.Between, hpc], rfl,
      by simp [Call.Between]⟩
  all_goals simp_all [Call.acquired]

end CallSteps

/-! ## Consequences -/

namespace Inv

variable {s : State P} {c d : Call P}

theorem id_eq {k : ℕ} (ht : c.lockType = .collectiveWrite k) : c.id = k := by
  simp [Call.id, ht]

theorem id_lt (ht : c.lockType = .write) : c.id < P := by
  simp [Call.id, ht]

theorem id_ne (h : Inv s) (hc : c ∈ s.calls) : c.id ≠ P := by
  cases ht : c.lockType with
  | read => simpa [Call.id, ht] using c.pe.isLt.ne
  | write => exact (id_lt ht).ne
  | collectiveWrite k =>
    rw [id_eq ht]
    exact (h.fresh c hc k ht).1.ne'

/-- A call under a collective id in `writer` is a collective call with that id. -/
theorem collective_of_id (hcall : c.Inside ∨ c.Between) {k : ℕ}
    (hid : c.id = k) : c.lockType = .collectiveWrite k := by
  cases ht : c.lockType with
  | read => simp [Call.Inside, Call.Between, ht] at hcall
  | write => simp [Call.Inside, Call.Between, ht] at hcall
  | collectiveWrite k' => rw [← hid, id_eq ht]

theorem inside_of_between (hc : c.Between) : c.Inside := by
  simp only [Call.Between, Call.Inside] at hc ⊢
  tauto

/-- The calls that are subtracted from `collective_writer` are of the collective call whose id
is in `writer`, one for each PE. -/
theorem between_unique (h : Inv s) (pe : Fin P) :
    s.calls.countP (fun c => c.Between ∧ c.pe = pe) ≤ 1 := by
  refine le_trans ?_ (h.unique s.lock.writer pe)
  simp only [Multiset.countP_eq_card_filter]
  refine Multiset.card_le_card (Multiset.le_filter.mpr ⟨Multiset.filter_le _ _, ?_⟩)
  intro c hc
  rw [Multiset.mem_filter] at hc
  obtain ⟨hc, hbetween, hpe⟩ := hc
  have hid := h.inside c hc (inside_of_between hbetween)
  exact ⟨collective_of_id (Or.inr hbetween) hid.symm, hpe⟩

theorem eq_of_collective (h : Inv s) (hc : c ∈ s.calls) (hd : d ∈ s.calls) {k : ℕ}
    (hck : c.lockType = .collectiveWrite k) (hdk : d.lockType = .collectiveWrite k)
    (hpe : c.pe = d.pe) : c = d :=
  Pool.eq_of_countP_le_one (h.unique k d.pe) hc hd ⟨hck, hpe⟩ ⟨hdk, rfl⟩

/-- When `collective_writer` is zero, all PEs are in the collective call. -/
theorem all_between (h : Inv s) (hzero : s.lock.collectiveWriter = 0) (pe : Fin P) :
    ∃ d ∈ s.calls, d.Between ∧ d.pe = pe := by
  refine Pool.exists_of_countP_eq_card Call.pe h.between_unique ?_ pe
  have hsum := h.between
  rw [hzero, Nat.zero_add] at hsum
  rw [hsum, Fintype.card_fin]

theorem not_owns_of_free (h : Inv s) (hfree : s.lock.writer = P) (hc : c ∈ s.calls) :
    ¬ c.Owns := by
  have hcount := h.owner
  rw [if_pos hfree, Multiset.countP_eq_zero] at hcount
  exact hcount c hc

theorem not_inside_of_free (h : Inv s) (hfree : s.lock.writer = P) (hc : c ∈ s.calls) :
    ¬ c.Inside := by
  intro hin
  exact h.id_ne hc ((h.inside c hc hin).symm.trans hfree)

theorem no_panic (h : Inv s) {l' : DistRwLock} {c' : Call P} (hc : c ∈ s.calls)
    (hs : CallStep s.lock c l' c') : c'.pc ≠ .panicked := by
  have howns := h.ownerId c hc
  have hinside := h.inside c hc
  have hcalm := h.calm c hc
  cases hs
  case writePanic ht hpc hw => exact absurd (howns (by simp [Call.Owns, hpc, ht])) hw
  case collCheckPanic k ht hpc hw =>
    exact absurd (hinside (by simp [Call.Inside, hpc, ht])) hw
  case collReleasePanic k ht hpe hpc hw =>
    exact absurd (howns (by simp [Call.Owns, hpc, ht, hpe])) hw
  all_goals simp_all [Call.acquired]

/-- A writer that has seen no readers keeps the lock from them. -/
theorem writer_ne_of_pastReaders (h : Inv s) (hc : c ∈ s.calls) (hpast : c.PastReaders) :
    s.lock.writer ≠ P := by
  have hid := h.id_ne hc
  obtain ⟨hread, hpc⟩ := hpast
  by_cases hw : c.lockType = .write
  · have howns : c.Owns := ⟨hread, Or.inl hw, by tauto⟩
    rw [h.ownerId c hc howns]
    exact hid
  · have htyped := h.typed c hc
    have hrelease : c.pc ≠ .writerRelease := by
      intro hpc'
      simp only [Call.Typed, hpc'] at htyped
      exact hw htyped.1
    have hin : c.Inside := ⟨hread, hw, by tauto⟩
    rw [h.inside c hc hin]
    exact hid

/-! ## Every step keeps the invariant -/

section Stepped

variable {l' : DistRwLock} {c' : Call P}

theorem readers_stepped (h : Inv s) (hc : c ∈ s.calls) (hs : CallStep s.lock c l' c') :
    l'.readers = (Pool.replace s.calls c c').countP Call.Counted := by
  have hcount := h.readers
  rcases callStep_readers hs with ⟨hl, hiff⟩ | ⟨hl, hnot, hgain⟩ | ⟨hl, hloss, hnot⟩
  · rw [hl, Pool.countP_replace_of_iff _ hc hiff, hcount]
  · rw [hl, Pool.countP_replace_gain _ hc hnot hgain, hcount]
  · have hlost := Pool.countP_replace_loss (b := c') Call.Counted hc hloss hnot
    omega

theorem owner_stepped (h : Inv s) (hc : c ∈ s.calls) (hs : CallStep s.lock c l' c') :
    (Pool.replace s.calls c c').countP Call.Owns = if l'.writer = P then 0 else 1 := by
  have hcount := h.owner
  have hid := h.id_ne hc
  rcases callStep_writer hs (h.no_panic hc hs) with ⟨hl, hiff⟩ | ⟨hfree, hl, hnot, hgain, _⟩ |
    ⟨hown, hl, hloss, hnot, _⟩
  · rw [Pool.countP_replace_of_iff _ hc hiff, hl, hcount]
  · rw [Pool.countP_replace_gain _ hc hnot hgain, hcount, if_pos hfree, hl, if_neg hid]
  · have hlost := Pool.countP_replace_loss (b := c') Call.Owns hc hloss hnot
    rw [hcount, hown, if_neg hid] at hlost
    rw [hl, if_pos rfl]
    omega

theorem ownerId_stepped (h : Inv s) (hc : c ∈ s.calls) (hs : CallStep s.lock c l' c') :
    ∀ x ∈ Pool.replace s.calls c c', x.Owns → l'.writer = x.id := by
  have hsame := (callStep_same hs).2.2
  rcases callStep_writer hs (h.no_panic hc hs) with ⟨hl, hiff⟩ | ⟨hfree, hl, _⟩ |
    ⟨hown, hl, hloss, hnot, _⟩
  · rw [hl]
    refine Pool.forall_replace (fun hx => ?_) h.ownerId
    rw [hsame]
    exact h.ownerId c hc (hiff.mpr hx)
  · rw [hl]
    refine Pool.forall_replace (fun _ => hsame.symm) (fun x hx hxowns => ?_)
    exact absurd hxowns (h.not_owns_of_free hfree hx)
  · -- the owner has left, and there was only one
    have hcount := h.owner_stepped hc hs
    rw [hl, if_pos rfl, Multiset.countP_eq_zero] at hcount
    exact fun x hx hxowns => absurd hxowns (hcount x hx)

theorem inside_stepped (h : Inv s) (hc : c ∈ s.calls) (hs : CallStep s.lock c l' c') :
    ∀ x ∈ Pool.replace s.calls c c', x.Inside → l'.writer = x.id := by
  have hsame := (callStep_same hs).2.2
  rcases callStep_writer hs (h.no_panic hc hs) with ⟨hl, _⟩ | ⟨hfree, _, _, _, hout⟩ |
    ⟨hown, _, _, _, hout, hkind⟩
  · rw [hl]
    refine Pool.forall_replace (fun hx => ?_) h.inside
    rw [hsame]
    rcases callStep_inside hs hx with hin | howns | hid
    · exact h.inside c hc hin
    · exact h.ownerId c hc howns
    · exact hid
  · refine Pool.forall_replace (fun hx => absurd hx hout) (fun x hx hin => ?_)
    exact absurd hin (h.not_inside_of_free hfree hx)
  · refine Pool.forall_replace (fun hx => absurd hx hout) (fun x hx hin => ?_)
    exfalso
    have hxid := (h.inside x hx hin).symm.trans hown
    have hxk := collective_of_id (Or.inl hin) hxid
    rcases hkind with ht | hpc
    · have hlow := id_lt ht
      have hhigh := (h.fresh x hx _ hxk).1
      omega
    · -- all PEs have left the collective call that PE 0 releases
      obtain ⟨⟨k, hk⟩, _⟩ : (∃ k, c.lockType = .collectiveWrite k) ∧ c.pe.val = 0 ∧
          c.guards = 0 := by simpa only [Call.Typed, hpc] using h.typed c hc
      rw [id_eq hk] at hxk
      have hsub := (h.entered c hc k hk (by simp [Call.Entered, hpc])).2 x hx hxk
      have hbetween := h.release c hc hpc x hx
      simp only [Call.Inside, Call.Between, Call.Entered] at hin hbetween hsub
      grind

theorem between_stepped (h : Inv s) (hc : c ∈ s.calls) (hs : CallStep s.lock c l' c') :
    l'.collectiveWriter + (Pool.replace s.calls c c').countP Call.Between = P := by
  have hcount := h.between
  rcases callStep_between hs (h.no_panic hc hs) with ⟨hl, hiff⟩ |
    ⟨hpc, hin, hnot, hgain, hl⟩ | ⟨hloss, hnot, hl⟩
  · rw [Pool.countP_replace_of_iff _ hc hiff, hl, hcount]
  · have hgained := Pool.countP_replace_gain (b := c') Call.Between hc hnot hgain
    -- the calls that are subtracted then are of different PEs
    have hle : (Pool.replace s.calls c c').countP Call.Between ≤ Fintype.card (Fin P) := by
      refine Pool.countP_le_card Call.pe (fun pe => ?_)
      have hunique : (Pool.replace s.calls c c').countP
          (fun x => x.lockType = .collectiveWrite s.lock.writer ∧ x.pe = pe) ≤ 1 := by
        obtain ⟨hpe, ht, _⟩ := callStep_same hs
        rw [Pool.countP_replace_of_iff _ hc (by rw [hpe, ht])]
        exact h.unique _ pe
      refine le_trans ?_ hunique
      simp only [Multiset.countP_eq_card_filter]
      refine Multiset.card_le_card (Multiset.le_filter.mpr ⟨Multiset.filter_le _ _, ?_⟩)
      intro x hx
      rw [Multiset.mem_filter] at hx
      obtain ⟨hx, hbetween, hxpe⟩ := hx
      refine ⟨?_, hxpe⟩
      rcases Pool.mem_replace hx with rfl | hx
      · rw [(callStep_same hs).2.1]
        exact collective_of_id (Or.inl hin) (h.inside c hc hin).symm
      · exact collective_of_id (Or.inr hbetween)
          (h.inside x hx (inside_of_between hbetween)).symm
    rw [Fintype.card_fin] at hle
    omega
  · have hlost := Pool.countP_replace_loss (b := c') Call.Between hc hloss hnot
    omega

theorem excluded_stepped (h : Inv s) (hc : c ∈ s.calls) (hs : CallStep s.lock c l' c') :
    ∀ x ∈ Pool.replace s.calls c c', x.PastReaders →
      ∀ r ∈ Pool.replace s.calls c c', ¬ r.Reads := by
  have hcounted : s.lock.readers = 0 → ∀ r ∈ s.calls, ¬ r.Reads := by
    intro hzero r hr hreads
    have hnone := h.readers
    rw [hzero, eq_comm, Multiset.countP_eq_zero] at hnone
    exact hnone r hr ⟨hreads.1, hreads.2.elim (by tauto) (by tauto)⟩
  intro x hx hpast r hr hreads
  have hsame := (callStep_same hs).2.1
  -- nobody can have begun to read
  have hreads' : r = c' → c.Reads := by
    rintro rfl
    refine (callStep_reads hs hreads).resolve_right (fun hfree => ?_)
    rcases Pool.mem_replace hx with rfl | hx
    · exact hpast.1 hreads.1
    · exact h.writer_ne_of_pastReaders hx hpast hfree
  have hnot : ∀ y ∈ s.calls, y.Reads → False := by
    intro y hy hyreads
    rcases Pool.mem_replace hx with rfl | hx
    · rcases callStep_pastReaders hs hpast with hpast | hzero
      · exact h.excluded c hc hpast y hy hyreads
      · exact hcounted hzero y hy hyreads
    · exact h.excluded x hx hpast y hy hyreads
  rcases Pool.mem_replace hr with rfl | hr
  · exact hnot c hc (hreads' rfl)
  · exact hnot r hr hreads

theorem entered_stepped (h : Inv s) (hc : c ∈ s.calls) (hs : CallStep s.lock c l' c') :
    ∀ x ∈ Pool.replace s.calls c c', ∀ k, x.lockType = .collectiveWrite k → x.Entered →
      (∀ pe, k < s.collectiveCnt pe) ∧
        ∀ d ∈ Pool.replace s.calls c c', d.lockType = .collectiveWrite k →
          d.pc = .collectiveZero ∨ d.Entered := by
  have hsame := (callStep_same hs).2.1
  intro x hx k hk hentered
  have hold : (∀ pe, k < s.collectiveCnt pe) ∧ ∀ d ∈ s.calls,
      d.lockType = .collectiveWrite k → d.pc = .collectiveZero ∨ d.Entered := by
    rcases Pool.mem_replace hx with rfl | hx
    · rw [hsame] at hk
      rcases callStep_entered hs hk hentered with hentered | ⟨hbetween, hzero⟩
      · exact h.entered c hc k hk hentered
      · have hid : ∀ d ∈ s.calls, d.Between → d.lockType = .collectiveWrite k := by
          intro d hd hdb
          have hcid := h.inside c hc (inside_of_between hbetween)
          rw [id_eq hk] at hcid
          exact collective_of_id (Or.inr hdb)
            ((h.inside d hd (inside_of_between hdb)).symm.trans hcid)
        constructor
        · intro pe
          obtain ⟨d, hd, hdb, rfl⟩ := h.all_between hzero pe
          exact (h.fresh d hd k (hid d hd hdb)).2
        · intro d hd hdk
          obtain ⟨e, he, heb, hpe⟩ := h.all_between hzero d.pe
          rw [← h.eq_of_collective he hd (hid e he heb) hdk hpe]
          simp only [Call.Between, Call.Entered] at heb ⊢
          tauto
    · exact h.entered x hx k hk hentered
  refine ⟨hold.1, Pool.forall_replace (fun hdk => ?_) hold.2⟩
  rw [hsame] at hdk
  exact callStep_subbed hs hdk (hold.2 c hc hdk)

theorem release_stepped (h : Inv s) (hc : c ∈ s.calls) (hs : CallStep s.lock c l' c') :
    ∀ x ∈ Pool.replace s.calls c c', x.pc = .collectiveRelease →
      ∀ d ∈ Pool.replace s.calls c c', ¬ d.Between := by
  intro x hx hpc
  rcases Pool.mem_replace hx with rfl | hx
  · obtain ⟨hfull, _, _, _, hnot⟩ := callStep_release hs hpc
    have hnone := h.between
    rw [hfull, Nat.add_eq_left, Multiset.countP_eq_zero] at hnone
    exact Pool.forall_replace hnot hnone
  · refine Pool.forall_replace (fun hbetween => ?_) (h.release x hx hpc)
    have hold := h.release x hx hpc c hc
    rcases callStep_between hs (h.no_panic hc hs) with ⟨_, hiff⟩ | ⟨hsub, hin, _⟩ | ⟨hb, _⟩
    · exact hold (hiff.mpr hbetween)
    · -- nobody subtracts any more in a collective call that PE 0 releases
      obtain ⟨⟨k, hk⟩, hpe, _⟩ : (∃ k, x.lockType = .collectiveWrite k) ∧ x.pe.val = 0 ∧
          x.guards = 0 := by simpa only [Call.Typed, hpc] using h.typed x hx
      have howns : x.Owns := by simp [Call.Owns, hpc, hk, hpe]
      have hid := (h.inside c hc hin).symm.trans (h.ownerId x hx howns)
      rw [id_eq hk] at hid
      have hsubbed := (h.entered x hx k hk (by simp [Call.Entered, hpc])).2 c hc
        (collective_of_id (Or.inl hin) hid)
      simp [Call.Entered, hsub] at hsubbed
    · exact hold hb

theorem stepped (h : Inv s) (hc : c ∈ s.calls) (hs : CallStep s.lock c l' c') :
    Inv (s.stepped l' c c') where
  typed := Pool.forall_replace ((h.typed c hc).callStep hs) h.typed
  readers := h.readers_stepped hc hs
  owner := h.owner_stepped hc hs
  ownerId := h.ownerId_stepped hc hs
  inside := h.inside_stepped hc hs
  between := h.between_stepped hc hs
  excluded := h.excluded_stepped hc hs
  counter := h.counter
  unique := by
    obtain ⟨hpe, ht, _⟩ := callStep_same hs
    intro k pe
    simp only [State.stepped]
    rw [Pool.countP_replace_of_iff _ hc (by rw [hpe, ht])]
    exact h.unique k pe
  fresh := by
    obtain ⟨hpe, ht, _⟩ := callStep_same hs
    refine Pool.forall_replace (fun k hk => ?_) h.fresh
    rw [ht] at hk
    simp only [State.stepped, hpe]
    exact h.fresh c hc k hk
  entered := h.entered_stepped hc hs
  release := h.release_stepped hc hs
  calm := Pool.forall_replace (h.no_panic hc hs) h.calm

end Stepped

/-- A new call, with the counters after it. -/
theorem begun (h : Inv s) {n : Call P} {cnts : Fin P → ℕ} (htyped : n.Typed)
    (hpc : n.pc = .readWait ∨ n.pc = .writerSwap ∨ n.pc = .collectiveWriter)
    (hgrow : ∀ pe, s.collectiveCnt pe ≤ cnts pe)
    (hnew : ∀ k, n.lockType = .collectiveWrite k →
      k = s.collectiveCnt n.pe ∧ k < cnts n.pe) :
    Inv { s with calls := n ::ₘ s.calls, collectiveCnt := cnts } := by
  have hnot : ¬ n.Counted ∧ ¬ n.Owns ∧ ¬ n.Inside ∧ ¬ n.Between ∧ ¬ n.PastReaders ∧ ¬ n.Reads ∧
      ¬ n.Entered ∧ n.pc ≠ .collectiveRelease ∧ n.pc ≠ .panicked := by
    simp only [Call.Counted, Call.Owns, Call.Inside, Call.Between, Call.PastReaders, Call.Reads,
      Call.Entered]
    rcases hpc with hpc | hpc | hpc
    all_goals simp [hpc]
  obtain ⟨hcounted, howns, hinside, hbetween, hpast, hreads, hentered, hrelease, hcalm⟩ := hnot
  constructor
  · exact Multiset.forall_mem_cons.mpr ⟨htyped, h.typed⟩
  · rw [Multiset.countP_cons_of_neg _ hcounted]
    exact h.readers
  · rw [Multiset.countP_cons_of_neg _ howns]
    exact h.owner
  · exact Multiset.forall_mem_cons.mpr ⟨fun hn => absurd hn howns, h.ownerId⟩
  · exact Multiset.forall_mem_cons.mpr ⟨fun hn => absurd hn hinside, h.inside⟩
  · rw [Multiset.countP_cons_of_neg _ hbetween]
    exact h.between
  · refine Multiset.forall_mem_cons.mpr ⟨fun hn => absurd hn hpast, fun c hc hcpast => ?_⟩
    exact Multiset.forall_mem_cons.mpr ⟨hreads, h.excluded c hc hcpast⟩
  · exact fun pe => (h.counter pe).trans_le (hgrow pe)
  · intro k pe
    by_cases hn : n.lockType = .collectiveWrite k ∧ n.pe = pe
    · rw [Multiset.countP_cons, if_pos hn]
      have hnone : s.calls.countP
          (fun c => c.lockType = .collectiveWrite k ∧ c.pe = pe) = 0 := by
        rw [Multiset.countP_eq_zero]
        rintro c hc ⟨hck, hcpe⟩
        have hlt := (h.fresh c hc k hck).2
        rw [hcpe, ← hn.2, ← (hnew k hn.1).1] at hlt
        exact lt_irrefl k hlt
      rw [hnone]
    · rw [Multiset.countP_cons, if_neg hn]
      exact h.unique k pe
  · refine Multiset.forall_mem_cons.mpr ⟨fun k hk => ?_, fun c hc k hk => ?_⟩
    · obtain ⟨hcnt, hlt⟩ := hnew k hk
      exact ⟨hcnt ▸ h.counter n.pe, hlt⟩
    · obtain ⟨hlow, hlt⟩ := h.fresh c hc k hk
      exact ⟨hlow, hlt.trans_le (hgrow c.pe)⟩
  · refine Multiset.forall_mem_cons.mpr ⟨fun k _ hn => absurd hn hentered, ?_⟩
    intro c hc k hk hcentered
    obtain ⟨hall, hsub⟩ := h.entered c hc k hk hcentered
    refine ⟨fun pe => (hall pe).trans_le (hgrow pe),
      Multiset.forall_mem_cons.mpr ⟨fun hnk => ?_, hsub⟩⟩
    have hlt := hall n.pe
    rw [← (hnew k hnk).1] at hlt
    exact absurd hlt (lt_irrefl k)
  · refine Multiset.forall_mem_cons.mpr ⟨fun hn => absurd hn hrelease, fun c hc hcpc => ?_⟩
    exact Multiset.forall_mem_cons.mpr ⟨hbetween, h.release c hc hcpc⟩
  · exact Multiset.forall_mem_cons.mpr ⟨hcalm, h.calm⟩

theorem collectiveWrite (h : Inv s) (pe : Fin P) : Inv (s.collectiveWrite pe) := by
  refine h.begun ?_ ?_ (fun q => ?_) (fun k hk => ?_)
  · by_cases hpe : pe.val = 0
    · simp only [if_pos hpe, Call.Typed]
      exact ⟨Or.inr ⟨_, rfl, hpe⟩, trivial⟩
    · simp only [if_neg hpe, Call.Typed]
      exact ⟨⟨_, rfl⟩, hpe, trivial⟩
  · by_cases hpe : pe.val = 0
    · exact Or.inr (Or.inl (if_pos hpe))
    · exact Or.inr (Or.inr (if_neg hpe))
  · by_cases hq : q = pe
    · subst hq
      simp
    · simp [hq]
  · cases hk
    exact ⟨rfl, by simp⟩

theorem step {s' : State P} {a : Action P} (h : Inv s) (hs : s.step a = some s') : Inv s' := by
  rcases step_cases h.typed hs with ⟨pe, _, rfl⟩ | ⟨pe, _, rfl⟩ | ⟨pe, _, rfl⟩ |
    ⟨c, l', c', hc, hcall, rfl, _⟩
  · exact h.begun ⟨rfl, rfl⟩ (Or.inl rfl) (fun _ => le_rfl) (fun k hk => by cases hk)
  · exact h.begun ⟨Or.inl rfl, rfl⟩ (Or.inr (Or.inl rfl)) (fun _ => le_rfl)
      (fun k hk => by cases hk)
  · exact h.collectiveWrite pe
  · exact h.stepped hc hcall

theorem init : Inv (State.new : State P) := by
  refine ⟨?_, rfl, ?_, ?_, ?_, rfl, ?_, fun pe => Nat.lt_succ_self P, fun k pe => Nat.zero_le 1,
    ?_, ?_, ?_, ?_⟩
  case refine_2 => simp [State.new]
  all_goals
    intro c hc
    simp [State.new] at hc

end Inv

theorem reachable_inv {s : State P} (hs : Reachable s) : Inv s :=
  hs.invariant (fun _ h => h ▸ Inv.init) (fun _ _ _ h _ hstep => h.step hstep)

end Lamellar.GlobalRw
