import Lamellar.Darc.Counts
import Lamellar.Darc.Rounds

/-!
# The counters a round has read

The detection of a round rests on counters that only grow: what a task has read of them is
a lower bound (`Bounded`), so a counter that differs from what was read stays different.
`SnapOk` records, for every point of a round, how the words that the PEs have exchanged
relate to what they have read, and that a PE that has passed its local test has no strong
handle, and none that is being delivered, unless a message has arrived since its last round.

`W` selects the goals for which the local test is known to find no strong handle.
-/

namespace Lamellar.Darc

open State

variable {P : ℕ}

/-! ## Counters that only grow -/

/-- The serialized handles sent by `p` that no `total_ref_cnt` counts. -/
def unopenedFrom (s : State P) (p : Fin P) : ℕ :=
  s.inFlight.countP fun m => m.src = p ∧ m.opened = false

/-- Every handle ever sent is in flight, or was counted where it arrived. It fails for a
`Darc` whose `total_ref_cnt` words were not zero at the start. -/
def TotalConserved (s : State P) : Prop :=
  ∀ p, s.totalDistCnt p = ∑ q, s.totalRefCnts q p + unopenedFrom s p

structure Grown (s s' : State P) : Prop where
  refs : ∀ p q, s.totalRefCnts p q ≤ s'.totalRefCnts p q
  locals : ∀ p, s.totalLocalCnt p ≤ s'.totalLocalCnt p
  dists : ∀ p, s.totalDistCnt p ≤ s'.totalDistCnt p

theorem le_update_succ (f : Fin P → ℕ) (p : Fin P) (n : ℕ) (r : Fin P) :
    f r ≤ Function.update f p (f p + n) r := by
  by_cases hr : r = p
  · subst hr
    simp
  · simp [hr]

theorem opStep_grown {s s' : State P} {a : Action P} (hs : OpStep s a s') : Grown s s' := by
  cases hs with
  | clone p g _ => exact ⟨fun _ _ => le_rfl, le_update_succ _ p 1, fun _ => le_rfl⟩
  | upgrade p g _ _ => exact ⟨fun _ _ => le_rfl, le_update_succ _ p 1, fun _ => le_rfl⟩
  | upgradeFailed p g _ => exact ⟨fun _ _ => le_rfl, le_update_succ _ p 1, fun _ => le_rfl⟩
  | serialize p g dsts _ _ =>
    exact ⟨fun _ _ => le_rfl, le_update_succ _ p 1, le_update_succ _ p dsts.length⟩
  | settle p => exact ⟨fun _ _ => le_rfl, le_update_succ _ p 1, fun _ => le_rfl⟩
  | deliver m _ _ =>
    refine ⟨fun p q => ?_, fun _ => le_rfl, fun _ => le_rfl⟩
    by_cases hpq : p = m.dst ∧ q = m.src
    · simp only [State.opened, hpq.1, hpq.2, update₂_self]
      exact Nat.le_succ _
    · simp only [State.opened, update₂_of_ne _ _ (not_and_or.mp hpq)]
      exact le_rfl
  | _ => exact ⟨fun _ _ => le_rfl, fun _ => le_rfl, fun _ => le_rfl⟩

theorem taskStep_grown {s s' : State P} {p : Fin P} {t : Task P} (hs : TaskStep s p t s') :
    Grown s s' := by
  cases hs with
  | returnFinal _ _ _ => exact ⟨fun _ _ => le_rfl, le_update_succ _ p 1, fun _ => le_rfl⟩
  | soloReturn _ _ => exact ⟨fun _ _ => le_rfl, le_update_succ _ p 1, fun _ => le_rfl⟩
  | _ => exact ⟨fun _ _ => le_rfl, fun _ => le_rfl, fun _ => le_rfl⟩

theorem unopenedFrom_serialized (s : State P) (p : Fin P) (g : ℕ) (dsts : List (Fin P))
    (r : Fin P) : unopenedFrom (s.serialized p g dsts) r =
      unopenedFrom s r + if p = r then dsts.length else 0 := by
  have hcount : Multiset.countP (fun m : NetworkDarc P => m.src = r ∧ m.opened = false)
      ((dsts.map fun q => NetworkDarc.mk p q g false : List _) : Multiset _) =
      if p = r then dsts.length else 0 := by
    by_cases hpr : p = r
    · simp [hpr, List.countP_map, Function.comp_def]
    · simp [hpr, List.countP_map, Function.comp_def]
  rw [← hcount]
  exact Multiset.countP_add _ _ _

/-- A message counts until it is opened. -/
theorem unopenedFrom_erase {s : State P} {m : NetworkDarc P} (hm : m ∈ s.inFlight)
    (r : Fin P) : unopenedFrom s r =
      (s.inFlight.erase m).countP (fun m => m.src = r ∧ m.opened = false) +
        if m.src = r ∧ m.opened = false then 1 else 0 := by
  have hcons := Multiset.countP_cons (fun x : NetworkDarc P => x.src = r ∧ x.opened = false) m
    (s.inFlight.erase m)
  rw [Multiset.cons_erase hm] at hcons
  exact hcons

theorem unopenedFrom_opened {s : State P} {m : NetworkDarc P} (hm : m ∈ s.inFlight)
    (hnew : m.opened = false) (r : Fin P) :
    unopenedFrom s r = unopenedFrom (s.opened m) r + if m.src = r then 1 else 0 := by
  have herase := unopenedFrom_erase hm r
  have hopen : unopenedFrom (s.opened m) r =
      (s.inFlight.erase m).countP fun m => m.src = r ∧ m.opened = false :=
    Multiset.countP_cons_of_neg _ (by simp)
  simp only [hnew, and_true] at herase
  rw [hopen, herase]

theorem TotalConserved.opStep {s s' : State P} {a : Action P} (h : TotalConserved s)
    (hs : OpStep s a s') : TotalConserved s' := by
  cases hs with
  | serialize p g dsts _ _ =>
    intro r
    have hr := h r
    have hcount := unopenedFrom_serialized s p g dsts r
    by_cases hpr : p = r
    · subst hpr
      rw [if_pos rfl] at hcount
      simp only [State.serialized, Function.update_self] at hcount ⊢
      omega
    · rw [if_neg hpr] at hcount
      simp only [State.serialized, Function.update_of_ne (Ne.symm hpr)] at hcount ⊢
      omega
  | deliver m hm hnew =>
    intro r
    have hr := h r
    have hsum := sum_update_refCnts s.totalRefCnts m.dst
      (Function.update (s.totalRefCnts m.dst) m.src (s.totalRefCnts m.dst m.src + 1)) r
    have hcount := unopenedFrom_opened hm hnew r
    simp only [State.opened, update₂] at hcount ⊢
    by_cases hsrc : m.src = r
    · subst hsrc
      rw [Function.update_self] at hsum
      rw [if_pos rfl] at hcount
      omega
    · rw [Function.update_of_ne (Ne.symm hsrc)] at hsum
      rw [if_neg hsrc] at hcount
      omega
  | credit m hm hopen =>
    intro r
    have hcount := unopenedFrom_erase hm r
    rw [if_neg (by simp [hopen]), Nat.add_zero] at hcount
    exact (h r).trans (congrArg _ hcount)
  | _ => exact h

theorem TotalConserved.taskStep {s s' : State P} {p : Fin P} {t : Task P}
    (h : TotalConserved s) (hs : TaskStep s p t s') : TotalConserved s' := by
  obtain ⟨_, hrefs, hdists, hflight, _⟩ := taskStep_frame hs
  intro r
  rw [hrefs, hdists, unopenedFrom, hflight]
  exact h r

theorem TotalConserved.step {s s' : State P} {a : Action P} (h : TotalConserved s)
    (ho : Owned s) (ha : StartsAlone s a) (hs : s.step a = some s') : TotalConserved s' := by
  rcases ho.single.cases ha hs with hop | ⟨p, q, t, _, ht, htask⟩
  · exact h.opStep hop
  · exact h.taskStep htask

/-! ## What was read is a lower bound -/

structure Task.Below (t : Task P) (s : State P) (p : Fin P) : Prop where
  prev : ∀ q, t.prevRefCnts q ≤ s.totalRefCnts p q
  refs : ∀ q, t.oldRefCnts q ≤ s.totalRefCnts p q
  locals : t.oldLocalCnt ≤ s.totalLocalCnt p
  dists : t.oldDistCnt ≤ s.totalDistCnt p

structure Bounded (s : State P) : Prop where
  tasks : ∀ p t, s.task p = some t → t.Below s p
  slots : ∀ p q, s.modeRefCnts q p ≤ s.totalRefCnts p q

theorem Task.Below.grown {s s' : State P} {p : Fin P} {t : Task P} (h : t.Below s p)
    (hg : Grown s s') : t.Below s' p :=
  ⟨fun q => (h.prev q).trans (hg.refs p q), fun q => (h.refs q).trans (hg.refs p q),
    h.locals.trans (hg.locals p), h.dists.trans (hg.dists p)⟩

theorem Task.new_below (m : DarcMode) (s : State P) (p : Fin P) : (Task.new m).Below s p :=
  ⟨fun _ => Nat.zero_le _, fun _ => Nat.zero_le _, Nat.zero_le _, Nat.zero_le _⟩

theorem Task.Below.resetId {s : State P} {p : Fin P} {t : Task P} (h : t.Below s p) :
    t.resetId.Below s p := by
  unfold Task.resetId
  split
  · exact ⟨h.prev, h.refs, h.locals, h.dists⟩
  · exact h

/-- The task of `p` after its step, if it still runs. -/
theorem Task.Below.taskStep {s s' : State P} {p : Fin P} {t t' : Task P} (h : t.Below s p)
    (ht : s.task p = some t) (hs : TaskStep s p t s') (ht' : s'.task p = some t') :
    t'.Below s p := by
  have hpc : ∀ t₁ : Task P, t₁.prevRefCnts = t.prevRefCnts → t₁.oldRefCnts = t.oldRefCnts →
      t₁.oldLocalCnt = t.oldLocalCnt → t₁.oldDistCnt = t.oldDistCnt → t₁.Below s p := by
    intro t₁ h1 h2 h3 h4
    exact ⟨h1 ▸ h.prev, h2 ▸ h.refs, h3 ▸ h.locals, h4 ▸ h.dists⟩
  cases hs
  case returnFinal => simp [State.returned] at ht'
  case soloReturn => simp [State.returned] at ht'
  case spin =>
    change s.task p = some t' at ht'
    rw [ht, Option.some_inj] at ht'
    exact ht' ▸ h
  case readRef q todo _ _ =>
    simp only [State.setTask, Function.update_self, Option.some_inj] at ht'
    subst ht'
    refine ⟨h.prev, fun r => ?_, h.locals, h.dists⟩
    by_cases hr : r = q
    · simp [hr]
    · simp only [Function.update_of_ne hr]
      exact h.refs r
  case readLocal =>
    simp only [State.setTask, Function.update_self, Option.some_inj] at ht'
    subst ht'
    exact ⟨h.prev, h.refs, le_rfl, h.dists⟩
  case readDist =>
    simp only [State.setTask, Function.update_self, Option.some_inj] at ht'
    subst ht'
    exact ⟨h.prev, h.refs, h.locals, le_rfl⟩
  case enterChecked sum _ =>
    simp only [State.enter, Function.update_self, Option.some_inj] at ht'
    subst ht'
    have hreset := (hpc (t.flag (sum ≠ t.oldDistCnt)) rfl rfl rfl rfl).resetId
    exact ⟨hreset.prev, hreset.refs, hreset.locals, hreset.dists⟩
  case loop =>
    simp only [State.setTask, Function.update_self, Option.some_inj] at ht'
    subst ht'
    exact ⟨h.refs, h.refs, h.locals, h.dists⟩
  case exit =>
    simp only [State.setTask, Function.update_self, Option.some_inj] at ht'
    subst ht'
    exact ⟨h.refs, h.refs, h.locals, h.dists⟩
  all_goals
    simp only [State.setTask, State.enter, State.called, State.putRef, State.putId,
      State.putMode, State.sendFinished, Function.update_self, Option.some_inj] at ht'
    subst ht'
    exact hpc _ rfl rfl rfl rfl

/-- A task puts what it has read of the word for `q`, into its own word on `q`. -/
theorem taskStep_slots {s s' : State P} {p : Fin P} {t : Task P} (hs : TaskStep s p t s')
    (q r : Fin P) : s'.modeRefCnts q r = s.modeRefCnts q r ∨
      (r = p ∧ s'.modeRefCnts q r = t.oldRefCnts q ∧ ∃ todo, t.pc = .putRefs todo) := by
  cases hs
  case putRef q' todo hpc _ _ =>
    by_cases hqr : q = q' ∧ r = p
    · obtain ⟨rfl, rfl⟩ := hqr
      exact Or.inr ⟨rfl, update₂_self _ _ _ _, todo, hpc⟩
    · exact Or.inl (update₂_of_ne _ _ (not_and_or.mp hqr))
  all_goals exact Or.inl rfl

theorem Bounded.taskStep {s s' : State P} {p : Fin P} {t : Task P} (h : Bounded s)
    (ht : s.task p = some t) (hs : TaskStep s p t s') : Bounded s' := by
  have hgrown := taskStep_grown hs
  have hbelow := h.tasks p t ht
  constructor
  · refine forall_task_update (taskStep_task_eq ht hs) (fun t' ht' => ?_) (fun r t' _ hr => ?_)
    · exact (hbelow.taskStep ht hs ht').grown hgrown
    · exact (h.tasks r t' hr).grown hgrown
  · intro r q
    refine le_trans ?_ (hgrown.refs r q)
    rcases taskStep_slots hs q r with hsame | ⟨rfl, hput, _⟩
    · rw [hsame]
      exact h.slots r q
    · rw [hput]
      exact hbelow.refs q

theorem Bounded.opStep {s s' : State P} {a : Action P} (h : Bounded s) (hs : OpStep s a s') :
    Bounded s' := by
  have hgrown := opStep_grown hs
  constructor
  · rcases opStep_task hs with htask | ⟨p, m, _, htask⟩
    · rw [htask]
      exact fun r t hr => (h.tasks r t hr).grown hgrown
    · refine forall_task_update htask (fun t' ht' => ?_) (fun r t' _ hr => ?_)
      · cases ht'
        exact Task.new_below m s' p
      · exact (h.tasks r t' hr).grown hgrown
  · intro r q
    rw [(opStep_frame hs).1]
    exact (h.slots r q).trans (hgrown.refs r q)

theorem Bounded.step {s s' : State P} {a : Action P} (h : Bounded s) (ho : Owned s)
    (ha : StartsAlone s a) (hs : s.step a = some s') : Bounded s' := by
  rcases ho.single.cases ha hs with hop | ⟨p, q, t, _, ht, htask⟩
  · exact h.opStep hop
  · exact h.taskStep ht htask

/-! ## The words exchanged in a round -/

/-- The task has passed the local test of its call. -/
def Pc.PastTest (pc : Pc P) : Prop :=
  pc ≠ .start ∧ pc ≠ .await .initial ∧ pc ≠ .localTest ∧ pc ≠ .soloTest

instance (pc : Pc P) : Decidable pc.PastTest := inferInstanceAs (Decidable (_ ∧ _))

/-- No delivery to `p` is half-way: begun, and not yet counted in `local_cnt`. -/
def Delivered (s : State P) (p : Fin P) : Prop :=
  (∀ m ∈ s.inFlight, m.dst = p → m.opened = false) ∧ ∀ m ∈ s.arriving, m.dst ≠ p

instance (s : State P) (p : Fin P) : Decidable (Delivered s p) :=
  inferInstanceAs (Decidable (_ ∧ _))

/-- There is no strong handle on `p`, and none that is being delivered. -/
def Vacant (s : State P) (p : Fin P) : Prop := s.handles p = 0 ∧ Delivered s p

instance (s : State P) (p : Fin P) : Decidable (Vacant s p) := inferInstanceAs (Decidable (_ ∧ _))

/-- A PE without strong handles gets one from a message or from a weak handle. -/
theorem opStep_vacant {s s' : State P} {a : Action P} {p : Fin P} (hs : OpStep s a s')
    (hnone : Vacant s p) :
    Vacant s' p ∨ (∃ m ∈ s.inFlight, m.dst = p ∧ s' = s.opened m) ∨
      ∃ g, a = .upgrade p g ∧ s.valid p = true := by
  obtain ⟨hhandles, hopened, harriving⟩ := hnone
  have hother : ∀ r (h : Multiset ℕ), r ≠ p → Function.update s.handles r h p = 0 := by
    intro r h hr
    rw [Function.update_of_ne (Ne.symm hr), hhandles]
  have hown : ∀ {r g}, g ∈ s.handles r → r ≠ p := by
    rintro r g hg rfl
    simp [hhandles] at hg
  cases hs with
  | clone r g hg => exact Or.inl ⟨hother r _ (hown hg), hopened, harriving⟩
  | drop r g hg => exact Or.inl ⟨hother r _ (hown hg), hopened, harriving⟩
  | convert r g state hg _ _ => exact Or.inl ⟨hother r _ (hown hg), hopened, harriving⟩
  | serialize r g dsts _ _ =>
    refine Or.inl ⟨hhandles, fun m hm hdst => ?_, harriving⟩
    rcases Multiset.mem_add.mp hm with hm | hm
    · exact hopened m hm hdst
    · rw [Multiset.mem_coe, List.mem_map] at hm
      obtain ⟨q, _, rfl⟩ := hm
      rfl
  | deliver m hm _ =>
    by_cases hdst : m.dst = p
    · exact Or.inr (Or.inl ⟨m, hm, hdst, rfl⟩)
    · refine Or.inl ⟨hhandles, fun m' hm' hdst' => ?_, harriving⟩
      rcases Multiset.mem_cons.mp hm' with rfl | hm'
      · exact absurd hdst' hdst
      · exact hopened m' (Multiset.mem_of_mem_erase hm') hdst'
  | credit m hm hopen =>
    have hdst : m.dst ≠ p := by
      intro hdst
      rw [hopened m hm hdst] at hopen
      cases hopen
    refine Or.inl ⟨hhandles, fun m' hm' => hopened m' (Multiset.mem_of_mem_erase hm'), ?_⟩
    intro m' hm'
    rcases Multiset.mem_cons.mp hm' with rfl | hm'
    · exact hdst
    · exact harriving m' hm'
  | hold m hm =>
    exact Or.inl ⟨hother m.dst _ (harriving m hm), hopened,
      fun m' hm' => harriving m' (Multiset.mem_of_mem_erase hm')⟩
  | upgrade r g _ hvalid =>
    by_cases hr : r = p
    · subst hr
      exact Or.inr (Or.inr ⟨g, rfl, hvalid⟩)
    · exact Or.inl ⟨hother r _ hr, hopened, harriving⟩
  | _ => exact Or.inl ⟨hhandles, hopened, harriving⟩

/-- The step of a task makes no handle on another PE, and on its own only at the end. -/
theorem Vacant.taskStep {s s' : State P} {p r : Fin P} {t : Task P} (h : Vacant s r)
    (hs : TaskStep s p t s') (hhandles : s'.handles r = s.handles r) : Vacant s' r := by
  obtain ⟨_, _, _, hflight, harriving, _⟩ := taskStep_frame hs
  rw [Vacant, Delivered, hhandles, hflight, harriving]
  exact h

section Test

variable (W : DarcMode → Prop)

/-- A step that does not defeat the local test of the tasks in `W`: the test finds no strong
handle and no delivery half-way, and no handle comes from a weak one after it. -/
def Careful (s : State P) : Action P → Prop
  | .run p _ => ∀ t ∈ s.task p, W t.state → t.pc = .localTest → Vacant s p
  | .upgrade p _ =>
    ∀ t ∈ s.task p, W t.state → t.pc.PastTest → s.valid p = true → s.handles p ≠ 0
  | _ => True

instance [DecidablePred W] (s : State P) (a : Action P) : Decidable (Careful W s a) :=
  match a with
  | .run _ _ | .upgrade _ _ => inferInstanceAs (Decidable (∀ t ∈ _, _))
  | .clone _ _ | .drop _ _ | .runDrop _ _ | .serialize _ _ _ | .deliver _ | .credit _ | .hold _
  | .settle _ | .execFinished _ | .downgrade _ _ | .weakClone _ _ | .weakDrop _ _
  | .convert _ _ _ | .switch _ _ => isTrue trivial

/-- A task of `W` that has passed its local test has no strong handle on its PE, unless a
message has come since its last round. -/
def Tested (s : State P) (p : Fin P) (t : Task P) : Prop :=
  W t.state → Vacant s p ∨ ∃ q, s.totalRefCnts p q ≠ t.prevRefCnts q

/-- The words of a task on the other PEs are those of its last round, or of its last call. -/
def SlotsPrev (s : State P) (p : Fin P) (t : Task P) : Prop :=
  ∀ q, s.modeRefCnts q p = t.prevRefCnts q ∨ t.prevRefCnts q = 0

/-- The words of a task on the other PEs are what it has read. -/
def SlotsOld (s : State P) (p : Fin P) (t : Task P) : Prop :=
  ∀ q, s.modeRefCnts q p = t.oldRefCnts q

def SnapOk (s : State P) (p : Fin P) (t : Task P) : Prop :=
  match t.pc with
  | .start | .await .initial => ∀ q, t.prevRefCnts q = 0
  | .localTest => SlotsPrev s p t
  | .sendFinished => Tested W s p t ∧ SlotsPrev s p t
  | .readRefs todo =>
    Tested W s p t ∧ SlotsPrev s p t ∧ ∀ q, q ∉ todo → s.modeRefCnts q p ≤ t.oldRefCnts q
  | .readDist => Tested W s p t ∧ SlotsPrev s p t ∧ ∀ q, s.modeRefCnts q p ≤ t.oldRefCnts q
  | .putRefs todo =>
    Tested W s p t ∧
      (∀ q, q ∈ todo → (s.modeRefCnts q p = t.prevRefCnts q ∨ t.prevRefCnts q = 0) ∧
        s.modeRefCnts q p ≤ t.oldRefCnts q) ∧
      ∀ q, q ∉ todo → s.modeRefCnts q p = t.oldRefCnts q ∧
        (t.outstandingRefs = false → t.prevRefCnts q = t.oldRefCnts q)
  | .await .counted =>
    Tested W s p t ∧ SlotsOld s p t ∧
      (t.outstandingRefs = false → t.prevRefCnts = t.oldRefCnts)
  | .checkLocal | .checkDist | .checkRefs _ _ | .await .checked | .putIds _ | .await .voted
  | .readIds _ => SlotsOld s p t
  | _ => True

/-- What a task knows of its words stays while its PE keeps its strong handles in order. -/
theorem SnapOk.frame {s s' : State P} {p : Fin P} {t : Task P} (h : SnapOk W s p t)
    (hslots : ∀ q, s'.modeRefCnts q p = s.modeRefCnts q p)
    (htested : t.pc.PastTest → Tested W s p t → Tested W s' p t) : SnapOk W s' p t := by
  have hsame : ∀ q, s.modeRefCnts q p = s'.modeRefCnts q p := fun q => (hslots q).symm
  cases hpc : t.pc with
  | await b =>
    cases b with
    | counted =>
      simp only [SnapOk, SlotsOld, hpc, hsame] at h ⊢
      exact ⟨htested (by simp [hpc, Pc.PastTest]) h.1, h.2⟩
    | final => simp only [SnapOk, hpc]
    | _ =>
      simp only [SnapOk, SlotsOld, hpc, hsame] at h ⊢
      exact h
  | sendFinished | readRefs todo | readDist | putRefs todo =>
    simp only [SnapOk, SlotsPrev, hpc, hsame] at h ⊢
    exact ⟨htested (by simp [hpc, Pc.PastTest]) h.1, h.2⟩
  | start | localTest | checkLocal | checkDist | checkRefs _ _ | putIds _ | readIds _ =>
    simp only [SnapOk, SlotsPrev, SlotsOld, hpc, hsame] at h ⊢
    exact h
  | _ => simp only [SnapOk, hpc]

variable {W}

theorem Tested.opStep {s s' : State P} {a : Action P} {p : Fin P} {t : Task P}
    (h : Tested W s p t) (hb : t.Below s p) (ht : s.task p = some t) (hpast : t.pc.PastTest)
    (hc : Careful W s a) (hs : OpStep s a s') : Tested W s' p t := by
  intro hW
  rcases h hW with hnone | ⟨q, hq⟩
  · rcases opStep_vacant hs hnone with hnone' | ⟨m, _, hdst, rfl⟩ | ⟨g, rfl, hvalid⟩
    · exact Or.inl hnone'
    · refine Or.inr ⟨m.src, ?_⟩
      subst hdst
      have hprev := hb.prev m.src
      simp only [State.opened, update₂_self]
      omega
    · exact absurd hnone.1 (hc t ht hW hpast hvalid)
  · refine Or.inr ⟨q, ?_⟩
    have hprev := hb.prev q
    have hgrown := (opStep_grown hs).refs p q
    omega

/-- Every task knows its words. -/
def Snapped (W : DarcMode → Prop) (s : State P) : Prop :=
  ∀ p t, s.task p = some t → SnapOk W s p t

theorem Snapped.opStep {s s' : State P} {a : Action P} (h : Snapped W s) (hb : Bounded s)
    (hc : Careful W s a) (hs : OpStep s a s') : Snapped W s' := by
  have hold : ∀ r t, s.task r = some t → SnapOk W s' r t := by
    intro r t hr
    refine SnapOk.frame W (h r t hr) (fun q => by rw [(opStep_frame hs).1]) ?_
    exact fun hpast htested => htested.opStep (hb.tasks r t hr) hr hpast hc hs
  rcases opStep_task hs with htask | ⟨p, m, _, htask⟩
  · intro r t hr
    rw [htask] at hr
    exact hold r t hr
  · refine forall_task_update htask (fun t' ht' => ?_) (fun r t' _ hr => hold r t' hr)
    cases ht'
    exact fun q => rfl

/-- A put that changes nothing: the word of the last round, or of the last call, is what
was read. -/
theorem slot_eq_of_kept {slot prev old : ℕ} (hslot : slot = prev ∨ prev = 0)
    (hle : slot ≤ old) (hsame : prev = old) : slot = old := by
  omega

/-- The task of `p` after its step, if it still runs. -/
theorem SnapOk.taskStep {s s' : State P} {p : Fin P} {t t' : Task P} (h : SnapOk W s p t)
    (hb : Bounded s) (ht : s.task p = some t)
    (hc : W t.state → t.pc = .localTest → Vacant s p) (hs : TaskStep s p t s')
    (ht' : s'.task p = some t') : SnapOk W s' p t' := by
  cases hs
  case returnFinal => simp [State.returned] at ht'
  case soloReturn => simp [State.returned] at ht'
  case spin hpc =>
    change s.task p = some t' at ht'
    rw [ht, Option.some_inj] at ht'
    subst ht'
    rcases hpc with ⟨todo, hpc⟩ | ⟨todo, hpc⟩ | hpc
    all_goals simp only [SnapOk, hpc]
  all_goals
    simp only [State.setTask, State.enter, State.called, State.putRef, State.putId,
      State.putMode, State.sendFinished, Function.update_self, Option.some_inj] at ht'
    subst ht'
  case enterInitial hpc _ =>
    simp only [SnapOk, hpc] at h
    exact h
  case passInitial hpc _ =>
    simp only [SnapOk, hpc] at h
    exact fun q => Or.inr (h q)
  case localTest hpc _ =>
    simp only [SnapOk, hpc] at h
    exact ⟨fun hW => Or.inl (hc hW hpc), h⟩
  case sendFinished hpc =>
    simp only [SnapOk, hpc] at h
    exact ⟨h.1, h.2, fun q hq => absurd (Finset.mem_univ q) hq⟩
  case readRef q todo hpc hq =>
    simp only [SnapOk, hpc] at h
    refine ⟨h.1, h.2.1, fun r hr => ?_⟩
    by_cases hrq : r = q
    · subst hrq
      simp only [Function.update_self]
      exact hb.slots p r
    · simp only [Function.update_of_ne hrq]
      exact h.2.2 r (fun hmem => hr (Finset.mem_erase.mpr ⟨hrq, hmem⟩))
  case readLocal hpc =>
    simp only [SnapOk, hpc] at h
    exact ⟨h.1, h.2.1, fun q => h.2.2 q (by simp)⟩
  case readDist hpc =>
    simp only [SnapOk, hpc] at h
    exact ⟨h.1, fun q _ => ⟨h.2.1 q, h.2.2 q⟩, fun q hq => absurd (Finset.mem_univ q) hq⟩
  case keepRef q todo hpc hq hsame =>
    simp only [SnapOk, hpc] at h
    refine ⟨h.1, fun r hr => h.2.1 r (Finset.mem_of_mem_erase hr), fun r hr => ?_⟩
    by_cases hrq : r = q
    · subst hrq
      obtain ⟨hslot, hle⟩ := h.2.1 r hq
      exact ⟨slot_eq_of_kept hslot hle hsame, fun _ => hsame⟩
    · exact h.2.2 r (fun hmem => hr (Finset.mem_erase.mpr ⟨hrq, hmem⟩))
  case putRef q todo hpc hq hdiff =>
    simp only [SnapOk, hpc] at h
    refine ⟨h.1, fun r hr => ?_, fun r hr => ⟨?_, fun hflag => by cases hflag⟩⟩
    · have hrq : r ≠ q := Finset.ne_of_mem_erase hr
      simp only [State.setTask, State.putRef, update₂_of_ne _ _ (Or.inl hrq)]
      exact h.2.1 r (Finset.mem_of_mem_erase hr)
    · by_cases hrq : r = q
      · subst hrq
        exact update₂_self _ _ _ _
      · simp only [State.setTask, State.putRef, update₂_of_ne _ _ (Or.inl hrq)]
        exact (h.2.2 r (fun hmem => hr (Finset.mem_erase.mpr ⟨hrq, hmem⟩))).1
  case enterCounted hpc =>
    simp only [SnapOk, hpc] at h
    exact ⟨h.1, fun q => (h.2.2 q (by simp)).1,
      fun hflag => funext fun q => (h.2.2 q (by simp)).2 hflag⟩
  case passCounted hpc _ =>
    simp only [SnapOk, hpc] at h
    exact h.2.1
  case enterChecked sum hpc =>
    simp only [SnapOk, hpc] at h
    intro q
    simp only [State.enter, Task.resetId]
    split
    · exact h q
    · exact h q
  case loop hpc _ =>
    simp only [SnapOk, hpc] at h
    exact fun q => Or.inl (h q)
  case checkLocal hpc | checkDist hpc | checkRef hpc _ | passChecked hpc _ | putId hpc _
    | enterVoted hpc | passVoted hpc _ | readId hpc _ =>
    simp only [SnapOk, hpc] at h
    exact h
  all_goals trivial

theorem Snapped.taskStep {s s' : State P} {p : Fin P} {t : Task P} (h : Snapped W s)
    (hb : Bounded s) (ht : s.task p = some t)
    (hc : W t.state → t.pc = .localTest → Vacant s p) (hs : TaskStep s p t s') :
    Snapped W s' := by
  have htask := taskStep_task_eq ht hs
  refine forall_task_update htask (fun t' ht' => ?_) (fun r t' hrp hr => ?_)
  · exact (h p t ht).taskStep hb ht hc hs ht'
  · refine SnapOk.frame W (h r t' hr) (fun q => ?_) (fun _ htested hW => ?_)
    · exact (taskStep_slots hs q r).resolve_right (fun hand => hrp hand.1)
    · rw [(taskStep_frame hs).2.1]
      exact (htested hW).imp_left fun h => h.taskStep hs (taskStep_handles ht hs hrp)

theorem Snapped.step {s s' : State P} {a : Action P} (h : Snapped W s) (ho : Owned s)
    (hb : Bounded s) (ha : StartsAlone s a) (hc : Careful W s a) (hs : s.step a = some s') :
    Snapped W s' := by
  rcases ho.single.cases ha hs with hop | ⟨p, q, t, rfl, ht, htask⟩
  · exact h.opStep hb hc hop
  · exact h.taskStep hb ht (hc t ht) htask

end Test

end Lamellar.Darc
