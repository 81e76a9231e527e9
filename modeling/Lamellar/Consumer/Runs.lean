import Lamellar.Consumer.Workers
import Lamellar.Lib.Draining

/-!
# What the workers have taken at the end

Under `sched_static` every worker runs through its own range. Under `sched_dynamic` every index
below the bound is taken once, from `fetch_add`; under `sched_work_stealing` once, from the ranges
that the workers take from each other (`Stealers`, which the tasks refine). There, a worker takes
what the iterator hands out first at the index.
-/

namespace Lamellar.Consumer

open Lamellar.Draining Lamellar.Transition

section Taking

variable {C α : Type} {iter : C} {s : State C α} {n v w : ℕ}

/-- How far a worker is from its end, if it takes nothing more -/
def Worker.rank : Worker C → ℕ
  | .waiting => 5
  | .iterating _ => 4
  | .stealing _ => 3
  | .holding _ _ _ => 2
  | .resuming _ => 1
  | .done => 0

/-- All the items that the first `n` workers have taken -/
def total (n : ℕ) (s : State C α) : Multiset α :=
  ∑ w ∈ Finset.range n, (s.applied w : Multiset α)

theorem setWorker_worker_self {worker : Worker C} : (s.setWorker w worker).worker w = worker := by
  simp [State.setWorker]

theorem take_worker_of_ne {item : Option α × C} {otherwise : C → Worker C} (hv : v ≠ w) :
    (s.take w item otherwise).worker v = s.worker v ∧
      (s.take w item otherwise).applied v = s.applied v := by
  rcases item with ⟨_ | x, iter⟩
  · exact ⟨Function.update_of_ne hv _ _, rfl⟩
  · exact ⟨Function.update_of_ne hv _ _, Function.update_of_ne hv _ _⟩

theorem take_self {x : Option α} {otherwise : C → Worker C} :
    (s.take w (x, iter) otherwise).applied w = s.applied w ++ x.toList ∧
      (s.take w (x, iter) otherwise).worker w =
        if x.isSome then .iterating iter else otherwise iter := by
  cases x with
  | none => exact ⟨(List.append_nil _).symm, Function.update_self _ _ _⟩
  | some x => exact ⟨Function.update_self _ _ _, Function.update_self _ _ _⟩

theorem take_worker {x : Option α} {otherwise : C → Worker C} :
    (s.take w (x, iter) otherwise).worker =
      Function.update s.worker w (if x.isSome then .iterating iter else otherwise iter) := by
  cases x <;> rfl

theorem take_range {item : Option α × C} {otherwise : C → Worker C} :
    (s.take w item otherwise).range = s.range := by
  obtain ⟨_ | x, iter⟩ := item <;> rfl

theorem take_iterating (item : Option α × C) :
    (s.take w item .iterating).worker w = .iterating item.2 := by
  obtain ⟨x, iter⟩ := item
  rw [take_self.2, ite_self]

theorem take_cur {item : Option α × C} {otherwise : C → Worker C} :
    (s.take w item otherwise).cur = s.cur := by
  obtain ⟨_ | x, iter⟩ := item <;> rfl

theorem total_take (hw : w < n) {item : Option α × C} {otherwise : C → Worker C} :
    total n (s.take w item otherwise) = total n s + (item.1.toList : Multiset α) := by
  obtain ⟨x, iter⟩ := item
  obtain ⟨others, hbefore, hafter⟩ := Tally.sum_change hw (fun v => (s.applied v : Multiset α))
    (fun v => ((s.take w (x, iter) otherwise).applied v : Multiset α))
    fun v hv => congrArg _ (take_worker_of_ne hv).2
  rw [total, hafter, take_self.1, total, hbefore, ← Multiset.coe_add]
  exact add_right_comm _ _ _

/-- What every task has taken, in the order of the tasks -/
def gathered (tasks : List IterSchedule) (s : State C α) : List α :=
  (List.range tasks.length).flatMap s.applied

theorem coe_gathered : (gathered tasks s : Multiset α) = total tasks.length s := by
  have hsum := Tally.sum_range_eq_flatMap (List.range tasks.length) (f := s.applied)
    (g := s.applied) fun k a ha => by
      obtain ⟨hk, hget⟩ := List.getElem?_eq_some_iff.mp ha
      rw [List.getElem_range] at hget
      rw [hget]
  rw [List.length_range] at hsum
  exact hsum.symm

end Taking

variable {C α : Type} [IterConsumer C α]

/-- A range may be taken from an iterator that has been used. -/
structure Restarts (C : Type) [IterConsumer C α] : Prop where
  init_init (st : C) (start cnt start' cnt' : ℕ) :
    init (init st start cnt) start' cnt' = init st start' cnt'
  init_next (st : C) (start cnt : ℕ) : init (next st).2 start cnt = init st start cnt

/-- A range taken from `iter` is one taken from `it`. -/
def Copy (it iter : C) : Prop := ∀ start cnt, init iter start cnt = init it start cnt

/-- What is handed out first at an index -/
def first (it : C) (i : ℕ) : Option α := (next (init it i 1)).1

variable {it iter : C} {tasks : List IterSchedule} {s s' : State C α} {n v w : ℕ}

theorem Copy.init (h : Restarts C) (hiter : Copy it iter) (start cnt : ℕ) :
    Copy it (init iter start cnt) := fun start' cnt' => by
  rw [h.init_init, hiter]

theorem Copy.next (h : Restarts C) (hiter : Copy it iter) : Copy it (next iter).2 :=
  fun start cnt => by rw [h.init_next, hiter]

/-- A step of worker `w` changes what no other worker has, nor where it is. -/
theorem step_of_ne (h : step it tasks s (w, v) = some s') {u : ℕ} (hu : u ≠ w) :
    s'.worker u = s.worker u ∧ s'.applied u = s.applied u := by
  have hset (s : State C α) (worker : Worker C) :
      (s.setWorker w worker).worker u = s.worker u ∧
        (s.setWorker w worker).applied u = s.applied u :=
    ⟨Function.update_of_ne hu _ _, rfl⟩
  have hinner (iter : C) (again : C → Worker C) (exhausted : Worker C) :
      (innerNext s w iter again exhausted).worker u = s.worker u ∧
        (innerNext s w iter again exhausted).applied u = s.applied u := by
    rw [innerNext]
    rcases (s.range w).next with ⟨_ | ri, range⟩
    · exact hset _ _
    · exact take_worker_of_ne hu
  simp only [step, Option.bind_eq_bind, Option.bind_eq_some_iff] at h
  obtain ⟨sched, -, h⟩ := h
  split at h
  · cases h
    exact hset _ _
  · cases h
    exact take_worker_of_ne hu
  · split at h
    · cases h
      exact take_worker_of_ne hu
    · cases h
      exact hset _ _
  · split at h
    · cases h
      exact take_worker_of_ne hu
    · split at h
      · cases h
        exact take_worker_of_ne hu
      · cases h
        exact hset _ _
  · cases h
    exact hinner _ _ _
  · split at h
    · split at h
      · cases h
        exact hset _ _
      · cases h
        exact hset _ _
    · cases h
  · cases h
    exact hset _ _
  · cases h
    exact hinner _ _ _
  · cases h

/-! ## `sched_static` -/

/-- A worker and what it has taken, where its range hands out `items` -/
def Takes (items : List α) : Worker C → List α → Prop
  | .waiting, applied => applied = []
  | .iterating iter, applied => ∃ rest, Drains next size iter rest ∧ applied ++ rest = items
  | .done, applied => applied = items
  | _, _ => False

theorem Takes.take {items : List α} (h : Takes items (.iterating iter) (s.applied w))
    {s' : State C α} (hs' : s' = s.take w (next iter) fun _ => .done) :
    Takes items (s'.worker w) (s'.applied w) ∧
      (s'.worker w).rank + 4 * (items.length - (s'.applied w).length) <
        4 + 4 * (items.length - (s.applied w).length) := by
  obtain ⟨rest, hdrains, hitems⟩ := h
  cases hdrains with
  | done hnone =>
    rcases hnext : next iter with ⟨x, iter'⟩
    rw [hnext] at hnone
    cases hnone
    rw [hs', hnext, take_self.1, take_self.2]
    refine ⟨hitems, ?_⟩
    rw [Option.toList_none, List.append_nil]
    exact Nat.add_lt_add_right (show 0 < 4 by decide) _
  | @item _ iter' x rest hnext _ hrest =>
    rw [hs', hnext, take_self.1, take_self.2]
    refine ⟨⟨rest, hrest, by rw [← hitems, List.append_assoc]; rfl⟩, ?_⟩
    have hlength := congrArg List.length hitems
    rw [List.length_append, List.length_cons] at hlength
    rw [Option.toList_some, List.length_append, List.length_singleton]
    change 4 + _ < _
    omega

/-- A step of a worker that has a range of its own -/
theorem Takes.step {startI endI : ℕ} {items : List α}
    (hsched : tasks[w]? = some (.static startI endI))
    (hitems : Drains next size (init it startI (endI - startI)) items)
    (h : Takes items (s.worker w) (s.applied w)) (hstep : step it tasks s (w, v) = some s') :
    Takes items (s'.worker w) (s'.applied w) ∧
      (s'.worker w).rank + 4 * (items.length - (s'.applied w).length) <
        (s.worker w).rank + 4 * (items.length - (s.applied w).length) := by
  simp only [Consumer.step, hsched, Option.bind_eq_bind, Option.bind_some] at hstep
  cases hworker : s.worker w with
  | waiting =>
    rw [hworker] at hstep h
    cases hstep
    have happlied : s.applied w = [] := h
    rw [setWorker_worker_self]
    exact ⟨⟨items, hitems, congrArg (· ++ items) happlied⟩,
      Nat.add_lt_add_right (show 4 < 5 by decide) _⟩
  | iterating iter =>
    rw [hworker] at hstep h
    cases hstep
    exact h.take rfl
  | done =>
    rw [hworker] at hstep
    cases hstep
  | _ =>
    rw [hworker] at h
    exact h.elim

theorem getElem?_launch_static {ranges : List (ℕ × ℕ)} {rng : ℕ × ℕ}
    (hrng : ranges[w]? = some rng) :
    (Schedule.static.launch n v ranges)[w]? = some (.static rng.1 rng.2) := by
  rw [Schedule.launch, List.getElem?_map, hrng]
  rfl

/-- Every worker takes the items of its range. -/
theorem static_takes {ranges : List (ℕ × ℕ)} {items : ℕ × ℕ → List α}
    (hitems : ∀ rng ∈ ranges, Drains next size (init it rng.1 (rng.2 - rng.1)) (items rng))
    (hs : Reached it (Schedule.static.launch n v ranges) ranges s) :
    ∀ w rng, ranges[w]? = some rng → Takes (items rng) (s.worker w) (s.applied w) := by
  refine hs.invariant (I := fun s : State C α => ∀ w rng, ranges[w]? = some rng →
    Takes (items rng) (s.worker w) (s.applied w)) ?_ ?_
  · rintro s rfl w rng _
    exact rfl
  · rintro s ⟨u, t⟩ s' h - hstep w rng hrng
    by_cases hwu : w = u
    · subst hwu
      exact (Takes.step (getElem?_launch_static hrng) (hitems rng (List.mem_of_getElem? hrng))
        (h w rng hrng) hstep).1
    · have hkeep := step_of_ne hstep hwu
      rw [hkeep.1, hkeep.2]
      exact h w rng hrng

/-- Every worker takes the items of its range, in their order. -/
theorem static_gathered {ranges : List (ℕ × ℕ)} {items : ℕ × ℕ → List α}
    (hitems : ∀ rng ∈ ranges, Drains next size (init it rng.1 (rng.2 - rng.1)) (items rng))
    (hs : Reached it (Schedule.static.launch n v ranges) ranges s)
    (hfinal : Final (Schedule.static.launch n v ranges) s) :
    gathered (Schedule.static.launch n v ranges) s = ranges.flatMap items := by
  have hlength : (Schedule.static.launch n v ranges).length = ranges.length := List.length_map _
  have hget (w : ℕ) (hw : w < ranges.length) : s.applied w = items (ranges[w]) := by
    have htaken := static_takes hitems hs w ranges[w] (List.getElem?_eq_getElem hw)
    rw [hfinal w (by rw [hlength]; exact hw)] at htaken
    exact htaken
  rw [gathered, hlength, List.flatMap_def, List.flatMap_def]
  congr 1
  refine List.ext_getElem (by simp) fun w hw hw' => ?_
  rw [List.getElem_map, List.getElem_map, List.getElem_range]
  exact hget w (by simpa using hw)

/-! ## `sched_dynamic` -/

theorem filterMap_append_singleton (f : ℕ → Option α) (l : List ℕ) (i : ℕ) :
    Multiset.filterMap f ((l ++ [i] : List ℕ) : Multiset ℕ) =
      Multiset.filterMap f l + ((f i).toList : Multiset α) := by
  rw [Multiset.filterMap_coe, Multiset.filterMap_coe, List.filterMap_append, ← Multiset.coe_add]
  cases hi : f i with
  | none => simp [hi]
  | some x => simp [hi]

theorem filterMap_range_succ (f : ℕ → Option α) (k : ℕ) :
    Multiset.filterMap f (Multiset.range (k + 1)) =
      Multiset.filterMap f (Multiset.range k) + ((f k).toList : Multiset α) := by
  rw [Multiset.range, List.range_succ, filterMap_append_singleton]
  rfl

/-- A worker that takes single indices below `n`, the next of which is `cur` -/
def Counts (it : C) (n cur : ℕ) : Worker C → Prop
  | .waiting => True
  | .iterating iter => Copy it iter
  | .done => n ≤ cur
  | _ => False

theorem Counts.mono {cur : ℕ} {worker : Worker C} (h : Counts it n cur worker) :
    Counts it n (cur + 1) worker := by
  cases worker with
  | done => exact Nat.le_succ_of_le h
  | _ => exact h

/-- What `k` workers have taken, who share out the indices below `n` -/
structure Counted (it : C) (n k : ℕ) (s : State C α) : Prop where
  total_eq : total k s = (Multiset.range (min s.cur n)).filterMap (first it)
  counts : ∀ w < k, Counts it n s.cur (s.worker w)

theorem Counted.step (hrestarts : Restarts C) {k : ℕ} (h : Counted it n k s)
    (hstep : step it (List.replicate k (.dynamic n)) s (w, v) = some s') :
    Counted it n k s' ∧
      (s'.worker w).rank + 4 * (n - s'.cur) < (s.worker w).rank + 4 * (n - s.cur) := by
  have hother (u : ℕ) (hu : u ≠ w) : s'.worker u = s.worker u := (step_of_ne hstep hu).1
  simp only [Consumer.step, Option.bind_eq_bind, Option.bind_eq_some_iff] at hstep
  obtain ⟨sched, hsched, hstep⟩ := hstep
  obtain ⟨hw, hget⟩ := List.getElem?_eq_some_iff.mp hsched
  rw [List.getElem_replicate] at hget
  subst hget
  rw [List.length_replicate] at hw
  have hself := h.counts w hw
  -- only worker `w` has moved, and the index has not gone back
  have hcounts (hcur : s'.cur = s.cur ∨ s'.cur = s.cur + 1)
      (hw' : Counts it n s'.cur (s'.worker w)) : ∀ u < k, Counts it n s'.cur (s'.worker u) := by
    intro u hu
    by_cases huw : u = w
    · rw [huw]
      exact hw'
    · rw [hother u huw]
      rcases hcur with hcur | hcur
      · rw [hcur]
        exact h.counts u hu
      · rw [hcur]
        exact (h.counts u hu).mono
  cases hworker : s.worker w with
  | waiting =>
    rw [hworker] at hstep
    cases hstep
    refine ⟨⟨h.total_eq, hcounts (Or.inl rfl) ?_⟩, ?_⟩
    · rw [setWorker_worker_self]
      exact fun _ _ => rfl
    · rw [setWorker_worker_self]
      exact Nat.add_lt_add_right (show 4 < 5 by decide) _
  | iterating iter =>
    rw [hworker] at hstep hself
    dsimp only at hstep
    split at hstep
    · rename_i hlt
      cases hstep
      refine ⟨⟨?_, hcounts (Or.inr take_cur) ?_⟩, ?_⟩
      · have htotal := h.total_eq
        rw [Nat.min_eq_left hlt.le] at htotal
        rw [total_take hw, take_cur, Nat.min_eq_left (show s.cur + 1 ≤ n from hlt),
          filterMap_range_succ, ← htotal, hself s.cur 1]
        rfl
      · rw [take_iterating]
        exact (hself.init hrestarts s.cur 1).next hrestarts
      · rw [take_iterating, take_cur]
        simp only [Worker.rank]
        omega
    · rename_i hge
      cases hstep
      refine ⟨⟨?_, hcounts (Or.inr rfl) ?_⟩, ?_⟩
      · have htotal := h.total_eq
        rw [Nat.min_eq_right (Nat.le_of_not_lt hge)] at htotal
        exact htotal.trans
          (by rw [Nat.min_eq_right]; exact Nat.le_succ_of_le (Nat.le_of_not_lt hge))
      · rw [setWorker_worker_self]
        exact Nat.le_succ_of_le (Nat.le_of_not_lt hge)
      · rw [setWorker_worker_self]
        simp only [Worker.rank, State.setWorker]
        omega
  | done =>
    rw [hworker] at hstep
    cases hstep
  | _ =>
    rw [hworker] at hself
    exact hself.elim

theorem dynamic_counted (hrestarts : Restarts C) {ranges : List (ℕ × ℕ)}
    (hs : Reached it (Schedule.dynamic.launch v n ranges) ranges s) : Counted it n (min v n) s := by
  refine hs.invariant ?_ fun s a s' h _ hstep => (h.step hrestarts hstep).1
  rintro s rfl
  refine ⟨?_, fun w _ => trivial⟩
  rw [start, Nat.zero_min]
  exact Finset.sum_const_zero

/-- Every index below `n` is taken once. -/
theorem dynamic_gathered (hrestarts : Restarts C) {ranges : List (ℕ × ℕ)} (hv : 0 < v)
    (hs : Reached it (Schedule.dynamic.launch v n ranges) ranges s)
    (hfinal : Final (Schedule.dynamic.launch v n ranges) s) :
    (gathered (Schedule.dynamic.launch v n ranges) s : Multiset α) =
      (Multiset.range n).filterMap (first it) := by
  have hinv := dynamic_counted hrestarts hs
  have hlength : (Schedule.dynamic.launch v n ranges).length = min v n := List.length_replicate
  rw [coe_gathered, hlength, hinv.total_eq]
  rcases Nat.eq_zero_or_pos n with rfl | hn
  · rw [Nat.min_zero]
  · have hdone := hinv.counts 0 (by omega)
    rw [hfinal 0 (by omega)] at hdone
    rw [Nat.min_eq_right hdone]

/-! ## `sched_work_stealing` -/

/-- Where a worker is, without its iterator -/
def Worker.phase : Worker C → Phase
  | .waiting | .iterating _ => .iterating
  | .stealing _ => .stealing
  | .holding _ startI endI => .holding startI endI
  | .resuming _ => .resuming
  | .done => .stopped

/-- The iterator of a worker, if it has one, takes ranges as `it` does. -/
def Worker.Copies (it : C) : Worker C → Prop
  | .waiting | .done => True
  | .iterating iter | .stealing iter | .holding iter _ _ | .resuming iter => Copy it iter

/-- `t` is the state of the work stealers in `s`: the workers have taken what the iterator hands out
first at the indices that were handed to them. -/
structure Refines (it : C) (k : ℕ) (s : State C α) (t : Stealers) : Prop where
  range : t.range = s.range
  phase (w : ℕ) : t.phase w = (s.worker w).phase
  copies (w : ℕ) : (s.worker w).Copies it
  total_eq : total k s = t.given.filterMap (first it)

variable {k : ℕ} {t : Stealers}

/-- A step that changes the range of `u` and moves worker `w`, and takes nothing -/
theorem Refines.update (h : Refines it k s t) (u w : ℕ) (range : IterWorkStealer)
    {worker : Worker C} (hcopies : worker.Copies it) :
    Refines it k ((s.setRange u range).setWorker w worker)
      ((t.setRange u range).setPhase w worker.phase) where
  range := by
    change Function.update t.range u range = Function.update s.range u range
    rw [h.range]
  phase x := by
    change Function.update t.phase w worker.phase x = (Function.update s.worker w worker x).phase
    by_cases hx : x = w
    · rw [hx, Function.update_self, Function.update_self]
    · rw [Function.update_of_ne hx, Function.update_of_ne hx]
      exact h.phase x
  copies x := by
    change (Function.update s.worker w worker x).Copies it
    by_cases hx : x = w
    · rw [hx, Function.update_self]
      exact hcopies
    · rw [Function.update_of_ne hx]
      exact h.copies x
  total_eq := h.total_eq

/-- The index that `next` gives is handed out, and what the iterator hands out there is taken. -/
theorem Refines.innerNext (h : Refines it k s t) (hrestarts : Restarts C) (hw : w < k)
    (hiter : Copy it iter) (again : C → Worker C) (exhausted : Worker C)
    (hagain : ∀ iter', Copy it iter' → (again iter').Copies it) (hexhausted : exhausted.Copies it)
    {p : Phase} (hp : ∀ iter', (again iter').phase = p) :
    Refines it k (innerNext s w iter again exhausted)
      (t.takeNext w (if (first it (s.range w).startI).isSome then .iterating else p)
        exhausted.phase) := by
  rw [Consumer.innerNext, Stealers.takeNext, h.range]
  rcases Nat.lt_or_ge (s.range w).startI (s.range w).endI with hlt | hge
  · rw [IterWorkStealer.next_of_lt hlt]
    dsimp only
    have hcopy := (hiter.init hrestarts (s.range w).startI 1).next hrestarts
    have hfirst : first it (s.range w).startI = (next (init iter (s.range w).startI 1)).1 := by
      rw [first, hiter]
    rw [hfirst]
    rcases hnext : next (init iter (s.range w).startI 1) with ⟨x, iter'⟩
    rw [hnext] at hcopy hfirst
    have hphase : (if x.isSome then Phase.iterating else p) =
        (if x.isSome then Worker.iterating iter' else again iter').phase := by
      cases x with
      | none => exact (hp iter').symm
      | some x => rfl
    have hcopies : (if x.isSome then Worker.iterating iter' else again iter').Copies it := by
      cases x with
      | none => exact hagain iter' hcopy
      | some x => exact hcopy
    have hmoved := h.update w w { s.range w with startI := (s.range w).startI + 1 } hcopies
    rw [hphase]
    refine ⟨?_, fun u => ?_, fun u => ?_, ?_⟩
    · rw [take_range]
      exact hmoved.range
    · rw [take_worker]
      exact hmoved.phase u
    · rw [take_worker]
      exact hmoved.copies u
    · rw [total_take hw]
      change total k s + _ = Multiset.filterMap _
        (((t.handed ++ [(w, (s.range w).startI)]).map Prod.snd : List ℕ) : Multiset ℕ)
      rw [List.map_append, List.map_singleton, filterMap_append_singleton, hfirst, h.total_eq]
      rfl
  · rw [IterWorkStealer.next_of_le hge]
    exact h.update w w _ hexhausted

/-- A step that moves worker `w` and changes no range -/
theorem Refines.move (h : Refines it k s t) (w : ℕ) {worker : Worker C}
    (hcopies : worker.Copies it) :
    Refines it k (s.setWorker w worker) (t.setPhase w worker.phase) := by
  have hmoved := h.update w w (s.range w) hcopies
  have hs : s.setRange w (s.range w) = s := by
    rw [State.setRange, Function.update_eq_self]
  have ht : t.setRange w (s.range w) = t := by
    rw [Stealers.setRange, ← h.range, Function.update_eq_self]
  rw [hs, ht] at hmoved
  exact hmoved

/-- Every step of a task is one of the work stealers, or the start of the task. -/
theorem Refines.step (h : Refines it k s t) (hrestarts : Restarts C)
    (hstep : step it (List.replicate k .workStealing) s (w, v) = some s') :
    ∃ t', Refines it k s' t' ∧ (t' = t ∧ s.worker w = .waiting ∨
      s.worker w ≠ .waiting ∧ ∃ a : Steal, a.worker = w ∧ t.step k a = some t') := by
  simp only [Consumer.step, Option.bind_eq_bind, Option.bind_eq_some_iff] at hstep
  obtain ⟨sched, hsched, hstep⟩ := hstep
  obtain ⟨hw, hget⟩ := List.getElem?_eq_some_iff.mp hsched
  rw [List.getElem_replicate] at hget
  subst hget
  rw [List.length_replicate] at hw hstep
  have hphase := h.phase w
  have hcopies := h.copies w
  cases hworker : s.worker w with
  | waiting =>
    rw [hworker] at hstep hphase
    cases hstep
    have hmoved := h.move w (show (Worker.iterating (initIter it .workStealing s w)).Copies it from
      fun start' cnt' => hrestarts.init_init _ _ _ _ _)
    refine ⟨t, ?_, Or.inl ⟨rfl, rfl⟩⟩
    have hkeep : t.setPhase w .iterating = t := by
      rw [Stealers.setPhase, show Phase.iterating = t.phase w from hphase.symm,
        Function.update_eq_self]
    rw [← hkeep]
    exact hmoved
  | iterating iter =>
    rw [hworker] at hstep hphase hcopies
    cases hstep
    have hmoved := h.innerNext hrestarts hw hcopies .iterating (.stealing iter)
      (fun _ hiter' => hiter') hcopies fun _ => rfl
    rw [ite_self] at hmoved
    refine ⟨_, hmoved, Or.inr ⟨by simp, .next w true, rfl, ?_⟩⟩
    rw [Stealers.step, if_pos hw, hphase]
    rfl
  | stealing iter =>
    rw [hworker] at hstep hphase hcopies
    dsimp only at hstep
    split at hstep
    · rename_i hv
      have hguard : w < k ∧ v < k ∧ t.phase w = .stealing := ⟨hw, hv, hphase⟩
      rcases hsteal : (s.range v).steal with ⟨_ | ⟨startI, endI⟩, range⟩
      · rw [hsteal] at hstep
        cases hstep
        refine ⟨_, h.move w trivial, Or.inr ⟨by simp, .steal w v, rfl, ?_⟩⟩
        rw [Stealers.step, if_pos hguard, h.range, hsteal]
        rfl
      · rw [hsteal] at hstep
        cases hstep
        refine ⟨_, h.update v w range (hcopies.init hrestarts _ _),
          Or.inr ⟨by simp, .steal w v, rfl, ?_⟩⟩
        rw [Stealers.step, if_pos hguard, h.range, hsteal]
        rfl
    · cases hstep
  | holding iter startI endI =>
    rw [hworker] at hstep hphase hcopies
    cases hstep
    refine ⟨_, h.update w w ⟨startI, endI⟩ hcopies, Or.inr ⟨by simp, .setRange w, rfl, ?_⟩⟩
    rw [Stealers.step, if_pos hw, hphase]
    rfl
  | resuming iter =>
    rw [hworker] at hstep hphase hcopies
    cases hstep
    have hmoved := h.innerNext hrestarts hw hcopies .resuming .done (fun _ hiter' => hiter')
      trivial fun _ => rfl
    refine ⟨_, hmoved, Or.inr ⟨by simp, .next w (first it (s.range w).startI).isSome, rfl, ?_⟩⟩
    rw [Stealers.step, if_pos hw, hphase]
    rfl
  | done =>
    rw [hworker] at hstep
    cases hstep

omit [IterConsumer C α] in
/-- The ranges that the tasks begin with share the positions out. -/
theorem sum_indices {ranges : List (ℕ × ℕ)} (htiles : Tiling.Tiles 0 ranges n) :
    ∑ w ∈ Finset.range ranges.length, ((start C α ranges).range w).indices = Multiset.range n := by
  have hsum := Tally.sum_range_eq_flatMap ranges (f := fun rng => List.range' rng.1 (rng.2 - rng.1))
    (g := fun w => List.range' ((start C α ranges).range w).startI
      (((start C α ranges).range w).endI - ((start C α ranges).range w).startI))
    fun w rng hrng => by simp [start, hrng]
  have htiled := htiles.filterMap some
  simp only [List.filterMap_some] at htiled
  rw [htiled, Nat.sub_zero, ← List.range_eq_range'] at hsum
  exact hsum

theorem workStealing_refines (hrestarts : Restarts C) {ranges : List (ℕ × ℕ)}
    (hs : Reached it (Schedule.workStealing.launch v n ranges) ranges s) :
    ∃ t, Stealers.Reached ranges.length (start C α ranges).range t ∧
      Refines it ranges.length s t := by
  refine hs.invariant (I := fun s => ∃ t, Stealers.Reached ranges.length
    (start C α ranges).range t ∧ Refines it ranges.length s t) ?_ ?_
  · rintro s rfl
    refine ⟨Stealers.start (start C α ranges).range, .init rfl, rfl, fun w => rfl,
      fun w => trivial, ?_⟩
    exact Finset.sum_const_zero
  · rintro s ⟨w, u⟩ s' ⟨t, ht, href⟩ - hstep
    obtain ⟨t', href', hmoved⟩ := href.step hrestarts hstep
    rcases hmoved with ⟨rfl, -⟩ | ⟨-, a, -, ha⟩
    · exact ⟨t', ht, href'⟩
    · exact ⟨t', .step ht trivial ha, href'⟩

/-- Every index below `n` is taken once. -/
theorem workStealing_gathered (hrestarts : Restarts C) {ranges : List (ℕ × ℕ)}
    (htiles : Tiling.Tiles 0 ranges n)
    (hs : Reached it (Schedule.workStealing.launch v n ranges) ranges s)
    (hfinal : Final (Schedule.workStealing.launch v n ranges) s) :
    (gathered (Schedule.workStealing.launch v n ranges) s : Multiset α) =
      (Multiset.range n).filterMap (first it) := by
  have hlength : (Schedule.workStealing.launch v n ranges).length = ranges.length :=
    List.length_replicate
  obtain ⟨t, ht, href⟩ := workStealing_refines hrestarts hs
  have hinv := ht.inv
  rw [sum_indices htiles] at hinv
  have hgiven := hinv.given_eq fun w hw => by
    rw [href.phase, hfinal w (by omega)]
    rfl
  rw [coe_gathered, hlength, href.total_eq, hgiven]

end Lamellar.Consumer
