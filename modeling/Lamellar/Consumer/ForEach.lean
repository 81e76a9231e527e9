import Lamellar.Consumer.Collect

/-!
# Every item once

`for_each` calls its function on the items that the tasks take, and `count` adds their numbers up.
Every run ends, and what a complete run takes does not depend on the order of the steps
(`Schedule.share`). Under `sched_chunk` and `sched_guided` a task ends when it draws a range without
items: as many such ranges as there are tasks end the run, and the ranges behind them are lost. A
build with overflow checks also panics where a number leaves the range of its type (`RunFits`).
-/

namespace Lamellar.Consumer

open Lamellar.Draining Lamellar.Tiling Lamellar.Transition

section Shares

variable {α : Type}

/-- The ranges that `k` tasks draw, where a range without items ends a task -/
def drawn (out : ℕ × ℕ → List α) : ℕ → List (ℕ × ℕ) → List (ℕ × ℕ)
  | _, [] => []
  | 0, _ :: _ => []
  | k + 1, rng :: ranges => rng :: drawn out (if (out rng).isEmpty then k else k + 1) ranges

/-- What `numTasks` tasks take of `n` positions, where the iterator hands out `out rng` for the
range `rng`. `init_iter` of a chunk takes the range `(0, 0)`. -/
def Schedule.share (numTasks n : ℕ) (ranges : List (ℕ × ℕ)) (out : ℕ × ℕ → List α) :
    Schedule → List α
  | .static => ranges.flatMap out
  | .dynamic | .workStealing => (List.range n).filterMap fun i => (out (i, i + 1)).head?
  | .chunk _ | .guided =>
    (List.replicate numTasks (0, 0) ++ drawn out numTasks ranges).flatMap out

variable {out : ℕ × ℕ → List α} {k : ℕ} {rng : ℕ × ℕ} {ranges : List (ℕ × ℕ)}

theorem drawn_nil (k : ℕ) : drawn out k [] = [] := by
  cases k <;> rfl

theorem drawn_zero : drawn out 0 ranges = [] := by
  cases ranges <;> rfl

/-- The ranges that no task draws are those at the end. -/
theorem drawn_append_drop (out : ℕ × ℕ → List α) (k : ℕ) (ranges : List (ℕ × ℕ)) :
    drawn out k ranges ++ ranges.drop (drawn out k ranges).length = ranges := by
  induction ranges generalizing k with
  | nil => rw [drawn_nil, List.drop_nil, List.append_nil]
  | cons rng ranges ih =>
    cases k with
    | zero => rfl
    | succ k =>
      rw [drawn, List.length_cons, List.drop_succ_cons, List.cons_append, ih]

theorem drawn_cons_nil (hrng : out rng = []) :
    (drawn out (k + 1) (rng :: ranges)).flatMap out = (drawn out k ranges).flatMap out := by
  rw [drawn, hrng, List.isEmpty_nil, if_pos rfl, List.flatMap_cons, hrng, List.nil_append]

theorem drawn_cons {x : α} {xs : List α} (hrng : out rng = x :: xs) :
    (drawn out (k + 1) (rng :: ranges)).flatMap out =
      x :: xs ++ (drawn out (k + 1) ranges).flatMap out := by
  rw [drawn, hrng, List.isEmpty_cons, if_neg Bool.false_ne_true, List.flatMap_cons, hrng]

end Shares

variable {C α : Type} [IterConsumer C α]

/-- The tasks that `for_each_with_schedule` and `count_with_schedule` launch for `len` local
elements, and their ranges -/
def launch (it : C) (sched : Schedule) (len numWorkers fuel : ℕ) :
    Option (List IterSchedule × List (ℕ × ℕ)) := do
  let n ← maxElems it len
  let ranges ← sched.ranges numWorkers n fuel
  some (sched.launch numWorkers n ranges, ranges)

omit [IterConsumer C α] in
/-- The sum of what the `CountAm`s return -/
def counted (tasks : List IterSchedule) (s : State C α) : ℕ :=
  ((List.range tasks.length).map fun w => (s.applied w).length).sum

/-- The ranges and all steps of all runs compute with numbers in the range of their type: no build
panics, and no number wraps around. -/
def RunFits (it : C) (tasks : List IterSchedule) (ranges : List (ℕ × ℕ)) : Prop :=
  (∀ rng ∈ ranges, rng.2 < word) ∧
    ∀ s : State C α, Reached it tasks ranges s → ∀ a, stepFits it tasks s a

/-- All runs of the tasks end, no task panics or waits for another one, and when all have ended
every one of `items` has been taken once, and is counted. -/
structure VisitsOnce (it : C) (tasks : List IterSchedule) (ranges : List (ℕ × ℕ))
    (items : List α) : Prop where
  fits : RunFits it tasks ranges
  ends : ∃ bound, ∀ actions s,
    run (step it tasks) (start C α ranges) actions = some s → actions.length ≤ bound
  goes_on : ∀ s, Reached it tasks ranges s → Final tasks s ∨ ∃ a s', step it tasks s a = some s'
  visits : ∀ s, Reached it tasks ranges s → Final tasks s →
    (gathered tasks s).Perm items ∧ counted tasks s = items.length

variable {it iter : C} {tasks : List IterSchedule} {ranges : List (ℕ × ℕ)} {s s' : State C α}
  {k n v w : ℕ} {out : ℕ × ℕ → List α}

omit [IterConsumer C α] in
theorem counted_eq : counted tasks s = (gathered tasks s).length := by
  rw [counted, gathered, List.length_flatMap]

/-! ## Steps -/

/-- A task that has not ended goes on. -/
theorem exists_step (hw : w < tasks.length) (hdone : s.worker w ≠ .done) :
    ∃ s', step it tasks s (w, w) = some s' := by
  rw [← Option.isSome_iff_exists]
  simp only [step, List.getElem?_eq_getElem hw, Option.bind_eq_bind, Option.bind_some]
  cases hworker : s.worker w with
  | waiting => rfl
  | iterating iter =>
    cases tasks[w] with
    | static _ _ => rfl
    | dynamic maxI =>
      dsimp only
      split <;> rfl
    | chunk ranges =>
      dsimp only
      rcases next iter with ⟨_ | x, iter⟩
      · dsimp only
        split <;> rfl
      · rfl
    | workStealing => rfl
  | stealing iter =>
    dsimp only
    rw [if_pos hw]
    split <;> rfl
  | holding iter startI endI => rfl
  | resuming iter => rfl
  | done => exact absurd hworker hdone

theorem goes_on (it : C) (tasks : List IterSchedule) (s : State C α) :
    Final tasks s ∨ ∃ a s', step it tasks s a = some s' := by
  by_cases hfinal : Final tasks s
  · exact Or.inl hfinal
  · unfold Final at hfinal
    push Not at hfinal
    obtain ⟨w, hw, hdone⟩ := hfinal
    obtain ⟨s', hs'⟩ := exists_step hw hdone
    exact Or.inr ⟨(w, w), s', hs'⟩

/-- Only the tasks take steps. -/
theorem lt_of_step (h : step it tasks s (w, v) = some s') : w < tasks.length := by
  simp only [step, Option.bind_eq_bind, Option.bind_eq_some_iff] at h
  obtain ⟨sched, hsched, -⟩ := h
  exact (List.getElem?_eq_some_iff.mp hsched).1

theorem step_not_waiting (h : step it tasks s (w, v) = some s') : s'.worker w ≠ .waiting := by
  have hset {s : State C α} {worker : Worker C} (hworker : worker ≠ .waiting) :
      (s.setWorker w worker).worker w ≠ .waiting := by
    rwa [setWorker_worker_self]
  have htake {s : State C α} {item : Option α × C} {otherwise : C → Worker C}
      (hotherwise : ∀ iter, otherwise iter ≠ .waiting) :
      (s.take w item otherwise).worker w ≠ .waiting := by
    obtain ⟨_ | x, iter⟩ := item
    · rw [take_self.2]
      exact hotherwise iter
    · rw [take_self.2]
      simp
  have hinner (iter : C) {again : C → Worker C} {exhausted : Worker C}
      (hagain : ∀ iter, again iter ≠ .waiting) (hexhausted : exhausted ≠ .waiting) :
      (innerNext s w iter again exhausted).worker w ≠ .waiting := by
    rw [innerNext]
    rcases (s.range w).next with ⟨_ | ri, range⟩
    · exact hset hexhausted
    · exact htake hagain
  simp only [step, Option.bind_eq_bind, Option.bind_eq_some_iff] at h
  obtain ⟨sched, -, h⟩ := h
  split at h
  · cases h
    exact hset (by simp)
  · cases h
    exact htake (by simp)
  · split at h
    · cases h
      exact htake (by simp)
    · cases h
      exact hset (by simp)
  · split at h
    · cases h
      exact htake (by simp)
    · split at h
      · cases h
        exact htake (by simp)
      · cases h
        exact hset (by simp)
  · cases h
    exact hinner _ (by simp) (by simp)
  · split at h
    · split at h
      · cases h
        exact hset (by simp)
      · cases h
        exact hset (by simp)
    · cases h
  · cases h
    exact hset (by simp)
  · cases h
    exact hinner _ (by simp) (by simp)
  · cases h

/-! ## All runs end -/

/-- How far the tasks are from their ends, if they take nothing more -/
def ranks (k : ℕ) (s : State C α) : ℕ := ∑ w ∈ Finset.range k, (s.worker w).rank

theorem ranks_lt (hw : w < k) (hstep : step it tasks s (w, v) = some s') {b b' : ℕ}
    (hlt : (s'.worker w).rank + b' < (s.worker w).rank + b) : ranks k s' + b' < ranks k s + b :=
  Tally.sum_add_lt hw (fun _ hu => congrArg Worker.rank (step_of_ne hstep hu).1) hlt

theorem static_ends (hout : ∀ rng ∈ ranges, Drains next size (init it rng.1 (rng.2 - rng.1))
    (out rng)) : ∃ bound, ∀ actions s,
      run (step it (Schedule.static.launch n v ranges)) (start C α ranges) actions = some s →
        actions.length ≤ bound := by
  have hlength : (Schedule.static.launch n v ranges).length = ranges.length := List.length_map _
  -- what is left for a worker, of the items of its own range
  let left (s : State C α) (w : ℕ) : ℕ :=
    (s.worker w).rank + 4 * ((ranges[w]?.elim [] out).length - (s.applied w).length)
  refine ⟨∑ w ∈ Finset.range ranges.length, left (start C α ranges) w, fun actions s hrun => ?_⟩
  refine length_le_of_ranked (I := fun s m => (∀ w rng, ranges[w]? = some rng →
    Takes (out rng) (s.worker w) (s.applied w)) ∧
      ∑ w ∈ Finset.range ranges.length, left s w = m) ?_ ⟨fun _ _ _ => ?_, rfl⟩ hrun
  swap
  · exact rfl
  rintro s ⟨w, u⟩ s' m ⟨htakes, rfl⟩ hstep
  have hw : w < ranges.length := hlength ▸ lt_of_step hstep
  have hrng : ranges[w]? = some ranges[w] := List.getElem?_eq_getElem hw
  obtain ⟨hself, hlt⟩ := Takes.step (getElem?_launch_static hrng) (hout _ (List.getElem_mem hw))
    (htakes w _ hrng) hstep
  refine ⟨_, ?_, fun x rng hx => ?_, rfl⟩
  · have hsum : ∑ x ∈ Finset.range ranges.length, left s' x + 0 <
        ∑ x ∈ Finset.range ranges.length, left s x + 0 := by
      refine Tally.sum_add_lt hw (fun x hx => ?_) ?_
      · obtain ⟨hworker, happlied⟩ := step_of_ne hstep hx
        simp only [left, hworker, happlied]
      · simp only [left, hrng, Option.elim_some]
        exact hlt
    exact hsum
  · by_cases hxw : x = w
    · subst hxw
      rw [hrng] at hx
      cases hx
      exact hself
    · obtain ⟨hworker, happlied⟩ := step_of_ne hstep hxw
      rw [hworker, happlied]
      exact htakes x rng hx

theorem dynamic_ends (hrestarts : Restarts C) : ∃ bound, ∀ actions s,
    run (step it (Schedule.dynamic.launch v n ranges)) (start C α ranges) actions = some s →
      actions.length ≤ bound := by
  refine ⟨_, fun actions s => length_le_of_ranked (I := fun s m => Counted it n (min v n) s ∧
    ranks (min v n) s + 4 * (n - s.cur) = m) ?_
      ⟨dynamic_counted hrestarts (.init rfl), rfl⟩⟩
  rintro s ⟨w, u⟩ s' m ⟨h, rfl⟩ hstep
  have hw := lt_of_step hstep
  rw [Schedule.launch, List.length_replicate] at hw
  obtain ⟨hcounted, hlt⟩ := h.step hrestarts hstep
  exact ⟨_, ranks_lt hw hstep hlt, hcounted, rfl⟩

omit [IterConsumer C α] in
theorem Worker.rank_eq {worker : Worker C} (h : worker ≠ .waiting) :
    worker.rank = worker.phase.rank := by
  cases worker with
  | waiting => exact absurd rfl h
  | _ => rfl

theorem workStealing_ends (hrestarts : Restarts C) (htiles : Tiles 0 ranges n) :
    ∃ bound, ∀ actions s,
      run (step it (Schedule.workStealing.launch v n ranges)) (start C α ranges) actions = some s →
        actions.length ≤ bound := by
  have hstart : Reached it (Schedule.workStealing.launch v n ranges) ranges (start C α ranges) :=
    .init rfl
  obtain ⟨t₀, ht₀, href₀⟩ := workStealing_refines hrestarts hstart
  have hinv₀ := ht₀.inv
  rw [sum_indices htiles] at hinv₀
  refine ⟨_, fun actions s => length_le_of_ranked (I := fun s m => ∃ t,
    Refines it ranges.length s t ∧ t.Inv ranges.length (Multiset.range n) ∧
      ranks ranges.length s + 4 * (n - t.handed.length) = m) ?_ ⟨t₀, href₀, hinv₀, rfl⟩⟩
  rintro s ⟨w, u⟩ s' m ⟨t, href, hinv, rfl⟩ hstep
  have hw := lt_of_step hstep
  rw [Schedule.launch, List.length_replicate] at hw
  have hrank' := Worker.rank_eq (step_not_waiting hstep)
  obtain ⟨t', href', ⟨rfl, hwaiting⟩ | ⟨hmoved, a, rfl, ha⟩⟩ := href.step hrestarts hstep
  · refine ⟨_, ranks_lt hw hstep ?_, t', href', hinv, rfl⟩
    rw [hrank', ← href'.phase, href.phase, hwaiting]
    exact Nat.add_lt_add_right (show 4 < 5 by decide) _
  · refine ⟨_, ranks_lt hw hstep ?_, t', href', hinv.step ha, rfl⟩
    rw [hrank', Worker.rank_eq hmoved, ← href'.phase, ← href.phase]
    exact hinv.rank_lt ha

/-- The runs of `collect` end, and a run that has not ended goes on. -/
theorem collect_ends (hit : Chain it) {items : ℕ → ℕ → List α} (h : Divides it n items)
    {numWorkers fuel : ℕ} (hpos : 0 < numWorkers) {sched : Schedule}
    (hsched : sched ∈ [.static, .dynamic, .workStealing])
    (hranges : sched.ranges numWorkers n fuel = some ranges) :
    (∃ bound, ∀ actions s, run (step (Monotonic.new it 0) (sched.launch numWorkers n ranges))
      (start (Monotonic C) (ℕ × α) ranges) actions = some s → actions.length ≤ bound) ∧
    ∀ s : State (Monotonic C) (ℕ × α), Final (sched.launch numWorkers n ranges) s ∨
      ∃ a s', step (Monotonic.new it 0) (sched.launch numWorkers n ranges) s a = some s' := by
  have hrestarts := hit.restarts.monotonic
  refine ⟨?_, goes_on _ _⟩
  rcases sched with _ | _ | _ | _ | _
  case static =>
    have htiles := staticRanges_tiles hpos hranges
    exact static_ends fun rng hrng => h.drains_monotonic rng (htiles.bounds hrng).2.1.le
      (htiles.bounds hrng).2.2
  case dynamic => exact dynamic_ends hrestarts
  case workStealing => exact workStealing_ends hrestarts (staticRanges_tiles hpos hranges)
  all_goals simp at hsched

/-! ## `sched_chunk` and `sched_guided` -/

/-- A worker, and the items that are left of its range -/
def Draws (it : C) (out : ℕ × ℕ → List α) : Worker C → List α → Prop
  | .waiting, rest => rest = out (0, 0)
  | .iterating iter, rest => Copy it iter ∧ Drains next size iter rest
  | .done, rest => rest = []
  | _, _ => False

section Live

omit [IterConsumer C α]

def Worker.live : Worker C → ℕ
  | .done => 0
  | _ => 1

/-- The tasks that have not ended -/
def live (k : ℕ) (s : State C α) : ℕ := ∑ w ∈ Finset.range k, (s.worker w).live

/-- The ranges that no task has drawn yet, and their items -/
def undrawn (ranges : List (ℕ × ℕ)) (out : ℕ × ℕ → List α) (s : State C α) : ℕ :=
  ((ranges.drop s.cur).map fun rng => (out rng).length + 1).sum

end Live

/-- What `k` tasks have taken, what they hold, and what the tasks that have not ended will draw are
what all of them take; `rest` lists the items that are left of the range of each. -/
structure Drawn (it : C) (ranges : List (ℕ × ℕ)) (out : ℕ × ℕ → List α) (k : ℕ)
    (rest : ℕ → List α) (s : State C α) : Prop where
  draws : ∀ w < k, Draws it out (s.worker w) (rest w)
  total_eq : total k s + ∑ w ∈ Finset.range k, (rest w : Multiset α) +
    ((drawn out (live k s) (ranges.drop s.cur)).flatMap out : List α) =
      ((List.replicate k (0, 0) ++ drawn out k ranges).flatMap out : List α)

variable {rest : ℕ → List α}

/-- A step in which worker `w` takes `xs`, and `r` is left of its range -/
theorem Drawn.update (h : Drawn it ranges out k rest s) (hw : w < k)
    (hother : ∀ u, u ≠ w → s'.worker u = s.worker u) {xs r : List α}
    (htotal : total k s' = total k s + xs) (hdraws : Draws it out (s'.worker w) r)
    (hleft : ∀ others,
      xs ++ r ++ (drawn out ((s'.worker w).live + others) (ranges.drop s'.cur)).flatMap out =
        rest w ++ (drawn out ((s.worker w).live + others) (ranges.drop s.cur)).flatMap out) :
    Drawn it ranges out k (Function.update rest w r) s' := by
  have hrest (u : ℕ) (hu : u ≠ w) : Function.update rest w r u = rest u :=
    Function.update_of_ne hu _ _
  constructor
  · intro u hu
    by_cases huw : u = w
    · rw [huw, Function.update_self]
      exact hdraws
    · rw [hrest u huw, hother u huw]
      exact h.draws u hu
  · obtain ⟨others, hbefore, hafter⟩ := Tally.sum_change hw (fun u => (s.worker u).live)
      (fun u => (s'.worker u).live) fun u hu => congrArg Worker.live (hother u hu)
    obtain ⟨held, hheld, hheld'⟩ := Tally.sum_change hw (fun u => (rest u : Multiset α))
      (fun u => (Function.update rest w r u : Multiset α)) fun u hu => congrArg _ (hrest u hu)
    have htally := h.total_eq
    have hcoe := congrArg (fun l : List α => (l : Multiset α)) (hleft others)
    simp only [← Multiset.coe_add] at hcoe
    rw [live, hbefore, hheld] at htally
    rw [live, hafter, hheld', htotal, Function.update_self, ← htally]
    calc total k s + xs + (r + held) + _
        = total k s + held + (xs + r +
            ((drawn out ((s'.worker w).live + others) (ranges.drop s'.cur)).flatMap out :
              List α)) := by abel
      _ = total k s + held + (rest w +
            ((drawn out ((s.worker w).live + others) (ranges.drop s.cur)).flatMap out :
              List α)) := by rw [hcoe]
      _ = _ := by abel

/-- A task draws the range `rng`. -/
theorem Drawn.draw (hrestarts : Restarts C)
    (hout : ∀ rng, Drains next size (init it rng.1 (rng.2 - rng.1)) (out rng))
    (h : Drawn it ranges out k rest s) (hw : w < k) (hiter : Copy it iter) {rng : ℕ × ℕ}
    (hrng : ranges[s.cur]? = some rng) (hrest : rest w = []) (hworker : (s.worker w).live = 1)
    (hs' : s' = { s with cur := s.cur + 1 }.take w (next (init iter rng.1 (rng.2 - rng.1)))
      fun _ => .done) :
    ∃ r, Drawn it ranges out k (Function.update rest w r) s' ∧
      (s'.worker w).rank + (r.length + undrawn ranges out s') < 4 + undrawn ranges out s := by
  obtain ⟨hcur, hget⟩ := List.getElem?_eq_some_iff.mp hrng
  have hdrop : ranges.drop s.cur = rng :: ranges.drop (s.cur + 1) := by
    rw [List.drop_eq_getElem_cons hcur, hget]
  have hcopy := (hiter.init hrestarts rng.1 (rng.2 - rng.1)).next hrestarts
  have hdrains := hout rng
  rw [← hiter] at hdrains
  have hother (u : ℕ) (hu : u ≠ w) : s'.worker u = s.worker u := by
    rw [hs']
    exact (take_worker_of_ne hu).1
  have hcur' : s'.cur = s.cur + 1 := by rw [hs', take_cur]
  have htotal : total k s' = total k { s with cur := s.cur + 1 } +
      ((next (init iter rng.1 (rng.2 - rng.1))).1.toList : Multiset α) := by
    rw [hs']
    exact total_take hw
  generalize hl : out rng = l at hdrains
  cases hdrains with
  | done hnone =>
    rcases hnext : next (init iter rng.1 (rng.2 - rng.1)) with ⟨x, iter'⟩
    rw [hnext] at hnone htotal hs'
    cases hnone
    have hself : s'.worker w = .done := by rw [hs', take_self.2]; rfl
    refine ⟨[], h.update hw hother htotal (by rw [hself]; rfl) fun others => ?_, ?_⟩
    · rw [hself, hrest, hcur', hdrop, hworker, Nat.add_comm 1, drawn_cons_nil hl, Worker.live,
        Nat.zero_add]
      rfl
    · rw [hself, undrawn, undrawn, hcur', hdrop, List.map_cons, List.sum_cons]
      simp only [Worker.rank, List.length_nil]
      omega
  | @item _ iter' x l hnext _ hrest' =>
    rw [hnext] at htotal hs' hcopy
    have hself : s'.worker w = .iterating iter' := by rw [hs', take_self.2]; rfl
    refine ⟨l, h.update hw hother htotal (by rw [hself]; exact ⟨hcopy, hrest'⟩) fun others => ?_,
      ?_⟩
    · rw [hself, hrest, hcur', hdrop, hworker, Nat.add_comm 1, drawn_cons hl,
        show (Worker.iterating iter').live = 1 from rfl, Nat.add_comm 1]
      simp only [Option.toList_some, List.cons_append, List.nil_append]
    · rw [hself, undrawn, undrawn, hcur', hdrop, List.map_cons, List.sum_cons, hl]
      simp only [Worker.rank, List.length_cons]
      omega

/-- A step takes an item of the range of its worker, draws a range, or takes the worker nearer to
its end. -/
theorem Drawn.step (hrestarts : Restarts C)
    (hout : ∀ rng, Drains next size (init it rng.1 (rng.2 - rng.1)) (out rng))
    (h : Drawn it ranges out k rest s)
    (hstep : step it (List.replicate k (.chunk ranges)) s (w, v) = some s') :
    ∃ r, Drawn it ranges out k (Function.update rest w r) s' ∧
      (s'.worker w).rank + (r.length + undrawn ranges out s') <
        (s.worker w).rank + ((rest w).length + undrawn ranges out s) := by
  have hother (u : ℕ) (hu : u ≠ w) : s'.worker u = s.worker u := (step_of_ne hstep hu).1
  simp only [Consumer.step, Option.bind_eq_bind, Option.bind_eq_some_iff] at hstep
  obtain ⟨sched, hsched, hstep⟩ := hstep
  obtain ⟨hw, hget⟩ := List.getElem?_eq_some_iff.mp hsched
  rw [List.getElem_replicate] at hget
  subst hget
  rw [List.length_replicate] at hw
  have hself := h.draws w hw
  cases hworker : s.worker w with
  | waiting =>
    rw [hworker] at hstep hself
    cases hstep
    refine ⟨rest w, h.update hw hother (add_zero _).symm ?_ fun others => ?_, ?_⟩
    · rw [setWorker_worker_self]
      refine ⟨fun _ _ => hrestarts.init_init _ _ _ _ _, ?_⟩
      rw [hself]
      exact hout (0, 0)
    · rw [setWorker_worker_self, hworker]
      rfl
    · rw [setWorker_worker_self]
      exact Nat.add_lt_add_right (show 4 < 5 by decide) _
  | iterating iter =>
    rw [hworker] at hstep hself
    obtain ⟨hcopy, hdrains⟩ := hself
    generalize hrest : rest w = l at hdrains
    cases hdrains with
    | @item _ iter' x l hnext _ hrest' =>
      simp only [hnext] at hstep
      cases hstep
      have htotal : total k (s.take w (some x, iter') fun _ => .done) =
          total k s + ((some x).toList : Multiset α) := total_take hw
      have hmoved : (s.take w (some x, iter') fun _ => .done).worker w = .iterating iter' := by
        rw [take_self.2]
        rfl
      have hcopy' := hcopy.next hrestarts
      rw [hnext] at hcopy'
      refine ⟨l, h.update hw hother htotal (by rw [hmoved]; exact ⟨hcopy', hrest'⟩)
        fun others => ?_, ?_⟩
      · rw [hmoved, hworker, hrest, take_cur]
        rfl
      · rw [hmoved, undrawn, undrawn, take_cur]
        simp only [Worker.rank, List.length_cons]
        omega
    | done hnone =>
      rcases hnext : next iter with ⟨x, iter'⟩
      have hcopy' := hcopy.next hrestarts
      rw [hnext] at hnone hcopy'
      cases hnone
      simp only [hnext] at hstep
      split at hstep
      · rename_i rng hrng
        cases hstep
        rw [List.length_nil, Nat.zero_add]
        exact h.draw hrestarts hout hw hcopy' hrng hrest (by rw [hworker]; rfl) rfl
      · rename_i hnone
        cases hstep
        have hdrop : ranges.drop s.cur = [] :=
          List.drop_eq_nil_of_le (List.getElem?_eq_none_iff.mp hnone)
        have hdrop' : ranges.drop (s.cur + 1) = [] :=
          List.drop_eq_nil_of_le (Nat.le_succ_of_le (List.getElem?_eq_none_iff.mp hnone))
        refine ⟨[], h.update hw hother (add_zero _).symm ?_ fun others => ?_, ?_⟩
        · rw [setWorker_worker_self]
          exact rfl
        · rw [hrest, hdrop]
          change [] ++ [] ++ (drawn out _ (ranges.drop (s.cur + 1))).flatMap out = _
          rw [hdrop', drawn_nil, drawn_nil]
          rfl
        · rw [setWorker_worker_self, undrawn, undrawn, hdrop]
          change 0 + (0 + ((ranges.drop (s.cur + 1)).map _).sum) < _
          rw [hdrop']
          exact show 0 < 4 by decide
  | done =>
    rw [hworker] at hstep
    cases hstep
  | _ =>
    rw [hworker] at hself
    exact hself.elim

theorem Drawn.start : Drawn it ranges out k (fun _ => out (0, 0)) (start C α ranges) where
  draws _ _ := rfl
  total_eq := by
    have hlive : live k (Consumer.start C α ranges) = k := by
      change ∑ w ∈ Finset.range k, 1 = k
      rw [← Finset.card_eq_sum_ones, Finset.card_range]
    have hsum := Tally.sum_range_eq_flatMap (List.replicate k ((0, 0) : ℕ × ℕ)) (f := out)
      (g := fun _ => out (0, 0)) fun w rng hrng => by
        rw [List.eq_of_mem_replicate (List.mem_of_getElem? hrng)]
    rw [List.length_replicate] at hsum
    rw [hlive, hsum, List.flatMap_append, ← Multiset.coe_add]
    change ∑ w ∈ Finset.range k, (0 : Multiset α) + _ + _ = _
    rw [Finset.sum_const_zero, zero_add]
    rfl

/-- The tasks draw the ranges one by one. -/
theorem chunk_drawn (hrestarts : Restarts C)
    (hout : ∀ rng, Drains next size (init it rng.1 (rng.2 - rng.1)) (out rng))
    (hs : Reached it (List.replicate k (.chunk ranges)) ranges s) :
    ∃ rest, Drawn it ranges out k rest s := by
  refine hs.invariant (I := fun s => ∃ rest, Drawn it ranges out k rest s) ?_ ?_
  · rintro s rfl
    exact ⟨_, Drawn.start⟩
  · rintro s ⟨w, v⟩ s' ⟨rest, h⟩ - hstep
    obtain ⟨r, h', -⟩ := h.step hrestarts hout hstep
    exact ⟨_, h'⟩

theorem chunk_ends (hrestarts : Restarts C)
    (hout : ∀ rng, Drains next size (init it rng.1 (rng.2 - rng.1)) (out rng)) :
    ∃ bound, ∀ actions s,
      run (step it (List.replicate k (.chunk ranges))) (start C α ranges) actions = some s →
        actions.length ≤ bound := by
  refine ⟨_, fun actions s => length_le_of_ranked (I := fun s m => ∃ rest,
    Drawn it ranges out k rest s ∧
      ∑ w ∈ Finset.range k, ((s.worker w).rank + (rest w).length) + undrawn ranges out s = m)
    ?_ ⟨_, Drawn.start, rfl⟩⟩
  rintro s ⟨w, u⟩ s' m ⟨rest, h, rfl⟩ hstep
  have hw := lt_of_step hstep
  rw [List.length_replicate] at hw
  obtain ⟨r, h', hlt⟩ := h.step hrestarts hout hstep
  refine ⟨_, Tally.sum_add_lt hw (fun u hu => ?_) ?_, _, h', rfl⟩
  · rw [(step_of_ne hstep hu).1, Function.update_of_ne hu]
  · rw [Function.update_self, Nat.add_assoc, Nat.add_assoc]
    exact hlt

theorem chunk_gathered (hrestarts : Restarts C)
    (hout : ∀ rng, Drains next size (init it rng.1 (rng.2 - rng.1)) (out rng))
    (hs : Reached it (List.replicate k (.chunk ranges)) ranges s)
    (hfinal : Final (List.replicate k (.chunk ranges)) s) :
    (gathered (List.replicate k (.chunk ranges)) s).Perm
      ((List.replicate k (0, 0) ++ drawn out k ranges).flatMap out) := by
  obtain ⟨rest, h⟩ := chunk_drawn hrestarts hout hs
  have hdone (w : ℕ) (hw : w < k) : s.worker w = .done :=
    hfinal w (by rw [List.length_replicate]; exact hw)
  have hlive : live k s = 0 := Finset.sum_eq_zero fun w hw => by
    rw [hdone w (Finset.mem_range.mp hw)]
    rfl
  have hheld : ∑ w ∈ Finset.range k, (rest w : Multiset α) = 0 :=
    Finset.sum_eq_zero fun w hw => by
      have hdraws := h.draws w (Finset.mem_range.mp hw)
      rw [hdone w (Finset.mem_range.mp hw)] at hdraws
      rw [show rest w = [] from hdraws]
      rfl
  have htally := h.total_eq
  rw [hlive, hheld, drawn_zero, add_zero] at htally
  rw [← Multiset.coe_eq_coe, coe_gathered, List.length_replicate, ← htally]
  exact (add_zero _).symm

/-! ## Every schedule -/

theorem Chain.exists_out (hit : Chain it) :
    ∃ out : ℕ × ℕ → List α, ∀ rng, Drains next size (init it rng.1 (rng.2 - rng.1)) (out rng) := by
  have hends (rng : ℕ × ℕ) : ∃ l, Drains next size (init it rng.1 (rng.2 - rng.1)) l := by
    cases hit with
    | localIter h => exact h.restarts.exists_drains _
    | distIter h => exact h.exists_drains _ _
  exact ⟨fun rng => (hends rng).choose, fun rng => (hends rng).choose_spec⟩

/-- Where all complete runs take `share`, the items are visited once exactly if these are
`share` and the runs stay in the range of their types. -/
theorem visitsOnce_iff {share items : List α}
    (hends : ∃ bound, ∀ actions s,
      run (step it tasks) (start C α ranges) actions = some s → actions.length ≤ bound)
    (hshare : ∀ s, Reached it tasks ranges s → Final tasks s → (gathered tasks s).Perm share) :
    VisitsOnce it tasks ranges items ↔ RunFits it tasks ranges ∧ share.Perm items := by
  constructor
  · intro h
    refine ⟨h.fits, ?_⟩
    obtain ⟨bound, hbound⟩ := hends
    obtain ⟨actions, s, hrun, hfinal⟩ := exists_goal_of_bounded hbound fun _ s _ hfinal =>
      (goes_on it tasks s).resolve_left hfinal
    have hs : Reached it tasks ranges s := Reach.run (.init rfl) hrun
    exact (hshare s hs hfinal).symm.trans (h.visits s hs hfinal).1
  · rintro ⟨hfits, h⟩
    refine ⟨hfits, hends, fun s _ => goes_on it tasks s, fun s hs hfinal => ?_⟩
    have hperm := (hshare s hs hfinal).trans h
    exact ⟨hperm, counted_eq.trans hperm.length_eq⟩

/-- What a complete run of any schedule takes -/
theorem share_spec (hit : Chain it) {numWorkers fuel : ℕ} (hpos : 0 < numWorkers)
    (hout : ∀ rng, Drains next size (init it rng.1 (rng.2 - rng.1)) (out rng)) {sched : Schedule}
    (hranges : sched.ranges numWorkers n fuel = some ranges) :
    (∃ bound, ∀ actions s,
      run (step it (sched.launch numWorkers n ranges)) (start C α ranges) actions = some s →
        actions.length ≤ bound) ∧
    ∀ s, Reached it (sched.launch numWorkers n ranges) ranges s →
      Final (sched.launch numWorkers n ranges) s →
        (gathered (sched.launch numWorkers n ranges) s).Perm
          (sched.share (sched.launch numWorkers n ranges).length n ranges out) := by
  have hrestarts := hit.restarts
  have hfirst : (Multiset.range n).filterMap (first it) =
      ((List.range n).filterMap fun i => (out (i, i + 1)).head? : List α) := by
    have hhead (i : ℕ) : first it i = (out (i, i + 1)).head? := by
      have hdrains := hout (i, i + 1)
      rw [Nat.add_sub_cancel_left] at hdrains
      exact hdrains.fst_eq
    rw [show first it = fun i => (out (i, i + 1)).head? from funext hhead]
    exact Multiset.filterMap_coe _ _
  have hchunk (k : ℕ) :
      (∃ bound, ∀ actions s,
        run (step it (List.replicate k (.chunk ranges))) (start C α ranges) actions = some s →
          actions.length ≤ bound) ∧
      ∀ s, Reached it (List.replicate k (.chunk ranges)) ranges s →
        Final (List.replicate k (.chunk ranges)) s →
          (gathered (List.replicate k (.chunk ranges)) s).Perm
            (Schedule.guided.share (List.replicate k (IterSchedule.chunk ranges)).length n ranges
              out) := by
    rw [List.length_replicate]
    exact ⟨chunk_ends hrestarts hout, fun s hs hfinal => chunk_gathered hrestarts hout hs hfinal⟩
  cases sched with
  | static =>
    exact ⟨static_ends fun rng _ => hout rng, fun s hs hfinal =>
      List.Perm.of_eq (static_gathered (fun rng _ => hout rng) hs hfinal)⟩
  | dynamic =>
    refine ⟨dynamic_ends hrestarts, fun s hs hfinal => ?_⟩
    exact Multiset.coe_eq_coe.mp ((dynamic_gathered hrestarts hpos hs hfinal).trans hfirst)
  | workStealing =>
    have htiles := staticRanges_tiles hpos hranges
    refine ⟨workStealing_ends hrestarts htiles, fun s hs hfinal => ?_⟩
    exact Multiset.coe_eq_coe.mp
      ((workStealing_gathered hrestarts htiles hs hfinal).trans hfirst)
  | chunk size => exact hchunk _
  | guided => exact hchunk _

section Dividing

variable {items : ℕ → ℕ → List α}

/-- A range that goes past the last position ends there. -/
def Clips (it : C) (n : ℕ) (items : ℕ → ℕ → List α) : Prop := ∀ start cnt, start < n →
  n < start + cnt → Drains next size (init it start cnt) (items start (n - start))

theorem Divides.out_eq (h : Divides it n items)
    (hout : ∀ rng, Drains next size (init it rng.1 (rng.2 - rng.1)) (out rng)) {rng : ℕ × ℕ}
    (hle : rng.1 ≤ rng.2) (hrng : rng.2 ≤ n) : out rng = items rng.1 (rng.2 - rng.1) :=
  (hout rng).unique (h.drains _ _ (by omega))

theorem Divides.flatMap_out (h : Divides it n items)
    (hout : ∀ rng, Drains next size (init it rng.1 (rng.2 - rng.1)) (out rng)) {lo hi : ℕ}
    (htiles : Tiles lo ranges hi) (hhi : hi ≤ n) : ranges.flatMap out = items lo (hi - lo) := by
  rw [← h.flatMap htiles hhi]
  refine List.flatMap_congr fun rng hrng => ?_
  have hbounds := htiles.bounds hrng
  exact h.out_eq hout hbounds.2.1.le (by omega)

/-- Where all ranges begin below `n`, only the last one can go past it. -/
theorem Divides.flatMap_clipped (h : Divides it n items) (hclips : Clips it n items)
    (hout : ∀ rng, Drains next size (init it rng.1 (rng.2 - rng.1)) (out rng)) {lo hi : ℕ}
    (htiles : Tiles lo ranges hi) (hlo : lo ≤ n) (hhi : n ≤ hi)
    (hstarts : ∀ rng ∈ ranges, rng.1 < n) : ranges.flatMap out = items lo (n - lo) := by
  induction ranges generalizing lo with
  | nil =>
    rw [Tiles] at htiles
    rw [show n - lo = 0 by omega, h.nil hlo]
    rfl
  | cons rng ranges ih =>
    obtain ⟨rfl, hlt, hrest⟩ := htiles
    have hstart := hstarts rng List.mem_cons_self
    by_cases hpast : rng.2 ≤ n
    · have happend := h.append rng.1 (rng.2 - rng.1) (n - rng.2) (by omega)
      rw [show rng.2 - rng.1 + (n - rng.2) = n - rng.1 by omega,
        show rng.1 + (rng.2 - rng.1) = rng.2 by omega] at happend
      rw [List.flatMap_cons, h.out_eq hout hlt.le hpast, happend,
        ih hrest hpast fun rng' hrng' => hstarts rng' (List.mem_cons_of_mem _ hrng')]
    · have hclipped := (hout rng).unique (hclips rng.1 (rng.2 - rng.1) hstart (by omega))
      cases ranges with
      | nil => rw [List.flatMap_cons, List.flatMap_nil, List.append_nil, hclipped]
      | cons rng' ranges =>
        have hnext := hstarts rng' (List.mem_cons_of_mem _ List.mem_cons_self)
        have hbegin := hrest.1
        omega

theorem Divides.filterMap_head (h : Divides it n items)
    (hout : ∀ rng, Drains next size (init it rng.1 (rng.2 - rng.1)) (out rng)) :
    ((List.range n).filterMap fun i => (out (i, i + 1)).head?) = items 0 n := by
  rw [← Nat.sub_zero n, ← h.flatMap_out hout (tiles_singles n) (Nat.le_refl n), List.flatMap_map,
    Nat.sub_zero, List.filterMap_eq_flatMap_toList]
  refine List.flatMap_congr fun i hi => ?_
  have hi := List.mem_range.mp hi
  have hone := h.single i hi
  have heq : out (i, i + 1) = items i (i + 1 - i) := h.out_eq hout (Nat.le_succ i) hi
  rw [Nat.add_sub_cancel_left] at heq
  rw [← heq] at hone
  rcases hitems : out (i, i + 1) with _ | ⟨x, _ | ⟨y, rest⟩⟩
  · rfl
  · rfl
  · rw [hitems, List.length_cons, List.length_cons] at hone
    omega

/-- The schedules whose tasks draw ranges -/
def Schedule.DrawsRanges (sched : Schedule) : Prop := sched = .guided ∨ ∃ size, sched = .chunk size

theorem Divides.share_perm_iff (h : Divides it n items)
    (hout : ∀ rng, Drains next size (init it rng.1 (rng.2 - rng.1)) (out rng)) {sched : Schedule}
    (hall : sched ≠ .dynamic → ranges.flatMap out = items 0 n) (k : ℕ) :
    (sched.share k n ranges out).Perm (items 0 n) ↔
      (sched.DrawsRanges → ∀ rng ∈ ranges.drop (drawn out k ranges).length, out rng = []) := by
  have hplain (hperm : (sched.share k n ranges out).Perm (items 0 n))
      (hdraws : ¬ sched.DrawsRanges) :
      (sched.share k n ranges out).Perm (items 0 n) ↔
        (sched.DrawsRanges → ∀ rng ∈ ranges.drop (drawn out k ranges).length, out rng = []) :=
    iff_of_true hperm fun hsched => absurd hsched hdraws
  have hempty : out (0, 0) = [] :=
    (h.out_eq hout (Nat.le_refl 0) (Nat.zero_le n)).trans (h.nil (Nat.zero_le n))
  have hdrawn (hall : ranges.flatMap out = items 0 n) :
      ((List.replicate k (0, 0) ++ drawn out k ranges).flatMap out).Perm (items 0 n) ↔
        ∀ rng ∈ ranges.drop (drawn out k ranges).length, out rng = [] := by
    have hbegin : (List.replicate k ((0, 0) : ℕ × ℕ)).flatMap out = [] := by
      rw [List.flatMap_eq_nil_iff]
      intro rng hrng
      rw [List.eq_of_mem_replicate hrng, hempty]
    have hsplit := congrArg (List.flatMap out) (drawn_append_drop out k ranges)
    rw [List.flatMap_append, hall] at hsplit
    rw [List.flatMap_append, hbegin, List.nil_append, ← List.flatMap_eq_nil_iff, ← hsplit]
    constructor
    · intro hperm
      have hlength := hperm.length_eq
      rw [List.length_append] at hlength
      exact List.eq_nil_of_length_eq_zero (by omega)
    · intro hnil
      rw [hnil, List.append_nil]
  cases sched with
  | static =>
    refine hplain ?_ (by simp [Schedule.DrawsRanges])
    rw [Schedule.share, hall (by simp)]
  | dynamic =>
    refine hplain ?_ (by simp [Schedule.DrawsRanges])
    rw [Schedule.share, h.filterMap_head hout]
  | workStealing =>
    refine hplain ?_ (by simp [Schedule.DrawsRanges])
    rw [Schedule.share, h.filterMap_head hout]
  | chunk size =>
    rw [imp_iff_right (show Schedule.DrawsRanges (.chunk size) from Or.inr ⟨size, rfl⟩)]
    exact hdrawn (hall (by simp))
  | guided =>
    rw [imp_iff_right (show Schedule.DrawsRanges .guided from Or.inl rfl)]
    exact hdrawn (hall (by simp))

/-- Where a range may be cut anywhere, `sched_static`, `sched_dynamic` and `sched_work_stealing`
visit every item once in the range of their types; `sched_chunk` and `sched_guided` do exactly if
no range has items behind the last one that a task draws. -/
theorem for_each_divides (hit : Chain it) (h : Divides it n items) {len numWorkers : ℕ}
    (hn : maxElems it len = some n) (hpos : 0 < numWorkers) {sched : Schedule}
    (hchunk : ∀ size, sched = .chunk size → 0 < size)
    (hclips : sched.DrawsRanges → Clips it n items) :
    ∃ fuel tasks ranges out, launch it sched len numWorkers fuel = some (tasks, ranges) ∧
      (∀ rng, Drains next size (init it rng.1 (rng.2 - rng.1)) (out rng)) ∧
      (VisitsOnce it tasks ranges (items 0 n) ↔ RunFits it tasks ranges ∧
        (sched.DrawsRanges → ∀ rng ∈ ranges.drop (drawn out tasks.length ranges).length,
          out rng = [])) := by
  obtain ⟨out, hout⟩ := hit.exists_out
  have hends : ∃ fuel ranges, sched.ranges numWorkers n fuel = some ranges ∧
      (sched ≠ .dynamic → ranges.flatMap out = items 0 n) := by
    by_cases hdynamic : sched = .dynamic
    · subst hdynamic
      exact ⟨0, [], rfl, fun hne => absurd rfl hne⟩
    · obtain ⟨fuel, ranges, hi, hranges, hle, hn, htiles, -, hstarts, -⟩ :=
        ranges_partition hpos n hdynamic hchunk
      refine ⟨fuel, ranges, hranges, fun _ => ?_⟩
      by_cases hdraws : sched.DrawsRanges
      · have hclipped := h.flatMap_clipped (hclips hdraws) hout htiles (Nat.zero_le n) hle hstarts
        rwa [Nat.sub_zero] at hclipped
      · have hhi : hi = n := hn (by cases sched <;> simp_all [Schedule.DrawsRanges])
        rw [h.flatMap_out hout htiles hhi.le, hhi, Nat.sub_zero]
  obtain ⟨fuel, ranges, hranges, hall⟩ := hends
  obtain ⟨hbound, hshare⟩ := share_spec hit hpos hout hranges
  refine ⟨fuel, _, ranges, out, ?_, hout,
    (visitsOnce_iff hbound hshare).trans (and_congr_right' (h.share_perm_iff hout hall _))⟩
  simp only [launch, hn, hranges, Option.bind_eq_bind, Option.bind_some]

end Dividing

end Lamellar.Consumer
