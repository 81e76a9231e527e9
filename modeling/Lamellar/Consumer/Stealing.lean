import Lamellar.Lib.Tally
import Lamellar.Lib.Transition
import Mathlib.Data.Multiset.Range
import Mathlib.Tactic.Abel

/-!
# Work stealing

Every worker takes indices from a range of its own, behind a lock, and tries one steal when that
range is exhausted. A stolen range belongs to no worker until the thief makes it its own, and in
between the others may find nothing to steal and stop. The invariant counts, for every index, the
workers that it was handed to, the ranges and the stolen ranges on their way: one in all.
-/

namespace Lamellar.Consumer

open Lamellar.Transition

/-- `IterWorkStealer`: the range that its lock guards -/
structure IterWorkStealer where
  startI : ℕ
  endI : ℕ
  deriving DecidableEq, Repr

namespace IterWorkStealer

/-- The start is moved on even where the range is exhausted. -/
def next (range : IterWorkStealer) : Option ℕ × IterWorkStealer :=
  let index := range.startI
  (if index + 1 ≤ range.endI then some index else none, { range with startI := index + 1 })

def steal (range : IterWorkStealer) : Option (ℕ × ℕ) × IterWorkStealer :=
  if range.startI < range.endI ∧ 2 < range.endI - range.startI then
    let newEnd := (range.startI + range.endI) / 2
    (some (newEnd, range.endI), { range with endI := newEnd })
  else (none, range)

/-- The indices that are left -/
def indices (range : IterWorkStealer) : Multiset ℕ :=
  List.range' range.startI (range.endI - range.startI)

variable {range : IterWorkStealer}

theorem next_of_lt (h : range.startI < range.endI) :
    range.next = (some range.startI, { range with startI := range.startI + 1 }) := by
  rw [next, if_pos (show range.startI + 1 ≤ range.endI from h)]

theorem next_of_le (h : range.endI ≤ range.startI) :
    range.next = (none, { range with startI := range.startI + 1 }) := by
  rw [next, if_neg (by omega)]

theorem indices_of_le (h : range.endI ≤ range.startI) : range.indices = 0 := by
  rw [indices, Nat.sub_eq_zero_of_le h]
  rfl

theorem indices_of_lt (h : range.startI < range.endI) :
    range.indices = {range.startI} + { range with startI := range.startI + 1 }.indices := by
  have hlen : range.endI - range.startI = range.endI - (range.startI + 1) + 1 := by omega
  rw [indices, hlen, List.range'_succ]
  rfl

/-- A range in two -/
theorem indices_split {startI mid endI : ℕ} (h₁ : startI ≤ mid) (h₂ : mid ≤ endI) :
    indices ⟨startI, endI⟩ = indices ⟨startI, mid⟩ + indices ⟨mid, endI⟩ := by
  have happend := @List.range'_append_1 startI (mid - startI) (endI - mid)
  rw [show startI + (mid - startI) = mid by omega,
    show mid - startI + (endI - mid) = endI - startI by omega] at happend
  simp only [indices]
  rw [← happend, Multiset.coe_add]

/-- What is stolen and what is left make up a range that was not exhausted. -/
theorem steal_some {stolen : ℕ × ℕ} (h : range.steal.1 = some stolen) :
    range.indices = range.steal.2.indices + indices ⟨stolen.1, stolen.2⟩ ∧
      range.startI < range.endI := by
  unfold steal at h ⊢
  split at h
  · rename_i hmore
    cases h
    rw [if_pos hmore]
    exact ⟨indices_split (by omega) (by omega), hmore.1⟩
  · cases h

end IterWorkStealer

/-! ## The workers -/

/-- Where a worker is in `next` of `IterScheduleIter::WorkStealing`: in its first `inner_next`,
about to steal, with a stolen range, in the second `inner_next`, or at the end of its loop. -/
inductive Phase where
  | iterating
  | stealing
  | holding (startI endI : ℕ)
  | resuming
  | stopped
  deriving DecidableEq, Repr

namespace Phase

/-- Taking indices from its own range -/
def Taking (phase : Phase) : Prop := phase = .iterating ∨ phase = .resuming

/-- A stolen range on its way -/
def stolen : Phase → Multiset ℕ
  | .holding startI endI => IterWorkStealer.indices ⟨startI, endI⟩
  | _ => 0

/-- How far a worker is from its end, if it is handed no more indices -/
def rank : Phase → ℕ
  | .iterating => 4
  | .stealing => 3
  | .holding _ _ => 2
  | .resuming => 1
  | .stopped => 0

theorem Taking.stolen {phase : Phase} (h : phase.Taking) : phase.stolen = 0 := by
  rcases h with rfl | rfl <;> rfl

theorem not_taking_stealing : ¬ Taking .stealing := by
  rintro (h | h) <;> cases h

theorem not_taking_stopped : ¬ Taking .stopped := by
  rintro (h | h) <;> cases h

theorem not_taking_holding {startI endI : ℕ} : ¬ Taking (.holding startI endI) := by
  rintro (h | h) <;> cases h

end Phase

/-- `handed` lists the workers with the indices that `next` handed to them. -/
structure Stealers where
  range : ℕ → IterWorkStealer
  phase : ℕ → Phase
  handed : List (ℕ × ℕ)

/-- `next` of worker `w`, where the iterator gives an item at the index or not; a steal of worker
`w` from the sibling `v`, which may be itself; `set_range` of worker `w`. -/
inductive Steal where
  | next (w : ℕ) (gives : Bool)
  | steal (w v : ℕ)
  | setRange (w : ℕ)

/-- The worker that makes the step -/
def Steal.worker : Steal → ℕ
  | .next w _ | .steal w _ | .setRange w => w

namespace Stealers

def setPhase (s : Stealers) (w : ℕ) (phase : Phase) : Stealers :=
  { s with phase := Function.update s.phase w phase }

def setRange (s : Stealers) (w : ℕ) (range : IterWorkStealer) : Stealers :=
  { s with range := Function.update s.range w range }

/-- `range.next()` of worker `w`; with an index it goes on in the phase `again`, else in
`otherwise`. -/
def takeNext (s : Stealers) (w : ℕ) (again otherwise : Phase) : Stealers :=
  match (s.range w).next with
  | (some index, range) =>
    { (s.setRange w range).setPhase w again with handed := s.handed ++ [(w, index)] }
  | (none, range) => (s.setRange w range).setPhase w otherwise

/-- One step of `numWorkers` workers -/
def step (numWorkers : ℕ) (s : Stealers) : Steal → Option Stealers
  | .next w gives =>
    if w < numWorkers then
      match s.phase w with
      | .iterating => some (s.takeNext w .iterating .stealing)
      | .resuming =>
        -- an item ends this call of `next`, and the loop of the worker calls it again
        some (s.takeNext w (if gives then .iterating else .resuming) .stopped)
      | _ => none
    else none
  | .steal w v =>
    if w < numWorkers ∧ v < numWorkers ∧ s.phase w = .stealing then
      match (s.range v).steal with
      | (some (startI, endI), range) =>
        some ((s.setRange v range).setPhase w (.holding startI endI))
      | (none, _) => some (s.setPhase w .stopped)
    else none
  | .setRange w =>
    if w < numWorkers then
      match s.phase w with
      | .holding startI endI => some ((s.setRange w ⟨startI, endI⟩).setPhase w .resuming)
      | _ => none
    else none

/-- The workers begin with the ranges `parts`. -/
def start (parts : ℕ → IterWorkStealer) : Stealers :=
  { range := parts, phase := fun _ => .iterating, handed := [] }

/-- The states that the workers come by, whatever the order of their steps -/
def Reached (numWorkers : ℕ) (parts : ℕ → IterWorkStealer) : Stealers → Prop :=
  Reach (· = start parts) (step numWorkers) fun _ _ => True

/-- All indices that were handed out -/
def given (s : Stealers) : Multiset ℕ := s.handed.map Prod.snd

/-- What worker `w` holds: the rest of its range, and a range that it has stolen -/
def held (s : Stealers) (w : ℕ) : Multiset ℕ :=
  (s.range w).indices + (s.phase w).stolen

/-- Every index is handed out, or held by one worker; a worker that is not taking indices has used
up its range. -/
structure Inv (numWorkers : ℕ) (all : Multiset ℕ) (s : Stealers) : Prop where
  tally : s.given + ∑ w ∈ Finset.range numWorkers, s.held w = all
  idle : ∀ w < numWorkers, ¬ (s.phase w).Taking → (s.range w).endI ≤ (s.range w).startI

variable {numWorkers v w : ℕ} {all all' : Multiset ℕ} {s s' : Stealers} {range : IterWorkStealer}
  {phase : Phase}

/-! ## What a step keeps -/

/-- A step that changes the range and the phase of worker `w`; `all'` differs from `all` by what
comes to `w` or is handed out, and what leaves it. -/
theorem Inv.update (h : s.Inv numWorkers all) (hw : w < numWorkers)
    (hrange : s'.range = Function.update s.range w range)
    (hphase : s'.phase = Function.update s.phase w phase)
    (hheld : all + (s'.given + (range.indices + phase.stolen)) = all' + (s.given + s.held w))
    (hidle : ¬ phase.Taking → range.endI ≤ range.startI) : s'.Inv numWorkers all' := by
  have hother (v : ℕ) (hv : v ≠ w) : s'.range v = s.range v ∧ s'.phase v = s.phase v := by
    rw [hrange, hphase, Function.update_of_ne hv, Function.update_of_ne hv]
    exact ⟨rfl, rfl⟩
  have hself : s'.range w = range ∧ s'.phase w = phase := by
    rw [hrange, hphase, Function.update_self, Function.update_self]
    exact ⟨rfl, rfl⟩
  constructor
  · obtain ⟨others, hbefore, hafter⟩ := Tally.sum_change hw s.held s'.held
      fun v hv => by rw [held, held, (hother v hv).1, (hother v hv).2]
    have hnew : s'.held w = range.indices + phase.stolen := by rw [held, hself.1, hself.2]
    rw [hafter, hnew]
    rw [← h.tally, hbefore] at hheld
    apply add_right_cancel (b := s.given + s.held w)
    rw [← hheld]
    abel
  · intro v hv
    by_cases hvw : v = w
    · rw [hvw, hself.1, hself.2]
      exact hidle
    · rw [(hother v hvw).1, (hother v hvw).2]
      exact h.idle v hv

theorem Inv.takeNext (h : s.Inv numWorkers all) (hw : w < numWorkers) {again otherwise : Phase}
    (hphase : (s.phase w).Taking) (hagain : again.Taking) (hotherwise : otherwise.stolen = 0) :
    (s.takeNext w again otherwise).Inv numWorkers all := by
  have hstolen := hphase.stolen
  rw [Stealers.takeNext]
  rcases Nat.lt_or_ge (s.range w).startI (s.range w).endI with hlt | hge
  · rw [IterWorkStealer.next_of_lt hlt]
    refine h.update hw rfl rfl ?_ (absurd hagain)
    rw [held, hstolen, hagain.stolen, IterWorkStealer.indices_of_lt hlt]
    simp [given, ← Multiset.coe_add, add_assoc]
  · rw [IterWorkStealer.next_of_le hge]
    refine h.update hw rfl rfl ?_ fun _ => Nat.le_succ_of_le hge
    rw [held, hstolen, hotherwise, IterWorkStealer.indices_of_le hge,
      IterWorkStealer.indices_of_le (Nat.le_succ_of_le hge)]
    rfl

theorem Inv.stop (h : s.Inv numWorkers all) (hw : w < numWorkers) (hphase : s.phase w = .stealing) :
    (s.setPhase w .stopped).Inv numWorkers all := by
  have hidle := h.idle w hw (by rw [hphase]; exact Phase.not_taking_stealing)
  refine h.update hw (Function.update_eq_self w s.range).symm rfl ?_ fun _ => hidle
  rw [held, hphase]
  rfl

/-- Half of the range of `v` goes from `v` to `w`; on its way it belongs to the thief. -/
theorem Inv.steal (h : s.Inv numWorkers all) (hw : w < numWorkers) (hv : v < numWorkers)
    (hphase : s.phase w = .stealing) {startI endI : ℕ}
    (hsteal : (s.range v).steal = (some (startI, endI), range)) :
    ((s.setRange v range).setPhase w (.holding startI endI)).Inv numWorkers all := by
  obtain ⟨hsplit, hmore⟩ := IterWorkStealer.steal_some (congrArg Prod.fst hsteal)
  rw [hsteal] at hsplit
  have hidle := h.idle w hw (by rw [hphase]; exact Phase.not_taking_stealing)
  have hvw : v ≠ w := by
    rintro rfl
    omega
  have hthief : (s.setPhase w (.holding startI endI)).Inv numWorkers
      (all + IterWorkStealer.indices ⟨startI, endI⟩) := by
    refine h.update hw (Function.update_eq_self w s.range).symm rfl ?_ fun _ => hidle
    rw [held, hphase, IterWorkStealer.indices_of_le hidle, zero_add]
    change all + (s.given + _) = all + _ + (s.given + 0)
    abel
  have hvictim : (s.setPhase w (.holding startI endI)).phase v = s.phase v :=
    Function.update_of_ne hvw _ _
  have hkeep : ((s.setRange v range).setPhase w (.holding startI endI)).phase =
      Function.update (s.setPhase w (.holding startI endI)).phase v (s.phase v) := by
    rw [← hvictim]
    exact (Function.update_eq_self v _).symm
  refine hthief.update hv rfl hkeep ?_ fun hnot => ?_
  · rw [held, hvictim]
    change _ + (s.given + _) = all + (s.given + ((s.range v).indices + _))
    rw [hsplit]
    abel
  · have hused := h.idle v hv hnot
    omega

theorem Inv.setRange (h : s.Inv numWorkers all) (hw : w < numWorkers) {startI endI : ℕ}
    (hphase : s.phase w = .holding startI endI) :
    ((s.setRange w ⟨startI, endI⟩).setPhase w .resuming).Inv numWorkers all := by
  have hidle := h.idle w hw (by rw [hphase]; exact Phase.not_taking_holding)
  refine h.update hw rfl rfl ?_ (absurd (Or.inr rfl))
  rw [held, hphase, IterWorkStealer.indices_of_le hidle, zero_add, Phase.Taking.stolen (Or.inr rfl),
    add_zero]
  rfl

/-! ## Every run -/

theorem Inv.step (h : s.Inv numWorkers all) {a : Steal} (hs : s.step numWorkers a = some s') :
    s'.Inv numWorkers all := by
  cases a with
  | next w gives =>
    simp only [Stealers.step] at hs
    split at hs
    · rename_i hw
      cases hphase : s.phase w with
      | iterating =>
        rw [hphase] at hs
        cases hs
        exact h.takeNext hw (Or.inl hphase) (Or.inl rfl) rfl
      | resuming =>
        rw [hphase] at hs
        cases hs
        refine h.takeNext hw (Or.inr hphase) ?_ rfl
        cases gives
        · exact Or.inr rfl
        · exact Or.inl rfl
      | _ =>
        rw [hphase] at hs
        cases hs
    · cases hs
  | steal w v =>
    simp only [Stealers.step] at hs
    split at hs
    · rename_i hguard
      obtain ⟨hw, hv, hphase⟩ := hguard
      rcases hsteal : (s.range v).steal with ⟨_ | ⟨startI, endI⟩, range⟩
      · rw [hsteal] at hs
        cases hs
        exact h.stop hw hphase
      · rw [hsteal] at hs
        cases hs
        exact h.steal hw hv hphase hsteal
    · cases hs
  | setRange w =>
    simp only [Stealers.step] at hs
    split at hs
    · rename_i hw
      cases hphase : s.phase w with
      | holding startI endI =>
        rw [hphase] at hs
        cases hs
        exact h.setRange hw hphase
      | _ =>
        rw [hphase] at hs
        cases hs
    · cases hs

theorem inv_start (numWorkers : ℕ) (parts : ℕ → IterWorkStealer) :
    (start parts).Inv numWorkers (∑ w ∈ Finset.range numWorkers, (parts w).indices) where
  tally := by
    change 0 + _ = _
    rw [zero_add]
    exact Finset.sum_congr rfl fun w _ => add_zero _
  idle w _ hnot := absurd (Or.inl rfl) hnot

theorem Reached.inv {parts : ℕ → IterWorkStealer} (hs : Reached numWorkers parts s) :
    s.Inv numWorkers (∑ w ∈ Finset.range numWorkers, (parts w).indices) :=
  hs.invariant (fun _ hinit => hinit ▸ inv_start numWorkers parts) fun _ _ _ h _ => h.step

theorem takeNext_cases (s : Stealers) (w : ℕ) (again otherwise : Phase) :
    ((s.takeNext w again otherwise).phase w = again ∧
        (s.takeNext w again otherwise).handed.length = s.handed.length + 1) ∨
      ((s.takeNext w again otherwise).phase w = otherwise ∧
        (s.takeNext w again otherwise).handed = s.handed) := by
  rw [Stealers.takeNext]
  rcases (s.range w).next with ⟨_ | index, range⟩
  · exact Or.inr ⟨Function.update_self _ _ _, rfl⟩
  · exact Or.inl ⟨Function.update_self _ _ _, List.length_append⟩

theorem Inv.length_handed_le {n : ℕ} (h : s.Inv numWorkers (Multiset.range n)) :
    s.handed.length ≤ n := by
  have hcard := congrArg Multiset.card h.tally
  rw [Multiset.card_add, Multiset.card_range] at hcard
  have hgiven : Multiset.card s.given = s.handed.length := List.length_map _
  omega

/-- A step hands out an index, or takes its worker nearer to its end. -/
theorem Inv.rank_lt {n : ℕ} (h : s.Inv numWorkers (Multiset.range n)) {a : Steal}
    (hs : s.step numWorkers a = some s') :
    (s'.phase a.worker).rank + 4 * (n - s'.handed.length) <
      (s.phase a.worker).rank + 4 * (n - s.handed.length) := by
  have hle := (h.step hs).length_handed_le
  cases a with
  | next w gives =>
    simp only [Stealers.step] at hs
    split at hs
    · cases hphase : s.phase w with
      | iterating =>
        rw [hphase] at hs
        cases hs
        simp only [Steal.worker, hphase]
        rcases takeNext_cases s w .iterating .stealing with ⟨hnext, hhanded⟩ | ⟨hnext, hhanded⟩
        · rw [hhanded] at hle
          rw [hnext, hhanded]
          omega
        · rw [hnext, hhanded, Phase.rank, Phase.rank]
          omega
      | resuming =>
        rw [hphase] at hs
        cases hs
        simp only [Steal.worker, hphase]
        have hagain : (if gives then Phase.iterating else .resuming).rank ≤ 4 := by
          cases gives <;> decide
        rcases takeNext_cases s w (if gives then .iterating else .resuming) .stopped
          with ⟨hnext, hhanded⟩ | ⟨hnext, hhanded⟩
        · rw [hhanded] at hle
          rw [hnext, hhanded, show Phase.rank .resuming = 1 from rfl]
          omega
        · rw [hnext, hhanded, Phase.rank, Phase.rank]
          omega
      | _ =>
        rw [hphase] at hs
        cases hs
    · cases hs
  | steal w v =>
    simp only [Stealers.step] at hs
    split at hs
    · rename_i hguard
      simp only [Steal.worker, hguard.2.2]
      rcases hsteal : (s.range v).steal with ⟨_ | ⟨startI, endI⟩, range⟩
      · rw [hsteal] at hs
        cases hs
        have hnext : (s.setPhase w .stopped).phase w = .stopped := Function.update_self _ _ _
        rw [hnext, Phase.rank, Phase.rank]
        exact Nat.add_lt_add_right (by decide) _
      · rw [hsteal] at hs
        cases hs
        have hnext : ((s.setRange v range).setPhase w (.holding startI endI)).phase w =
            .holding startI endI := Function.update_self _ _ _
        rw [hnext, Phase.rank, Phase.rank]
        exact Nat.add_lt_add_right (by decide) _
    · cases hs
  | setRange w =>
    simp only [Stealers.step] at hs
    split at hs
    · cases hphase : s.phase w with
      | holding startI endI =>
        rw [hphase] at hs
        cases hs
        have hnext : ((s.setRange w ⟨startI, endI⟩).setPhase w .resuming).phase w = .resuming :=
          Function.update_self _ _ _
        simp only [Steal.worker, hphase, hnext, Phase.rank]
        exact Nat.add_lt_add_right (by decide) _
      | _ =>
        rw [hphase] at hs
        cases hs
    · cases hs

/-- Where no worker goes on, nothing is left. -/
theorem Inv.given_eq (h : s.Inv numWorkers all) (hend : ∀ w < numWorkers, s.phase w = .stopped) :
    s.given = all := by
  have htally := h.tally
  rw [Finset.sum_eq_zero, add_zero] at htally
  · exact htally
  · intro w hw
    have hw := Finset.mem_range.mp hw
    have hused := h.idle w hw (by rw [hend w hw]; exact Phase.not_taking_stopped)
    rw [held, hend w hw, IterWorkStealer.indices_of_le hused]
    rfl

/-- The workers begin with ranges that share `[0, n)` out among them. -/
def Shared (numWorkers : ℕ) (parts : ℕ → IterWorkStealer) (n : ℕ) : Prop :=
  ((List.range numWorkers).flatMap fun w =>
    List.range' (parts w).startI ((parts w).endI - (parts w).startI)).Perm (List.range n)

theorem Shared.sum_eq {parts : ℕ → IterWorkStealer} {n : ℕ} (h : Shared numWorkers parts n) :
    ∑ w ∈ Finset.range numWorkers, (parts w).indices = Multiset.range n := by
  have hsum := Tally.sum_range_eq_flatMap (List.range numWorkers)
    (f := fun w => List.range' (parts w).startI ((parts w).endI - (parts w).startI))
    (g := fun w => List.range' (parts w).startI ((parts w).endI - (parts w).startI))
    fun k a ha => by
      obtain ⟨hk, hget⟩ := List.getElem?_eq_some_iff.mp ha
      rw [List.getElem_range] at hget
      rw [hget]
  rw [List.length_range] at hsum
  exact hsum.trans (Multiset.coe_eq_coe.mpr h)

/-- Work stealing hands out no index twice, and each index once all workers have stopped. -/
theorem each_index_once {parts : ℕ → IterWorkStealer} {n : ℕ} (h : Shared numWorkers parts n)
    (hs : Reached numWorkers parts s) :
    (s.handed.map Prod.snd).Nodup ∧ (∀ index ∈ s.handed.map Prod.snd, index < n) ∧
      ((∀ w < numWorkers, s.phase w = .stopped) →
        (s.handed.map Prod.snd).Perm (List.range n)) := by
  have hinv := hs.inv
  rw [h.sum_eq] at hinv
  have hle : s.given ≤ Multiset.range n := hinv.tally ▸ Multiset.le_add_right _ _
  refine ⟨Multiset.coe_nodup.mp (Multiset.nodup_of_le hle (Multiset.nodup_range n)),
    fun index hindex => ?_, fun hend => ?_⟩
  · exact Multiset.mem_range.mp (Multiset.mem_of_le hle (Multiset.mem_coe.mpr hindex))
  · exact Multiset.coe_eq_coe.mp (hinv.given_eq hend)

/-- Worker 1 begins with nothing and takes half of the four indices of worker 0, which stops while
these are on their way. -/
theorem each_index_once_stolen : ∃ s,
    Reached 2 (fun w => if w = 0 then ⟨0, 4⟩ else ⟨4, 4⟩) s ∧
      s.handed = [(0, 0), (0, 1), (1, 2), (1, 3)] ∧
      (s.handed.map Prod.snd).Nodup ∧ (∀ index ∈ s.handed.map Prod.snd, index < 4) ∧
      ((∀ w < 2, s.phase w = .stopped) → (s.handed.map Prod.snd).Perm (List.range 4)) := by
  have hrun : (run (step 2) (start fun w => if w = 0 then ⟨0, 4⟩ else ⟨4, 4⟩)
      [.next 1 true, .steal 1 0, .next 0 true, .next 0 true, .next 0 true, .steal 0 1,
        .setRange 1, .next 1 false, .next 1 true, .next 1 true, .steal 1 0]).map handed =
      some [(0, 0), (0, 1), (1, 2), (1, 3)] := by
    decide
  obtain ⟨s, hs, hhanded⟩ := Option.map_eq_some_iff.mp hrun
  have hreached : Reached 2 (fun w => if w = 0 then ⟨0, 4⟩ else ⟨4, 4⟩) s :=
    Reach.run (.init rfl) hs
  have hshared : Shared 2 (fun w => if w = 0 then ⟨0, 4⟩ else ⟨4, 4⟩) 4 :=
    List.Perm.refl [0, 1, 2, 3]
  exact ⟨s, hreached, hhanded, each_index_once hshared hreached⟩

end Stealers

end Lamellar.Consumer
