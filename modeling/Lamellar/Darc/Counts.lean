import Lamellar.Darc.Steps
import Mathlib.Algebra.BigOperators.Group.Finset.Piecewise
import Mathlib.Algebra.BigOperators.Group.Multiset.Basic
import Mathlib.Algebra.BigOperators.Fin
import Mathlib.Data.Fintype.BigOperators
import Mathlib.Data.Multiset.Count

/-!
# Conservation of the distributed count

`dist_cnt` of a PE counts the serialized handles it has sent that have not been accounted
for: each one is in flight, or in the `ref_cnts` of the PE that received it, or in a
`FinishedAm` on its way back. Only four operations move a handle between these places.
-/

namespace Lamellar.Darc

open State

variable {P : ℕ}

/-- The serialized handles sent by `p` that are still in flight. -/
def inFlightFrom (s : State P) (p : Fin P) : ℕ := s.inFlight.countP (·.src = p)

/-- The sum of the `cnt` fields of the `FinishedAm`s in flight to `p`. -/
def finishedTo (s : State P) (p : Fin P) : ℕ :=
  ((s.finished.filter (·.dst = p)).map (·.cnt)).sum

/-- What `dist_cnt` counts. -/
def DistConserved (s : State P) : Prop :=
  ∀ p, s.distCnt p = inFlightFrom s p + ∑ q, s.refCnts q p + finishedTo s p

theorem sum_update_refCnts (f : Fin P → Fin P → ℕ) (p : Fin P) (v : Fin P → ℕ) (r : Fin P) :
    ∑ q, Function.update f p v q r + f p r = ∑ q, f q r + v r := by
  have hupdate : ∀ q, Function.update f p v q r = Function.update (f · r) p (v r) q := by
    intro q
    by_cases hq : q = p
    · subst hq
      simp
    · simp [hq]
  simp only [hupdate]
  rw [← Finset.add_sum_erase _ _ (Finset.mem_univ p),
    ← Finset.add_sum_erase (a := p) _ (fun q => f q r) (Finset.mem_univ p)]
  have hrest : ∑ q ∈ Finset.univ.erase p, Function.update (f · r) p (v r) q =
      ∑ q ∈ Finset.univ.erase p, f q r := by
    apply Finset.sum_congr rfl
    intro q hq
    rw [Function.update_of_ne (Finset.ne_of_mem_erase hq)]
  rw [hrest, Function.update_self]
  omega

/-- `send_finished` moves the counts of `ref_cnts` into messages. -/
theorem sendFinished_conserved {s : State P} (h : DistConserved s) (p : Fin P) :
    DistConserved (s.sendFinished p) := by
  intro r
  have hsum := sum_update_refCnts s.refCnts p (fun _ => 0) r
  have hmsgs : (((((Finset.univ.filter fun q => 0 < s.refCnts p q).val.map
      fun q => FinishedAm.mk q (s.refCnts p q)).filter (·.dst = r)).map (·.cnt)).sum) =
      s.refCnts p r := by
    rw [Multiset.filter_map, Multiset.map_map]
    change ((Multiset.filter (fun q => q = r) _).map fun q => s.refCnts p q).sum = _
    rw [Multiset.filter_eq']
    by_cases hpos : 0 < s.refCnts p r
    · rw [Multiset.count_eq_one_of_mem (Finset.nodup _) (by simpa using hpos)]
      simp
    · rw [Multiset.count_eq_zero_of_notMem (by simpa using hpos)]
      simp
      omega
  have hr := h r
  simp only [State.sendFinished, finishedTo, inFlightFrom, Multiset.filter_add, Multiset.map_add,
    Multiset.sum_add] at hr ⊢
  rw [hmsgs]
  omega

theorem inFlightFrom_serialized (s : State P) (p : Fin P) (g : ℕ) (dsts : List (Fin P))
    (r : Fin P) : inFlightFrom (s.serialized p g dsts) r =
      inFlightFrom s r + if p = r then dsts.length else 0 := by
  have hcount : Multiset.countP (fun m : NetworkDarc P => m.src = r)
      ((dsts.map fun q => NetworkDarc.mk p q g false : List _) : Multiset _) =
      if p = r then dsts.length else 0 := by
    by_cases hpr : p = r
    · simp [hpr, List.countP_map, Function.comp_def]
    · simp [hpr, List.countP_map, Function.comp_def]
  rw [← hcount]
  exact Multiset.countP_add _ _ _

theorem inFlightFrom_opened {s : State P} {m : NetworkDarc P} (hm : m ∈ s.inFlight)
    (r : Fin P) : inFlightFrom (s.opened m) r = inFlightFrom s r := by
  have hcons := Multiset.countP_cons (fun x : NetworkDarc P => x.src = r) m (s.inFlight.erase m)
  rw [Multiset.cons_erase hm] at hcons
  exact (Multiset.countP_cons _ _ _).trans hcons.symm

theorem inFlightFrom_credited {s : State P} {m : NetworkDarc P} (hm : m ∈ s.inFlight)
    (r : Fin P) : inFlightFrom s r =
      inFlightFrom (s.credited m) r + if m.src = r then 1 else 0 := by
  have hcons := Multiset.countP_cons (fun x : NetworkDarc P => x.src = r) m (s.inFlight.erase m)
  rw [Multiset.cons_erase hm] at hcons
  exact hcons

theorem serialized_conserved {s : State P} (h : DistConserved s) (p : Fin P) (g : ℕ)
    (dsts : List (Fin P)) : DistConserved (s.serialized p g dsts) := by
  intro r
  have hr := h r
  rw [inFlightFrom_serialized]
  simp only [State.serialized, finishedTo] at hr ⊢
  by_cases hpr : p = r
  · subst hpr
    rw [Function.update_self, if_pos rfl]
    omega
  · rw [Function.update_of_ne (Ne.symm hpr), if_neg hpr]
    omega

theorem credited_conserved {s : State P} {m : NetworkDarc P} (h : DistConserved s)
    (hm : m ∈ s.inFlight) : DistConserved (s.credited m) := by
  intro r
  have hr := h r
  have hsum := sum_update_refCnts s.refCnts m.dst
    (Function.update (s.refCnts m.dst) m.src (s.refCnts m.dst m.src + 1)) r
  rw [inFlightFrom_credited hm] at hr
  simp only [State.credited, finishedTo, update₂] at hr ⊢
  by_cases hsrc : m.src = r
  · subst hsrc
    rw [Function.update_self] at hsum
    rw [if_pos rfl] at hr
    omega
  · rw [Function.update_of_ne (Ne.symm hsrc)] at hsum
    rw [if_neg hsrc] at hr
    omega

/-- The sum of the counts in flight to `r`, with one message taken out. -/
theorem finishedTo_erase {s : State P} {m : FinishedAm P} (hm : m ∈ s.finished) (r : Fin P) :
    finishedTo s r = (((s.finished.erase m).filter (·.dst = r)).map (·.cnt)).sum +
      if m.dst = r then m.cnt else 0 := by
  unfold finishedTo
  conv_lhs => rw [← Multiset.cons_erase hm]
  by_cases hdst : m.dst = r
  · rw [Multiset.filter_cons_of_pos (p := fun x : FinishedAm P => x.dst = r) _ hdst,
      if_pos hdst, Multiset.map_cons, Multiset.sum_cons, Nat.add_comm]
  · rw [Multiset.filter_cons_of_neg (p := fun x : FinishedAm P => x.dst = r) _ hdst,
      if_neg hdst, Nat.add_zero]

theorem cnt_le_finishedTo {s : State P} {m : FinishedAm P} (hm : m ∈ s.finished) :
    m.cnt ≤ finishedTo s m.dst := by
  rw [finishedTo_erase hm, if_pos rfl]
  omega

theorem executed_conserved {s : State P} {m : FinishedAm P} (h : DistConserved s)
    (hm : m ∈ s.finished) : DistConserved (s.executed m) := by
  intro r
  have hr := h r
  have herase := finishedTo_erase hm r
  have hle := cnt_le_finishedTo hm
  simp only [State.executed, inFlightFrom] at hr ⊢
  unfold finishedTo at *
  by_cases hdst : m.dst = r
  · subst hdst
    rw [Function.update_self]
    rw [if_pos rfl] at herase
    simp only
    omega
  · rw [Function.update_of_ne (Ne.symm hdst)]
    rw [if_neg hdst] at herase
    simp only
    omega

theorem opStep_conserved {s s' : State P} {a : Action P} (h : DistConserved s)
    (hs : OpStep s a s') : DistConserved s' := by
  cases hs
  case dropSending p pc next => exact sendFinished_conserved (s := s.dropOn p pc next) h p
  case serialize p g dsts _ _ => exact serialized_conserved h p g dsts
  case deliver m hm _ =>
    intro r
    rw [inFlightFrom_opened hm]
    exact h r
  case credit m hm _ => exact credited_conserved h hm
  case execFinished m hm => exact executed_conserved h hm
  all_goals exact h

theorem taskStep_conserved {s s' : State P} {p : Fin P} {t : Task P} (h : DistConserved s)
    (hs : TaskStep s p t s') : DistConserved s' := by
  cases hs
  case sendFinished => exact sendFinished_conserved h p
  case spin => exact sendFinished_conserved h p
  all_goals exact h

theorem step_conserved {s s' : State P} {a : Action P} (h : DistConserved s)
    (hs : s.step a = some s') : DistConserved s' := by
  rcases step_cases hs with (hop | hover) | ⟨p, q, t, _, _, htask⟩
  · exact opStep_conserved h hop
  · cases hover
    all_goals exact h
  · exact taskStep_conserved h htask

/-- In every reachable state, on every PE, `dist_cnt` is the number of handles it has sent
that are in flight, counted by a receiver, or being reported back; so no `FinishedAm`
decrements it below zero. -/
theorem dist_cnt_conserved (P : ℕ) (s : State P) (hs : Reachable s) (p : Fin P) :
    s.distCnt p = s.inFlight.countP (·.src = p) + ∑ q, s.refCnts q p +
        ((s.finished.filter (·.dst = p)).map (·.cnt)).sum ∧
      ∀ m ∈ s.finished, m.dst = p → m.cnt ≤ s.distCnt p := by
  have hinv : DistConserved s := by
    refine Transition.Reach.invariant ?_ (fun s a s' h _ => step_conserved h) hs
    rintro s ⟨mode, garbage, _, rfl⟩ p
    simp [State.new, inFlightFrom, finishedTo]
  refine ⟨hinv p, ?_⟩
  rintro m hm rfl
  have hle := cnt_le_finishedTo hm
  rw [hinv m.dst]
  omega

/-- PE 0 sends a handle to PE 1 and two to PE 2, and PE 1 drops its handles. -/
def sentAround : List (Action 3) :=
  [.serialize 0 0 [1, 2], .serialize 0 0 [2], .deliver ⟨0, 1, 0, false⟩, .credit ⟨0, 1, 0, true⟩,
    .hold ⟨0, 1, 0, true⟩, .drop 1 0, .drop 1 0, .runDrop 1 .sendFinished,
    .deliver ⟨0, 2, 0, false⟩, .credit ⟨0, 2, 0, true⟩]

/-- PE 0 has one handle in flight, one counted on PE 2 and one reported back by PE 1. -/
theorem dist_cnt_conserved_three_sent :
    ∃ s : State 3, Transition.run State.step (State.new .darc fun _ _ => 0) sentAround = some s ∧
      s.finished = {⟨0, 1⟩} ∧ s.refCnts 2 0 = 1 ∧ s.inFlight = {⟨0, 2, 0, false⟩} ∧
      (s.distCnt 0 = s.inFlight.countP (·.src = 0) + ∑ q, s.refCnts q 0 +
          ((s.finished.filter (·.dst = 0)).map (·.cnt)).sum ∧
        ∀ m ∈ s.finished, m.dst = 0 → m.cnt ≤ s.distCnt 0) := by
  have hrun : (Transition.run State.step (State.new .darc fun _ _ => 0) sentAround).map
      (fun s => (s.finished, s.refCnts 2 0, s.inFlight)) =
      some ({⟨0, 1⟩}, 1, {⟨0, 2, 0, false⟩}) := by decide +kernel
  obtain ⟨s, hs, hresult⟩ := Option.map_eq_some_iff.mp hrun
  simp only [Prod.mk.injEq] at hresult
  have hinit : Initial (State.new .darc fun _ _ => 0 : State 3) := ⟨_, _, by decide, rfl⟩
  exact ⟨s, hs, hresult.1, hresult.2.1, hresult.2.2,
    dist_cnt_conserved 3 s (Transition.Reach.run (.init hinit) hs) 0⟩

end Lamellar.Darc
