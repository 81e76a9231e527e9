import Lamellar.PoolAlloc.Steps
import Lamellar.Lib.Roster
import Mathlib.Algebra.Order.BigOperators.Group.Finset
import Mathlib.Data.Fintype.Lattice

/-!
# All PEs allocate the same pools

That the PEs agree is `Rounds.calls`. That nobody is stuck is shown by a measure: as long as
no request starts another round, every step of a holder of a lock and every put that arrives
leaves less to do (`weight`), and some step is enabled (`Inv.enabled`). The round that is
furthest behind decides which: a PE in it is at `alloc_pool` and all have called it, or it
waits for a slot that has come, or it is idle and sees the `Alloc` of another one.
-/

namespace Lamellar.PoolAlloc

open CommandQueue (CmdMsg Cmd)
open Transition (Reach Next)

variable {P : ℕ} {s s' : State P} {p q : Fin P}

/-! ## The requests that hold a lock -/

/-- The request that has the lock of the PE. -/
def Pe.holder (pe : Pe) : Option ℕ :=
  match pe.pc with
  | .free | .scan _ => none
  | .checking k => some k
  | _ => pe.caller

def Held (pes : Fin P → Pe) (requests : List (Request P)) : Prop :=
  ∀ p k, (pes p).holder = some k →
    ∃ minSize prevCnt, requests[k]? = some ⟨p, minSize, .inside prevCnt⟩

section

variable {pes : Fin P → Pe} {requests : List (Request P)} {k : ℕ}

theorem Held.update {pe : Pe} (h : Held pes requests)
    (hpe : pe.holder = (pes p).holder ∨ pe.holder = none) :
    Held (Function.update pes p pe) requests := by
  intro q k hk
  by_cases hq : q = p
  · subst hq
    rw [Function.update_self] at hk
    rcases hpe with hpe | hpe
    · exact h q k (hpe ▸ hk)
    · simp [hpe] at hk
  · rw [Function.update_of_ne hq] at hk
    exact h q k hk

/-- The record of a request changes that holds no lock. -/
theorem Held.modify {f : Request P → Request P} (h : Held pes requests)
    (hfree : ∀ q, (pes q).holder ≠ some k) : Held pes (requests.modify k f) := by
  intro q k' hk'
  have hne : k ≠ k' := by
    rintro rfl
    exact hfree q hk'
  rw [Roster.modify_of_ne hne]
  exact h q k' hk'

/-- Two PEs never have the lock for one request. -/
theorem Held.unique (h : Held pes requests) (hp : (pes p).holder = some k)
    (hq : (pes q).holder = some k) : p = q := by
  obtain ⟨m, c, hk⟩ := h p k hp
  obtain ⟨m', c', hk'⟩ := h q k hq
  rw [hk] at hk'
  cases hk'
  rfl

/-- The lock is given back, and the request of its holder returns. -/
theorem Held.release {pe : Pe} {f : Request P → Request P} (h : Held pes requests)
    (hk : (pes p).holder = some k) (hpe : pe.holder = none) :
    Held (Function.update pes p pe) (requests.modify k f) := by
  refine (h.update (Or.inr hpe)).modify fun q hq => ?_
  by_cases hqp : q = p
  · subst hqp
    rw [Function.update_self, hpe] at hq
    cases hq
  · rw [Function.update_of_ne hqp] at hq
    exact hqp (h.unique hq hk)

end

theorem Held.run (h : Held s.pes s.requests) (hstep : s.run p = some s') :
    Held s'.pes s'.requests := by
  cases hpc : (s.pes p).pc <;> simp only [State.run, hpc] at hstep
  case scan i =>
    cases hstep
    simp only [State.scan]
    split
    · split
      · exact h.update (Or.inr rfl)
      · exact h.update (Or.inr rfl)
    · exact h.update (Or.inr rfl)
  case start =>
    cases hstep
    simp only [State.startRound]
    split <;> exact h.update (Or.inl (by simp [Pe.holder, hpc]))
  case putAlloc i =>
    cases hstep
    simp only [State.putSlot]
    split
    · split <;> exact h.update (Or.inl (by simp [Pe.holder, State.put, hpc]))
    · exact h.update (Or.inl (by simp [Pe.holder, hpc]))
  case waitAlloc i =>
    simp only [State.waitAlloc] at hstep
    split at hstep
    · split at hstep
      · cases hstep
        exact h.update (Or.inl (by simp [Pe.holder, hpc]))
      · cases hstep
    · cases hstep
      exact h.update (Or.inl (by simp [Pe.holder, hpc]))
  case alloc =>
    cases hstep
    exact h.update (Or.inl (by simp [Pe.holder, hpc]))
  case allocating =>
    simp only [State.allocated] at hstep
    split at hstep
    · cases hstep
      exact h.update (Or.inl (by simp [Pe.holder, hpc]))
    · cases hstep
  case clear =>
    cases hstep
    exact h.update (Or.inl (by simp [Pe.holder, State.setSlot, hpc]))
  case putClear i =>
    cases hstep
    simp only [State.putSlot]
    split
    · split <;> exact h.update (Or.inl (by simp [Pe.holder, State.put, hpc]))
    · exact h.update (Or.inl (by simp [Pe.holder, hpc]))
  case waitClear i newAlloc =>
    simp only [State.waitClear] at hstep
    split at hstep
    · split at hstep
      · cases hstep
        exact h.update (Or.inl (by simp [Pe.holder, hpc]))
      · split at hstep
        · cases hstep
          exact h.update (Or.inl (by simp [Pe.holder, hpc]))
        · cases hstep
    · split at hstep
      · cases hstep
        exact h.update (Or.inl (by simp [Pe.holder, hpc]))
      · cases hstep
        simp only [State.leave]
        split
        · exact h.release (by simpa [Pe.holder, hpc] using ‹_›) rfl
        · exact h.update (Or.inr rfl)
  all_goals cases hstep

theorem Held.step {a : Action P} (h : Held s.pes s.requests) (hstep : s.step a = some s') :
    Held s'.pes s'.requests := by
  cases a with
  | sendAlloc p minSize =>
    cases hstep
    intro q k hk
    obtain ⟨m, c, hreq⟩ := h q k hk
    exact ⟨m, c, Roster.append_old hreq⟩
  | count k =>
    simp only [State.step, State.count] at hstep
    split at hstep
    · rename_i p m hk
      split at hstep
      · cases hstep
      · cases hstep
        refine h.modify fun q hq => ?_
        obtain ⟨_, _, hreq⟩ := h q k hq
        simp [hk] at hreq
    · cases hstep
  | lock k =>
    simp only [State.step, State.lock] at hstep
    split at hstep
    · rename_i p m c hk
      split at hstep
      · cases hstep
        intro q k' hk'
        by_cases hq : q = p
        · subst hq
          simp only [State.setRequest, State.goto, State.setPe, Function.update_self,
            Pe.holder, Option.some.injEq] at hk'
          subst hk'
          exact ⟨m, c, Roster.modify_self hk⟩
        · simp only [State.setRequest, State.goto, State.setPe, Function.update_of_ne hq] at hk' ⊢
          obtain ⟨m', c', hreq⟩ := h q k' hk'
          have hne : k ≠ k' := by
            rintro rfl
            simp [hk] at hreq
          exact ⟨m', c', by rw [Roster.modify_of_ne hne, hreq]⟩
      · cases hstep
    · cases hstep
  | room k found =>
    simp only [State.step, State.room] at hstep
    split at hstep
    · rename_i p m c hk
      split at hstep
      · rename_i hpc
        have hold : (s.pes p).holder = some k := by simp [Pe.holder, hpc]
        split at hstep
        · cases hstep
          exact h.update (Or.inl hold.symm)
        · cases hstep
          exact h.release hold rfl
      · cases hstep
    · cases hstep
  | checkAlloc p =>
    simp only [State.step] at hstep
    split at hstep
    · cases hstep
      exact h.update (Or.inr rfl)
    · cases hstep
  | run p => exact h.run hstep
  | deliver q p =>
    simp only [State.step] at hstep
    split at hstep
    · cases hstep
      exact h
    · cases hstep

/-! ## What is left to do -/

namespace Pe

/-- The rounds that the PE has begun. -/
def begun (pe : Pe) : ℕ :=
  match pe.pc with
  | .start | .putAlloc _ | .waitAlloc _ | .alloc => pe.rounds + 1
  | _ => pe.rounds

theorem begun_of_pos {pe : Pe} {r : ℕ} (h : pe.pos = 2 * r + 1) : r + 1 ≤ pe.begun := by
  unfold pos at h
  unfold begun
  split at h <;> simp only [*] <;> omega

end Pe

/-- Slot `i` or a later one is at `Alloc`. -/
def Finds (slots : Fin P → CmdMsg) (i : ℕ) : Prop :=
  ∃ q : Fin P, i ≤ q ∧ State.isAlloc (slots q) = true

instance (slots : Fin P → CmdMsg) (i : ℕ) : Decidable (Finds slots i) :=
  inferInstanceAs (Decidable (∃ q : Fin P, i ≤ q ∧ State.isAlloc (slots q) = true))

/-- The steps of a PE until it is idle, apart from further rounds. -/
def phase (slots : Fin P → CmdMsg) : Pc → ℕ
  | .alloc => 0
  | .waitAlloc i => 1 + (P - i)
  | .putAlloc i => 2 + P + 2 * (P - i)
  | .start => 3 + 3 * P
  | .scan i => if Finds slots i then 4 + 3 * P + (P - i) else 6 + 4 * P + (P - i)
  | .free => 5 + 4 * P
  | .checking _ => 6 + 4 * P
  | .waitClear i _ => 7 + 5 * P + (P - i)
  | .putClear i => 8 + 6 * P + 2 * (P - i)
  | .clear => 9 + 8 * P
  | .allocating => 10 + 8 * P

/-- The same with all rounds up to the last one, and with the puts on their way. -/
def weight (last : ℕ) (s : State P) (p : Fin P) : ℕ :=
  (last - (s.pes p).rounds) * (11 + 8 * P) + phase (s.slots p) (s.pes p).pc +
    ∑ q, (s.puts p q).length

/-- A step of PE `p` leaves the other PEs alone. -/
def Frame (p : Fin P) (s s' : State P) : Prop :=
  ∀ q, q ≠ p → s'.pes q = s.pes q ∧ s'.slots q = s.slots q ∧ s'.puts q = s.puts q

theorem Frame.setPe {pe : Pe} : Frame p s (s.setPe p pe) :=
  fun _ hq => ⟨Function.update_of_ne hq _ _, rfl, rfl⟩

theorem Frame.setSlot {c : CmdMsg} : Frame p s (s.setSlot p q c) :=
  fun _ hq => ⟨rfl, Function.update_of_ne hq _ _, rfl⟩

theorem Frame.put {c : CmdMsg} : Frame p s (s.put p q c) :=
  fun _ hq => ⟨rfl, rfl, Function.update_of_ne hq _ _⟩

theorem Frame.trans {s'' : State P} (h : Frame p s s') (h' : Frame p s' s'') : Frame p s s'' := by
  intro q hq
  obtain ⟨hpes, hslots, hputs⟩ := h q hq
  obtain ⟨hpes', hslots', hputs'⟩ := h' q hq
  exact ⟨hpes'.trans hpes, hslots'.trans hslots, hputs'.trans hputs⟩

theorem Frame.weight_eq {last : ℕ} (h : Frame p s s') (hq : q ≠ p) :
    weight last s' q = weight last s q := by
  obtain ⟨hpes, hslots, hputs⟩ := h q hq
  rw [weight, weight, hpes, hslots, hputs]

/-- PE `p` goes on in the same round. -/
theorem weight_setPe {last : ℕ} {pe : Pe} (hcalls : pe.calls = (s.pes p).calls)
    (hphase : phase (s.slots p) pe.pc < phase (s.slots p) (s.pes p).pc) :
    weight last (s.setPe p pe) p < weight last s p := by
  simp only [weight, State.setPe, Function.update_self, Pe.rounds, hcalls]
  omega

theorem weight_setSlot {last : ℕ} {c : CmdMsg} {pe : Pe} (hcalls : pe.calls = (s.pes p).calls)
    (hphase : ∀ slots : Fin P → CmdMsg, phase slots pe.pc < phase (s.slots p) (s.pes p).pc) :
    weight last ((s.setSlot p p c).setPe p pe) p < weight last s p := by
  have hlt := hphase (Function.update (s.slots p) p c)
  simp only [weight, State.setPe, State.setSlot, Function.update_self, Pe.rounds, hcalls]
  omega

theorem sum_update_append (f : Fin P → List CmdMsg) (q : Fin P) (c : CmdMsg) :
    ∑ x, (Function.update f q (f q ++ [c]) x).length = ∑ x, (f x).length + 1 := by
  rw [← Finset.add_sum_erase _ _ (Finset.mem_univ q),
    ← Finset.add_sum_erase _ (fun x => (f x).length)
    (Finset.mem_univ q), Function.update_self, List.length_append, List.length_singleton]
  have hrest : ∑ x ∈ Finset.univ.erase q, (Function.update f q (f q ++ [c]) x).length =
      ∑ x ∈ Finset.univ.erase q, (f x).length := by
    refine Finset.sum_congr rfl fun x hx => ?_
    rw [Function.update_of_ne (Finset.ne_of_mem_erase hx)]
  rw [hrest]
  omega

theorem weight_putSlot {last i : ℕ} {next : ℕ → Pc} {done : Pc}
    (hpc : (s.pes p).pc = next i)
    (hnext : ∀ slots : Fin P → CmdMsg, i < P →
      phase slots (next (i + 1)) + 2 ≤ phase slots (next i))
    (hdone : ∀ slots : Fin P → CmdMsg, phase slots done < phase slots (next i)) :
    Frame p s (s.putSlot p i next done) ∧
      weight last (s.putSlot p i next done) p < weight last s p := by
  simp only [State.putSlot]
  split
  · rename_i hi
    have hlt := hnext (s.slots p) hi
    split
    · refine ⟨Frame.put.trans .setPe, ?_⟩
      simp only [weight, State.goto, State.setPe, State.put, Function.update_self,
        sum_update_append, Pe.rounds, hpc]
      omega
    · refine ⟨.setPe, weight_setPe rfl ?_⟩
      show phase (s.slots p) (next (i + 1)) < _
      rw [hpc]
      omega
  · refine ⟨.setPe, weight_setPe rfl ?_⟩
    rw [hpc]
    exact hdone _

theorem run_weight {last : ℕ} (hbegun : (s.pes p).begun ≤ last) (hstep : s.run p = some s') :
    Frame p s s' ∧ weight last s' p < weight last s p := by
  cases hpc : (s.pes p).pc <;> simp only [State.run, hpc] at hstep
  case scan i =>
    cases hstep
    simp only [State.scan]
    split
    · rename_i hi
      split
      · rename_i halloc
        have hfinds : Finds (s.slots p) i := ⟨⟨i, hi⟩, Nat.le_refl i, halloc⟩
        refine ⟨.setPe, weight_setPe rfl ?_⟩
        simp only [phase, hpc, if_pos hfinds]
        omega
      · rename_i hno
        have hiff : Finds (s.slots p) (i + 1) ↔ Finds (s.slots p) i := by
          constructor
          · rintro ⟨q, hq, halloc⟩
            exact ⟨q, by omega, halloc⟩
          · rintro ⟨q, hq, halloc⟩
            refine ⟨q, ?_, halloc⟩
            have hne : i ≠ q.val := by
              rintro rfl
              exact hno halloc
            omega
        refine ⟨.setPe, weight_setPe rfl ?_⟩
        simp only [phase, hpc, hiff]
        split <;> omega
    · have hno : ¬ Finds (s.slots p) i := by
        rintro ⟨q, hq, -⟩
        omega
      refine ⟨.setPe, weight_setPe rfl ?_⟩
      simp only [phase, hpc, if_neg hno]
      omega
  case start =>
    cases hstep
    simp only [State.startRound]
    split
    · refine ⟨Frame.setSlot.trans .setPe, weight_setSlot rfl fun slots => ?_⟩
      simp only [phase, hpc]
      omega
    · refine ⟨.setPe, weight_setPe rfl ?_⟩
      simp only [phase, hpc]
      omega
  case putAlloc i =>
    cases hstep
    refine weight_putSlot hpc (fun slots hi => ?_) fun slots => ?_
    all_goals
      simp only [phase]
      omega
  case waitAlloc i =>
    simp only [State.waitAlloc] at hstep
    split at hstep
    · split at hstep
      · cases hstep
        refine ⟨.setPe, weight_setPe rfl ?_⟩
        simp only [phase, hpc]
        omega
      · cases hstep
    · cases hstep
      refine ⟨.setPe, weight_setPe rfl ?_⟩
      simp only [phase, hpc]
      omega
  case alloc =>
    cases hstep
    refine ⟨.setPe, ?_⟩
    simp only [Pe.begun, hpc, Pe.rounds] at hbegun
    have hsub : last - (s.pes p).calls.length = last - ((s.pes p).calls.length + 1) + 1 := by
      omega
    simp only [weight, State.setPe, Function.update_self, Pe.rounds, phase, hpc,
      List.length_append, List.length_singleton, hsub, Nat.add_mul]
    omega
  case allocating =>
    simp only [State.allocated] at hstep
    split at hstep
    · cases hstep
      refine ⟨.setPe, weight_setPe rfl ?_⟩
      simp only [phase, hpc]
      omega
    · cases hstep
  case clear =>
    cases hstep
    refine ⟨Frame.setSlot.trans .setPe, weight_setSlot rfl fun slots => ?_⟩
    simp only [phase, hpc]
    omega
  case putClear i =>
    cases hstep
    refine weight_putSlot hpc (fun slots hi => ?_) fun slots => ?_
    all_goals
      simp only [phase]
      omega
  case waitClear i newAlloc =>
    have hlt : ∀ pc, pc = .start ∨ pc = .free ∨ i < P ∧ (∃ b, pc = .waitClear (i + 1) b) →
        Frame p s (s.goto p pc) ∧ weight last (s.goto p pc) p < weight last s p := by
      rintro pc (rfl | rfl | ⟨hi, b, rfl⟩)
      all_goals
        refine ⟨.setPe, weight_setPe rfl ?_⟩
        simp only [phase, hpc]
        omega
    simp only [State.waitClear] at hstep
    split at hstep
    · rename_i hi
      split at hstep
      · cases hstep
        exact hlt _ (Or.inr (Or.inr ⟨hi, _, rfl⟩))
      · split at hstep
        · cases hstep
          exact hlt _ (Or.inr (Or.inr ⟨hi, _, rfl⟩))
        · cases hstep
    · split at hstep
      · cases hstep
        exact hlt _ (Or.inl rfl)
      · cases hstep
        have hfree := hlt .free (Or.inr (Or.inl rfl))
        simp only [State.leave]
        split
        · exact hfree
        · exact hfree
  all_goals cases hstep

/-! ## No further round -/

/-- The PEs have begun no round after the last one. -/
structure Bounded (last : ℕ) (s : State P) : Prop where
  inv : Inv s
  held : Held s.pes s.requests
  begun : ∀ p, (s.pes p).begun ≤ last

theorem Bounded.goto {last : ℕ} {pe : Pe} (h : Bounded last s) (hpe : pe.begun ≤ last) :
    ∀ q, ((Function.update s.pes p pe) q).begun ≤ last := by
  intro q
  by_cases hq : q = p
  · subst hq
    rwa [Function.update_self]
  · rw [Function.update_of_ne hq]
    exact h.begun q

theorem Bounded.run {last : ℕ} (h : Bounded last s) (hstep : s.run p = some s') :
    Bounded last s' := by
  refine ⟨h.inv.run hstep, h.held.run hstep, ?_⟩
  have hbegun := h.begun p
  -- a PE begins a round only after another one
  have hjoin : ∀ q, 2 * (s.pes p).rounds + 1 ≤ (s.pes q).pos → (s.pes p).rounds + 1 ≤ last := by
    intro q hq
    have hle := h.inv.rounds.pos_le p q
    exact (Pe.begun_of_pos (by omega)).trans (h.begun q)
  cases hpc : (s.pes p).pc <;> simp only [State.run, hpc] at hstep
  case scan i =>
    simp only [Pe.begun, hpc] at hbegun
    cases hstep
    simp only [State.scan]
    split
    · rename_i hi
      split
      · rename_i halloc
        obtain ⟨n, hsees, hle⟩ := h.inv.boxes p ⟨i, hi⟩
        simp only [Pe.need, hpc] at hle
        obtain ⟨hn, hpos, -⟩ := h.inv.alloc_seen hsees hle halloc
        exact h.goto (hjoin ⟨i, hi⟩ (by omega))
      · exact h.goto hbegun
    · exact h.goto hbegun
  case start =>
    simp only [Pe.begun, hpc] at hbegun
    cases hstep
    simp only [State.startRound]
    split <;> exact h.goto hbegun
  case putAlloc i =>
    simp only [Pe.begun, hpc] at hbegun
    cases hstep
    simp only [State.putSlot]
    split
    · split <;> exact h.goto hbegun
    · exact h.goto hbegun
  case waitAlloc i =>
    simp only [Pe.begun, hpc] at hbegun
    simp only [State.waitAlloc] at hstep
    split at hstep
    · split at hstep
      · cases hstep
        exact h.goto hbegun
      · cases hstep
    · cases hstep
      exact h.goto hbegun
  case alloc =>
    simp only [Pe.begun, hpc] at hbegun
    cases hstep
    refine h.goto ?_
    simpa [Pe.begun, Pe.rounds] using hbegun
  case allocating =>
    simp only [Pe.begun, hpc] at hbegun
    simp only [State.allocated] at hstep
    split at hstep
    · cases hstep
      exact h.goto hbegun
    · cases hstep
  case clear =>
    simp only [Pe.begun, hpc] at hbegun
    cases hstep
    exact h.goto hbegun
  case putClear i =>
    simp only [Pe.begun, hpc] at hbegun
    cases hstep
    simp only [State.putSlot]
    split
    · split <;> exact h.goto hbegun
    · exact h.goto hbegun
  case waitClear i newAlloc =>
    simp only [Pe.begun, hpc] at hbegun
    simp only [State.waitClear] at hstep
    split at hstep
    · split at hstep
      · cases hstep
        exact h.goto hbegun
      · split at hstep
        · cases hstep
          exact h.goto hbegun
        · cases hstep
    · split at hstep
      · rename_i hnew
        cases hstep
        obtain ⟨q, hq⟩ := h.inv.rounds.again p i (by rw [hpc, hnew])
        exact h.goto (hjoin q hq)
      · cases hstep
        simp only [State.leave]
        split <;> exact h.goto hbegun
  all_goals cases hstep

/-! ## Some step is enabled -/

/-- The holder of the lock can go on, or an idle PE sees an `Alloc`. -/
def Enabled (s : State P) (p : Fin P) : Prop :=
  (∃ k, (s.pes p).pc = .checking k) ∨ (∃ s', s.run p = some s') ∨
    (s.pes p).pc = .free ∧ Finds (s.slots p) 0

/-- A PE that is not at a wait. -/
def Pc.waits : Pc → Bool
  | .free | .waitAlloc _ | .allocating | .waitClear _ _ => true
  | _ => false

theorem enabled_of_not_waits (h : (s.pes p).pc.waits = false) : Enabled s p := by
  cases hpc : (s.pes p).pc <;> simp [Pc.waits, hpc] at h
  case checking k => exact Or.inl ⟨k, hpc⟩
  all_goals
    refine Or.inr (Or.inl ?_)
    simp only [State.run, hpc]
    exact ⟨_, rfl⟩

theorem allocated_enabled (hpc : (s.pes p).pc = .allocating)
    (hmin : ∀ q, (s.pes p).rounds ≤ (s.pes q).rounds) : Enabled s p := by
  refine Or.inr (Or.inl ?_)
  simp only [State.run, hpc, State.allocated]
  exact ⟨_, if_pos hmin⟩

section

variable (h : Inv s) (hputs : ∀ q p, s.puts q p = []) (hwaits : ∀ p, (s.pes p).pc.waits = true)

include h hputs hwaits

/-- All puts have arrived, so every slot is up to date. -/
theorem Inv.up_to_date (p q : Fin P) :
    Shows (s.pes q).pos (s.slots p q) ∧ (s.pes p).need q ≤ (s.pes q).pos := by
  obtain ⟨n, hsees, hle⟩ := h.boxes p q
  have hsent := hsees.sent
  have hall : (s.pes q).sent p = (s.pes q).pos := by
    have hq := hwaits q
    unfold Pe.sent
    split
    · simp [*, Pc.waits] at hq
    · simp [*, Pc.waits] at hq
    · rfl
  rw [hputs, hall, ite_self, List.length_nil, Nat.add_zero] at hsent
  subst hsent
  exact ⟨hsees.slot, hle⟩

theorem Inv.finds (hpc : (s.pes p).pc = .free)
    (hpos : (s.pes q).pos = 2 * (s.pes p).rounds + 1) : Enabled s p := by
  refine Or.inr (Or.inr ⟨hpc, q, Nat.zero_le _, ?_⟩)
  have hshows := (h.up_to_date hputs hwaits p q).1
  rw [hshows.isAlloc]
  omega

theorem Inv.waitClear_enabled {i : ℕ} {newAlloc : Bool}
    (hpc : (s.pes p).pc = .waitClear i newAlloc)
    (hmin : ∀ q, (s.pes p).rounds ≤ (s.pes q).rounds) : ∃ q, Enabled s q := by
  have hok := h.rounds.counters p
  simp only [Pe.Ok, hpc] at hok
  by_cases hi : i < P
  · obtain ⟨hshows, hneed⟩ := h.up_to_date hputs hwaits p ⟨i, hi⟩
    have hle := h.rounds.pos_le p ⟨i, hi⟩
    have hlow : 2 * (s.pes p).rounds - 1 ≤ (s.pes ⟨i, hi⟩).pos := by
      refine le_trans ?_ hneed
      simp only [Pe.need, hpc]
      split <;> omega
    by_cases heven : (s.pes ⟨i, hi⟩).pos % 2 = 0
    · -- the slot is `Clear`
      refine ⟨p, Or.inr (Or.inl ?_)⟩
      simp only [State.run, hpc, State.waitClear, dif_pos hi, hshows.isClear.mpr heven]
      exact ⟨_, rfl⟩
    · by_cases hnext : (s.pes ⟨i, hi⟩).pos = 2 * (s.pes p).rounds + 1
      · -- the PE is in its next round
        have hlt := h.rounds.lt_of_pos hnext
        have hcmd := hshows.2
        rw [if_neg heven, hnext, show (2 * (s.pes p).rounds + 1) / 2 = (s.pes p).rounds by omega]
          at hcmd
        have hid : (s.pes p).id < (s.slots p ⟨i, hi⟩).daddr := by
          rw [hcmd.2, hok.2.1, UInt64.lt_iff_toNat_lt, UInt64.toNat_ofNat', UInt64.toNat_ofNat',
            Nat.mod_eq_of_lt hok.2.2.2.1, Nat.mod_eq_of_lt hlt]
          omega
        refine ⟨p, Or.inr (Or.inl ?_)⟩
        have hnot : ¬ ((s.slots p ⟨i, hi⟩).checkHash = true ∧
            (s.slots p ⟨i, hi⟩).cmd = .clear) := by
          rw [hshows.isClear]
          exact heven
        simp only [State.run, hpc, State.waitClear, dif_pos hi, if_neg hnot,
          if_pos (And.intro hcmd.1 hid)]
        exact ⟨_, rfl⟩
      · -- it has not cleared its slot, but all have called `alloc_pool`
        have hq := hwaits ⟨i, hi⟩
        have hminq := hmin ⟨i, hi⟩
        refine ⟨⟨i, hi⟩, ?_⟩
        cases hpcq : (s.pes ⟨i, hi⟩).pc <;> simp [hpcq, Pc.waits] at hq
        case allocating =>
          refine allocated_enabled hpcq fun q => ?_
          have := hmin q
          simp only [Pe.pos, hpcq] at heven hnext hle hlow
          omega
        all_goals
          exfalso
          simp only [Pe.pos, hpcq] at heven hnext hle hlow
          omega
  · refine ⟨p, Or.inr (Or.inl ?_)⟩
    simp only [State.run, hpc, State.waitClear, dif_neg hi]
    split <;> exact ⟨_, rfl⟩

theorem Inv.waitAlloc_enabled {i : ℕ} (hpc : (s.pes p).pc = .waitAlloc i)
    (hmin : ∀ q, (s.pes p).rounds ≤ (s.pes q).rounds) : ∃ q, Enabled s q := by
  by_cases hi : i < P
  · obtain ⟨hshows, hneed⟩ := h.up_to_date hputs hwaits p ⟨i, hi⟩
    have hle := h.rounds.pos_le p ⟨i, hi⟩
    have hlow : 2 * (s.pes p).rounds ≤ (s.pes ⟨i, hi⟩).pos := by
      refine le_trans ?_ hneed
      simp only [Pe.need, hpc]
      split <;> omega
    by_cases hodd : (s.pes ⟨i, hi⟩).pos % 2 = 1
    · refine ⟨p, Or.inr (Or.inl ?_)⟩
      simp only [State.run, hpc, State.waitAlloc, dif_pos hi, hshows.isAlloc.mpr hodd, if_true]
      exact ⟨_, rfl⟩
    · -- the PE has not begun the round
      have hq := hwaits ⟨i, hi⟩
      have hpos : (s.pes p).pos = 2 * (s.pes p).rounds + 1 := by simp only [Pe.pos, hpc]
      cases hpcq : (s.pes ⟨i, hi⟩).pc <;> simp [hpcq, Pc.waits] at hq
      case free =>
        refine ⟨⟨i, hi⟩, h.finds hputs hwaits hpcq (q := p) ?_⟩
        simp only [Pe.pos, hpcq] at hodd hlow hle
        omega
      case waitClear j b =>
        refine h.waitClear_enabled hputs hwaits hpcq fun q => ?_
        have := hmin q
        simp only [Pe.pos, hpcq] at hodd hlow hle
        omega
      case waitAlloc j =>
        simp only [Pe.pos, hpcq] at hodd
        omega
      case allocating =>
        have hok := h.rounds.counters ⟨i, hi⟩
        simp only [Pe.Ok, hpcq] at hok
        simp only [Pe.pos, hpcq] at hodd
        omega
  · refine ⟨p, Or.inr (Or.inl ?_)⟩
    simp only [State.run, hpc, State.waitAlloc, dif_neg hi]
    exact ⟨_, rfl⟩

end

theorem Inv.enabled (h : Inv s) (hputs : ∀ q p, s.puts q p = [])
    (hbusy : (s.pes p).pc ≠ .free) : ∃ q, Enabled s q := by
  by_cases hwaits : ∀ p, (s.pes p).pc.waits = true
  case neg =>
    obtain ⟨q, hq⟩ := not_forall.mp hwaits
    exact ⟨q, enabled_of_not_waits (by simpa using hq)⟩
  -- a PE that is furthest behind
  have : Nonempty (Fin P) := ⟨p⟩
  obtain ⟨m, hmin⟩ := Finite.exists_min fun q => (s.pes q).rounds
  have hm := hwaits m
  cases hpcm : (s.pes m).pc <;> simp [hpcm, Pc.waits] at hm
  case waitAlloc i => exact h.waitAlloc_enabled hputs hwaits hpcm hmin
  case allocating => exact ⟨m, allocated_enabled hpcm hmin⟩
  case waitClear i b => exact h.waitClear_enabled hputs hwaits hpcm hmin
  case free =>
    have hp := hwaits p
    have hbarrier := h.rounds.barrier p m
    have hminp := hmin p
    cases hpc : (s.pes p).pc <;> simp [hpc, Pc.waits] at hp hbusy hbarrier
    case waitAlloc i =>
      refine ⟨m, h.finds hputs hwaits hpcm (q := p) ?_⟩
      simp only [Pe.pos, hpc]
      omega
    case allocating =>
      by_cases heq : (s.pes p).rounds = (s.pes m).rounds
      · exact ⟨p, allocated_enabled hpc fun q => heq ▸ hmin q⟩
      · refine ⟨m, h.finds hputs hwaits hpcm (q := p) ?_⟩
        simp only [Pe.pos, hpc]
        omega
    case waitClear i b =>
      exact h.waitClear_enabled hputs hwaits hpc fun q => hbarrier.trans (hmin q)

/-! ## Every round ends -/

def total (last : ℕ) (s : State P) : ℕ := ∑ p, weight last s p

theorem total_lt {last : ℕ} (h : ∀ q, weight last s' q ≤ weight last s q)
    (hp : weight last s' p < weight last s p) : total last s' < total last s :=
  Finset.sum_lt_sum (fun q _ => h q) ⟨p, Finset.mem_univ p, hp⟩

theorem Frame.total_lt {last : ℕ} (h : Frame p s s') (hp : weight last s' p < weight last s p) :
    total last s' < total last s := by
  refine PoolAlloc.total_lt (p := p) (fun q => ?_) hp
  by_cases hq : q = p
  · subst hq
    exact hp.le
  · rw [h.weight_eq hq]

/-- A put never takes an `Alloc` away from a PE that looks for it. -/
theorem Inv.deliver_phase {c : CmdMsg} {rest : List CmdMsg} (h : Inv s)
    (hputs : s.puts q p = c :: rest) :
    phase (Function.update (s.slots p) q c) (s.pes p).pc ≤ phase (s.slots p) (s.pes p).pc := by
  cases hpc : (s.pes p).pc
  case scan i =>
    have hfinds : Finds (s.slots p) i → Finds (Function.update (s.slots p) q c) i := by
      rintro ⟨q', hq', halloc⟩
      refine ⟨q', hq', ?_⟩
      have hne : q' ≠ q := by
        rintro rfl
        obtain ⟨n, hsees, hle⟩ := h.boxes p q'
        simp only [Pe.need, hpc] at hle
        obtain ⟨-, hpos, -⟩ := h.alloc_seen hsees hle halloc
        have hsent := hsees.sent
        have hsent_le := (s.pes q').sent_le p
        rw [hputs, List.length_cons] at hsent
        split at hsent <;> omega
      rwa [Function.update_of_ne hne]
    simp only [phase]
    split
    · split <;> omega
    · rename_i hno
      rw [if_neg fun hold => hno (hfinds hold)]
  all_goals exact Nat.le_refl _

theorem Bounded.deliver {last : ℕ} {c : CmdMsg} {rest : List CmdMsg} (h : Bounded last s)
    (hputs : s.puts q p = c :: rest) :
    ∃ s', Next State.step SameSize s s' ∧ Bounded last s' ∧ total last s' < total last s := by
  have hpq : p ≠ q := by
    rintro rfl
    obtain ⟨n, hsees, -⟩ := h.inv.boxes p p
    have hown := Box.own hsees rfl
    simp [hputs] at hown
  have hstep : s.step (.deliver q p) = some { s.setSlot p q c with
      puts := Function.update s.puts q (Function.update (s.puts q) p rest) } := by
    simp [State.step, hputs]
  refine ⟨_, ⟨.deliver q p, trivial, hstep⟩, ⟨h.inv.deliver hputs, h.held, h.begun⟩, ?_⟩
  have hsum : ∑ x, (Function.update (s.puts q) p rest x).length < ∑ x, (s.puts q x).length := by
    refine Finset.sum_lt_sum (fun x _ => ?_) ⟨p, Finset.mem_univ p, ?_⟩
    · by_cases hx : x = p
      · subst hx
        simp [hputs]
      · rw [Function.update_of_ne hx]
    · simp [hputs]
  refine total_lt (p := q) (fun r => ?_) ?_
  · by_cases hr : r = p
    · subst hr
      have hphase := h.inv.deliver_phase hputs
      simp only [weight, State.setSlot, Function.update_self, Function.update_of_ne hpq]
      omega
    · by_cases hrq : r = q
      · subst hrq
        simp only [weight, State.setSlot, Function.update_self, Function.update_of_ne hr]
        omega
      · simp only [weight, State.setSlot, Function.update_of_ne hr, Function.update_of_ne hrq]
        exact Nat.le_refl _
  · simp only [weight, State.setSlot, Function.update_self, Function.update_of_ne hpq.symm]
    omega

theorem Bounded.enabled {last : ℕ} (h : Bounded last s) (hen : Enabled s p) :
    ∃ s', Next State.step SameSize s s' ∧ Bounded last s' ∧ total last s' < total last s := by
  rcases hen with ⟨k, hpc⟩ | ⟨s', hrun⟩ | ⟨hpc, hfinds⟩
  · -- the heap has room for the request
    obtain ⟨m, c, hk⟩ := h.held p k (by simp [Pe.holder, hpc])
    have hstep : s.step (.room k true) = some ((s.goto p .free).setRequest k .returned) := by
      simp [State.step, State.room, hk, hpc]
    have hok : SameSize s (.room k true) := trivial
    refine ⟨_, ⟨_, hok, hstep⟩, ⟨h.inv.step hok hstep, h.held.step hstep, ?_⟩, ?_⟩
    · have hbegun := h.begun p
      simp only [Pe.begun, hpc] at hbegun
      exact h.goto hbegun
    · have hframe : Frame p s ((s.goto p .free).setRequest k .returned) :=
        Frame.trans Frame.setPe fun _ _ => ⟨rfl, rfl, rfl⟩
      refine hframe.total_lt ?_
      have hlt : weight last (s.goto p .free) p < weight last s p := by
        refine weight_setPe rfl ?_
        simp only [phase, hpc]
        omega
      exact hlt
  · obtain ⟨hframe, hlt⟩ := run_weight (h.begun p) hrun
    exact ⟨s', ⟨.run p, trivial, hrun⟩, h.run hrun, hframe.total_lt hlt⟩
  · have hstep : s.step (.checkAlloc p) = some (s.goto p (.scan 0)) := by
      simp [State.step, hpc]
    have hok : SameSize s (.checkAlloc p) := trivial
    refine ⟨_, ⟨_, hok, hstep⟩, ⟨h.inv.step hok hstep, h.held.step hstep, ?_⟩, ?_⟩
    · have hbegun := h.begun p
      simp only [Pe.begun, hpc] at hbegun
      exact h.goto hbegun
    · refine Frame.setPe.total_lt (weight_setPe rfl ?_)
      simp only [phase, hpc, if_pos hfinds]
      omega

theorem Bounded.progress {last : ℕ} (h : Bounded last s)
    (hbusy : ¬ ∀ p, (s.pes p).pc = .free) :
    ∃ s', Next State.step SameSize s s' ∧ Bounded last s' ∧ total last s' < total last s := by
  obtain ⟨p, hp⟩ := not_forall.mp hbusy
  by_cases hputs : ∀ q p, s.puts q p = []
  · obtain ⟨q, hq⟩ := h.inv.enabled hputs hp
    exact h.enabled hq
  · simp only [not_forall] at hputs
    obtain ⟨q, p, hne⟩ := hputs
    obtain ⟨c, rest, hcons⟩ := List.exists_cons_of_ne_nil hne
    exact h.deliver hcons

theorem Inv.ends (h : Inv s) (hheld : Held s.pes s.requests) :
    ∃ s', Relation.ReflTransGen (Next State.step SameSize) s s' ∧ ∀ p, (s'.pes p).pc = .free := by
  have hbounded : Bounded (Finset.univ.sup fun p => (s.pes p).begun) s :=
    ⟨h, hheld, fun p => Finset.le_sup (f := fun p => (s.pes p).begun) (Finset.mem_univ p)⟩
  exact Transition.exists_goal_of_progress (total _) (fun s hs hnot => hs.progress hnot) hbounded

/-! ## Agreement -/

structure State.Agrees (ok : State P → Action P → Prop) (s : State P) : Prop where
  /-- In each round all PEs call `alloc_pool` with the same size. -/
  sizes : ∀ (p q : Fin P) (r : ℕ) (m m' : UInt64), (s.pes p).calls[r]? = some m →
    (s.pes q).calls[r]? = some m' → m = m'
  /-- No PE is more than a round ahead. -/
  ahead : ∀ p q, (s.pes p).calls.length ≤ (s.pes q).calls.length + 1
  /-- When no `send_alloc_inner` runs, all PEs have made the same calls. -/
  calls : (∀ p, (s.pes p).pc.running = false) → ∀ p q, (s.pes p).calls = (s.pes q).calls
  /-- Some continuation lets every `send_alloc_inner` return. -/
  ends : ∃ s', Relation.ReflTransGen (Next State.step ok) s s' ∧
    ∀ p, (s'.pes p).pc.running = false

theorem Inv.agrees (h : Inv s) (hheld : Held s.pes s.requests) : s.Agrees SameSize where
  sizes := by
    have hside : ∀ (p q : Fin P) (r : ℕ) (m m' : UInt64), (s.pes p).rounds ≤ (s.pes q).rounds →
        (s.pes p).calls[r]? = some m → (s.pes q).calls[r]? = some m' → m = m' := by
      intro p q r m m' hle hm hm'
      obtain ⟨rest, hrest⟩ := h.rounds.calls p q hle
      rw [← hrest, Roster.append_old hm] at hm'
      exact Option.some.inj hm'
    intro p q r m m' hm hm'
    rcases Nat.le_total (s.pes p).rounds (s.pes q).rounds with hle | hle
    · exact hside p q r m m' hle hm hm'
    · exact (hside q p r m' m hle hm' hm).symm
  ahead := by
    intro p q
    have hbarrier := h.rounds.barrier p q
    simp only [Pe.rounds] at hbarrier
    split at hbarrier <;> omega
  calls := by
    intro hidle p q
    have hle : ∀ p q, (s.pes p).rounds ≤ (s.pes q).rounds := by
      intro p q
      have hbarrier := h.rounds.barrier p q
      have hp := hidle p
      split at hbarrier
      · simp [*, Pc.running] at hp
      · exact hbarrier
    refine (h.rounds.calls p q (hle p q)).eq_of_length ?_
    exact Nat.le_antisymm (hle p q) (hle q p)
  ends := by
    obtain ⟨s', hsteps, hfree⟩ := h.ends hheld
    refine ⟨s', hsteps, fun p => ?_⟩
    rw [hfree p]
    rfl

instance (s : State P) : (a : Action P) → Decidable (SameSize s a)
  | .room k false => inferInstanceAs (Decidable (∀ r ∈ s.requests[k]?, s.Starts r →
    (∀ q, (s.pes q).pc.running = true → (s.pes q).minSize = r.minSize) ∧
      (s.pes r.pe).calls.length < 2 ^ 64))
  | .room _ true | .sendAlloc .. | .count .. | .lock .. | .checkAlloc .. | .run ..
  | .deliver .. => isTrue trivial

/-- In every run in which a request starts a round only with the size of all that run. -/
theorem pools_agree (P : ℕ) (s : State P) (hs : Reach Initial State.step SameSize s) :
    s.Agrees SameSize := by
  have hinv : Inv s ∧ Held s.pes s.requests := by
    refine Reach.invariant (I := fun s => Inv s ∧ Held s.pes s.requests) ?_ ?_ hs
    · rintro s rfl
      exact ⟨.new, by simp [Held, State.new, Pe.holder]⟩
    · rintro s a s' ⟨hinv, hheld⟩ hok hstep
      exact ⟨hinv.step hok hstep, hheld.step hstep⟩
  exact hinv.1.agrees hinv.2

/-! ## Two PEs -/

/-- A request of PE `p` that finds no room. -/
def request (k : ℕ) (p : Fin 2) (minSize : UInt64) : List (Action 2) :=
  [.sendAlloc p minSize, .count k, .lock k, .room k false]

/-- Both PEs put `Alloc`, see each other and call `alloc_pool`. -/
def callBoth : List (Action 2) :=
  List.replicate 4 (.run 0) ++ List.replicate 4 (.run 1) ++ [.deliver 0 1, .deliver 1 0] ++
    List.replicate 4 (.run 0) ++ List.replicate 4 (.run 1)

/-- PE 1 joins the round of PE 0. -/
theorem pools_agree_joined :
    ∃ s : State 2, Transition.run (Transition.guarded State.step SameSize) .new
        (request 0 0 100 ++ List.replicate 4 (.run 0) ++ [.deliver 0 1, .checkAlloc 1, .run 1] ++
          List.replicate 4 (.run 1) ++ [.deliver 1 0] ++ List.replicate 4 (.run 0) ++
          List.replicate 4 (.run 1)) = some s ∧
      (s.pes 0).calls = [100] ∧ (s.pes 1).calls = [100] ∧ s.Agrees SameSize := by
  have hrun : (Transition.run (Transition.guarded State.step SameSize) .new
        (request 0 0 100 ++ List.replicate 4 (.run 0) ++ [.deliver 0 1, .checkAlloc 1, .run 1] ++
          List.replicate 4 (.run 1) ++ [.deliver 1 0] ++ List.replicate 4 (.run 0) ++
          List.replicate 4 (.run 1))).map (fun s => ((s.pes 0).calls, (s.pes 1).calls)) =
      some ([100], [100]) := by
    decide +kernel
  obtain ⟨s, hs, hcalls⟩ := Option.map_eq_some_iff.mp hrun
  obtain ⟨hzero, hone⟩ := Prod.mk.inj hcalls
  exact ⟨s, hs, hzero, hone, pools_agree 2 s (Reach.run_guarded (.init rfl) hs)⟩

/-- Two requests of different sizes start one round. -/
theorem pools_differ :
    ¬ ∀ (P : ℕ) (s : State P), Reach Initial State.step (fun _ _ => True) s →
      s.Agrees fun _ _ => True := by
  intro h
  have hrun : (Transition.run State.step (.new : State 2)
      (request 0 0 100 ++ request 1 1 200 ++ callBoth)).map
      (fun s => ((s.pes 0).calls, (s.pes 1).calls)) = some ([100], [200]) := by
    decide +kernel
  obtain ⟨s, hs, hcalls⟩ := Option.map_eq_some_iff.mp hrun
  obtain ⟨hzero, hone⟩ := Prod.mk.inj hcalls
  have hsizes := (h 2 s (Reach.run (.init rfl) hs)).sizes 0 1 0 100 200 (by rw [hzero]; rfl)
    (by rw [hone]; rfl)
  exact absurd hsizes (by decide)

end Lamellar.PoolAlloc
