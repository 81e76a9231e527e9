import Lamellar.Barrier.Model
import Lamellar.Lib.Ring
import Mathlib.Data.Int.ModEq
import Mathlib.Data.Multiset.Basic
import Mathlib.Tactic.Push
import Mathlib.Tactic.Ring

/-!
# Nobody leaves a barrier early

What a PE knows at the head of round `r` of its barrier `id` is that the `(n + 1) ^ r` PEs
behind it, itself included, have entered their barrier `id`. The id it puts carries this
knowledge `i * (n + 1) ^ r` places on; a slot that holds at least `id` carries it for a later
barrier, which its PEs entered after the barrier `id`. At the end of the round, the `n + 1`
windows that a PE knows of are next to each other.
-/

namespace Lamellar.Barrier

open Lamellar.Ring

variable {P : ℕ} {n R : ℕ} {s s' : State P}

/-- PE `x` has entered its barrier `id`. -/
def HasEntered (s : State P) (id : ℕ) (x : Fin P) : Prop := id < s.barrierCnt x

/-- What a call knows where it stands. -/
def Knows (n R : ℕ) (s : State P) (p : Fin P) (id : ℕ) : Pc → Prop
  | .head r => r ≤ R ∧ Window (HasEntered s id) p 0 ((n + 1) ^ r)
  | .send r _ => r < R ∧ Window (HasEntered s id) p 0 ((n + 1) ^ r)
  | .wait r i => r < R ∧ 0 < i ∧
    ∀ j, j < i → Window (HasEntered s id) p (j * (n + 1) ^ r) ((n + 1) ^ r)
  | .returned => Window (HasEntered s id) p 0 ((n + 1) ^ R)

/-- A word in the slot of `q` for the PE `i` strides behind it. -/
def SlotKnows (n : ℕ) (s : State P) (q : Fin P) (i r id : ℕ) : Prop :=
  Window (HasEntered s id) q (i * (n + 1) ^ r) ((n + 1) ^ r)

structure Inv (n R : ℕ) (s : State P) : Prop where
  counter : ∀ p, 0 < s.barrierCnt p
  ids : ∀ p id pc, s.calls p id = some pc → 0 < id
  calls : ∀ p id pc, s.calls p id = some pc → Knows n R s p id pc
  made : ∀ p id, 0 < id → id < s.barrierCnt p → s.calls p id ≠ none
  slots : ∀ q i r, SlotKnows n s q i r (s.barrierBuf q i r)
  puts : ∀ m ∈ s.puts, SlotKnows n s m.dst m.i m.round m.id

theorem inv_new : Inv n R (State.new : State P) where
  counter := fun _ => Nat.one_pos
  ids := by simp [State.new]
  calls := by simp [State.new]
  made := by
    intro p id hpos hlt
    simp only [State.new] at hlt
    omega
  slots := by
    intro q i r x d _ _
    simp [HasEntered, State.new]
  puts := by simp [State.new]

/-! ## Knowledge stays -/

theorem Knows.mono {p : Fin P} {id : ℕ} {pc : Pc} (h : Knows n R s p id pc)
    (hcnt : ∀ x, s.barrierCnt x ≤ s'.barrierCnt x) : Knows n R s' p id pc := by
  have himp : ∀ x, HasEntered s id x → HasEntered s' id x :=
    fun x hx => lt_of_lt_of_le hx (hcnt x)
  cases pc with
  | head r => exact ⟨h.1, h.2.mono himp⟩
  | send r i => exact ⟨h.1, h.2.mono himp⟩
  | wait r i => exact ⟨h.1, h.2.1, fun j hj => (h.2.2 j hj).mono himp⟩
  | returned => exact Window.mono h himp

theorem SlotKnows.mono {q : Fin P} {i r id : ℕ} (h : SlotKnows n s q i r id)
    (hcnt : ∀ x, s.barrierCnt x ≤ s'.barrierCnt x) : SlotKnows n s' q i r id :=
  Window.mono h fun x hx => lt_of_lt_of_le hx (hcnt x)

/-- A later barrier tells of an earlier one. -/
theorem SlotKnows.earlier {q : Fin P} {i r id id' : ℕ} (h : SlotKnows n s q i r id')
    (hid : id ≤ id') : SlotKnows n s q i r id :=
  Window.mono h fun _ hx => lt_of_le_of_lt hid hx

/-! ## One step of a call -/

theorem Inv.setCall {p : Fin P} {id : ℕ} {pc : Pc} (h : Inv n R s) (hid : 0 < id)
    (hpc : Knows n R s p id pc) : Inv n R (s.setCall p id pc) where
  counter := h.counter
  ids := by
    intro p' id' pc' hcall
    have hids := h.ids p' id'
    simp only [State.setCall, Function.update_apply] at hcall
    grind
  calls := by
    intro p' id' pc' hcall
    by_cases hp : p' = p ∧ id' = id
    · obtain ⟨rfl, rfl⟩ := hp
      obtain rfl : pc = pc' := by simpa [State.setCall] using hcall
      exact hpc.mono fun x => le_rfl
    · have hcall' : s.calls p' id' = some pc' := by
        rw [← hcall]
        simp only [State.setCall, Function.update_apply]
        grind
      exact (h.calls p' id' pc' hcall').mono fun x => le_rfl
  made := by
    intro p' id' hpos hlt
    have hmade := h.made p' id' hpos hlt
    simp only [State.setCall, Function.update_apply]
    grind
  slots := fun q i r => (h.slots q i r).mono fun x => le_rfl
  puts := fun m hm => (h.puts m hm).mono fun x => le_rfl

theorem Inv.put {m : Put P} (h : Inv n R s)
    (hm : SlotKnows n s m.dst m.i m.round m.id) : Inv n R (s.put m) where
  counter := h.counter
  ids := h.ids
  calls := fun p id pc hcall => (h.calls p id pc hcall).mono fun x => le_rfl
  made := h.made
  slots := fun q i r => (h.slots q i r).mono fun x => le_rfl
  puts := by
    intro m' hm'
    rcases Multiset.mem_cons.mp hm' with rfl | hm'
    · exact hm.mono fun x => le_rfl
    · exact (h.puts m' hm').mono fun x => le_rfl

/-- The PE that sits `i` strides behind `p` is `p` itself. -/
theorem add_mod_of_recvPe_eq {p : Fin P} {r i : ℕ} (h : recvPe n p r i = p.val) :
    (p.val + i * (n + 1) ^ r) % P = p.val := by
  have hmod : ((p.val : ℤ) - i * ((n : ℤ) + 1) ^ r) ≡ p.val [ZMOD P] := by
    have hp : (p.val : ℤ) % P = p.val :=
      Int.emod_eq_of_lt (Int.natCast_nonneg _) (by exact_mod_cast p.isLt)
    rw [Int.ModEq, hp]
    exact h
  have hadd : (p.val : ℤ) ≡ p.val + i * ((n : ℤ) + 1) ^ r [ZMOD P] := by
    simpa using hmod.add_right (i * ((n : ℤ) + 1) ^ r)
  have hnat : p.val + i * (n + 1) ^ r ≡ p.val [MOD P] := by
    rw [← Int.natCast_modEq_iff]
    push_cast
    exact hadd.symm
  rw [hnat, Nat.mod_eq_of_lt p.isLt]

/-- What a wait that ends tells about the PEs `i` strides behind. -/
theorem window_of_wait {p : Fin P} {id r i : ℕ} (h : Inv n R s)
    (hself : Window (HasEntered s id) p 0 ((n + 1) ^ r))
    (hgo : ¬ (recvPe n p r i ≠ p.val ∧ s.barrierBuf p i r < id)) :
    Window (HasEntered s id) p (i * (n + 1) ^ r) ((n + 1) ^ r) := by
  by_cases hpe : recvPe n p r i = p.val
  · exact hself.shift (add_mod_of_recvPe_eq hpe)
  · have hslot : id ≤ s.barrierBuf p i r := by
      by_contra hlt
      exact hgo ⟨hpe, by omega⟩
    exact (h.slots p i r).earlier hslot

theorem Inv.runCall {p : Fin P} {id : ℕ} {pc : Pc} (h : Inv n R s)
    (hcall : s.calls p id = some pc) (hstep : s.runCall n R p id pc = some s') :
    Inv n R s' := by
  have hid := h.ids p id pc hcall
  have hknows := h.calls p id pc hcall
  cases pc with
  | head r =>
    obtain ⟨hr, hwin⟩ := hknows
    simp only [State.runCall] at hstep
    split at hstep
    · cases hstep
      exact h.setCall hid ⟨‹_›, hwin⟩
    · cases hstep
      obtain rfl : r = R := by omega
      exact h.setCall hid hwin
  | send r i =>
    obtain ⟨hr, hwin⟩ := hknows
    simp only [State.runCall] at hstep
    split at hstep
    · cases hstep
      split
      · have hput : SlotKnows n s (sendPe n p r i) i r id := Window.shift hwin rfl
        exact (h.put hput).setCall hid ⟨hr, hwin⟩
      · exact h.setCall hid ⟨hr, hwin⟩
    · cases hstep
      refine h.setCall hid ⟨hr, Nat.one_pos, fun j hj => ?_⟩
      obtain rfl : j = 0 := by omega
      simpa using hwin
  | wait r i =>
    obtain ⟨hr, hi, hwin⟩ := hknows
    have hself : Window (HasEntered s id) p 0 ((n + 1) ^ r) := by
      simpa using hwin 0 hi
    simp only [State.runCall] at hstep
    split at hstep
    · split at hstep
      · cases hstep
      · cases hstep
        refine h.setCall hid ⟨hr, i.succ_pos, fun j hj => ?_⟩
        by_cases hji : j < i
        · exact hwin j hji
        · obtain rfl : j = i := by omega
          exact window_of_wait h hself ‹_›
    · cases hstep
      refine h.setCall hid ⟨hr, ?_⟩
      rw [pow_succ, Nat.mul_comm]
      exact Window.join fun j hj => hwin j (by omega)
  | returned => cases hstep

/-! ## The other steps -/

theorem Inv.fetchAdd {p : Fin P} (h : Inv n R s) : Inv n R (s.fetchAdd p) := by
  have hcnt : ∀ x, s.barrierCnt x ≤ (s.fetchAdd p).barrierCnt x := by
    intro x
    simp only [State.fetchAdd, Function.update_apply]
    split
    · rename_i hx
      rw [hx]
      omega
    · exact le_rfl
  have hself : HasEntered (s.fetchAdd p) (s.barrierCnt p) p := by
    simp [HasEntered, State.fetchAdd]
  constructor
  case counter => exact fun x => (h.counter x).trans_le (hcnt x)
  case ids =>
    intro p' id pc hcall
    have hids := h.ids p' id
    have hpos := h.counter p
    simp only [State.fetchAdd, State.setCall, Function.update_apply] at hcall
    grind
  case calls =>
    intro p' id pc hcall
    by_cases hp : p' = p ∧ id = s.barrierCnt p
    · obtain ⟨rfl, rfl⟩ := hp
      obtain rfl : Pc.head 0 = pc := by
        simpa [State.fetchAdd, State.setCall] using hcall
      exact ⟨Nat.zero_le _, by simpa using Window.single hself⟩
    · have hcall' : s.calls p' id = some pc := by
        rw [← hcall]
        simp only [State.fetchAdd, State.setCall, Function.update_apply]
        grind
      exact (h.calls p' id pc hcall').mono hcnt
  case made =>
    intro p' id hpos hlt
    have hmade := h.made p' id hpos
    simp only [State.fetchAdd, State.setCall, Function.update_apply] at hlt ⊢
    grind
  case slots => exact fun q i r => (h.slots q i r).mono hcnt
  case puts => exact fun m hm => (h.puts m hm).mono hcnt

theorem Inv.delivered {m : Put P} (h : Inv n R s) (hm : m ∈ s.puts) :
    Inv n R (s.delivered m) where
  counter := h.counter
  ids := h.ids
  calls := fun p id pc hcall => (h.calls p id pc hcall).mono fun x => le_rfl
  made := h.made
  slots := by
    intro q i r
    by_cases hslot : q = m.dst ∧ i = m.i ∧ r = m.round
    · obtain ⟨rfl, rfl, rfl⟩ := hslot
      have hbuf : (s.delivered m).barrierBuf m.dst m.i m.round = m.id := by
        simp [State.delivered]
      rw [hbuf]
      exact (h.puts m hm).mono fun x => le_rfl
    · have hbuf : (s.delivered m).barrierBuf q i r = s.barrierBuf q i r := by
        by_cases hq : q = m.dst
        · subst hq
          by_cases hi : i = m.i
          · subst hi
            have hr : r ≠ m.round := fun hr => hslot ⟨rfl, rfl, hr⟩
            simp [State.delivered, hr]
          · simp [State.delivered, hi]
        · simp [State.delivered, hq]
      rw [hbuf]
      exact (h.slots q i r).mono fun x => le_rfl
  puts := fun m' hm' => (h.puts m' (Multiset.mem_of_mem_erase hm')).mono fun x => le_rfl

/-- Only the counters, the slots, the calls and the puts matter. -/
theorem Inv.congr (h : Inv n R s) (hcnt : s'.barrierCnt = s.barrierCnt)
    (hbuf : s'.barrierBuf = s.barrierBuf) (hcalls : s'.calls = s.calls)
    (hputs : s'.puts = s.puts) : Inv n R s' where
  counter := fun p => hcnt ▸ h.counter p
  ids := fun p id pc hcall => h.ids p id pc (hcalls ▸ hcall)
  calls := fun p id pc hcall =>
    (h.calls p id pc (hcalls ▸ hcall)).mono fun x => (congrFun hcnt x).ge
  made := fun p id hpos hlt => hcalls ▸ h.made p id hpos (hcnt ▸ hlt)
  slots := fun q i r => hbuf ▸ (h.slots q i r).mono fun x => (congrFun hcnt x).ge
  puts := fun m hm => (h.puts m (hputs ▸ hm)).mono fun x => (congrFun hcnt x).ge

theorem Inv.step {a : Action P} (h : Inv n R s) (hstep : s.step n R a = some s') :
    Inv n R s' := by
  cases a with
  | enter p =>
    cases hstep
    unfold State.enter
    split
    · exact h
    · exact h.congr rfl rfl rfl rfl
  | fetchAdd p =>
    simp only [State.step] at hstep
    split at hstep
    · cases hstep
      exact h.fetchAdd
    · cases hstep
  | run p id =>
    simp only [State.step] at hstep
    split at hstep
    · exact h.runCall ‹_› hstep
    · cases hstep
  | deliver m =>
    simp only [State.step] at hstep
    split at hstep
    · cases hstep
      exact h.delivered ‹_›
    · cases hstep
  | panic p =>
    cases hstep
    exact h.congr rfl rfl rfl rfl

theorem Reachable.inv (hs : Reachable n R s) : Inv n R s :=
  Transition.Reach.invariant (fun _ h => h ▸ inv_new) (fun _ _ _ h _ hstep => h.step hstep) hs

/-! ## Safety -/

/-- If the rounds cover the team, no PE returns from its barrier `k` before every PE has
entered its own barrier `k`. -/
theorem returned_all_entered (P n R : ℕ) (hR : P ≤ (n + 1) ^ R) (s : State P)
    (hs : Reachable n R s) (p : Fin P) (k : ℕ) (hret : s.calls p k = some .returned)
    (q : Fin P) : s.calls q k ≠ none := by
  have hwin : Window (HasEntered s k) p 0 ((n + 1) ^ R) := hs.inv.calls p k _ hret
  exact hs.inv.made q k (hs.inv.ids p k _ hret) (hwin.all hR q)

/-- Two PEs meet in their first barrier, PE 0 returns. -/
theorem returned_all_entered_two :
    ∃ s : State 2, Transition.run (State.step 1 1) State.new
        ([.enter 0, .enter 1, .fetchAdd 0, .fetchAdd 1] ++ List.replicate 3 (.run 0 1) ++
          List.replicate 3 (.run 1 1) ++ [.deliver ⟨0, 1, 0, 1⟩] ++
          List.replicate 3 (.run 0 1)) = some s ∧
      s.calls 0 1 = some .returned ∧ ∀ q, s.calls q 1 ≠ none := by
  have hrun : (Transition.run (State.step 1 1) (State.new : State 2)
        ([.enter 0, .enter 1, .fetchAdd 0, .fetchAdd 1] ++ List.replicate 3 (.run 0 1) ++
          List.replicate 3 (.run 1 1) ++ [.deliver ⟨0, 1, 0, 1⟩] ++
          List.replicate 3 (.run 0 1))).map
      (fun s => s.calls 0 1) = some (some .returned) := by
    decide +kernel
  obtain ⟨s, hs, hret⟩ := Option.map_eq_some_iff.mp hrun
  have hreach : Reachable 1 1 s := Transition.Reach.run (.init rfl) hs
  exact ⟨s, hs, hret, returned_all_entered 2 1 1 (by decide) s hreach 0 1 hret⟩

end Lamellar.Barrier
