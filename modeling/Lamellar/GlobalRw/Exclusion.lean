import Lamellar.GlobalRw.Invariant

/-!
# Mutual exclusion

A call holds the lock from the return of its lock until its unlock has taken effect, which
includes the life of all its guards.
-/

namespace Lamellar.GlobalRw

variable {P : ℕ}

namespace Call

def Holds (c : Call P) : Prop :=
  0 < c.guards ∨ c.pc = .held ∨ c.pc = .readSub ∨ c.pc = .writerRelease ∨
    c.pc = .collectiveCheck ∨ c.pc = .collectiveAdd

def ReadHolder (c : Call P) : Prop := c.lockType = .read ∧ c.Holds

def WriteHolder (c : Call P) : Prop := c.lockType = .write ∧ c.Holds

def CollectiveHolder (c : Call P) : Prop :=
  c.lockType ≠ .read ∧ c.lockType ≠ .write ∧ c.Holds

instance : DecidablePred (Holds (P := P)) := fun _ => inferInstanceAs (Decidable (_ ∨ _))
instance : DecidablePred (WriteHolder (P := P)) := fun _ => inferInstanceAs (Decidable (_ ∧ _))

/-- Where a holder stands. -/
theorem Typed.holds_pc {c : Call P} (hc : c.Typed) (h : c.Holds) :
    c.pc = .held ∨ c.lockType = .read ∧ c.pc = .readSub ∨
      c.lockType = .write ∧ c.pc = .writerRelease ∨
      c.lockType ≠ .read ∧ c.lockType ≠ .write ∧
        (c.pc = .collectiveCheck ∨ c.pc = .collectiveAdd) := by
  rcases h with hg | hpc | hpc | hpc | hpc | hpc
  · exact Or.inl (hc.held_of_guards hg)
  · exact Or.inl hpc
  · simp only [Typed, hpc] at hc
    exact Or.inr (Or.inl ⟨hc.1, hpc⟩)
  · simp only [Typed, hpc] at hc
    exact Or.inr (Or.inr (Or.inl ⟨hc.1, hpc⟩))
  · simp only [Typed, hpc] at hc
    obtain ⟨⟨k, hk⟩, _⟩ := hc
    exact Or.inr (Or.inr (Or.inr ⟨by simp [hk], by simp [hk], Or.inl hpc⟩))
  · simp only [Typed, hpc] at hc
    obtain ⟨⟨k, hk⟩, _⟩ := hc
    exact Or.inr (Or.inr (Or.inr ⟨by simp [hk], by simp [hk], Or.inr hpc⟩))

theorem ReadHolder.reads {c : Call P} (h : c.ReadHolder) (hc : c.Typed) : c.Reads := by
  have hpc := hc.holds_pc h.2
  simp only [h.1] at hpc
  exact ⟨h.1, by tauto⟩

theorem WriteHolder.owns {c : Call P} (h : c.WriteHolder) (hc : c.Typed) :
    c.Owns ∧ c.PastReaders := by
  have hpc := hc.holds_pc h.2
  have hread : c.lockType ≠ .read := by simp [h.1]
  simp only [h.1] at hpc
  exact ⟨⟨hread, Or.inl h.1, by tauto⟩, hread, by tauto⟩

theorem CollectiveHolder.inside {c : Call P} (h : c.CollectiveHolder) (hc : c.Typed) :
    c.Inside ∧ c.PastReaders := by
  obtain ⟨hread, hwrite, hholds⟩ := h
  have hpc := hc.holds_pc hholds
  exact ⟨⟨hread, hwrite, by tauto⟩, hread, by tauto⟩

end Call

/-- In every reachable state: readers and writers exclude each other, there is at most one
write holder, and none beside a collective one; `readers` is not zero when it is decremented,
and no call panics. -/
theorem lock_exclusive (P : ℕ) (s : State P) (hs : Reachable s) :
    (∀ r ∈ s.calls, r.ReadHolder →
      ∀ w ∈ s.calls, ¬ w.WriteHolder ∧ ¬ w.CollectiveHolder) ∧
    s.calls.countP Call.WriteHolder ≤ 1 ∧
    (∀ w ∈ s.calls, w.WriteHolder → ∀ c ∈ s.calls, ¬ c.CollectiveHolder) ∧
    (∀ c ∈ s.calls, c.pc = .readBack ∨ c.pc = .readSub → 0 < s.lock.readers) ∧
    ∀ c ∈ s.calls, c.pc ≠ .panicked := by
  have h := reachable_inv hs
  refine ⟨fun r hr hread w hw => ⟨fun hwrite => ?_, fun hcoll => ?_⟩, ?_, ?_, ?_, h.calm⟩
  · have hpast := (hwrite.owns (h.typed w hw)).2
    exact h.excluded w hw hpast r hr (hread.reads (h.typed r hr))
  · have hpast := (hcoll.inside (h.typed w hw)).2
    exact h.excluded w hw hpast r hr (hread.reads (h.typed r hr))
  · calc s.calls.countP Call.WriteHolder
        ≤ s.calls.countP Call.Owns := by
          simp only [Multiset.countP_eq_card_filter]
          refine Multiset.card_le_card (Multiset.le_filter.mpr ⟨Multiset.filter_le _ _, ?_⟩)
          intro w hw
          rw [Multiset.mem_filter] at hw
          exact (hw.2.owns (h.typed w hw.1)).1
      _ = if s.lock.writer = P then 0 else 1 := h.owner
      _ ≤ 1 := by split <;> omega
  · intro w hw hwrite c hc hcoll
    have hid := h.ownerId w hw (hwrite.owns (h.typed w hw)).1
    have hin := (hcoll.inside (h.typed c hc)).1
    have hkind := Inv.collective_of_id (Or.inl hin) ((h.inside c hc hin).symm.trans hid)
    have hlow := Inv.id_lt hwrite.1
    have hhigh := (h.fresh c hc _ hkind).1
    omega
  · intro c hc hpc
    have htyped := h.typed c hc
    have hcounted : c.Counted := by
      rcases hpc with hpc | hpc
      all_goals
        simp only [Call.Typed, hpc] at htyped
        simp [Call.Counted, hpc, htyped.1]
    rw [h.readers]
    exact Multiset.countP_pos.mpr ⟨c, hc, hcounted⟩

/-- PE 1 reads with two guards while PE 0 has the writer word and waits. -/
theorem lock_exclusive_reader_and_writer :
    ∃ s : State 2, Transition.run State.step State.new
        [.read 1, .run ⟨1, .read, .readWait, 0, 0⟩, .run ⟨1, .read, .readAdd, 0, 0⟩,
          .run ⟨1, .read, .readCheck, 0, 0⟩, .cloneGuard ⟨1, .read, .held, 1, 1⟩, .write 0,
          .run ⟨0, .write, .writerSwap, 0, 0⟩] = some s ∧
      ⟨1, .read, .held, 2, 2⟩ ∈ s.calls ∧ ∀ w ∈ s.calls, ¬ w.WriteHolder := by
  have hrun : (Transition.run State.step (State.new : State 2)
        [.read 1, .run ⟨1, .read, .readWait, 0, 0⟩, .run ⟨1, .read, .readAdd, 0, 0⟩,
          .run ⟨1, .read, .readCheck, 0, 0⟩, .cloneGuard ⟨1, .read, .held, 1, 1⟩, .write 0,
          .run ⟨0, .write, .writerSwap, 0, 0⟩]).map
      (fun s => decide (⟨1, .read, .held, 2, 2⟩ ∈ s.calls)) = some true := by
    decide +kernel
  obtain ⟨s, hs, hmem⟩ := Option.map_eq_some_iff.mp hrun
  have hread : (⟨1, .read, .held, 2, 2⟩ : Call 2) ∈ s.calls := of_decide_eq_true hmem
  have hreach : Reachable s := Transition.Reach.run (.init rfl) hs
  exact ⟨s, hs, hread, fun w hw =>
    ((lock_exclusive 2 s hreach).1 _ hread ⟨rfl, Or.inr (Or.inl rfl)⟩ w hw).1⟩

end Lamellar.GlobalRw
