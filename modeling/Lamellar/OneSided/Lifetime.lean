import Lamellar.OneSided.Steps

/-!
# The lifetime of a one-sided region

A live entry has a live parent, since the parent waits for what it has sent; so the entry that
has allocated the region is live as long as any entry of the region is, and as long as any of
its messages is in flight.
-/

namespace Lamellar.OneSided

variable {P : ℕ} {s : State P} {i : ℕ} {e : MemRegionHandleInner P}

/-- Up the tree: the entry that has allocated the region of a live entry is live. -/
theorem Inv.root_live (h : Inv s) (hi : s.entries[i]? = some e) (hlive : s.Live i e.toIds) :
    ∃ (j : ℕ) (r : MemRegionHandleInner P), s.entries[j]? = some r ∧ r.myId = e.region ∧
      s.Live j r.toIds := by
  induction i using Nat.strongRecOn generalizing e with
  | _ i ih =>
    rcases h.shape.origin (State.ids_eq_some hi) with hroot | hother
    · exact ⟨i, e, hi, hroot.2.symm, hlive⟩
    · by_cases hroot : e.myId = e.parentId
      · obtain ⟨j, a, hlt, hj, hchild⟩ := hother
        obtain ⟨p, hp, rfl⟩ := State.of_ids_eq_some hj
        have := h.myId_inj hi hp (hroot.trans hchild.1)
        omega
      · obtain ⟨j, p, hlt, hj, hchild, hne⟩ := h.parent hi hroot
        have hplive := h.live_of_child hi hj hchild hne ((h.ok hi).child hlive hroot)
        obtain ⟨k, r, hk, hid, hklive⟩ := ih j hlt hj hplive
        exact ⟨k, r, hk, hid.trans hchild.2.2.symm, hklive⟩

/-- The sender of a message in flight is live. -/
theorem Inv.sender_live (h : Inv s) {m : NetMemRegionHandle P} (hm : m ∈ s.inFlight) :
    ∃ (j : ℕ) (p : MemRegionHandleInner P), s.entries[j]? = some p ∧ m.region = p.region ∧
      s.Live j p.toIds := by
  obtain ⟨j, a, hj, hnet, -⟩ := h.shape.message m hm
  obtain ⟨p, hp, rfl⟩ := State.of_ids_eq_some hj
  refine ⟨j, p, hp, congrArg NetMemRegionHandle.region hnet, h.live_of_sent hp ?_⟩
  have hpos : 0 < s.inFlight.countP (fun m => m.myId = p.myId) :=
    Multiset.countP_pos.mpr ⟨m, hm, congrArg NetMemRegionHandle.myId hnet⟩
  rw [h.conserved hp, State.outstanding]
  omega

theorem State.Freed.not_live {region : ℕ × Fin P} (h : Inv s) (hfreed : s.Freed region) {j : ℕ}
    {r : MemRegionHandleInner P} (hj : s.entries[j]? = some r) (hid : r.myId = region) :
    ¬ s.Live j r.toIds := by
  obtain ⟨i, e, hi, heid, -, howners⟩ := hfreed
  cases h.myId_inj hi hj (heid.trans hid.symm)
  rw [hi] at hj
  cases hj
  intro hlive
  rw [State.Live] at hlive
  rw [State.owners, if_pos hlive] at howners
  omega

theorem State.overChildren_receipts (s : State P) (id : ℕ × Fin P) :
    s.overChildren (fun c => c.receipts) id =
      s.overChildren (fun c => c.opened) id + s.unreturned id := by
  unfold State.unreturned State.overChildren
  induction s.entries with
  | nil => rfl
  | cons c cs ih =>
    simp only [MemRegionHandleInner.receipts] at ih
    simp only [List.map_cons, List.sum_cons, ih, MemRegionHandleInner.receipts]
    split <;> omega

/-- A region is freed only when no PE has a handle of it and none is in flight. Every live entry
has sent what is in flight from it, what its children have not returned, and what is on the way
back; and a `MemRegionFinishedAm` finds its entry and never takes more than that has sent. -/
theorem region_lifetime (hs : Reachable s) :
    (∀ region, s.Freed region →
      (∀ e ∈ s.entries, e.region = region → e.handles = 0 ∧ e.opened = 0) ∧
        ∀ m ∈ s.inFlight, m.region ≠ region) ∧
    (∀ i e, s.entries[i]? = some e → s.Live i e.toIds →
      e.remoteSent = s.copiesFrom e.myId + s.unreturned e.myId + e.finishedTo s.finished) ∧
    ∀ m ∈ s.finished, ∃ i e, s.map m.dst m.parentId = some i ∧ s.entries[i]? = some e ∧
      m.cnt ≤ e.remoteSent := by
  have h := hs.inv
  refine ⟨?_, ?_, ?_⟩
  · intro region hfreed
    refine ⟨?_, ?_⟩
    · intro e he hregion
      obtain ⟨i, hi⟩ := List.mem_iff_getElem?.mp he
      have hdead : ¬ s.Live i e.toIds := by
        intro hlive
        obtain ⟨j, r, hj, hid, hjlive⟩ := h.root_live hi hlive
        exact hfreed.not_live h hj (hid.trans hregion) hjlive
      have hok := h.ok hi
      have hzero := (hok.dead hdead).1
      have href := hok.localRef_eq
      exact ⟨by omega, by omega⟩
    · intro m hm hregion
      obtain ⟨j, p, hj, hmregion, hplive⟩ := h.sender_live hm
      obtain ⟨k, r, hk, hid, hklive⟩ := h.root_live hj hplive
      exact hfreed.not_live h hk (hid.trans (hmregion.symm.trans hregion)) hklive
  · intro i e hi hlive
    have hcons := h.conserved hi
    rw [State.outstanding, if_pos hlive, s.overChildren_receipts] at hcons
    rw [State.copiesFrom]
    omega
  · intro m hm
    obtain ⟨-, i, hmap⟩ := h.finished m hm
    obtain ⟨e, hi, hpe, hkey⟩ := h.map_ok hmap
    refine ⟨i, e, hmap, hi, ?_⟩
    have hlive : s.Live i e.toIds := by
      rw [State.Live, hpe, hkey]
      exact hmap
    have hcons := h.conserved hi
    rw [State.outstanding, if_pos hlive] at hcons
    have hmem : (if m.dst = e.pe ∧ m.parentId = e.parentId then m.cnt else 0) ∈
        s.finished.map fun m => if m.dst = e.pe ∧ m.parentId = e.parentId then m.cnt else 0 :=
      Multiset.mem_map_of_mem _ hm
    have hle := Multiset.le_sum_of_mem hmem
    rw [if_pos ⟨hpe.symm, hkey.symm⟩] at hle
    rw [Ids.finishedTo] at hcons
    omega

/-- PE 0 sends its only handle to PE 1 and drops it; after PE 1 has dropped its own, the
`MemRegionDropWaitAm` of PE 0 frees the region. -/
theorem region_lifetime_sent :
    ∃ s : State 2, s.Freed (0, 0) ∧
      ((∀ e ∈ s.entries, e.region = (0, 0) → e.handles = 0 ∧ e.opened = 0) ∧
        ∀ m ∈ s.inFlight, m.region ≠ (0, 0)) := by
  have hrun : ∃ s, Transition.run State.step (State.empty : State 2)
      [.new 0, .ser 0 [1], .receive ⟨1, (0, 0), (0, 0), (0, 0)⟩, .des 1, .drop 0, .drop 1,
        .finish ⟨0, 1, (0, 0)⟩, .waitStep 0, .waitStep 0, .waitStep 0] = some s ∧
      s.Freed (0, 0) := by
    refine ⟨_, rfl, 0, _, rfl, rfl, rfl, rfl⟩
  obtain ⟨s, hs, hfreed⟩ := hrun
  exact ⟨s, hfreed, (region_lifetime (Transition.Reach.run (.init rfl) hs)).1 _ hfreed⟩

end Lamellar.OneSided
