import Lamellar.OneSided.Model
import Lamellar.Lib.Roster
import Mathlib.Data.Multiset.Count
import Mathlib.Data.Multiset.Filter
import Mathlib.Algebra.Order.BigOperators.Group.List
import Mathlib.Algebra.Order.Ring.Nat

/-!
# The tree of handles

Every `MemRegionHandleInner` has either allocated its region or is the child of an earlier one,
whose messages it was made from. An entry that is in no map any more has nothing left to count:
no handle, and nothing sent that has not come back. What an entry has sent is in flight, with
its children or on the way back (`Inv.conserved`).
-/

namespace Lamellar.OneSided

variable {P : ℕ} {s s' : State P} {i j : ℕ} {e e' x : MemRegionHandleInner P}

namespace Ids

/-- The entry of the PE that has allocated the region. -/
def IsRoot (e : Ids P) : Prop := e.myId = e.parentId ∧ e.region = e.myId

def IsChildOf (e p : Ids P) : Prop :=
  e.parentId = p.myId ∧ e.grandParentId = p.parentId ∧ e.region = p.region

end Ids

def State.ids (s : State P) : List (Ids P) := s.entries.map MemRegionHandleInner.toIds

/-- What the ids of the entries say about each other and about the messages. -/
structure Shape (ids : List (Ids P)) (idCounter : Fin P → ℕ)
    (inFlight : Multiset (NetMemRegionHandle P)) : Prop where
  id_lt : ∀ e ∈ ids, e.myId.1 < idCounter e.myId.2
  id_inj : ∀ {i j : ℕ} {a b : Ids P}, ids[i]? = some a → ids[j]? = some b → a.myId = b.myId → i = j
  origin : ∀ {i : ℕ} {e : Ids P}, ids[i]? = some e →
    e.IsRoot ∨ ∃ (j : ℕ) (p : Ids P), j < i ∧ ids[j]? = some p ∧ e.IsChildOf p
  message : ∀ m ∈ inFlight, ∃ (i : ℕ) (e : Ids P), ids[i]? = some e ∧ m = e.net m.dst ∧ m.dst ≠ e.pe

/-- What the counters of an entry say, `live` if it is in the map of its PE. -/
structure MemRegionHandleInner.Ok (e : MemRegionHandleInner P) (live : Prop) : Prop where
  localRef_eq : e.localRef = e.handles + e.opened
  dead : ¬ live → e.localRef = 0 ∧ e.remoteSent = 0 ∧ e.wait = none
  child : live → e.myId ≠ e.parentId → 0 < e.opened + e.remoteRecv
  noWait : e.localDropped = false → e.wait = none

/-- What a child has received and not returned, counted by `des` or not. -/
def MemRegionHandleInner.receipts (e : MemRegionHandleInner P) : ℕ := e.opened + e.remoteRecv

instance (s : State P) (i : ℕ) (e : Ids P) : Decidable (s.Live i e) :=
  inferInstanceAs (Decidable (s.map e.pe e.parentId = some i))

/-- Everything that `e` has sent, wherever it is now. -/
def State.outstanding (s : State P) (i : ℕ) (e : Ids P) : ℕ :=
  s.inFlight.countP (fun m => m.myId = e.myId) + s.overChildren (fun c => c.receipts) e.myId +
    if s.Live i e then e.finishedTo s.finished else 0

structure Inv (s : State P) : Prop where
  shape : Shape s.ids s.idCounter s.inFlight
  map_ok : ∀ {p : Fin P} {key : ℕ × Fin P} {i : ℕ}, s.map p key = some i →
    ∃ e : MemRegionHandleInner P, s.entries[i]? = some e ∧ e.pe = p ∧ e.parentId = key
  ok : ∀ {i : ℕ} {e : MemRegionHandleInner P}, s.entries[i]? = some e → e.Ok (s.Live i e.toIds)
  finished : ∀ m ∈ s.finished, 0 < m.cnt ∧ ∃ i, s.map m.dst m.parentId = some i
  conserved : ∀ {i : ℕ} {e : MemRegionHandleInner P}, s.entries[i]? = some e →
    e.remoteSent = s.outstanding i e.toIds

/-! ## The parts of a state -/

theorem State.ids_eq_some (hi : s.entries[i]? = some e) : s.ids[i]? = some e.toIds := by
  rw [State.ids, List.getElem?_map, hi]
  rfl

theorem State.of_ids_eq_some {a : Ids P} (hi : s.ids[i]? = some a) :
    ∃ e : MemRegionHandleInner P, s.entries[i]? = some e ∧ e.toIds = a := by
  rw [State.ids, List.getElem?_map] at hi
  exact Option.map_eq_some_iff.mp hi

theorem State.ids_set (hi : s.entries[i]? = some e) (hids : e'.toIds = e.toIds) :
    (s.entries.set i e').map MemRegionHandleInner.toIds = s.ids := by
  rw [List.map_set, hids]
  refine List.ext_getElem? fun k => ?_
  by_cases hk : i = k
  · subst hk
    rw [List.getElem?_set_self', State.ids_eq_some hi]
    have h := State.ids_eq_some hi
    rw [State.ids] at h
    rw [h]
    rfl
  · rw [List.getElem?_set_ne hk]
    rfl

/-- The entries after a step of the one at `i`. -/
theorem State.getElem?_set (hi : s.entries[i]? = some e) (hj : (s.entries.set i e')[j]? = some x) :
    j = i ∧ x = e' ∨ j ≠ i ∧ s.entries[j]? = some x := by
  by_cases hij : i = j
  · subst hij
    rw [List.getElem?_set_self', hi] at hj
    cases hj
    exact Or.inl ⟨rfl, rfl⟩
  · rw [List.getElem?_set_ne hij] at hj
    exact Or.inr ⟨fun h => hij h.symm, hj⟩

theorem Inv.myId_inj (h : Inv s) (hi : s.entries[i]? = some e) (hj : s.entries[j]? = some x)
    (hid : e.myId = x.myId) : i = j :=
  h.shape.id_inj (State.ids_eq_some hi) (State.ids_eq_some hj) hid

theorem Inv.live_of_localRef (h : Inv s) (hi : s.entries[i]? = some e) (hpos : 0 < e.localRef) :
    s.Live i e.toIds := by
  by_contra hdead
  have := ((h.ok hi).dead hdead).1
  omega

theorem Inv.live_of_handles (h : Inv s) (hi : s.entries[i]? = some e) (hpos : 0 < e.handles) :
    s.Live i e.toIds := by
  have := (h.ok hi).localRef_eq
  exact h.live_of_localRef hi (by omega)

theorem Inv.live_of_sent (h : Inv s) (hi : s.entries[i]? = some e) (hpos : 0 < e.remoteSent) :
    s.Live i e.toIds := by
  by_contra hdead
  have := ((h.ok hi).dead hdead).2.1
  omega

/-- The parent of an entry that still has receipts is live. -/
theorem Inv.parent (h : Inv s) (hi : s.entries[i]? = some e) (hne : e.myId ≠ e.parentId) :
    ∃ (j : ℕ) (p : MemRegionHandleInner P),
      j < i ∧ s.entries[j]? = some p ∧ e.IsChildOf p.toIds ∧ e.myId ≠ p.myId := by
  rcases h.shape.origin (State.ids_eq_some hi) with hroot | ⟨j, a, hlt, hj, hchild⟩
  · exact absurd hroot.1 hne
  · obtain ⟨p, hp, rfl⟩ := State.of_ids_eq_some hj
    refine ⟨j, p, hlt, hp, hchild, ?_⟩
    intro hid
    have := h.myId_inj hi hp hid
    omega

theorem State.receipts_le (hi : s.entries[i]? = some e) {id : ℕ × Fin P}
    (hparent : e.parentId = id) (hne : e.myId ≠ id) :
    e.receipts ≤ s.overChildren (fun c => c.receipts) id := by
  have hmem : (if e.parentId = id ∧ e.myId ≠ id then e.receipts else 0) ∈ s.entries.map fun c =>
      if c.parentId = id ∧ c.myId ≠ id then c.receipts else 0 :=
    List.mem_map_of_mem (List.mem_of_getElem? hi)
  rw [if_pos ⟨hparent, hne⟩] at hmem
  exact List.le_sum_of_mem hmem

/-- What an entry has sent is in flight, so it is live. -/
theorem Inv.live_of_child (h : Inv s) (hi : s.entries[i]? = some e) {p : MemRegionHandleInner P}
    (hj : s.entries[j]? = some p) (hchild : e.IsChildOf p.toIds) (hne : e.myId ≠ p.myId)
    (hpos : 0 < e.receipts) : s.Live j p.toIds := by
  refine h.live_of_sent hj ?_
  have hle := State.receipts_le hi hchild.1 hne
  rw [h.conserved hj, State.outstanding]
  omega

end Lamellar.OneSided
