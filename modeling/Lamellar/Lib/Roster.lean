import Mathlib.Data.List.Count
import Mathlib.Algebra.Ring.Nat

/-!
# Rosters of agents

A roster is a list of agents that are told apart by their position. A step of the agent at a
position changes it (`List.set`, `List.modify`), and new agents come at the end. The lemmas
say who is at a position afterwards, and how a count of agents changes.
-/

namespace Lamellar.Roster

variable {α : Type} {as : List α} {a b : α} {k k' : ℕ}

theorem modify_self {f : α → α} (ha : as[k]? = some a) : (as.modify k f)[k]? = some (f a) := by
  simp [ha]

theorem modify_of_ne {f : α → α} (hk : k ≠ k') : (as.modify k f)[k']? = as[k']? := by
  simp [hk]

theorem modify_eq_set {f : α → α} (ha : as[k]? = some a) : as.modify k f = as.set k (f a) := by
  rw [List.modify_eq_set_getElem?, ha]
  rfl

theorem append_old {as' : List α} (ha : as[k]? = some a) : (as ++ as')[k]? = some a := by
  rw [List.getElem?_append_left (List.getElem?_eq_some_iff.mp ha).1, ha]

theorem append_new (ha : (as ++ [b])[k]? = some a) :
    as[k]? = some a ∨ k = as.length ∧ a = b := by
  by_cases hk : k < as.length
  · rw [List.getElem?_append_left hk] at ha
    exact Or.inl ha
  · rw [List.getElem?_append_right (Nat.not_lt.mp hk), List.getElem?_singleton] at ha
    split at ha
    · cases ha
      exact Or.inr ⟨by omega, rfl⟩
    · cases ha

/-- Who is at a position after the agent at `k` has become `b` -/
theorem set_cases {c : α} (ha : as[k]? = some a) (hc : (as.set k b)[k']? = some c) :
    k' = k ∧ c = b ∨ k' ≠ k ∧ as[k']? = some c := by
  by_cases hk : k' = k
  · subst hk
    rw [List.getElem?_set_self (List.getElem?_eq_some_iff.mp ha).1] at hc
    exact .inl ⟨rfl, (Option.some.inj hc).symm⟩
  · rw [List.getElem?_set_ne (Ne.symm hk)] at hc
    exact .inr ⟨hk, hc⟩

theorem set_old {c : α} (b : α) (ha : as[k]? = some a) (hc : as[k']? = some c) :
    ∃ c', (as.set k b)[k']? = some c' ∧ (c' = c ∨ c = a ∧ c' = b) := by
  by_cases hk : k' = k
  · subst hk
    rw [ha] at hc
    exact ⟨b, List.getElem?_set_self (List.getElem?_eq_some_iff.mp ha).1,
      .inr ⟨(Option.some.inj hc).symm, rfl⟩⟩
  · exact ⟨c, (List.getElem?_set_ne (Ne.symm hk)).trans hc, .inl rfl⟩

/-- What an agent still has after it has changed -/
theorem map_set_of_eq {β : Type} {f : α → β} (ha : as[k]? = some a) (hb : f b = f a) :
    (as.set k b).map f = as.map f := by
  induction as generalizing k with
  | nil => cases ha
  | cons c as ih =>
    cases k with
    | zero =>
      cases ha
      exact congrArg (· :: as.map f) hb
    | succ k => exact congrArg (f c :: ·) (ih ha)

theorem forall_modify {Q : α → Prop} {f : α → α} (h : ∀ a ∈ as, Q a)
    (hf : ∀ a, Q a → Q (f a)) : ∀ a ∈ as.modify k f, Q a := by
  intro b hb
  obtain ⟨i, hi⟩ := List.mem_iff_getElem?.mp hb
  by_cases hk : k = i
  · subst hk
    cases ha : as[k]? with
    | none =>
      rw [List.getElem?_modify, ha] at hi
      cases hi
    | some a =>
      rw [modify_self ha] at hi
      cases hi
      exact hf a (h a (List.mem_of_getElem? ha))
  · rw [modify_of_ne hk] at hi
    exact h b (List.mem_of_getElem? hi)

/-- One agent more or less that satisfies `q`. -/
theorem countP_set (q : α → Bool) (b : α) (ha : as[k]? = some a) :
    (as.set k b).countP q + (if q a then 1 else 0) = as.countP q + if q b then 1 else 0 := by
  obtain ⟨hlt, hget⟩ := List.getElem?_eq_some_iff.mp ha
  have hcount := List.countP_set (p := q) (a := b) hlt
  rw [hget] at hcount
  have hle : (if q a then 1 else 0) ≤ as.countP q := by
    split
    · exact List.countP_pos_iff.mpr ⟨a, List.mem_of_getElem? ha, ‹_›⟩
    · exact Nat.zero_le _
  rw [hcount]
  omega

theorem countP_modify (q : α → Bool) (f : α → α) (ha : as[k]? = some a) :
    (as.modify k f).countP q + (if q a then 1 else 0) =
      as.countP q + if q (f a) then 1 else 0 := by
  rw [modify_eq_set ha]
  exact countP_set q (f a) ha

theorem countP_modify_of_iff {q : α → Bool} {f : α → α} (h : ∀ a, q (f a) = q a) :
    (as.modify k f).countP q = as.countP q := by
  cases ha : as[k]? with
  | none =>
    rw [List.modify_eq_set_getElem?, ha]
    rfl
  | some a =>
    have hcount := countP_modify q f ha
    rw [h a] at hcount
    omega

theorem sum_map_set (w : α → ℕ) (b : α) (ha : as[k]? = some a) :
    ((as.set k b).map w).sum + w a = (as.map w).sum + w b := by
  induction as generalizing k with
  | nil => cases ha
  | cons x as ih =>
    cases k with
    | zero =>
      cases ha
      simp only [List.set_cons_zero, List.map_cons, List.sum_cons]
      omega
    | succ k =>
      have hset := ih (k := k) ha
      simp only [List.set_cons_succ, List.map_cons, List.sum_cons]
      omega

/-- What the agents hold together, when one of them holds something else. -/
theorem count_flatMap_set {β : Type} [BEq β] (g : α → List β) (x : β) (b : α)
    (ha : as[k]? = some a) : ((as.set k b).flatMap g).count x + (g a).count x =
      (as.flatMap g).count x + (g b).count x := by
  rw [List.count_flatMap, List.count_flatMap]
  exact sum_map_set (fun a => (g a).count x) b ha

theorem exists_set {Q : α → Prop} (h : ∃ a ∈ as, Q a) (ha : as[k]? = some a)
    (hb : Q a → Q b) : ∃ a ∈ as.set k b, Q a := by
  obtain ⟨c, hc, hQ⟩ := h
  obtain ⟨i, hi⟩ := List.mem_iff_getElem?.mp hc
  by_cases hk : k = i
  · subst hk
    rw [ha] at hi
    cases hi
    exact ⟨b, List.mem_set (List.getElem?_eq_some_iff.mp ha).1 b, hb hQ⟩
  · exact ⟨c, List.mem_of_getElem? ((List.getElem?_set_ne hk).trans hi), hQ⟩

/-- What the agents hold together, apart from the one at `k`. -/
theorem exists_perm_flatMap_set {β : Type} (g : α → List β) (b : α) (ha : as[k]? = some a) :
    ∃ rest, (as.flatMap g).Perm (g a ++ rest) ∧ ((as.set k b).flatMap g).Perm (g b ++ rest) := by
  induction as generalizing k with
  | nil => cases ha
  | cons c as ih =>
    cases k with
    | zero =>
      cases ha
      exact ⟨as.flatMap g, .refl _, .refl _⟩
    | succ k =>
      obtain ⟨rest, hold, hnew⟩ := ih (k := k) ha
      refine ⟨g c ++ rest, ?_, ?_⟩
      · rw [List.flatMap_cons]
        exact (hold.append_left _).trans (List.perm_append_comm_assoc ..)
      · rw [List.set_cons_succ, List.flatMap_cons]
        exact (hnew.append_left _).trans (List.perm_append_comm_assoc ..)

end Lamellar.Roster
