import Mathlib.Algebra.BigOperators.Group.Multiset.Basic
import Mathlib.Data.Multiset.Filter
import Mathlib.Data.Multiset.Fintype
import Mathlib.Data.Fintype.Card

/-!
# Pools of agents

A pool is a multiset of agents that run side by side, any number of which may be in the same
state. A step of one agent replaces it (`replace`). An invariant of a pool is a property of
all its agents (`forall_replace`) or a count of those in some states (`countP_replace`).
-/

namespace Lamellar.Pool

variable {α β : Type} [DecidableEq α]

/-- The agent `a` becomes `b`. -/
def replace (m : Multiset α) (a b : α) : Multiset α := b ::ₘ m.erase a

theorem mem_replace {m : Multiset α} {a b c : α} (h : c ∈ replace m a b) : c = b ∨ c ∈ m := by
  rcases Multiset.mem_cons.mp h with h | h
  · exact Or.inl h
  · exact Or.inr (Multiset.mem_of_mem_erase h)

theorem mem_replace_self (m : Multiset α) (a b : α) : b ∈ replace m a b :=
  Multiset.mem_cons_self b _

theorem mem_replace_of_ne {m : Multiset α} {a b c : α} (hc : c ∈ m) (hne : c ≠ a) :
    c ∈ replace m a b :=
  Multiset.mem_cons_of_mem ((Multiset.mem_erase_of_ne hne).mpr hc)

theorem forall_replace {m : Multiset α} {a b : α} {Q : α → Prop} (hb : Q b)
    (hm : ∀ c ∈ m, Q c) : ∀ c ∈ replace m a b, Q c := by
  intro c hc
  rcases mem_replace hc with rfl | hc
  · exact hb
  · exact hm c hc

theorem countP_replace {m : Multiset α} {a b : α} (p : α → Prop) [DecidablePred p]
    (ha : a ∈ m) : (replace m a b).countP p + (if p a then 1 else 0) =
      m.countP p + (if p b then 1 else 0) := by
  rw [replace, Multiset.countP_cons, ← Multiset.cons_erase ha, Multiset.erase_cons_head,
    Multiset.countP_cons]
  omega

theorem countP_replace_of_iff {m : Multiset α} {a b : α} (p : α → Prop) [DecidablePred p]
    (ha : a ∈ m) (h : p a ↔ p b) : (replace m a b).countP p = m.countP p := by
  have hcount := countP_replace (b := b) p ha
  by_cases hp : p a
  · rw [if_pos hp, if_pos (h.mp hp)] at hcount
    omega
  · rw [if_neg hp, if_neg (fun hb => hp (h.mpr hb))] at hcount
    omega

theorem countP_replace_gain {m : Multiset α} {a b : α} (p : α → Prop) [DecidablePred p]
    (ha : a ∈ m) (hpa : ¬ p a) (hpb : p b) : (replace m a b).countP p = m.countP p + 1 := by
  have hcount := countP_replace (b := b) p ha
  rw [if_neg hpa, if_pos hpb] at hcount
  omega

theorem countP_replace_loss {m : Multiset α} {a b : α} (p : α → Prop) [DecidablePred p]
    (ha : a ∈ m) (hpa : p a) (hpb : ¬ p b) : (replace m a b).countP p + 1 = m.countP p := by
  have hcount := countP_replace (b := b) p ha
  rw [if_pos hpa, if_neg hpb] at hcount
  omega

theorem sum_map_replace {m : Multiset α} {a b : α} (f : α → ℕ) (ha : a ∈ m) :
    ((replace m a b).map f).sum + f a = (m.map f).sum + f b := by
  rw [replace, Multiset.map_cons, Multiset.sum_cons, ← Multiset.cons_erase ha,
    Multiset.erase_cons_head, Multiset.map_cons, Multiset.sum_cons]
  omega

theorem eq_of_countP_le_one {m : Multiset α} {p : α → Prop} [DecidablePred p]
    (hone : m.countP p ≤ 1) {a b : α} (ha : a ∈ m) (hb : b ∈ m) (hpa : p a) (hpb : p b) :
    a = b := by
  by_contra hne
  have hb' : b ∈ m.erase a := (Multiset.mem_erase_of_ne (Ne.symm hne)).mpr hb
  have hpos : 0 < (m.erase a).countP p := Multiset.countP_pos.mpr ⟨b, hb', hpb⟩
  rw [← Multiset.cons_erase ha, Multiset.countP_cons, if_pos hpa] at hone
  omega

/-! ## Agents with distinct keys -/

variable [Fintype β] [DecidableEq β] (key : α → β) {p : α → Prop} [DecidablePred p]

omit [DecidableEq α] [Fintype β] in
theorem nodup_keys {m : Multiset α}
    (huniq : ∀ k, m.countP (fun a => p a ∧ key a = k) ≤ 1) :
    ((m.filter p).map key).Nodup := by
  rw [Multiset.nodup_iff_count_le_one]
  intro k
  rw [Multiset.count_map, Multiset.filter_filter, ← Multiset.countP_eq_card_filter]
  refine le_trans (le_of_eq (Multiset.countP_congr rfl fun a _ => ?_)) (huniq k)
  rw [and_comm, eq_comm (a := k)]

omit [DecidableEq α] in
/-- If no key occurs twice among the agents in `p`, there are at most as many as keys. -/
theorem countP_le_card {m : Multiset α}
    (huniq : ∀ k, m.countP (fun a => p a ∧ key a = k) ≤ 1) : m.countP p ≤ Fintype.card β := by
  have hnodup := nodup_keys key huniq
  have hcard := Finset.card_le_univ (⟨_, hnodup⟩ : Finset β)
  simpa [Multiset.countP_eq_card_filter] using hcard

omit [DecidableEq α] in
/-- If there are as many agents in `p` as keys, every key occurs. -/
theorem exists_of_countP_eq_card {m : Multiset α}
    (huniq : ∀ k, m.countP (fun a => p a ∧ key a = k) ≤ 1)
    (hall : m.countP p = Fintype.card β) (k : β) : ∃ a ∈ m, p a ∧ key a = k := by
  have hnodup := nodup_keys key huniq
  have huniv : (⟨_, hnodup⟩ : Finset β) = Finset.univ := by
    apply Finset.eq_univ_of_card
    simpa [Multiset.countP_eq_card_filter] using hall
  have hk : k ∈ (⟨_, hnodup⟩ : Finset β) := by
    rw [huniv]
    exact Finset.mem_univ k
  obtain ⟨a, ha, hkey⟩ := Multiset.mem_map.mp hk
  rw [Multiset.mem_filter] at ha
  exact ⟨a, ha.1, ha.2, hkey⟩

omit [DecidableEq α] in
/-- If every key occurs among the agents in `p`, there are at least as many as keys. -/
theorem card_le_countP {m : Multiset α} (hall : ∀ k, ∃ a ∈ m, p a ∧ key a = k) :
    Fintype.card β ≤ m.countP p := by
  have huniv : ((m.filter p).map key).toFinset = Finset.univ := by
    refine Finset.eq_univ_iff_forall.mpr (fun k => ?_)
    obtain ⟨a, ha, hp, hkey⟩ := hall k
    exact Multiset.mem_toFinset.mpr
      (Multiset.mem_map.mpr ⟨a, Multiset.mem_filter.mpr ⟨ha, hp⟩, hkey⟩)
  calc Fintype.card β = ((m.filter p).map key).toFinset.card := by rw [huniv, Finset.card_univ]
    _ ≤ ((m.filter p).map key).card := Multiset.toFinset_card_le _
    _ = m.countP p := by rw [Multiset.card_map, Multiset.countP_eq_card_filter]

end Lamellar.Pool
