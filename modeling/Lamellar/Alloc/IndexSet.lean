import Mathlib.Data.List.Nodup
import Mathlib.Data.Set.Basic

/-!
# Index sets

The free entries keep their addresses in an `IndexSet` of the crate `indexmap`. It comes as a
parameter, with what the crate's documentation says of the operations that `src/lamellar_alloc.rs`
uses (`LawfulIndexSet`). `ItemList` has these operations on a list in the order of the indices.
-/

namespace Lamellar.Alloc

/-- The operations of `IndexSet<usize>` -/
class IndexSet (S : Type) where
  new : S
  contains : S → ℕ → Bool
  isEmpty : S → Bool
  insert : S → ℕ → S
  /-- The last item and the rest -/
  pop : S → Option ℕ × S
  remove : S → ℕ → S

namespace IndexSet

variable {S : Type} [IndexSet S]

def items (s : S) : Set ℕ := fun a => contains s a = true

end IndexSet

open IndexSet

/-- What the documentation of `IndexSet` says -/
class LawfulIndexSet (S : Type) extends IndexSet S where
  not_mem_new (a : ℕ) : a ∉ items (new : S)
  isEmpty_iff (s : S) : isEmpty s = true ↔ ∀ a, a ∉ items s
  mem_insert (s : S) (a b : ℕ) : b ∈ items (insert s a) ↔ b ∈ items s ∨ b = a
  mem_remove (s : S) (a b : ℕ) : b ∈ items (remove s a) ↔ b ∈ items s ∧ b ≠ a
  pop_eq_none (s : S) : (pop s).1 = none → isEmpty s = true
  pop_eq_some (s : S) (a : ℕ) : (pop s).1 = some a →
    a ∈ items s ∧ ∀ b, b ∈ items (pop s).2 ↔ b ∈ items s ∧ b ≠ a

namespace IndexSet

variable {S : Type} [LawfulIndexSet S] {s : S} {a b : ℕ}

theorem mem_insert : b ∈ items (insert s a) ↔ b ∈ items s ∨ b = a := LawfulIndexSet.mem_insert s a b

theorem mem_remove : b ∈ items (remove s a) ↔ b ∈ items s ∧ b ≠ a := LawfulIndexSet.mem_remove s a b

theorem mem_pop (ha : (pop s).1 = some a) :
    a ∈ items s ∧ ∀ b, b ∈ items (pop s).2 ↔ b ∈ items s ∧ b ≠ a :=
  LawfulIndexSet.pop_eq_some s a ha

theorem not_isEmpty_of_mem (ha : a ∈ items s) : isEmpty s ≠ true := fun hempty =>
  (LawfulIndexSet.isEmpty_iff s).mp hempty a ha

theorem exists_mem (h : isEmpty s ≠ true) : ∃ a, a ∈ items s := by
  by_contra hnone
  exact h ((LawfulIndexSet.isEmpty_iff s).mpr fun a ha => hnone ⟨a, ha⟩)

theorem exists_pop (h : isEmpty s ≠ true) : ∃ a, (pop s).1 = some a := by
  cases hpop : (pop s).1 with
  | some a => exact ⟨a, rfl⟩
  | none => exact absurd (LawfulIndexSet.pop_eq_none s hpop) h

end IndexSet

/-! ## A list of items -/

structure ItemList where
  list : List ℕ
  nodup : list.Nodup

namespace ItemList

def push (s : ItemList) (a : ℕ) : ItemList :=
  if h : a ∈ s.list then s
  else ⟨s.list ++ [a], List.nodup_append.mpr ⟨s.nodup, List.nodup_singleton a, fun _ hb _ hc heq =>
    h (List.mem_singleton.mp hc ▸ heq ▸ hb)⟩⟩

/-- The last item takes the place of `a`. -/
def swapRemove (a : ℕ) (items : List ℕ) : List ℕ :=
  if a ∈ items then
    match items.getLast? with
    | some y => items.dropLast.map fun z => if z = a then y else z
    | none => items
  else items

theorem nodup_swapRemove {items : List ℕ} (h : items.Nodup) (a : ℕ) :
    (swapRemove a items).Nodup := by
  unfold swapRemove
  split
  · split
    · rename_i y hy
      have hconcat : items.dropLast ++ [y] = items := List.dropLast_append_getLast? y hy
      rw [← hconcat] at h
      obtain ⟨hinit, -, hdisj⟩ := List.nodup_append.mp h
      refine hinit.map_on fun z hz z' hz' heq => ?_
      have hzy := hdisj z hz y (List.mem_singleton_self y)
      have hzy' := hdisj z' hz' y (List.mem_singleton_self y)
      split at heq <;> split at heq <;> simp_all
    · exact h
  · exact h

theorem mem_swapRemove {items : List ℕ} (h : items.Nodup) {a b : ℕ} :
    b ∈ swapRemove a items ↔ b ∈ items ∧ b ≠ a := by
  unfold swapRemove
  split
  · rename_i ha
    split
    · rename_i y hy
      have hconcat : items.dropLast ++ [y] = items := List.dropLast_append_getLast? y hy
      have hmem : ∀ z, z ∈ items ↔ z ∈ items.dropLast ∨ z = y := by
        intro z
        conv_lhs => rw [← hconcat]
        simp
      rw [← hconcat] at h
      obtain ⟨-, -, hdisj⟩ := List.nodup_append.mp h
      have hnot : y ∉ items.dropLast := fun hy' => hdisj y hy' y (List.mem_singleton_self y) rfl
      rw [hmem] at ha
      rw [List.mem_map, hmem]
      constructor
      · rintro ⟨z, hz, rfl⟩
        split
        · rename_i hza
          subst hza
          exact ⟨Or.inr rfl, fun heq => hnot (heq ▸ hz)⟩
        · rename_i hza
          exact ⟨Or.inl hz, hza⟩
      · rintro ⟨hb | rfl, hba⟩
        · exact ⟨b, hb, if_neg hba⟩
        · rcases ha with ha | rfl
          · exact ⟨a, ha, if_pos rfl⟩
          · exact absurd rfl hba
    · rename_i hnone
      rw [List.getLast?_eq_none_iff] at hnone
      simp [hnone]
  · rename_i ha
    constructor
    · exact fun hb => ⟨hb, fun heq => ha (heq ▸ hb)⟩
    · exact And.left

instance instIndexSetItemList : IndexSet ItemList where
  new := ⟨[], .nil⟩
  contains s a := s.list.elem a
  isEmpty s := s.list.isEmpty
  insert := push
  pop s := (s.list.getLast?, ⟨s.list.dropLast, s.nodup.sublist (List.dropLast_sublist _)⟩)
  remove s a := ⟨swapRemove a s.list, nodup_swapRemove s.nodup a⟩

theorem mem_items (s : ItemList) (a : ℕ) : a ∈ items s ↔ a ∈ s.list := List.elem_iff

instance : LawfulIndexSet ItemList where
  toIndexSet := instIndexSetItemList
  not_mem_new a := by
    rw [mem_items]
    exact List.not_mem_nil
  isEmpty_iff s := by
    simp only [mem_items]
    exact List.isEmpty_iff.trans List.eq_nil_iff_forall_not_mem
  mem_insert s a b := by
    rw [mem_items, mem_items]
    change b ∈ (s.push a).list ↔ _
    unfold push
    split
    · rename_i ha
      constructor
      · exact Or.inl
      · rintro (hb | rfl)
        · exact hb
        · exact ha
    · simp
  mem_remove s a b := by
    rw [mem_items, mem_items]
    exact mem_swapRemove s.nodup
  pop_eq_none s hnone := List.isEmpty_iff.mpr (List.getLast?_eq_none_iff.mp hnone)
  pop_eq_some s a ha := by
    have hconcat : s.list.dropLast ++ [a] = s.list := List.dropLast_append_getLast? a ha
    have hnodup := s.nodup
    rw [← hconcat] at hnodup
    obtain ⟨-, -, hdisj⟩ := List.nodup_append.mp hnodup
    rw [mem_items]
    refine ⟨List.mem_of_getLast? ha, fun b => ?_⟩
    have hmem : b ∈ s.list ↔ b ∈ s.list.dropLast ∨ b = a := by
      conv_lhs => rw [← hconcat]
      simp
    rw [mem_items, mem_items, hmem]
    change b ∈ s.list.dropLast ↔ _
    constructor
    · exact fun hb => ⟨Or.inl hb, fun heq => hdisj b hb a (List.mem_singleton_self a) heq⟩
    · rintro ⟨hb | hb, hne⟩
      · exact hb
      · exact absurd hb hne

end ItemList

end Lamellar.Alloc
