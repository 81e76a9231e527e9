import Lamellar.DistributedIterator.Adaptors

/-!
# What an adaptor does to a range

On one PE the positions below `count` have the indices `first`, `first + stride`, ... of the
view, and a chain of adaptors selects the window `[lower, upper)` of these indices and makes
the item `value g` of index `g`. `Laws` says that a chain behaves so. Its iterators are
described by `Ready it q p e`: the next position is `p`, positions from `e` on are not part
of the range, and the place of position `p` in the iteration is what `iterator_index` says
of `q`. Once a range is exhausted (`p = e`), `q` may be anything: the searches of `skip` run
past the end of a range. Every adaptor has the laws when the chain below it has, with the
window and the items of the standard adaptor.
-/

namespace Lamellar.DistributedIterator

open Lamellar.Array Lamellar.Draining

variable {T I α β : Type}

/-- The indices of the local positions of one PE. -/
structure Numbering where
  first : ℕ
  stride : ℕ
  count : ℕ
  size : ℕ
  stride_pos : 0 < stride
  lt : ∀ j < count, first + j * stride < size

namespace Numbering

/-- The index of position `j`. -/
def glob (N : Numbering) (j : ℕ) : ℕ := N.first + j * N.stride

theorem glob_lt_size (N : Numbering) {j : ℕ} (h : j < N.count) : N.glob j < N.size := N.lt j h

theorem glob_lt (N : Numbering) {j j' : ℕ} (h : j < j') : N.glob j < N.glob j' := by
  have hmul := Nat.mul_lt_mul_of_pos_right h N.stride_pos
  unfold glob
  omega

theorem glob_le (N : Numbering) {j j' : ℕ} (h : j ≤ j') : N.glob j ≤ N.glob j' := by
  rcases Nat.lt_or_eq_of_le h with hlt | rfl
  · exact Nat.le_of_lt (N.glob_lt hlt)
  · exact Nat.le_refl _

theorem le_glob (N : Numbering) (j : ℕ) : j ≤ N.glob j := by
  have hmul := Nat.le_mul_of_pos_right j N.stride_pos
  unfold glob
  omega

theorem count_le_size (N : Numbering) : N.count ≤ N.size := by
  by_contra hlt
  have hglob := N.glob_lt_size (show N.count - 1 < N.count by omega)
  have hle := N.le_glob (N.count - 1)
  omega

end Numbering

variable {N : Numbering} {lower upper : ℕ} {value : ℕ → Option α}

/-- The place of index `g` in the iteration over `[lower, upper)`. -/
def place (lower upper g : ℕ) : Option ℕ := if lower ≤ g ∧ g < upper then some (g - lower) else none

structure Laws [IndexedDistributedIterator I α] (N : Numbering) (it : I) (lower upper : ℕ)
    (value : ℕ → Option α) (Ready : I → ℕ → ℕ → ℕ → Prop) : Prop where
  upper_le : upper ≤ N.size
  elems (n : ℕ) : elems it n = n
  init (start cnt : ℕ) : ∃ p, Ready (init it start cnt) start p (min (start + cnt) N.count) ∧
    (p < min (start + cnt) N.count → start ≤ p ∧ lower ≤ N.glob p) ∧
    ∀ j, start ≤ j → j < p → j < N.count → ¬ (lower ≤ N.glob j ∧ N.glob j < upper)
  le {s : I} {q p e : ℕ} : Ready s q p e → p ≤ e ∧ e ≤ N.count
  size_eq {s : I} {q p e : ℕ} : Ready s q p e → size s = N.size
  index {s : I} {q p e : ℕ} : Ready s q p e → p < e →
    ∀ t, iteratorIndex s (q + t) = place lower upper (N.glob (p + t))
  next_some {s : I} {q p e : ℕ} : Ready s q p e → p < e → lower ≤ N.glob p → N.glob p < upper →
    ∃ x s', value (N.glob p) = some x ∧ next s = (some x, s') ∧ Ready s' (q + 1) (p + 1) e
  next_none {s : I} {q p e : ℕ} : Ready s q p e → p = e ∨ upper ≤ N.glob p → (next s).1 = none
  advance {s : I} {q p e : ℕ} (t : ℕ) : Ready s q p e →
    Ready (advanceIndex s t) (q + t) (min (p + t) e) e
  idle {s : I} {q e : ℕ} (q' : ℕ) : Ready s q e e → Ready s q' e e
  /-- Moving on does not change what `iterator_index` says. -/
  index_next (s : I) : iteratorIndex (next s).2 = iteratorIndex s
  index_advance (s : I) (t : ℕ) : iteratorIndex (advanceIndex s t) = iteratorIndex s

/-- The item of position `j`, if the window selects it. -/
def itemAt (N : Numbering) (lower upper : ℕ) (value : ℕ → Option α) (j : ℕ) : Option α :=
  if j < N.count ∧ lower ≤ N.glob j ∧ N.glob j < upper then value (N.glob j) else none

namespace Laws

variable [IndexedDistributedIterator I α] {it : I} {Ready : I → ℕ → ℕ → ℕ → Prop}

/-! ## A range run to its end -/

theorem drains_from (h : Laws N it lower upper value Ready) {s : I} {q p e n : ℕ} (hn : e - p = n)
    (hs : Ready s q p e) (hlow : p < e → lower ≤ N.glob p) :
    Drains next size s ((List.range' p n).filterMap (itemAt N lower upper value)) := by
  induction n generalizing s q p with
  | zero =>
    have hle := (h.le hs).1
    exact .done (h.next_none hs (Or.inl (by omega)))
  | succ n ih =>
    have hlt : p < e := by omega
    have hle := (h.le hs).2
    rw [List.range'_succ]
    by_cases hup : N.glob p < upper
    · obtain ⟨x, s', hx, hnext, hs'⟩ := h.next_some hs hlt (hlow hlt) hup
      have hitem : itemAt N lower upper value p = some x := by
        unfold itemAt
        rw [if_pos ⟨by omega, hlow hlt, hup⟩, hx]
      rw [List.filterMap_cons_some hitem]
      refine .item hnext ?_ (ih (by omega) hs' ?_)
      · have hlength := List.length_filterMap_le (itemAt N lower upper value)
          (List.range' (p + 1) n)
        rw [List.length_range'] at hlength
        have hcount := N.count_le_size
        rw [h.size_eq hs]
        omega
      · intro _
        exact Nat.le_trans (hlow hlt) (N.glob_le (Nat.le_succ p))
    · -- later positions have larger indices, so nothing more comes
      rw [← List.range'_succ, filterMap_range'_eq_nil]
      · exact .done (h.next_none hs (Or.inr (by omega)))
      · intro j hge _
        have hglob := N.glob_le hge
        exact if_neg (by omega)

/-- A range hands out the selected items of its positions, in order. -/
theorem drains (h : Laws N it lower upper value Ready) (start cnt : ℕ) :
    Drains next size (DistributedIterator.init it start cnt)
      ((List.range' start cnt).filterMap (itemAt N lower upper value)) := by
  obtain ⟨p, hready, hlow, hskip⟩ := h.init start cnt
  have hle := h.le hready
  have hdrains := h.drains_from rfl hready fun hlt => (hlow hlt).2
  have hpast (j : ℕ) (hge : min (start + cnt) N.count ≤ j) (hlt : j < start + cnt) :
      itemAt N lower upper value j = none := if_neg (by omega)
  have hbefore (j : ℕ) (hge : start ≤ j) (hlt : j < p) :
      itemAt N lower upper value j = none :=
    if_neg fun hin => hskip j hge hlt hin.1 hin.2
  by_cases hlt : p < min (start + cnt) N.count
  · have hstart := (hlow hlt).1
    rw [filterMap_range'_window hstart (m := min (start + cnt) N.count - p) (by omega) hbefore
      fun j hge => hpast j (by omega)]
    exact hdrains
  · have hend : min (start + cnt) N.count - p = 0 := by omega
    rw [hend] at hdrains
    rw [filterMap_range'_eq_nil]
    · exact hdrains
    · intro j hge hltEnd
      by_cases hp : j < p
      · exact hbefore j hge hp
      · exact hpast j (by omega) hltEnd

end Laws

end Lamellar.DistributedIterator
