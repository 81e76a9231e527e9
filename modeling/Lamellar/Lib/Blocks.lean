import Mathlib.Algebra.BigOperators.Group.List.Basic
import Mathlib.Data.List.Perm.Basic
import Mathlib.Algebra.Ring.Nat

/-!
# Partitions into blocks

A block is a first number and a length. A list of blocks partitions a range if every number of
the range is in exactly one of them and no other number in any. Splitting a block and joining two
changes nothing about that (`Same.split`).
-/

namespace Lamellar.Blocks

/-- The blocks that contain `x`. -/
def cover (bs : List (ℕ × ℕ)) (x : ℕ) : ℕ := bs.countP fun b => b.1 ≤ x ∧ x < b.1 + b.2

def total (bs : List (ℕ × ℕ)) : ℕ := (bs.map Prod.snd).sum

structure Partition (bs : List (ℕ × ℕ)) (start len : ℕ) : Prop where
  cover_eq : ∀ x, cover bs x = if start ≤ x ∧ x < start + len then 1 else 0
  total_eq : total bs = len

/-- Both lists contain every number as often. -/
structure Same (bs bs' : List (ℕ × ℕ)) : Prop where
  cover_eq : ∀ x, cover bs x = cover bs' x
  total_eq : total bs = total bs'

variable {bs bs' bs'' cs : List (ℕ × ℕ)} {b c : ℕ × ℕ} {start len a m n x : ℕ}

theorem cover_cons (b : ℕ × ℕ) (bs : List (ℕ × ℕ)) (x : ℕ) :
    cover (b :: bs) x = cover bs x + if b.1 ≤ x ∧ x < b.1 + b.2 then 1 else 0 := by
  simp [cover, List.countP_cons]

theorem total_cons (b : ℕ × ℕ) (bs : List (ℕ × ℕ)) : total (b :: bs) = b.2 + total bs := by
  simp [total]

theorem Same.symm (h : Same bs bs') : Same bs' bs :=
  ⟨fun x => (h.cover_eq x).symm, h.total_eq.symm⟩

theorem Same.trans (h : Same bs bs') (h' : Same bs' bs'') : Same bs bs'' :=
  ⟨fun x => (h.cover_eq x).trans (h'.cover_eq x), h.total_eq.trans h'.total_eq⟩

theorem Same.of_perm (h : bs.Perm bs') : Same bs bs' :=
  ⟨fun _ => h.countP_eq _, (h.map Prod.snd).sum_eq⟩

theorem Same.cons (b : ℕ × ℕ) (h : Same bs bs') : Same (b :: bs) (b :: bs') := by
  refine ⟨fun x => ?_, ?_⟩
  · rw [cover_cons, cover_cons, h.cover_eq]
  · rw [total_cons, total_cons, h.total_eq]

theorem Same.append_right (cs : List (ℕ × ℕ)) (h : Same bs bs') : Same (bs ++ cs) (bs' ++ cs) := by
  refine ⟨fun x => ?_, ?_⟩
  · have hx := h.cover_eq x
    simp only [cover, List.countP_append] at hx ⊢
    rw [hx]
  · have ht := h.total_eq
    simp only [total, List.map_append, List.sum_append] at ht ⊢
    rw [ht]

/-- A block is its two parts. -/
theorem Same.split (a m n : ℕ) (bs : List (ℕ × ℕ)) :
    Same ((a, m + n) :: bs) ((a, m) :: (a + m, n) :: bs) := by
  refine ⟨fun x => ?_, ?_⟩
  · simp only [cover_cons]
    by_cases hl : a ≤ x ∧ x < a + m
    · rw [if_pos (by omega), if_pos hl, if_neg (by omega)]
    · by_cases hr : a + m ≤ x ∧ x < a + m + n
      · rw [if_pos (by omega), if_neg hl, if_pos (by omega)]
      · rw [if_neg (by omega), if_neg hl, if_neg (by omega)]
  · simp only [total_cons]
    omega

theorem Partition.same (h : Partition bs start len) (hsame : Same bs bs') :
    Partition bs' start len :=
  ⟨fun x => (hsame.cover_eq x).symm.trans (h.cover_eq x), hsame.total_eq.symm.trans h.total_eq⟩

theorem cover_le_one (h : Partition bs start len) (x : ℕ) : cover bs x ≤ 1 := by
  rw [h.cover_eq]
  split <;> omega

/-- Two blocks of a partition have no number in common. -/
theorem Partition.not_both (h : Partition (b :: bs) start len) (hc : c ∈ bs)
    (hb : b.1 ≤ x ∧ x < b.1 + b.2) : ¬ (c.1 ≤ x ∧ x < c.1 + c.2) := by
  intro hx
  have hle := cover_le_one h x
  have hpos : 0 < cover bs x := List.countP_pos_iff.mpr ⟨c, hc, decide_eq_true hx⟩
  rw [cover_cons, if_pos hb] at hle
  omega

theorem Partition.within (h : Partition bs start len) (hb : b ∈ bs) (hpos : 0 < b.2) :
    start ≤ b.1 ∧ b.1 + b.2 ≤ start + len := by
  have hin : ∀ x, b.1 ≤ x ∧ x < b.1 + b.2 → start ≤ x ∧ x < start + len := by
    intro x hx
    have hcover : 0 < cover bs x := List.countP_pos_iff.mpr ⟨b, hb, decide_eq_true hx⟩
    rw [h.cover_eq] at hcover
    split at hcover
    · assumption
    · omega
  have hfirst := hin b.1 (by omega)
  have hlast := hin (b.1 + b.2 - 1) (by omega)
  omega

theorem Partition.pairwise (h : Partition bs start len) :
    bs.Pairwise fun b c => ∀ x, ¬ ((b.1 ≤ x ∧ x < b.1 + b.2) ∧ c.1 ≤ x ∧ x < c.1 + c.2) := by
  have hle : ∀ x, cover bs x ≤ 1 := cover_le_one h
  clear h
  induction bs with
  | nil => exact .nil
  | cons b bs ih =>
    refine List.pairwise_cons.mpr ⟨?_, ih fun x => ?_⟩
    · rintro c hc x ⟨hb, hx⟩
      have hpos : 0 < cover bs x := List.countP_pos_iff.mpr ⟨c, hc, decide_eq_true hx⟩
      have hx' := hle x
      rw [cover_cons, if_pos hb] at hx'
      omega
    · have hx := hle x
      rw [cover_cons] at hx
      omega

/-- A number is in one block only. -/
theorem Partition.eq_of_mem (h : Partition bs start len) (hb : b ∈ bs) (hc : c ∈ bs)
    (hxb : b.1 ≤ x ∧ x < b.1 + b.2) (hxc : c.1 ≤ x ∧ x < c.1 + c.2) : b = c := by
  by_contra hne
  have hperm := List.perm_cons_erase hb
  have hc' : c ∈ bs.erase b := (List.mem_erase_of_ne fun heq => hne heq.symm).mpr hc
  exact (h.same (.of_perm hperm)).not_both hc' hxb hxc

/-- Every number of the range is in a block. -/
theorem Partition.exists_mem (h : Partition bs start len) (hx : start ≤ x ∧ x < start + len) :
    ∃ b ∈ bs, b.1 ≤ x ∧ x < b.1 + b.2 := by
  have hcover := h.cover_eq x
  rw [if_pos hx] at hcover
  obtain ⟨b, hb, hin⟩ := List.countP_pos_iff.mp (hcover ▸ Nat.one_pos : 0 < cover bs x)
  exact ⟨b, hb, by simpa using hin⟩

/-- What lies behind a block begins with a block. -/
theorem Partition.exists_next (h : Partition bs start len) (hb : b ∈ bs) (hpos : 0 < b.2)
    (hlt : b.1 + b.2 < start + len) : ∃ c ∈ bs, c.1 = b.1 + b.2 := by
  have hwithin := h.within hb hpos
  obtain ⟨c, hc, hle, hlt'⟩ := h.exists_mem (x := b.1 + b.2) (by omega)
  refine ⟨c, hc, ?_⟩
  by_contra hne
  have heq := h.eq_of_mem hb hc (x := b.1 + b.2 - 1) (by omega) (by omega)
  subst heq
  omega

/-- If no block begins where another one ends, there is only one. -/
theorem Partition.eq_singleton (h : Partition bs start len) (hlen : 0 < len)
    (hpos : ∀ b ∈ bs, 0 < b.2) (hapart : ∀ b ∈ bs, ∀ c ∈ bs, c.1 ≠ b.1 + b.2) :
    bs = [(start, len)] := by
  obtain ⟨b, hb, hle, hlt⟩ := h.exists_mem (x := start) (by omega)
  have hstop : ∀ c ∈ bs, start + len ≤ c.1 + c.2 := by
    intro c hc
    by_contra hlt'
    obtain ⟨d, hd, heq⟩ := h.exists_next hc (hpos c hc) (Nat.lt_of_not_le hlt')
    exact hapart c hc d hd heq
  have hall : ∀ c ∈ bs, c = b := by
    intro c hc
    have hwithin := h.within hc (hpos c hc)
    have hwithin' := h.within hb (hpos b hb)
    have := hpos c hc
    have := hstop c hc
    have := hstop b hb
    exact h.eq_of_mem hc hb (x := start + len - 1) (by omega) (by omega)
  have hbeq : b = (start, len) := by
    have hwithin := h.within hb (hpos b hb)
    have := hstop b hb
    exact Prod.ext (by simp only; omega) (by simp only; omega)
  have hrep := List.eq_replicate_of_mem hall
  have htotal := h.total_eq
  rw [hrep, total, List.map_replicate, List.sum_replicate_nat, hbeq] at htotal
  have hone : bs.length = 1 := Nat.eq_of_mul_eq_mul_right hlen (by rw [htotal, Nat.one_mul])
  rw [hrep, hone, hbeq]
  rfl

end Lamellar.Blocks
