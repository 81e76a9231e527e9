import Mathlib.Data.List.Perm.Basic
import Mathlib.Algebra.Ring.Nat

/-!
# Folding without a start value

`reduce` folds a list from its first element on. For an associative operation it can be split
anywhere (`reduce_append`), and for a commutative one the order does not matter (`reduce_perm`).
-/

namespace Lamellar.Reduction

variable {α : Type} {op : α → α → α} {l l' : List α}

/-- `Iterator::reduce` -/
def reduce (op : α → α → α) : List α → Option α
  | [] => none
  | x :: xs => some (xs.foldl op x)

theorem reduce_eq_none_iff : reduce op l = none ↔ l = [] := by cases l <;> simp [reduce]

theorem reduce_append [Std.Associative op] (hl : l ≠ []) (hl' : l' ≠ []) :
    reduce op (l ++ l') = (reduce op l).bind fun x => (reduce op l').map fun y => op x y := by
  cases l with
  | nil => exact absurd rfl hl
  | cons x xs =>
    cases l' with
    | nil => exact absurd rfl hl'
    | cons y ys =>
      simp only [reduce, List.cons_append, List.foldl_append, List.foldl_cons, Option.bind_some,
        Option.map_some, List.foldl_assoc]

theorem reduce_perm [Std.Associative op] [Std.Commutative op] (h : l.Perm l') :
    reduce op l = reduce op l' := by
  induction h with
  | nil => rfl
  | cons x h => exact congrArg some (List.Perm.foldl_op_eq h)
  | swap x y l => simp only [reduce, List.foldl_cons, Std.Commutative.comm x y]
  | trans _ _ ih ih' => exact ih.trans ih'

end Lamellar.Reduction
