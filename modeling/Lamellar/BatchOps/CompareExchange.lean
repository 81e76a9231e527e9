import Lamellar.Lib.MachineInt
import Mathlib.Data.List.Basic

/-!
# `compare_exchange_epsilon`: the code generated by `impl/src/array_ops.rs`

The operation on one element of an array of an integer type: the code for the arrays of native
atomics, a loop around `compare_exchange`, and the code for the others, which runs with the
element to itself. Both return a result with the value before and leave a value in the element.

Between two accesses of the loop the others write what they like. Its input is the list of the
values that its accesses find; a call that finds `found` and ends returns what is left of the list
too. Apart from its first access, the loop does what the last value that it finds asks for
(`retry_eq_some`).

The result is what the documentation says for small distances only, and where the code for native
atomics is handed the value it finds (`compareExchangeEpsilon_iff`): that code returns the new
value instead of the one before and does not look at `eps` then, the other one returns `old`.
-/

namespace Lamellar.BatchOps

open IntType

/-- A `Result<T, T>`, and the element after. -/
structure Outcome (ty : IntType) where
  result : Except ty.Value ty.Value
  element : ty.Value

variable {ty : IntType}

/-- What the documentation says: the new value is stored if the value `cur` of the element is
less than `eps` from `old`, and the previous value is returned. -/
def exchangeWithin (cur old new eps : ty.Value) : Outcome ty :=
  if absDiff cur old < eps.val then ⟨.ok cur, new⟩ else ⟨.error cur, cur⟩

theorem exchangeWithin_of_lt {cur old eps : ty.Value} (new : ty.Value)
    (h : absDiff cur old < eps.val) : exchangeWithin cur old new eps = ⟨.ok cur, new⟩ := if_pos h

theorem exchangeWithin_of_le {cur old eps : ty.Value} (new : ty.Value)
    (h : eps.val ≤ absDiff cur old) : exchangeWithin cur old new eps = ⟨.error cur, cur⟩ :=
  if_neg (Int.not_lt.mpr h)

/-- `compare_exchange`, where it finds `found`. -/
def compareExchange (found old new : ty.Value) : Outcome ty :=
  if found = old then ⟨.ok found, new⟩ else ⟨.error found, found⟩

/-! ## The code for native atomics -/

/-- `(orig.abs_diff(old) as T) < eps` -/
def near (orig old eps : ty.Value) : Bool := (ty.cast (absDiff orig old)).val < eps.val

/-- The loop, with the element as the last access left it. -/
def retry (old new eps : ty.Value) (found : List ty.Value) (orig : ty.Value) (done : Bool)
    (element : ty.Value) : Option (Outcome ty × List ty.Value) :=
  if near orig old eps && !done then
    match found with
    | [] => none
    | cur :: found =>
      match compareExchange cur orig new with
      | ⟨.ok oldVal, element⟩ => retry old new eps found oldVal true element
      | ⟨.error oldVal, element⟩ => retry old new eps found oldVal done element
  else some (⟨if done then .ok orig else .error orig, element⟩, found)

/-- The native code; none if the accesses find more values than there are. -/
def nativeCompareExchangeEpsilon (old new eps : ty.Value) :
    List ty.Value → Option (Outcome ty × List ty.Value)
  | [] => none
  | cur :: found =>
    match compareExchange cur old new with
    | ⟨.ok _, element⟩ => some (⟨.ok new, element⟩, found)
    | ⟨.error orig, element⟩ => retry old new eps found orig false element

/-- The generic code, or none where it panics. -/
def genericCompareExchangeEpsilon (build : Build) (cur old new eps : ty.Value) :
    Option (Outcome ty) := do
  let distance ← if cur.val < old.val then sub build old cur else sub build cur old
  return if distance.val < eps.val then ⟨.ok old, new⟩ else ⟨.error cur, cur⟩

/-! ### Runs of the loop -/

theorem compareExchange_self (cur new : ty.Value) :
    compareExchange cur cur new = ⟨.ok cur, new⟩ := if_pos rfl

theorem compareExchange_of_ne {found old : ty.Value} (new : ty.Value) (h : found ≠ old) :
    compareExchange found old new = ⟨.error found, found⟩ := if_neg h

/-- What the loop does with the value that its last access finds. -/
def attempt (old new eps cur : ty.Value) : Outcome ty :=
  if near cur old eps then ⟨.ok cur, new⟩ else ⟨.error cur, cur⟩

theorem retry_done (old new eps : ty.Value) (found : List ty.Value) (orig element : ty.Value) :
    retry old new eps found orig true element = some (⟨.ok orig, element⟩, found) := by
  unfold retry
  simp

theorem retry_of_not_near {old new eps orig : ty.Value} (h : near orig old eps = false)
    (found : List ty.Value) (element : ty.Value) :
    retry old new eps found orig false element = some (⟨.error orig, element⟩, found) := by
  unfold retry
  simp [h]

theorem retry_self {old eps orig : ty.Value} (new : ty.Value) (h : near orig old eps = true)
    (found : List ty.Value) (element : ty.Value) :
    retry old new eps (orig :: found) orig false element = some (⟨.ok orig, new⟩, found) := by
  unfold retry
  simp [h, compareExchange_self, retry_done]

theorem retry_of_ne {old eps orig cur : ty.Value} (new : ty.Value) (h : near orig old eps = true)
    (hne : cur ≠ orig) (found : List ty.Value) (element : ty.Value) :
    retry old new eps (cur :: found) orig false element =
      retry old new eps found cur false cur := by
  rw [retry]
  simp [h, compareExchange_of_ne new hne]

/-- The loop exchanges the value that it finds last, or leaves it. -/
theorem retry_eq_some {old new eps : ty.Value} {found : List ty.Value} {orig : ty.Value}
    {out : Outcome ty} (h : retry old new eps found orig false orig = some (out, [])) :
    out = attempt old new eps ((orig :: found).getLast (List.cons_ne_nil orig found)) := by
  induction found generalizing orig with
  | nil =>
    cases hnear : near orig old eps with
    | false =>
      rw [retry_of_not_near hnear] at h
      cases h
      simp [attempt, hnear]
    | true =>
      rw [retry] at h
      simp [hnear] at h
  | cons cur found ih =>
    rw [List.getLast_cons (List.cons_ne_nil cur found)]
    cases hnear : near orig old eps with
    | false =>
      rw [retry_of_not_near hnear] at h
      cases h
    | true =>
      by_cases heq : cur = orig
      · subst heq
        rw [retry_self new hnear] at h
        cases h
        simp [attempt, hnear]
      · rw [retry_of_ne new hnear heq] at h
        exact ih h

/-- A call that ends has taken the element at its first access, or it does what the value that it
finds last asks for. -/
theorem native_eq_some {old new eps cur : ty.Value} {found : List ty.Value} {out : Outcome ty}
    (h : nativeCompareExchangeEpsilon old new eps (found ++ [cur]) = some (out, [])) :
    cur = old ∧ out = ⟨.ok new, new⟩ ∨ out = attempt old new eps cur := by
  obtain ⟨first, rest, hcons⟩ := List.exists_cons_of_ne_nil (List.append_ne_nil_of_right_ne_nil
    found (List.cons_ne_nil cur []))
  have hlast : (first :: rest).getLast (List.cons_ne_nil first rest) = cur := by
    simp only [← hcons, List.getLast_append_singleton]
  rw [hcons, nativeCompareExchangeEpsilon] at h
  by_cases hfirst : first = old
  · subst hfirst
    rw [compareExchange_self] at h
    cases h
    exact .inl ⟨by simpa using hlast.symm, rfl⟩
  · rw [compareExchange_of_ne new hfirst] at h
    right
    rw [← hlast]
    exact retry_eq_some h

/-- Where nobody else writes, the loop ends at its first or second access. -/
theorem native_of_ne {cur old : ty.Value} (new eps : ty.Value) (h : cur ≠ old) :
    ∃ n, nativeCompareExchangeEpsilon old new eps (List.replicate n cur ++ [cur]) =
      some (attempt old new eps cur, []) := by
  cases hnear : near cur old eps with
  | false =>
    refine ⟨0, ?_⟩
    simp [nativeCompareExchangeEpsilon, compareExchange_of_ne new h, retry_of_not_near hnear,
      attempt, hnear]
  | true =>
    refine ⟨1, ?_⟩
    simp [nativeCompareExchangeEpsilon, compareExchange_of_ne new h, retry_self new hnear,
      attempt, hnear]

theorem native_self (old new eps : ty.Value) :
    nativeCompareExchangeEpsilon old new eps [old] = some (⟨.ok new, new⟩, []) := by
  rw [nativeCompareExchangeEpsilon, compareExchange_self]

/-! ## Where they do what the documentation says -/

theorem near_of_le {cur old eps : ty.Value} (h : absDiff cur old ≤ ty.max) :
    near cur old eps = decide (absDiff cur old < eps.val) := by
  rw [near, cast_absDiff_of_le h]

/-- A distance above `max` looks like one below zero. -/
theorem near_of_lt {cur old eps : ty.Value} (h : ty.max < absDiff cur old) :
    near cur old eps = decide (absDiff cur old - ty.modulus < eps.val) := by
  rw [near, cast_absDiff_of_lt h]

theorem attempt_of_le {cur old : ty.Value} (new eps : ty.Value)
    (h : absDiff cur old ≤ ty.max) :
    attempt old new eps cur = exchangeWithin cur old new eps := by
  simp only [attempt, near_of_le h, decide_eq_true_eq, exchangeWithin]

theorem attempt_eq_iff {cur old new eps : ty.Value} :
    attempt old new eps cur = exchangeWithin cur old new eps ↔
      absDiff cur old ≤ ty.max ∨ eps.val ≤ absDiff cur old - ty.modulus := by
  rcases lt_or_ge ty.max (absDiff cur old) with hlt | hle
  · have heps := eps.le_max
    rw [exchangeWithin_of_le new (by omega), attempt, near_of_lt hlt]
    by_cases hnear : absDiff cur old - ty.modulus < eps.val
    · simp [hnear, hlt]
    · simp [hnear, Int.not_lt.mp hnear]
  · exact iff_of_true (attempt_of_le new eps hle) (.inl hle)

theorem exchangeWithin_self_eq_iff {old new eps : ty.Value} :
    (⟨.ok new, new⟩ : Outcome ty) = exchangeWithin old old new eps ↔
      0 < eps.val ∧ new = old := by
  rcases lt_or_ge 0 eps.val with hlt | hle
  · rw [exchangeWithin_of_lt new (by rwa [absDiff_self])]
    simp [hlt]
  · rw [exchangeWithin_of_le new (by rwa [absDiff_self])]
    simp [Int.not_lt.mpr hle]

/-- The native code meets the documentation where nobody else writes, and whatever the others
write before its last access. -/
structure NativeMeets (cur old new eps : ty.Value) : Prop where
  ends : ∃ n, nativeCompareExchangeEpsilon old new eps (List.replicate n cur ++ [cur]) =
    some (exchangeWithin cur old new eps, [])
  outcome : ∀ found out, nativeCompareExchangeEpsilon old new eps (found ++ [cur]) =
    some (out, []) → out = exchangeWithin cur old new eps

theorem nativeMeets_self_iff {old new eps : ty.Value} :
    NativeMeets old old new eps ↔ 0 < eps.val ∧ new = old := by
  rw [← exchangeWithin_self_eq_iff]
  constructor
  · intro h
    exact h.outcome [] _ (native_self old new eps)
  · intro heq
    refine ⟨⟨0, ?_⟩, ?_⟩
    · rw [← heq]
      exact native_self old new eps
    · intro found out hout
      rcases native_eq_some hout with ⟨-, rfl⟩ | rfl
      · exact heq
      · exact attempt_of_le new eps (by
          rw [absDiff_self]
          exact ty.max_nonneg)

theorem nativeMeets_iff_of_ne {cur old new eps : ty.Value} (h : cur ≠ old) :
    NativeMeets cur old new eps ↔
      absDiff cur old ≤ ty.max ∨ eps.val ≤ absDiff cur old - ty.modulus := by
  rw [← @attempt_eq_iff ty cur old new eps]
  obtain ⟨n, hn⟩ := native_of_ne new eps h
  constructor
  · intro hmeets
    exact hmeets.outcome _ _ hn
  · intro heq
    refine ⟨⟨n, heq ▸ hn⟩, ?_⟩
    intro found out hout
    rcases native_eq_some hout with ⟨hself, -⟩ | rfl
    · exact absurd hself h
    · exact heq

theorem generic_of_le (build : Build) {cur old : ty.Value} (new eps : ty.Value)
    (h : absDiff cur old ≤ ty.max) :
    genericCompareExchangeEpsilon build cur old new eps =
      some (if absDiff cur old < eps.val then ⟨.ok old, new⟩ else ⟨.error cur, cur⟩) := by
  unfold genericCompareExchangeEpsilon
  by_cases hlt : cur.val < old.val
  · have hdiff : absDiff cur old = old.val - cur.val := by
      rw [absDiff_comm, absDiff_of_le (Int.le_of_lt hlt)]
    have hrange : ty.InRange (old.val - cur.val) :=
      (inRange_of_nonneg (by omega)).mpr (hdiff ▸ h)
    rw [if_pos hlt, sub_of_inRange build hrange, hdiff]
    rfl
  · have hdiff : absDiff cur old = cur.val - old.val := absDiff_of_le (Int.not_lt.mp hlt)
    have hrange : ty.InRange (cur.val - old.val) :=
      (inRange_of_nonneg (by omega)).mpr (hdiff ▸ h)
    rw [if_neg hlt, sub_of_inRange build hrange, hdiff]
    rfl

/-- The subtraction of two values further apart than `max` panics. -/
theorem checked_generic_of_lt {cur old : ty.Value} (new eps : ty.Value)
    (h : ty.max < absDiff cur old) :
    genericCompareExchangeEpsilon .checked cur old new eps = none := by
  unfold genericCompareExchangeEpsilon
  by_cases hlt : cur.val < old.val
  · rw [absDiff_comm, absDiff_of_le (Int.le_of_lt hlt)] at h
    rw [if_pos hlt, checked_sub_of_not (fun hrange => by
      have hmax := hrange.2
      omega)]
    rfl
  · rw [absDiff_of_le (Int.not_lt.mp hlt)] at h
    rw [if_neg hlt, checked_sub_of_not (fun hrange => by
      have hmax := hrange.2
      omega)]
    rfl

/-- The generic code does what the documentation says, without an overflow, if it hands out the
value before because that is the one it was given, or because it leaves the element. -/
theorem generic_iff {cur old new eps : ty.Value} :
    (∀ build, genericCompareExchangeEpsilon build cur old new eps =
        some (exchangeWithin cur old new eps)) ↔
      absDiff cur old ≤ ty.max ∧ (cur = old ∨ eps.val ≤ absDiff cur old) := by
  rcases lt_or_ge ty.max (absDiff cur old) with hlt | hle
  · refine iff_of_false ?_ (fun h => Int.not_lt.mpr h.1 hlt)
    intro h
    have hchecked := h .checked
    rw [checked_generic_of_lt new eps hlt] at hchecked
    cases hchecked
  · have hbuilds : Nonempty Build := ⟨.checked⟩
    simp only [generic_of_le _ new eps hle, forall_const, Option.some.injEq]
    rcases lt_or_ge (absDiff cur old) eps.val with hnear | hfar
    · rw [if_pos hnear, exchangeWithin_of_lt new hnear]
      simp [hle, Int.not_le.mpr hnear, eq_comm]
    · rw [if_neg (Int.not_lt.mpr hfar), exchangeWithin_of_le new hfar]
      simp [hle, hfar]

/-- Both codes do what the documentation says, in every build. -/
structure Meets (cur old new eps : ty.Value) : Prop where
  native : NativeMeets cur old new eps
  generic : ∀ build, genericCompareExchangeEpsilon build cur old new eps =
    some (exchangeWithin cur old new eps)

theorem compareExchangeEpsilon_iff (cur old new eps : ty.Value) :
    Meets cur old new eps ↔
      cur = old ∧ new = old ∧ 0 < eps.val ∨
        cur ≠ old ∧ absDiff cur old ≤ ty.max ∧ eps.val ≤ absDiff cur old := by
  have hmeets : Meets cur old new eps ↔ NativeMeets cur old new eps ∧
      ∀ build, genericCompareExchangeEpsilon build cur old new eps =
        some (exchangeWithin cur old new eps) :=
    ⟨fun h => ⟨h.native, h.generic⟩, fun h => ⟨h.1, h.2⟩⟩
  rw [hmeets, generic_iff]
  by_cases heq : cur = old
  · subst heq
    rw [nativeMeets_self_iff, absDiff_self]
    have hmax := ty.max_nonneg
    simp [hmax, and_comm]
  · rw [nativeMeets_iff_of_ne heq]
    simp only [heq, false_and, false_or, ne_eq, not_false_eq_true, true_and]
    exact ⟨fun h => h.2, fun h => ⟨.inl h.1, h⟩⟩

/-- The native code is given the value in the element, 5, and returns the new value. -/
theorem new_returned : ¬ ∀ (ty : IntType) (cur old new eps : ty.Value), Meets cur old new eps := by
  intro h
  have hmeets := h ⟨8, false, by decide⟩ ⟨5, by decide⟩ ⟨5, by decide⟩ ⟨7, by decide⟩
    ⟨1, by decide⟩
  have hout := hmeets.native.outcome [] _ (native_self _ _ _)
  exact absurd hout (by simp [exchangeWithin, absDiff])

end Lamellar.BatchOps
