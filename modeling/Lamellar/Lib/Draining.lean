import Mathlib.Data.List.Basic
import Mathlib.Algebra.Ring.Nat

/-!
# Iterators run to their end

An iterator is a state with a `next`, which hands out an item or ends, and leaves the state
it goes on from. `Drains next room s l` says that from `s` on it hands out exactly the items
`l` and then ends; `room` bounds how many items can still come, so that a loop over an
iterator can be run with that many turns. Two loops are common to adaptors: passing over
items that a function drops (`nextSome`), and searching the first index that passes a test
(`scan`). A run over `[0, n)` may be cut into consecutive ranges (`rangesFrom`).
-/

namespace Lamellar.Draining

variable {σ σ' α β : Type}

inductive Drains (next : σ → Option α × σ) (room : σ → ℕ) : σ → List α → Prop where
  | done {s : σ} : (next s).1 = none → Drains next room s []
  | item {s s' : σ} {a : α} {l : List α} : next s = (some a, s') → l.length < room s →
      Drains next room s' l → Drains next room s (a :: l)

variable {next : σ → Option α × σ} {room : σ → ℕ} {next' : σ' → Option β × σ'} {room' : σ' → ℕ}

theorem Drains.length_le {s : σ} {l : List α} (h : Drains next room s l) : l.length ≤ room s := by
  cases h with
  | done _ => exact Nat.zero_le _
  | item _ hroom _ => exact hroom

theorem Drains.unique {s : σ} {l l' : List α} (h : Drains next room s l)
    (h' : Drains next room s l') : l = l' := by
  induction h generalizing l' with
  | done hnone =>
    cases h' with
    | done _ => rfl
    | item hsome _ _ =>
      rw [hsome] at hnone
      cases hnone
  | item hsome _ _ ih =>
    cases h' with
    | done hnone =>
      rw [hsome] at hnone
      cases hnone
    | item hsome' _ hrest =>
      rw [hsome] at hsome'
      cases hsome'
      rw [ih hrest]

theorem Drains.fst_eq {s : σ} {l : List α} (h : Drains next room s l) : (next s).1 = l.head? := by
  cases h with
  | done hnone => exact hnone
  | item hnext _ _ => rw [hnext, List.head?_cons]

/-- All the items, within `fuel` turns. -/
def drain (next : σ → Option α × σ) : ℕ → σ → List α
  | 0, _ => []
  | fuel + 1, s =>
    match next s with
    | (some a, s') => a :: drain next fuel s'
    | (none, _) => []

theorem Drains.drain_eq {s : σ} {l : List α} (h : Drains next room s l) {fuel : ℕ}
    (hfuel : l.length ≤ fuel) : drain next fuel s = l := by
  induction h generalizing fuel with
  | @done s hnone =>
    cases fuel with
    | zero => rfl
    | succ fuel =>
      rcases hnext : next s with ⟨x, s'⟩
      rw [hnext] at hnone
      cases hnone
      simp only [drain, hnext]
  | @item s s' a l hsome _ _ ih =>
    obtain ⟨fuel, rfl⟩ : ∃ k, fuel = k + 1 :=
      ⟨fuel - 1, by rw [List.length_cons] at hfuel; omega⟩
    simp only [drain, hsome, ih (Nat.le_of_succ_le_succ hfuel)]

/-- An iterator whose room shrinks with every item ends. -/
theorem exists_drains (hroom : ∀ s a s', next s = (some a, s') → room s' < room s) (s : σ) :
    ∃ l, Drains next room s l := by
  induction hn : room s using Nat.strongRecOn generalizing s with
  | ind n ih =>
    subst hn
    rcases hnext : next s with ⟨_ | a, s'⟩
    · exact ⟨[], .done (by rw [hnext])⟩
    · have hlt := hroom s a s' hnext
      obtain ⟨l, hl⟩ := ih _ hlt s' rfl
      exact ⟨a :: l, .item hnext (Nat.lt_of_le_of_lt hl.length_le hlt) hl⟩

/-- `p` holds of every state that a loop over `next` takes a turn in, up to the turn whose outcome
ends it. -/
def along (next : σ → Option α × σ) (ends : Option α → Bool) (p : σ → Bool) : ℕ → σ → Bool
  | 0, s => p s
  | fuel + 1, s => p s && (ends (next s).1 || along next ends p fuel (next s).2)

/-- What `next` keeps as long as it hands out items holds up to the end. -/
theorem along_of_invariant {p : σ → Bool} (I : σ → Prop) (hp : ∀ s, I s → p s)
    (hnext : ∀ s a s', I s → next s = (some a, s') → I s') (fuel : ℕ) {s : σ} (hs : I s) :
    along next Option.isNone p fuel s := by
  induction fuel generalizing s with
  | zero => exact hp s hs
  | succ fuel ih =>
    rw [along, hp s hs, Bool.true_and]
    rcases hstep : next s with ⟨_ | a, s'⟩
    · rfl
    · exact (Bool.false_or _).trans (ih (hnext s a s' hs hstep))

/-! ## Items passed over -/

/-- The next item that `f` does not drop, within `fuel` turns. -/
def nextSome (next : σ → Option α × σ) (f : α → Option β) : ℕ → σ → Option β × σ
  | 0, s => (none, s)
  | fuel + 1, s =>
    match next s with
    | (none, s') => (none, s')
    | (some a, s') =>
      match f a with
      | some b => (some b, s')
      | none => nextSome next f fuel s'

theorem Drains.nextSome {s : σ} {l : List α} (h : Drains next room s l) (f : α → Option β)
    {fuel : ℕ} (hfuel : l.length ≤ fuel) :
    (l.filterMap f = [] ∧ (nextSome next f fuel s).1 = none) ∨
      ∃ b s' l', nextSome next f fuel s = (some b, s') ∧ Drains next room s' l' ∧
        l.filterMap f = b :: l'.filterMap f ∧ l'.length < l.length := by
  induction h generalizing fuel with
  | @done s hnone =>
    left
    refine ⟨rfl, ?_⟩
    cases fuel with
    | zero => rfl
    | succ fuel =>
      rcases hnext : next s with ⟨x, s'⟩
      rw [hnext] at hnone
      cases hnone
      simp only [Draining.nextSome, hnext]
  | @item s s' a l hsome _ hrest ih =>
    obtain ⟨fuel, rfl⟩ : ∃ k, fuel = k + 1 :=
      ⟨fuel - 1, by rw [List.length_cons] at hfuel; omega⟩
    have hle : l.length ≤ fuel := Nat.le_of_succ_le_succ hfuel
    cases hf : f a with
    | some b =>
      right
      refine ⟨b, s', l, ?_, hrest, List.filterMap_cons_some hf, Nat.lt_succ_self _⟩
      simp only [Draining.nextSome, hsome, hf]
    | none =>
      have hturn : Draining.nextSome next f (fuel + 1) s = Draining.nextSome next f fuel s' := by
        simp only [Draining.nextSome, hsome, hf]
      rw [List.filterMap_cons_none hf, hturn]
      rcases ih hle with hend | ⟨b, s'', l', hnext, hdrains, heq, hlt⟩
      · exact Or.inl hend
      · exact Or.inr ⟨b, s'', l', hnext, hdrains, heq, Nat.lt_succ_of_lt hlt⟩

/-- What `next` keeps is kept while items are passed over. -/
theorem nextSome_invariant {P : σ → Prop} (hstep : ∀ s, P s → P (next s).2) (f : α → Option β)
    (fuel : ℕ) {s : σ} (hs : P s) : P (nextSome next f fuel s).2 := by
  induction fuel generalizing s with
  | zero => exact hs
  | succ fuel ih =>
    have hnext := hstep s hs
    rcases hcase : next s with ⟨_ | a, s'⟩
    · rw [hcase] at hnext
      simpa only [Draining.nextSome, hcase] using hnext
    · rw [hcase] at hnext
      cases hf : f a with
      | some b => simpa only [Draining.nextSome, hcase, hf] using hnext
      | none => simpa only [Draining.nextSome, hcase, hf] using ih hnext

theorem nextSome_room (hroom : ∀ s a s', next s = (some a, s') → room s' < room s)
    (f : α → Option β) {fuel : ℕ} {s s' : σ} {b : β} (h : nextSome next f fuel s = (some b, s')) :
    room s' < room s := by
  induction fuel generalizing s with
  | zero => cases h
  | succ fuel ih =>
    rcases hcase : next s with ⟨_ | a, s₁⟩
    · simp only [Draining.nextSome, hcase, Prod.mk.injEq, reduceCtorEq, false_and] at h
    · have hlt := hroom s a s₁ hcase
      cases hf : f a with
      | some b' =>
        simp only [Draining.nextSome, hcase, hf, Prod.mk.injEq] at h
        rw [← h.2]
        exact hlt
      | none =>
        simp only [Draining.nextSome, hcase, hf] at h
        exact Nat.lt_trans (ih h) hlt

/-- An adaptor that passes over the items that `f` drops. -/
theorem Drains.filterMap {s : σ} {l : List α} (h : Drains next room s l) (f : α → Option β)
    (wrap : σ → σ') (hroom : ∀ s, room' (wrap s) = room s)
    (hnext : ∀ s, next' (wrap s) = Prod.map id wrap (Draining.nextSome next f (room s) s)) :
    Drains next' room' (wrap s) (l.filterMap f) := by
  induction hn : l.length using Nat.strongRecOn generalizing s l with
  | ind n ih =>
    subst hn
    rcases h.nextSome f h.length_le with ⟨heq, hnone⟩ | ⟨b, s', l', hsome, hrest, heq, hlt⟩
    · rw [heq]
      apply Drains.done
      rw [hnext]
      exact hnone
    · rw [heq]
      have hitem : next' (wrap s) = (some b, wrap s') := by
        rw [hnext, hsome]
        rfl
      refine Drains.item hitem ?_ (ih _ hlt hrest rfl)
      · rw [hroom]
        exact Nat.lt_of_le_of_lt (List.length_filterMap_le f l')
          (Nat.lt_of_lt_of_le hlt h.length_le)

/-- An adaptor that maps every item. -/
theorem Drains.map {s : σ} {l : List α} (h : Drains next room s l) (f : α → β) (wrap : σ → σ')
    (hroom : ∀ s, room' (wrap s) = room s)
    (hnext : ∀ s, next' (wrap s) = Prod.map (Option.map f) wrap (next s)) :
    Drains next' room' (wrap s) (l.map f) := by
  induction h with
  | done hnone =>
    apply Drains.done
    rw [hnext, Prod.map_fst, hnone]
    rfl
  | @item s s' a l hsome hlt _ ih =>
    have hitem : next' (wrap s) = (some (f a), wrap s') := by
      rw [hnext, hsome]
      rfl
    refine Drains.item hitem ?_ ih
    · rw [hroom, List.length_map]
      exact hlt

/-! ## Searching an index -/

/-- From `i` on, the first index without a value (`false`) or whose value passes the test
(`true`), within `fuel` turns. -/
def scan (f : ℕ → Option ℕ) (stop : ℕ → Bool) : ℕ → ℕ → ℕ × Bool
  | 0, i => (i, false)
  | fuel + 1, i =>
    match f i with
    | none => (i, false)
    | some x => if stop x then (i, true) else scan f stop fuel (i + 1)

theorem scan_found {f : ℕ → Option ℕ} {stop : ℕ → Bool} {i x : ℕ} (fuel : ℕ) (hx : f i = some x)
    (hstop : stop x = true) : scan f stop (fuel + 1) i = (i, true) := by
  simp only [scan, hx, hstop, if_true]

/-- The indices the search went past have a value that fails the test. -/
theorem scan_spec (f : ℕ → Option ℕ) (stop : ℕ → Bool) (fuel i : ℕ) (hend : f (i + fuel) = none) :
    ∃ k, (∀ t < k, ∃ x, f (i + t) = some x ∧ stop x = false) ∧
      ((scan f stop fuel i = (i + k, true) ∧ ∃ x, f (i + k) = some x ∧ stop x = true) ∨
        (scan f stop fuel i = (i + k, false) ∧ f (i + k) = none)) := by
  induction fuel generalizing i with
  | zero => exact ⟨0, fun t ht => absurd ht (Nat.not_lt_zero t), Or.inr ⟨rfl, hend⟩⟩
  | succ fuel ih =>
    cases hf : f i with
    | none =>
      refine ⟨0, fun t ht => absurd ht (Nat.not_lt_zero t), Or.inr ⟨?_, hf⟩⟩
      simp only [scan, hf, Nat.add_zero]
    | some x =>
      cases hx : stop x with
      | true =>
        refine ⟨0, fun t ht => absurd ht (Nat.not_lt_zero t), Or.inl ⟨?_, x, hf, hx⟩⟩
        simp only [scan, hf, hx, if_true, Nat.add_zero]
      | false =>
        have hturn : scan f stop (fuel + 1) i = scan f stop fuel (i + 1) := by
          simp only [scan, hf, hx, Bool.false_eq_true, if_false]
        obtain ⟨k, hpast, hlast⟩ := ih (i + 1) (by rw [← hend]; congr 1; omega)
        rw [hturn]
        refine ⟨k + 1, ?_, ?_⟩
        · intro t ht
          cases t with
          | zero => exact ⟨x, hf, hx⟩
          | succ t =>
            rw [show i + (t + 1) = i + 1 + t by omega]
            exact hpast t (by omega)
        · rw [show i + (k + 1) = i + 1 + k by omega]
          exact hlast

/-! ## Consecutive ranges -/

/-- The consecutive ranges `(start, count)` of the given lengths from `i` on. -/
def rangesFrom (i : ℕ) : List ℕ → List (ℕ × ℕ)
  | [] => []
  | c :: cs => (i, c) :: rangesFrom (i + c) cs

/-- What depends on the indices alone may be collected range by range. -/
theorem flatMap_rangesFrom (f : ℕ → Option β) (i : ℕ) (cs : List ℕ) :
    ((rangesFrom i cs).flatMap fun r => (List.range' r.1 r.2).filterMap f) =
      (List.range' i cs.sum).filterMap f := by
  induction cs generalizing i with
  | nil => rfl
  | cons c cs ih =>
    rw [rangesFrom, List.flatMap_cons, ih, ← List.filterMap_append, List.sum_cons]
    congr 1
    have happend := @List.range'_append_1 i c cs.sum
    exact happend

/-- The pieces of a list that the ranges cut it into. -/
theorem flatMap_rangesFrom_take (l : List α) (i : ℕ) (cs : List ℕ) :
    ((rangesFrom i cs).flatMap fun r => (l.drop r.1).take r.2) = (l.drop i).take cs.sum := by
  induction cs generalizing i with
  | nil => rw [List.sum_nil, List.take_zero]; rfl
  | cons c cs ih =>
    rw [rangesFrom, List.flatMap_cons, ih, List.sum_cons, List.take_add, List.drop_drop]

theorem rangesFrom_le {i : ℕ} {cs : List ℕ} {r : ℕ × ℕ} (hr : r ∈ rangesFrom i cs) :
    i ≤ r.1 ∧ r.1 + r.2 ≤ i + cs.sum := by
  induction cs generalizing i with
  | nil => cases hr
  | cons c cs ih =>
    rw [List.sum_cons]
    rcases List.mem_cons.mp hr with rfl | hr
    · exact ⟨Nat.le_refl _, by dsimp only; omega⟩
    · have hle := ih hr
      omega

theorem exists_mem_rangesFrom {i t : ℕ} {cs : List ℕ} (hi : i ≤ t) (ht : t < i + cs.sum) :
    ∃ r ∈ rangesFrom i cs, r.1 ≤ t ∧ t < r.1 + r.2 := by
  induction cs generalizing i with
  | nil =>
    rw [List.sum_nil] at ht
    omega
  | cons c cs ih =>
    rw [List.sum_cons] at ht
    by_cases hlt : t < i + c
    · exact ⟨(i, c), List.mem_cons_self, hi, hlt⟩
    · obtain ⟨r, hr, hin⟩ := ih (i := i + c) (by omega) (by omega)
      exact ⟨r, List.mem_cons_of_mem _ hr, hin⟩

/-- Ranges in steps of `s`. -/
theorem flatMap_rangesFrom_mul (f : ℕ → Option β) (s : ℕ) (cs : List ℕ) :
    ((rangesFrom 0 cs).flatMap fun r => (List.range' (r.1 * s) (r.2 * s)).filterMap f) =
      (List.range (cs.sum * s)).filterMap f := by
  have hscale (i : ℕ) : rangesFrom (i * s) (cs.map (· * s)) =
      (rangesFrom i cs).map (Prod.map (· * s) (· * s)) := by
    induction cs generalizing i with
    | nil => rfl
    | cons c cs ih =>
      rw [List.map_cons, rangesFrom, rangesFrom, List.map_cons, ← Nat.add_mul, ih]
      rfl
  have hsum : (cs.map (· * s)).sum = cs.sum * s := by
    clear hscale
    induction cs with
    | nil => exact (Nat.zero_mul s).symm
    | cons c cs ih => rw [List.map_cons, List.sum_cons, List.sum_cons, Nat.add_mul, ih]
  have hflat := flatMap_rangesFrom f (0 * s) (cs.map (· * s))
  rw [hscale, List.flatMap_map, hsum, Nat.zero_mul, ← List.range_eq_range'] at hflat
  exact hflat

/-- A point lies in one range only. -/
theorem rangesFrom_unique {i t : ℕ} {cs : List ℕ} {r r' : ℕ × ℕ} (hr : r ∈ rangesFrom i cs)
    (hr' : r' ∈ rangesFrom i cs) (ht : r.1 ≤ t ∧ t < r.1 + r.2) (ht' : r'.1 ≤ t ∧ t < r'.1 + r'.2) :
    r = r' := by
  induction cs generalizing i with
  | nil => cases hr
  | cons c cs ih =>
    rcases List.mem_cons.mp hr with rfl | hr
    · rcases List.mem_cons.mp hr' with rfl | hr'
      · rfl
      · have := rangesFrom_le hr'
        dsimp only at ht
        omega
    · rcases List.mem_cons.mp hr' with rfl | hr'
      · have := rangesFrom_le hr
        dsimp only at ht'
        omega
      · exact ih hr hr'

theorem filterMap_range'_eq_nil {f : ℕ → Option β} {s n : ℕ}
    (h : ∀ j, s ≤ j → j < s + n → f j = none) : (List.range' s n).filterMap f = [] := by
  rw [List.filterMap_eq_nil_iff]
  intro j hj
  obtain ⟨hge, hlt⟩ := List.mem_range'_1.mp hj
  exact h j hge hlt

/-- Positions that give nothing may be left out at both ends of a range. -/
theorem filterMap_range'_window {f : ℕ → Option β} {s n p m : ℕ} (hs : s ≤ p)
    (hm : p + m ≤ s + n) (hbefore : ∀ j, s ≤ j → j < p → f j = none)
    (hafter : ∀ j, p + m ≤ j → j < s + n → f j = none) :
    (List.range' s n).filterMap f = (List.range' p m).filterMap f := by
  obtain ⟨a, rfl⟩ := Nat.exists_eq_add_of_le hs
  obtain ⟨b, rfl⟩ : ∃ b, n = a + (m + b) := ⟨n - a - m, by omega⟩
  rw [← List.range'_append_1, ← List.range'_append_1, List.filterMap_append,
    List.filterMap_append, filterMap_range'_eq_nil hbefore,
    filterMap_range'_eq_nil fun j hge hlt => hafter j hge (by omega), List.append_nil,
    List.nil_append]

/-- An iterator that goes on by `s` positions after every item, from position `p` up to `e`. -/
theorem drains_steps (item : ℕ → Option α) (P : ℕ → σ → Prop) {p s e : ℕ} (hs : 0 < s)
    (hsome : ∀ i st, P i st → p + i * s < e →
      ∃ st' x, item (p + i * s) = some x ∧ next st = (some x, st') ∧ P (i + 1) st')
    (hnone : ∀ i st, P i st → e ≤ p + i * s → (next st).1 = none)
    (hroom : ∀ i st, P i st → e ≤ room st) {i n : ℕ} {st : σ} (hn : e - (p + i * s) = n)
    (hst : P i st) :
    Drains next room st ((List.range' (p + i * s) n).filterMap
      fun j => if s ∣ j - p then item j else none) := by
  induction n using Nat.strongRecOn generalizing i st with
  | ind n ih =>
    by_cases hlt : p + i * s < e
    · obtain ⟨st', x, hx, hnext, hst'⟩ := hsome i st hst hlt
      obtain ⟨m, rfl⟩ : ∃ m, n = m + 1 := ⟨n - 1, by omega⟩
      have hmul : (i + 1) * s = i * s + s := Nat.succ_mul i s
      have hfirst : (if s ∣ p + i * s - p then item (p + i * s) else none) = some x := by
        rw [Nat.add_sub_cancel_left, if_pos (Nat.dvd_mul_left s i), hx]
      have hskip (j : ℕ) (hge : p + i * s + 1 ≤ j) (hlt : j < p + (i + 1) * s) :
          (if s ∣ j - p then item j else none) = none := by
        rw [if_neg]
        rintro ⟨k, hk⟩
        rw [Nat.mul_comm] at hk
        have hlow : i * s < k * s := by omega
        have hhigh : k * s < (i + 1) * s := by omega
        have h₁ := Nat.lt_of_mul_lt_mul_right hlow
        have h₂ := Nat.lt_of_mul_lt_mul_right hhigh
        omega
      rw [List.range'_succ, List.filterMap_cons_some (f := fun j => if s ∣ j - p then item j
        else none) hfirst]
      refine .item hnext ?_ ?_
      · have hlength := List.length_filterMap_le (fun j => if s ∣ j - p then item j else none)
          (List.range' (p + i * s + 1) m)
        rw [List.length_range'] at hlength
        have hle := hroom i st hst
        omega
      · have hrest := ih (m + 1 - s) (by omega) (by omega) hst'
        by_cases hfit : s ≤ m + 1
        · rw [filterMap_range'_window (p := p + (i + 1) * s) (m := m + 1 - s) (by omega) (by omega)
            hskip fun j hge hend => absurd hend (by omega)]
          exact hrest
        · rw [filterMap_range'_eq_nil fun j hge hend => hskip j hge (by omega)]
          rw [show m + 1 - s = 0 by omega] at hrest
          exact hrest
    · rw [show n = 0 by omega]
      exact .done (hnone i st hst (by omega))

/-- An iterator over the positions of a list: `Ready s p e` says that `p` is next and that the
positions from `e` on are not part of the range. -/
theorem drains_ready (items : List α) {Ready : σ → ℕ → ℕ → Prop}
    (hle : ∀ s p e, Ready s p e → p ≤ e)
    (hsome : ∀ s p e, Ready s p e → p < e → p < items.length →
      ∃ x s', items[p]? = some x ∧ next s = (some x, s') ∧ Ready s' (p + 1) e)
    (hnone : ∀ s e, Ready s e e → (next s).1 = none)
    (hroom : ∀ s x s', next s = (some x, s') → room s' < room s) {s : σ} {p e m : ℕ}
    (hm : e - p = m) (hs : Ready s p e)
    (hend : (∀ s p, Ready s p e → items.length ≤ p → (next s).1 = none) ∨ e ≤ items.length) :
    Drains next room s ((items.drop p).take m) := by
  induction m generalizing s p with
  | zero =>
    have hpe := hle s p e hs
    obtain rfl : p = e := by omega
    exact .done (hnone s p hs)
  | succ m ih =>
    by_cases hp : p < items.length
    · obtain ⟨x, s', hx, hnext, hs'⟩ := hsome s p e hs (by omega) hp
      rw [List.drop_eq_getElem_cons hp, List.take_succ_cons]
      rw [List.getElem?_eq_getElem hp, Option.some.injEq] at hx
      rw [hx]
      have hrest := ih (by omega) hs'
      exact .item hnext (Nat.lt_of_le_of_lt hrest.length_le (hroom s x s' hnext)) hrest
    · rw [List.drop_of_length_le (by omega), List.take_nil]
      rcases hend with hpast | hpe
      · exact .done (hpast s p hs (by omega))
      · omega

/-- Every `s`-th value, and the values at the multiples of `s`. -/
theorem filterMap_range_mul {f : ℕ → Option β} {s : ℕ} (hs : 0 < s) (n : ℕ) :
    (List.range n).filterMap (fun k => f (k * s)) =
      (List.range (n * s)).filterMap fun i => if s ∣ i then f i else none := by
  induction n with
  | zero => rw [Nat.zero_mul]; rfl
  | succ n ih =>
    have hrest : (List.range' (n * s) s).filterMap (fun i => if s ∣ i then f i else none) =
        [n * s].filterMap f := by
      rw [filterMap_range'_window (p := n * s) (m := 1) (Nat.le_refl _) (by omega)
        (fun j hge hlt => absurd hlt (by omega))]
      · rw [List.range'_one, List.filterMap_cons, List.filterMap_cons,
          if_pos (Nat.dvd_mul_left s n)]
        rfl
      · intro j hge hlt
        rw [if_neg]
        rintro ⟨k, rfl⟩
        rw [Nat.mul_comm s k] at hge hlt
        have h₁ : n < k := Nat.lt_of_mul_lt_mul_right (show n * s < k * s by omega)
        have h₂ : k < n + 1 :=
          Nat.lt_of_mul_lt_mul_right (show k * s < (n + 1) * s by rw [Nat.succ_mul]; omega)
        omega
    rw [List.range_succ, List.filterMap_append, ih, Nat.succ_mul, List.range_add,
      List.filterMap_append, ← List.range'_eq_map_range, hrest]
    rfl

/-! ## Iterators that may fail -/

/-- All the items of an iterator whose `next` may fail, within `fuel` turns. -/
def collect (next : σ → Option (Option α × σ)) : ℕ → σ → Option (List α)
  | 0, _ => none
  | fuel + 1, s =>
    match next s with
    | none => none
    | some (none, _) => some []
    | some (some a, s') => (collect next fuel s').map (a :: ·)

/-- An iterator that gets the items with numbers from `i` to `n` -/
theorem collect_count {next : σ → Option (Option α × σ)} {pos : ℕ → σ} {get : ℕ → Option α}
    {n : ℕ} (hitem : ∀ i < n, next (pos i) = (get i).map fun a => (some a, pos (i + 1)))
    (hend : next (pos n) = some (none, pos n)) {i : ℕ} (hi : i ≤ n) {fuel : ℕ}
    (hfuel : n - i < fuel) :
    collect next fuel (pos i) = (List.range' i (n - i)).mapM get := by
  induction fuel generalizing i with
  | zero => omega
  | succ fuel ih =>
    rw [collect]
    rcases Nat.lt_or_ge i n with hlt | hge
    · have hlen : n - i = (n - (i + 1)) + 1 := by omega
      rw [hitem i hlt, hlen, List.range'_succ, List.mapM_cons]
      cases get i with
      | none => rfl
      | some a =>
        simp only [Option.map_some, ih (i := i + 1) hlt (by omega)]
        cases (List.range' (i + 1) (n - (i + 1))).mapM get <;> rfl
    · obtain rfl : i = n := Nat.le_antisymm hi hge
      simp [hend]

end Lamellar.Draining
