import Lamellar.OneSidedIterator.Tours

/-!
# What the iterators that read from the array serve

The iterator of an array and `chunks` are the two that get elements from the array. The first
serves what it comes to on a tour exactly if the places on the way are good ones (`Walks`,
`Stands.serves`); `chunks` always serves the chunks of the array (`serves_chunks`), whatever the
iterator below it is.
-/

namespace Lamellar.OneSidedIterator

open StandardIter Folds

variable {T : Type}

/-! ## The array -/

/-- From place to place with the jumps `each` after every item: each item is read inside the
buffer and is still there after the jumps. For the last call, it is enough that it goes
through. -/
def Walks (array : InternalGet T) (b : ℕ) (each : List ℕ) (last : Option (List ℕ)) :
    ℕ → Place → Prop
  | 0, p => ∀ jumps ∈ last, p.index < array.len → (p.visit array.len b jumps).isSome
  | rounds + 1, p => ∃ p', p.visit array.len b each = some p' ∧
      array.elems[p'.held]? = array.elems[p.index]? ∧ Walks array b each last rounds p'

/-- A tour on the iterator of an array with a buffer of `b` -/
def BufferFits (array : InternalGet T) (b : ℕ) (t : Tour) : Prop :=
  (array.internalGet 0 b).isSome ∧ ∃ p, Place.first.jumps array.len b t.first = some p ∧
    Walks array b t.each t.last t.rounds p

section Buffer

variable {array : InternalGet T} {b : ℕ} {item : Prop} {it : OneSidedIter T} {p : Place}

/-- What a call that hands out an item does to the place -/
theorem Stands.call_item (h : Stands array b item it p) (hp : p.index < array.len)
    (jumps : List ℕ) :
    Option.Rel (fun r p' => r.1 = some (.slot p'.slot) ∧
        ∃ it', r.2 = .oneSided it' ∧ Stands array b True it' p')
      ((Iter.oneSided it).call jumps) (p.visit array.len b jumps) := by
  simp only [Iter.call, Iter.next, Place.visit]
  split_ifs with hin
  · obtain ⟨it₁, hnext, h₁⟩ := h.next_item hp hin
    have hjumps := h₁.jumps jumps
    simp only [hnext, Option.bind_eq_bind, Option.bind_some, Option.map_some,
      Iter.advances_oneSided]
    generalize hr : jumps.foldlM OneSidedIter.advanceIndex it₁ = r at hjumps
    generalize hp' : (p.read b).jumps array.len b jumps = p' at hjumps
    cases hjumps with
    | none => exact .none
    | @some it₂ p' h₂ =>
      refine .some ⟨?_, it₂, rfl, h₂⟩
      rw [Place.jumps_slot hp']
  · rw [h.next_outside hp hin]
    exact .none

theorem Stands.call_end (h : Stands array b item it p) (hp : array.len ≤ p.index)
    (jumps : List ℕ) : (Iter.oneSided it).call jumps = some (none, .oneSided it) := by
  rw [Iter.call, Iter.next, h.next_end hp]
  rfl

theorem Stands.deref (h : Stands array b True it p) {x : Item T} :
    (Iter.oneSided it).deref (.slot p.slot) = some x ↔ array.elems[p.held]?.map .elem = some x := by
  rw [Iter.deref, (h.held trivial).2]
  cases array.elems[p.held]? <;> rfl

theorem elem_injective : Function.Injective (Item.elem : T → Item T) := fun _ _ h => by
  cases h
  rfl

theorem Stands.lasts (h : Stands array b item it p) {last : Option (List ℕ)} {more : Bool} :
    Iter.Lasts last more (.oneSided it) ↔
      (∀ jumps ∈ last, p.index < array.len → (p.visit array.len b jumps).isSome) ∧
        (last.isSome → more = decide (p.index < array.len)) := by
  cases last with
  | none => simp [Iter.Lasts]
  | some jumps =>
    simp only [Iter.Lasts, Option.mem_some_iff, forall_eq', Option.isSome_some, true_implies]
    rcases Nat.lt_or_ge p.index array.len with hp | hp
    · have hrel := h.call_item hp jumps
      simp only [hp, true_implies, decide_true]
      constructor
      · rintro ⟨out, it', hcall, rfl⟩
        rw [hcall] at hrel
        obtain ⟨p', hvisit, hout, -⟩ := rel_some_left hrel
        cases hout
        exact ⟨by rw [hvisit]; rfl, rfl⟩
      · rintro ⟨hvisit, rfl⟩
        obtain ⟨p', hvisit⟩ := Option.isSome_iff_exists.mp hvisit
        rw [hvisit] at hrel
        obtain ⟨⟨out, it'⟩, hcall, hout, -⟩ := rel_some_right hrel
        cases hout
        exact ⟨_, it', hcall, rfl⟩
    · simp only [h.call_end hp, Nat.not_lt.mpr hp, false_implies, true_and, decide_false]
      constructor
      · rintro ⟨out, it', hcall, rfl⟩
        cases hcall
        rfl
      · rintro rfl
        exact ⟨none, _, rfl, rfl⟩

/-- The iterator of an array serves the elements that it comes to exactly if it walks well. -/
theorem Stands.serves (h : Stands array b item it p) {each : List ℕ} {last : Option (List ℕ)}
    {more : Bool} {xs : List (Item T)}
    (hxs : ∀ i < xs.length, array.elems[p.index + i * (each.sum + 1)]?.map .elem = xs[i]?) :
    (Iter.oneSided it).Serves each (Iter.Lasts last more) xs ↔
      Walks array b each last xs.length p ∧
        (last.isSome → more = decide (p.index + xs.length * (each.sum + 1) < array.len)) := by
  induction xs generalizing item it p with
  | nil =>
    rw [List.length_nil, Nat.zero_mul, Nat.add_zero]
    exact h.lasts
  | cons x xs ih =>
    have hx : array.elems[p.index]?.map .elem = some x := by
      have hzero := hxs 0 (Nat.succ_pos _)
      rwa [Nat.zero_mul, Nat.add_zero] at hzero
    have hp : p.index < array.len := by
      obtain ⟨y, hy, -⟩ := Option.map_eq_some_iff.mp hx
      exact (List.getElem?_eq_some_iff.mp hy).1
    have hrel := h.call_item hp each
    have hrest {it' : OneSidedIter T} {p' : Place} (h' : Stands array b True it' p')
        (hvisit : p.visit array.len b each = some p') :
        (Iter.oneSided it').Serves each (Iter.Lasts last more) xs ↔
          Walks array b each last xs.length p' ∧ (last.isSome → more =
            decide (p.index + (x :: xs).length * (each.sum + 1) < array.len)) := by
      have hindex := Place.visit_index hvisit
      have hmove (i : ℕ) : p'.index + i * (each.sum + 1) =
          p.index + (i + 1) * (each.sum + 1) := by
        rw [hindex, Nat.succ_mul]
        omega
      rw [List.length_cons, ← hmove]
      refine ih h' fun i hi => ?_
      rw [hmove]
      exact hxs (i + 1) (Nat.succ_lt_succ hi)
    constructor
    · rintro ⟨ref, it', hcall, hderef, hserves⟩
      rw [hcall] at hrel
      obtain ⟨p', hvisit, href, it₂, hit, h'⟩ := rel_some_left hrel
      cases href
      cases hit
      rw [h'.deref, ← hx] at hderef
      obtain ⟨hwalks, hmore⟩ := (hrest h' hvisit).mp hserves
      exact ⟨⟨p', hvisit, Option.map_injective elem_injective hderef, hwalks⟩, hmore⟩
    · rintro ⟨⟨p', hvisit, hheld, hwalks⟩, hmore⟩
      rw [hvisit] at hrel
      obtain ⟨⟨out, it'⟩, hcall, hout, it₂, hit, h'⟩ := rel_some_right hrel
      cases hout
      cases hit
      exact ⟨_, _, hcall, h'.deref.mpr (by rw [hheld, hx]), (hrest h' hvisit).mpr ⟨hwalks, hmore⟩⟩

/-- The same from the construction on -/
theorem runs_oneSided (hpos : 0 < array.len → 0 < b ∧ b ≤ array.len) {t : Tour} {more : Bool}
    {xs : List (Item T)} (hlen : t.rounds = xs.length)
    (hxs : ∀ i < xs.length, array.elems[t.position i]?.map .elem = xs[i]?) :
    (∃ it, ((OneSidedIter.new array b).map .oneSided).bind (Iter.advances · t.first) = some it ∧
        it.Serves t.each (Iter.Lasts t.last more) xs) ↔
      BufferFits array b t ∧
        (t.last.isSome → more = decide (t.position t.rounds < array.len)) := by
  have hnew := Stands.new hpos
  by_cases hgets : (array.internalGet 0 b).isSome
  · rw [if_pos hgets] at hnew
    obtain ⟨it₀, hit₀, h₀⟩ := rel_some_right hnew
    have hjumps := h₀.jumps t.first
    have hserves {it : OneSidedIter T} {p : Place} (h : Stands array b False it p)
        (hp : Place.first.jumps array.len b t.first = some p) := by
      have hindex : p.index = t.first.sum := by
        rw [Place.jumps_index hp, Place.first, Nat.zero_add]
      have hserves := @Stands.serves T array b False it p h t.each t.last more xs
      rw [hindex] at hserves
      exact hserves hxs
    rw [hit₀, Option.map_some, Option.bind_some, Iter.advances_oneSided]
    constructor
    · rintro ⟨it, hit, hxs'⟩
      obtain ⟨it, hmoved, rfl⟩ := Option.map_eq_some_iff.mp hit
      rw [hmoved] at hjumps
      obtain ⟨p, hp, h⟩ := rel_some_left hjumps
      obtain ⟨hwalks, hmore⟩ := (hserves h hp).mp hxs'
      exact ⟨⟨hgets, p, hp, by rwa [hlen]⟩, by rwa [hlen]⟩
    · rintro ⟨⟨-, p, hp, hwalks⟩, hmore⟩
      rw [hp] at hjumps
      obtain ⟨it, hit, h⟩ := rel_some_right hjumps
      rw [hlen] at hwalks hmore
      exact ⟨.oneSided it, by rw [hit]; rfl, (hserves h hp).mpr ⟨hwalks, hmore⟩⟩
  · rw [if_neg hgets] at hnew
    have hnone : OneSidedIter.new array b = none := by
      generalize OneSidedIter.new array b = r at hnew
      cases hnew
      rfl
    rw [hnone]
    constructor
    · rintro ⟨_, h, -⟩
      cases h
    · exact fun h => absurd h.1.1 hgets

end Buffer

/-! ## `chunks` -/

section Chunks

variable {it : Iter T} {index chunkSize pos : ℕ}

theorem call_chunks (hc : 0 < chunkSize) (jumps : List ℕ) :
    (Iter.chunks it index chunkSize).call jumps = if index < it.array.len then
        some (some (.region ((it.array.elems.drop index).take chunkSize)),
          .chunks it (min (index + chunkSize) it.array.len + jumps.sum * chunkSize) chunkSize)
      else some (none, .chunks it index chunkSize) := by
  rw [Iter.call, Iter.next]
  split_ifs with hlt
  · have hlen : it.array.len = it.array.elems.length := rfl
    have hget := it.array.internalGet_eq (show 0 < min chunkSize (it.array.len - index) by omega)
      (show index + min chunkSize (it.array.len - index) ≤ it.array.elems.length by omega)
    have htake : (it.array.elems.drop index).take (min chunkSize (it.array.len - index)) =
        (it.array.elems.drop index).take chunkSize := by
      rw [hlen, ← List.length_drop, ← List.take_eq_take_min]
    have hend : index + min chunkSize (it.array.len - index) =
        min (index + chunkSize) it.array.len := by
      omega
    simp only [hget, htake, hend, Option.bind_eq_bind, Option.bind_some, Iter.advances_chunks]
  · rfl

/-- The index of `Chunks` for the chunk at `pos`, behind which it may have run at the end -/
def ChunkAt (len chunkSize index pos : ℕ) : Prop :=
  index = pos * chunkSize ∨ len ≤ index ∧ len ≤ pos * chunkSize

theorem ChunkAt.lt_iff {len : ℕ} (h : ChunkAt len chunkSize index pos) :
    index < len ↔ pos * chunkSize < len := by
  rcases h with h | h <;> omega

theorem ChunkAt.next {len : ℕ} (h : ChunkAt len chunkSize index pos) (n : ℕ) (hlt : index < len) :
    ChunkAt len chunkSize (min (index + chunkSize) len + n * chunkSize) (pos + (n + 1)) := by
  have hmul : (pos + (n + 1)) * chunkSize = pos * chunkSize + chunkSize + n * chunkSize := by
    rw [Nat.add_mul, Nat.succ_mul]
    omega
  rw [ChunkAt, hmul]
  rcases h with h | h <;> omega

theorem getElem?_chunk (hc : 0 < chunkSize) (array : InternalGet T) (pos : ℕ) :
    ((chunks chunkSize (array.elems.map Item.elem)).map Item.chunk)[pos]? =
      if pos * chunkSize < array.len then
        some (.chunk (((array.elems.drop (pos * chunkSize)).take chunkSize).map .elem))
      else none := by
  have hsteps : pos < steps chunkSize array.elems.length ↔ pos * chunkSize < array.len :=
    lt_steps_iff hc pos array.elems.length
  rw [List.getElem?_map]
  split_ifs with hlt
  · rw [getElem?_chunks (by rw [List.length_map]; exact hsteps.mpr hlt), Option.map_some,
      ← List.map_drop, ← List.map_take]
  · rw [List.getElem?_eq_none, Option.map_none]
    rw [length_chunks, List.length_map]
    exact Nat.le_of_not_lt (hsteps.not.mpr hlt)

/-- `chunks` serves the chunks of the array. -/
theorem serves_chunks (hc : 0 < chunkSize) (h : ChunkAt it.array.len chunkSize index pos)
    {each : List ℕ} {last : Option (List ℕ)} {more : Bool} {xs : List (Item T)} :
    (Iter.chunks it index chunkSize).Serves each (Iter.Lasts last more) xs ↔
      (∀ i < xs.length, ((chunks chunkSize (it.array.elems.map Item.elem)).map Item.chunk)[
          pos + i * (each.sum + 1)]? = xs[i]?) ∧
        (last.isSome →
          more = decide ((pos + xs.length * (each.sum + 1)) * chunkSize < it.array.len)) := by
  induction xs generalizing index pos with
  | nil =>
    simp only [List.length_nil, Nat.zero_mul, Nat.add_zero, Nat.not_lt_zero, false_implies,
      implies_true, true_and, ← h.lt_iff]
    cases last with
    | none => simp [Iter.Serves, Iter.Lasts]
    | some jumps =>
      simp only [Iter.Serves, Iter.Lasts, Option.mem_some_iff, forall_eq', Option.isSome_some,
        true_implies, call_chunks hc]
      by_cases hlt : index < it.array.len
      · simp [hlt, eq_comm]
      · simp [hlt, eq_comm]
  | cons x xs ih =>
    have hmove (i : ℕ) : pos + (i + 1) * (each.sum + 1) =
        pos + (each.sum + 1) + i * (each.sum + 1) := by
      rw [Nat.succ_mul]
      omega
    simp only [List.length_cons, Nat.forall_lt_succ_left, Nat.zero_mul, Nat.add_zero, hmove,
      List.getElem?_cons_zero, List.getElem?_cons_succ, getElem?_chunk hc _ pos, and_assoc]
    by_cases hlt : index < it.array.len
    · have heq : index = pos * chunkSize := by
        rcases h with h | h <;> omega
      have hnext := h.next each.sum hlt
      rw [if_pos (h.lt_iff.mp hlt), Option.some_inj, ← ih hnext, Iter.Serves, call_chunks hc,
        if_pos hlt, heq]
      constructor
      · rintro ⟨ref, it', hcall, hderef, hserves⟩
        cases hcall
        exact ⟨Option.some_inj.mp hderef, hserves⟩
      · rintro ⟨rfl, hserves⟩
        exact ⟨_, _, rfl, rfl, hserves⟩
    · rw [if_neg (h.lt_iff.not.mp hlt), Iter.Serves, call_chunks hc, if_neg hlt]
      constructor
      · rintro ⟨ref, it', hcall, -⟩
        cases hcall
      · rintro ⟨h, -⟩
        cases h

end Chunks

end Lamellar.OneSidedIterator
