import Lamellar.Lib.Folds
import Lamellar.OneSidedIterator.Model

/-!
# Where the iterator of an array stands

What `next` and `advance_index` of `OneSidedIter` do depends on numbers only: the position in
the array, and the position of the element in the first slot of the buffer. `Place` keeps these,
and for the item handed out last the slot it refers to and the position of the element that is
there by now. `Stands` ties a place to the iterator with its buffer, and every operation does to
the iterator what it does to its place (`Stands.jump`, `Stands.next_item`, `Stands.next_end`,
`Stands.next_outside`).
-/

namespace Lamellar.OneSidedIterator

variable {T : Type}

/-! ## The buffer -/

theorem length_fill {buf : List (Option T)} {vals : List T} (hle : vals.length ≤ buf.length) :
    (fill buf vals).length = buf.length := by
  rw [fill, List.length_append, List.length_map, List.length_drop]
  omega

theorem getElem?_fill_lt {buf : List (Option T)} {vals : List T} {j : ℕ} (hj : j < vals.length) :
    (fill buf vals)[j]?.join = vals[j]? := by
  rw [fill, List.getElem?_append_left (by rwa [List.length_map]), List.getElem?_map,
    List.getElem?_eq_getElem hj]
  rfl

theorem getElem?_fill_ge {buf : List (Option T)} {vals : List T} {j : ℕ}
    (hj : vals.length ≤ j) : (fill buf vals)[j]? = buf[j]? := by
  rw [fill, List.getElem?_append_right (by rwa [List.length_map]), List.length_map,
    List.getElem?_drop, Nat.add_sub_cancel' hj]

/-! ## Places -/

/-- The position `index` of the iterator and the position `start` of the element in the first
slot; the item handed out last refers to `slot`, where the element of position `held` is. -/
structure Place where
  index : ℕ
  start : ℕ
  slot : ℕ
  held : ℕ

namespace Place

def first : Place := ⟨0, 0, 0, 0⟩

/-- The buffer gets new data from `index` on, as far as the `n` elements of the array go. These
may replace the item handed out last. -/
def renew (n index : ℕ) (p : Place) : Place :=
  let held := if index + p.slot < n then index + p.slot else p.held
  { p with index, start := index, held }

/-- In an array of `n` elements with a buffer of `b`: a jump to the end of the buffer gets new
data; behind the end of the array there is none. -/
def jump (n b : ℕ) (p : Place) (count : ℕ) : Option Place :=
  let index := p.index + count
  if index = p.start + b then
    if index ≤ n then some (p.renew n index) else none
  else some { p with index }

def jumps (n b : ℕ) (p : Place) (counts : List ℕ) : Option Place := counts.foldlM (jump n b) p

/-- The position is not behind the buffer; at its end the next read gets new data. -/
def Inside (b : ℕ) (p : Place) : Prop := p.index ≤ p.start + b

instance (b : ℕ) (p : Place) : Decidable (p.Inside b) := inferInstanceAs (Decidable (_ ≤ _))

def read (b : ℕ) (p : Place) : Place :=
  let start := if p.index = p.start + b then p.index else p.start
  { index := p.index + 1, start, slot := p.index - start, held := p.index }

/-- An item is read, inside the buffer, and jumps follow. -/
def visit (n b : ℕ) (p : Place) (counts : List ℕ) : Option Place :=
  if p.Inside b then (p.read b).jumps n b counts else none

theorem jump_index {n b : ℕ} {p p' : Place} {count : ℕ} (h : p.jump n b count = some p') :
    p'.index = p.index + count := by
  simp only [jump] at h
  split_ifs at h
  · cases h
    rfl
  · cases h
    rfl

theorem jump_slot {n b : ℕ} {p p' : Place} {count : ℕ} (h : p.jump n b count = some p') :
    p'.slot = p.slot := by
  simp only [jump] at h
  split_ifs at h
  · cases h
    rfl
  · cases h
    rfl

theorem jumps_index {n b : ℕ} {p p' : Place} {counts : List ℕ}
    (h : p.jumps n b counts = some p') : p'.index = p.index + counts.sum := by
  induction counts generalizing p with
  | nil =>
    cases h
    rfl
  | cons count counts ih =>
    obtain ⟨p₁, hjump, hrest⟩ := Option.bind_eq_some_iff.mp h
    rw [ih hrest, jump_index hjump, List.sum_cons, Nat.add_assoc]

theorem jumps_slot {n b : ℕ} {p p' : Place} {counts : List ℕ}
    (h : p.jumps n b counts = some p') : p'.slot = p.slot := by
  induction counts generalizing p with
  | nil =>
    cases h
    rfl
  | cons count counts ih =>
    obtain ⟨p₁, hjump, hrest⟩ := Option.bind_eq_some_iff.mp h
    rw [ih hrest, jump_slot hjump]

theorem visit_index {n b : ℕ} {p p' : Place} {counts : List ℕ}
    (h : p.visit n b counts = some p') : p'.index = p.index + (counts.sum + 1) := by
  unfold visit at h
  split_ifs at h
  rw [jumps_index h]
  show p.index + 1 + counts.sum = _
  omega

end Place

/-! ## Iterators and their places -/

/-- `it` is the iterator of `array` with a buffer of `b` slots that stands at the place `p`;
`item` says whether it has handed out an item. -/
structure Stands (array : InternalGet T) (b : ℕ) (item : Prop) (it : OneSidedIter T) (p : Place) :
    Prop where
  source : it.array = array
  length : it.buf0.length = b
  index : it.index = p.index
  bufIndex : p.start + it.bufIndex = p.index
  filled : ∀ j < b, p.start + j < array.len → it.buf0[j]?.join = array.elems[p.start + j]?
  pos : 0 < array.len → 0 < b
  gets : (array.internalGet 0 b).isSome
  held : item → p.slot < b ∧ it.buf0[p.slot]?.join = array.elems[p.held]?

namespace Stands

variable {array : InternalGet T} {b : ℕ} {item : Prop} {it : OneSidedIter T} {p : Place}

theorem new (hpos : 0 < array.len → 0 < b ∧ b ≤ array.len) :
    Option.Rel (fun it p => Stands array b False it p) (OneSidedIter.new array b)
      (if (array.internalGet 0 b).isSome then some .first else none) := by
  cases hget : array.internalGet 0 b with
  | none =>
    simp only [OneSidedIter.new, hget]
    exact .none
  | some vals =>
    simp only [OneSidedIter.new, hget]
    have hroom := array.length_le hget
    rw [← List.length_replicate (n := b) (a := (none : Option T))] at hroom
    refine .some ⟨rfl, by rw [length_fill hroom, List.length_replicate], rfl, rfl, ?_,
      fun h => (hpos h).1, by rw [hget]; rfl, False.elim⟩
    intro j hj hlt
    simp only [Place.first, Nat.zero_add] at hlt ⊢
    obtain ⟨hb, hle⟩ := hpos (by omega)
    rw [array.internalGet_eq hb (by rw [Nat.zero_add]; exact hle), List.drop_zero] at hget
    cases hget
    have hlen : (array.elems.take b).length = b := by
      rw [List.length_take]
      exact Nat.min_eq_left hle
    rw [getElem?_fill_lt (by rwa [hlen]), List.getElem?_take_of_lt hj]

/-- What a get of the elements from the place on makes of the buffer -/
theorem filled_from (h : Stands array b item it p) {vals : List T} (hvals : vals.length ≤ b)
    (hget : ∀ j < b, p.index + j < array.len → vals[j]? = array.elems[p.index + j]?)
    (hlast : ∀ j < vals.length, p.index + j < array.len) :
    Stands array b item { it with buf0 := fill it.buf0 vals, bufIndex := 0 }
      (p.renew array.len p.index) := by
  have hplaced : ∀ j < b, p.index + j < array.len →
      (fill it.buf0 vals)[j]?.join = array.elems[p.index + j]? := by
    intro j hj hlt
    have hval := hget j hj hlt
    have hj' : j < vals.length := by
      rw [List.getElem?_eq_getElem hlt] at hval
      exact (List.getElem?_eq_some_iff.mp hval).1
    rw [getElem?_fill_lt hj', hval]
  refine ⟨h.source, by rw [length_fill (by rwa [h.length]), h.length], h.index, rfl, hplaced,
    h.pos, h.gets, ?_⟩
  intro hitem
  obtain ⟨hslot, hheld⟩ := h.held hitem
  refine ⟨hslot, ?_⟩
  dsimp only [Place.renew]
  split_ifs with hlt
  · exact hplaced p.slot hslot hlt
  · -- the get did not come as far as this slot
    have hge : vals.length ≤ p.slot := by
      by_contra hlt'
      exact hlt (hlast p.slot (by omega))
    rw [getElem?_fill_ge hge, hheld]

/-- The get of what follows, at a place that is the end of the buffer and not behind the array -/
theorem gets_rest (h : Stands array b item it p) (hend : p.index = p.start + b)
    (hle : p.index ≤ array.len) :
    ∃ vals, array.internalGet p.index (min b (array.len - p.index)) = some vals ∧
      vals = (array.elems.drop p.index).take (min b (array.len - p.index)) := by
  rcases Nat.lt_or_ge p.index array.len with hlt | hge
  · have hb := h.pos (by omega)
    exact ⟨_, array.internalGet_eq (by omega) (show p.index + _ ≤ array.len by omega), rfl⟩
  · have heq : p.index = array.len := by omega
    rw [heq, Nat.sub_self, Nat.min_zero, List.take_zero]
    rcases Nat.eq_zero_or_pos array.len with hzero | hpos
    · -- the buffer of an empty array is empty, and its get was made before
      have hb : b = 0 := by omega
      obtain ⟨vals, hvals⟩ := Option.isSome_iff_exists.mp h.gets
      rw [hb] at hvals
      have hnil := List.length_eq_zero_iff.mp (Nat.le_zero.mp (array.length_le hvals))
      exact ⟨vals, by rw [hzero, hvals], hnil⟩
    · exact ⟨[], array.internalGet_end hpos, rfl⟩

/-- At the end of the buffer, if this is not behind the array, the get brings what follows. -/
theorem getNewData (h : Stands array b item it p) (hend : p.index = p.start + b)
    (hle : p.index ≤ array.len) :
    ∃ it', it.getNewData = some it' ∧ Stands array b item it' (p.renew array.len p.index) := by
  obtain ⟨vals, hget, hvals⟩ := h.gets_rest hend hle
  have hlen : array.len = array.elems.length := rfl
  have hlength : vals.length = min b (array.len - p.index) := by
    rw [hvals, List.length_take, List.length_drop]
    omega
  refine ⟨{ it with buf0 := fill it.buf0 vals, bufIndex := 0 }, ?_, h.filled_from ?_ ?_ ?_⟩
  · simp only [OneSidedIter.getNewData, h.source, h.index, h.length]
    split_ifs with hmore
    · rw [Nat.min_eq_left (by omega)] at hget
      rw [hget]
      rfl
    · rw [Nat.min_eq_right (by omega)] at hget
      rw [hget]
      rfl
  · omega
  · intro j hj hlt
    rw [hvals, List.getElem?_take_of_lt (by omega), List.getElem?_drop]
  · intro j hj
    omega

theorem jump (h : Stands array b item it p) (count : ℕ) :
    Option.Rel (fun it p => Stands array b item it p) (it.advanceIndex count)
      (p.jump array.len b count) := by
  have hmoved : Stands array b item
      { it with index := it.index + count, bufIndex := it.bufIndex + count }
      { p with index := p.index + count } :=
    ⟨h.source, h.length, congrArg (· + count) h.index, by
      show p.start + (it.bufIndex + count) = p.index + count
      have := h.bufIndex
      omega, h.filled, h.pos, h.gets, h.held⟩
  have hend : it.bufIndex + count = it.buf0.length ↔ p.index + count = p.start + b := by
    have := h.bufIndex
    have := h.length
    omega
  simp only [OneSidedIter.advanceIndex, Place.jump, hend]
  split_ifs with hstop hle
  · obtain ⟨it', hget, hstands⟩ := hmoved.getNewData hstop hle
    rw [hget]
    exact .some hstands
  · have hbehind : OneSidedIter.getNewData
        { it with index := it.index + count, bufIndex := it.bufIndex + count } = none := by
      simp only [OneSidedIter.getNewData, h.source, h.index, h.length]
      rw [if_neg (by omega), if_neg hle]
    rw [hbehind]
    exact .none
  · exact .some hmoved

theorem jumps (h : Stands array b item it p) (counts : List ℕ) :
    Option.Rel (fun it p => Stands array b item it p) (counts.foldlM OneSidedIter.advanceIndex it)
      (p.jumps array.len b counts) :=
  Folds.foldlM_rel (fun _ _ count h => h.jump count) counts h

/-! ## The next item -/

theorem next_end (h : Stands array b item it p) (hp : array.len ≤ p.index) :
    it.next = some (none, it) := by
  rw [OneSidedIter.next, h.source, h.index, if_neg (by omega)]

/-- Behind the buffer the reference is outside it. -/
theorem next_outside (h : Stands array b item it p) (hp : p.index < array.len)
    (hout : ¬ p.Inside b) : it.next = none := by
  have hbuf := h.bufIndex
  have hlength := h.length
  rw [Place.Inside] at hout
  rw [OneSidedIter.next, h.source, h.index, if_pos hp, if_neg (by omega)]
  simp only [Option.bind_eq_bind, Option.bind_some]
  rw [List.getElem?_eq_none (by omega)]
  rfl

/-- The next item: with new data where the buffer ends, the reference is to its element. -/
theorem next_item (h : Stands array b item it p) (hp : p.index < array.len) (hin : p.Inside b) :
    ∃ it', it.next = some (some (p.read b).slot, it') ∧ Stands array b True it' (p.read b) := by
  have hb := h.pos (by omega)
  have hend : it.bufIndex = b ↔ p.index = p.start + b := by
    have := h.bufIndex
    omega
  obtain ⟨it₁, p₁, hdata, h₁, hindex, hstart⟩ : ∃ it₁ p₁,
      (if it.bufIndex = it.buf0.length then it.getNewData else some it) = some it₁ ∧
        Stands array b item it₁ p₁ ∧ p₁.index = p.index ∧ p₁.start = (p.read b).start := by
    by_cases hstop : p.index = p.start + b
    · obtain ⟨it₁, hget, h₁⟩ := h.getNewData hstop (Nat.le_of_lt hp)
      refine ⟨it₁, _, by rw [h.length, if_pos (hend.mpr hstop), hget], h₁, rfl, ?_⟩
      simp only [Place.renew, Place.read, if_pos hstop]
    · refine ⟨it, p, by rw [h.length, if_neg (hend.not.mpr hstop)], h, rfl, ?_⟩
      simp only [Place.read, if_neg hstop]
  have hslot : it₁.bufIndex = (p.read b).slot := by
    have hbuf := h₁.bufIndex
    rw [hstart, hindex] at hbuf
    rw [show (p.read b).slot = p.index - (p.read b).start from rfl, ← hbuf, Nat.add_sub_cancel_left]
  have hbefore : (p.read b).slot < b ∧ (p.read b).start + (p.read b).slot = p.index := by
    have hstart := h.bufIndex
    rw [Place.Inside] at hin
    simp only [Place.read]
    split_ifs <;> omega
  have hread : it₁.buf0[(p.read b).slot]?.join = array.elems[p.index]? := by
    have hfilled := h₁.filled (p.read b).slot hbefore.1
    rw [hstart, hbefore.2] at hfilled
    exact hfilled hp
  refine ⟨{ it₁ with index := it₁.index + 1, bufIndex := it₁.bufIndex + 1 }, ?_,
    h₁.source, h₁.length, ?_, ?_, ?_, h.pos, h.gets, fun _ => ⟨hbefore.1, hread⟩⟩
  · rw [List.getElem?_eq_getElem hp] at hread
    rw [OneSidedIter.next, h.source, h.index, if_pos hp, hdata]
    simp only [Option.bind_eq_bind, Option.bind_some, hslot, hread]
  · show it₁.index + 1 = p.index + 1
    rw [h₁.index, hindex]
  · show (p.read b).start + (it₁.bufIndex + 1) = p.index + 1
    rw [hslot, ← Nat.add_assoc, hbefore.2]
  · intro j hj hlt
    have hfilled := h₁.filled j hj
    rw [hstart] at hfilled
    exact hfilled hlt

end Stands

end Lamellar.OneSidedIterator
