import Lamellar.OneSidedIterator.Serving

/-!
# One-sided iteration and the standard adaptors

The plain iterators hand out all elements in order, whatever the length of the buffer
(`onesided_items`). The adaptors do not keep to the standard ones:

* an `advance_index` that passes the end of the buffer leaves `buf_index` behind it for good,
  since only a buffer that is used up exactly is filled again: what is read next is outside the
  buffer (`skip`, `step_by`);
* where it stops exactly at the end, the get replaces the elements in the buffer. If `step_by`
  made it, the item that it is about to hand out refers to this buffer. Behind the end of the
  array, the length of the get underflows;
* `chunks` counts its own positions of the array and does not look at the iterator below.

`Fits` says in terms of positions when none of this happens on the way through a chain, and
`items_exact` that the items are those of the standard chain exactly then.
-/

namespace Lamellar.OneSidedIterator

open StandardIter

variable {T : Type}

/-! ## The array below -/

theorem OneSidedIter.getNewData_array {it it' : OneSidedIter T} (h : it.getNewData = some it') :
    it'.array = it.array := by
  simp only [OneSidedIter.getNewData, Option.bind_eq_bind] at h
  split_ifs at h
  · obtain ⟨vals, -, h⟩ := Option.bind_eq_some_iff.mp h
    cases h
    rfl
  · obtain ⟨vals, -, h⟩ := Option.bind_eq_some_iff.mp h
    cases h
    rfl

theorem OneSidedIter.advanceIndex_array {it it' : OneSidedIter T} {count : ℕ}
    (h : it.advanceIndex count = some it') : it'.array = it.array := by
  simp only [OneSidedIter.advanceIndex] at h
  split_ifs at h
  · rw [getNewData_array h]
  · cases h
    rfl

theorem Iter.advanceIndex_array {it it' : Iter T} {count : ℕ}
    (h : it.advanceIndex count = some it') : it'.array = it.array := by
  induction it generalizing it' count with
  | oneSided it =>
    obtain ⟨it₁, hit, rfl⟩ := Option.map_eq_some_iff.mp h
    exact OneSidedIter.advanceIndex_array hit
  | skip iter ih =>
    obtain ⟨iter', hiter, rfl⟩ := Option.map_eq_some_iff.mp h
    exact (ih hiter :)
  | stepBy iter s ih =>
    obtain ⟨iter', hiter, h⟩ := Option.bind_eq_some_iff.mp h
    cases h
    exact (ih hiter :)
  | zip a b ih _ =>
    obtain ⟨a', ha, h⟩ := Option.bind_eq_some_iff.mp h
    obtain ⟨b', -, h⟩ := Option.bind_eq_some_iff.mp h
    cases h
    exact (ih ha :)
  | chunks iter index chunkSize ih =>
    cases h
    rfl

namespace Chain

/-- `array()` of the iterator -/
def array : Chain T → InternalGet T
  | .onesidedIter array => array
  | .bufferedOnesidedIter array _ _ => array
  | .skip c _ => c.array
  | .stepBy c _ _ => c.array
  | .zip c _ => c.array
  | .chunks c _ _ => c.array

theorem build_array {c : Chain T} {it : Iter T} (h : c.build = some it) : it.array = c.array := by
  induction c generalizing it with
  | onesidedIter array =>
    obtain ⟨it', hit, rfl⟩ := Option.map_eq_some_iff.mp h
    obtain ⟨vals, -, hit⟩ := Option.bind_eq_some_iff.mp hit
    cases hit
    rfl
  | bufferedOnesidedIter array bufSize pos =>
    obtain ⟨it', hit, rfl⟩ := Option.map_eq_some_iff.mp h
    obtain ⟨vals, -, hit⟩ := Option.bind_eq_some_iff.mp hit
    cases hit
    rfl
  | skip c count ih =>
    obtain ⟨iter, hiter, h⟩ := Option.bind_eq_some_iff.mp h
    obtain ⟨iter', hmoved, h⟩ := Option.bind_eq_some_iff.mp h
    cases h
    exact (Iter.advanceIndex_array hmoved).trans (ih hiter)
  | stepBy c s hs ih =>
    obtain ⟨iter, hiter, h⟩ := Option.bind_eq_some_iff.mp h
    cases h
    exact (ih hiter :)
  | zip c d ih _ =>
    obtain ⟨a, ha, h⟩ := Option.bind_eq_some_iff.mp h
    obtain ⟨b, -, h⟩ := Option.bind_eq_some_iff.mp h
    cases h
    exact (ih ha :)
  | chunks c k hk ih =>
    obtain ⟨iter, hiter, h⟩ := Option.bind_eq_some_iff.mp h
    cases h
    exact (ih hiter :)

/-! ## When a chain fits -/

/-- Whether the call for item `i` finds one; `chunks` looks at the array only. -/
def hasItem : Chain T → ℕ → Bool
  | .onesidedIter array, i => i < array.len
  | .bufferedOnesidedIter array _ _, i => i < array.len
  | .skip c count, i => c.hasItem (count + i)
  | .stepBy c stepSize _, i => c.hasItem (i * stepSize)
  | .zip c d, i => c.hasItem i && d.hasItem i
  | .chunks c chunkSize _, i => i * chunkSize < c.array.len

/-- A tour goes well: on every array it comes to good places only, and the chunks asked for are
the same in the array and in the sequence below `chunks`. -/
def Fits : Chain T → Tour → Prop
  | .onesidedIter array, t => BufferFits array 1 t
  | .bufferedOnesidedIter array bufSize _, t => BufferFits array (min bufSize array.len) t
  | .skip c count, t => c.Fits (t.skip count)
  | .stepBy c stepSize _, t => c.Fits (t.stepBy stepSize)
  | .zip c d, t => c.Fits (t.left (d.hasItem (t.position t.rounds))) ∧
      d.Fits (t.right (c.hasItem (t.position t.rounds)))
  | .chunks c chunkSize _, t => c.Fits ⟨[], [], 0, none⟩ ∧ ∀ i < t.rounds,
      (StandardIter.chunks chunkSize (c.array.elems.map Item.elem))[t.position i]? =
        (StandardIter.chunks chunkSize c.items)[t.position i]?

/-- The tour is made on the iterator built: it goes through, serves `xs` and finds `more` or
not. -/
def Runs (c : Chain T) (t : Tour) (more : Bool) (xs : List (Item T)) : Prop :=
  ∃ it, c.build.bind (Iter.advances · t.first) = some it ∧
    it.Serves t.each (Iter.Lasts t.last more) xs

variable {c d : Chain T} {t : Tour} {more : Bool} {xs ys : List (Item T)}

/-- A tour on an adaptor that hands on the items of the chain below -/
theorem runs_wrap {c' : Chain T} {t' : Tour} {wrap : Iter T → Iter T} {f : List ℕ → List ℕ}
    (hcall : ∀ it jumps, (wrap it).call jumps = (it.call (f jumps)).map (Prod.map id wrap))
    (hderef : ∀ it ref, (wrap it).deref ref = it.deref ref)
    (hbuild : c'.build.bind (Iter.advances · t.first) =
      (c.build.bind (Iter.advances · t'.first)).map wrap)
    (heach : t'.each = f t.each) (hlast : t'.last = t.last.map f) :
    c'.Runs t more xs ↔ c.Runs t' more xs := by
  rw [Runs, Runs, hbuild, heach, hlast]
  constructor
  · rintro ⟨it, hit, hxs⟩
    obtain ⟨it, hbelow, rfl⟩ := Option.map_eq_some_iff.mp hit
    exact ⟨it, hbelow, (Iter.serves_wrap hcall hderef).mp hxs⟩
  · rintro ⟨it, hit, hxs⟩
    exact ⟨wrap it, by rw [hit]; rfl, (Iter.serves_wrap hcall hderef).mpr hxs⟩

theorem runs_skip {count : ℕ} :
    (Chain.skip c count).Runs t more xs ↔ c.Runs (t.skip count) more xs := by
  refine runs_wrap (f := id) Iter.call_skip (fun _ _ => rfl) ?_ rfl Option.map_id'.symm
  simp only [build, Tour.skip]
  cases c.build with
  | none => rfl
  | some iter =>
    simp only [Option.bind_eq_bind, Option.bind_some, Iter.advances, List.foldlM_cons]
    cases iter.advanceIndex count with
    | none => rfl
    | some iter => exact Iter.advances_skip iter t.first

theorem runs_stepBy {stepSize : ℕ} {pos : 0 < stepSize} :
    (Chain.stepBy c stepSize pos).Runs t more xs ↔ c.Runs (t.stepBy stepSize) more xs := by
  refine runs_wrap (fun it => Iter.call_stepBy it stepSize) (fun _ _ => rfl) ?_ rfl rfl
  simp only [build, Tour.stepBy]
  cases c.build with
  | none => rfl
  | some iter => exact Iter.advances_stepBy iter stepSize t.first

/-- Which item comes is not looked at where none is expected. -/
theorem Runs.left {m m' : Bool} (h : c.Runs (t.left m) false xs) : c.Runs (t.left m') false xs := by
  obtain ⟨it, hit, hxs⟩ := h
  refine ⟨it, hit, hxs.imp fun it' hlasts jumps hjumps => ?_⟩
  obtain ⟨jumps', hlast, -⟩ := Option.map_eq_some_iff.mp hjumps
  obtain ⟨out, it₁, hcall, hout⟩ := hlasts _ (Option.map_eq_some_iff.mpr ⟨jumps', hlast, rfl⟩)
  rw [Option.isSome_eq_false_iff, Option.isNone_iff_eq_none] at hout
  subst hout
  exact ⟨none, it₁, Iter.call_end.mpr (Iter.call_end.mp hcall), rfl⟩

theorem runs_zip (hlen : xs.length = ys.length) :
    (Chain.zip c d).Runs t more (List.zipWith .pair xs ys) ↔ ∃ moreC moreD : Bool,
      (t.last.isSome → more = (moreC && moreD)) ∧ c.Runs (t.left moreD) moreC xs ∧
        d.Runs (t.right moreC) moreD ys := by
  have hbuild (it : Iter T) : (Chain.zip c d).build.bind (Iter.advances · t.first) = some it ↔
      ∃ a b, c.build.bind (Iter.advances · t.first) = some a ∧
        d.build.bind (Iter.advances · t.first) = some b ∧ it = .zip a b := by
    simp only [build]
    cases c.build with
    | none => simp
    | some a =>
      cases d.build with
      | none => simp
      | some b =>
        simp only [Option.bind_eq_bind, Option.bind_some, Iter.advances_zip,
          Option.bind_eq_some_iff, Option.map_eq_some_iff]
        constructor
        · rintro ⟨a', ha, b', hb, rfl⟩
          exact ⟨a', b', ha, hb, rfl⟩
        · rintro ⟨a', b', ha, hb, rfl⟩
          exact ⟨a', ha, b', hb, rfl⟩
  simp only [Runs, hbuild]
  constructor
  · rintro ⟨_, ⟨a, b, ha, hb, rfl⟩, hserves⟩
    obtain ⟨⟨⟨moreC, moreD⟩, hmore⟩, hxs, hys⟩ := (Iter.serves_zip_lasts hlen).mp hserves
    exact ⟨moreC, moreD, hmore, ⟨a, ha, hxs⟩, b, hb, hys⟩
  · rintro ⟨moreC, moreD, hmore, ⟨a, ha, hxs⟩, b, hb, hys⟩
    exact ⟨.zip a b, ⟨a, b, ha, hb, rfl⟩,
      (Iter.serves_zip_lasts hlen).mpr ⟨⟨(moreC, moreD), hmore⟩, hxs, hys⟩⟩

theorem runs_chunks {chunkSize : ℕ} {pos : 0 < chunkSize} (hlen : t.rounds = xs.length) :
    (Chain.chunks c chunkSize pos).Runs t more xs ↔ c.Runs ⟨[], [], 0, none⟩ false [] ∧
      (∀ i < xs.length, ((StandardIter.chunks chunkSize (c.array.elems.map Item.elem)).map
        Item.chunk)[t.position i]? = xs[i]?) ∧
      (t.last.isSome → more = (Chain.chunks c chunkSize pos).hasItem (t.position t.rounds)) := by
  simp only [Runs, build, hasItem, hlen]
  cases hbuild : c.build with
  | none => simp
  | some iter =>
    have harray := build_array hbuild
    simp only [Option.bind_eq_bind, Option.bind_some, Iter.advances_chunks, Nat.zero_add,
      Option.some_inj, exists_eq_left']
    rw [serves_chunks pos (Or.inl rfl), harray]
    constructor
    · exact fun h => ⟨⟨iter, rfl, fun _ h => (nomatch h)⟩, h⟩
    · exact fun h => h.2

/-- Items of a zipped list are the pairs of items of both. -/
theorem exists_zipWith {l l' : List (Item T)} {pos : ℕ → ℕ}
    (hxs : ∀ i < xs.length, (List.zipWith Item.pair l l')[pos i]? = xs[i]?) :
    ∃ as bs : List (Item T), xs = List.zipWith .pair as bs ∧ as.length = xs.length ∧
      bs.length = xs.length ∧ (∀ i < as.length, l[pos i]? = as[i]?) ∧
        ∀ i < bs.length, l'[pos i]? = bs[i]? := by
  have hpair (i : ℕ) (hi : i < xs.length) :
      ∃ a b, l[pos i]? = some a ∧ l'[pos i]? = some b ∧ Item.pair a b = xs[i] := by
    have hx := hxs i hi
    rw [List.getElem?_eq_getElem hi, List.getElem?_zipWith_eq_some] at hx
    exact hx
  obtain ⟨has, hga⟩ := getElem?_filterMap_range fun i hi =>
    (hpair i hi).imp fun a h => h.choose_spec.1
  obtain ⟨hbs, hgb⟩ := getElem?_filterMap_range (n := xs.length) (f := fun i => l'[pos i]?)
    fun i hi => by
      obtain ⟨a, b, -, hb, -⟩ := hpair i hi
      exact ⟨b, hb⟩
  refine ⟨_, _, ?_, has, hbs, fun i hi => ?_, fun i hi => ?_⟩
  · apply List.ext_getElem?
    intro i
    by_cases hi : i < xs.length
    · obtain ⟨a, b, ha, hb, heq⟩ := hpair i hi
      rw [List.getElem?_zipWith, hga i hi, hgb i hi, ha, hb, List.getElem?_eq_getElem hi, ← heq]
    · rw [List.getElem?_eq_none (by omega), List.getElem?_eq_none]
      rw [List.length_zipWith, has, hbs]
      omega
  · rw [has] at hi
    exact (hga i hi).symm
  · rw [hbs] at hi
    exact (hgb i hi).symm

/-- A tour that asks for the items of the standard chain gets them exactly if it fits. -/
theorem runs_iff (hlen : t.rounds = xs.length)
    (hxs : ∀ i < xs.length, c.items[t.position i]? = xs[i]?) :
    c.Runs t more xs ↔
      c.Fits t ∧ (t.last.isSome → more = c.hasItem (t.position t.rounds)) := by
  induction c generalizing t more xs with
  | onesidedIter array =>
    refine runs_oneSided (fun h => ⟨Nat.one_pos, h⟩) hlen fun i hi => ?_
    rw [← List.getElem?_map]
    exact hxs i hi
  | bufferedOnesidedIter array bufSize pos =>
    refine runs_oneSided (fun h => ⟨by omega, Nat.min_le_right _ _⟩) hlen fun i hi => ?_
    rw [← List.getElem?_map]
    exact hxs i hi
  | skip c count ih =>
    have hbelow := @ih (t.skip count) more xs hlen fun i hi => by
      rw [Tour.position_skip, ← hxs i hi, items, List.getElem?_drop]
    rw [Tour.position_skip] at hbelow
    exact runs_skip.trans hbelow
  | stepBy c s hs ih =>
    have hbelow := @ih (t.stepBy s) more xs hlen fun i hi => by
      rw [Tour.position_stepBy t hs, ← hxs i hi, items, getElem?_stepBy hs]
    rw [Tour.position_stepBy t hs, Tour.stepBy, Option.isSome_map] at hbelow
    exact runs_stepBy.trans hbelow
  | zip c d ihc ihd =>
    obtain ⟨as, bs, rfl, has, hbs, hca, hdb⟩ := exists_zipWith hxs
    rw [List.length_zipWith, has, hbs, Nat.min_self] at hlen
    have hc (m moreC : Bool) := @ihc (t.left m) moreC as (hlen.trans has.symm) hca
    have hd (m moreD : Bool) := @ihd (t.right m) moreD bs (hlen.trans hbs.symm) hdb
    rw [runs_zip (has.trans hbs.symm), Fits, hasItem]
    constructor
    · rintro ⟨moreC, moreD, hmore, hrunsC, hrunsD⟩
      obtain ⟨hfitsC, hmoreC⟩ := (hc _ _).mp hrunsC
      obtain ⟨hfitsD, hmoreD⟩ := (hd _ _).mp hrunsD
      cases hlast : t.last with
      | none =>
        have hleft (m m' : Bool) : t.left m = t.left m' := by simp only [Tour.left, hlast]; rfl
        have hright (m m' : Bool) : t.right m = t.right m' := by
          simp only [Tour.right, hlast, ite_self]
        exact ⟨⟨hleft moreD _ ▸ hfitsC, hright moreC _ ▸ hfitsD⟩,
          fun h => Bool.noConfusion h⟩
      | some jumps =>
        rw [hlast] at hmore
        have hC : moreC = c.hasItem (t.position t.rounds) := hmoreC (by rw [Tour.left, hlast]; rfl)
        rw [← hC]
        cases moreC with
        | true =>
          have hD : moreD = d.hasItem (t.position t.rounds) :=
            hmoreD (by rw [Tour.right, hlast]; rfl)
          rw [← hD]
          exact ⟨⟨hfitsC, hfitsD⟩, hmore⟩
        | false => exact ⟨⟨((hc _ _).mp hrunsC.left).1, hfitsD⟩, hmore⟩
    · rintro ⟨⟨hfitsC, hfitsD⟩, hmore⟩
      exact ⟨_, _, hmore, (hc _ _).mpr ⟨hfitsC, fun _ => rfl⟩, (hd _ _).mpr ⟨hfitsD, fun _ => rfl⟩⟩
  | chunks c chunkSize pos ih =>
    have hbuilds : c.Runs ⟨[], [], 0, none⟩ false [] ↔ c.Fits ⟨[], [], 0, none⟩ :=
      (@ih ⟨[], [], 0, none⟩ false [] rfl fun i hi => absurd hi (Nat.not_lt_zero i)).trans
        (and_iff_left fun h => Bool.noConfusion h)
    have hchunk (i : ℕ) (hi : i < xs.length) :
        ((StandardIter.chunks chunkSize (c.array.elems.map Item.elem)).map
            Item.chunk)[t.position i]? = xs[i]? ↔
          (StandardIter.chunks chunkSize (c.array.elems.map Item.elem))[t.position i]? =
            (StandardIter.chunks chunkSize c.items)[t.position i]? := by
      rw [← hxs i hi, items, List.getElem?_map, List.getElem?_map]
      exact (Option.map_injective fun _ _ h => Item.chunk.inj h).eq_iff
    rw [runs_chunks hlen, hbuilds, Fits, hlen, and_assoc, forall₂_congr hchunk]

/-! ## All items -/

/-- Collecting is the tour that asks for everything. -/
theorem collect_iff {it : Iter T} :
    (∃ fuel, it.collect fuel = some xs) ↔ it.Serves [] (Iter.Lasts (some []) false) xs := by
  have hcall (it : Iter T) : it.call [] = it.next := by
    rw [Iter.call]
    rcases it.next with _ | ⟨_ | ref, it'⟩ <;> rfl
  induction xs generalizing it with
  | nil =>
    simp only [Iter.Serves, Iter.Lasts, Option.mem_some_iff, forall_eq', hcall]
    constructor
    · rintro ⟨_ | fuel, h⟩
      · cases h
      obtain ⟨⟨_ | ref, it'⟩, hnext, h⟩ := Option.bind_eq_some_iff.mp h
      · exact ⟨none, it', hnext, rfl⟩
      · obtain ⟨x, -, h⟩ := Option.bind_eq_some_iff.mp h
        obtain ⟨xs, -, h⟩ := Option.bind_eq_some_iff.mp h
        cases h
    · rintro ⟨_ | ref, it', hnext, hout⟩
      · exact ⟨1, by rw [Iter.collect, hnext]; rfl⟩
      · cases hout
  | cons x xs ih =>
    simp only [Iter.Serves, hcall]
    constructor
    · rintro ⟨_ | fuel, h⟩
      · cases h
      obtain ⟨⟨_ | ref, it'⟩, hnext, h⟩ := Option.bind_eq_some_iff.mp h
      · cases h
      · obtain ⟨y, hderef, h⟩ := Option.bind_eq_some_iff.mp h
        obtain ⟨ys, hrest, h⟩ := Option.bind_eq_some_iff.mp h
        cases h
        exact ⟨ref, it', hnext, hderef, ih.mp ⟨fuel, hrest⟩⟩
    · rintro ⟨ref, it', hnext, hderef, hrest⟩
      obtain ⟨fuel, hfuel⟩ := ih.mpr hrest
      exact ⟨fuel + 1, by rw [Iter.collect, hnext]; simp [hderef, hfuel]⟩

theorem collect_iff_runs : (∃ fuel, c.collect fuel = some xs) ↔
    c.Runs (.whole xs.length) false xs := by
  simp only [collect, Runs]
  cases c.build with
  | none => simp
  | some it =>
    simp only [Option.bind_eq_bind, Option.bind_some]
    constructor
    · exact fun h => ⟨it, rfl, collect_iff.mp h⟩
    · rintro ⟨_, h, hserves⟩
      cases h
      exact collect_iff.mpr hserves

/-- **One-sided iteration**: a chain of `skip`, `step_by`, `zip` and `chunks` computes with words
and hands out the items of the standard chain, with every read inside what was placed in the
buffer, exactly if it computes with words and fits the arrays and buffers below, and `chunks` does
not find more items. -/
theorem items_exact (c : Chain T) :
    (c.InRange ∧ ∃ fuel, c.collect fuel = some c.items) ↔
      c.InRange ∧ c.Fits (.whole c.items.length) ∧ c.hasItem c.items.length = false := by
  refine and_congr_right fun _ => ?_
  have hruns := @runs_iff T c (.whole c.items.length) false c.items rfl fun i _ => by
    rw [Tour.position_whole]
  rw [Tour.position_whole] at hruns
  refine collect_iff_runs.trans (hruns.trans (and_congr_right fun _ => ?_))
  exact ⟨fun h => (h rfl).symm, fun h _ => h.symm⟩

/-- An array of eight elements that hold their indices -/
def eight : InternalGet ℕ where
  elems := List.range 8
  internalGet index m := some (((List.range 8).drop index).take m)
  internalGet_eq _ _ := rfl
  internalGet_end _ := rfl
  length_le h := by
    cases h
    exact List.length_take_le _ _

/-- The example of `step_by` in the source: the second item is read outside the buffer. -/
theorem step_by_outside :
    (Chain.stepBy (.onesidedIter eight) 3 (by decide)).items = [.elem 0, .elem 3, .elem 6] ∧
      ¬ ∃ fuel, (Chain.stepBy (.onesidedIter eight) 3 (by decide)).collect fuel =
        some [.elem 0, .elem 3, .elem 6] := by
  refine ⟨rfl, ?_⟩
  rintro ⟨_ | _ | fuel, h⟩
  · cases h
  · cases h
  · cases h

/-! ## Without jumps -/

/-- Without jumps every place is a good one. -/
theorem walks_nil {array : InternalGet T} {b : ℕ} (hb : 0 < array.len → 0 < b) {rounds : ℕ}
    {p : Place} (hin : p.Inside b) (hle : p.index + rounds ≤ array.len) :
    Walks array b [] (some []) rounds p := by
  have hvisit {p : Place} (hin : p.Inside b) : p.visit array.len b [] = some (p.read b) := by
    rw [Place.visit, if_pos hin]
    rfl
  induction rounds generalizing p with
  | zero =>
    intro jumps hjumps _
    cases hjumps
    rw [hvisit hin]
    rfl
  | succ rounds ih =>
    refine ⟨p.read b, hvisit hin, rfl, ih ?_ ?_⟩
    · have := hb (by omega)
      unfold Place.Inside at hin ⊢
      simp only [Place.read]
      split_ifs <;> omega
    · show p.index + 1 + rounds ≤ array.len
      omega

theorem bufferFits_whole {array : InternalGet T} {b : ℕ} (hb : 0 < array.len → 0 < b) :
    BufferFits array b (.whole array.len) ↔ (array.internalGet 0 b).isSome := by
  refine and_iff_left ⟨.first, rfl, walks_nil hb (Nat.zero_le _) ?_⟩
  exact Nat.le_of_eq (Nat.zero_add _)

/-- The iterators of an array hand out all its elements in order, for any length of the buffer:
only the first get has to return, which may fail for an array without elements. -/
theorem plain_items {c : Chain T} {array : InternalGet T} {b : ℕ} (hb : 0 < array.len → 0 < b)
    (hitems : c.items = array.elems.map .elem) (hfits : ∀ t, c.Fits t ↔ BufferFits array b t)
    (hitem : ∀ i, c.hasItem i = decide (i < array.len)) :
    (∃ fuel, c.collect fuel = some c.items) ↔ (array.internalGet 0 b).isSome := by
  have hlen : c.items.length = array.len := by
    rw [hitems, List.length_map]
    rfl
  rw [collect_iff_runs, runs_iff rfl fun i _ => by rw [Tour.position_whole], hfits, hlen,
    bufferFits_whole hb]
  refine and_iff_left fun _ => ?_
  rw [Tour.position_whole, hitem]
  exact (decide_eq_false (Nat.lt_irrefl _)).symm

theorem onesided_items (array : InternalGet T) :
    (∃ fuel, (Chain.onesidedIter array).collect fuel = some (array.elems.map .elem)) ↔
      (array.internalGet 0 1).isSome :=
  plain_items (c := .onesidedIter array) (fun _ => Nat.one_pos) rfl (fun _ => Iff.rfl)
    fun _ => rfl

theorem buffered_onesided_items (array : InternalGet T) (bufSize : ℕ) (pos : 0 < bufSize) :
    (∃ fuel, (Chain.bufferedOnesidedIter array bufSize pos).collect fuel =
        some (array.elems.map .elem)) ↔
      (array.internalGet 0 (min bufSize array.len)).isSome :=
  plain_items (c := .bufferedOnesidedIter array bufSize pos) (fun _ => by omega) rfl
    (fun _ => Iff.rfl) fun _ => rfl

end Chain

end Lamellar.OneSidedIterator
