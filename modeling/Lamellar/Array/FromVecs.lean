import Lamellar.Array.SubArray
import Lamellar.Array.Writes
import Lamellar.OneSidedIterator.Views
import Mathlib.Algebra.BigOperators.Group.List.Basic

/-!
# Arrays from vectors: `team_from` of `src/array/unsafe.rs`

Each PE of a team brings a vector. The PEs write the lengths of their vectors into an array with
an element for each of them, read all of it, and put their vectors into a new array, each behind
those of the PEs before it. Barriers separate the three phases; within a phase the writes of the
PEs, and the messages of all their puts, take effect in any order.

An array has an element for each PE at least: a shorter one is a view of the front of such an
array.
-/

namespace Lamellar.Array

open OneSidedIterator Segments UnsafeArrayInner

variable {T : Type}

/-! ## New arrays -/

/-- `UnsafeArray::new`: the handle of PE `myPe`, or none where `sub_array` panics. -/
def UnsafeArrayInner.new (build : Build) (myPe numPes arraySize : ℕ)
    (distribution : Distribution) : Option UnsafeArrayInner :=
  let fullArraySize := max arraySize numPes
  let array := view myPe numPes fullArraySize distribution 0 fullArraySize
  if fullArraySize ≠ arraySize then array.subArray build (between 0 arraySize) else some array

theorem UnsafeArrayInner.new_eq_view (build : Build) (myPe numPes arraySize : ℕ)
    (distribution : Distribution) : new build myPe numPes arraySize distribution =
      some (view myPe numPes (max arraySize numPes) distribution 0 arraySize) := by
  unfold new
  by_cases hsize : max arraySize numPes = arraySize
  · simp only [hsize, ne_eq, not_true_eq_false, if_false]
  · simp only [ne_eq, hsize, not_false_eq_true, if_true]
    exact subArray_between.mpr ⟨0, arraySize, Nat.le_max_left _ _,
      Build.result_of_lt build (show 0 < word by decide), Build.sub_of_le build (Nat.zero_le _),
      rfl⟩

/-- The memory of an array of `len` elements. -/
def ArrayMem (T : Type) (len numPes : ℕ) : Type :=
  { r : MemoryRegion T // r.perPe = perPeSize len numPes }

/-- The memory of a new array: bytes that are zero. They are the value `zero`. -/
def ArrayMem.new (zero : T) (len numPes : ℕ) : ArrayMem T len numPes :=
  ⟨⟨perPeSize len numPes, fun _ _ => zero⟩, rfl⟩

def ArrayMem.write {len numPes : ℕ} (r : ArrayMem T len numPes) (pe index : ℕ) (data : List T) :
    ArrayMem T len numPes := ⟨r.1.write pe index data, r.2⟩

/-! ## `team_from` -/

/-- What the collective call depends on besides the vectors: what the gets and the puts of each
PE do, and the orders of the writes to `local_sizes` and of the messages of the puts. -/
structure Collective (T : Type) where
  build : Build
  zero : T
  gets : ℕ → Env ℕ
  puts : ℕ → Env T
  writes : Schedule
  messages : Schedule

/-- The `put` of a vector, without the wait for its messages -/
def UnsafeArrayInner.putAms (a : UnsafeArrayInner) (env : Env T) (index : ℕ) (buf : List T) :
    Option (List (ℕ × PutAm T)) :=
  match a.distribution with
  | .block => a.blockPutAms env.sizeOf index buf
  | .cyclic => a.cyclicPutAms env.junk env.sizeOf index buf

/-- A message for `pe`, with the handle of its sender -/
structure Launched (T : Type) where
  array : UnsafeArrayInner
  pe : ℕ
  am : PutAm T

def Launched.exec (r : MemoryRegion T) (m : Launched T) : Option (MemoryRegion T) :=
  m.am.exec (m.array.onPe m.pe) r

/-- `local_sizes`, the handle of PE `myPe`; it is `UnsafeArray::new` of as many elements as there
are PEs. -/
def localSizes (myPe numPes : ℕ) : UnsafeArrayInner := view myPe numPes numPes .block 0 numPes

theorem localSizes_wellFormed {numPes : ℕ} (hP : 0 < numPes) (myPe : ℕ) :
    (localSizes myPe numPes).WellFormed numPes :=
  view_wellFormed hP (Nat.le_refl _) (Nat.le_of_eq (Nat.zero_add _))

theorem new_eq_localSizes (build : Build) (myPe numPes : ℕ) :
    new build myPe numPes numPes .block = some (localSizes myPe numPes) := by
  rw [new_eq_view, Nat.max_self]
  rfl

namespace Collective

/-- `local_sizes.local_as_mut_slice()[0] = local_vals.len()` on each PE. -/
def writeSizes (env : Collective T) (vals : List (List T)) :
    Option (ArrayMem ℕ vals.length vals.length) :=
  (env.writes.run (List.range vals.length)).foldlM (fun r pe => do
    let localVals ← vals[pe]?
    let (start, stop) ← (localSizes pe vals.length).localAsMutSlice
    if start < stop then some (r.write pe start [localVals.length]) else none) (.new 0 _ _)

/-- The items of `local_sizes.buffered_onesided_iter(team.num_pes)` on PE `myPe`. -/
def readSizes (env : Collective T) (fuel myPe : ℕ) {numPes : ℕ} (hP : 0 < numPes)
    (r : ArrayMem ℕ numPes numPes) : Option (List ℕ) := do
  let array := InternalGet.ofView (env.gets myPe) r.1 (localSizes_wellFormed hP myPe) r.2
  let items ← (Chain.bufferedOnesidedIter array numPes hP).collect fuel
  items.mapM fun
    | .elem localSize => some localSize
    | _ => none

/-- The loop over the items: `size` and `my_start` -/
def sumSizes (myPe : ℕ) (sizes : List ℕ) : ℕ × ℕ :=
  sizes.zipIdx.foldl (fun s x =>
    (s.1 + x.1, if x.2 < myPe then s.2 + x.1 else s.2)) (0, 0)

/-- The array on PE `myPe`, and the messages of its put. -/
def launch (env : Collective T) (fuel : ℕ) (vals : List (List T)) (hP : 0 < vals.length)
    (distribution : Distribution) (r : ArrayMem ℕ vals.length vals.length) (myPe : ℕ) :
    Option (UnsafeArrayInner × List (Launched T)) := do
  let localVals ← vals[myPe]?
  let (size, myStart) := sumSizes myPe (← env.readSizes fuel myPe hP r)
  let array ← new env.build myPe vals.length size distribution
  if 0 < localVals.length then
    let ams ← array.putAms (env.puts myPe) myStart localVals
    some (array, ams.map fun x => ⟨array, x.1, x.2⟩)
  else some (array, [])

/-- `team_from` on all PEs: their handles, and the memory after the last barrier. The length of
the array is the one that PE 0 has read. -/
def teamFrom (env : Collective T) (fuel : ℕ → ℕ) (vals : List (List T)) (hP : 0 < vals.length)
    (distribution : Distribution) : Option (List UnsafeArrayInner × MemoryRegion T) := do
  let r ← env.writeSizes vals
  let pes ← (List.range vals.length).mapM fun pe =>
    env.launch (fuel pe) vals hP distribution r pe
  let (size, _) := sumSizes 0 (← env.readSizes (fuel 0) 0 hP r)
  let mem := ArrayMem.new env.zero (max size vals.length) vals.length
  let mem ← (env.messages.run (pes.flatMap Prod.snd)).foldlM Launched.exec mem.1
  some (pes.map Prod.fst, mem)

end Collective

/-! ## The lengths -/

section Sizes

variable {P : ℕ}

theorem home_localSizes (hP : 0 < P) (pe : ℕ) : home .block P P pe = (pe, 0) := by
  rw [home, segOf_self hP, cut_self hP, Nat.sub_self]

/-- Each PE has one slot of the array. -/
theorem localAsMutSlice_localSizes {pe : ℕ} (hpe : pe < P) :
    (localSizes pe P).localAsMutSlice = some (0, 1) := by
  have hP : 0 < P := Nat.lt_of_le_of_lt (Nat.zero_le _) hpe
  have hwf := localSizes_wellFormed hP pe
  have hcut : (localSizes pe P).offset < cut P (localSizes pe P).numPes (pe + 1) := by
    rw [show (localSizes pe P).numPes = P from rfl, cut_self hP]
    exact Nat.zero_lt_succ pe
  have hslice := localAsMutSlice_block hwf rfl hP hcut
  have hnum := numElemsPe_block hwf rfl pe
  simp only [show (localSizes pe P).numPes = P from rfl, cut_self hP,
    show (localSizes pe P).offset = 0 from rfl, show (localSizes pe P).size = P from rfl] at hnum
  rw [show (localSizes pe P).onPe pe = localSizes pe P from rfl,
    show (localSizes pe P).offset = 0 from rfl, hnum] at hslice
  rw [hslice, Nat.zero_sub, Nat.sub_zero, Nat.sub_zero, Nat.min_eq_left (by omega),
    Nat.add_sub_cancel_left]

theorem writeSizes_eq_some (env : Collective T) (vals : List (List T)) :
    ∃ r, env.writeSizes vals = some r ∧
      ∀ pe localVals, vals[pe]? = some localVals → r.1.cell pe 0 = localVals.length := by
  obtain ⟨r, hfold, -, hdone⟩ := Folds.foldlM_progress
    (fun (r : ArrayMem ℕ vals.length vals.length) pe => do
      let localVals ← vals[pe]?
      let (start, stop) ← (localSizes pe vals.length).localAsMutSlice
      if start < stop then some (r.write pe start [localVals.length]) else none)
    (fun _ => True)
    (fun r pe => ∀ localVals, vals[pe]? = some localVals → r.1.cell pe 0 = localVals.length)
    (· < vals.length) (· = ·)
    (by
      intro r pe _ hpe
      refine ⟨r.write pe 0 [vals[pe].length], ?_, trivial, ?_⟩
      · simp only [List.getElem?_eq_getElem hpe, localAsMutSlice_localSizes hpe,
          Option.bind_eq_bind, Option.bind_some, Nat.zero_lt_one, if_true]
      · rintro k hk localVals hvals
        by_cases heq : pe = k
        · subst heq
          rw [List.getElem?_eq_getElem hpe, Option.some.injEq] at hvals
          rw [← hvals]
          have hdata : [vals[pe].length][0]? = some vals[pe].length := rfl
          exact write_cell_of_data hdata
        · have hcell := hk.resolve_right heq localVals hvals
          rw [← hcell]
          refine write_cell_of_ne fun j _ hslot => heq (Prod.ext_iff.mp hslot).1.symm)
    (env.writes.run (List.range vals.length)) (.new 0 _ _) trivial
    (fun pe hpe => List.mem_range.mp ((env.writes.perm _).mem_iff.mp hpe))
  refine ⟨r, hfold, fun pe localVals hvals => hdone pe (.inr ⟨pe, ?_, rfl⟩) localVals hvals⟩
  exact (env.writes.perm _).mem_iff.mpr
    (List.mem_range.mpr (List.getElem?_eq_some_iff.mp hvals).1)

/-- After the barrier a PE reads all the lengths. -/
theorem readSizes_eq_some (env : Collective T) (myPe : ℕ) {sizes : List ℕ}
    (hlen : sizes.length = P) (hP : 0 < P) {r : ArrayMem ℕ P P}
    (hr : ∀ pe size, sizes[pe]? = some size → r.1.cell pe 0 = size) :
    ∃ fuel, env.readSizes fuel myPe hP r = some sizes := by
  subst hlen
  have helems : viewElems (localSizes myPe sizes.length) sizes.length r.1 = sizes := by
    apply List.ext_getElem
    · rw [viewElems, List.length_map, List.length_range]
      rfl
    · intro i hi hi'
      simp only [viewElems, List.getElem_map, List.getElem_range, MemoryRegion.valueAt]
      have hhome := home_localSizes hP i
      simp only [localSizes, view, Nat.zero_add, hhome]
      exact hr i _ (List.getElem?_eq_getElem hi')
  obtain ⟨fuel, hcollect⟩ := (view_items (env.gets myPe) (localSizes_wellFormed hP myPe) r.2 hP
    sizes.length hP).2
  refine ⟨fuel, ?_⟩
  rw [Collective.readSizes, hcollect, helems, Option.bind_eq_bind, Option.bind_some]
  have hmap := @Folds.mapM_map_eq_some ℕ (Item ℕ) ℕ (fun
    | .elem localSize => some localSize
    | _ => none) .elem id sizes fun _ _ => rfl
  rwa [List.map_id] at hmap

end Sizes

namespace Collective

theorem sumSizes_eq (myPe : ℕ) (sizes : List ℕ) :
    sumSizes myPe sizes = (sizes.sum, (sizes.take myPe).sum) := by
  induction sizes using List.reverseRecOn with
  | nil => simp [sumSizes]
  | append_singleton sizes size ih =>
    rw [sumSizes] at ih ⊢
    rw [List.zipIdx_append, List.foldl_append, ih, List.sum_append, List.take_append]
    simp only [List.zipIdx_singleton, List.foldl_cons, List.foldl_nil, List.sum_singleton,
      Nat.zero_add, List.sum_append, Prod.mk.injEq, true_and]
    rcases Nat.lt_or_ge sizes.length myPe with hlt | hge
    · have htake : [size].take (myPe - sizes.length) = [size] := by
        apply List.take_of_length_le
        rw [List.length_singleton]
        omega
      rw [if_pos hlt, htake, List.sum_singleton]
    · rw [if_neg (Nat.not_lt.mpr hge), Nat.sub_eq_zero_of_le hge, List.take_zero, List.sum_nil,
        Nat.add_zero]

/-! ## The vectors in the array -/

/-- The number of elements of the PEs before `pe` -/
def startOf (vals : List (List T)) (pe : ℕ) : ℕ := ((vals.map List.length).take pe).sum

theorem getElem?_flatten_startOf {vals : List (List T)} {pe t : ℕ} {localVals : List T}
    (hvals : vals[pe]? = some localVals) (ht : t < localVals.length) :
    vals.flatten[startOf vals pe + t]? = localVals[t]? := by
  obtain ⟨hpe, rfl⟩ := List.getElem?_eq_some_iff.mp hvals
  rw [startOf, ← List.getElem?_drop, List.drop_sum_flatten, List.drop_eq_getElem_cons hpe,
    List.flatten_cons, List.getElem?_append_left ht]

theorem startOf_add_le {vals : List (List T)} {pe : ℕ} {localVals : List T}
    (hvals : vals[pe]? = some localVals) :
    startOf vals pe + localVals.length ≤ vals.flatten.length := by
  obtain ⟨hpe, rfl⟩ := List.getElem?_eq_some_iff.mp hvals
  have htake := congrArg List.length (List.take_sum_flatten vals pe)
  have hdrop := congrArg List.length (List.drop_sum_flatten vals pe)
  rw [List.length_take, List.length_flatten (L := vals.take pe), List.map_take] at htake
  rw [List.length_drop, List.drop_eq_getElem_cons hpe, List.flatten_cons,
    List.length_append] at hdrop
  unfold startOf
  omega

/-- Each element is one of a PE's vector. -/
theorem exists_startOf {vals : List (List T)} {k : ℕ} (hk : k < vals.flatten.length) :
    ∃ pe localVals t, vals[pe]? = some localVals ∧ t < localVals.length ∧
      k = startOf vals pe + t := by
  induction vals generalizing k with
  | nil => exact absurd hk (Nat.not_lt_zero k)
  | cons v vals ih =>
    rw [List.flatten_cons, List.length_append] at hk
    rcases Nat.lt_or_ge k v.length with hlt | hge
    · exact ⟨0, v, k, rfl, hlt, (Nat.zero_add k).symm⟩
    · obtain ⟨pe, localVals, t, hvals, ht, hkt⟩ := ih (show k - v.length < _ by omega)
      refine ⟨pe + 1, localVals, t, hvals, ht, ?_⟩
      simp only [startOf, List.map_cons, List.take_succ_cons, List.sum_cons] at hkt ⊢
      omega

end Collective

open Collective

/-- A message that puts a part of a buffer puts a part of all that the buffer is a part of. -/
theorem UnsafeArrayInner.PutAm.Addressed.shift {a : UnsafeArrayInner} {am : PutAm T}
    {len index pe start count myPe : ℕ} {buf all : List T} {f : ℕ → ℕ}
    (ham : PutAm.Addressed am (a.onPe myPe) len index buf pe start count f)
    (hbuf : ∀ t < buf.length, all[index + t]? = buf[t]?) (hlen : index + buf.length ≤ all.length) :
    PutAm.Addressed am a len 0 all pe start count (index + f ·) where
  places := by
    refine ⟨fun t ht => ?_, fun t ht => ?_, fun t ht => ?_⟩
    · rw [ham.places.data_eq t ht, hbuf _ (ham.places.lt_length t ht)]
    · have hlt := ham.places.lt_length t ht
      omega
    · have hhome := ham.places.home_eq t ht
      rw [onPe_distribution, onPe_numPes, onPe_offset] at hhome
      rw [Nat.add_zero, ← Nat.add_assoc]
      exact hhome
  range := ham.range
  enough := ham.enough
  fits := ham.fits

theorem putAms_covering {a : UnsafeArrayInner} {len index : ℕ} {buf : List T} (env : Env T)
    (h : a.WellFormed len) (hn : 0 < buf.length) (hfit : index + buf.length ≤ a.size) :
    ∃ ams, a.putAms env index buf = some ams ∧
      Covering a len index buf Prod.fst Prod.snd ams := by
  unfold putAms
  cases hd : a.distribution with
  | block => exact blockPutAms_covering env.sizeOf h hd hn hfit
  | cyclic => exact cyclicPutAms_covering env.junk env.sizeOf h hd hn hfit

/-- The view of the new array with all the vectors in it, on PE `pe`. -/
def concatView (vals : List (List T)) (d : Distribution) (pe : ℕ) : UnsafeArrayInner :=
  view pe vals.length (max vals.flatten.length vals.length) d 0 vals.flatten.length

theorem concatView_wellFormed {vals : List (List T)} (hP : 0 < vals.length) (d : Distribution)
    (pe : ℕ) : (concatView vals d pe).WellFormed (max vals.flatten.length vals.length) :=
  view_wellFormed hP (Nat.le_max_right _ _) (by omega)

/-- The messages of one PE: each puts a part of all the vectors, and together they put the vector
of the PE. -/
structure Sends (vals : List (List T)) (d : Distribution) (pe : ℕ) (localVals : List T)
    (ms : List (Launched T)) : Prop where
  handle : ∀ m ∈ ms, m.array = concatView vals d pe
  addressed : ∀ m ∈ ms, ∃ start count f, m.am.Addressed (concatView vals d 0)
    (max vals.flatten.length vals.length) 0 vals.flatten m.pe start count f
  cover : ∀ k < localVals.length, ∃ m ∈ ms, ∃ start count f, m.am.Addressed (concatView vals d 0)
    (max vals.flatten.length vals.length) 0 vals.flatten m.pe start count f ∧
      ∃ t < count, startOf vals pe + k = f t

section Launch

variable {env : Collective T} {vals : List (List T)} {hP : 0 < vals.length} {fuel pe : ℕ}
  {r : ArrayMem ℕ vals.length vals.length} {localVals : List T}

theorem launch_eq (d : Distribution) (hvals : vals[pe]? = some localVals)
    (hread : env.readSizes fuel pe hP r = some (vals.map List.length)) :
    env.launch fuel vals hP d r pe = if 0 < localVals.length then
      ((concatView vals d pe).putAms (env.puts pe) (startOf vals pe) localVals).map fun ams =>
        (concatView vals d pe, ams.map fun x => ⟨concatView vals d pe, x.1, x.2⟩)
      else some (concatView vals d pe, []) := by
  have hsize : (vals.map List.length).sum = vals.flatten.length := List.length_flatten.symm
  simp only [launch, hvals, hread, sumSizes_eq, hsize, new_eq_view, Option.bind_eq_bind,
    Option.bind_some, startOf, concatView, Option.map_eq_bind]
  rfl

theorem launch_eq_some (d : Distribution) (hvals : vals[pe]? = some localVals)
    (hread : env.readSizes fuel pe hP r = some (vals.map List.length)) :
    ∃ ms, env.launch fuel vals hP d r pe = some (concatView vals d pe, ms) ∧
      Sends vals d pe localVals ms := by
  rw [launch_eq d hvals hread]
  by_cases hn : 0 < localVals.length
  · obtain ⟨ams, hams, hcover⟩ := putAms_covering (env.puts pe)
      (concatView_wellFormed hP d pe) hn (startOf_add_le hvals)
    have hshift {x : ℕ × PutAm T} {start count : ℕ} {f : ℕ → ℕ}
        (hx : x.2.Addressed (concatView vals d pe) (max vals.flatten.length vals.length)
          (startOf vals pe) localVals x.1 start count f) :
        x.2.Addressed (concatView vals d 0) (max vals.flatten.length vals.length) 0 vals.flatten
          x.1 start count (startOf vals pe + f ·) :=
      PutAm.Addressed.shift hx (fun _ => getElem?_flatten_startOf hvals) (startOf_add_le hvals)
    rw [if_pos hn, hams, Option.map_some]
    refine ⟨_, rfl, ?_, ?_, ?_⟩
    · intro m hm
      obtain ⟨x, -, rfl⟩ := List.mem_map.mp hm
      rfl
    · intro m hm
      obtain ⟨x, hx, rfl⟩ := List.mem_map.mp hm
      obtain ⟨start, count, f, ham⟩ := hcover.addressed x hx
      exact ⟨start, count, _, hshift ham⟩
    · intro k hk
      obtain ⟨x, hx, start, count, f, ham, t, ht, hkt⟩ := hcover.cover k hk
      exact ⟨_, List.mem_map_of_mem hx, start, count, _, hshift ham, t, ht, by rw [hkt]⟩
  · rw [if_neg hn]
    refine ⟨[], rfl, ?_, ?_, ?_⟩
    · exact fun m hm => nomatch hm
    · exact fun m hm => nomatch hm
    · exact fun k hk => absurd (Nat.lt_of_le_of_lt (Nat.zero_le k) hk) hn

end Launch

/-- Together the messages of all the PEs put all the vectors. -/
theorem covering_of_sends {vals : List (List T)} {d : Distribution}
    {ms : ℕ → List (Launched T)}
    (hms : ∀ pe localVals, vals[pe]? = some localVals → Sends vals d pe localVals (ms pe)) :
    Covering (concatView vals d 0) (max vals.flatten.length vals.length) 0 vals.flatten
      Launched.pe Launched.am ((List.range vals.length).flatMap ms) where
  addressed := by
    intro m hm
    obtain ⟨pe, hpe, hm⟩ := List.mem_flatMap.mp hm
    have hvals := List.getElem?_eq_getElem (List.mem_range.mp hpe)
    exact (hms pe _ hvals).addressed m hm
  cover := by
    intro k hk
    obtain ⟨pe, localVals, t, hvals, ht, rfl⟩ := exists_startOf hk
    obtain ⟨m, hm, hcover⟩ := (hms pe localVals hvals).cover t ht
    have hpe := (List.getElem?_eq_some_iff.mp hvals).1
    exact ⟨m, List.mem_flatMap.mpr ⟨pe, List.mem_range.mpr hpe, hm⟩, hcover⟩

/-- All PEs launch their messages. -/
theorem mapM_launch {env : Collective T} {vals : List (List T)} {hP : 0 < vals.length}
    (d : Distribution) {r : ArrayMem ℕ vals.length vals.length} {fuel : ℕ → ℕ}
    (hread : ∀ pe, env.readSizes (fuel pe) pe hP r = some (vals.map List.length)) :
    ∃ ms : ℕ → List (Launched T),
      ((List.range vals.length).mapM fun pe => env.launch (fuel pe) vals hP d r pe) =
        some ((List.range vals.length).map fun pe => (concatView vals d pe, ms pe)) ∧
      ∀ pe localVals, vals[pe]? = some localVals → Sends vals d pe localVals (ms pe) := by
  have hlaunch (pe : ℕ) : ∃ ms, ∀ localVals, vals[pe]? = some localVals →
      env.launch (fuel pe) vals hP d r pe = some (concatView vals d pe, ms) ∧
        Sends vals d pe localVals ms := by
    cases hvals : vals[pe]? with
    | none => exact ⟨[], fun _ h => nomatch h⟩
    | some localVals =>
      obtain ⟨ms, hms⟩ := launch_eq_some d hvals (hread pe)
      exact ⟨ms, fun _ h => Option.some.inj h ▸ hms⟩
  choose ms hms using hlaunch
  refine ⟨ms, Folds.mapM_eq_map fun pe hpe => ?_, fun pe localVals h => (hms pe localVals h).2⟩
  exact (hms pe _ (List.getElem?_eq_getElem (List.mem_range.mp hpe))).1

/-- Every PE gets a handle of the same array, as long as the vectors together, and its elements
are those of the vectors in the order of the PEs. -/
theorem team_from_concat (env : Collective T) (vals : List (List T)) (hP : 0 < vals.length)
    (d : Distribution) :
    ∃ fuel arrays mem, env.teamFrom fuel vals hP d = some (arrays, mem) ∧
      arrays.length = vals.length ∧ ∀ a ∈ arrays, a.size = (vals.map List.length).sum ∧
        ∀ i < a.size, a.element mem i = vals.flatten[i]? := by
  obtain ⟨r, hwrite, hsizes⟩ := writeSizes_eq_some env vals
  have hread (pe : ℕ) : ∃ fuel, env.readSizes fuel pe hP r = some (vals.map List.length) := by
    refine readSizes_eq_some env pe (List.length_map _) hP fun pe size hsize => ?_
    obtain ⟨localVals, hvals, rfl⟩ := Option.map_eq_some_iff.mp (List.getElem?_map ▸ hsize)
    exact hsizes pe localVals hvals
  choose fuel hread using hread
  obtain ⟨ms, hlaunch, hsends⟩ := mapM_launch d hread
  have hcover := covering_of_sends hsends
  have hwf := concatView_wellFormed hP d 0
  have hexec : ∀ m ∈ (List.range vals.length).flatMap ms, ∀ r,
      Launched.exec r m = m.am.exec ((concatView vals d 0).onPe m.pe) r := by
    intro m hm r
    obtain ⟨pe, hpe, hm⟩ := List.mem_flatMap.mp hm
    have hvals := List.getElem?_eq_getElem (List.mem_range.mp hpe)
    rw [Launched.exec, (hsends pe _ hvals).handle m hm]
    rfl
  obtain ⟨mem, hrun, -, hstored⟩ := hcover.run (env.messages.perm _) hwf
    (ArrayMem.new env.zero (max vals.flatten.length vals.length) vals.length).2 hexec
  have hsize : (vals.map List.length).sum = vals.flatten.length := List.length_flatten.symm
  refine ⟨fuel, (List.range vals.length).map (concatView vals d), mem, ?_, ?_, ?_⟩
  · have hsum : (sumSizes 0 (vals.map List.length)).1 = vals.flatten.length := by
      rw [sumSizes_eq, hsize]
    simp only [teamFrom, hwrite, hlaunch, hread, Option.bind_eq_bind, Option.bind_some,
      List.flatMap_map, List.map_map]
    rw [hsum, hrun]
    rfl
  · rw [List.length_map, List.length_range]
  · intro a ha
    obtain ⟨pe, -, rfl⟩ := List.mem_map.mp ha
    refine ⟨hsize.symm, fun i hi => ?_⟩
    have hlt : 0 + i < (concatView vals d pe).size := by rwa [Nat.zero_add]
    have helement := element_eq_valueAt (r := mem) (concatView_wellFormed hP d pe) hlt
    rw [Nat.zero_add] at helement
    rw [helement]
    exact (hstored i hi).symm

/-- Three PEs, and one element in all -/
theorem team_from_concat_three :
    0 < 3 ∧ ∃ fuel arrays mem,
      (⟨.checked, 0, fun _ => ⟨8, fun _ _ => 0, .inOrder⟩, fun _ => ⟨8, fun _ _ => 0, .inOrder⟩,
        .inOrder, .inOrder⟩ : Collective ℕ).teamFrom fuel [[], [7], []] (by decide) .cyclic =
          some (arrays, mem) ∧
        arrays.length = 3 ∧ ∀ a ∈ arrays, a.size = 1 ∧ ∀ i < a.size, a.element mem i = [7][i]? :=
  ⟨by decide, team_from_concat _ [[], [7], []] (by decide) .cyclic⟩

end Lamellar.Array
