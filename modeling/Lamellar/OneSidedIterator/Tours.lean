import Lamellar.OneSidedIterator.Places

/-!
# The calls that an iterator makes on the one below

All an iterator does with the one below is: some jumps when it is built, then `next` again and
again with some jumps after each item, and perhaps a last call that it uses for nothing but to
see whether there is an item (`Tour`). `Serves` says that the calls go through and hand out the
given items. An adaptor turns a tour on itself into tours on what it is made from; the lemmas
`serves_skip`, `serves_stepBy` and `serves_zip` follow the calls down.
-/

namespace Lamellar.OneSidedIterator

variable {T : Type}

/-- The jumps `first`, then `rounds` items, each followed by the jumps `each`, and with
`last = some jumps` one more call, followed by these jumps if it hands out an item. -/
structure Tour where
  first : List ℕ
  each : List ℕ
  rounds : ℕ
  last : Option (List ℕ)

namespace Tour

/-- The position that call `i` asks for -/
def position (t : Tour) (i : ℕ) : ℕ := t.first.sum + i * (t.each.sum + 1)

/-- All items, up to the call that finds the end. -/
def whole (rounds : ℕ) : Tour := ⟨[], [], rounds, some []⟩

def skip (count : ℕ) (t : Tour) : Tour := { t with first := count :: t.first }

/-- The jumps below a `step_by`, which makes one of its own after an item. -/
def below (stepSize : ℕ) (jumps : List ℕ) : List ℕ :=
  (stepSize - 1) :: jumps.map (· * stepSize)

def stepBy (stepSize : ℕ) (t : Tour) : Tour :=
  { first := t.first.map (· * stepSize), each := below stepSize t.each, rounds := t.rounds,
    last := t.last.map (below stepSize) }

/-- The last call of a `zip` on its first iterator: the item is dropped if the second has none. -/
def left (moreRight : Bool) (t : Tour) : Tour :=
  { t with last := t.last.map fun jumps => if moreRight then jumps else [] }

/-- The second iterator gets no last call if the first has no item. -/
def right (moreLeft : Bool) (t : Tour) : Tour :=
  { t with last := if moreLeft then t.last else none }

@[simp]
theorem position_whole (n i : ℕ) : (whole n).position i = i := by
  simp [whole, position]

theorem position_skip (t : Tour) (count i : ℕ) :
    (t.skip count).position i = count + t.position i := by
  simp only [skip, position, List.sum_cons]
  omega

theorem sum_map_mul (jumps : List ℕ) (s : ℕ) : (jumps.map (· * s)).sum = jumps.sum * s := by
  induction jumps with
  | nil => exact (Nat.zero_mul s).symm
  | cons count jumps ih => rw [List.map_cons, List.sum_cons, List.sum_cons, Nat.add_mul, ih]

theorem position_stepBy (t : Tour) {stepSize : ℕ} (hs : 0 < stepSize) (i : ℕ) :
    (t.stepBy stepSize).position i = t.position i * stepSize := by
  have heach : (below stepSize t.each).sum + 1 = (t.each.sum + 1) * stepSize := by
    rw [below, List.sum_cons, sum_map_mul, Nat.succ_mul]
    omega
  simp only [stepBy, position, heach, sum_map_mul]
  rw [← Nat.mul_assoc, ← Nat.add_mul]

end Tour

namespace Iter

def advances (it : Iter T) (counts : List ℕ) : Option (Iter T) := counts.foldlM advanceIndex it

/-- `next`, and the jumps after it if there is an item. -/
def call (it : Iter T) (jumps : List ℕ) : Option (Option (Ref T) × Iter T) := do
  let (out, it) ← it.next
  match out with
  | none => some (none, it)
  | some ref => do
    let it ← it.advances jumps
    some (some ref, it)

theorem call_end {it it' : Iter T} {jumps : List ℕ} :
    it.call jumps = some (none, it') ↔ it.next = some (none, it') := by
  rw [call]
  rcases it.next with _ | ⟨_ | ref, it₁⟩
  · rfl
  · rfl
  · cases hjumps : it₁.advances jumps <;> simp [hjumps]

theorem call_item {it it' : Iter T} {jumps : List ℕ} {ref : Ref T} :
    it.call jumps = some (some ref, it') ↔
      ∃ it₁, it.next = some (some ref, it₁) ∧ it₁.advances jumps = some it' := by
  rw [call]
  rcases it.next with _ | ⟨_ | ref', it₁⟩
  · simp
  · simp
  · cases hjumps : it₁.advances jumps with
    | none => simp [hjumps]
    | some it₂ =>
      simp only [Option.bind_eq_bind, Option.bind_some, hjumps, Option.some_inj, Prod.mk.injEq]
      constructor
      · rintro ⟨rfl, rfl⟩
        exact ⟨it₁, ⟨rfl, rfl⟩, hjumps⟩
      · rintro ⟨_, ⟨rfl, rfl⟩, h⟩
        rw [hjumps] at h
        exact ⟨rfl, Option.some_inj.mp h⟩

/-- The iterator hands out the items `xs`, with the jumps `each` after each of them, and `done`
holds of it afterwards. -/
def Serves (each : List ℕ) (done : Iter T → Prop) : List (Item T) → Iter T → Prop
  | [], it => done it
  | x :: xs, it => ∃ ref it', it.call each = some (some ref, it') ∧ it'.deref ref = some x ∧
      Serves each done xs it'

/-- The last call, if there is one, goes through and says whether there is `more`. -/
def Lasts (last : Option (List ℕ)) (more : Bool) (it : Iter T) : Prop :=
  ∀ jumps ∈ last, ∃ out it', it.call jumps = some (out, it') ∧ out.isSome = more

theorem Serves.imp {each : List ℕ} {done done' : Iter T → Prop} {xs : List (Item T)} {it : Iter T}
    (h : it.Serves each done xs) (himp : ∀ it, done it → done' it) : it.Serves each done' xs := by
  induction xs generalizing it with
  | nil => exact himp it h
  | cons x xs ih =>
    obtain ⟨ref, it', hcall, hderef, hrest⟩ := h
    exact ⟨ref, it', hcall, hderef, ih hrest⟩

/-! ## Down the adaptors -/

theorem advances_skip (it : Iter T) (counts : List ℕ) :
    (Iter.skip it).advances counts = (it.advances counts).map .skip := by
  have hwrap := Folds.foldlM_wrap advanceIndex advanceIndex Iter.skip id
    (fun _ _ => rfl) counts it
  rwa [List.map_id] at hwrap

theorem advances_stepBy (it : Iter T) (s : ℕ) (counts : List ℕ) :
    (Iter.stepBy it s).advances counts =
      (it.advances (counts.map (· * s))).map (Iter.stepBy · s) :=
  Folds.foldlM_wrap advanceIndex advanceIndex (Iter.stepBy · s) (· * s)
    (fun _ _ => Option.map_eq_bind.symm) counts it

theorem advances_zip (a b : Iter T) (counts : List ℕ) :
    (Iter.zip a b).advances counts =
      (a.advances counts).bind fun a => (b.advances counts).map fun b => .zip a b := by
  induction counts generalizing a b with
  | nil => rfl
  | cons count counts ih =>
    simp only [advances, List.foldlM_cons, advanceIndex]
    cases a.advanceIndex count with
    | none => rfl
    | some a =>
      cases b.advanceIndex count with
      | none =>
        simp only [Option.bind_eq_bind, Option.bind_some, Option.bind_none, Option.map_none]
        exact (Option.bind_fun_none _).symm
      | some b => exact ih a b

theorem advances_chunks (it : Iter T) (index chunkSize : ℕ) (counts : List ℕ) :
    (Iter.chunks it index chunkSize).advances counts =
      some (.chunks it (index + counts.sum * chunkSize) chunkSize) := by
  induction counts generalizing index with
  | nil => rw [List.sum_nil, Nat.zero_mul]; rfl
  | cons count counts ih =>
    simp only [advances, List.foldlM_cons, advanceIndex, Option.bind_eq_bind, Option.bind_some]
    rw [List.sum_cons, Nat.add_mul, ← Nat.add_assoc]
    exact ih _

theorem advances_oneSided (it : OneSidedIter T) (counts : List ℕ) :
    (Iter.oneSided it).advances counts =
      (counts.foldlM OneSidedIter.advanceIndex it).map .oneSided := by
  have hwrap := Folds.foldlM_wrap OneSidedIter.advanceIndex advanceIndex Iter.oneSided id
    (fun _ _ => rfl) counts it
  rwa [List.map_id] at hwrap

theorem call_skip (it : Iter T) (jumps : List ℕ) :
    (Iter.skip it).call jumps = (it.call jumps).map (Prod.map id .skip) := by
  simp only [call, next]
  rcases it.next with _ | ⟨_ | ref, it⟩
  · rfl
  · rfl
  · simp only [Option.bind_eq_bind, Option.bind_some, advances_skip]
    cases it.advances jumps with
    | none => rfl
    | some it => rfl

theorem call_stepBy (it : Iter T) (s : ℕ) (jumps : List ℕ) :
    (Iter.stepBy it s).call jumps =
      (it.call (Tour.below s jumps)).map (Prod.map id (Iter.stepBy · s)) := by
  simp only [call, next]
  rcases it.next with _ | ⟨_ | ref, it⟩
  · rfl
  · rfl
  · simp only [Option.bind_eq_bind, Option.bind_some, Tour.below, advances, List.foldlM_cons]
    cases it.advanceIndex (s - 1) with
    | none => rfl
    | some it =>
      have hjumps := advances_stepBy it s jumps
      simp only [advances] at hjumps
      simp only [Option.bind_some, hjumps]
      cases List.foldlM advanceIndex it (jumps.map (· * s)) with
      | none => rfl
      | some it => rfl

section Wrap

variable {wrap : Iter T → Iter T} {f : List ℕ → List ℕ}

theorem lasts_wrap (hcall : ∀ it jumps,
      (wrap it).call jumps = (it.call (f jumps)).map (Prod.map id wrap))
    {last : Option (List ℕ)} {more : Bool} {it : Iter T} :
    Lasts last more (wrap it) ↔ it.Lasts (last.map f) more := by
  cases last with
  | none => exact ⟨fun _ _ h => (nomatch h), fun _ _ h => (nomatch h)⟩
  | some jumps =>
    simp only [Lasts, Option.map_some, Option.mem_some_iff, forall_eq', hcall,
      Option.map_eq_some_iff]
    constructor
    · rintro ⟨out, it', ⟨⟨out, it₁⟩, hnext, heq⟩, hmore⟩
      cases heq
      exact ⟨out, it₁, hnext, hmore⟩
    · rintro ⟨out, it', hnext, hmore⟩
      exact ⟨out, wrap it', ⟨(out, it'), hnext, rfl⟩, hmore⟩

/-- An adaptor that hands on the items of the one below, and turns jumps into others. -/
theorem serves_wrap (hcall : ∀ it jumps,
      (wrap it).call jumps = (it.call (f jumps)).map (Prod.map id wrap))
    (hderef : ∀ it ref, (wrap it).deref ref = it.deref ref) {each : List ℕ}
    {last : Option (List ℕ)} {more : Bool} {xs : List (Item T)} {it : Iter T} :
    (wrap it).Serves each (Lasts last more) xs ↔
      it.Serves (f each) (Lasts (last.map f) more) xs := by
  induction xs generalizing it with
  | nil => exact lasts_wrap hcall
  | cons x xs ih =>
    constructor
    · rintro ⟨ref, it', hnext, hval, hrest⟩
      rw [hcall, Option.map_eq_some_iff] at hnext
      obtain ⟨⟨out, it₁⟩, hnext, heq⟩ := hnext
      cases heq
      rw [hderef] at hval
      exact ⟨ref, it₁, hnext, hval, ih.mp hrest⟩
    · rintro ⟨ref, it', hnext, hval, hrest⟩
      refine ⟨ref, wrap it', ?_, by rw [hderef, hval], ih.mpr hrest⟩
      rw [hcall, hnext]
      rfl

end Wrap

/-! ## Down a `zip` -/

theorem next_zip_item {a b it : Iter T} {ref : Ref T} :
    (Iter.zip a b).next = some (some ref, it) ↔ ∃ refA a' refB b',
      a.next = some (some refA, a') ∧ b.next = some (some refB, b') ∧
        ref = .pair refA refB ∧ it = .zip a' b' := by
  rw [next]
  rcases a.next with _ | ⟨_ | refA, a'⟩
  · simp
  · simp
  rcases b.next with _ | ⟨_ | refB, b'⟩
  · simp
  · simp
  simp only [Option.bind_eq_bind, Option.bind_some, Option.some_inj, Prod.mk.injEq]
  constructor
  · rintro ⟨rfl, rfl⟩
    exact ⟨refA, a', refB, b', ⟨rfl, rfl⟩, ⟨rfl, rfl⟩, rfl, rfl⟩
  · rintro ⟨_, _, _, _, ⟨rfl, rfl⟩, ⟨rfl, rfl⟩, rfl, rfl⟩
    exact ⟨rfl, rfl⟩

theorem call_zip_item {a b it : Iter T} {jumps : List ℕ} {ref : Ref T} :
    (Iter.zip a b).call jumps = some (some ref, it) ↔ ∃ refA a' refB b',
      a.call jumps = some (some refA, a') ∧ b.call jumps = some (some refB, b') ∧
        ref = .pair refA refB ∧ it = .zip a' b' := by
  simp only [call_item, next_zip_item]
  constructor
  · rintro ⟨_, ⟨refA, a₁, refB, b₁, ha, hb, rfl, rfl⟩, hjumps⟩
    rw [advances_zip, Option.bind_eq_some_iff] at hjumps
    obtain ⟨a', hja, hjumps⟩ := hjumps
    obtain ⟨b', hjb, rfl⟩ := Option.map_eq_some_iff.mp hjumps
    exact ⟨refA, a', refB, b', ⟨a₁, ha, hja⟩, ⟨b₁, hb, hjb⟩, rfl, rfl⟩
  · rintro ⟨refA, a', refB, b', ⟨a₁, ha, hja⟩, ⟨b₁, hb, hjb⟩, rfl, rfl⟩
    refine ⟨_, ⟨refA, a₁, refB, b₁, ha, hb, rfl, rfl⟩, ?_⟩
    rw [advances_zip, hja, hjb]
    rfl

/-- A `zip` has no item: the first iterator has none, or it has one and the second has none. -/
theorem call_zip_end {a b : Iter T} {jumps : List ℕ} :
    (∃ it, (Iter.zip a b).call jumps = some (none, it)) ↔
      (∃ a', a.call jumps = some (none, a')) ∨
        (∃ ref a', a.call [] = some (some ref, a')) ∧ ∃ b', b.call jumps = some (none, b') := by
  simp only [call_end, call_item, next]
  rcases a.next with _ | ⟨_ | refA, a'⟩
  · simp
  · simp
  rcases b.next with _ | ⟨_ | refB, b'⟩
  · simp
  · simp [advances]
  · simp

/-- The items of a `zip` are those of both iterators, and what holds afterwards is what holds of
both. -/
theorem serves_zip {ι : Type} {doneA doneB : ι → Iter T → Prop} {done : Iter T → Prop}
    (hdone : ∀ a b, done (.zip a b) ↔ ∃ i, doneA i a ∧ doneB i b) {each : List ℕ}
    {xs ys : List (Item T)} (hlen : xs.length = ys.length) {a b : Iter T} :
    (Iter.zip a b).Serves each done (List.zipWith .pair xs ys) ↔
      ∃ i, a.Serves each (doneA i) xs ∧ b.Serves each (doneB i) ys := by
  induction xs generalizing ys a b with
  | nil =>
    obtain rfl := List.length_eq_zero_iff.mp hlen.symm
    exact hdone a b
  | cons x xs ih =>
    obtain ⟨y, ys, rfl⟩ := List.exists_cons_of_length_eq_add_one hlen.symm
    have hrest := @ih ys (Nat.succ_inj.mp hlen)
    constructor
    · rintro ⟨ref, it', hcall, hderef, hserves⟩
      obtain ⟨refA, a', refB, b', ha, hb, rfl, rfl⟩ := call_zip_item.mp hcall
      simp only [deref, Option.bind_eq_bind, Option.bind_eq_some_iff, Option.some_inj,
        Item.pair.injEq] at hderef
      obtain ⟨_, hx, _, hy, rfl, rfl⟩ := hderef
      obtain ⟨i, hxs, hys⟩ := hrest.mp hserves
      exact ⟨i, ⟨refA, a', ha, hx, hxs⟩, refB, b', hb, hy, hys⟩
    · rintro ⟨i, ⟨refA, a', ha, hx, hxs⟩, refB, b', hb, hy, hys⟩
      refine ⟨_, _, call_zip_item.mpr ⟨refA, a', refB, b', ha, hb, rfl, rfl⟩, ?_,
        hrest.mpr ⟨i, hxs, hys⟩⟩
      rw [deref, hx, hy]
      rfl

theorem lasts_zip {jumps : List ℕ} {more : Bool} {a b : Iter T} :
    Lasts (some jumps) more (Iter.zip a b) ↔ ∃ moreA moreB : Bool, more = (moreA && moreB) ∧
      a.Lasts (some (if moreB then jumps else [])) moreA ∧
        b.Lasts (if moreA then some jumps else none) moreB := by
  simp only [Lasts, Option.mem_some_iff, forall_eq']
  constructor
  · rintro ⟨_ | ref, it', hcall, rfl⟩
    · rcases call_zip_end.mp ⟨it', hcall⟩ with ⟨a', ha⟩ | ⟨⟨refA, a', ha⟩, b', hb⟩
      · exact ⟨false, true, rfl, ⟨none, a', ha, rfl⟩, fun _ h => (nomatch h)⟩
      · refine ⟨true, false, rfl, ⟨some refA, a', ha, rfl⟩, fun jumps' h => ?_⟩
        cases h
        exact ⟨none, b', hb, rfl⟩
    · obtain ⟨refA, a', refB, b', ha, hb, rfl, rfl⟩ := call_zip_item.mp hcall
      refine ⟨true, true, rfl, ⟨some refA, a', ha, rfl⟩, fun jumps' h => ?_⟩
      cases h
      exact ⟨some refB, b', hb, rfl⟩
  · rintro ⟨moreA, moreB, rfl, ⟨outA, a', ha, houtA⟩, hb⟩
    cases outA with
    | none =>
      subst houtA
      obtain ⟨it', hcall⟩ := call_zip_end.mpr (Or.inl ⟨a', call_end.mpr (call_end.mp ha)⟩)
      exact ⟨none, it', hcall, rfl⟩
    | some refA =>
      subst houtA
      obtain ⟨outB, b', hcallB, houtB⟩ := hb jumps rfl
      cases outB with
      | none =>
        subst houtB
        obtain ⟨it', hcall⟩ := call_zip_end.mpr (Or.inr ⟨⟨refA, a', ha⟩, b', hcallB⟩)
        exact ⟨none, it', hcall, rfl⟩
      | some refB =>
        subst houtB
        exact ⟨_, _, call_zip_item.mpr ⟨refA, a', refB, b', ha, hcallB, rfl, rfl⟩, rfl⟩

/-- The tours on both iterators of a `zip` -/
theorem serves_zip_lasts {each : List ℕ} {last : Option (List ℕ)} {more : Bool}
    {xs ys : List (Item T)} (hlen : xs.length = ys.length) {a b : Iter T} :
    (Iter.zip a b).Serves each (Lasts last more) (List.zipWith .pair xs ys) ↔
      ∃ m : { m : Bool × Bool // last.isSome → more = (m.1 && m.2) },
        a.Serves each (Lasts (last.map fun jumps => if m.1.2 then jumps else []) m.1.1) xs ∧
          b.Serves each (Lasts (if m.1.1 then last else none) m.1.2) ys := by
  refine serves_zip (fun a b => ?_) hlen
  cases last with
  | none =>
    refine ⟨fun _ => ⟨⟨(true, true), fun h => (nomatch h)⟩, fun _ h => (nomatch h), ?_⟩,
      fun _ _ h => (nomatch h)⟩
    exact fun _ h => (nomatch h)
  | some jumps =>
    rw [lasts_zip]
    constructor
    · rintro ⟨moreA, moreB, hmore, ha, hb⟩
      exact ⟨⟨(moreA, moreB), fun _ => hmore⟩, ha, hb⟩
    · rintro ⟨⟨⟨moreA, moreB⟩, hmore⟩, ha, hb⟩
      exact ⟨moreA, moreB, hmore rfl, ha, hb⟩

end Iter

end Lamellar.OneSidedIterator
