import Lamellar.Array.Layout
import Lamellar.Lib.Tiling
import Lamellar.Lib.While

/-!
# The ranges of the schedules

`sched_static`, `sched_work_stealing`, `sched_chunk` and `sched_guided` share the positions
`[0, num_elems_local)` out in ranges `(start, end)`. In every case the ranges follow one
another from `0` on, and the last one ends at `num_elems_local` or, for `sched_chunk` and
`sched_guided`, at or past it. The `f64` computations are read as exact rationals.

All loops end because the cuts between ranges increase: no range is shorter than one element,
before the rounding and after it. The outer loop of `sched_guided` shares at least one element
out in every turn.
-/

namespace Lamellar.Consumer

open Lamellar.Array Lamellar.Tiling

/-- The schedules of `for_each_with_schedule`. -/
inductive Schedule where
  | static
  | dynamic
  | chunk (size : ℕ)
  | guided
  | workStealing
  deriving DecidableEq, Repr

/-- `while cut(i) < stop { ranges.push((cut(i), cut(i + 1))); i += 1 }`, and `i` at its end; `none`
without enough fuel. -/
def pushRanges (cut : ℕ → ℕ) (stop fuel : ℕ) : Option (ℕ × List (ℕ × ℕ)) :=
  While.loop (fun s => cut s.1 < stop) (fun s => (s.1 + 1, s.2 ++ [(cut s.1, cut (s.1 + 1))])) fuel
    (0, [])

/-- The ranges of `sched_static` and `sched_work_stealing`. -/
def staticRanges (numWorkers numElemsLocal fuel : ℕ) : Option (List (ℕ × ℕ)) := do
  let elemsPerThread := max 1 ((numElemsLocal : ℚ) / numWorkers)
  let (_, ranges) ← pushRanges (fun worker => roundUsize (worker * elemsPerThread)) numElemsLocal
    fuel
  some ranges

/-- The ranges of `sched_chunk`, where `cur_i` is `i * chunk_size` after `i` turns. -/
def chunkRanges (chunkSize numElemsLocal fuel : ℕ) : Option (List (ℕ × ℕ)) := do
  let (_, ranges) ← pushRanges (fun i => i * chunkSize) numElemsLocal fuel
  some ranges

/-- The variables of `sched_guided` that its outer loop changes -/
structure Guided where
  numElemsLocal : ℚ
  elemsPerThread : ℚ
  curI : ℕ
  ranges : List (ℕ × ℕ)

/-- One turn of the outer loop -/
def guidedTurn (numWorkers numElemsLocalOrig fuel : ℕ) (s : Guided) : Option Guided := do
  let numElemsLocal := s.numElemsLocal / 1.61
  let endI := min (s.curI + roundUsize numElemsLocal) numElemsLocalOrig
  let cut (i : ℕ) := s.curI + roundUsize (i * s.elemsPerThread)
  let (i, ranges) ← pushRanges cut endI fuel
  some { numElemsLocal, elemsPerThread := numElemsLocal / numWorkers, curI := cut i,
         ranges := s.ranges ++ ranges }

def guidedLoop (numWorkers numElemsLocalOrig inner : ℕ) : ℕ → Guided → Option Guided
  | 0, s => if 100 < s.elemsPerThread ∧ s.curI < numElemsLocalOrig then none else some s
  | fuel + 1, s =>
    if 100 < s.elemsPerThread ∧ s.curI < numElemsLocalOrig then do
      guidedLoop numWorkers numElemsLocalOrig inner fuel
        (← guidedTurn numWorkers numElemsLocalOrig inner s)
    else some s

/-- The ranges of `sched_guided`. -/
def guidedRanges (numWorkers numElemsLocal fuel : ℕ) : Option (List (ℕ × ℕ)) := do
  let s ← guidedLoop numWorkers numElemsLocal fuel fuel
    { numElemsLocal, elemsPerThread := (numElemsLocal : ℚ) / numWorkers, curI := 0, ranges := [] }
  let elemsPerThread := if s.elemsPerThread < 1 then 1 else s.elemsPerThread
  let (_, ranges) ←
    pushRanges (fun i => s.curI + roundUsize (i * elemsPerThread)) numElemsLocal fuel
  some (s.ranges ++ ranges)

/-- The ranges that a schedule creates; `sched_dynamic` creates none. -/
def Schedule.ranges (numWorkers numElemsLocal fuel : ℕ) : Schedule → Option (List (ℕ × ℕ))
  | .static | .workStealing => staticRanges numWorkers numElemsLocal fuel
  | .dynamic => some []
  | .chunk size => chunkRanges size numElemsLocal fuel
  | .guided => guidedRanges numWorkers numElemsLocal fuel

/-! ## The loop that pushes ranges -/

/-- Where the cuts increase, the loop ends, and its ranges lead from the first cut to the first one
that is not below `stop`. -/
theorem pushRanges_spec {cut : ℕ → ℕ} (hcut : StrictMono cut) (stop : ℕ) :
    ∃ fuel k ranges, pushRanges cut stop fuel = some (k, ranges) ∧
      (∀ m, stop ≤ cut m → k ≤ m) ∧ stop ≤ cut k ∧ Tiles (cut 0) ranges (cut k) ∧
      ∀ rng ∈ ranges, rng.1 < stop := by
  have hends : ∃ fuel s, pushRanges cut stop fuel = some s := by
    refine While.exists_loop (fun s => stop - s.1) (fun s hcond => ?_) (0, [])
    have hlt := of_decide_eq_true hcond
    have hle := hcut.le_apply (x := s.1)
    omega
  obtain ⟨fuel, ⟨k, ranges⟩, hend⟩ := hends
  have hinv (s : ℕ × List (ℕ × ℕ)) (hs : (∀ m, stop ≤ cut m → s.1 ≤ m) ∧
      Tiles (cut 0) s.2 (cut s.1) ∧ ∀ rng ∈ s.2, rng.1 < stop)
      (hcond : decide (cut s.1 < stop) = true) :
      (∀ m, stop ≤ cut m → s.1 + 1 ≤ m) ∧
        Tiles (cut 0) (s.2 ++ [(cut s.1, cut (s.1 + 1))]) (cut (s.1 + 1)) ∧
          ∀ rng ∈ s.2 ++ [(cut s.1, cut (s.1 + 1))], rng.1 < stop := by
    obtain ⟨_, htiles, hstarts⟩ := hs
    have hlt := of_decide_eq_true hcond
    refine ⟨fun m hm => ?_, htiles.snoc (hcut (Nat.lt_succ_self s.1)), fun rng hrng => ?_⟩
    · exact hcut.lt_iff_lt.mp (Nat.lt_of_lt_of_le hlt hm)
    · rcases List.mem_append.mp hrng with hrng | hrng
      · exact hstarts rng hrng
      · rw [List.mem_singleton.mp hrng]
        exact hlt
  obtain ⟨⟨hfirst, htiles, hstarts⟩, hcond⟩ := While.loop_inv hinv
    ⟨fun m _ => Nat.zero_le m, rfl, fun rng hrng => nomatch hrng⟩ hend
  exact ⟨fuel, k, ranges, hend, hfirst, Nat.le_of_not_lt (of_decide_eq_false hcond), htiles,
    hstarts⟩

theorem pushRanges_of_le {cut : ℕ → ℕ} {stop fuel more : ℕ} {s : ℕ × List (ℕ × ℕ)}
    (h : pushRanges cut stop fuel = some s) (hle : fuel ≤ more) :
    pushRanges cut stop more = some s := by
  rw [← Nat.add_sub_cancel' hle]
  exact While.loop_add h _

/-! ## Rounding -/

theorem roundUsize_natCast (n : ℕ) : roundUsize n = n := by
  unfold roundUsize
  rw [Nat.floor_eq_iff (by positivity)]
  constructor
  · linarith
  · linarith

theorem roundUsize_zero : roundUsize 0 = 0 := by
  have hcast := roundUsize_natCast 0
  rwa [Nat.cast_zero] at hcast

theorem roundUsize_mono : Monotone roundUsize := fun _ _ h =>
  Nat.floor_mono (by linarith)

theorem roundUsize_add_one {x : ℚ} (hx : 0 ≤ x) : roundUsize (x + 1) = roundUsize x + 1 := by
  unfold roundUsize
  rw [show x + 1 + 1 / 2 = x + 1 / 2 + 1 by ring, Nat.floor_add_one (by positivity)]

/-- Steps of at least one element do not vanish when they are rounded. -/
theorem cut_strictMono {e : ℚ} (he : 1 ≤ e) (start : ℕ) :
    StrictMono fun i : ℕ => start + roundUsize (i * e) := by
  refine strictMono_nat_of_lt_succ fun i => ?_
  have hpos : (0 : ℚ) ≤ i * e := by positivity
  have hmono := roundUsize_mono (show (i : ℚ) * e + 1 ≤ (i + 1 : ℕ) * e by push_cast; linarith)
  rw [roundUsize_add_one hpos] at hmono
  omega

/-! ## The ranges of each schedule -/

/-- The ranges begin below `n`, and follow one another from `0` to `hi`. -/
structure Cover (n hi : ℕ) (ranges : List (ℕ × ℕ)) : Prop where
  tiles : Tiles 0 ranges hi
  le : n ≤ hi
  starts : ∀ rng ∈ ranges, rng.1 < n

theorem staticRanges_cover {numWorkers : ℕ} (hpos : 0 < numWorkers) (n : ℕ) :
    ∃ fuel ranges, staticRanges numWorkers n fuel = some ranges ∧ Cover n n ranges := by
  have hw : (0 : ℚ) < numWorkers := by exact_mod_cast hpos
  generalize he : max 1 ((n : ℚ) / numWorkers) = e
  have hcut : StrictMono fun worker : ℕ => roundUsize (worker * e) := by
    have h := cut_strictMono (he ▸ le_max_left _ _ : 1 ≤ e) 0
    simp only [Nat.zero_add] at h
    exact h
  -- the ranges stop where a cut falls on `n`
  obtain ⟨m, hm⟩ : ∃ m : ℕ, roundUsize (m * e) = n := by
    rcases le_total n numWorkers with hle | hge
    · have hdiv : (n : ℚ) / numWorkers ≤ 1 := by
        rw [div_le_one hw]
        exact_mod_cast hle
      rw [max_eq_left hdiv] at he
      exact ⟨n, by rw [← he, mul_one, roundUsize_natCast]⟩
    · have hdiv : 1 ≤ (n : ℚ) / numWorkers := by
        rw [le_div_iff₀ hw, one_mul]
        exact_mod_cast hge
      rw [max_eq_right hdiv] at he
      exact ⟨numWorkers, by rw [← he, mul_div_cancel₀ _ hw.ne', roundUsize_natCast]⟩
  obtain ⟨fuel, k, ranges, hend, hfirst, hstop, htiles, hstarts⟩ := pushRanges_spec hcut n
  have hle : roundUsize (k * e) ≤ roundUsize (m * e) :=
    hcut.monotone (hfirst m (Nat.le_of_eq hm.symm))
  rw [show roundUsize (k * e) = n by omega, Nat.cast_zero, zero_mul, roundUsize_zero] at htiles
  refine ⟨fuel, ranges, ?_, htiles, Nat.le_refl n, hstarts⟩
  rw [staticRanges, he, hend]
  rfl

theorem staticRanges_of_le {numWorkers n fuel more : ℕ} {ranges : List (ℕ × ℕ)}
    (h : staticRanges numWorkers n fuel = some ranges) (hle : fuel ≤ more) :
    staticRanges numWorkers n more = some ranges := by
  obtain ⟨s, hend, hranges⟩ := Option.bind_eq_some_iff.mp h
  rw [staticRanges, pushRanges_of_le hend hle]
  exact hranges

/-- The ranges are the same, whatever the fuel. -/
theorem staticRanges_tiles {numWorkers n fuel : ℕ} (hpos : 0 < numWorkers) {ranges : List (ℕ × ℕ)}
    (h : staticRanges numWorkers n fuel = some ranges) : Tiles 0 ranges n := by
  obtain ⟨fuel', ranges', hend, hcover⟩ := staticRanges_cover hpos n
  have heq := (staticRanges_of_le h (Nat.le_add_right fuel fuel')).symm.trans
    (staticRanges_of_le hend (Nat.le_add_left fuel' fuel))
  cases heq
  exact hcover.tiles

theorem chunkRanges_cover {chunkSize : ℕ} (hpos : 0 < chunkSize) (n : ℕ) :
    ∃ fuel ranges hi, chunkRanges chunkSize n fuel = some ranges ∧ Cover n hi ranges := by
  have hcut : StrictMono fun i => i * chunkSize := fun i j hij =>
    Nat.mul_lt_mul_of_pos_right hij hpos
  obtain ⟨fuel, k, ranges, hend, -, hstop, htiles, hstarts⟩ := pushRanges_spec hcut n
  rw [Nat.zero_mul] at htiles
  refine ⟨fuel, ranges, _, ?_, htiles, hstop, hstarts⟩
  rw [chunkRanges, hend]
  rfl

/-- Ranges of at least one element each, from `start` on -/
theorem pushRanges_round {e : ℚ} (he : 1 ≤ e) (start stop : ℕ) :
    ∃ fuel k ranges, (∀ more, fuel ≤ more →
        pushRanges (fun i => start + roundUsize (i * e)) stop more = some (k, ranges)) ∧
      stop ≤ start + roundUsize (k * e) ∧ Tiles start ranges (start + roundUsize (k * e)) ∧
      ∀ rng ∈ ranges, rng.1 < stop := by
  obtain ⟨fuel, k, ranges, hend, -, hstop, htiles, hstarts⟩ :=
    pushRanges_spec (cut_strictMono he start) stop
  rw [Nat.cast_zero, zero_mul, roundUsize_zero, Nat.add_zero] at htiles
  exact ⟨fuel, k, ranges, fun more hle => pushRanges_of_le hend hle, hstop, htiles, hstarts⟩

/-- A turn of the outer loop of `sched_guided` shares at least one element out. -/
theorem guidedTurn_spec {numWorkers n : ℕ} (hpos : 0 < numWorkers) {s : Guided}
    (hs : s.elemsPerThread = s.numElemsLocal / numWorkers) (htiles : Tiles 0 s.ranges s.curI)
    (hstarts : ∀ rng ∈ s.ranges, rng.1 < n) (hmore : 100 < s.elemsPerThread)
    (hcur : s.curI < n) :
    ∃ fuel s', (∀ inner, fuel ≤ inner → guidedTurn numWorkers n inner s = some s') ∧
      s'.elemsPerThread = s'.numElemsLocal / numWorkers ∧ Tiles 0 s'.ranges s'.curI ∧
      (∀ rng ∈ s'.ranges, rng.1 < n) ∧ s.curI < s'.curI := by
  obtain ⟨fuel, k, ranges, hend, hstop, hnew, hbelow⟩ := pushRanges_round
    (show 1 ≤ s.elemsPerThread by linarith) s.curI
    (min (s.curI + roundUsize (s.numElemsLocal / 1.61)) n)
  have hround : 1 ≤ roundUsize (s.numElemsLocal / 1.61) := by
    have hw : (1 : ℚ) ≤ numWorkers := by exact_mod_cast hpos
    rw [hs, lt_div_iff₀ (by linarith)] at hmore
    have hone := roundUsize_mono (show ((1 : ℕ) : ℚ) ≤ s.numElemsLocal / 1.61 by
      rw [le_div_iff₀ (by norm_num)]
      push_cast
      linarith)
    rwa [roundUsize_natCast] at hone
  refine ⟨fuel, ⟨s.numElemsLocal / 1.61, s.numElemsLocal / 1.61 / numWorkers,
    s.curI + roundUsize (k * s.elemsPerThread), s.ranges ++ ranges⟩, fun inner hle => ?_, rfl,
    htiles.append hnew, fun rng hrng => ?_, ?_⟩
  · rw [guidedTurn, hend inner hle]
    rfl
  · rcases List.mem_append.mp hrng with hrng | hrng
    · exact hstarts rng hrng
    · have := hbelow rng hrng
      omega
  · dsimp only
    omega

theorem guidedLoop_spec {numWorkers n : ℕ} (hpos : 0 < numWorkers) {s : Guided}
    (hs : s.elemsPerThread = s.numElemsLocal / numWorkers) (htiles : Tiles 0 s.ranges s.curI)
    (hstarts : ∀ rng ∈ s.ranges, rng.1 < n) :
    ∃ enough s', (∀ inner fuel, enough ≤ inner → enough ≤ fuel →
        guidedLoop numWorkers n inner fuel s = some s') ∧
      Tiles 0 s'.ranges s'.curI ∧ ∀ rng ∈ s'.ranges, rng.1 < n := by
  induction hleft : n - s.curI using Nat.strongRecOn generalizing s with
  | ind left ih =>
    subst hleft
    by_cases hmore : 100 < s.elemsPerThread ∧ s.curI < n
    · obtain ⟨enough, s₁, hturn, hs₁, htiles₁, hstarts₁, hlt⟩ :=
        guidedTurn_spec hpos hs htiles hstarts hmore.1 hmore.2
      obtain ⟨enough', s', hend, hspec⟩ := ih _ (by omega) hs₁ htiles₁ hstarts₁ rfl
      refine ⟨max enough enough' + 1, s', fun inner fuel hinner hfuel => ?_, hspec⟩
      obtain ⟨fuel, rfl⟩ : ∃ k, fuel = k + 1 := ⟨fuel - 1, by omega⟩
      rw [guidedLoop, if_pos hmore, hturn inner (by omega)]
      exact hend inner fuel (by omega) (by omega)
    · refine ⟨0, s, fun inner fuel _ _ => ?_, htiles, hstarts⟩
      cases fuel with
      | zero => rw [guidedLoop, if_neg hmore]
      | succ fuel => rw [guidedLoop, if_neg hmore]

theorem guidedRanges_cover {numWorkers : ℕ} (hpos : 0 < numWorkers) (n : ℕ) :
    ∃ fuel ranges hi, guidedRanges numWorkers n fuel = some ranges ∧ Cover n hi ranges := by
  obtain ⟨enough, s, hloop, htiles, hstarts⟩ := guidedLoop_spec hpos (n := n)
    (s := ⟨n, n / numWorkers, 0, []⟩) rfl rfl fun rng hrng => nomatch hrng
  have he : 1 ≤ if s.elemsPerThread < 1 then 1 else s.elemsPerThread := by
    split
    · exact le_refl 1
    · exact le_of_not_gt ‹_›
  obtain ⟨fuel, k, ranges, hend, hstop, hnew, hbelow⟩ := pushRanges_round he s.curI n
  refine ⟨max enough fuel, s.ranges ++ ranges, _, ?_, htiles.append hnew, hstop, fun rng hrng => ?_⟩
  · rw [guidedRanges, hloop _ _ (le_max_left _ _) (le_max_left _ _)]
    simp only [Option.bind_eq_bind, Option.bind_some, hend _ (le_max_right _ _)]
  · rcases List.mem_append.mp hrng with hrng | hrng
    · exact hstarts rng hrng
    · exact hbelow rng hrng

/-- The loops of every schedule that creates ranges end; the ranges follow one another from `0` on,
share no position, and cover all positions below `n`. Those of `sched_static` and
`sched_work_stealing` end at `n`. -/
theorem ranges_partition {numWorkers : ℕ} (hpos : 0 < numWorkers) (n : ℕ) {sched : Schedule}
    (hsched : sched ≠ .dynamic) (hchunk : ∀ size, sched = .chunk size → 0 < size) :
    ∃ fuel ranges hi, sched.ranges numWorkers n fuel = some ranges ∧ n ≤ hi ∧
      (sched = .static ∨ sched = .workStealing → hi = n) ∧ Tiles 0 ranges hi ∧
      ranges.Pairwise (fun rng rng' => rng.2 ≤ rng'.1) ∧ (∀ rng ∈ ranges, rng.1 < n) ∧
      ∀ i < n, ∃ rng ∈ ranges, rng.1 ≤ i ∧ i < rng.2 := by
  have hcover : ∃ fuel ranges hi, sched.ranges numWorkers n fuel = some ranges ∧
      (sched = .static ∨ sched = .workStealing → hi = n) ∧ Cover n hi ranges := by
    cases sched with
    | dynamic => exact absurd rfl hsched
    | chunk size =>
      obtain ⟨fuel, ranges, hi, hend, hcover⟩ := chunkRanges_cover (hchunk size rfl) n
      exact ⟨fuel, ranges, hi, hend, by simp, hcover⟩
    | guided =>
      obtain ⟨fuel, ranges, hi, hend, hcover⟩ := guidedRanges_cover hpos n
      exact ⟨fuel, ranges, hi, hend, by simp, hcover⟩
    | static | workStealing =>
      obtain ⟨fuel, ranges, hend, hcover⟩ := staticRanges_cover hpos n
      exact ⟨fuel, ranges, n, hend, fun _ => rfl, hcover⟩
  obtain ⟨fuel, ranges, hi, hend, hn, hcover⟩ := hcover
  exact ⟨fuel, ranges, hi, hend, hcover.le, hn, hcover.tiles, hcover.tiles.pairwise,
    hcover.starts, fun i hi => hcover.tiles.exists_mem (Nat.zero_le i)
      (Nat.lt_of_lt_of_le hi hcover.le)⟩

theorem ranges_partition_chunks : ∃ fuel ranges hi,
    (Schedule.chunk 3).ranges 2 7 fuel = some ranges ∧ 7 ≤ hi ∧
      (Schedule.chunk 3 = .static ∨ Schedule.chunk 3 = .workStealing → hi = 7) ∧
      Tiles 0 ranges hi ∧ ranges.Pairwise (fun rng rng' => rng.2 ≤ rng'.1) ∧
      (∀ rng ∈ ranges, rng.1 < 7) ∧ ∀ i < 7, ∃ rng ∈ ranges, rng.1 ≤ i ∧ i < rng.2 :=
  ranges_partition (by decide) 7 (by decide) fun size h => by
    cases h
    decide

/-- Seven elements for three workers, and for ten -/
example : staticRanges 3 7 4 = some [(0, 2), (2, 5), (5, 7)] ∧
    staticRanges 10 2 3 = some [(0, 1), (1, 2)] := by
  decide +kernel

end Lamellar.Consumer
