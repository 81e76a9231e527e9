import Lamellar.Lib.Folds
import Lamellar.TaskGroup.RoundTrip
import Lamellar.TaskGroup.Splitting

/-!
# What `exec` launches

For every queue, the ranges that `exec` launches are to be non-empty and consecutive, to cover
the messages that wait, and to be read back as the messages. `exec_exact` says when they are:
a queue of at most a megabyte must have messages that wait, which it has not when it has been
executed before; a larger one must not have a message that reaches the hard limit, nor end in
messages without bytes behind a boundary.
-/

namespace Lamellar.TaskGroup

open Tiling

variable {A : Type} {C : AmCodec A}

/-! ## One queue -/

namespace Queue

variable {q : Queue A}

/-- When `exec` splits a queue completely. -/
structure Splittable (C : AmCodec A) (q : Queue A) : Prop where
  small : q.size ≤ splitSize → q.ams ≠ []
  large : splitSize < q.size → Splits (q.sizes C) (reqSize q.size)

theorem ranges_add {fuel : ℕ} {rs : List (ℕ × ℕ)} (h : q.ranges C fuel = some rs) (k : ℕ) :
    q.ranges C (fuel + k) = some rs := by
  rw [ranges] at h ⊢
  split
  · rename_i hsize
    rw [if_pos hsize, Option.map_eq_some_iff] at h
    obtain ⟨s, hs, rfl⟩ := h
    rw [splitLoop, While.loop_add hs]
    rfl
  · rename_i hsize
    rwa [if_neg hsize] at h

theorem splittable_iff :
    (∃ fuel rs, q.ranges C fuel = some rs ∧ Tiles 0 rs q.ams.length) ↔ q.Splittable C := by
  have hlen : (q.sizes C).length = q.ams.length := List.length_map _
  by_cases hsize : splitSize < q.size
  · have hiff := @splits_iff (q.sizes C) _ (reqSize_lt q.size)
    rw [hlen] at hiff
    simp only [ranges, if_pos hsize]
    constructor
    · rintro ⟨fuel, rs, hrs, htiles⟩
      obtain ⟨s, hs, rfl⟩ := Option.map_eq_some_iff.mp hrs
      exact ⟨fun hsmall => absurd hsize (Nat.not_lt.mpr hsmall),
        fun _ => hiff.mp ⟨fuel, s, hs, htiles⟩⟩
    · intro h
      obtain ⟨fuel, s, hs, htiles⟩ := hiff.mpr (h.large hsize)
      exact ⟨fuel, _, Option.map_eq_some_iff.mpr ⟨s, hs, rfl⟩, htiles⟩
  · simp only [ranges, if_neg hsize]
    constructor
    · rintro ⟨_, _, ⟨⟩, htiles⟩
      exact ⟨fun _ => List.ne_nil_of_length_pos htiles.2.1, fun hlarge => absurd hlarge hsize⟩
    · intro h
      have hpos := List.length_pos_iff.mpr (h.small (Nat.not_lt.mp hsize))
      exact ⟨0, _, rfl, rfl, hpos, rfl⟩

end Queue

/-! ## The launches -/

/-- What is launched for the queue with key `key` -/
def launchedFor (numPes key : ℕ) (launched : List (Dest × AmGroupAm A)) : List (AmGroupAm A) :=
  launched.filterMap fun l => if l.1 = .ofKey numPes key then some l.2 else none

/-- The ranges of the messages `ams` -/
def ofRanges (ams : List A) (rs : List (ℕ × ℕ)) : List (AmGroupAm A) :=
  rs.map fun r => ⟨ams, r.1, r.2⟩

theorem Dest.ofKey_inj {numPes key key' : ℕ} (h : Dest.ofKey numPes key = .ofKey numPes key') :
    key = key' := by
  rw [ofKey, ofKey] at h
  split at h <;> split at h <;> cases h
  · rename_i hkey hkey'
    exact hkey.trans hkey'.symm
  · rfl

/-- A queue is launched whole, for a PE of the team or all of them, or has nothing to launch. -/
theorem execQueue_eq_some_iff {numPes fuel key : ℕ} {q : Queue A}
    {ls : List (Dest × AmGroupAm A)} : AmGroup.execQueue C numPes fuel key q = some ls ↔
      ∃ rs, q.ranges C fuel = some rs ∧ (key ≤ numPes ∨ rs = []) ∧
        ls = (ofRanges q.ams rs).map fun m => (.ofKey numPes key, m) := by
  rw [AmGroup.execQueue, Option.bind_eq_bind, Option.bind_eq_some_iff]
  refine exists_congr fun rs => and_congr_right fun _ => ?_
  by_cases hkey : key ≤ numPes
  · have hlaunch : rs.mapM (fun r => launch numPes key (⟨q.ams, r.1, r.2⟩ : AmGroupAm A)) = _ :=
      Folds.mapM_eq_map fun r _ => if_pos hkey
    rw [hlaunch, Option.some_inj, ofRanges, List.map_map]
    exact ⟨fun h => ⟨Or.inl hkey, h.symm⟩, fun h => h.2.symm⟩
  · cases rs with
    | nil => simp [ofRanges, eq_comm]
    | cons r rs => simp [launch, hkey]

theorem launchedFor_append (numPes key : ℕ) (ls ls' : List (Dest × AmGroupAm A)) :
    launchedFor numPes key (ls ++ ls') = launchedFor numPes key ls ++ launchedFor numPes key ls' :=
  List.filterMap_append

theorem launchedFor_map (numPes key key' : ℕ) (ms : List (AmGroupAm A)) :
    launchedFor numPes key (ms.map fun m => (.ofKey numPes key', m)) =
      if key' = key then ms else [] := by
  rw [launchedFor, List.filterMap_map]
  split
  · rename_i hkey
    subst hkey
    simp
  · rename_i hkey
    have hdest : Dest.ofKey numPes key' ≠ .ofKey numPes key := fun h => hkey (Dest.ofKey_inj h)
    simp [hdest]

/-- The launches of the queues, in the order of their keys -/
theorem launchedFor_flatten {numPes fuel : ℕ} {es : List (ℕ × Queue A)}
    {lss : List (List (Dest × AmGroupAm A))}
    (h : es.mapM (fun e => AmGroup.execQueue C numPes fuel e.1 e.2) = some lss) (key : ℕ) :
    launchedFor numPes key lss.flatten = (es.filter fun e => e.1 = key).flatMap fun e =>
      ofRanges e.2.ams ((e.2.ranges C fuel).getD []) := by
  induction es generalizing lss with
  | nil =>
    cases h
    rfl
  | cons e es ih =>
    rw [List.mapM_cons] at h
    obtain ⟨ls, hls, h⟩ := Option.bind_eq_some_iff.mp h
    obtain ⟨lss', hrest, h⟩ := Option.bind_eq_some_iff.mp h
    cases h
    obtain ⟨rs, hrs, -, rfl⟩ := execQueue_eq_some_iff.mp hls
    rw [List.flatten_cons, launchedFor_append, launchedFor_map, ih hrest, List.filter_cons]
    by_cases hkey : e.1 = key
    · simp [hkey, hrs]
    · simp [hkey]

theorem exec_eq_some {g g' : AmGroup A} {fuel : ℕ} {launched : List (Dest × AmGroupAm A)}
    (h : g.exec C fuel = some (launched, g')) :
    ∃ lss, g.reqs.entries.mapM (fun e => AmGroup.execQueue C g.numPes fuel e.1 e.2) = some lss ∧
      launched = lss.flatten ∧
      g' = { g with reqs := g.reqs.map fun q => { q with ams := [] } } := by
  rw [AmGroup.exec, Option.bind_eq_bind, Option.bind_eq_some_iff] at h
  obtain ⟨lss, hlss, h⟩ := h
  cases h
  exact ⟨lss, hlss, rfl, rfl⟩

/-- What `exec` launches for a queue is for its ranges. -/
theorem exec_queue {g g' : AmGroup A} {fuel : ℕ} {launched : List (Dest × AmGroupAm A)}
    (h : g.exec C fuel = some (launched, g')) {key : ℕ} {q : Queue A}
    (hq : g.reqs.get? key = some q) : ∃ rs, q.ranges C fuel = some rs ∧
      (key ≤ g.numPes ∨ rs = []) ∧ launchedFor g.numPes key launched = ofRanges q.ams rs := by
  obtain ⟨lss, hlss, rfl, -⟩ := exec_eq_some h
  have hfor := launchedFor_flatten hlss key
  rw [g.reqs.filter_key, hq] at hfor
  obtain ⟨ls, -, hls⟩ := Folds.mapM_mem hlss (SortedMap.get?_eq_some_iff.mp hq)
  obtain ⟨rs, hrs, hkey, -⟩ := execQueue_eq_some_iff.mp hls
  refine ⟨rs, hrs, hkey, hfor.trans ?_⟩
  simp [hrs]

theorem exec_no_queue {g g' : AmGroup A} {fuel : ℕ} {launched : List (Dest × AmGroupAm A)}
    (h : g.exec C fuel = some (launched, g')) {key : ℕ} (hnone : g.reqs.get? key = none) :
    launchedFor g.numPes key launched = [] := by
  obtain ⟨lss, hlss, rfl, -⟩ := exec_eq_some h
  rw [launchedFor_flatten hlss, g.reqs.filter_key, hnone]
  rfl

/-- `exec` returns when every queue is split within some fuel. -/
theorem exists_exec {g : AmGroup A} (h : ∀ key q, g.reqs.get? key = some q →
      ∃ fuel rs, q.ranges C fuel = some rs ∧ (key ≤ g.numPes ∨ rs = [])) :
    ∃ fuel launched g', g.exec C fuel = some (launched, g') := by
  have hfuel : ∃ fuel, ∀ e ∈ g.reqs.entries,
      (AmGroup.execQueue C g.numPes fuel e.1 e.2).isSome := by
    refine Folds.exists_common (fun fuel k e he => ?_) fun e he => ?_
    · obtain ⟨ls, hls⟩ := Option.isSome_iff_exists.mp he
      obtain ⟨rs, hrs, hkey, -⟩ := execQueue_eq_some_iff.mp hls
      exact Option.isSome_iff_exists.mpr
        ⟨_, execQueue_eq_some_iff.mpr ⟨rs, Queue.ranges_add hrs k, hkey, rfl⟩⟩
    · obtain ⟨fuel, rs, hrs, hkey⟩ := h e.1 e.2 (SortedMap.get?_eq_some_iff.mpr he)
      exact ⟨fuel, Option.isSome_iff_exists.mpr
        ⟨_, execQueue_eq_some_iff.mpr ⟨rs, hrs, hkey, rfl⟩⟩⟩
  obtain ⟨fuel, hall⟩ := hfuel
  obtain ⟨lss, hlss⟩ := Option.isSome_iff_exists.mp (Folds.isSome_mapM hall)
  exact ⟨fuel, _, _, by rw [AmGroup.exec, hlss]; rfl⟩

/-! ## The messages that wait -/

theorem pending_snoc (numPes key : ℕ) (ops : List (Op A)) (op : Op A) :
    pending numPes key (ops ++ [op]) = op.pending numPes key (pending numPes key ops) :=
  List.foldl_append

/-- A queue holds the messages that wait for its key. -/
structure Waiting (numPes : ℕ) (ops : List (Op A)) (g : AmGroup A) : Prop where
  numPes_eq : g.numPes = numPes
  ams : ∀ key, ((g.reqs.get? key).getD .empty).ams = pending numPes key ops
  length_lt : ∀ key, (pending numPes key ops).length < 2 ^ 64

theorem push_eq_some {α : Type} {width : ℕ} {xs ys : List α} {x : α} (hwidth : 0 < width)
    (h : push width xs x = some ys) : ys = xs ++ [x] ∧ ys.length < 2 ^ 64 := by
  rw [push] at h
  split at h
  · rename_i hroom
    cases h
    refine ⟨rfl, ?_⟩
    have hle := Nat.le_mul_of_pos_right (xs.length + 1) hwidth
    rw [List.length_append, List.length_singleton]
    omega
  · cases h

theorem Queue.add_eq_some {q q' : Queue A} {cnt : ℕ} {am : A} (h : q.add C cnt am = some q') :
    q'.ams = q.ams ++ [am] ∧ q'.ams.length < 2 ^ 64 := by
  simp only [Queue.add, Option.bind_eq_bind, Option.bind_eq_some_iff] at h
  obtain ⟨ids, -, ams, hams, h⟩ := h
  cases h
  exact push_eq_some (Nat.succ_pos 15) hams

theorem addAm_eq_some {g g' : AmGroup A} {key : ℕ} {am : A} (h : g.addAm C key am = some g') :
    g'.numPes = g.numPes ∧ (∀ k, k ≠ key → g'.reqs.get? k = g.reqs.get? k) ∧
      ∃ q, g'.reqs.get? key = some q ∧
        q.ams = ((g.reqs.get? key).getD .empty).ams ++ [am] ∧ q.ams.length < 2 ^ 64 := by
  rw [AmGroup.addAm, Option.bind_eq_bind, Option.bind_eq_some_iff] at h
  obtain ⟨q, hq, h⟩ := h
  cases h
  refine ⟨rfl, fun k hk => ?_, q, ?_, Queue.add_eq_some hq⟩
  · rw [SortedMap.get?_insert, if_neg hk]
  · rw [SortedMap.get?_insert, if_pos rfl]

theorem Waiting.addAm {numPes key : ℕ} {ops : List (Op A)} {g g' : AmGroup A} {am : A} {op : Op A}
    (h : Waiting numPes ops g) (hadd : g.addAm C key am = some g')
    (hop : ∀ k ams, op.pending numPes k ams = if key = k then ams ++ [am] else ams) :
    Waiting numPes (ops ++ [op]) g' := by
  obtain ⟨hnum, hother, q, hq, hams, hlen⟩ := addAm_eq_some hadd
  have hpending : ∀ k, ((g'.reqs.get? k).getD .empty).ams = pending numPes k (ops ++ [op]) := by
    intro k
    rw [pending_snoc, hop, ← h.ams]
    split
    · rename_i hk
      rw [← hk, hq, ← hams]
      rfl
    · rename_i hk
      rw [hother k (Ne.symm hk)]
  refine ⟨hnum.trans h.numPes_eq, hpending, fun k => ?_⟩
  rw [← hpending]
  by_cases hk : k = key
  · rw [hk, hq]
    exact hlen
  · rw [hother k hk, h.ams]
    exact h.length_lt k

theorem Runs.waiting {numPes : ℕ} {ops : List (Op A)} {g : AmGroup A} (h : Runs C numPes ops g) :
    Waiting numPes ops g := by
  induction h with
  | new => exact ⟨rfl, fun _ => rfl, fun _ => Nat.two_pow_pos 64⟩
  | addAmAll _ hadd ih => exact ih.addAm hadd fun k ams => by rw [ih.numPes_eq]; rfl
  | addAmPe _ hadd ih => exact ih.addAm hadd fun k ams => rfl
  | @exec ops g g' fuel launched _ hexec ih =>
    obtain ⟨-, -, -, rfl⟩ := exec_eq_some hexec
    refine ⟨ih.numPes_eq, fun key => ?_, fun key => ?_⟩
    · rw [pending_snoc]
      dsimp only
      rw [SortedMap.get?_map]
      cases g.reqs.get? key <;> rfl
    · rw [pending_snoc]
      exact Nat.two_pow_pos 64

/-! ## Every queue -/

/-- The messages `ams` are split completely into the given launches. -/
structure SplitsCompletely (C : AmCodec A) (ams : List A) (launched : List (AmGroupAm A)) :
    Prop where
  ams_eq : ∀ m ∈ launched, m.ams = ams
  tiles : Tiles 0 (launched.map fun m => (m.si, m.ei)) ams.length
  roundTrips : ∀ m ∈ launched, m.RoundTrips C

/-- All the messages are launched once, in their order. -/
theorem SplitsCompletely.messages {ams : List A} {launched : List (AmGroupAm A)}
    (h : SplitsCompletely C ams launched) :
    launched.flatMap (fun m => m.messages.getD []) = ams := by
  have htiles := h.tiles.flatMap
  rw [List.flatMap_map, List.drop_zero] at htiles
  refine Eq.trans (List.flatMap_congr fun m hm => ?_) htiles
  have hbounds := h.tiles.bounds (List.mem_map_of_mem hm)
  have hams := h.ams_eq m hm
  rw [AmGroupAm.messages, hams, if_pos ⟨Nat.le_of_lt hbounds.2.1, hbounds.2.2⟩]
  rfl

theorem splitsCompletely_ofRanges_iff (hC : C.Lawful) {ams : List A} (hlen : ams.length < 2 ^ 64)
    (rs : List (ℕ × ℕ)) : SplitsCompletely C ams (ofRanges ams rs) ↔ Tiles 0 rs ams.length := by
  have hmap : (ofRanges ams rs).map (fun m => (m.si, m.ei)) = rs := by
    rw [ofRanges, List.map_map]
    exact List.map_id rs
  constructor
  · intro h
    have htiles := h.tiles
    rwa [hmap] at htiles
  · intro h
    refine ⟨fun m hm => ?_, hmap.symm ▸ h, fun m hm => ?_⟩
    · obtain ⟨r, -, rfl⟩ := List.mem_map.mp hm
      rfl
    · obtain ⟨r, hr, rfl⟩ := List.mem_map.mp hm
      obtain ⟨-, hlt, hle⟩ := h.bounds hr
      exact AmGroupAm.roundTrips hC (Nat.le_of_lt hlt) hle hlen

/-- `exec` returns, and splits the messages of every queue. -/
def ExecSplits (C : AmCodec A) (numPes : ℕ) (ops : List (Op A)) (g : AmGroup A) : Prop :=
  ∃ fuel launched g', g.exec C fuel = some (launched, g') ∧
    ∀ key, SplitsCompletely C (pending numPes key ops) (launchedFor numPes key launched)

theorem Waiting.queue {numPes key : ℕ} {ops : List (Op A)} {g : AmGroup A} {q : Queue A}
    (h : Waiting numPes ops g) (hq : g.reqs.get? key = some q) :
    pending numPes key ops = q.ams ∧ q.ams.length < 2 ^ 64 := by
  have hams := h.ams key
  rw [hq] at hams
  exact ⟨hams.symm, hams ▸ h.length_lt key⟩

/-- When the messages of the queue with key `key` can be launched. -/
structure Queue.Launchable (C : AmCodec A) (numPes key : ℕ) (q : Queue A) : Prop where
  splittable : q.Splittable C
  key_le : key ≤ numPes ∨ q.ams = []

theorem ExecSplits.launchable (hC : C.Lawful) {numPes : ℕ} {ops : List (Op A)} {g : AmGroup A}
    (hrun : Runs C numPes ops g) (h : ExecSplits C numPes ops g) {key : ℕ} {q : Queue A}
    (hq : g.reqs.get? key = some q) : q.Launchable C numPes key := by
  have hwait := hrun.waiting
  obtain ⟨hams, hlen⟩ := hwait.queue hq
  obtain ⟨fuel, launched, g', hexec, hsplit⟩ := h
  obtain ⟨rs, hrs, hkey, hfor⟩ := exec_queue hexec hq
  have htiles := hsplit key
  rw [← hwait.numPes_eq, hfor, hwait.numPes_eq, hams, splitsCompletely_ofRanges_iff hC hlen]
    at htiles
  rw [hwait.numPes_eq] at hkey
  refine ⟨Queue.splittable_iff.mp ⟨fuel, rs, hrs, htiles⟩, hkey.imp_right ?_⟩
  rintro rfl
  exact List.eq_nil_of_length_eq_zero htiles.symm

theorem Queue.Launchable.ranges {numPes key : ℕ} {q : Queue A} (h : q.Launchable C numPes key) :
    ∃ fuel rs, q.ranges C fuel = some rs ∧ Tiles 0 rs q.ams.length ∧
      (key ≤ numPes ∨ rs = []) := by
  obtain ⟨fuel, rs, hrs, htiles⟩ := Queue.splittable_iff.mpr h.splittable
  refine ⟨fuel, rs, hrs, htiles, h.key_le.imp_right fun hnil => ?_⟩
  rw [hnil] at htiles
  exact htiles.eq_nil

theorem execSplits_of_launchable (hC : C.Lawful) {numPes : ℕ} {ops : List (Op A)} {g : AmGroup A}
    (hrun : Runs C numPes ops g)
    (h : ∀ key q, g.reqs.get? key = some q → q.Launchable C numPes key) :
    ExecSplits C numPes ops g := by
  have hwait := hrun.waiting
  obtain rfl := hwait.numPes_eq
  obtain ⟨fuel, launched, g', hexec⟩ := exists_exec fun key q hq => by
    obtain ⟨fuel, rs, hrs, -, hkey⟩ := (h key q hq).ranges
    exact ⟨fuel, rs, hrs, hkey⟩
  refine ⟨fuel, launched, g', hexec, fun key => ?_⟩
  cases hq : g.reqs.get? key with
  | none =>
    have hnil := hwait.ams key
    rw [hq] at hnil
    rw [exec_no_queue hexec hq, ← hnil]
    exact ⟨fun m hm => (List.not_mem_nil hm).elim, rfl, fun m hm => (List.not_mem_nil hm).elim⟩
  | some q =>
    obtain ⟨hams, hlen⟩ := hwait.queue hq
    obtain ⟨rs, hrs, -, hfor⟩ := exec_queue hexec hq
    obtain ⟨fuel', rs', hrs', htiles, -⟩ := (h key q hq).ranges
    have hsame := Queue.ranges_add hrs fuel'
    rw [Nat.add_comm, Queue.ranges_add hrs' fuel, Option.some_inj] at hsame
    rw [hfor, hams, splitsCompletely_ofRanges_iff hC hlen, ← hsame]
    exact htiles

theorem exec_exact (hC : C.Lawful) {numPes : ℕ} {ops : List (Op A)} {g : AmGroup A}
    (hrun : Runs C numPes ops g) : ExecSplits C numPes ops g ↔
      ∀ key q, g.reqs.get? key = some q → q.Launchable C numPes key :=
  ⟨fun h _ _ hq => h.launchable hC hrun hq, execSplits_of_launchable hC hrun⟩

/-! ## Messages of a fixed size -/

/-- A message without fields, and one of `n` bytes -/
def fixedCodec (n : ℕ) : AmCodec Bool where
  amId am := if am then 2 else 1
  serializedSize am := if am then n else 0
  serialize am := List.replicate (if am then n else 0) 0
  unpack id _ := some (id = 2)

theorem fixedCodec_lawful (n : ℕ) : (fixedCodec n).Lawful where
  length_serialize _ := List.length_replicate
  unpack_serialize am _ := by cases am <;> rfl

/-- Three messages of 600,000 bytes and one without fields for PE 1, that `exec` splits in two, and
one for all PEs -/
theorem exec_exact_split : ∃ g, (∃ q, g.reqs.get? 1 = some q ∧ splitSize < q.size) ∧
    ExecSplits (fixedCodec 600000) 2
      [.addAmPe 1 true, .addAmPe 1 false, .addAmPe 1 true, .addAmAll false, .addAmPe 1 true] g := by
  have hrun : ∃ g, Runs (fixedCodec 600000) 2
      [.addAmPe 1 true, .addAmPe 1 false, .addAmPe 1 true, .addAmAll false, .addAmPe 1 true] g ∧
        g.reqs.entries = [(1, ⟨[0, 1, 2, 4], [true, false, true, true], 1800000⟩),
          (2, ⟨[3], [false], 0⟩)] :=
    ⟨_, .addAmPe (.addAmAll (.addAmPe (.addAmPe (.addAmPe .new rfl) rfl) rfl) rfl) rfl, rfl⟩
  obtain ⟨g, hrun, hentries⟩ := hrun
  have hget : ∀ key q, g.reqs.get? key = some q →
      (key = 1 ∧ q = ⟨[0, 1, 2, 4], [true, false, true, true], 1800000⟩) ∨
        key = 2 ∧ q = ⟨[3], [false], 0⟩ := by
    intro key q hq
    have hmem := SortedMap.get?_eq_some_iff.mp hq
    rw [hentries] at hmem
    simpa using hmem
  refine ⟨g, ⟨_, SortedMap.get?_eq_some_iff.mpr (hentries ▸ List.mem_cons_self), by decide⟩,
    (exec_exact (fixedCodec_lawful _) hrun).mpr fun key q hq => ?_⟩
  rcases hget key q hq with ⟨rfl, rfl⟩ | ⟨rfl, rfl⟩
  · refine ⟨⟨fun _ => List.cons_ne_nil _ _, fun _ => ⟨by decide, fun c hc _ => ?_⟩⟩,
      Or.inl (by decide)⟩
    have htail : ∀ c < 4, 0 < weight [600000, 0, 600000, 600000] c 4 := by decide
    exact htail c hc
  · exact ⟨⟨fun _ => List.cons_ne_nil _ _, fun hlarge => absurd hlarge (by decide)⟩,
      Or.inl (Nat.le_refl 2)⟩

/-- Behind a message of more than half a megabyte, in a queue of more than one, a message without
fields is not sent. -/
theorem exec_drops_tail : ∃ g, Runs (fixedCodec 1000001) 2 [.addAmPe 1 true, .addAmPe 1 false] g ∧
    ¬ ExecSplits (fixedCodec 1000001) 2 [.addAmPe 1 true, .addAmPe 1 false] g := by
  have hrun : Runs (fixedCodec 1000001) 2 [.addAmPe 1 true, .addAmPe 1 false]
      ⟨2, 2, (SortedMap.empty.insert 1 ⟨[0], [true], 1000001⟩).insert 1
        ⟨[0, 1], [true, false], 1000001⟩⟩ := .addAmPe (.addAmPe .new rfl) rfl
  refine ⟨_, hrun, fun h => ?_⟩
  obtain ⟨hsplit, -⟩ := h.launchable (fixedCodec_lawful _) hrun
    ((SortedMap.get?_insert _ 1 1 _).trans (if_pos rfl))
  have htail := (hsplit.large (by decide)).tail 1 (by decide)
    (.above (e := 0) .start (Nat.le_refl 0) (by decide) (by decide) (by decide) (by decide))
  exact absurd htail (by decide)

end Lamellar.TaskGroup
