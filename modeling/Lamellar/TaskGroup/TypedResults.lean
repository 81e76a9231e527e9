import Lamellar.TaskGroup.TypedExec

/-!
# The results of a typed group

`exec` is to run every message once on its PE, or once on every PE, and the results are to give
the PE and the value of the message with number `k` at `k`. They do if and only if any two
messages that share a batch are kept apart by it (`typed_exact`): they agree on the static fields,
as the user guarantees, and the struct has a field that is not static; and so do the messages that
they return.
-/

namespace Lamellar.TaskGroup

open Draining

variable {V T : Type} {s : Shape} {numPes limit : ℕ} {ops : List (Dest × Am V s)}
  {t : AmType V s T}

/-! ## What is expected -/

/-- The PEs that run a message -/
def Dest.pes (numPes : ℕ) : Dest → List ℕ
  | .all => List.range numPes
  | .pe p => [p]

/-- The PEs and the values of the message with number `k` -/
def AmType.expected (t : AmType V s T) (numPes k : ℕ) (op : Dest × Am V s) : Dest × List T :=
  (op.1, (op.1.pes numPes).map fun pe => t.value k pe op.2)

/-- The runs for the message with number `k` on PE `pe` -/
def AmType.expectedRuns (t : AmType V s T) (numPes : ℕ) (ops : List (Dest × Am V s)) (k pe : ℕ) :
    List (Executed V) :=
  match ops[k]? with
  | some op => if pe ∈ op.1.pes numPes then t.trace k pe op.2 else []
  | none => []

structure ResultsInOrder (t : AmType V s T) (numPes : ℕ) (ops : List (Dest × Am V s))
    (r : TypedAmGroupResult T) (log : List (Executed V)) : Prop where
  runs : ∀ k pe, AmType.ofMessage k pe log = t.expectedRuns numPes ops k pe
  len : r.len = ops.length
  at_eq : ∀ k op, ops[k]? = some op →
    (r.at k).bind (AmGroupResult.view numPes) = some (t.expected numPes k op)
  iter : r.iter.bind (List.mapM (AmGroupResult.view numPes)) =
    some (ops.mapIdx (t.expected numPes))

/-- The given calls, and `exec`, whose results are as they should be. -/
def TypedExecCorrect (t : AmType V s T) (numPes limit : ℕ) (ops : List (Dest × Am V s)) : Prop :=
  ∃ g r log, TypedAmGroup.ofOps numPes limit ops = some g ∧ g.exec t = some (r, log) ∧
    ResultsInOrder t numPes ops r log

/-! ## The PEs of a batch -/

theorem Dest.Valid.pes_eq {d : Dest} (h : d.Valid numPes) :
    d.pes numPes = if d.key numPes = numPes then List.range numPes else [d.key numPes] := by
  cases d with
  | all => exact (if_pos rfl).symm
  | pe p => exact (if_neg (Nat.ne_of_lt h)).symm

theorem Batch.nodup_pes (b : Batch V s) : (b.pes numPes).Nodup := by
  rw [pes]
  split
  · exact List.nodup_range
  · exact List.nodup_singleton _

/-- A call that adds to the batch is for the PEs of the batch. -/
theorem Adds.pes_eq {k : ℕ} {a : Am V s} {b : Batch V s} (h : Adds numPes ops b.key k a)
    (hvalid : ∀ op ∈ ops, op.1.Valid numPes) :
    ∃ d, ops[k]? = some (d, a) ∧ d.key numPes = b.key ∧ d.pes numPes = b.pes numPes := by
  obtain ⟨⟨d, a⟩, hop, hkey, rfl⟩ := h
  refine ⟨d, hop, hkey, ?_⟩
  rw [(hvalid _ (List.mem_of_getElem? hop)).pes_eq, hkey, Batch.pes]

/-! ## The runs -/

theorem ofMessage_flatMap {α : Type} (k pe : ℕ) (xs : List α) (f : α → List (Executed V)) :
    AmType.ofMessage k pe (xs.flatMap f) = xs.flatMap fun x => AmType.ofMessage k pe (f x) :=
  List.filter_flatMap

theorem ofMessage_eq_nil {k pe : ℕ} {log : List (Executed V)}
    (h : ∀ r ∈ log, ¬ (r.k = k ∧ r.pe = pe)) : AmType.ofMessage k pe log = [] :=
  List.filter_eq_nil_iff.mpr fun r hr => by simpa using h r hr

/-- A batch runs nothing for a message that it has not got. -/
theorem ofMessage_log_of_not_mem {b : Batch V s} {k : ℕ} (h : k ∉ b.ids) (pe : ℕ) :
    AmType.ofMessage k pe (b.log t numPes) = [] := by
  refine ofMessage_eq_nil fun r hr hrun => h ?_
  obtain ⟨p, -, hr⟩ := List.mem_flatMap.mp hr
  rw [← hrun.1]
  exact AmType.mem_seen_ids (AmType.run_mem hr).2

theorem ofMessage_log (b : Batch V s) (k pe : ℕ) : AmType.ofMessage k pe (b.log t numPes) =
    if pe ∈ b.pes numPes then AmType.ofMessage k pe (t.run pe b.entries).2 else [] := by
  have hother : ∀ p, p ≠ pe → AmType.ofMessage k pe (t.run p b.entries).2 = [] := by
    intro p hp
    exact ofMessage_eq_nil fun r hr hrun => hp ((AmType.run_mem hr).1.symm.trans hrun.2)
  rw [Batch.log, ofMessage_flatMap]
  split
  · rename_i hmem
    have hids : ((b.pes numPes).flatMap fun p => [p]).Nodup := by
      rw [List.flatMap_singleton']
      exact b.nodup_pes
    refine Folds.flatMap_of_nodup hids hmem (List.mem_singleton_self pe) fun p _ hp => ?_
    exact hother p fun heq => hp (List.mem_singleton.mpr heq.symm)
  · rename_i hmem
    refine List.flatMap_eq_nil_iff.mpr fun p hp => hother p fun heq => ?_
    exact hmem (heq ▸ hp)

/-- The runs of a message are in its batch. -/
theorem ofMessage_logOf {b : Batch V s} (hb : b ∈ batches numPes limit ops) {k : ℕ}
    (hk : k ∈ b.ids) (pe : ℕ) : AmType.ofMessage k pe (logOf t numPes limit ops) =
      if pe ∈ b.pes numPes then AmType.ofMessage k pe (t.run pe b.entries).2 else [] := by
  rw [logOf, ofMessage_flatMap, ← ofMessage_log]
  exact Folds.flatMap_of_nodup nodup_ids hb hk fun b' _ hk' => ofMessage_log_of_not_mem hk' pe

theorem nodup_entries {b : Batch V s} (hb : b ∈ batches numPes limit ops) :
    (b.entries.map Prod.fst).Nodup :=
  (ids_sorted hb).imp Nat.ne_of_lt

/-! ## The results -/

theorem atLoop_eq {rs : List (TypedAmGroupBatchResult T)} (hnodup : (rs.flatMap (·.ids)).Nodup)
    (hsorted : ∀ r ∈ rs, r.ids.Pairwise (· < ·)) {r : TypedAmGroupBatchResult T} (hr : r ∈ rs)
    {k i : ℕ} (hi : r.ids[i]? = some k)
    (result : TypedAmGroupBatchResult T → ℕ → Option (AmGroupResult T)) :
    atLoop k result rs = result r i := by
  induction rs with
  | nil => cases hr
  | cons r' rs ih =>
    rw [List.flatMap_cons, List.nodup_append] at hnodup
    obtain ⟨-, hrest, hdisj⟩ := hnodup
    have hk := List.mem_of_getElem? hi
    rw [atLoop]
    rcases List.mem_cons.mp hr with rfl | hr
    · rw [(BinarySearch.eq_some_iff (hsorted _ List.mem_cons_self)).mpr hi]
    · have hnot : k ∉ r'.ids := fun hmem =>
        hdisj k hmem k (List.mem_flatMap.mpr ⟨r, hr, hk⟩) rfl
      rw [(BinarySearch.eq_none_iff (hsorted _ List.mem_cons_self)).mpr hnot]
      exact ih hrest (fun r hr => hsorted r (List.mem_cons_of_mem _ hr)) hr

/-- `at` looks into the result of the batch that has the message. -/
theorem atLoop_batches {b : Batch V s} (hb : b ∈ batches numPes limit ops) {k i : ℕ}
    (hi : b.ids[i]? = some k)
    (result : TypedAmGroupBatchResult T → ℕ → Option (AmGroupResult T)) :
    atLoop k result ((batches numPes limit ops).map (Batch.result t numPes)) =
      result (b.result t numPes) i := by
  refine atLoop_eq ?_ (fun r hr => ?_) (List.mem_map_of_mem hb) hi result
  · rw [List.flatMap_map]
    exact nodup_ids
  · obtain ⟨b', hb', rfl⟩ := List.mem_map.mp hr
    exact ids_sorted hb'

/-- An iterator over all PEs, with a value for each -/
theorem view_all {pos : ℕ → TypedAmAllIter T} {f : ℕ → T}
    (hitem : ∀ i < numPes, (pos i).next = some (some (f i), pos (i + 1)))
    (hend : (pos numPes).next = some (none, pos numPes)) :
    AmGroupResult.view numPes (.all (pos 0)) = some (.all, (List.range numPes).map f) := by
  have hcollect : collect TypedAmAllIter.next (numPes + 1) (pos 0) =
      (List.range' 0 (numPes - 0)).mapM fun i => some (f i) :=
    collect_count hitem hend (Nat.zero_le numPes) (by omega)
  rw [AmGroupResult.view, hcollect, Nat.sub_zero, ← List.range_eq_range',
    Folds.mapM_eq_map fun i _ => rfl]
  rfl

theorem view_allUnit (f : ℕ → T) (numPes : ℕ) :
    AmGroupResult.view numPes (.all (.unit ((List.range numPes).map f) 0 numPes)) =
      some (.all, (List.range numPes).map f) :=
  @view_all _ numPes (fun i => .unit ((List.range numPes).map f) i numPes) f
    (fun i hi => by simp [TypedAmAllIter.next, hi]) (by simp [TypedAmAllIter.next])

theorem view_allVal {f : ℕ → List T} {g : ℕ → T} {i : ℕ}
    (hget : ∀ pe < numPes, (f pe)[i]? = some (g pe)) :
    AmGroupResult.view numPes (.all (.val ((List.range numPes).map f) i 0 numPes)) =
      some (.all, (List.range numPes).map g) :=
  @view_all _ numPes (fun pe => .val ((List.range numPes).map f) i pe numPes) g
    (fun pe hpe => by simp [TypedAmAllIter.next, hpe, hget pe hpe])
    (by simp [TypedAmAllIter.next])

theorem AmType.value_unit (h : t.isUnit = true) (k k' pe pe' : ℕ) (a a' : Am V s) :
    t.value k pe a = t.value k' pe' a' := by
  have hrun := AmType.run_unit h k 0 pe a []
  rw [AmType.run_unit h k' 0 pe' a' []] at hrun
  exact (Output.unit.inj hrun).symm

theorem vals_eq (h : t.isUnit = false) {b : Batch V s} {pe : ℕ} (hclean : t.Clean pe b.entries) :
    b.vals t pe = b.entries.map fun e => t.value e.1 pe e.2 := by
  rw [Batch.vals, AmType.run_val h hclean]
  rfl

theorem at_unit (hunit : t.isUnit = true) {b : Batch V s} (hb : b ∈ batches numPes limit ops)
    {k i : ℕ} (hk : k < ops.length) (hi : b.ids[i]? = some k) :
    (resultOf t numPes limit ops).at k = if b.key = numPes then
      some (.all (.unit ((List.range numPes).map (b.unitOf t)) 0 numPes))
    else some (.pe b.key (b.unitOf t b.key)) := by
  rw [resultOf, if_pos hunit, TypedAmGroupResult.at, TypedAmGroupResults.atUnit, if_pos hk,
    atLoop_batches hb hi, Batch.result, if_pos hunit, if_pos hunit]
  by_cases hkey : b.key = numPes
  · simp only [if_pos hkey]
  · simp only [if_neg hkey]

theorem at_val (hval : t.isUnit = false) {b : Batch V s} (hb : b ∈ batches numPes limit ops)
    {k i : ℕ} (hk : k < ops.length) (hi : b.ids[i]? = some k) :
    (resultOf t numPes limit ops).at k = if b.key = numPes then
      some (.all (.val ((List.range numPes).map (b.vals t)) i 0 numPes))
    else (b.vals t b.key)[i]?.map fun v => .pe b.key v := by
  have hnot : ¬ t.isUnit = true := Bool.eq_false_iff.mp hval
  rw [resultOf, if_neg hnot, TypedAmGroupResult.at, TypedAmGroupResults.atVal, if_pos hk,
    atLoop_batches hb hi, Batch.result, if_neg hnot, if_neg hnot]
  by_cases hkey : b.key = numPes
  · simp only [if_pos hkey]
  · simp only [if_neg hkey]

/-- The result of a message in a batch that keeps its messages apart -/
theorem at_resultOf {b : Batch V s} (hb : b ∈ batches numPes limit ops)
    (hclean : ∀ pe ∈ b.pes numPes, t.Clean pe b.entries) {i k : ℕ} {a : Am V s}
    (hi : b.entries[i]? = some (k, a)) :
    ((resultOf t numPes limit ops).at k).bind (AmGroupResult.view numPes) =
      some (.ofKey numPes b.key, (b.pes numPes).map fun pe => t.value k pe a) := by
  have hids : b.ids[i]? = some k := by
    rw [Batch.ids, List.getElem?_map, hi]
    rfl
  have hk : k < ops.length := (adds_of_mem hb (List.mem_of_getElem? hi)).lt
  cases hunit : t.isUnit with
  | true =>
    have hvalue : b.unitOf t = fun pe => t.value k pe a :=
      funext fun pe => AmType.value_unit hunit _ _ _ _ _ _
    rw [at_unit hunit hb hk hids, hvalue, Batch.pes, Dest.ofKey]
    split
    · exact view_allUnit _ _
    · rfl
  | false =>
    have hvalue : ∀ pe ∈ b.pes numPes, (b.vals t pe)[i]? = some (t.value k pe a) := by
      intro pe hpe
      rw [vals_eq hunit (hclean pe hpe), List.getElem?_map, hi]
      rfl
    rw [at_val hunit hb hk hids]
    rw [Batch.pes] at hvalue
    rw [Batch.pes, Dest.ofKey]
    split
    · rename_i hkey
      rw [if_pos hkey] at hvalue
      exact view_allVal fun pe hpe => hvalue pe (List.mem_range.mpr hpe)
    · rename_i hkey
      rw [if_neg hkey] at hvalue
      rw [hvalue _ (List.mem_singleton_self _)]
      rfl

theorem len_resultOf : (resultOf t numPes limit ops).len = ops.length := by
  rw [resultOf]
  split <;> rfl

theorem TypedAmGroupResult.iter_eq (r : TypedAmGroupResult T) :
    r.iter = (List.range r.len).mapM r.at := by
  have hitem : ∀ i < r.len, r.iterNext i = (r.at i).map fun res => (some res, i + 1) := by
    intro i hi
    rw [iterNext, if_pos hi]
    cases r.at i <;> rfl
  have hend : r.iterNext r.len = some (none, r.len) := if_neg (Nat.lt_irrefl _)
  have hcollect : r.iter = (List.range' 0 (r.len - 0)).mapM r.at :=
    @collect_count _ _ r.iterNext (fun i => i) r.at r.len hitem hend 0 (Nat.zero_le _) _ (by omega)
  rwa [Nat.sub_zero, ← List.range_eq_range'] at hcollect

/-! ## Batches that keep their messages apart -/

theorem Dest.Valid.ofKey_key {d : Dest} (h : d.Valid numPes) :
    Dest.ofKey numPes (d.key numPes) = d := by
  cases d with
  | all => exact if_pos rfl
  | pe p => exact if_neg (Nat.ne_of_lt h)

/-- Any two messages that share a batch are kept apart by it: they are for the same PE, and no
call between them sends the buffer. -/
def BatchesApart (t : AmType V s T) (numPes limit : ℕ) (ops : List (Dest × Am V s)) : Prop :=
  ∀ j k d a a', j < k → ops[j]? = some (d, a) → ops[k]? = some (d, a') →
    (∀ m, j ≤ m → m < k → ¬ Sends numPes limit ops m (d.key numPes)) →
    ∀ pe ∈ d.pes numPes, t.Apart pe (j, a) (k, a')

theorem rel_of_lt {es : List (ℕ × Am V s)} (hsorted : (es.map Prod.fst).Pairwise (· < ·))
    {R : ℕ × Am V s → ℕ × Am V s → Prop} (h : es.Pairwise R) {e e' : ℕ × Am V s} (he : e ∈ es)
    (he' : e' ∈ es) (hlt : e.1 < e'.1) : R e e' := by
  rw [List.pairwise_map, List.pairwise_iff_getElem] at hsorted
  rw [List.pairwise_iff_getElem] at h
  obtain ⟨i, hi, rfl⟩ := List.mem_iff_getElem.mp he
  obtain ⟨i', hi', rfl⟩ := List.mem_iff_getElem.mp he'
  rcases Nat.lt_trichotomy i i' with hii | rfl | hii
  · exact h i i' hi hi' hii
  · exact absurd hlt (Nat.lt_irrefl _)
  · exact absurd (hsorted i' i hi' hi hii) (Nat.lt_asymm hlt)

theorem clean_batches_iff (hvalid : ∀ op ∈ ops, op.1.Valid numPes) :
    (∀ b ∈ batches numPes limit ops, ∀ pe ∈ b.pes numPes, t.Clean pe b.entries) ↔
      BatchesApart t numPes limit ops := by
  constructor
  · intro h j k d a a' hjk hj hk hno pe hpe
    have hd : d.Valid numPes := hvalid _ (List.mem_of_getElem? hk)
    obtain ⟨b, hb, hkey, hmem⟩ := exists_batch limit hd.key_le ⟨_, hk, rfl, rfl⟩
    rw [← hkey] at hno
    have hmem' := (share_iff hb hmem hjk a).mpr ⟨⟨_, hj, hkey.symm, rfl⟩, hno⟩
    rw [hd.pes_eq, ← hkey] at hpe
    exact rel_of_lt (ids_sorted hb) (AmType.clean_iff.mp (h b hb pe hpe)) hmem' hmem hjk
  · intro h b hb pe hpe
    refine AmType.clean_iff.mpr (List.Pairwise.imp_of_mem ?_ (List.pairwise_map.mp (ids_sorted hb)))
    rintro ⟨j, a⟩ ⟨k, a'⟩ hj hk hlt
    obtain ⟨hadds, hno⟩ := (share_iff hb hk hlt a).mp hj
    obtain ⟨d, hopj, hkey, -⟩ := hadds.pes_eq hvalid
    obtain ⟨d', hopk, hkey', hpes⟩ := (adds_of_mem hb hk).pes_eq hvalid
    have hd : d.Valid numPes := hvalid _ (List.mem_of_getElem? hopj)
    have hd' : d'.Valid numPes := hvalid _ (List.mem_of_getElem? hopk)
    obtain rfl : d = d' := by rw [← hd.ofKey_key, ← hd'.ofKey_key, hkey, hkey']
    exact h j k d a a' hlt hopj hopk (hkey.symm ▸ hno) pe (hpes.symm ▸ hpe)

/-! ## The results in order -/

theorem runs_logOf (hvalid : ∀ op ∈ ops, op.1.Valid numPes)
    (hclean : ∀ b ∈ batches numPes limit ops, ∀ pe ∈ b.pes numPes, t.Clean pe b.entries)
    (k pe : ℕ) : AmType.ofMessage k pe (logOf t numPes limit ops) =
      t.expectedRuns numPes ops k pe := by
  rw [AmType.expectedRuns]
  cases hop : ops[k]? with
  | none =>
    rw [logOf, ofMessage_flatMap]
    refine List.flatMap_eq_nil_iff.mpr fun b hb => ofMessage_log_of_not_mem (fun hk => ?_) pe
    obtain ⟨⟨k, a⟩, hmem, rfl⟩ := List.mem_map.mp hk
    obtain ⟨op, hsome, -⟩ := adds_of_mem hb hmem
    rw [hop] at hsome
    cases hsome
  | some op =>
    have hd := hvalid _ (List.mem_of_getElem? hop)
    obtain ⟨b, hb, hkey, hmem⟩ := exists_batch limit hd.key_le ⟨op, hop, rfl, rfl⟩
    have hpes : b.pes numPes = op.1.pes numPes := by
      rw [hd.pes_eq, ← hkey, Batch.pes]
    rw [ofMessage_logOf hb (List.mem_map_of_mem hmem), hpes]
    dsimp only
    split
    · rename_i hpe
      exact AmType.ofMessage_run_of_clean (nodup_entries hb) (hclean b hb pe (hpes ▸ hpe)) hmem
    · rfl

theorem at_eq_expected (hvalid : ∀ op ∈ ops, op.1.Valid numPes)
    (hclean : ∀ b ∈ batches numPes limit ops, ∀ pe ∈ b.pes numPes, t.Clean pe b.entries) {k : ℕ}
    {op : Dest × Am V s} (hop : ops[k]? = some op) :
    ((resultOf t numPes limit ops).at k).bind (AmGroupResult.view numPes) =
      some (t.expected numPes k op) := by
  have hd := hvalid _ (List.mem_of_getElem? hop)
  obtain ⟨b, hb, hkey, hmem⟩ := exists_batch limit hd.key_le ⟨op, hop, rfl, rfl⟩
  obtain ⟨i, hi⟩ := List.mem_iff_getElem?.mp hmem
  rw [at_resultOf hb (hclean b hb) hi, AmType.expected, hd.pes_eq, Batch.pes, hkey, hd.ofKey_key]

theorem resultsInOrder (hvalid : ∀ op ∈ ops, op.1.Valid numPes)
    (hclean : ∀ b ∈ batches numPes limit ops, ∀ pe ∈ b.pes numPes, t.Clean pe b.entries) :
    ResultsInOrder t numPes ops (resultOf t numPes limit ops) (logOf t numPes limit ops) where
  runs := runs_logOf hvalid hclean
  len := len_resultOf
  at_eq k op hop := at_eq_expected hvalid hclean hop
  iter := by
    rw [TypedAmGroupResult.iter_eq, len_resultOf]
    refine Folds.mapM_bind ?_
    rw [← List.length_mapIdx (f := t.expected numPes)]
    refine Folds.mapM_range fun k e he => ?_
    rw [List.getElem?_mapIdx, Option.map_eq_some_iff] at he
    obtain ⟨op, hop, rfl⟩ := he
    exact at_eq_expected hvalid hclean hop

theorem TypedExecCorrect.capacity (h : TypedExecCorrect t numPes limit ops) :
    ops = [] ∨ limit < 2 ^ 60 := by
  obtain ⟨g, -, -, hg, -⟩ := h
  cases ops with
  | nil => exact Or.inl rfl
  | cons op ops =>
    refine Or.inr (Nat.lt_of_not_le fun hle => ?_)
    rw [TypedAmGroup.ofOps, List.foldlM_cons, TypedAmGroup.addAm_new_eq_none hle] at hg
    cases hg

theorem TypedExecCorrect.clean (hlimit : 0 < limit) (hvalid : ∀ op ∈ ops, op.1.Valid numPes)
    (h : TypedExecCorrect t numPes limit ops) :
    ∀ b ∈ batches numPes limit ops, ∀ pe ∈ b.pes numPes, t.Clean pe b.entries := by
  have hcapacity := h.capacity
  obtain ⟨g, r, log, hg, hexec, hres⟩ := h
  obtain ⟨g', hg', hholds⟩ := TypedAmGroup.exists_ofOps hlimit hcapacity hvalid
  rw [hg] at hg'
  cases hg'
  rw [hholds.exec_eq] at hexec
  cases hexec
  intro b hb pe hpe
  refine (AmType.run_exact (nodup_entries hb)).mp fun e he => ?_
  obtain ⟨d, hop, -, hpes⟩ := (adds_of_mem hb he).pes_eq hvalid
  have hruns := hres.runs e.1 pe
  rw [ofMessage_logOf hb (List.mem_map_of_mem he), if_pos hpe, AmType.expectedRuns, hop] at hruns
  dsimp only at hruns
  rwa [hpes, if_pos hpe] at hruns

theorem typed_exact (t : AmType V s T) (hlimit : 1 ≤ limit)
    (hvalid : ∀ op ∈ ops, op.1.Valid numPes) :
    TypedExecCorrect t numPes limit ops ↔
      (ops = [] ∨ limit < 2 ^ 60) ∧ BatchesApart t numPes limit ops := by
  rw [← clean_batches_iff hvalid]
  constructor
  · exact fun h => ⟨h.capacity, h.clean hlimit hvalid⟩
  · rintro ⟨hcapacity, hclean⟩
    obtain ⟨g, hg, hholds⟩ := TypedAmGroup.exists_ofOps hlimit hcapacity hvalid
    exact ⟨g, _, _, hg, hholds.exec_eq t, resultsInOrder hvalid hclean⟩

/-- Messages with one field, to one PE and to all of them, that return what they hold. -/
theorem typed_exact_fields : TypedExecCorrect
    (.returnData fun _ pe (am : Am ℕ ⟨1, 0⟩) => pe + am.fields 0) 2 3
    [(.pe 1, ⟨fun _ => 5, Fin.elim0⟩), (.all, ⟨fun _ => 6, Fin.elim0⟩),
      (.pe 1, ⟨fun _ => 7, Fin.elim0⟩)] := by
  refine (typed_exact _ (by decide) ?_).mpr ⟨Or.inr (by decide), ?_⟩
  · simp [Dest.Valid]
  · intro j k d a a' _ _ _ _ pe _
    exact ⟨by decide, funext fun n => n.elim0⟩

/-- A struct with one static field and no other: two messages for PE 0 share a batch, that runs
one of them. -/
theorem exec_without_fields : ¬ TypedExecCorrect
    (.returnData fun _ _ (am : Am ℕ ⟨0, 1⟩) => am.statics 0) 2 10000
    [(.pe 0, ⟨Fin.elim0, fun _ => 5⟩), (.pe 0, ⟨Fin.elim0, fun _ => 5⟩)] := by
  intro h
  have hvalid : ∀ op ∈ [((.pe 0, ⟨Fin.elim0, fun _ => 5⟩) : Dest × Am ℕ ⟨0, 1⟩),
      (.pe 0, ⟨Fin.elim0, fun _ => 5⟩)], op.1.Valid 2 := by
    simp [Dest.Valid]
  have hapart := (clean_batches_iff hvalid).mp (h.clean (by decide) hvalid)
  have hno : ∀ m, 0 ≤ m → m < 1 → ¬ Sends 2 10000
      [((.pe 0, ⟨Fin.elim0, fun _ => 5⟩) : Dest × Am ℕ ⟨0, 1⟩),
        (.pe 0, ⟨Fin.elim0, fun _ => 5⟩)] m (Dest.key 2 (.pe 0)) := by
    rintro m - hm ⟨-, hdvd⟩
    exact absurd (Nat.le_of_dvd (Nat.succ_pos m) hdvd) (by omega)
  have hfield := (hapart 0 1 _ _ _ Nat.zero_lt_one rfl rfl hno 0 (List.mem_singleton_self 0)).1
  exact absurd hfield (by decide)

end Lamellar.TaskGroup
