import Lamellar.TaskGroup.Batches

/-!
# A typed group sends its batches

After `n` calls, the buffers of a typed group are what waits and its requests are the batches that
have been sent (`Holds`), and `exec` sends the rest. It returns for every batch what its
`GroupAm` returns on the PEs that it is for (`exec_eq`).
-/

namespace Lamellar.TaskGroup

variable {V T : Type} {s : Shape} {numPes limit : ℕ} {ops : List (Dest × Am V s)}

/-- The PE is of the team. -/
def Dest.Valid (numPes : ℕ) : Dest → Prop
  | .all => True
  | .pe p => p < numPes

theorem Dest.Valid.key_le {d : Dest} (h : d.Valid numPes) : d.key numPes ≤ numPes := by
  cases d with
  | all => exact Nat.le_refl _
  | pe p => exact Nat.le_of_lt h

/-! ## The calls -/

theorem limit_le_mod_iff (hlimit : 0 < limit) (n : ℕ) : limit ≤ n % limit + 1 ↔ limit ∣ n + 1 := by
  have hlt := Nat.mod_lt n hlimit
  have hsum : n + 1 = limit * (n / limit) + (n % limit + 1) := by
    rw [← Nat.add_assoc, Nat.div_add_mod]
  rw [hsum, Nat.dvd_add_right (Nat.dvd_mul_right _ _)]
  constructor
  · exact fun hle => ⟨1, (Nat.le_antisymm hlt hle).trans (Nat.mul_one limit).symm⟩
  · exact Nat.le_of_dvd (Nat.succ_pos _)

theorem mod_succ (hlimit : 0 < limit) (n : ℕ) :
    (n + 1) % limit = if limit ∣ n + 1 then 0 else n % limit + 1 := by
  split
  · rename_i hdvd
    exact Nat.mod_eq_zero_of_dvd hdvd
  · rename_i hdvd
    have hlt : n % limit + 1 < limit :=
      Nat.lt_of_not_le fun hle => hdvd ((limit_le_mod_iff hlimit n).mp hle)
    rw [← Nat.mod_add_mod, Nat.mod_eq_of_lt hlt]

namespace TypedAmGroup

/-- After `n` calls, the buffers hold what waits, and the batches have been sent. -/
structure Holds (numPes limit : ℕ) (ops : List (Dest × Am V s)) (n : ℕ) (g : TypedAmGroup V s) :
    Prop where
  numPes_eq : g.numPes = numPes
  numPerBatch : g.numPerBatch = limit
  cnt : g.cnt = n
  batchCnt : g.batchCnt = n % limit
  reqs : ∀ key, g.reqs.get? key =
    (Batch.of? key (waiting numPes limit ops key n)).map fun b => (b.ids, b.group)
  pendingReqs : g.pendingReqs = (sent numPes limit ops n).map Batch.request

theorem holds_new : Holds numPes limit ops 0 (new numPes limit) where
  numPes_eq := rfl
  numPerBatch := rfl
  cnt := rfl
  batchCnt := (Nat.zero_mod _).symm
  reqs _ := rfl
  pendingReqs := rfl

theorem sendPeBuffer_some {g : TypedAmGroup V s} {pe : ℕ} {q : List ℕ × GroupAm V s}
    (hget : g.reqs.get? pe = some q) (hpe : pe ≤ g.numPes) :
    g.sendPeBuffer pe = some { g with
      reqs := g.reqs.erase pe, pendingReqs := g.pendingReqs ++ [⟨pe, q.1, q.2⟩] } := by
  rw [sendPeBuffer, hget]
  exact if_pos hpe

theorem sendPeBuffer_none {g : TypedAmGroup V s} {pe : ℕ} (hget : g.reqs.get? pe = none) :
    g.sendPeBuffer pe = some g := by
  rw [sendPeBuffer, hget]

theorem addAm_eq {g : TypedAmGroup V s} (op : Dest × Am V s) :
    g.addAm op = g.addAmPe (op.1.key g.numPes) op.2 := by
  obtain ⟨_ | p, am⟩ := op <;> rfl

theorem withCapacity_eq {n : ℕ} (h : n < 2 ^ 60) : withCapacity n = some [] := if_pos (by omega)

theorem withCapacity_eq_none {n : ℕ} (h : 2 ^ 60 ≤ n) : withCapacity n = none := if_neg (by omega)

theorem Holds.reqQueue {n : ℕ} {g : TypedAmGroup V s} (h : Holds numPes limit ops n g)
    (hlimit : limit < 2 ^ 60) (key : ℕ) (am : Am V s) : g.reqQueue key am =
      some (((Batch.of? key (waiting numPes limit ops key n)).map fun b =>
        (b.ids, b.group)).getD ([], .new am)) := by
  rw [TypedAmGroup.reqQueue, h.reqs, h.numPerBatch, withCapacity_eq hlimit]
  cases Batch.of? key (waiting numPes limit ops key n) <;> rfl

/-- The first call makes a buffer. -/
theorem addAm_new_eq_none (hlimit : 2 ^ 60 ≤ limit) (op : Dest × Am V s) :
    (new numPes limit : TypedAmGroup V s).addAm op = none := by
  rw [addAm_eq, addAmPe, TypedAmGroup.reqQueue]
  simp only [new, withCapacity_eq_none hlimit]
  rfl

/-- The buffer with the new message -/
theorem buffer_add (key n : ℕ) (es : List (ℕ × Am V s)) (am : Am V s) :
    let q := ((Batch.of? key es).map fun b => (b.ids, b.group)).getD ([], .new am)
    (q.1 ++ [n], q.2.addAm am) =
      ((Batch.snoc key es (n, am)).ids, (Batch.snoc key es (n, am)).group) := by
  cases es with
  | nil => rfl
  | cons e es => simp [Batch.of?, Batch.snoc, Batch.ids, Batch.entries, Batch.group,
      GroupAm.addAm_ofList]

theorem Holds.addAm (hlimit : 0 < limit) (hcapacity : limit < 2 ^ 60) {n : ℕ} {g : TypedAmGroup V s}
    (h : Holds numPes limit ops n g) {op : Dest × Am V s} (hop : ops[n]? = some op)
    (hvalid : op.1.Valid numPes) :
    ∃ g', g.addAm op = some g' ∧ Holds numPes limit ops (n + 1) g' := by
  have hbuffer := buffer_add (op.1.key numPes) n (waiting numPes limit ops (op.1.key numPes) n) op.2
  rw [addAm_eq, h.numPes_eq, addAmPe, h.reqQueue hcapacity]
  dsimp only [Option.bind_eq_bind, Option.bind_some] at hbuffer ⊢
  rw [h.cnt, hbuffer, h.batchCnt, h.numPerBatch]
  by_cases hdvd : limit ∣ n + 1
  · rw [if_pos ((limit_le_mod_iff hlimit n).mpr hdvd),
      sendPeBuffer_some (by rw [SortedMap.get?_insert, if_pos rfl]) (h.numPes_eq ▸ hvalid.key_le)]
    refine ⟨_, rfl, ?_⟩
    exact {
      numPes_eq := h.numPes_eq
      numPerBatch := rfl
      cnt := rfl
      batchCnt := by rw [mod_succ hlimit, if_pos hdvd]
      reqs := fun key => by
        simp only [SortedMap.get?_erase, SortedMap.get?_insert, waiting, hop, if_pos hdvd,
          h.reqs, eq_comm (a := key)]
        split <;> rfl
      pendingReqs := by
        simp only [sent, hop, if_pos hdvd, h.pendingReqs, List.map_append, List.map_singleton,
          Batch.request, Batch.key_snoc] }
  · rw [if_neg fun hle => hdvd ((limit_le_mod_iff hlimit n).mp hle)]
    refine ⟨_, rfl, ?_⟩
    exact {
      numPes_eq := h.numPes_eq
      numPerBatch := rfl
      cnt := rfl
      batchCnt := by rw [mod_succ hlimit, if_neg hdvd]
      reqs := fun key => by
        simp only [SortedMap.get?_insert, waiting, hop, if_neg hdvd, h.reqs, eq_comm (a := key)]
        split
        · rename_i hkey
          rw [Batch.of?_append, hkey]
          rfl
        · rfl
      pendingReqs := by simp only [sent, hop, if_neg hdvd, h.pendingReqs] }

theorem exists_ofOps (hlimit : 0 < limit) (hcapacity : ops = [] ∨ limit < 2 ^ 60)
    (hvalid : ∀ op ∈ ops, op.1.Valid numPes) :
    ∃ g, ofOps numPes limit ops = some g ∧ Holds numPes limit ops ops.length g := by
  have hcalls : ∀ n ≤ ops.length, ∃ g, (ops.take n).foldlM TypedAmGroup.addAm (new numPes limit) =
      some g ∧ Holds numPes limit ops n g := by
    intro n hn
    induction n with
    | zero => exact ⟨_, rfl, holds_new⟩
    | succ n ih =>
      obtain ⟨g, hg, hholds⟩ := ih (Nat.le_of_succ_le hn)
      have hop : ops[n]? = some ops[n] := List.getElem?_eq_getElem hn
      have hlt : limit < 2 ^ 60 := hcapacity.resolve_left (List.ne_nil_of_length_pos (by omega))
      obtain ⟨g', hadd, hholds'⟩ := hholds.addAm hlimit hlt hop (hvalid _ (List.getElem_mem hn))
      refine ⟨g', ?_, hholds'⟩
      rw [List.take_add_one, List.foldlM_append, hg, hop]
      simp [hadd]
  have hall := hcalls ops.length (Nat.le_refl _)
  rwa [List.take_length] at hall

/-! ## `exec` -/

theorem foldlM_sendPeBuffer {keys : List ℕ} (hnodup : keys.Nodup) {g : TypedAmGroup V s}
    (hle : ∀ key ∈ keys, key ≤ g.numPes) :
    ∃ g', keys.foldlM sendPeBuffer g = some g' ∧ g'.numPes = g.numPes ∧ g'.cnt = g.cnt ∧
      g'.pendingReqs = g.pendingReqs ++ keys.filterMap fun key =>
        (g.reqs.get? key).map fun q => ⟨key, q.1, q.2⟩ := by
  induction keys generalizing g with
  | nil => exact ⟨g, rfl, rfl, rfl, (List.append_nil _).symm⟩
  | cons key keys ih =>
    obtain ⟨hkey, hrest⟩ := List.nodup_cons.mp hnodup
    rw [List.foldlM_cons, List.filterMap_cons]
    cases hget : g.reqs.get? key with
    | none =>
      rw [sendPeBuffer_none hget]
      exact ih hrest fun key hmem => hle key (List.mem_cons_of_mem _ hmem)
    | some q =>
      rw [sendPeBuffer_some hget (hle key List.mem_cons_self), Option.bind_eq_bind,
        Option.bind_some]
      obtain ⟨g', hg', hnum, hcnt, hpending⟩ := ih hrest
        (g := { g with
          reqs := g.reqs.erase key, pendingReqs := g.pendingReqs ++ [⟨key, q.1, q.2⟩] })
        fun key hmem => hle key (List.mem_cons_of_mem _ hmem)
      refine ⟨g', hg', hnum, hcnt, hpending.trans ?_⟩
      rw [List.append_assoc]
      have hother : keys.filterMap (fun key' => ((g.reqs.erase key).get? key').map fun q =>
          (⟨key', q.1, q.2⟩ : TypedAmGroupBatchReq V s)) =
          keys.filterMap fun key' => (g.reqs.get? key').map fun q => ⟨key', q.1, q.2⟩ := by
        refine List.filterMap_congr fun key' hmem => ?_
        have hne : key' ≠ key := fun heq => hkey (heq ▸ hmem)
        rw [SortedMap.get?_erase, if_neg hne]
      rw [hother]
      rfl

theorem Holds.sendAll {g : TypedAmGroup V s} (h : Holds numPes limit ops ops.length g) :
    ∃ g', g.sendAll = some g' ∧ g'.numPes = numPes ∧ g'.cnt = ops.length ∧
      g'.pendingReqs = (batches numPes limit ops).map Batch.request := by
  obtain ⟨g', hg', hnum, hcnt, hpending⟩ := foldlM_sendPeBuffer
    (List.nodup_range (n := g.numPes + 1)) fun key hmem =>
      Nat.le_of_lt_succ (List.mem_range.mp hmem)
  refine ⟨g', hg', hnum.trans h.numPes_eq, hcnt.trans h.cnt, hpending.trans ?_⟩
  rw [batches, List.map_append, h.pendingReqs, h.numPes_eq, List.map_filterMap]
  refine congrArg (_ ++ ·) (List.filterMap_congr fun key _ => ?_)
  rw [h.reqs]
  cases waiting numPes limit ops key ops.length <;> rfl

end TypedAmGroup

/-! ## The result of a batch -/

theorem AmType.run_isVal {t : AmType V s T} (h : t.isUnit = false) (pe : ℕ)
    (es : List (ℕ × Am V s)) : ∃ ts, (t.run pe es).1 = .val ts := by
  induction t with
  | noReturn => cases h
  | returnData output => exact ⟨_, rfl⟩
  | returnAm am ret ih => exact ih h _

namespace Batch

/-- The PEs that run a batch -/
def pes (numPes : ℕ) (b : Batch V s) : List ℕ :=
  if b.key = numPes then List.range numPes else [b.key]

/-- What a batch returns on PE `pe`, as values -/
def vals (t : AmType V s T) (b : Batch V s) (pe : ℕ) : List T :=
  ((t.run pe b.entries).1.val?).getD []

/-- The one value of a unit result -/
def unitOf (t : AmType V s T) (b : Batch V s) (pe : ℕ) : T := t.value b.first.1 pe b.first.2

def result (t : AmType V s T) (numPes : ℕ) (b : Batch V s) : TypedAmGroupBatchResult T where
  pe := b.key
  ids := b.ids
  reqs :=
    if b.key = numPes then
      if t.isUnit then .allPeUnit ((List.range numPes).map (b.unitOf t))
      else .allPeVal ((List.range numPes).map (b.vals t))
    else
      if t.isUnit then .singlePeUnit (b.unitOf t b.key) else .singlePeVal (b.vals t b.key)

/-- What is run for a batch -/
def log (t : AmType V s T) (numPes : ℕ) (b : Batch V s) : List (Executed V) :=
  (b.pes numPes).flatMap fun pe => (t.run pe b.entries).2

theorem exec_group (t : AmType V s T) (b : Batch V s) (pe : ℕ) :
    t.exec b.ids pe b.group = some (t.run pe b.entries) := by
  have hexec := t.exec_ofList pe b.first b.others []
  rwa [List.append_nil] at hexec

theorem unit?_run {t : AmType V s T} (h : t.isUnit = true) (b : Batch V s) (pe : ℕ) :
    (t.run pe b.entries).1.unit? = some (b.unitOf t pe) := by
  rw [AmType.run_unit h b.first.1 pe pe b.first.2]
  rfl

theorem val?_run {t : AmType V s T} (h : t.isUnit = false) (b : Batch V s) (pe : ℕ) :
    (t.run pe b.entries).1.val? = some (b.vals t pe) := by
  obtain ⟨ts, hts⟩ := AmType.run_isVal h pe b.entries
  rw [vals, hts]
  rfl

theorem intoResult_request (t : AmType V s T) (numPes : ℕ) (b : Batch V s) :
    b.request.intoResult t numPes = some (b.result t numPes, b.log t numPes) := by
  rw [TypedAmGroupBatchReq.intoResult, result, log, pes]
  by_cases hkey : b.key = numPes
  · have houts : (List.range numPes).mapM (fun pe => t.exec b.ids pe b.group) =
        some ((List.range numPes).map fun pe => t.run pe b.entries) :=
      Folds.mapM_eq_map fun pe _ => b.exec_group t pe
    have hreqs : BaseAmGroupResult.ofAll t.isUnit
        (((List.range numPes).map fun pe => t.run pe b.entries).map Prod.fst) =
        some (if t.isUnit then .allPeUnit ((List.range numPes).map (b.unitOf t))
          else .allPeVal ((List.range numPes).map (b.vals t))) := by
      rw [List.map_map, BaseAmGroupResult.ofAll]
      cases hunit : t.isUnit with
      | true =>
        have hunits : ((List.range numPes).map (Prod.fst ∘ fun pe => t.run pe b.entries)).mapM
            Output.unit? = some ((List.range numPes).map (b.unitOf t)) :=
          Folds.mapM_map_eq_some fun pe _ => b.unit?_run hunit pe
        rw [if_pos rfl, hunits]
        rfl
      | false =>
        have hvals : ((List.range numPes).map (Prod.fst ∘ fun pe => t.run pe b.entries)).mapM
            Output.val? = some ((List.range numPes).map (b.vals t)) :=
          Folds.mapM_map_eq_some fun pe _ => b.val?_run hunit pe
        rw [if_neg Bool.false_ne_true, hvals]
        rfl
    simp only [request, if_pos hkey, houts, hreqs, Option.bind_eq_bind, Option.bind_some,
      List.flatMap_map]
  · have hreqs : BaseAmGroupResult.ofSingle t.isUnit (t.run b.key b.entries).1 =
        some (if t.isUnit then .singlePeUnit (b.unitOf t b.key)
          else .singlePeVal (b.vals t b.key)) := by
      rw [BaseAmGroupResult.ofSingle]
      cases hunit : t.isUnit with
      | true =>
        rw [if_pos rfl, b.unit?_run hunit]
        rfl
      | false =>
        rw [if_neg Bool.false_ne_true, b.val?_run hunit]
        rfl
    simp only [request, if_neg hkey, exec_group, hreqs, Option.bind_eq_bind, Option.bind_some,
      List.flatMap_singleton]

end Batch

/-- What `exec` returns -/
def resultOf (t : AmType V s T) (numPes limit : ℕ) (ops : List (Dest × Am V s)) :
    TypedAmGroupResult T :=
  let res := ⟨(batches numPes limit ops).map (Batch.result t numPes), ops.length, numPes⟩
  if t.isUnit then .unit res else .val res

/-- What `exec` has run -/
def logOf (t : AmType V s T) (numPes limit : ℕ) (ops : List (Dest × Am V s)) :
    List (Executed V) :=
  (batches numPes limit ops).flatMap (Batch.log t numPes)

theorem TypedAmGroup.Holds.exec_eq {g : TypedAmGroup V s}
    (h : Holds numPes limit ops ops.length g) (t : AmType V s T) :
    g.exec t = some (resultOf t numPes limit ops, logOf t numPes limit ops) := by
  obtain ⟨g', hsend, hnum, hcnt, hpending⟩ := h.sendAll
  have hresults : ((batches numPes limit ops).map Batch.request).mapM
      (fun req => req.intoResult t numPes) = _ :=
    Folds.mapM_map_eq_some fun b _ => b.intoResult_request t numPes
  rw [exec, hsend, Option.bind_eq_bind, Option.bind_some, hpending, hnum, hresults, hcnt]
  simp only [Option.bind_eq_bind, Option.bind_some, List.map_map, List.flatMap_map]
  rfl

end Lamellar.TaskGroup
