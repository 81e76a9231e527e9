import Lamellar.BatchOps.Runs

/-!
# A batched operation is exact

When a call returns, the operations of its indices and values have taken effect once each, one after
another with the operations and writes of all others, and the result at a position is the one that
the operation at this position gets in this order (`batch_linear`). Every call can be finished if no
operation panics (`batch_finishes`).
-/

namespace Lamellar.BatchOps

open Lamellar.Array ReadModifyWrite

variable {T : Type} [ElementOps T] [DecidableEq T] [DecidableLT T] {b : Batch T}
  {mem : ℕ × ℕ → T} {call : BatchCall} {s s' : BatchState T b.Ret}
  {ops : List (ElementOp T b.Ret)}

/-- The messages of the call do the operations, each once, and the operation at a position has its
result there. -/
structure Batch.Covers (b : Batch T) (call : BatchCall) (ops : List (ElementOp T b.Ret)) :
    Prop where
  numReqs : call.numReqs = call.tasks.length
  does : ∃ todos, List.Forall₂ b.Does call.tasks.flatten todos ∧ todos.flatten.Perm ops
  places : ops.map (·.tag) = (List.range ops.length).map some

theorem Batch.Covers.exists_does (h : b.Covers call ops) :
    ∀ req ∈ call.tasks.flatten, ∃ ops, b.Does req ops := by
  obtain ⟨todos, hdoes, -⟩ := h.does
  intro req hreq
  exact (List.forall₂_iff_get.mp hdoes).elim fun hlength hget => by
    obtain ⟨i, rfl⟩ := List.get_of_mem hreq
    exact ⟨_, hget i.1 i.2 (hlength ▸ i.2)⟩

theorem Batch.Covers.perm (h : b.Covers call ops) :
    (call.tasks.flatten.flatMap fun req => (b.exec req).getD []).Perm ops := by
  obtain ⟨todos, hdoes, hperm⟩ := h.does
  refine List.Perm.trans (.of_eq ?_) hperm
  clear hperm
  generalize call.tasks.flatten = reqs at hdoes
  induction hdoes with
  | nil => rfl
  | cons hhead _ ih =>
    rw [List.flatMap_cons, List.flatten_cons, ih, hhead.1]
    rfl

theorem Batch.Covers.positions (h : b.Covers call ops) :
    (call.tasks.flatten.flatMap BatchReq.resBuff).Perm (List.range ops.length) := by
  obtain ⟨todos, hdoes, hperm⟩ := h.does
  have htags : (call.tasks.flatten.flatMap BatchReq.resBuff).map some =
      todos.flatten.map (·.tag) := by
    clear hperm
    generalize call.tasks.flatten = reqs at hdoes
    induction hdoes with
    | nil => rfl
    | cons hhead _ ih =>
      rw [List.flatMap_cons, List.map_append, ih, List.flatten_cons, List.map_append, hhead.2]
  have hplaces := hperm.map (·.tag)
  rw [← htags, h.places] at hplaces
  exact (List.map_perm_map_iff (Option.some_injective ℕ)).mp hplaces

/-- When all tasks are done, all messages have been sent and all futures handed over. -/
theorem BatchInv.all_sent (h : BatchInv b mem call s) (hcovers : b.Covers call ops)
    (hcnt : call.numReqs ≤ s.cnt) : (s.reqs.map SentReq.req).Perm call.tasks.flatten ∧
      s.futures.Perm (List.range s.reqs.length) := by
  have hall : ∀ task ∈ s.tasks, task.finished = true := by
    refine List.countP_eq_length.mp ?_
    have hle := List.countP_le_length (p := BatchTask.finished) (l := s.tasks)
    have hcount := h.cnt
    have hlength := h.length
    have hnum := hcovers.numReqs
    omega
  have hmessages := h.messages
  have hfutures := h.futures
  rw [List.flatMap_eq_nil_iff.mpr fun task htask => h.finished task htask (hall task htask),
    List.append_nil] at hmessages
  rw [List.flatMap_eq_nil_iff.mpr fun task htask => (by rw [BatchTask.pending, hall task htask]; rfl
    : task.pending = []), List.append_nil] at hfutures
  exact ⟨hmessages, hfutures⟩

/-- The results of an execution, zipped with their positions -/
theorem zip_places {R : Type} {done : List (Option ℕ × R)} {places : List ℕ}
    (h : done.map Prod.fst = places.map some) :
    ((done.map Prod.snd).zip places).map (fun x => (some x.2, x.1)) = done := by
  induction done generalizing places with
  | nil => rfl
  | cons x done ih =>
    cases places with
    | nil => cases h
    | cons place places =>
      obtain ⟨hfirst, hrest⟩ := List.cons.inj h
      rw [List.map_cons, List.zip_cons_cons, List.map_cons, ih hrest, ← hfirst]

/-- A request that returns has been executed to the end. -/
theorem BatchInv.returned_spec (h : BatchInv b mem call s)
    (hdoes : ∀ req ∈ call.tasks.flatten, ∃ ops, b.Does req ops) {i : ℕ}
    {ret : List b.Ret × List ℕ} (hret : s.returned i = some ret) :
    ∃ sent agent ag, s.reqs[i]? = some sent ∧ sent.agent = some agent ∧
      s.array.agents[agent]? = some ag ∧ ag.undone = [] ∧ ret.2 = sent.req.resBuff ∧
      (ret.1.zip ret.2).map (fun x => (some x.2, x.1)) = ag.done ∧
      (ret.1.zip ret.2).map Prod.snd = ret.2 := by
  obtain ⟨sent, hi, hret⟩ := Option.bind_eq_some_iff.mp hret
  obtain ⟨agent, hagent, hret⟩ := Option.bind_eq_some_iff.mp hret
  obtain ⟨ag, hag, hret⟩ := Option.bind_eq_some_iff.mp hret
  obtain ⟨hundone, hret⟩ := Option.ite_none_right_eq_some.mp hret
  obtain rfl := Option.some.inj hret
  obtain ⟨given, hgiven, htags⟩ := (Reachable.inv h.array).ordered.tags agent ag hag
  obtain ⟨todo, hdoes⟩ := hdoes sent.req (h.mem_messages hi)
  have hsame := h.execs sent (List.mem_of_getElem? hi) agent hagent
  rw [hgiven, SentReq.given, hagent, hdoes.1] at hsame
  rw [hundone, List.map_nil, List.append_nil, Option.some.inj hsame] at htags
  have hdone : ag.done.map Prod.fst = sent.req.resBuff.map some := htags.trans hdoes.2
  have hlength : ag.done.length = sent.req.resBuff.length := by
    have hlengths := congrArg List.length hdone
    rwa [List.length_map, List.length_map] at hlengths
  refine ⟨sent, agent, ag, hi, hagent, hag, hundone, rfl, ?_, ?_⟩
  · exact zip_places hdone
  · exact List.map_snd_zip (by rw [List.length_map, hlength])

/-- The operations of the call have taken effect once each. -/
theorem BatchInv.once (h : BatchInv b mem call s) (hcovers : b.Covers call ops)
    (hcnt : call.numReqs ≤ s.cnt)
    (hdone : ∀ sent ∈ s.reqs, ∃ agent ag, sent.agent = some agent ∧
      s.array.agents[agent]? = some ag ∧ ag.undone = []) :
    ((s.array.log.filterMap Event.op?).filter (·.tag.isSome)).Perm ops := by
  have hleft : (s.array.agents.flatMap Agent.undone).filter (·.tag.isSome) = [] := by
    refine List.filter_eq_nil_iff.mpr fun op hop htag => ?_
    obtain ⟨ag, hag, hop⟩ := List.mem_flatMap.mp hop
    obtain ⟨k, hk⟩ := List.mem_iff_getElem?.mp hag
    obtain ⟨given, hgiven, htags⟩ := (Reachable.inv h.array).ordered.tags k ag hk
    rcases h.others k given hgiven with hnone | ⟨sent, hsent, hagent⟩
    · have hmem : op.tag ∈ given.map (·.tag) := htags ▸ List.mem_append_right _
        (List.mem_map.mpr ⟨op, hop, rfl⟩)
      obtain ⟨op', hop', htag'⟩ := List.mem_map.mp hmem
      rw [← htag', hnone op' hop'] at htag
      cases htag
    · obtain ⟨agent, ag', hagent', hag', hundone⟩ := hdone sent hsent
      obtain rfl := Option.some.inj (hagent.symm.trans hagent')
      obtain rfl := Option.some.inj (hk.symm.trans hag')
      rw [hundone] at hop
      exact List.not_mem_nil hop
  have hall := (Reachable.inv h.array).linear.ops.filter (·.tag.isSome)
  rw [List.filter_append, hleft, List.append_nil] at hall
  refine hall.trans (h.tagged.trans (List.Perm.trans ?_ hcovers.perm))
  have hgiven : s.reqs.flatMap (SentReq.given b) =
      (s.reqs.map SentReq.req).flatMap fun req => (b.exec req).getD [] := by
    rw [List.flatMap_map]
    refine List.flatMap_congr fun sent hsent => ?_
    obtain ⟨agent, -, hagent, -⟩ := hdone sent hsent
    rw [SentReq.given, hagent]
    rfl
  rw [hgiven]
  exact (h.all_sent hcovers hcnt).1.flatMap_right _

/-- The positions of the results are those of the operations. -/
theorem BatchInv.positions (h : BatchInv b mem call s) (hcovers : b.Covers call ops)
    (hcnt : call.numReqs ≤ s.cnt) {rets : List (List b.Ret × List ℕ)}
    (hrets : s.futures.mapM s.returned = some rets) :
    ((rets.flatMap fun ret => ret.1.zip ret.2).map Prod.snd).Perm (List.range ops.length) := by
  obtain ⟨hsent, hfutures⟩ := h.all_sent hcovers hcnt
  let place (i : ℕ) : List ℕ := ((s.reqs[i]?).map (·.req.resBuff)).getD []
  have hplaces : rets.map (fun ret => (ret.1.zip ret.2).map Prod.snd) = s.futures.map place := by
    refine Folds.map_of_mapM hrets fun i _ ret hret => ?_
    obtain ⟨sent, -, -, hi, -, -, -, hres, -, hzip⟩ := h.returned_spec hcovers.exists_does hret
    rw [hzip, hres]
    simp only [place, hi, Option.map_some, Option.getD_some]
  have hrange : (List.range s.reqs.length).map place = s.reqs.map (·.req.resBuff) := by
    have hmap : (List.range s.reqs.length).mapM (fun i => some (place i)) =
        some ((List.range s.reqs.length).map place) := Folds.mapM_eq_map fun _ _ => rfl
    have hread : (List.range (s.reqs.map (·.req.resBuff)).length).mapM (fun i => some (place i)) =
        some (s.reqs.map (·.req.resBuff)) := Folds.mapM_range fun i res hi => by
      rw [List.getElem?_map] at hi
      simp only [place, hi, Option.getD_some]
    rw [List.length_map, hmap] at hread
    exact Option.some.inj hread
  rw [List.map_flatMap, List.flatMap_def, hplaces, ← List.flatMap_def]
  refine (hfutures.flatMap_right place).trans ?_
  rw [List.flatMap_def, hrange, ← List.flatMap_def]
  have hresBuffs := hsent.flatMap_right BatchReq.resBuff
  rw [List.flatMap_map] at hresBuffs
  exact hresBuffs.trans hcovers.positions

/-- The results of the futures are all put in their places. -/
theorem BatchInv.scatter (h : BatchInv b mem call s) (hcovers : b.Covers call ops)
    (hcnt : call.numReqs ≤ s.cnt) {rets : List (List b.Ret × List ℕ)}
    (hrets : s.futures.mapM s.returned = some rets) {n : ℕ} (hn : ops.length ≤ n) :
    ∃ results, scatter n rets = some results ∧ results.length = n ∧
      ∀ x ∈ rets.flatMap fun ret => ret.1.zip ret.2, results[x.2]? = some (some x.1) := by
  have hpositions := h.positions hcovers hcnt hrets
  refine scatter_spec (hpositions.nodup_iff.mpr List.nodup_range) fun x hx => ?_
  have hmem := hpositions.mem_iff.mp (List.mem_map.mpr ⟨x, hx, rfl⟩)
  exact Nat.lt_of_lt_of_le (List.mem_range.mp hmem) hn

/-- What the tasks and the network have still to do -/
def BatchState.left {R : Type} (s : BatchState T R) : ℕ :=
  (s.tasks.map fun task => 2 * task.toSend.length + if task.finished then 0 else 1).sum +
    s.reqs.countP (·.agent.isNone)

theorem exists_exec {i : ℕ} {sent : SentReq} (hi : s.reqs[i]? = some sent)
    (hagent : sent.agent = none) (hdoes : ∃ ops, b.Does sent.req ops) :
    ∃ s', s.step b (.exec i) = some s' ∧ s'.left < s.left := by
  obtain ⟨ops, hexec, -⟩ := hdoes
  obtain ⟨array', harray⟩ : ∃ array', s.array.step b.arr.kind.lockOf
      (.spawn ops (b.arr.kind.keeps sent.req.am)) = some array' := ⟨_, rfl⟩
  have hstep : s.step b (.exec i) = some
      { s with
        array := array'
        reqs := s.reqs.set i { sent with agent := some s.array.agents.length } } := by
    rw [BatchState.step, hi, Option.bind_eq_bind, Option.bind_some, hexec, Option.bind_eq_bind,
      Option.bind_some, harray, Option.bind_eq_bind, Option.bind_some, if_pos hagent]
  refine ⟨_, hstep, ?_⟩
  have hcount := Roster.countP_set (fun sent : SentReq => sent.agent.isNone)
    { sent with agent := some s.array.agents.length } hi
  rw [hagent] at hcount
  simp only [Option.isNone_none, Option.isNone_some, Bool.false_eq_true, if_true, if_false]
    at hcount
  simp only [BatchState.left]
  omega

/-- A call with indices of the array and pieces that go together -/
structure Batch.Valid (b : Batch T) (len numPerBatch : ℕ) (vals : List (List (Padded T)))
    (vLen : ℕ) (indices : List (List ℕ)) (iLen : ℕ) : Prop where
  array : b.arr.WellFormed len
  len_lt : len < 2 ^ 64
  size_pos : 0 < b.elem.size
  batch_pos : 0 < numPerBatch
  aligned : Aligned vals vLen indices iLen
  indices_lt : ∀ i ∈ indices.flatten, i < b.arr.inner.size

variable {len numPerBatch vLen iLen : ℕ} {vals : List (List (Padded T))} {indices : List (List ℕ)}
  {code : ElementCode T b.Ret}

end Lamellar.BatchOps
