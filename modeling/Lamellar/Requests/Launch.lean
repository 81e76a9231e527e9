import Lamellar.Lib.Roster
import Lamellar.Requests.Invariant

/-!
# Launches

A launch of a team and a launch of a task group differ in the request and in the sub id. What they
have in common is that no execution has the id yet.
-/

namespace Lamellar.Requests

open Team (LamellarArchRT)

variable {V : Type} {cfg : Env} {s s' : State V} {L P E : List Exec} {e : Exec} {i g t pe num : ℕ}
  {r r' : RequestResult V} {G G' : LamellarTaskGroup} {id : ReqId} {am : Am} {handle : Handle}
  {a b : RequestInfo} {tg : Option ℕ} {infos infos' : List RequestInfo}
  {groups groups' : List LamellarTaskGroup} {items : List (Item V)}

/-! ## New executions -/

/-- The count of a property that the new executions have or have not -/
theorem countP_append_const {p q : Exec → Bool} {b : Bool} (hold : ∀ e ∈ P, q e = p e)
    (hnew : ∀ e ∈ E, q e = b) :
    (P ++ E).countP q = P.countP p + if b then E.length else 0 := by
  have hP : P.countP q = P.countP p := List.countP_congr fun e he => by rw [hold e he]
  rw [List.countP_append, hP]
  cases b with
  | true =>
    rw [List.countP_eq_length.mpr hnew]
    rfl
  | false =>
    have hE : E.countP q = 0 :=
      List.countP_eq_zero.mpr fun e he => by rw [hnew e he]; exact Bool.false_ne_true
    rw [hE]
    rfl

/-- The executions of a launch with an id that is new -/
theorem Launches.append (h : Launches cfg infos groups L)
    (hinfos : ∀ e ∈ L, infos'[e.1.id]? = infos[e.1.id]?)
    (htarget : ∀ b e, Target cfg groups b e → Target cfg groups' b e)
    (hfresh : ∀ e ∈ L, e.1 ≠ id) (ha : infos'[id.id]? = some a) (hfits : a.Fits cfg am)
    (hsubEq : a.handle.isGroup = false → id.subId = 0)
    (hsubLt : a.handle.isGroup → ∃ G, groups'[a.group]? = some G ∧ id.subId < G.subIdCounter) :
    Launches cfg infos' groups' (L ++ am.execs cfg id) where
  nodup := by
    refine List.nodup_append.mpr ⟨h.nodup, hfits.execs_nodup id, fun e he e' he' heq => ?_⟩
    subst heq
    exact hfresh e he (Am.execs_fst he')
  target e he := by
    rcases List.mem_append.mp he with hold | hnew
    · obtain ⟨b, hb, hbe⟩ := h.target e hold
      exact ⟨b, (hinfos e hold).trans hb, htarget b e hbe⟩
    · have hid := Am.execs_fst hnew
      refine ⟨a, hid ▸ ha, fun hmulti => ?_, fun hgroup => ?_, fun hgroup => ?_⟩
      · obtain ⟨via, rfl⟩ := hfits.of_isMulti hmulti
        obtain ⟨pe, hpe, rfl⟩ := List.mem_map.mp hnew
        exact hpe
      · exact hid ▸ hsubEq hgroup
      · exact hid ▸ hsubLt hgroup
  all e he b hb hmulti pe hpe := by
    rcases List.mem_append.mp he with hold | hnew
    · rw [hinfos e hold] at hb
      exact List.mem_append_left _ (h.all e hold b hb hmulti pe hpe)
    · have hid := Am.execs_fst hnew
      rw [hid, ha] at hb
      obtain rfl := Option.some.inj hb
      obtain ⟨via, rfl⟩ := hfits.of_isMulti hmulti
      exact List.mem_append_right _ (List.mem_map.mpr ⟨pe, hpe, by rw [hid]⟩)
  single e he b hb hmulti e' he' heq := by
    rcases List.mem_append.mp he with hold | hnew
    · have hold' : e' ∈ L := (List.mem_append.mp he').resolve_right fun hnew' =>
        hfresh e hold (heq ▸ Am.execs_fst hnew')
      rw [hinfos e hold] at hb
      exact h.single e hold b hb hmulti e' hold' heq
    · have hid := Am.execs_fst hnew
      have hnew' : e' ∈ am.execs cfg id := (List.mem_append.mp he').resolve_left fun hold' =>
        hfresh e' hold' (heq.trans hid)
      rw [hid, ha] at hb
      obtain rfl := Option.some.inj hb
      obtain ⟨pe, hexecs⟩ := hfits.of_not_isMulti hmulti id
      rw [hexecs] at hnew hnew'
      rw [List.mem_singleton.mp hnew, List.mem_singleton.mp hnew']

/-- The executions of a launch are counted for the team and the task group of their request. -/
theorem Counted.append (h : Counted s P)
    (hinfos : ∀ e ∈ P, s'.infos[e.1.id]? = s.infos[e.1.id]?) (ha : s'.infos[id.id]? = some a)
    (hE : ∀ e ∈ E, e.1 = id) (hworld : s'.world = (s.addSendReq a.team a.tg E.length).world)
    (hteam : s'.team = (s.addSendReq a.team a.tg E.length).team)
    (hcounters : s'.counters = (s.addSendReq a.team a.tg E.length).counters) :
    Counted s' (P ++ E) where
  world_eq := by
    rw [hworld, List.length_append, Int.natCast_add, ← h.world_eq]
    rfl
  team_eq t := by
    have hcount := countP_append_const (P := P) (E := E) (b := decide (a.team = t))
      (p := fun e => s.teamOf e = some t) (q := fun e => s'.teamOf e = some t)
      (fun e he => by rw [State.teamOf, hinfos e he]; rfl)
      (fun e he => by rw [State.teamOf, hE e he, ha]; simp)
    rw [hteam, State.addSendReq_team, hcount, h.team_eq, Int.natCast_add]
    by_cases ht : a.team = t <;> simp [ht]
  counters_eq c := by
    have hcount := countP_append_const (P := P) (E := E) (b := decide (a.tg = some c))
      (p := fun e => s.tgOf e = some c) (q := fun e => s'.tgOf e = some c)
      (fun e he => by rw [State.tgOf, hinfos e he]; rfl)
      (fun e he => by rw [State.tgOf, hE e he, ha]; rfl)
    rw [hcounters, State.addSendReq_counters, hcount, h.counters_eq, Int.natCast_add]
    by_cases hc : a.tg = some c <;> simp [hc]

/-- What a step leaves of a request that it is not about -/
theorem Held.frame {P' : List Exec} (h : Held cfg s P i r)
    (hcount : P'.countP (fun e => e.1.id = i) = P.countP fun e => e.1.id = i)
    (howners : s'.owners r.toRequestInfo = s.owners r.toRequestInfo)
    (hheld : s'.userHeld r → s.userHeld r)
    (hdelivered : ∀ d : Exec × InternalResult V, d.1.1.id = i →
      (d ∈ s'.delivered ↔ d ∈ s.delivered)) : Held cfg s' P' i r where
  strong_eq := by rw [h.strong_eq, hcount, howners]
  cnt_eq hhandle huser := by rw [h.cnt_eq hhandle huser, hcount]
  placed hr subId t data := by
    rw [h.placed (hheld hr) subId t data]
    exact exists_congr fun pe => and_congr_right fun _ => (hdelivered _ rfl).symm

/-- New executions do not count for other requests. -/
theorem countP_append_of_ne (hE : ∀ e ∈ E, e.1 = id) (hi : id.id ≠ i) :
    (P ++ E).countP (fun e => e.1.id = i) = P.countP fun e => e.1.id = i := by
  rw [countP_append_const (b := false) (fun e _ => rfl) fun e he => by
    rw [hE e he]
    exact decide_eq_false hi]
  exact Nat.add_zero _

theorem countP_append_of_eq (hE : ∀ e ∈ E, e.1 = id) :
    (P ++ E).countP (fun e => e.1.id = id.id) = (P.countP fun e => e.1.id = id.id) + E.length := by
  rw [countP_append_const (b := true) (fun e _ => rfl) fun e he => by
    rw [hE e he]
    exact decide_eq_true rfl]
  rfl

/-! ## Teams -/

theorem Wired.append_infos (h : Wired cfg infos groups items)
    (hitems : ∀ item ∈ items, (item.exec cfg).1.id < infos.length)
    (ha : a.handle.isGroup = false) : Wired cfg (infos ++ [a]) groups items where
  localItem item hitem b hb hlocal := by
    rw [List.getElem?_append_left (hitems item hitem)] at hb
    exact h.localItem item hitem b hb hlocal
  group i b hb hgroup := by
    rcases Nat.lt_or_ge i infos.length with hlt | hge
    · rw [List.getElem?_append_left hlt] at hb
      exact h.group i b hb hgroup
    · rw [List.getElem?_append_right hge] at hb
      obtain rfl := List.mem_singleton.mp (List.mem_of_getElem? hb)
      rw [ha] at hgroup
      cases hgroup
  requests g G hG handle hhandle := by
    have hold := h.requests g G hG handle hhandle
    rwa [List.getElem?_append_left (List.getElem?_eq_some_iff.mp hold).1]
  cnt_pos := h.cnt_pos

/-- A launch of a team has as many raw pointers to its request as executions. -/
theorem State.Consistent.launch (h : s.Consistent cfg) (hgroup : handle.isGroup = false)
    (hfits : RequestInfo.Fits cfg ⟨handle, t, tg, 0⟩ am)
    (hnum : num = if handle.isMulti then (cfg.teams t).numPes else 1) :
    (s.launch cfg t tg handle num am).Consistent cfg := by
  let id : ReqId := ⟨s.requests.length, 0⟩
  let r : RequestResult V := .new handle t tg 0 num (1 + (num - 1) : ℕ)
  let s₁ : State V := { s.addSendReq t tg num with requests := s.requests ++ [r] }
  have hlength : (am.execs cfg id).length = num := (hfits.execs_length id).trans hnum.symm
  have hpos : 1 + (num - 1) = num := by
    have hteam := (cfg.wellFormed t).numPes_pos
    split at hnum <;> omega
  have hinfos₁ : s₁.infos = s.infos ++ [r.toRequestInfo] := List.map_append
  have hlen : s.infos.length = s.requests.length := List.length_map _
  have hold : ∀ e ∈ s.launched, s₁.infos[e.1.id]? = s.infos[e.1.id]? := by
    intro e he
    rw [hinfos₁, List.getElem?_append_left (hlen ▸ h.id_lt he)]
  have hnew : s₁.infos[id.id]? = some r.toRequestInfo := by
    rw [hinfos₁]
    show (s.infos ++ [r.toRequestInfo])[s.requests.length]? = _
    rw [← hlen]
    exact List.getElem?_concat_length
  have hfresh : ∀ e ∈ s.launched, e.1 ≠ id := by
    intro e he heq
    exact absurd (heq ▸ h.id_lt he) (Nat.lt_irrefl _)
  have hexecs : ∀ e ∈ am.execs cfg id, e.1 = id := fun e he => Am.execs_fst he
  have hlaunches : Launches cfg s₁.infos s₁.groups (s.launched ++ am.execs cfg id) :=
    h.launches.append hold (fun _ _ htarget => htarget) hfresh hnew hfits (fun _ => rfl)
      fun hg => absurd (hgroup.symm.trans hg) Bool.false_ne_true
  have hwired : Wired cfg s₁.infos s₁.groups s₁.inFlight := by
    rw [hinfos₁]
    refine h.wired.append_infos (fun item hitem => ?_) hgroup
    exact hlen ▸ h.id_lt (h.mem_of_pending (List.mem_map_of_mem hitem))
  have hcounted : Counted s₁ (s.pending cfg ++ am.execs cfg id) :=
    h.counted.append (fun e he => hold e (h.mem_of_pending he)) hnew hexecs
      (by rw [hlength]; rfl) (by rw [hlength]; rfl) (by rw [hlength]; rfl)
  have hheld : ∀ i r', s₁.requests[i]? = some r' →
      Held cfg s₁ (s.pending cfg ++ am.execs cfg id) i r' := by
    intro i r' hr'
    rcases Nat.lt_or_ge i s.requests.length with hlt | hge
    · rw [List.getElem?_append_left hlt] at hr'
      exact (h.held i r' hr').frame (countP_append_of_ne hexecs (Ne.symm (Nat.ne_of_lt hlt))) rfl
        (fun hheld => hheld) fun d _ => Iff.rfl
    · have hi : i = s.requests.length := by
        have hlt := (List.getElem?_eq_some_iff.mp hr').1
        rw [List.length_append, List.length_singleton] at hlt
        omega
      subst hi
      rw [List.getElem?_concat_length] at hr'
      obtain rfl := Option.some.inj hr'
      have hzero : (s.pending cfg).countP (fun e => e.1.id = id.id) = 0 :=
        List.countP_eq_zero.mpr fun e he heq =>
          absurd (of_decide_eq_true heq) (Nat.ne_of_lt (h.id_lt (h.mem_of_pending he)))
      have hcount : (s.pending cfg ++ am.execs cfg id).countP (fun e => e.1.id = id.id) = num := by
        rw [countP_append_of_eq hexecs, hzero, hlength, Nat.zero_add]
      have howners : s₁.owners r.toRequestInfo = 0 := if_neg (hgroup ▸ Bool.false_ne_true)
      refine ⟨?_, fun _ _ => ?_, fun _ subId t data => ⟨fun hdata => ?_, ?_⟩⟩
      · rw [hcount, howners, Nat.add_zero]
        exact congrArg Nat.cast hpos
      · exact congrArg Nat.cast hcount.symm
      · cases hdata
      · rintro ⟨pe, -, hd⟩
        exact absurd (h.id_lt (h.mem_of_delivered hd)) (Nat.lt_irrefl _)
  have hinv : Inv cfg s₁ (s₁.launched ++ am.execs cfg id) (s₁.pending cfg ++ am.execs cfg id) :=
    ⟨by rw [← List.append_assoc]; exact h.perm.append_right _, hlaunches, hwired, hcounted, hheld⟩
  exact hinv.submit hnew hfits

/-! ## Task groups -/

theorem State.infos_modifyRequest {f : RequestResult V → RequestResult V}
    (hf : ∀ r, (f r).toRequestInfo = r.toRequestInfo) : (s.modifyRequest i f).infos = s.infos := by
  refine List.ext_getElem? fun j => ?_
  rw [State.infos, State.infos, State.modifyRequest, List.getElem?_map, List.getElem?_map,
    List.getElem?_modify]
  by_cases hj : i = j
  · cases hr : s.requests[j]? with
    | none => rfl
    | some r => simpa [hj] using hf r
  · simp [hj]

/-- A step of a task group that leaves its requests where they are -/
structure Regroups (G G' : LamellarTaskGroup) : Prop where
  request_eq : G'.request = G.request
  team_eq : G'.team = G.team
  counters_eq : G'.counters = G.counters
  subId_le : G.subIdCounter ≤ G'.subIdCounter
  cnt_pos : 0 < G'.cnt → 0 < G.cnt

theorem Target.regroup (hG : groups[g]? = some G) (h : Regroups G G')
    (he : Target cfg groups a e) : Target cfg (groups.set g G') a e := by
  refine { he with subId_lt := fun hgroup => ?_ }
  obtain ⟨H, hH, hlt⟩ := he.subId_lt hgroup
  obtain ⟨H', hH', rfl | ⟨rfl, rfl⟩⟩ := Roster.set_old G' hG hH
  · exact ⟨H', hH', hlt⟩
  · exact ⟨H', hH', lt_of_lt_of_le hlt h.subId_le⟩

theorem Launches.regroup (h : Launches cfg infos groups L) (hG : groups[g]? = some G)
    (hG' : Regroups G G') : Launches cfg infos (groups.set g G') L := by
  refine { h with target := fun e he => ?_ }
  obtain ⟨a, ha, htarget⟩ := h.target e he
  exact ⟨a, ha, htarget.regroup hG hG'⟩

theorem Wired.regroup (h : Wired cfg infos groups items) (hG : groups[g]? = some G)
    (hG' : Regroups G G') (hcnt : G'.dropped = false → 0 < G'.cnt) :
    Wired cfg infos (groups.set g G') items where
  localItem := h.localItem
  group i a ha hgroup := by
    obtain ⟨H, hH, hi⟩ := h.group i a ha hgroup
    obtain ⟨H', hH', rfl | ⟨rfl, rfl⟩⟩ := Roster.set_old G' hG hH
    · exact ⟨H', hH', hi⟩
    · exact ⟨H', hH', (congrFun hG'.request_eq _).trans hi⟩
  requests g' H hH handle hhandle := by
    obtain ⟨rfl, rfl⟩ | ⟨-, hold⟩ := Roster.set_cases hG hH
    · rw [hG'.request_eq, hG'.team_eq, hG'.counters_eq]
      exact h.requests g' G hG handle hhandle
    · exact h.requests g' H hold handle hhandle
  cnt_pos g' H hH hdropped := by
    obtain ⟨rfl, rfl⟩ | ⟨-, hold⟩ := Roster.set_cases hG hH
    · exact hcnt hdropped
    · exact h.cnt_pos g' H hold hdropped

theorem State.owners_regroup (G' : LamellarTaskGroup) (hG : s.groups[g]? = some G)
    (hdropped : G'.dropped = G.dropped) (hs' : s'.groups = s.groups.set g G') :
    s'.owners a = s.owners a := by
  rw [State.owners, State.owners, hs']
  cases hH : s.groups[a.group]? with
  | none =>
    have hset : (s.groups.set g G')[a.group]? = none := by
      rw [List.getElem?_eq_none_iff, List.length_set]
      exact List.getElem?_eq_none_iff.mp hH
    rw [hset]
  | some H =>
    obtain ⟨H', hH', rfl | ⟨rfl, rfl⟩⟩ := Roster.set_old G' hG hH
    · rw [hH']
    · rw [hH']
      simp only [hdropped]

theorem State.userHeld_of_regroup (s' : State V) (hG : s.groups[g]? = some G)
    (hcnt : 0 < G'.cnt → 0 < G.cnt) (hs' : s'.groups = s.groups.set g G') (hr : s'.userHeld r) :
    s.userHeld r := by
  rw [State.userHeld] at hr ⊢
  split at hr
  · rename_i hgroup
    rw [hs'] at hr
    rw [if_pos hgroup]
    cases hH' : (s.groups.set g G')[r.group]? with
    | none =>
      rw [hH'] at hr
      cases hr
    | some H' =>
      rw [hH'] at hr
      obtain ⟨hg, rfl⟩ | ⟨-, hold⟩ := Roster.set_cases hG hH'
      · rw [hg, hG]
        exact decide_eq_true (hcnt (of_decide_eq_true hr))
      · rw [hold]
        exact hr
  · rename_i hgroup
    rwa [if_neg hgroup]

/-- A launch of a task group has one more raw pointer to the request for every execution. -/
theorem State.Consistent.launchGroup (h : s.Consistent cfg) (hG : s.groups[g]? = some G)
    (hdropped : G.dropped = false) (hgroup : handle.isGroup)
    (hfits : RequestInfo.Fits cfg ⟨handle, G.team, some G.counters, g⟩ am)
    (hnum : num = if handle.isMulti then (cfg.teams G.team).numPes else 1) :
    (s.launchGroup cfg g G handle num am).Consistent cfg := by
  let id : ReqId := ⟨G.request handle, G.subIdCounter⟩
  let G' : LamellarTaskGroup := { G with cnt := G.cnt + 1, subIdCounter := G.subIdCounter + 1 }
  let s₁ : State V :=
    { (s.addSendReq G.team (some G.counters) num).incrementStrongCount (G.request handle) num with
      groups := s.groups.set g G' }
  have hlength : (am.execs cfg id).length = num := (hfits.execs_length id).trans hnum.symm
  have hpos : 0 < G.cnt := h.wired.cnt_pos g G hG hdropped
  have hG' : Regroups G G' := ⟨rfl, rfl, rfl, Nat.le_succ _, fun _ => hpos⟩
  have hinfos : s₁.infos = s.infos := State.infos_modifyRequest fun _ => rfl
  have hinfo : s.infos[G.request handle]? = some ⟨handle, G.team, some G.counters, g⟩ :=
    h.wired.requests g G hG handle hgroup
  have hnew : s₁.infos[id.id]? = some ⟨handle, G.team, some G.counters, g⟩ := hinfos ▸ hinfo
  have hold : ∀ e : Exec, s₁.infos[e.1.id]? = s.infos[e.1.id]? := fun e => by rw [hinfos]
  -- The sub ids of a group's executions are below its counter.
  have hfresh : ∀ e ∈ s.launched, e.1 ≠ id := by
    intro e he heq
    obtain ⟨a, ha, htarget⟩ := h.launches.target e he
    rw [heq] at ha
    obtain rfl := Option.some.inj (hinfo.symm.trans ha)
    obtain ⟨H, hH, hlt⟩ := htarget.subId_lt hgroup
    obtain rfl := Option.some.inj (hG.symm.trans hH)
    rw [heq] at hlt
    exact Nat.lt_irrefl _ hlt
  have hexecs : ∀ e ∈ am.execs cfg id, e.1 = id := fun e he => Am.execs_fst he
  have hlaunches : Launches cfg s₁.infos s₁.groups (s.launched ++ am.execs cfg id) := by
    refine h.launches.append (fun e _ => hold e) (fun b e hb => hb.regroup hG hG') hfresh hnew hfits
      (fun hg => absurd (hg.symm.trans hgroup) Bool.false_ne_true) fun _ => ?_
    exact ⟨G', List.getElem?_set_self (List.getElem?_eq_some_iff.mp hG).1, Nat.lt_succ_self _⟩
  have hwired : Wired cfg s₁.infos s₁.groups s₁.inFlight := by
    rw [hinfos]
    exact h.wired.regroup hG hG' fun _ => Int.lt_add_one_of_le (Int.le_of_lt hpos)
  have hcounted : Counted s₁ (s.pending cfg ++ am.execs cfg id) :=
    h.counted.append (fun e _ => hold e) hnew hexecs (by rw [hlength]; rfl) (by rw [hlength]; rfl)
      (by rw [hlength]; rfl)
  have hheld : ∀ i r', s₁.requests[i]? = some r' →
      Held cfg s₁ (s.pending cfg ++ am.execs cfg id) i r' := by
    intro i r' hr'
    have howners (a : RequestInfo) : s₁.owners a = s.owners a :=
      State.owners_regroup G' hG rfl rfl
    have huser (r : RequestResult V) : s₁.userHeld r → s.userHeld r :=
      State.userHeld_of_regroup s₁ hG hG'.cnt_pos rfl
    have hmodify : s₁.requests = s.requests.modify (G.request handle)
      fun r => { r with strong := r.strong + num } := rfl
    rw [hmodify, List.getElem?_modify] at hr'
    obtain ⟨r, hr, heq⟩ := Option.map_eq_some_iff.mp hr'
    have hprior := h.held i r hr
    split at heq
    · rename_i hi
      subst hi heq
      have hcount : (s.pending cfg ++ am.execs cfg id).countP (fun e => e.1.id = G.request handle) =
          ((s.pending cfg).countP fun e => e.1.id = G.request handle) + (am.execs cfg id).length :=
        countP_append_of_eq hexecs
      refine ⟨?_, fun hhandle _ => ?_, fun hr'' => hprior.placed (huser _ hr'')⟩
      · show r.strong + num = ((s.pending cfg ++ am.execs cfg id).countP
          (fun e => e.1.id = G.request handle) + s₁.owners r.toRequestInfo : ℕ)
        rw [hcount, howners, hprior.strong_eq, hlength]
        omega
      · have ha := Option.some.inj (hinfo.symm.trans (State.infos_eq_some hr))
        have hhandle' : handle = .lamellarMultiRequest :=
          (congrArg RequestInfo.handle ha).trans hhandle
        rw [hhandle'] at hgroup
        cases hgroup
    · rename_i hi
      obtain rfl : r = r' := heq
      exact hprior.frame (countP_append_of_ne hexecs hi) (howners _) (huser _) fun d _ => Iff.rfl
  have hinv : Inv cfg s₁ (s₁.launched ++ am.execs cfg id) (s₁.pending cfg ++ am.execs cfg id) :=
    ⟨by rw [← List.append_assoc]; exact h.perm.append_right _, hlaunches, hwired, hcounted, hheld⟩
  exact hinv.submit hnew hfits

end Lamellar.Requests
