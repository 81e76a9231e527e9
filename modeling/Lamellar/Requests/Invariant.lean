import Lamellar.Requests.Model

/-!
# The launched executions

Every execution that was launched is on its way or has been delivered, and no two of them are the
same: a launch of a team makes a request, and a launch of a task group takes a sub id. `Inv` says so
of the executions `L` that count as launched and those `P` of them that are on their way, so that
`process_msg` may follow the counting (`Inv.submit`).
-/

namespace Lamellar.Requests

open Team (LamellarArchRT)
open Batching.Broadcast (Config isOk sendToPes)

variable {V : Type} {cfg : Env} {s s' : State V} {L P E : List Exec} {e : Exec} {i g t pe : ℕ}
  {r r' : RequestResult V} {G : LamellarTaskGroup} {id : ReqId} {am : Am} {handle : Handle}
  {data : InternalResult V} {a : RequestInfo} {tg : Option ℕ}

/-- Where `add_result` puts the result of PE `pe` -/
def RequestInfo.Slot (cfg : Env) (a : RequestInfo) (pe t : ℕ) : Prop :=
  if a.handle.isMulti then (cfg.teams a.team).teamPe pe = .ok t else t = 0

/-- An execution of a launch for the request -/
structure Target (cfg : Env) (groups : List LamellarTaskGroup) (a : RequestInfo) (e : Exec) :
    Prop where
  mem : a.handle.isMulti → e.2 ∈ (cfg.teams a.team).teamIter
  subId_eq : a.handle.isGroup = false → e.1.subId = 0
  subId_lt : a.handle.isGroup → ∃ G, groups[a.group]? = some G ∧ e.1.subId < G.subIdCounter

/-- The executions of launches -/
structure Launches (cfg : Env) (infos : List RequestInfo) (groups : List LamellarTaskGroup)
    (L : List Exec) : Prop where
  nodup : L.Nodup
  target : ∀ e ∈ L, ∃ a, infos[e.1.id]? = some a ∧ Target cfg groups a e
  all : ∀ e ∈ L, ∀ a, infos[e.1.id]? = some a → a.handle.isMulti →
    ∀ pe ∈ (cfg.teams a.team).teamIter, (e.1, pe) ∈ L
  single : ∀ e ∈ L, ∀ a, infos[e.1.id]? = some a → a.handle.isMulti = false →
    ∀ e' ∈ L, e'.1 = e.1 → e' = e

/-- Requests of task groups belong to these, and what is local does not leave. -/
structure Wired (cfg : Env) (infos : List RequestInfo) (groups : List LamellarTaskGroup)
    (items : List (Item V)) : Prop where
  localItem : ∀ item ∈ items, ∀ a, infos[(item.exec cfg).1.id]? = some a → a.handle.isLocal →
    ∃ id, item = .localAm id
  group : ∀ (i : ℕ) (a : RequestInfo), infos[i]? = some a → a.handle.isGroup →
    ∃ G, groups[a.group]? = some G ∧ G.request a.handle = i
  requests : ∀ (g : ℕ) (G : LamellarTaskGroup), groups[g]? = some G →
    ∀ handle : Handle, handle.isGroup →
      infos[G.request handle]? = some ⟨handle, G.team, some G.counters, g⟩
  cnt_pos : ∀ (g : ℕ) (G : LamellarTaskGroup), groups[g]? = some G → G.dropped = false →
    0 < G.cnt

/-- The counters, where `P` are the executions on their way -/
structure Counted (s : State V) (P : List Exec) : Prop where
  world_eq : s.world = P.length
  team_eq : ∀ t, s.team t = P.countP fun e => s.teamOf e = some t
  counters_eq : ∀ c, s.counters c = P.countP fun e => s.tgOf e = some c

/-- The results of a request are where they belong. -/
def State.Placed (cfg : Env) (s : State V) (i : ℕ) (r : RequestResult V) : Prop :=
  ∀ subId t data, r.data subId t = some data ↔
    ∃ pe, r.toRequestInfo.Slot cfg pe t ∧ ((⟨i, subId⟩, pe), data) ∈ s.delivered

/-- A request, where `P` are the executions on their way -/
structure Held (cfg : Env) (s : State V) (P : List Exec) (i : ℕ) (r : RequestResult V) :
    Prop where
  strong_eq : r.strong = (P.countP (fun e => e.1.id = i) + s.owners r.toRequestInfo : ℕ)
  cnt_eq : r.handle = .lamellarMultiRequest → r.userHandle →
    r.cnt = P.countP fun e => e.1.id = i
  placed : s.userHeld r → s.Placed cfg i r

def State.pending (cfg : Env) (s : State V) : List Exec := s.inFlight.map (Item.exec cfg)

structure Inv (cfg : Env) (s : State V) (L P : List Exec) : Prop where
  perm : L.Perm (s.delivered.map Prod.fst ++ P)
  launches : Launches cfg s.infos s.groups L
  wired : Wired cfg s.infos s.groups s.inFlight
  counted : Counted s P
  held : ∀ (i : ℕ) (r : RequestResult V), s.requests[i]? = some r → Held cfg s P i r

/-- `Inv` between two steps -/
def State.Consistent (cfg : Env) (s : State V) : Prop := Inv cfg s s.launched (s.pending cfg)

/-! ## `process_msg` -/

theorem processMsg_all {arch via : LamellarArchRT} (h : arch.WellFormed cfg.numPes)
    (hvia : via.WellFormed cfg.numPes) (hsame : ∀ pe, pe ∈ via.teamIter ↔ pe ∈ arch.teamIter)
    (id : ReqId) :
    ((processMsg cfg id (.all arch via) : List (Item V)).map (Item.exec cfg)).Perm
      ((Am.all arch via).execs cfg id) := by
  have hremote :
      ((if cfg.localBackend = false ∧ (arch.numPes > 1 ∨ isOk arch cfg.me = false) then
        (sendToPes cfg.toConfig via).map (.am id) else [] : List (Item V)).map (Item.exec cfg)).Perm
        ((sendToPes cfg.toConfig arch).map fun pe => (id, pe)) := by
    split
    · rw [List.map_map]
      exact (Batching.Broadcast.sendToPes_perm hvia h hsame).map _
    · rename_i hnot
      rw [Batching.Broadcast.sendToPes_of_not_remote h hnot]
      exact List.Perm.refl _
  rw [processMsg, List.map_append, Am.execs]
  refine (hremote.append_right _).trans ?_
  by_cases hme : cfg.me ∈ arch.teamIter
  · rw [if_pos ((Batching.Broadcast.isOk_iff h _).mpr hme)]
    have hperm := (Batching.Broadcast.sendToPes_of_mem h hme).map
      fun pe => (id, pe)
    exact List.perm_append_comm.trans hperm.symm
  · rw [if_neg fun hok => hme ((Batching.Broadcast.isOk_iff h _).mp hok),
      Batching.Broadcast.sendToPes_of_not_mem hme, List.map_nil,
      List.append_nil]

/-- The `Am` of a launch for the request -/
def RequestInfo.Fits (cfg : Env) (a : RequestInfo) (am : Am) : Prop :=
  if a.handle.isMulti then
    ∃ via, cfg.SamePes via a.team ∧ am = .all (cfg.teams a.team) (cfg.teams via)
  else if a.handle.isLocal then am = .localAm
  else ∃ dst, am = .remote dst

/-- `process_msg` sends out one message or starts one execution for every execution. -/
theorem processMsg_perm (h : a.Fits cfg am) (id : ReqId) :
    ((processMsg cfg id am : List (Item V)).map (Item.exec cfg)).Perm (am.execs cfg id) := by
  rw [RequestInfo.Fits] at h
  split at h
  · obtain ⟨via, hsame, rfl⟩ := h
    exact processMsg_all (cfg.wellFormed a.team) (cfg.wellFormed via) hsame id
  · split at h
    · subst h
      exact List.Perm.refl _
    · obtain ⟨dst, rfl⟩ := h
      rw [processMsg, Am.execs]
      split
      · rename_i hdst
        rw [hdst]
        exact List.Perm.refl _
      · exact List.Perm.refl _

theorem Am.execs_fst (he : e ∈ am.execs cfg id) : e.1 = id := by
  cases am with
  | all arch via =>
    obtain ⟨pe, -, rfl⟩ := List.mem_map.mp he
    rfl
  | remote dst =>
    rw [List.mem_singleton.mp he]
  | localAm =>
    rw [List.mem_singleton.mp he]

namespace RequestInfo.Fits

theorem of_isMulti (h : a.Fits cfg am) (ha : a.handle.isMulti) :
    ∃ via, am = .all (cfg.teams a.team) via := by
  rw [RequestInfo.Fits, if_pos ha] at h
  obtain ⟨via, -, rfl⟩ := h
  exact ⟨_, rfl⟩

theorem of_not_isMulti (h : a.Fits cfg am) (ha : a.handle.isMulti = false) (id : ReqId) :
    ∃ pe, am.execs cfg id = [(id, pe)] := by
  rw [RequestInfo.Fits, if_neg (ha ▸ Bool.false_ne_true)] at h
  split at h
  · subst h
    exact ⟨cfg.me, rfl⟩
  · obtain ⟨dst, rfl⟩ := h
    exact ⟨dst, rfl⟩

theorem of_isLocal (h : a.Fits cfg am) (ha : a.handle.isLocal) : am = .localAm := by
  have hmulti : a.handle.isMulti = false := by
    cases hhandle : a.handle <;> rw [hhandle] at ha <;> first | rfl | cases ha
  rwa [RequestInfo.Fits, if_neg (hmulti ▸ Bool.false_ne_true), if_pos ha] at h

theorem execs_nodup (h : a.Fits cfg am) (id : ReqId) : (am.execs cfg id).Nodup := by
  cases hmulti : a.handle.isMulti with
  | true =>
    obtain ⟨via, rfl⟩ := h.of_isMulti hmulti
    exact (LamellarArchRT.WellFormed.teamIter_nodup (cfg.wellFormed a.team)).map
      fun pe pe' heq => congrArg Prod.snd heq
  | false =>
    obtain ⟨pe, hexecs⟩ := h.of_not_isMulti hmulti id
    rw [hexecs]
    exact List.nodup_singleton _

theorem execs_length (h : a.Fits cfg am) (id : ReqId) :
    (am.execs cfg id).length = if a.handle.isMulti then (cfg.teams a.team).numPes else 1 := by
  cases hmulti : a.handle.isMulti with
  | true =>
    obtain ⟨via, rfl⟩ := h.of_isMulti hmulti
    rw [if_pos rfl, Am.execs, List.length_map]
    exact LamellarArchRT.WellFormed.teamIter_length (cfg.wellFormed a.team)
  | false =>
    obtain ⟨pe, hexecs⟩ := h.of_not_isMulti hmulti id
    rw [hexecs, if_neg Bool.false_ne_true]
    rfl

end RequestInfo.Fits

/-! ## The parts of a state -/

theorem State.infos_eq_some (hi : s.requests[i]? = some r) :
    s.infos[i]? = some r.toRequestInfo := by
  rw [State.infos, List.getElem?_map, hi]
  rfl

theorem State.of_infos_eq_some (hi : s.infos[i]? = some a) :
    ∃ r, s.requests[i]? = some r ∧ r.toRequestInfo = a := by
  rw [State.infos, List.getElem?_map] at hi
  exact Option.map_eq_some_iff.mp hi

theorem State.addSendReq_team (num : ℤ) (t' : ℕ) :
    (s.addSendReq t tg num).team t' = s.team t' + if t = t' then num else 0 := by
  by_cases ht : t = t'
  · subst ht
    rw [State.addSendReq, if_pos rfl]
    exact Function.update_self t _ s.team
  · rw [State.addSendReq, if_neg ht, add_zero]
    exact Function.update_of_ne (Ne.symm ht) _ s.team

theorem State.addSendReq_counters (num : ℤ) (c : ℕ) :
    (s.addSendReq t tg num).counters c = s.counters c + if tg = some c then num else 0 := by
  cases tg with
  | none => exact (add_zero _).symm
  | some c' =>
    by_cases hc : c' = c
    · subst hc
      rw [State.addSendReq, if_pos rfl]
      exact Function.update_self c' _ s.counters
    · rw [State.addSendReq, if_neg fun heq => hc (Option.some.inj heq), add_zero]
      exact Function.update_of_ne (Ne.symm hc) _ s.counters

theorem Inv.mem_of_pending (h : Inv cfg s L P) (he : e ∈ P) : e ∈ L :=
  h.perm.mem_iff.mpr (List.mem_append_right _ he)

theorem Inv.mem_of_delivered (h : Inv cfg s L P) (hd : (e, data) ∈ s.delivered) : e ∈ L :=
  h.perm.mem_iff.mpr (List.mem_append_left _ (List.mem_map_of_mem (f := Prod.fst) hd))

theorem Inv.id_lt (h : Inv cfg s L P) (he : e ∈ L) : e.1.id < s.requests.length := by
  obtain ⟨a, ha, -⟩ := h.launches.target e he
  have hlt := (List.getElem?_eq_some_iff.mp ha).1
  rwa [State.infos, List.length_map] at hlt

theorem Inv.congr (h : Inv cfg s L P) {P' : List Exec} (hP : P.Perm P') : Inv cfg s L P' where
  perm := h.perm.trans (hP.append_left _)
  launches := h.launches
  wired := h.wired
  counted.world_eq := by rw [h.counted.world_eq, hP.length_eq]
  counted.team_eq t := by rw [h.counted.team_eq, hP.countP_eq]
  counted.counters_eq c := by rw [h.counted.counters_eq, hP.countP_eq]
  held i r hi :=
    { strong_eq := by rw [(h.held i r hi).strong_eq, hP.countP_eq]
      cnt_eq := fun hhandle huser => by rw [(h.held i r hi).cnt_eq hhandle huser, hP.countP_eq]
      placed := (h.held i r hi).placed }

theorem State.teamOf_eq (hinfos : s'.infos = s.infos) : s'.teamOf = s.teamOf :=
  funext fun e => by rw [State.teamOf, hinfos]; rfl

theorem State.tgOf_eq (hinfos : s'.infos = s.infos) : s'.tgOf = s.tgOf :=
  funext fun e => by rw [State.tgOf, hinfos]; rfl

theorem Counted.frame (h : Counted s P)
    (hinfos : ∀ e ∈ P, s'.infos[e.1.id]? = s.infos[e.1.id]?) (hworld : s'.world = s.world)
    (hteam : s'.team = s.team) (hcounters : s'.counters = s.counters) : Counted s' P where
  world_eq := hworld.trans h.world_eq
  team_eq t := by
    rw [hteam, h.team_eq]
    exact congrArg Nat.cast (List.countP_congr fun e he => by
      rw [State.teamOf, State.teamOf, hinfos e he])
  counters_eq c := by
    rw [hcounters, h.counters_eq]
    exact congrArg Nat.cast (List.countP_congr fun e he => by
      rw [State.tgOf, State.tgOf, hinfos e he])

/-- What is counted as launched is submitted. -/
theorem Inv.submit
    (h : Inv cfg s (s.launched ++ am.execs cfg id) (s.pending cfg ++ am.execs cfg id))
    (ha : s.infos[id.id]? = some a) (hfits : a.Fits cfg am) :
    (s.submit cfg id am).Consistent cfg := by
  have hperm := processMsg_perm (V := V) hfits id
  have hpending : ((s.submit cfg id am).pending cfg).Perm (s.pending cfg ++ am.execs cfg id) := by
    rw [State.pending, State.submit, List.map_append]
    exact hperm.append_left _
  have hwired : Wired cfg (s.submit cfg id am).infos (s.submit cfg id am).groups
      (s.submit cfg id am).inFlight := by
    refine { h.wired with localItem := fun item hitem b hb hblocal => ?_ }
    rcases List.mem_append.mp hitem with hold | hnew
    · exact h.wired.localItem item hold b hb hblocal
    · have hid : (item.exec cfg).1 = id :=
        Am.execs_fst (hperm.mem_iff.mp (List.mem_map_of_mem hnew))
      have hab : some a = some b := by rw [← ha, ← hb, hid]; rfl
      obtain rfl := Option.some.inj hab
      obtain rfl := hfits.of_isLocal hblocal
      exact ⟨id, List.mem_singleton.mp hnew⟩
  have hinv : Inv cfg (s.submit cfg id am) (s.submit cfg id am).launched
      (s.pending cfg ++ am.execs cfg id) :=
    ⟨h.perm, h.launches, hwired, h.counted.frame (fun _ _ => rfl) rfl rfl rfl,
      fun i r hi => ⟨(h.held i r hi).strong_eq, (h.held i r hi).cnt_eq, (h.held i r hi).placed⟩⟩
  exact hinv.congr hpending.symm

end Lamellar.Requests
