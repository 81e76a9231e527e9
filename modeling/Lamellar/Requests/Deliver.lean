import Lamellar.Requests.Launch

/-!
# Results

A result that arrives is taken from what is on its way. `add_result` does not panic: a PE that sends
a result for a request of a team is in the team, and the result of a local execution is not remote.
-/

namespace Lamellar.Requests

open Team (LamellarArchRT)

variable {V : Type} {cfg : Env} {s s' : State V} {L P : List Exec} {e : Exec} {i g k : ℕ}
  {r r' : RequestResult V} {G : LamellarTaskGroup} {a : RequestInfo} {data : InternalResult V}
  {groups : List LamellarTaskGroup} {ret : Option V} {item : Item V}

theorem RequestInfo.Slot.unique {pe t t' : ℕ} (h : a.Slot cfg pe t) (h' : a.Slot cfg pe t') :
    t = t' := by
  rw [RequestInfo.Slot] at h h'
  split at h
  · rename_i hmulti
    rw [if_pos hmulti, h] at h'
    exact Except.ok.inj h'
  · rename_i hmulti
    rw [if_neg hmulti] at h'
    exact h.trans h'.symm

/-- Two PEs of a team have two numbers in it. -/
theorem RequestInfo.Slot.pe_unique {pe pe' t : ℕ} (h : a.Slot cfg pe t) (h' : a.Slot cfg pe' t)
    (ha : a.handle.isMulti) : pe = pe' := by
  rw [RequestInfo.Slot, if_pos ha] at h h'
  have hworld := ((cfg.wellFormed a.team).teamPe_ok h).2
  rw [((cfg.wellFormed a.team).teamPe_ok h').2] at hworld
  exact (Except.ok.inj hworld).symm

/-! ## `add_result` -/

theorem RequestResult.setData_self {subId t : ℕ} :
    (r.setData subId t data).data subId t = some data := by
  simp only [RequestResult.setData, Function.update_self]

theorem RequestResult.setData_of_ne {subId t subId' t' : ℕ} (h : ¬ (subId' = subId ∧ t' = t)) :
    (r.setData subId t data).data subId' t' = r.data subId' t' := by
  simp only [RequestResult.setData]
  by_cases hsub : subId' = subId
  · subst hsub
    rw [Function.update_self, Function.update_of_ne fun ht => h ⟨rfl, ht⟩]
  · rw [Function.update_of_ne hsub]

/-- What `add_result` does with the request of an execution -/
structure Added (cfg : Env) (e : Exec) (data : InternalResult V) (r r' : RequestResult V) :
    Prop where
  info_eq : r'.toRequestInfo = r.toRequestInfo
  userHandle_eq : r'.userHandle = r.userHandle
  strong_eq : r'.strong = r.strong
  cnt_eq : r.handle = .lamellarMultiRequest → r'.cnt = r.cnt - 1
  data_eq : ∃ t, r.toRequestInfo.Slot cfg e.2 t ∧ r'.data = (r.setData e.1.subId t data).data

theorem Added.setData {subId t : ℕ} (hsub : e.1.subId = subId)
    (ht : r.toRequestInfo.Slot cfg e.2 t) (hhandle : r.handle ≠ .lamellarMultiRequest) :
    Added cfg e data r (r.setData subId t data) :=
  ⟨rfl, rfl, rfl, fun h => absurd h hhandle, t, ht, by rw [hsub]⟩

theorem Target.addResult (h : Target cfg groups r.toRequestInfo e)
    (hlocal : r.handle.isLocal → ∀ v, data ≠ .remoteData v) :
    ∃ r', r.addResult cfg e.2 e.1.subId data = some r' ∧ Added cfg e data r r' := by
  have hteam : r.handle.isMulti → ∃ t, (cfg.teams r.team).teamPe e.2 = .ok t := fun hmulti =>
    (cfg.wellFormed r.team).mem_teamIter.mp (h.mem hmulti)
  have hsub : r.handle.isGroup = false → e.1.subId = 0 := h.subId_eq
  have hslot : r.handle.isMulti = false → r.toRequestInfo.Slot cfg e.2 0 := fun hmulti =>
    (if_neg (hmulti ▸ Bool.false_ne_true)).mpr rfl
  have hslotMulti {t : ℕ} : r.handle.isMulti → (cfg.teams r.team).teamPe e.2 = .ok t →
      r.toRequestInfo.Slot cfg e.2 t := fun hmulti ht => (if_pos hmulti).mpr ht
  unfold RequestResult.addResult
  cases hhandle : r.handle <;> rw [hhandle] at hteam hsub hslot hslotMulti hlocal
  case lamellarRequest =>
    exact ⟨_, rfl, Added.setData (hsub rfl) (hslot rfl) (hhandle ▸ Handle.noConfusion)⟩
  case lamellarMultiRequest =>
    obtain ⟨t, ht⟩ := hteam rfl
    refine ⟨{ r.setData 0 t data with cnt := r.cnt - 1 }, by rw [ht], rfl, rfl, rfl,
      fun _ => rfl, t, hslotMulti rfl ht, ?_⟩
    rw [hsub rfl]
  case lamellarLocalRequest =>
    refine ⟨r.setData 0 0 data, ?_,
      Added.setData (hsub rfl) (hslot rfl) (hhandle ▸ Handle.noConfusion)⟩
    cases data with
    | localData v => rfl
    | unit => rfl
    | remoteData v => exact absurd rfl (hlocal rfl v)
  case taskGroupRequest =>
    exact ⟨_, rfl, Added.setData rfl (hslot rfl) (hhandle ▸ Handle.noConfusion)⟩
  case taskGroupMultiRequest =>
    obtain ⟨t, ht⟩ := hteam rfl
    exact ⟨r.setData e.1.subId t data, by rw [ht],
      Added.setData rfl (hslotMulti rfl ht) (hhandle ▸ Handle.noConfusion)⟩
  case taskGroupLocalRequest =>
    refine ⟨r.setData e.1.subId 0 data, ?_,
      Added.setData rfl (hslot rfl) (hhandle ▸ Handle.noConfusion)⟩
    cases data with
    | localData v => rfl
    | unit => rfl
    | remoteData v => exact absurd rfl (hlocal rfl v)

/-! ## `send_data_to_user_handle` -/

/-- The result of an execution goes to its place, which no other execution has. -/
theorem Inv.placed_add (h : Inv cfg s L (e :: P)) (hr : s.requests[e.1.id]? = some r)
    (hplaced : s.Placed cfg e.1.id r) (hadded : Added cfg e data r r')
    (hdelivered : s'.delivered = s.delivered ++ [(e, data)]) : s'.Placed cfg e.1.id r' := by
  obtain ⟨t₀, ht₀, hdata⟩ := hadded.data_eq
  have hinfo := State.infos_eq_some hr
  -- Another execution of the same launch at the same place is the execution itself.
  have hsame (pe : ℕ) (data' : InternalResult V) (hslot : r.toRequestInfo.Slot cfg pe t₀)
      (hd : ((e.1, pe), data') ∈ s.delivered) : pe = e.2 := by
    cases hmulti : r.handle.isMulti with
    | true => exact hslot.pe_unique ht₀ hmulti
    | false =>
      have heq := h.launches.single e (h.mem_of_pending List.mem_cons_self) _ hinfo hmulti
        (e.1, pe) (h.mem_of_delivered hd) rfl
      exact congrArg Prod.snd heq
  have hnew (data' : InternalResult V) : (e, data') ∉ s.delivered := by
    intro hd
    have hnodup := h.perm.nodup h.launches.nodup
    exact (List.nodup_append.mp hnodup).2.2 e (List.mem_map_of_mem (f := Prod.fst) hd) e
      List.mem_cons_self rfl
  intro subId t data'
  rw [hadded.info_eq, hdelivered, hdata]
  by_cases hplace : subId = e.1.subId ∧ t = t₀
  · obtain ⟨rfl, rfl⟩ := hplace
    rw [RequestResult.setData_self]
    constructor
    · intro hd
      obtain rfl := Option.some.inj hd
      exact ⟨e.2, ht₀, List.mem_append_right _ (List.mem_singleton.mpr rfl)⟩
    · rintro ⟨pe, hslot, hd⟩
      rcases List.mem_append.mp hd with hold | hd
      · obtain rfl := hsame pe data' hslot hold
        exact absurd hold (hnew data')
      · exact congrArg some (congrArg Prod.snd (List.mem_singleton.mp hd)).symm
  · rw [RequestResult.setData_of_ne hplace, hplaced]
    refine exists_congr fun pe => and_congr_right fun hslot =>
      ⟨List.mem_append_left _, fun hd => ?_⟩
    refine (List.mem_append.mp hd).resolve_right fun hd => hplace ?_
    have heq : ((⟨e.1.id, subId⟩, pe) : Exec) = e := congrArg Prod.fst (List.mem_singleton.mp hd)
    have hpe : pe = e.2 := congrArg Prod.snd heq
    exact ⟨congrArg (fun e : Exec => e.1.subId) heq, (hpe ▸ hslot).unique ht₀⟩

theorem State.infos_set (hr : s.requests[i]? = some r)
    (hinfo : r'.toRequestInfo = r.toRequestInfo) :
    (s.requests.set i r').map (·.toRequestInfo) = s.infos := by
  refine List.ext_getElem? fun j => ?_
  rw [State.infos, List.getElem?_map, List.getElem?_map]
  by_cases hj : j = i
  · subst hj
    rw [List.getElem?_set_self (List.getElem?_eq_some_iff.mp hr).1, hr, Option.map_some, hinfo]
    rfl
  · rw [List.getElem?_set_ne (Ne.symm hj)]

/-- The counters of the team and the task group go down by one. -/
theorem Counted.uncount (h : Counted s (e :: P)) (hr : s.infos[e.1.id]? = some a)
    (hinfos : s'.infos = s.infos) (hworld : s'.world = (s.addSendReq a.team a.tg (-1)).world)
    (hteam : s'.team = (s.addSendReq a.team a.tg (-1)).team)
    (hcounters : s'.counters = (s.addSendReq a.team a.tg (-1)).counters) : Counted s' P where
  world_eq := by
    have hprior := h.world_eq
    rw [List.length_cons] at hprior
    show s'.world = _
    rw [hworld]
    show s.world + -1 = _
    omega
  team_eq t := by
    have hself : s.teamOf e = some a.team := by rw [State.teamOf, hr]; rfl
    rw [hteam, State.addSendReq_team, h.team_eq, State.teamOf_eq hinfos, List.countP_cons, hself]
    by_cases ht : a.team = t
    · simp only [ht, decide_true, if_true]
      omega
    · simp [ht]
  counters_eq c := by
    have hself : s.tgOf e = a.tg := by rw [State.tgOf, hr]; rfl
    rw [hcounters, State.addSendReq_counters, h.counters_eq, State.tgOf_eq hinfos,
      List.countP_cons, hself]
    by_cases hc : a.tg = some c
    · simp only [hc, decide_true, if_true]
      omega
    · simp [hc]

/-- `send_data_to_user_handle` ends, and the execution is no longer on its way. -/
theorem Inv.sendDataToUserHandle (h : Inv cfg s L (e :: P))
    (hlocal : ∀ a, s.infos[e.1.id]? = some a → a.handle.isLocal → ∀ v, data ≠ .remoteData v) :
    ∃ s', s.sendDataToUserHandle cfg e data = some s' ∧ Inv cfg s' L P ∧
      s'.inFlight = s.inFlight ∧ s'.launched = s.launched := by
  obtain ⟨a, ha, htarget⟩ := h.launches.target e (h.mem_of_pending List.mem_cons_self)
  obtain ⟨r, hr, rfl⟩ := State.of_infos_eq_some ha
  have hprior := h.held e.1.id r hr
  obtain ⟨r', hr', hinfo, huser, hstrong, hadded⟩ : ∃ r',
      s.addHeld cfg r e data = some r' ∧ r'.toRequestInfo = r.toRequestInfo ∧
        r'.userHandle = r.userHandle ∧ r'.strong = r.strong ∧
          (s.userHeld r → Added cfg e data r r') := by
    by_cases hheld : s.userHeld r
    · obtain ⟨r', hr', hadded⟩ := htarget.addResult (hlocal _ ha)
      exact ⟨r', (if_pos hheld).trans hr', hadded.info_eq, hadded.userHandle_eq, hadded.strong_eq,
        fun _ => hadded⟩
    · exact ⟨r, if_neg hheld, rfl, rfl, rfl, fun hr => absurd hr hheld⟩
  let s' : State V :=
    { s.addSendReq r.team r.tg (-1) with
      requests := s.requests.set e.1.id { r' with strong := r'.strong - 1 }
      delivered := s.delivered ++ [(e, data)] }
  have hs' : s.sendDataToUserHandle cfg e data = some s' := by
    rw [State.sendDataToUserHandle, hr, Option.bind_eq_bind, Option.bind_some, hr']
    rfl
  have hinfos : s'.infos = s.infos := State.infos_set hr hinfo
  have hcons : (e :: P).countP (fun e' => e'.1.id = e.1.id) =
      (P.countP fun e' => e'.1.id = e.1.id) + 1 := List.countP_cons_of_pos (decide_eq_true rfl)
  have hheld : ∀ i q, s'.requests[i]? = some q → Held cfg s' P i q := by
    intro i q hq
    obtain ⟨rfl, rfl⟩ | ⟨hi, hold⟩ := Roster.set_cases hr hq
    · have hheldOf : s'.userHeld { r' with strong := r'.strong - 1 } = s.userHeld r := by
        rw [State.userHeld, State.userHeld]
        simp only [hinfo, huser]
        rfl
      have howners : s'.owners r'.toRequestInfo = s.owners r.toRequestInfo := by rw [hinfo]; rfl
      refine ⟨?_, fun hhandle huser' => ?_, fun hheld => ?_⟩
      · show r'.strong - 1 =
          (P.countP (fun e' => e'.1.id = e.1.id) + s'.owners r'.toRequestInfo : ℕ)
        rw [hstrong, hprior.strong_eq, howners, hcons]
        omega
      · have hhandle' : r.handle = .lamellarMultiRequest := hinfo ▸ hhandle
        have huser'' : r.userHandle := huser ▸ huser'
        have hheld : s.userHeld r := by rw [State.userHeld, hhandle']; exact huser''
        have hcnt := hprior.cnt_eq hhandle' huser''
        rw [hcons] at hcnt
        show r'.cnt = _
        rw [(hadded hheld).cnt_eq hhandle', hcnt]
        omega
      · rw [hheldOf] at hheld
        have hplaced : s'.Placed cfg e.1.id r' :=
          h.placed_add hr (hprior.placed hheld) (hadded hheld) rfl
        exact hplaced
    · refine (h.held i q hold).frame ?_ rfl (fun hheld => hheld) fun d hd => ?_
      · rw [List.countP_cons_of_neg fun heq => hi (of_decide_eq_true heq).symm]
      · refine List.mem_append.trans (or_iff_left fun hnew => hi ?_)
        rw [← hd, List.mem_singleton.mp hnew]
  refine ⟨s', hs', ⟨?_, ?_, ?_, ?_, hheld⟩, rfl, rfl⟩
  · refine h.perm.trans ?_
    show List.Perm _ ((s.delivered ++ [(e, data)]).map Prod.fst ++ P)
    rw [List.map_append, List.append_assoc]
    exact List.Perm.refl _
  · exact hinfos ▸ h.launches
  · exact hinfos ▸ h.wired
  · exact h.counted.uncount ha hinfos rfl rfl rfl

/-! ## Steps that are not launches -/

/-- A message that is taken from what is on its way -/
theorem State.Consistent.take (h : s.Consistent cfg) (hk : s.inFlight[k]? = some item) :
    Inv cfg { s with inFlight := s.inFlight.eraseIdx k } s.launched
      (item.exec cfg :: (s.inFlight.eraseIdx k).map (Item.exec cfg)) := by
  obtain ⟨hlt, rfl⟩ := List.getElem?_eq_some_iff.mp hk
  have hperm := (List.getElem_cons_eraseIdx_perm hlt).map (Item.exec cfg)
  have hinv : Inv cfg { s with inFlight := s.inFlight.eraseIdx k } s.launched (s.pending cfg) :=
    { h with
      wired := { h.wired with
        localItem := fun item hitem => h.wired.localItem item (List.mem_of_mem_eraseIdx hitem) }
      counted := h.counted.frame (fun _ _ => rfl) rfl rfl rfl
      held := fun i r hi =>
        ⟨(h.held i r hi).strong_eq, (h.held i r hi).cnt_eq, (h.held i r hi).placed⟩ }
  exact hinv.congr hperm.symm

/-- Every result can be delivered. -/
theorem State.Consistent.deliver (h : s.Consistent cfg) (hk : s.inFlight[k]? = some item)
    (hdata : item.result ret = some data) :
    ∃ s', s.step cfg (.deliver k ret) = some s' ∧ s'.Consistent cfg := by
  have hlocal : ∀ a, s.infos[(item.exec cfg).1.id]? = some a → a.handle.isLocal →
      ∀ v, data ≠ .remoteData v := by
    intro a ha halocal v hv
    obtain ⟨id, rfl⟩ := h.wired.localItem item (List.mem_of_getElem? hk) a ha halocal
    rw [hv] at hdata
    cases ret <;> cases hdata
  obtain ⟨s', hs', hinv, hinFlight, hlaunched⟩ := (h.take hk).sendDataToUserHandle hlocal
  refine ⟨s', ?_, ?_⟩
  · rw [State.step, hk, Option.bind_eq_bind, Option.bind_some, hdata, Option.bind_eq_bind,
      Option.bind_some]
    exact hs'
  · rw [State.Consistent, State.pending, hinFlight, hlaunched]
    exact hinv

/-- A message becomes the result of its execution. -/
theorem State.Consistent.exec {id : ReqId} {dst : ℕ} (h : s.Consistent cfg)
    (hk : s.inFlight[k]? = some (.am id dst)) (ret : LamellarReturn V) :
    State.Consistent cfg { s with inFlight := s.inFlight.set k (ret.item id dst) } := by
  have hexec : (ret.item id dst).exec cfg = (Item.am id dst : Item V).exec cfg := by
    cases ret <;> rfl
  have hpending : (s.inFlight.set k (ret.item id dst)).map (Item.exec cfg) = s.pending cfg := by
    refine List.ext_getElem? fun j => ?_
    rw [State.pending, List.getElem?_map, List.getElem?_map]
    by_cases hj : j = k
    · subst hj
      rw [List.getElem?_set_self (List.getElem?_eq_some_iff.mp hk).1, hk, Option.map_some, hexec]
      rfl
    · rw [List.getElem?_set_ne (Ne.symm hj)]
  have hlocal : ∀ item ∈ s.inFlight.set k (ret.item id dst), ∀ a,
      s.infos[(item.exec cfg).1.id]? = some a → a.handle.isLocal → ∃ id, item = .localAm id := by
    intro item hitem a ha halocal
    rcases List.mem_or_eq_of_mem_set hitem with hold | rfl
    · exact h.wired.localItem item hold a ha halocal
    · rw [hexec] at ha
      obtain ⟨id', hid⟩ := h.wired.localItem _ (List.mem_of_getElem? hk) a ha halocal
      cases hid
  rw [State.Consistent, State.pending, hpending]
  exact
    { h with
      wired := { h.wired with localItem := hlocal }
      counted := h.counted.frame (fun _ _ => rfl) rfl rfl rfl
      held := fun i r hi =>
        ⟨(h.held i r hi).strong_eq, (h.held i r hi).cnt_eq, (h.held i r hi).placed⟩ }

end Lamellar.Requests
