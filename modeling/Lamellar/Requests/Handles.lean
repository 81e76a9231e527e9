import Lamellar.Requests.Deliver

/-!
# Handles and task groups

A handle that is dropped leaves its request to the raw pointers that are out. A task group that is
dropped takes the `Arc` of each of its three requests with it.
-/

namespace Lamellar.Requests

variable {V : Type} {cfg : Env} {s s' : State V} {L P : List Exec} {e : Exec} {i j g t : ℕ}
  {r r' : RequestResult V} {G G' : LamellarTaskGroup} {a : RequestInfo} {handle : Handle}

/-! ## Drops -/

theorem State.Consistent.dropHandle (h : s.Consistent cfg) (hr : s.requests[i]? = some r)
    (hgroup : r.handle.isGroup = false) :
    State.Consistent cfg
      { s with requests := s.requests.set i { r with userHandle := false } } := by
  let s₁ : State V := { s with requests := s.requests.set i { r with userHandle := false } }
  have hinfos : s₁.infos = s.infos := State.infos_set hr rfl
  have hheld : ∀ j q, s₁.requests[j]? = some q → Held cfg s₁ (s.pending cfg) j q := by
    intro j q hq
    obtain ⟨rfl, rfl⟩ | ⟨-, hold⟩ := Roster.set_cases hr hq
    · refine ⟨(h.held j r hr).strong_eq, fun _ huser => absurd huser Bool.false_ne_true,
        fun huser => ?_⟩
      have hnot : s₁.userHeld { r with userHandle := false } = false :=
        if_neg (hgroup ▸ Bool.false_ne_true)
      exact absurd (hnot.symm.trans huser) Bool.false_ne_true
    · exact (h.held j q hold).frame rfl rfl (fun huser => huser) fun d _ => Iff.rfl
  have hinv : Inv cfg s₁ s.launched (s.pending cfg) :=
    { perm := h.perm
      launches := hinfos ▸ h.launches
      wired := hinfos ▸ h.wired
      counted := h.counted.frame (fun _ _ => by rw [hinfos]) rfl rfl rfl
      held := hheld }
  exact hinv

/-- A step of a task group without an execution, which may drop `Arc`s of its requests -/
theorem State.Consistent.regroup (h : s.Consistent cfg) (rs : List (RequestResult V))
    (G' : LamellarTaskGroup) (hG : s.groups[g]? = some G) (hG' : Regroups G G')
    (hcnt : G'.dropped = false → 0 < G'.cnt)
    (hs' : s' = { s with requests := rs, groups := s.groups.set g G' })
    (hrequests : ∀ j : ℕ, ∃ num : ℤ,
      rs[j]? = s.requests[j]?.map (fun r => { r with strong := r.strong + num }) ∧
        ∀ a, s.infos[j]? = some a → (s'.owners a : ℤ) = s.owners a + num) :
    s'.Consistent cfg := by
  have hinfos : s'.infos = s.infos := by
    refine List.ext_getElem? fun j => ?_
    obtain ⟨num, hnum, -⟩ := hrequests j
    rw [hs', State.infos, State.infos, List.getElem?_map, List.getElem?_map, hnum, Option.map_map]
    rfl
  have hheld : ∀ j q, s'.requests[j]? = some q → Held cfg s' (s.pending cfg) j q := by
    intro j q hq
    obtain ⟨num, hnum, howners⟩ := hrequests j
    rw [hs', hnum] at hq
    obtain ⟨r, hr, rfl⟩ := Option.map_eq_some_iff.mp hq
    have hprior := h.held j r hr
    refine ⟨?_, hprior.cnt_eq, fun huser => ?_⟩
    · have hown := howners _ (State.infos_eq_some hr)
      have hstrong := hprior.strong_eq
      show r.strong + num = ((s.pending cfg).countP (fun e => e.1.id = j) +
        s'.owners r.toRequestInfo : ℕ)
      omega
    · have huser' : s.userHeld r :=
        State.userHeld_of_regroup s' hG hG'.cnt_pos (by rw [hs']) huser
      have hplaced := hprior.placed huser'
      rw [hs']
      exact hplaced
  have hgroups : s'.groups = s.groups.set g G' := by rw [hs']
  have hcounted : Counted s' (s.pending cfg) :=
    h.counted.frame (fun _ _ => by rw [hinfos]) (by rw [hs']) (by rw [hs']) (by rw [hs'])
  have hinv : Inv cfg s' s.launched (s.pending cfg) :=
    { perm := by rw [hs']; exact h.perm
      launches := by rw [hinfos, hgroups]; exact h.launches.regroup hG hG'
      wired := by rw [hinfos, hgroups, hs']; exact h.wired.regroup hG hG' hcnt
      counted := hcounted
      held := hheld }
  have hlaunched : s'.launched = s.launched := by rw [hs']
  have hpending : s'.pending cfg = s.pending cfg := by rw [hs']; rfl
  rw [State.Consistent, hlaunched, hpending]
  exact hinv

theorem State.Consistent.dropGroupHandle (h : s.Consistent cfg) (hG : s.groups[g]? = some G)
    (hcnt : (if G.dropped then 0 else 1) < G.cnt) :
    State.Consistent cfg { s with groups := s.groups.set g { G with cnt := G.cnt - 1 } } := by
  have hpos : 0 < G.cnt := by
    split at hcnt <;> omega
  refine h.regroup s.requests { G with cnt := G.cnt - 1 } hG
    ⟨rfl, rfl, rfl, Nat.le_refl _, fun _ => hpos⟩ (fun hdropped => ?_) rfl
      fun j => ⟨0, ?_, fun a _ => ?_⟩
  · rw [if_neg (ne_true_of_eq_false hdropped)] at hcnt
    exact Int.sub_pos_of_lt hcnt
  · simp
  · rw [Int.add_zero, State.owners_regroup { G with cnt := G.cnt - 1 } hG rfl rfl]

/-! ## `Drop` of a task group -/

theorem getElem?_incrementStrongCount (num : ℤ) :
    (s.incrementStrongCount i num).requests[j]? = s.requests[j]?.map fun r =>
      { r with strong := r.strong + if i = j then num else 0 } := by
  rw [State.incrementStrongCount, State.modifyRequest, List.getElem?_modify]
  by_cases hj : i = j <;> simp [hj]

/-- A request is one of the three of a task group if it belongs to it. -/
theorem Wired.request_eq_iff {infos : List RequestInfo} {groups : List LamellarTaskGroup}
    {items : List (Item V)} (h : Wired cfg infos groups items) (handle : Handle)
    (hG : groups[g]? = some G) (ha : infos[j]? = some a) (hhandle : handle.isGroup) :
    G.request handle = j ↔ a.handle = handle ∧ a.group = g := by
  constructor
  · rintro rfl
    obtain rfl := Option.some.inj (ha.symm.trans (h.requests g G hG handle hhandle))
    exact ⟨rfl, rfl⟩
  · rintro ⟨rfl, rfl⟩
    obtain ⟨H, hH, rfl⟩ := h.group j a ha hhandle
    rw [Option.some.inj (hG.symm.trans hH)]

theorem State.Consistent.dropGroup (h : s.Consistent cfg) (hG : s.groups[g]? = some G)
    (hdropped : G.dropped = false) :
    State.Consistent cfg
      { ((s.incrementStrongCount G.id (-1)).incrementStrongCount G.multiId
          (-1)).incrementStrongCount G.localId (-1) with
        groups := s.groups.set g { G with cnt := G.cnt - 1, dropped := true } } := by
  have hpos : 0 < G.cnt := h.wired.cnt_pos g G hG hdropped
  refine h.regroup _ { G with cnt := G.cnt - 1, dropped := true } hG
    ⟨rfl, rfl, rfl, Nat.le_refl _, fun _ => hpos⟩ (fun hnot => by cases hnot) rfl fun j => ?_
  refine ⟨(if G.id = j then -1 else 0) + (if G.multiId = j then -1 else 0) +
    if G.localId = j then -1 else 0, ?_, fun a ha => ?_⟩
  · rw [getElem?_incrementStrongCount, getElem?_incrementStrongCount,
      getElem?_incrementStrongCount, Option.map_map, Option.map_map]
    simp only [Function.comp_def, Int.add_assoc]
  · have hid : G.id = j ↔ a.handle = .taskGroupRequest ∧ a.group = g :=
      h.wired.request_eq_iff .taskGroupRequest hG ha rfl
    have hmulti : G.multiId = j ↔ a.handle = .taskGroupMultiRequest ∧ a.group = g :=
      h.wired.request_eq_iff .taskGroupMultiRequest hG ha rfl
    have hlocal : G.localId = j ↔ a.handle = .taskGroupLocalRequest ∧ a.group = g :=
      h.wired.request_eq_iff .taskGroupLocalRequest hG ha rfl
    simp only [hid, hmulti, hlocal]
    by_cases hg : a.group = g
    · have hset : (s.groups.set g { G with cnt := G.cnt - 1, dropped := true })[a.group]? =
          some { G with cnt := G.cnt - 1, dropped := true } := by
        rw [hg]
        exact List.getElem?_set_self (List.getElem?_eq_some_iff.mp hG).1
      rw [State.owners, State.owners, hset, hg, hG]
      cases a.handle <;> simp [hdropped, Handle.isGroup]
    · rw [State.owners, State.owners, List.getElem?_set_ne (Ne.symm hg)]
      simp [hg]

/-! ## `LamellarTaskGroup::new` -/

/-- The task group and the request for its handles of a kind that `newGroup` makes -/
def State.created (s : State V) (t c : ℕ) : LamellarTaskGroup :=
  ⟨t, c, 1, 0, s.requests.length, s.requests.length + 1, s.requests.length + 2, false⟩

def State.createdRequest (s : State V) (t c : ℕ) (handle : Handle) : RequestResult V :=
  .new handle t (some c) s.groups.length 0 1

theorem State.newGroup_groups (c : ℕ) : (s.newGroup t c).groups = s.groups ++ [s.created t c] :=
  rfl

theorem State.newGroup_requests_old {c : ℕ} (hj : j < s.requests.length) :
    (s.newGroup t c).requests[j]? = s.requests[j]? :=
  List.getElem?_append_left hj

theorem State.newGroup_requests_created {c : ℕ} (hhandle : handle.isGroup) :
    (s.newGroup t c).requests[(s.created t c).request handle]? =
      some (s.createdRequest t c handle) := by
  rw [State.newGroup]
  cases handle with
  | lamellarRequest | lamellarMultiRequest | lamellarLocalRequest => cases hhandle
  | taskGroupRequest =>
    exact (List.getElem?_append_right (Nat.le_refl _)).trans (by rw [Nat.sub_self]; rfl)
  | taskGroupMultiRequest =>
    exact (List.getElem?_append_right (Nat.le_add_right _ 1)).trans
      (by rw [Nat.add_sub_cancel_left]; rfl)
  | taskGroupLocalRequest =>
    exact (List.getElem?_append_right (Nat.le_add_right _ 2)).trans
      (by rw [Nat.add_sub_cancel_left]; rfl)

theorem State.newGroup_groups_cases {c : ℕ} (hG : (s.newGroup t c).groups[g]? = some G) :
    s.groups[g]? = some G ∨ g = s.groups.length ∧ G = s.created t c := by
  rcases Nat.lt_or_ge g s.groups.length with hlt | hge
  · exact .inl ((List.getElem?_append_left hlt).symm.trans hG)
  · have hlt := (List.getElem?_eq_some_iff.mp hG).1
    rw [State.newGroup_groups, List.length_append, List.length_singleton] at hlt
    obtain rfl : g = s.groups.length := by omega
    rw [State.newGroup_groups, List.getElem?_concat_length] at hG
    exact .inr ⟨rfl, (Option.some.inj hG).symm⟩

/-- A request is an old one or one of the three new ones. -/
theorem State.newGroup_requests_cases {c : ℕ} (hr : (s.newGroup t c).requests[j]? = some r) :
    j < s.requests.length ∧ s.requests[j]? = some r ∨ ∃ handle : Handle, handle.isGroup ∧
      (s.created t c).request handle = j ∧ r = s.createdRequest t c handle := by
  rcases Nat.lt_or_ge j s.requests.length with hlt | hge
  · exact .inl ⟨hlt, State.newGroup_requests_old hlt ▸ hr⟩
  · have hlt := (List.getElem?_eq_some_iff.mp hr).1
    have hlength : (s.newGroup t c).requests.length = s.requests.length + 3 := List.length_append
    obtain ⟨handle, hhandle, hj⟩ : ∃ handle : Handle, handle.isGroup ∧
        (s.created t c).request handle = j := by
      obtain rfl | rfl | rfl : j = s.requests.length ∨ j = s.requests.length + 1 ∨
          j = s.requests.length + 2 := by omega
      · exact ⟨.taskGroupRequest, rfl, rfl⟩
      · exact ⟨.taskGroupMultiRequest, rfl, rfl⟩
      · exact ⟨.taskGroupLocalRequest, rfl, rfl⟩
    refine .inr ⟨handle, hhandle, hj, ?_⟩
    rw [← hj, State.newGroup_requests_created hhandle] at hr
    exact (Option.some.inj hr).symm

theorem State.Consistent.newGroup (h : s.Consistent cfg) (t c : ℕ) :
    (s.newGroup t c).Consistent cfg := by
  have hold : ∀ {j : ℕ}, j < s.requests.length → (s.newGroup t c).infos[j]? = s.infos[j]? := by
    intro j hj
    rw [State.infos, State.infos, List.getElem?_map, List.getElem?_map,
      State.newGroup_requests_old hj]
  have hgroups {g : ℕ} {G : LamellarTaskGroup} (hG : s.groups[g]? = some G) :
      (s.newGroup t c).groups[g]? = some G :=
    (List.getElem?_append_left (List.getElem?_eq_some_iff.mp hG).1).trans hG
  have hcreated : (s.newGroup t c).groups[s.groups.length]? = some (s.created t c) :=
    List.getElem?_concat_length
  have hlt : ∀ e ∈ s.pending cfg, e.1.id < s.requests.length := fun e he =>
    h.id_lt (h.mem_of_pending he)
  have hlaunches : Launches cfg (s.newGroup t c).infos (s.newGroup t c).groups s.launched :=
    { nodup := h.launches.nodup
      target := fun e he => by
        obtain ⟨a, ha, htarget⟩ := h.launches.target e he
        refine ⟨a, (hold (h.id_lt he)).trans ha, { htarget with subId_lt := fun hgroup => ?_ }⟩
        obtain ⟨G, hG, hlt⟩ := htarget.subId_lt hgroup
        exact ⟨G, hgroups hG, hlt⟩
      all := fun e he a ha => h.launches.all e he a (hold (h.id_lt he) ▸ ha)
      single := fun e he a ha => h.launches.single e he a (hold (h.id_lt he) ▸ ha) }
  have hwired : Wired cfg (s.newGroup t c).infos (s.newGroup t c).groups s.inFlight :=
    { localItem := fun item hitem a ha =>
        h.wired.localItem item hitem a (hold (hlt _ (List.mem_map_of_mem hitem)) ▸ ha)
      group := fun j a ha hgroup => by
        obtain ⟨r, hr, rfl⟩ := State.of_infos_eq_some ha
        obtain ⟨hj, hr⟩ | ⟨handle, -, hj, rfl⟩ := State.newGroup_requests_cases hr
        · obtain ⟨G, hG, hrequest⟩ := h.wired.group j _ (State.infos_eq_some hr) hgroup
          exact ⟨G, hgroups hG, hrequest⟩
        · exact ⟨_, hcreated, hj⟩
      requests := fun g G hG handle hhandle => by
        obtain hG | ⟨rfl, rfl⟩ := State.newGroup_groups_cases hG
        · have hrequest := h.wired.requests g G hG handle hhandle
          have hj := (List.getElem?_eq_some_iff.mp hrequest).1
          rw [State.infos, List.length_map] at hj
          exact (hold hj).trans hrequest
        · exact State.infos_eq_some (State.newGroup_requests_created hhandle)
      cnt_pos := fun g G hG hdropped => by
        obtain hG | ⟨rfl, rfl⟩ := State.newGroup_groups_cases hG
        · exact h.wired.cnt_pos g G hG hdropped
        · exact Int.zero_lt_one }
  have hheld : ∀ j r, (s.newGroup t c).requests[j]? = some r →
      Held cfg (s.newGroup t c) (s.pending cfg) j r := by
    intro j r hr
    obtain ⟨-, hr⟩ | ⟨handle, hhandle, rfl, rfl⟩ := State.newGroup_requests_cases hr
    · have hinfo := State.infos_eq_some hr
      have hgroup : r.handle.isGroup → (s.newGroup t c).groups[r.group]? = s.groups[r.group]? := by
        intro hgroup
        obtain ⟨G, hG, -⟩ := h.wired.group j _ hinfo hgroup
        rw [hG, hgroups hG]
      refine (h.held j r hr).frame rfl ?_ (fun huser => ?_) fun d _ => Iff.rfl
      · rw [State.owners, State.owners]
        split
        · rename_i hg
          rw [hgroup hg]
        · rfl
      · rw [State.userHeld] at huser ⊢
        split
        · rename_i hg
          rwa [if_pos hg, hgroup hg] at huser
        · rename_i hg
          rwa [if_neg hg] at huser
    · have hnew : ∀ e : Exec, e.1.id < s.requests.length →
          e.1.id ≠ (s.created t c).request handle := by
        intro e he
        have hge : s.requests.length ≤ (s.created t c).request handle := by
          cases handle <;> first | exact Nat.le_refl _ | exact Nat.le_add_right _ _
        exact Nat.ne_of_lt (lt_of_lt_of_le he hge)
      have hzero : (s.pending cfg).countP (fun e => e.1.id = (s.created t c).request handle) = 0 :=
        List.countP_eq_zero.mpr fun e he heq => hnew e (hlt e he) (of_decide_eq_true heq)
      have howners : (s.newGroup t c).owners (s.createdRequest t c handle).toRequestInfo = 1 := by
        have hgroup : (s.createdRequest t c handle).handle.isGroup := hhandle
        have hget : (s.newGroup t c).groups[(s.createdRequest t c handle).group]? =
            some (s.created t c) := hcreated
        rw [State.owners, if_pos hgroup, hget]
        rfl
      refine ⟨?_, fun hmulti => ?_, fun _ subId p data => ⟨fun hdata => ?_, ?_⟩⟩
      · rw [hzero, howners]
        rfl
      · obtain rfl : handle = .lamellarMultiRequest := hmulti
        cases hhandle
      · cases hdata
      · rintro ⟨pe, -, hd⟩
        exact absurd rfl (hnew _ (h.id_lt (h.mem_of_delivered hd)))
  have hinv : Inv cfg (s.newGroup t c) s.launched (s.pending cfg) :=
    { perm := h.perm
      launches := hlaunches
      wired := hwired
      counted := h.counted.frame (fun e he => hold (hlt e he)) rfl rfl rfl
      held := hheld }
  exact hinv

end Lamellar.Requests
