import Lamellar.Requests.Handles

/-!
# The results of every run

The counters of a PE are what `wait_all` waits for. They are zero when nothing is on its way, and
then every launch has all of its results.
-/

namespace Lamellar.Requests

open Team (LamellarArchRT)

variable {V : Type} {cfg : Env} {s s' : State V} {L P : List Exec} {i : ℕ} {r : RequestResult V}
  {act : Action V}

/-! ## Runs -/

theorem State.Consistent.empty : State.Consistent cfg (State.empty : State V) where
  perm := List.Perm.refl _
  launches := ⟨List.nodup_nil, fun e he => absurd he List.not_mem_nil,
    fun e he => absurd he List.not_mem_nil, fun e he => absurd he List.not_mem_nil⟩
  wired := ⟨fun item hitem => absurd hitem List.not_mem_nil, fun i a ha => by { cases ha },
    fun g G hG => by { cases hG }, fun g G hG => by { cases hG }⟩
  counted := ⟨rfl, fun t => rfl, fun c => rfl⟩
  held i r hr := by cases hr

theorem State.Consistent.execAmAllTg (h : s.Consistent cfg) {t via : ℕ} (tg : Option ℕ)
    (hsame : cfg.SamePes via t) : (s.execAmAllTg cfg t tg via).Consistent cfg :=
  h.launch rfl ⟨via, hsame, rfl⟩ rfl

theorem State.Consistent.execAmPeTg {t pe : ℕ} {tg : Option ℕ} (h : s.Consistent cfg)
    (hs : s.execAmPeTg cfg t pe tg = some s') : s'.Consistent cfg := by
  rw [State.execAmPeTg] at hs
  split at hs
  · split at hs
    · cases hs
      exact h.launch rfl ⟨_, rfl⟩ rfl
    · cases hs
  · cases hs

theorem State.Consistent.step (h : s.Consistent cfg) (hact : Unmixed cfg s act)
    (hs : s.step cfg act = some s') : s'.Consistent cfg := by
  cases act with
  | execAmAllTg t tg via | amGroupExecAmAllTg t tg via | execArcAmAll t tg via =>
    cases hs
    exact h.execAmAllTg tg hact
  | execAmPeTg t pe tg | amGroupExecAmPeTg t pe tg | execArcAmPe t pe tg => exact h.execAmPeTg hs
  | execAmLocalTg t tg =>
    cases hs
    exact h.launch rfl rfl rfl
  | newGroup t c =>
    cases hs
    exact h.newGroup t c
  | execAmAllInner g via =>
    obtain ⟨G, hG, hs⟩ := Option.bind_eq_some_iff.mp hs
    split at hs
    · cases hs
    · cases hs
      exact h.launchGroup hG (eq_false_of_ne_true ‹_›) rfl ⟨via, hact G hG, rfl⟩ rfl
  | execAmPeInner g pe =>
    obtain ⟨G, hG, hs⟩ := Option.bind_eq_some_iff.mp hs
    split at hs
    · cases hs
    · rw [State.execAmPeInner] at hs
      split at hs
      · cases hs
        exact h.launchGroup hG (eq_false_of_ne_true ‹_›) rfl ⟨_, rfl⟩ rfl
      · cases hs
  | execAmLocalInner g =>
    obtain ⟨G, hG, hs⟩ := Option.bind_eq_some_iff.mp hs
    split at hs
    · cases hs
    · cases hs
      exact h.launchGroup hG (eq_false_of_ne_true ‹_›) rfl rfl rfl
  | exec k ret =>
    rw [State.step] at hs
    split at hs
    · rename_i id dst hk
      cases hs
      exact h.exec hk ret
    · cases hs
  | deliver k ret =>
    obtain ⟨item, hk, hs'⟩ := Option.bind_eq_some_iff.mp hs
    obtain ⟨data, hdata, -⟩ := Option.bind_eq_some_iff.mp hs'
    obtain ⟨s₁, hs₁, h₁⟩ := h.deliver hk hdata
    obtain rfl := Option.some.inj (hs₁.symm.trans hs)
    exact h₁
  | dropHandle i =>
    obtain ⟨r, hr, hs⟩ := Option.bind_eq_some_iff.mp hs
    obtain ⟨hcond, hs⟩ := Option.ite_none_right_eq_some.mp hs
    cases hs
    exact h.dropHandle hr hcond.1
  | dropGroupHandle g =>
    obtain ⟨G, hG, hs⟩ := Option.bind_eq_some_iff.mp hs
    obtain ⟨hcnt, hs⟩ := Option.ite_none_right_eq_some.mp hs
    cases hs
    exact h.dropGroupHandle hG hcnt
  | dropGroup g =>
    obtain ⟨G, hG, hs⟩ := Option.bind_eq_some_iff.mp hs
    split at hs
    · cases hs
    · cases hs
      exact h.dropGroup hG (eq_false_of_ne_true ‹_›)

theorem Reachable.consistent (hs : Reachable cfg s) : s.Consistent cfg :=
  Transition.Reach.invariant (I := State.Consistent cfg) (fun _ h => h ▸ State.Consistent.empty)
    (fun _ _ _ h hact hstep => h.step hact hstep) hs

/-! ## The results -/

theorem append_diff_self {α : Type} [BEq α] [LawfulBEq α] (xs ys : List α) :
    (xs ++ ys).diff xs = ys := by
  induction xs with
  | nil => exact List.diff_nil ys
  | cons x xs ih => rw [List.cons_append, List.diff_cons, List.erase_cons_head, ih]

theorem State.Consistent.outstanding_perm (h : s.Consistent cfg) :
    s.outstanding.Perm (s.pending cfg) := by
  have hperm := h.perm.diff_right (s.delivered.map Prod.fst)
  rwa [append_diff_self] at hperm

/-- An execution of a launch without one that is outstanding has a result. -/
theorem State.Consistent.delivered_of_launched (h : s.Consistent cfg) {e : Exec}
    (he : e ∈ s.launched) (hnot : e ∉ s.outstanding) : ∃ data, (e, data) ∈ s.delivered := by
  have hmem := (List.mem_append.mp (h.perm.mem_iff.mp he)).resolve_right fun hpending =>
    hnot (h.outstanding_perm.mem_iff.mpr hpending)
  obtain ⟨⟨e', data⟩, hd, rfl⟩ := List.mem_map.mp hmem
  exact ⟨data, hd⟩

theorem State.Consistent.collects (h : s.Consistent cfg) (hr : s.requests[i]? = some r)
    (hheld : s.userHeld r) : s.Collects cfg i r := by
  have hprior := h.held i r hr
  have hplaced := hprior.placed hheld
  have hinfo := State.infos_eq_some hr
  refine ⟨hplaced, fun hhandle => ?_, ?_⟩
  · rw [State.userHeld, hhandle] at hheld
    rw [hprior.cnt_eq hhandle hheld, h.outstanding_perm.countP_eq]
  · rintro subId ⟨pe₀, hlaunched⟩ hnone t
    have hslot : (∃ pe, r.toRequestInfo.Slot cfg pe t ∧ (⟨i, subId⟩, pe) ∈ s.launched) ↔
        t < if r.handle.isMulti then (cfg.teams r.team).numPes else 1 := by
      have hwf := cfg.wellFormed r.team
      cases hmulti : r.handle.isMulti with
      | true =>
        have hslot (pe : ℕ) : r.toRequestInfo.Slot cfg pe t ↔
            (cfg.teams r.team).teamPe pe = .ok t := by rw [RequestInfo.Slot, if_pos hmulti]
        rw [if_pos rfl]
        constructor
        · rintro ⟨pe, hpe, -⟩
          exact (hwf.teamPe_ok ((hslot pe).mp hpe)).1
        · intro ht
          obtain ⟨pe, -, -, hteam⟩ := hwf.worldPe_ok ht
          exact ⟨pe, (hslot pe).mpr hteam,
            h.launches.all _ hlaunched _ hinfo hmulti pe (hwf.mem_teamIter.mpr ⟨t, hteam⟩)⟩
      | false =>
        have hslot (pe : ℕ) : r.toRequestInfo.Slot cfg pe t ↔ t = 0 := by
          rw [RequestInfo.Slot, if_neg (ne_true_of_eq_false hmulti)]
        rw [if_neg Bool.false_ne_true, Nat.lt_one_iff]
        constructor
        · rintro ⟨pe, hpe, -⟩
          exact (hslot pe).mp hpe
        · intro ht
          exact ⟨pe₀, (hslot pe₀).mpr ht, hlaunched⟩
    rw [← hslot]
    constructor
    · intro hsome
      obtain ⟨data, hdata⟩ := Option.isSome_iff_exists.mp hsome
      obtain ⟨pe, hpe, hd⟩ := (hplaced subId t data).mp hdata
      exact ⟨pe, hpe, h.mem_of_delivered hd⟩
    · rintro ⟨pe, hpe, hmem⟩
      obtain ⟨data, hd⟩ := h.delivered_of_launched hmem (hnone pe)
      rw [(hplaced subId t data).mpr ⟨pe, hpe, hd⟩]
      rfl

/-- How many steps a message has to go -/
def Item.distance : Item V → ℕ
  | .am _ _ => 2
  | _ => 1

def State.distance (s : State V) : ℕ := (s.inFlight.map Item.distance).sum

/-- Nothing is left to wait for. -/
structure State.Settled (cfg : Env) (s : State V) : Prop where
  world_eq : s.world = 0
  team_eq : ∀ t, s.team t = 0
  counters_eq : ∀ c, s.counters c = 0
  strong_eq : ∀ (i : ℕ) (r : RequestResult V), s.requests[i]? = some r →
    r.strong = s.owners r.toRequestInfo
  complete : ∀ (i : ℕ) (r : RequestResult V), s.requests[i]? = some r → s.userHeld r →
    ∀ subId, (∃ pe, (⟨i, subId⟩, pe) ∈ s.launched) → ∀ t, (r.data subId t).isSome ↔
      t < if r.handle.isMulti then (cfg.teams r.team).numPes else 1

theorem State.Consistent.settled (h : s.Consistent cfg) (hnil : s.inFlight = []) :
    s.Settled cfg := by
  have hpending : s.pending cfg = [] := by rw [State.pending, hnil]; rfl
  have hnone : ∀ e, e ∉ s.outstanding := fun e he => by
    rw [h.outstanding_perm.mem_iff, hpending] at he
    exact List.not_mem_nil he
  have hcounted := h.counted
  rw [hpending] at hcounted
  refine ⟨hcounted.world_eq, hcounted.team_eq, hcounted.counters_eq, fun i r hr => ?_,
    fun i r hr hheld subId hlaunched => ?_⟩
  · rw [(h.held i r hr).strong_eq, hpending]
    exact congrArg Nat.cast (Nat.zero_add _)
  · exact (h.collects hr hheld).complete subId hlaunched fun pe => hnone _

end Lamellar.Requests
