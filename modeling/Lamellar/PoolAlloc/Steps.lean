import Lamellar.PoolAlloc.Invariant

/-!
# What the steps keep

First the boxes, by what a step does to the slots and the puts, then the rounds, and then the
functions of the source one by one.
-/

namespace Lamellar.PoolAlloc

open CommandQueue (CmdMsg Cmd)

variable {P : ℕ} {s s' : State P} {p q : Fin P} {pe pe' : Pe}

/-! ## Boxes -/

section

variable {n : ℕ} {slot c : CmdMsg} {puts : List CmdMsg}

/-- The PE goes on, and its slot stays as it is. -/
theorem Box.goOn (h : Box pe p q slot puts n) (hpos : pe'.pos = pe.pos)
    (hsent : p ≠ q → pe'.sent p = pe.sent p)
    (hsize : pe.pos % 2 = 1 → pe'.minSize = pe.minSize) : Box pe' p q slot puts n where
  sent := by
    rw [h.sent]
    split
    · rw [hpos]
    · rw [hsent ‹_›]
  shows := h.shows
  size := by
    intro i c hc heq hodd
    rw [hpos] at heq
    rw [hsize (heq ▸ hodd)]
    exact h.size i c hc heq hodd
  own := h.own

theorem Boxes.setPe (h : Boxes s) (hpos : pe.pos = (s.pes p).pos)
    (hsent : ∀ q : Fin P, q ≠ p → pe.sent q = (s.pes p).sent q)
    (hsize : (s.pes p).pos % 2 = 1 → pe.minSize = (s.pes p).minSize)
    (hneed : ∀ q n, Sees s p q n → (s.pes p).need q ≤ n → pe.need q ≤ n) :
    Boxes (s.setPe p pe) := by
  intro p' q'
  obtain ⟨n, hbox, hle⟩ := h p' q'
  refine ⟨n, ?_, ?_⟩
  · by_cases hq : q' = p
    · subst hq
      simp only [Sees, State.setPe, Function.update_self]
      exact hbox.goOn hpos (hsent p') hsize
    · simp only [Sees, State.setPe, Function.update_of_ne hq]
      exact hbox
  · by_cases hp : p' = p
    · subst hp
      simp only [State.setPe, Function.update_self]
      exact hneed q' n hbox hle
    · simp only [State.setPe, Function.update_of_ne hp]
      exact hle

/-- The PE writes the next value into its own slot. -/
theorem Box.write (h : Box pe p p slot puts n) (hpos : pe'.pos = pe.pos + 1)
    (hshows : Shows pe'.pos c) (hsize : pe'.pos % 2 = 1 → c.dsize = pe'.minSize) :
    Box pe' p p c puts (n + 1) := by
  have hputs := h.own rfl
  have hsent := h.sent
  rw [if_pos rfl, hputs, List.length_nil, Nat.add_zero] at hsent
  subst hputs
  constructor
  case sent => simp [hpos, hsent]
  case shows =>
    intro i c' hc
    obtain ⟨rfl, rfl⟩ : i = 0 ∧ c = c' := by
      cases i with
      | zero => exact ⟨rfl, by simpa using hc⟩
      | succ i => simp at hc
    rw [Nat.add_zero, hsent, ← hpos]
    exact hshows
  case size =>
    intro i c' hc heq hodd
    obtain ⟨rfl, rfl⟩ : i = 0 ∧ c = c' := by
      cases i with
      | zero => exact ⟨rfl, by simpa using hc⟩
      | succ i => simp at hc
    exact hsize (heq ▸ hodd)
  case own => exact fun _ => rfl

/-- The others do not see it yet. -/
theorem Box.unseen (h : Box pe p q slot puts n) (hne : p ≠ q) (hpos : pe'.pos = pe.pos + 1)
    (hsent : pe'.sent p = pe.sent p) : Box pe' p q slot puts n where
  sent := by
    have hold := h.sent
    rw [if_neg hne] at hold ⊢
    rw [hsent, hold]
  shows := h.shows
  size := by
    intro i c hc heq
    have hold := h.sent
    have hle := pe.sent_le p
    have hi := (List.getElem?_eq_some_iff.mp hc).1
    rw [if_neg hne] at hold
    simp only [List.length_cons] at hi
    omega
  own := h.own

theorem Boxes.setSlot (h : Boxes s) (hpos : pe.pos = (s.pes p).pos + 1)
    (hsent : ∀ q : Fin P, q ≠ p → pe.sent q = (s.pes p).sent q)
    (hneed : ∀ q : Fin P, pe.need q ≤ (s.pes p).need q) (hshows : Shows pe.pos c)
    (hsize : pe.pos % 2 = 1 → c.dsize = pe.minSize) :
    Boxes ((s.setSlot p p c).setPe p pe) := by
  intro p' q'
  obtain ⟨n, hbox, hle⟩ := h p' q'
  have hneed' : (((s.setSlot p p c).setPe p pe).pes p').need q' ≤ n := by
    by_cases hp : p' = p
    · subst hp
      simp only [State.setPe, Function.update_self]
      exact (hneed q').trans hle
    · simp only [State.setPe, State.setSlot, Function.update_of_ne hp]
      exact hle
  by_cases hq : q' = p
  · subst hq
    by_cases hp : p' = q'
    · subst hp
      refine ⟨n + 1, ?_, by omega⟩
      simp only [Sees, State.setPe, State.setSlot, Function.update_self]
      exact hbox.write hpos hshows hsize
    · refine ⟨n, ?_, hneed'⟩
      simp only [Sees, State.setPe, State.setSlot, Function.update_self, Function.update_of_ne hp]
      exact hbox.unseen hp hpos (hsent p' hp)
  · refine ⟨n, ?_, hneed'⟩
    have hslots : (Function.update s.slots p (Function.update (s.slots p) p c)) p' q' =
        s.slots p' q' := by
      by_cases hp : p' = p
      · subst hp
        rw [Function.update_self, Function.update_of_ne hq]
      · rw [Function.update_of_ne hp]
    simp only [Sees, State.setPe, State.setSlot, Function.update_of_ne hq, hslots]
    exact hbox

/-- The PE puts its slot to PE `p`. -/
theorem Box.put (h : Box pe p q slot puts n) (hne : p ≠ q) (hpos : pe'.pos = pe.pos)
    (hold : pe.sent p + 1 = pe.pos) (hnew : pe'.sent p = pe.pos)
    (hsize : pe'.minSize = pe.minSize) (hshows : Shows pe.pos c)
    (hdsize : pe.pos % 2 = 1 → c.dsize = pe.minSize) :
    Box pe' p q slot (puts ++ [c]) n := by
  have hsent := h.sent
  rw [if_neg hne] at hsent
  have hlast : ∀ i c', (slot :: (puts ++ [c]))[i]? = some c' →
      (slot :: puts)[i]? = some c' ∨ n + i = pe.pos ∧ c' = c := by
    intro i c' hc
    rw [← List.cons_append] at hc
    by_cases hi : i < (slot :: puts).length
    · rw [List.getElem?_append_left hi] at hc
      exact Or.inl hc
    · rw [List.getElem?_append_right (by omega), List.getElem?_singleton] at hc
      split at hc
      · cases hc
        simp only [List.length_cons] at hi ‹i - (slot :: puts).length = 0›
        exact Or.inr ⟨by omega, rfl⟩
      · cases hc
  constructor
  case sent =>
    rw [if_neg hne, List.length_append, List.length_singleton]
    omega
  case shows =>
    intro i c' hc
    rcases hlast i c' hc with hc | ⟨heq, rfl⟩
    · exact h.shows i c' hc
    · rw [heq]
      exact hshows
  case size =>
    intro i c' hc heq hodd
    rw [hsize]
    rcases hlast i c' hc with hc | ⟨heq', rfl⟩
    · exact h.size i c' hc (hpos ▸ heq) hodd
    · exact hdsize (heq' ▸ hodd)
  case own => exact fun heq => absurd heq hne

theorem Boxes.put (h : Boxes s) (hne : q ≠ p) (hpos : pe.pos = (s.pes p).pos)
    (hold : (s.pes p).sent q + 1 = (s.pes p).pos) (hnew : pe.sent q = (s.pes p).pos)
    (hsent : ∀ q' : Fin P, q' ≠ q → q' ≠ p → pe.sent q' = (s.pes p).sent q')
    (hsize : pe.minSize = (s.pes p).minSize)
    (hneed : ∀ q : Fin P, pe.need q = (s.pes p).need q) :
    Boxes ((s.put p q (s.slots p p)).setPe p pe) := by
  obtain ⟨m, hown, -⟩ := h p p
  have hm : m = (s.pes p).pos := by
    have hsent := hown.sent
    rwa [if_pos rfl, hown.own rfl, List.length_nil] at hsent
  subst hm
  intro p' q'
  obtain ⟨n, hbox, hle⟩ := h p' q'
  refine ⟨n, ?_, ?_⟩
  · by_cases hq : q' = p
    · subst hq
      by_cases hp : p' = q
      · subst hp
        simp only [Sees, State.setPe, State.put, Function.update_self]
        exact hbox.put hne hpos hold hnew hsize hown.slot
          fun hodd => hown.size 0 _ rfl rfl hodd
      · simp only [Sees, State.setPe, State.put, Function.update_self, Function.update_of_ne hp]
        exact Box.goOn hbox hpos (fun hself => hsent p' hp hself) fun _ => hsize
    · simp only [Sees, State.setPe, State.put, Function.update_of_ne hq]
      exact hbox
  · by_cases hp : p' = p
    · subst hp
      simp only [State.setPe, Function.update_self, hneed]
      exact hle
    · simp only [State.setPe, State.put, Function.update_of_ne hp]
      exact hle

/-- A put arrives. -/
theorem Box.deliver {rest : List CmdMsg} (h : Box pe p q slot (c :: rest) n) :
    Box pe p q c rest (n + 1) where
  sent := by
    rw [← h.sent, List.length_cons]
    omega
  shows := by
    intro i c' hc
    have hshows := h.shows (i + 1) c' hc
    rwa [show n + (i + 1) = n + 1 + i by omega] at hshows
  size := by
    intro i c' hc heq hodd
    refine h.size (i + 1) c' hc ?_ ?_ <;> omega
  own := fun heq => by cases h.own heq

end

/-! ## Rounds -/

section

variable {pes : Fin P → Pe}

/-- PE `p` goes on without a call of `alloc_pool`. -/
theorem Rounds.goOn (h : Rounds pes) (hok : pe.Ok) (hcalls : pe.calls = (pes p).calls)
    (hbarrier : (pes p).pc = .allocating →
      pe.pc = .allocating ∨ ∀ q, (pes p).rounds ≤ (pes q).rounds)
    (hsize : pe.pc.running = true → ∀ q, q ≠ p → (pes q).pc.running = true →
      pe.minSize = (pes q).minSize)
    (hpos : (pes p).pos ≤ pe.pos)
    (hagain : ∀ i, pe.pc = .waitClear i true → ∃ q, 2 * (pes p).rounds + 1 ≤ (pes q).pos) :
    Rounds (Function.update pes p pe) := by
  have hrounds : pe.rounds = (pes p).rounds := by rw [Pe.rounds, Pe.rounds, hcalls]
  have hsame : ∀ q, ((Function.update pes p pe) q).rounds = (pes q).rounds := by
    intro q
    by_cases hq : q = p
    · subst hq
      rw [Function.update_self, hrounds]
    · rw [Function.update_of_ne hq]
  have hsame' : ∀ q, ((Function.update pes p pe) q).calls = (pes q).calls := by
    intro q
    by_cases hq : q = p
    · subst hq
      rw [Function.update_self, hcalls]
    · rw [Function.update_of_ne hq]
  constructor
  case counters =>
    intro q
    by_cases hq : q = p
    · subst hq
      rwa [Function.update_self]
    · rw [Function.update_of_ne hq]
      exact h.counters q
  case barrier =>
    intro q q'
    rw [hsame, hsame]
    by_cases hq : q = p
    · subst hq
      rw [Function.update_self]
      have hold := h.barrier q q'
      split at hold
      · rcases hbarrier ‹_› with hpc | hle
        · rw [if_pos hpc]
          exact hold
        · exact (hle q').trans (Nat.le_add_right _ _)
      · exact hold.trans (Nat.add_le_add_left (Nat.zero_le _) _)
    · rw [Function.update_of_ne hq]
      exact h.barrier q q'
  case calls =>
    intro q q'
    rw [hsame, hsame, hsame', hsame']
    exact h.calls q q'
  case size =>
    have hside : pe.pc.running = true → ∀ q,
        ((Function.update pes p pe) q).pc.running = true →
        pe.minSize = ((Function.update pes p pe) q).minSize := by
      intro hrun q
      by_cases hq : q = p
      · subst hq
        rw [Function.update_self]
        exact fun _ => rfl
      · rw [Function.update_of_ne hq]
        exact hsize hrun q hq
    intro q q' hrun hrun'
    by_cases hq : q = p
    · subst hq
      rw [Function.update_self] at hrun ⊢
      exact hside hrun q' hrun'
    · by_cases hq' : q' = p
      · subst hq'
        rw [Function.update_self] at hrun' ⊢
        exact (hside hrun' q hrun).symm
      · rw [Function.update_of_ne hq] at hrun ⊢
        rw [Function.update_of_ne hq'] at hrun' ⊢
        exact h.size q q' hrun hrun'
  case again =>
    have hle : ∀ q, (pes q).pos ≤ ((Function.update pes p pe) q).pos := by
      intro q
      by_cases hq : q = p
      · subst hq
        rwa [Function.update_self]
      · rw [Function.update_of_ne hq]
    intro q i hpc
    rw [hsame]
    have hseen : ∃ q', 2 * (pes q).rounds + 1 ≤ (pes q').pos := by
      by_cases hq : q = p
      · subst hq
        rw [Function.update_self] at hpc
        exact hagain i hpc
      · rw [Function.update_of_ne hq] at hpc
        exact h.again q i hpc
    obtain ⟨q', hq'⟩ := hseen
    exact ⟨q', hq'.trans (hle q')⟩

/-- A call of `alloc_pool`. -/
theorem Rounds.call (h : Rounds pes) (hpc : (pes p).pc = .alloc) :
    Rounds (Function.update pes p { pes p with
      pc := .allocating, calls := (pes p).calls ++ [(pes p).minSize] }) := by
  have hok := h.counters p
  simp only [Pe.Ok, hpc] at hok
  have hle : ∀ q, (pes p).rounds ≤ (pes q).rounds := by
    intro q
    have hbarrier := h.barrier p q
    simpa [hpc] using hbarrier
  -- who is ahead has called it with the same size
  have hahead : ∀ q, (pes p).rounds < (pes q).rounds →
      (pes q).calls = (pes p).calls ++ [(pes p).minSize] := by
    intro q hlt
    have hbarrier := h.barrier q p
    split at hbarrier
    · rename_i hq
      obtain ⟨rest, hrest⟩ := h.calls p q (hle q)
      have hlen : rest.length = 1 := by
        have := congrArg List.length hrest
        simp only [List.length_append, Pe.rounds] at this hlt hbarrier
        omega
      obtain ⟨m, rfl⟩ := List.length_eq_one_iff.mp hlen
      have hqok := h.counters q
      simp only [Pe.Ok, hq, ← hrest, List.getLast?_concat, Option.some.injEq] at hqok
      rw [← hrest, hqok.2.2.2.2, h.size p q (by simp [hpc, Pc.running]) (by simp [hq, Pc.running])]
    · omega
  have hother : ∀ q, q ≠ p → (Function.update pes p { pes p with
      pc := .allocating, calls := (pes p).calls ++ [(pes p).minSize] }) q = pes q :=
    fun q hq => Function.update_of_ne hq _ _
  constructor
  case counters =>
    intro q
    by_cases hq : q = p
    · subst hq
      rw [Function.update_self]
      simp only [Pe.Ok, Pe.rounds, List.length_append, List.length_singleton]
      simp only [Pe.rounds] at hok
      exact ⟨hok.1, by simpa using hok.2.1, by omega, by simpa using hok.2.2, by simp⟩
    · rw [hother q hq]
      exact h.counters q
  case barrier =>
    intro q q'
    by_cases hq : q = p
    · subst hq
      rw [Function.update_self, if_pos rfl]
      by_cases hq' : q' = q
      · subst hq'
        rw [Function.update_self]
        exact Nat.le_succ _
      · rw [hother q' hq']
        have := hle q'
        simp only [Pe.rounds, List.length_append, List.length_singleton] at this ⊢
        omega
    · rw [hother q hq]
      have hbarrier := h.barrier q q'
      by_cases hq' : q' = p
      · subst hq'
        rw [Function.update_self]
        refine hbarrier.trans (Nat.add_le_add_right ?_ _)
        simp [Pe.rounds]
      · rwa [hother q' hq']
  case calls =>
    intro q q' hqq
    by_cases hq : q = p
    · subst hq
      by_cases hq' : q' = q
      · rw [hq']
      · rw [hother q' hq'] at hqq ⊢
        rw [Function.update_self] at hqq ⊢
        refine (hahead q' ?_).symm ▸ List.prefix_rfl
        simp only [Pe.rounds, List.length_append, List.length_singleton] at hqq ⊢
        omega
    · rw [hother q hq] at hqq ⊢
      by_cases hq' : q' = p
      · subst hq'
        rw [Function.update_self] at hqq ⊢
        by_cases hlt : (pes q').rounds < (pes q).rounds
        · rw [hahead q hlt]
        · exact (h.calls q q' (by omega)).trans (List.prefix_append _ _)
      · rw [hother q' hq'] at hqq ⊢
        exact h.calls q q' hqq
  case size =>
    have hsame : ∀ q, ((Function.update pes p { pes p with
        pc := .allocating, calls := (pes p).calls ++ [(pes p).minSize] }) q).minSize =
        (pes q).minSize ∧ (((Function.update pes p { pes p with
        pc := .allocating, calls := (pes p).calls ++ [(pes p).minSize] }) q).pc.running = true →
        (pes q).pc.running = true) := by
      intro q
      by_cases hq : q = p
      · subst hq
        rw [Function.update_self]
        exact ⟨rfl, fun _ => by simp [hpc, Pc.running]⟩
      · rw [hother q hq]
        exact ⟨rfl, id⟩
    intro q q' hrun hrun'
    rw [(hsame q).1, (hsame q').1]
    exact h.size q q' ((hsame q).2 hrun) ((hsame q').2 hrun')
  case again =>
    intro q i hq
    by_cases hqp : q = p
    · subst hqp
      rw [Function.update_self] at hq
      cases hq
    · rw [hother q hqp] at hq ⊢
      obtain ⟨q', hq'⟩ := h.again q i hq
      refine ⟨q', ?_⟩
      by_cases hqq : q' = p
      · subst hqq
        rw [Function.update_self]
        simp only [Pe.pos, hpc] at hq'
        simp only [Pe.pos, Pe.rounds, List.length_append, List.length_singleton] at hq' ⊢
        omega
      · rwa [hother q' hqq]

end

/-! ## The functions -/

theorem Inv.of_eq (h : Inv s) (hpes : s'.pes = s.pes) (hslots : s'.slots = s.slots)
    (hputs : s'.puts = s.puts) : Inv s' := by
  obtain ⟨pes, slots, puts, requests⟩ := s
  obtain ⟨pes', slots', puts', requests'⟩ := s'
  cases hpes
  cases hslots
  cases hputs
  exact ⟨h.boxes, h.rounds⟩

/-- A PE at the beginning of its slot's round. -/
structure Pe.Idle (pe : Pe) (P : ℕ) : Prop where
  pos : pe.pos = 2 * pe.rounds
  sent : ∀ q : Fin P, pe.sent q = 2 * pe.rounds
  need : ∀ q : Fin P, pe.need q = 2 * pe.rounds
  counter : pe.Ok → pe.allocId = .ofNat pe.rounds

theorem Pe.idle (h : pe.pc.running = false ∨ pe.pc = .start) : pe.Idle P := by
  rcases h with h | h
  · cases hpc : pe.pc <;> simp [hpc, Pc.running] at h
    all_goals
      constructor <;> simp [Pe.pos, Pe.sent, Pe.need, Pe.Ok, hpc]
  · constructor <;> simp +contextual [Pe.pos, Pe.sent, Pe.need, Pe.Ok, h]

/-- Who has the lock changes outside `send_alloc_inner`. -/
theorem Inv.idle {pc : Pc} (h : Inv s) (hpc : (s.pes p).pc.running = false)
    (hpc' : pc.running = false) : Inv (s.goto p pc) := by
  have hold : (s.pes p).Idle P := Pe.idle (Or.inl hpc)
  have hnew : ({ s.pes p with pc } : Pe).Idle P := Pe.idle (Or.inl hpc')
  constructor
  · refine h.boxes.setPe ?_ ?_ ?_ ?_
    · rw [hold.pos, hnew.pos]
      rfl
    · intro q _
      rw [hold.sent, hnew.sent]
      rfl
    · exact fun _ => rfl
    · intro q n _ hle
      rw [hold.need] at hle
      rw [hnew.need]
      exact hle
  · refine h.rounds.goOn ?_ rfl ?_ ?_ ?_ ?_
    · have hcounter := hold.counter (h.rounds.counters p)
      cases pc <;> simp [Pc.running] at hpc'
      all_goals exact hcounter
    · intro halloc
      simp [halloc, Pc.running] at hpc
    · intro hrun
      simp [hpc'] at hrun
    · rw [hold.pos, hnew.pos]
      exact Nat.le_refl _
    · intro i hclear
      simp only at hclear
      simp [hclear, Pc.running] at hpc'

/-- A round begins on PE `p`, or it goes on to the next one. -/
theorem Inv.begin {caller : Option ℕ} {minSize : UInt64} (h : Inv s)
    (hpos : (s.pes p).pos = 2 * (s.pes p).rounds)
    (hsent : ∀ q : Fin P, (s.pes p).sent q = 2 * (s.pes p).rounds)
    (hneed : ∀ q n, Sees s p q n → (s.pes p).need q ≤ n → 2 * (s.pes p).rounds ≤ n)
    (hcounter : (s.pes p).allocId = .ofNat (s.pes p).rounds)
    (hpc : (s.pes p).pc ≠ .allocating) (hlt : (s.pes p).rounds < 2 ^ 64)
    (hsize : ∀ q, q ≠ p → (s.pes q).pc.running = true → minSize = (s.pes q).minSize) :
    Inv (s.setPe p { s.pes p with pc := .start, caller, minSize }) := by
  have hnew : ({ s.pes p with pc := .start, caller, minSize } : Pe).Idle P :=
    Pe.idle (Or.inr rfl)
  constructor
  · refine h.boxes.setPe ?_ ?_ ?_ ?_
    · rw [hpos, hnew.pos]
      rfl
    · intro q _
      rw [hsent, hnew.sent]
      rfl
    · intro hodd
      omega
    · intro q n hsees hle
      rw [hnew.need]
      exact hneed q n hsees hle
  · refine h.rounds.goOn ⟨hcounter, hlt⟩ rfl ?_ ?_ ?_ ?_
    · exact fun halloc => absurd halloc hpc
    · exact fun _ => hsize
    · rw [hpos, hnew.pos]
      exact Nat.le_refl _
    · intro i hclear
      cases hclear

theorem Inv.scan {i : ℕ} (h : Inv s) (hpc : (s.pes p).pc = .scan i) : Inv (s.scan p i) := by
  have hidle : (s.pes p).Idle P := Pe.idle (Or.inl (by simp [hpc, Pc.running]))
  simp only [State.scan]
  split
  · split
    · rename_i hi halloc
      obtain ⟨n, hsees, hle⟩ := h.boxes p ⟨i, hi⟩
      rw [hidle.need] at hle
      obtain ⟨hn, hq, hdsize⟩ := h.alloc_seen hsees hle halloc
      have hrun : (s.pes ⟨i, hi⟩).pc.running = true := Pe.running_of_odd (by omega)
      refine h.begin hidle.pos hidle.sent ?_ ?_ (by simp [hpc]) ?_ ?_
      · intro q n _ hle
        rwa [hidle.need] at hle
      · exact hidle.counter (h.rounds.counters p)
      · exact h.rounds.lt_of_pos (hq.trans hn)
      · intro q _ hrun'
        rw [hdsize]
        exact h.rounds.size _ _ hrun hrun'
    · exact h.idle (by simp [hpc, Pc.running]) rfl
  · exact h.idle (by simp [hpc, Pc.running]) rfl

theorem shows_alloc {c : CmdMsg} {r : ℕ} {dsize : UInt64} :
    Shows (2 * r + 1) { c with
      daddr := .ofNat r, dsize, cmd := .alloc, msgHash := 0 }.calcHash := by
  refine ⟨CmdMsg.checkHash_of_eq rfl, ?_⟩
  rw [if_neg (by omega), show (2 * r + 1) / 2 = r by omega]
  exact ⟨rfl, rfl⟩

theorem shows_clear {c : CmdMsg} {r : ℕ} : Shows (2 * r) c.clear := by
  refine ⟨CmdMsg.checkHash_of_eq rfl, ?_⟩
  rw [if_pos (by omega)]
  exact ⟨rfl, rfl⟩

theorem Sees.own {n : ℕ} (h : Sees s p p n) : n = (s.pes p).pos := by
  have hsent := h.sent
  rwa [if_pos rfl, Box.own h rfl, List.length_nil] at hsent

theorem Inv.startRound (h : Inv s) (hpc : (s.pes p).pc = .start) : Inv (s.startRound p) := by
  have hidle : (s.pes p).Idle P := Pe.idle (Or.inr hpc)
  have hok := h.rounds.counters p
  simp only [Pe.Ok, hpc] at hok
  obtain ⟨n, hsees, -⟩ := h.boxes p p
  have hshows := hsees.slot
  rw [hsees.own, hidle.pos] at hshows
  have hhash := hshows.2
  rw [if_pos (by omega)] at hhash
  simp only [State.startRound, hhash.2, if_true, hok.1]
  constructor
  · refine h.boxes.setSlot ?_ ?_ ?_ ?_ ?_
    · rw [hidle.pos]
      rfl
    · intro q _
      rw [hidle.sent]
      simp [Pe.sent, Pe.pos, Pe.rounds]
    · intro q
      rw [hidle.need]
      exact Nat.le_refl _
    · exact shows_alloc
    · exact fun _ => rfl
  · refine h.rounds.goOn ?_ rfl ?_ ?_ ?_ ?_
    · exact ⟨(UInt64.ofNat_add _ 1).symm, rfl, hok.2⟩
    · intro halloc
      simp [hpc] at halloc
    · exact fun _ q _ hrun => h.rounds.size p q (by simp [hpc, Pc.running]) hrun
    · rw [hidle.pos]
      exact Nat.le_succ _
    · intro i hclear
      cases hclear

/-- A step inside a round that changes neither the slot nor what has been put. -/
theorem Inv.goOn {pc : Pc} (h : Inv s)
    (hpos : ({ s.pes p with pc } : Pe).pos = (s.pes p).pos)
    (hsent : ∀ q : Fin P, q ≠ p → ({ s.pes p with pc } : Pe).sent q = (s.pes p).sent q)
    (hneed : ∀ q n, Sees s p q n → (s.pes p).need q ≤ n →
      ({ s.pes p with pc } : Pe).need q ≤ n)
    (hok : ({ s.pes p with pc } : Pe).Ok) (halloc : (s.pes p).pc ≠ .allocating)
    (hrun : (s.pes p).pc.running = true)
    (hagain : ∀ i, pc = .waitClear i true → ∃ q, 2 * (s.pes p).rounds + 1 ≤ (s.pes q).pos) :
    Inv (s.goto p pc) := by
  constructor
  · exact h.boxes.setPe hpos hsent (fun _ => rfl) hneed
  · refine h.rounds.goOn hok rfl ?_ ?_ (le_of_eq hpos.symm) hagain
    · exact fun hpc => absurd hpc halloc
    · exact fun _ q _ hrun' => h.rounds.size p q hrun hrun'

/-- A loop that puts the slot to the other PEs, with what its counter says. -/
structure Pe.Puts (pe : Pe) (P : ℕ) (next : ℕ → Pc) (done : Pc) : Prop where
  pos : ∀ i, ({ pe with pc := next i } : Pe).pos = pe.pos
  sent : ∀ i (q : Fin P), ({ pe with pc := next i } : Pe).sent q =
    if i ≤ q then pe.pos - 1 else pe.pos
  need : ∀ i (q : Fin P), ({ pe with pc := next i } : Pe).need q = pe.need q
  ok : ∀ i, ({ pe with pc := next i } : Pe).Ok
  calm : ∀ i, next i ≠ .allocating ∧ ∀ j b, next i ≠ .waitClear j b
  donePos : ({ pe with pc := done } : Pe).pos = pe.pos
  doneSent : ∀ q : Fin P, ({ pe with pc := done } : Pe).sent q = pe.pos
  doneNeed : ∀ q : Fin P, ({ pe with pc := done } : Pe).need q ≤ pe.need q
  doneOk : ({ pe with pc := done } : Pe).Ok
  doneCalm : ∀ j, done ≠ .waitClear j true
  positive : 0 < pe.pos
  running : pe.pc.running = true

theorem Inv.putSlot {i : ℕ} {next : ℕ → Pc} {done : Pc} (h : Inv s)
    (hpc : (s.pes p).pc = next i) (hputs : (s.pes p).Puts P next done) :
    Inv (s.putSlot p i next done) := by
  have hself : ({ s.pes p with pc := next i } : Pe) = s.pes p := by rw [← hpc]
  have hsent : ∀ q : Fin P, (s.pes p).sent q =
      if i ≤ q then (s.pes p).pos - 1 else (s.pes p).pos := by
    intro q
    rw [← hputs.sent, hself]
  have halloc : (s.pes p).pc ≠ .allocating := by
    rw [hpc]
    exact (hputs.calm i).1
  have hstay : ∀ j : ℕ, (∀ q : Fin P, q ≠ p → (i ≤ q ↔ j ≤ q)) → Inv (s.goto p (next j)) := by
    intro j hj
    refine h.goOn (hputs.pos j) ?_ ?_ (hputs.ok j) halloc hputs.running ?_
    · intro q hq
      rw [hsent, hputs.sent]
      simp only [hj q hq]
    · intro q n _ hle
      rwa [hputs.need]
    · exact fun k hclear => absurd hclear ((hputs.calm j).2 k true)
  simp only [State.putSlot]
  split
  · rename_i hi
    by_cases hip : (⟨i, hi⟩ : Fin P) = p
    · -- it does not put to itself
      rw [if_neg (not_not.mpr hip)]
      refine hstay (i + 1) fun q hq => ?_
      have hne : q.val ≠ i := fun heq => hq (hip ▸ Fin.ext heq)
      omega
    · rw [if_pos hip]
      constructor
      · refine h.boxes.put hip (hputs.pos (i + 1)) ?_ ?_ ?_ rfl ?_
        · rw [hsent, if_pos (Nat.le_refl i)]
          have := hputs.positive
          omega
        · refine (hputs.sent (i + 1) ⟨i, hi⟩).trans ?_
          rw [if_neg (Nat.not_succ_le_self i)]
        · intro q hqi _
          refine (hputs.sent (i + 1) q).trans ?_
          rw [hsent]
          have hne : q.val ≠ i := fun heq => hqi (Fin.ext heq)
          have hiff : i + 1 ≤ q.val ↔ i ≤ q.val := by omega
          simp only [hiff]
        · exact hputs.need (i + 1)
      · refine h.rounds.goOn (hputs.ok (i + 1)) rfl ?_ ?_ (le_of_eq (hputs.pos (i + 1)).symm) ?_
        · exact fun hpc => absurd hpc halloc
        · exact fun _ q _ hrun => h.rounds.size p q hputs.running hrun
        · exact fun k hclear => absurd hclear ((hputs.calm (i + 1)).2 k true)
  · refine h.goOn hputs.donePos ?_ ?_ hputs.doneOk halloc hputs.running ?_
    · intro q _
      rw [hsent, hputs.doneSent, if_neg (by omega)]
    · exact fun q n _ hle => (hputs.doneNeed q).trans hle
    · exact fun k hclear => absurd hclear (hputs.doneCalm k)

theorem Inv.putAlloc {i : ℕ} (h : Inv s) (hpc : (s.pes p).pc = .putAlloc i) :
    Inv (s.putSlot p i .putAlloc (.waitAlloc 0)) := by
  have hok := h.rounds.counters p
  simp only [Pe.Ok, hpc] at hok
  refine h.putSlot hpc ?_
  constructor
  case ok => exact fun _ => hok
  case doneOk => exact hok
  all_goals simp [Pe.pos, Pe.sent, Pe.need, Pe.rounds, Pc.running, hpc]

theorem Inv.putClear {i : ℕ} (h : Inv s) (hpc : (s.pes p).pc = .putClear i) :
    Inv (s.putSlot p i .putClear (.waitClear 0 false)) := by
  have hok := h.rounds.counters p
  simp only [Pe.Ok, hpc] at hok
  refine h.putSlot hpc ?_
  constructor
  case ok => exact fun _ => hok
  case doneOk => exact hok
  case positive =>
    simp only [Pe.pos, hpc]
    omega
  all_goals simp [Pe.pos, Pe.sent, Pe.need, Pe.rounds, Pc.running, hpc]

/-! ## The loops that wait -/

theorem Inv.waitAlloc {i : ℕ} (h : Inv s) (hpc : (s.pes p).pc = .waitAlloc i)
    (hstep : s.waitAlloc p i = some s') : Inv s' := by
  have hok := h.rounds.counters p
  simp only [Pe.Ok, hpc] at hok
  have hneed : ∀ q : Fin P, (s.pes p).need q =
      if q < i then 2 * (s.pes p).rounds + 1 else 2 * (s.pes p).rounds := by
    intro q
    simp only [Pe.need, hpc]
  simp only [State.waitAlloc] at hstep
  split at hstep
  · split at hstep
    · rename_i hi halloc
      cases hstep
      refine h.goOn ?_ ?_ ?_ hok (by simp [hpc]) (by simp [hpc, Pc.running]) (by simp)
      · simp [Pe.pos, Pe.rounds, hpc]
      · simp [Pe.sent, Pe.pos, Pe.rounds, hpc]
      · intro q n hsees hle
        simp only [Pe.need, Pe.rounds]
        rw [hneed, Pe.rounds] at hle
        by_cases hq : q.val = i
        · -- this slot has just been seen at `Alloc`
          obtain rfl : q = ⟨i, hi⟩ := Fin.ext hq
          have hodd := hsees.slot.isAlloc.mp halloc
          rw [if_neg (Nat.lt_irrefl i)] at hle
          rw [if_pos (Nat.lt_succ_self i)]
          omega
        · have hiff : q.val < i + 1 ↔ q.val < i := by omega
          simpa only [hiff] using hle
    · cases hstep
  · cases hstep
    refine h.goOn ?_ ?_ ?_ hok (by simp [hpc]) (by simp [hpc, Pc.running]) (by simp)
    · simp [Pe.pos, Pe.rounds, hpc]
    · simp [Pe.sent, Pe.pos, Pe.rounds, hpc]
    · intro q n _ hle
      rw [hneed, if_pos (by omega)] at hle
      exact hle

theorem Inv.call (h : Inv s) (hpc : (s.pes p).pc = .alloc) :
    Inv (s.setPe p { s.pes p with
      pc := .allocating, calls := (s.pes p).calls ++ [(s.pes p).minSize] }) := by
  refine ⟨h.boxes.setPe ?_ ?_ (fun _ => rfl) ?_, h.rounds.call hpc⟩
  · simp only [Pe.pos, Pe.rounds, hpc, List.length_append, List.length_singleton]
    omega
  · intro q _
    simp only [Pe.sent, Pe.pos, Pe.rounds, hpc, List.length_append, List.length_singleton]
    omega
  · intro q n _ hle
    simp only [Pe.need, Pe.rounds, hpc, List.length_append, List.length_singleton] at hle ⊢
    omega

theorem Inv.allocated (h : Inv s) (hpc : (s.pes p).pc = .allocating)
    (hstep : s.allocated p = some s') : Inv s' := by
  have hok := h.rounds.counters p
  simp only [Pe.Ok, hpc] at hok
  simp only [State.allocated] at hstep
  split at hstep
  · rename_i hall
    cases hstep
    constructor
    · refine h.boxes.setPe ?_ ?_ (fun _ => rfl) ?_
      · simp only [Pe.pos, Pe.rounds, hpc]
      · intro q _
        simp only [Pe.sent, Pe.pos, Pe.rounds, hpc]
      · intro q n _ hle
        simpa only [Pe.need, Pe.rounds, hpc] using hle
    · refine h.rounds.goOn hok rfl (fun _ => Or.inr hall) ?_ ?_ (by simp)
      · exact fun _ q _ hrun => h.rounds.size p q (by simp [hpc, Pc.running]) hrun
      · simp only [Pe.pos, Pe.rounds, hpc]
        exact Nat.le_refl _
  · cases hstep

theorem Inv.clear (h : Inv s) (hpc : (s.pes p).pc = .clear) :
    Inv ((s.setSlot p p (s.slots p p).clear).goto p (.putClear 0)) := by
  have hok := h.rounds.counters p
  simp only [Pe.Ok, hpc] at hok
  constructor
  · refine h.boxes.setSlot ?_ ?_ ?_ ?_ ?_
    · simp only [Pe.pos, Pe.rounds, State.setSlot, hpc] at hok ⊢
      omega
    · intro q _
      simp [Pe.sent, Pe.pos, Pe.rounds, State.setSlot, hpc]
    · intro q
      simp only [Pe.need, Pe.rounds, State.setSlot, hpc]
      exact Nat.le_refl _
    · simp only [Pe.pos]
      exact shows_clear
    · simp only [Pe.pos]
      omega
  · refine h.rounds.goOn hok rfl ?_ ?_ ?_ (by simp)
    · simp [hpc]
    · exact fun _ q _ hrun => h.rounds.size p q (by simp [hpc, Pc.running]) hrun
    · simp only [Pe.pos, Pe.rounds, State.setSlot, hpc]
      omega

/-- A slot is seen `Clear`, or at `Alloc` in a later round. -/
theorem Inv.waitClear_next {i : ℕ} {newAlloc newAlloc' : Bool} (h : Inv s)
    (hpc : (s.pes p).pc = .waitClear i newAlloc)
    (hseen : ∀ q n, q.val = i → Sees s p q n → (s.pes p).need q ≤ n →
      2 * (s.pes p).rounds ≤ n)
    (hagain : newAlloc' = true → ∃ q, 2 * (s.pes p).rounds + 1 ≤ (s.pes q).pos) :
    Inv (s.goto p (.waitClear (i + 1) newAlloc')) := by
  have hok := h.rounds.counters p
  simp only [Pe.Ok, hpc] at hok
  refine h.goOn ?_ ?_ ?_ hok (by simp [hpc]) (by simp [hpc, Pc.running]) ?_
  · simp [Pe.pos, Pe.rounds, hpc]
  · simp [Pe.sent, Pe.pos, Pe.rounds, hpc]
  · intro q n hsees hle
    by_cases hq : q.val = i
    · have hlow := hseen q n hq hsees hle
      simp only [Pe.need, Pe.rounds] at hlow ⊢
      rw [if_pos (by omega)]
      exact hlow
    · have hiff : q.val < i + 1 ↔ q.val < i := by omega
      simp only [Pe.need, Pe.rounds, hpc, hiff] at hle ⊢
      exact hle
  · rintro j ⟨rfl⟩
    exact hagain rfl

theorem Inv.waitClear {i : ℕ} {newAlloc : Bool} (h : Inv s)
    (hpc : (s.pes p).pc = .waitClear i newAlloc)
    (hstep : s.waitClear p i newAlloc = some s') : Inv s' := by
  have hok := h.rounds.counters p
  simp only [Pe.Ok, hpc] at hok
  have hneed : ∀ q : Fin P, (s.pes p).need q =
      if q < i then 2 * (s.pes p).rounds else 2 * (s.pes p).rounds - 1 := by
    intro q
    simp only [Pe.need, hpc]
  simp only [State.waitClear] at hstep
  split at hstep
  · rename_i hi
    split at hstep
    · -- the slot is `Clear`
      rename_i hclear
      cases hstep
      refine h.waitClear_next hpc ?_ ?_
      · intro q n hq hsees hle
        obtain rfl : q = ⟨i, hi⟩ := Fin.ext hq
        have heven := hsees.slot.isClear.mp hclear
        rw [hneed, if_neg (Nat.lt_irrefl i)] at hle
        omega
      · rintro rfl
        exact h.rounds.again p i hpc
    · split at hstep
      · -- the PE is in its next round
        rename_i hnext
        cases hstep
        obtain ⟨n, hsees, hle⟩ := h.boxes p ⟨i, hi⟩
        have hlater : ∀ n, Sees s p ⟨i, hi⟩ n → 2 * (s.pes p).rounds + 1 ≤ n := by
          intro n hsees
          obtain ⟨-, hshows⟩ := hsees.slot
          split at hshows
          · rw [hshows.1] at hnext
            cases hnext.1
          · have hlt := hnext.2
            rw [hshows.2, hok.2.1, UInt64.lt_iff_toNat_lt, UInt64.toNat_ofNat', UInt64.toNat_ofNat',
              Nat.mod_eq_of_lt hok.2.2.2.1] at hlt
            have hmod := Nat.mod_le (n / 2) (2 ^ 64)
            omega
        refine h.waitClear_next hpc ?_ ?_
        · intro q n hq hsees _
          obtain rfl : q = ⟨i, hi⟩ := Fin.ext hq
          have := hlater n hsees
          omega
        · exact fun _ => ⟨⟨i, hi⟩, (hlater n hsees).trans hsees.le_pos⟩
      · cases hstep
  · rename_i hi
    have hpast : ∀ q n, Sees s p q n → (s.pes p).need q ≤ n → 2 * (s.pes p).rounds ≤ n := by
      intro q n _ hle
      rwa [hneed, if_pos (by omega)] at hle
    split at hstep
    · rename_i hnew
      cases hstep
      obtain ⟨q, hq⟩ := h.rounds.again p i (by rw [hpc, hnew])
      have hle := h.rounds.pos_le p q
      have hlt : (s.pes p).rounds < 2 ^ 64 := h.rounds.lt_of_pos (q := q) (by omega)
      refine h.goOn ?_ ?_ hpast ?_ (by simp [hpc]) (by simp [hpc, Pc.running]) (by simp)
      · simp [Pe.pos, Pe.rounds, hpc]
      · simp [Pe.sent, Pe.pos, Pe.rounds, hpc]
      · exact ⟨hok.1, hlt⟩
    · cases hstep
      have hfree : Inv (s.goto p .free) := by
        refine h.goOn ?_ ?_ hpast hok.1 (by simp [hpc]) (by simp [hpc, Pc.running]) (by simp)
        · simp [Pe.pos, Pe.rounds, hpc]
        · simp [Pe.sent, Pe.pos, Pe.rounds, hpc]
      simp only [State.leave]
      split
      · exact hfree.of_eq rfl rfl rfl
      · exact hfree

/-! ## All steps -/

/-- A request starts a round: it finds no room, and there is no new pool since it has looked. -/
def State.Starts (s : State P) (r : Request P) : Prop :=
  r.pc = .inside (s.pes r.pe).numPoolAllocs

instance (s : State P) (r : Request P) : Decidable (s.Starts r) :=
  inferInstanceAs (Decidable (r.pc = .inside (s.pes r.pe).numPoolAllocs))

/-- A request that starts a round has the size of every `send_alloc_inner` that runs, and the
ids of the rounds are not used up. -/
def SameSize (s : State P) : Action P → Prop
  | .room k false => ∀ r ∈ s.requests[k]?, s.Starts r →
    (∀ q, (s.pes q).pc.running = true → (s.pes q).minSize = r.minSize) ∧
      (s.pes r.pe).calls.length < 2 ^ 64
  | _ => True

theorem Inv.run (h : Inv s) (hstep : s.run p = some s') : Inv s' := by
  cases hpc : (s.pes p).pc <;> simp only [State.run, hpc] at hstep
  case scan i =>
    cases hstep
    exact h.scan hpc
  case start =>
    cases hstep
    exact h.startRound hpc
  case putAlloc i =>
    cases hstep
    exact h.putAlloc hpc
  case waitAlloc i => exact h.waitAlloc hpc hstep
  case alloc =>
    cases hstep
    exact h.call hpc
  case allocating => exact h.allocated hpc hstep
  case clear =>
    cases hstep
    exact h.clear hpc
  case putClear i =>
    cases hstep
    exact h.putClear hpc
  case waitClear i newAlloc => exact h.waitClear hpc hstep
  all_goals cases hstep

theorem Inv.room {k : ℕ} {found : Bool} (h : Inv s) (hsame : SameSize s (.room k found))
    (hstep : s.room k found = some s') : Inv s' := by
  simp only [State.room] at hstep
  split at hstep
  · rename_i p minSize prevCnt hk
    split at hstep
    · rename_i hpc
      have hrun : (s.pes p).pc.running = false := by simp [hpc, Pc.running]
      have hidle : (s.pes p).Idle P := Pe.idle (Or.inl hrun)
      split at hstep
      · rename_i hstart
        cases hstep
        obtain ⟨rfl, hcnt⟩ := hstart
        obtain ⟨hsizes, hlt⟩ := hsame _ hk (by simp [State.Starts, hcnt])
        refine h.begin hidle.pos hidle.sent ?_ (hidle.counter (h.rounds.counters p))
          (by simp [hpc]) hlt fun q _ hrun => (hsizes q hrun).symm
        intro q n _ hle
        rwa [hidle.need] at hle
      · cases hstep
        exact (h.idle hrun rfl).of_eq rfl rfl rfl
    · cases hstep
  · cases hstep

theorem Inv.deliver {c : CmdMsg} {rest : List CmdMsg} (h : Inv s) (hputs : s.puts q p = c :: rest) :
    Inv { s.setSlot p q c with
      puts := Function.update s.puts q (Function.update (s.puts q) p rest) } := by
  refine ⟨fun p' q' => ?_, h.rounds⟩
  obtain ⟨n, hsees, hle⟩ := h.boxes p' q'
  by_cases hpq : p' = p ∧ q' = q
  · obtain ⟨rfl, rfl⟩ := hpq
    refine ⟨n + 1, ?_, Nat.le_succ_of_le hle⟩
    simp only [Sees, State.setSlot, Function.update_self]
    simp only [Sees, hputs] at hsees
    exact hsees.deliver
  · refine ⟨n, ?_, hle⟩
    have hslots : (Function.update s.slots p (Function.update (s.slots p) q c)) p' q' =
        s.slots p' q' := by
      by_cases hp : p' = p
      · subst hp
        rw [Function.update_self, Function.update_of_ne fun hq => hpq ⟨rfl, hq⟩]
      · rw [Function.update_of_ne hp]
    have hrest : (Function.update s.puts q (Function.update (s.puts q) p rest)) q' p' =
        s.puts q' p' := by
      by_cases hq : q' = q
      · subst hq
        rw [Function.update_self, Function.update_of_ne fun hp => hpq ⟨hp, rfl⟩]
      · rw [Function.update_of_ne hq]
    simp only [Sees, State.setSlot, hslots, hrest]
    exact hsees

theorem Inv.step {a : Action P} (h : Inv s) (hsame : SameSize s a) (hstep : s.step a = some s') :
    Inv s' := by
  cases a with
  | sendAlloc p minSize =>
    cases hstep
    exact h.of_eq rfl rfl rfl
  | count k =>
    simp only [State.step, State.count] at hstep
    split at hstep
    · split at hstep
      · cases hstep
      · cases hstep
        exact h.of_eq rfl rfl rfl
    · cases hstep
  | lock k =>
    simp only [State.step, State.lock] at hstep
    split at hstep
    · split at hstep
      · rename_i hpc
        cases hstep
        exact (h.idle (by simp [hpc, Pc.running]) rfl).of_eq rfl rfl rfl
      · cases hstep
    · cases hstep
  | room k found => exact h.room hsame hstep
  | checkAlloc p =>
    simp only [State.step] at hstep
    split at hstep
    · rename_i hpc
      cases hstep
      exact h.idle (by simp [hpc, Pc.running]) rfl
    · cases hstep
  | run p => exact h.run hstep
  | deliver q p =>
    simp only [State.step] at hstep
    split at hstep
    · rename_i hputs
      cases hstep
      exact h.deliver hputs
    · cases hstep

theorem Inv.new : Inv (State.new : State P) where
  boxes := by
    intro p q
    refine ⟨0, ?_, ?_⟩
    · exact {
        sent := by simp [State.new, Pe.pos, Pe.sent, Pe.rounds]
        shows := by
          intro i c hc
          cases i with
          | zero =>
            cases hc
            exact shows_clear (r := 0)
          | succ i => simp [State.new] at hc
        size := by
          intro i c _ heq hodd
          simp [State.new, Pe.pos, Pe.rounds] at heq
          omega
        own := fun _ => rfl }
    · simp [State.new, Pe.need, Pe.rounds]
  rounds := {
    counters := fun _ => rfl
    barrier := by simp [State.new, Pe.rounds]
    calls := by simp [State.new]
    size := by simp [State.new]
    again := by simp [State.new] }

end Lamellar.PoolAlloc
