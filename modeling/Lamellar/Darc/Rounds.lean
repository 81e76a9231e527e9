import Lamellar.Darc.Handles

/-!
# The tasks run in step

The barriers keep the tasks of all PEs in the same round. `Aligned` says how: two PEs are
never more than one barrier apart; PEs that have entered equally many barriers have entered
the same one last, in the same call; and a PE that is one barrier ahead has entered the one
that follows. After the votes of a round this needs that all PEs decide alike whether to go
on, which they do because each reads the vote of every other.
-/

namespace Lamellar.Darc

open State

variable {P : ℕ}

/-- Some PE has voted for another round. -/
def VotedAgain (ids : Fin P → Fin P → ℕ) : Prop := ∃ r, ids r r = 0

/-- All PEs hold the same last vote of `p`. -/
def Sent (ids : Fin P → Fin P → ℕ) (p : Fin P) : Prop := ∀ q, ids q p = ids p p

/-- The barrier id is zero only if something is outstanding. -/
def Task.IdPending (t : Task P) : Prop :=
  0 < t.oldBarrierId ∧ (t.barrierId = 0 → t.outstandingRefs = true)

/-- The barrier id is the vote: zero if something is outstanding. -/
def Task.IdReady (t : Task P) : Prop :=
  0 < t.oldBarrierId ∧ (t.barrierId = 0 ↔ t.outstandingRefs = true)

/-- Where a task stands tells which barrier its PE has entered last, `b`, and what is known
about the votes. -/
def LocalOk (ids : Fin P → Fin P → ℕ) (b : BarrierPoint) (p : Fin P) (t : Task P) : Prop :=
  match t.pc with
  | .start => b = .final ∧ Sent ids p ∧ 0 < t.barrierId
  | .await .initial => b = .initial ∧ Sent ids p ∧ 0 < t.barrierId
  | .await .counted => b = .counted ∧ Sent ids p ∧ t.IdPending
  | .await .checked => b = .checked ∧ Sent ids p ∧ t.IdReady
  | .await .voted =>
    b = .voted ∧ Sent ids p ∧ 0 < t.oldBarrierId ∧ (ids p p = 0 ↔ t.outstandingRefs = true)
  | .await .final => b = .final ∧ Sent ids p
  | .localTest | .sendFinished | .readRefs _ | .readDist | .putRefs _ =>
    (b = .initial ∨ b = .voted ∧ VotedAgain ids) ∧ Sent ids p ∧ t.IdPending
  | .checkLocal | .checkDist | .checkRefs _ _ => b = .counted ∧ Sent ids p ∧ t.IdPending
  | .putIds todo => b = .checked ∧ t.IdReady ∧ ∀ q, q ∉ todo → ids q p = t.barrierId
  | .readIds todo =>
    b = .voted ∧ Sent ids p ∧ 0 < t.oldBarrierId ∧
      (t.outstandingRefs = true ↔ ids p p = 0 ∨ ∃ q, q ∉ todo ∧ ids p q = 0)
  | .storeMode | .putModes _ | .waitModes _ => b = .voted ∧ Sent ids p ∧ ¬ VotedAgain ids
  | _ => b = .final ∧ Sent ids p

/-- The barrier after `b`, with the number of the call it belongs to. -/
def Follows (ids : Fin P → Fin P → ℕ) (b b' : BarrierPoint) (c c' : ℕ) : Prop :=
  match b with
  | .initial => b' = .counted ∧ c' = c
  | .counted => b' = .checked ∧ c' = c
  | .checked => b' = .voted ∧ c' = c
  | .voted => c' = c ∧ (b' = .counted ∧ VotedAgain ids ∨ b' = .final ∧ ¬ VotedAgain ids)
  | .final => b' = .initial ∧ c' = c + 1

/-- The task of `p` has entered a barrier and not left it. -/
def Waiting (s : State P) (p : Fin P) : Prop := ∃ t b, s.task p = some t ∧ t.pc = .await b

structure Aligned (s : State P) : Prop where
  idle : ∀ p, s.task p = none → s.lastBarrier p = .final ∧ Sent s.modeBarriers p
  busy : ∀ p t, s.task p = some t → LocalOk s.modeBarriers (s.lastBarrier p) p t
  passed : ∀ p, ¬ Waiting s p → ∀ q, s.entered p ≤ s.entered q
  near : ∀ p q, s.entered p ≤ s.entered q + 1
  same : ∀ p q, s.entered p = s.entered q →
    s.lastBarrier p = s.lastBarrier q ∧ s.calls p = s.calls q
  next : ∀ p q, s.entered q = s.entered p + 1 →
    Follows s.modeBarriers (s.lastBarrier p) (s.lastBarrier q) (s.calls p) (s.calls q)

theorem Follows.unique {ids : Fin P → Fin P → ℕ} {b b₁ b₂ : BarrierPoint} {c c₁ c₂ : ℕ}
    (h₁ : Follows ids b b₁ c c₁) (h₂ : Follows ids b b₂ c c₂) : b₁ = b₂ ∧ c₁ = c₂ := by
  cases b with
  | voted =>
    obtain ⟨hc₁, h₁⟩ := h₁
    obtain ⟨hc₂, h₂⟩ := h₂
    refine ⟨?_, hc₁.trans hc₂.symm⟩
    rcases h₁ with ⟨h₁, hv⟩ | ⟨h₁, hv⟩
    · rcases h₂ with ⟨h₂, _⟩ | ⟨_, hv'⟩
      · exact h₁.trans h₂.symm
      · exact absurd hv hv'
    · rcases h₂ with ⟨_, hv'⟩ | ⟨h₂, _⟩
      · exact absurd hv' hv
      · exact h₁.trans h₂.symm
  | _ => exact ⟨h₁.1.trans h₂.1.symm, h₁.2.trans h₂.2.symm⟩

namespace Aligned

variable {s s' : State P} {p : Fin P}

/-- A step that neither enters a barrier nor votes. -/
theorem tick (h : Aligned s) {t' : Task P}
    (htask : s'.task = Function.update s.task p (some t')) (hentered : s'.entered = s.entered)
    (hlast : s'.lastBarrier = s.lastBarrier) (hcalls : s'.calls = s.calls)
    (hids : s'.modeBarriers = s.modeBarriers) (hpassed : ∀ q, s.entered p ≤ s.entered q)
    (hlocal : LocalOk s.modeBarriers (s.lastBarrier p) p t') : Aligned s' := by
  constructor
  · intro r hr
    rw [htask] at hr
    rw [hlast, hids]
    by_cases hrp : r = p
    · subst hrp
      simp at hr
    · rw [Function.update_of_ne hrp] at hr
      exact h.idle r hr
  · intro r t hr
    rw [htask] at hr
    rw [hlast, hids]
    by_cases hrp : r = p
    · subst hrp
      rw [Function.update_self, Option.some_inj] at hr
      subst hr
      exact hlocal
    · rw [Function.update_of_ne hrp] at hr
      exact h.busy r t hr
  · intro r hr
    rw [hentered]
    by_cases hrp : r = p
    · subst hrp
      exact hpassed
    · apply h.passed
      rintro ⟨t, b, ht, hb⟩
      refine hr ⟨t, b, ?_, hb⟩
      rw [htask, Function.update_of_ne hrp]
      exact ht
  · rw [hentered]
    exact h.near
  · rw [hentered, hlast, hcalls]
    exact h.same
  · rw [hentered, hlast, hcalls, hids]
    exact h.next

/-- A step that enters the barrier after the last one. -/
theorem entering (h : Aligned s) {t' : Task P} {b : BarrierPoint} {c : ℕ}
    (htask : s'.task = Function.update s.task p (some t'))
    (hentered : s'.entered = Function.update s.entered p (s.entered p + 1))
    (hlast : s'.lastBarrier = Function.update s.lastBarrier p b)
    (hcalls : s'.calls = Function.update s.calls p c) (hids : s'.modeBarriers = s.modeBarriers)
    (hpassed : ∀ q, s.entered p ≤ s.entered q) (hawait : t'.pc = .await b)
    (hlocal : LocalOk s.modeBarriers b p t')
    (hfollows : Follows s.modeBarriers (s.lastBarrier p) b (s.calls p) c) : Aligned s' := by
  constructor
  · intro r hr
    rw [htask] at hr
    rw [hlast, hids]
    by_cases hrp : r = p
    · subst hrp
      simp at hr
    · rw [Function.update_of_ne hrp] at hr ⊢
      exact h.idle r hr
  · intro r t hr
    rw [htask] at hr
    rw [hlast, hids]
    by_cases hrp : r = p
    · subst hrp
      rw [Function.update_self, Option.some_inj] at hr
      subst hr
      rw [Function.update_self]
      exact hlocal
    · rw [Function.update_of_ne hrp] at hr ⊢
      exact h.busy r t hr
  · intro r hr q
    rw [hentered]
    by_cases hrp : r = p
    · subst hrp
      exact absurd ⟨t', b, by rw [htask, Function.update_self], hawait⟩ hr
    · have hrest := h.passed r (by
        rintro ⟨t, b, ht, hb⟩
        refine hr ⟨t, b, ?_, hb⟩
        rw [htask, Function.update_of_ne hrp]
        exact ht)
      rw [Function.update_of_ne hrp]
      by_cases hqp : q = p
      · subst hqp
        rw [Function.update_self]
        exact Nat.le_succ_of_le (hrest q)
      · rw [Function.update_of_ne hqp]
        exact hrest q
  · intro r q
    rw [hentered]
    have hnear := h.near
    by_cases hrp : r = p
    · subst hrp
      by_cases hqp : q = r
      · subst hqp
        omega
      · rw [Function.update_self, Function.update_of_ne hqp]
        have := hpassed q
        omega
    · rw [Function.update_of_ne hrp]
      by_cases hqp : q = p
      · subst hqp
        rw [Function.update_self]
        have := hnear r q
        omega
      · rw [Function.update_of_ne hqp]
        exact hnear r q
  · -- a PE that was ahead has entered the same barrier
    have hahead : ∀ q, q ≠ p → s.entered q = s.entered p + 1 →
        b = s.lastBarrier q ∧ c = s.calls q :=
      fun q _ hq => hfollows.unique (h.next p q hq)
    intro r q
    rw [hentered, hlast, hcalls]
    by_cases hrp : r = p
    · subst hrp
      by_cases hqp : q = r
      · subst hqp
        exact fun _ => ⟨rfl, rfl⟩
      · simp only [Function.update_self, Function.update_of_ne hqp]
        exact fun hq => hahead q hqp hq.symm
    · by_cases hqp : q = p
      · subst hqp
        simp only [Function.update_self, Function.update_of_ne hrp]
        exact fun hr => ⟨(hahead r hrp hr).1.symm, (hahead r hrp hr).2.symm⟩
      · simp only [Function.update_of_ne hrp, Function.update_of_ne hqp]
        exact h.same r q
  · intro r q
    rw [hentered, hlast, hcalls, hids]
    by_cases hrp : r = p
    · subst hrp
      by_cases hqp : q = r
      · subst hqp
        exact fun hq => absurd hq (by omega)
      · simp only [Function.update_self, Function.update_of_ne hqp]
        intro hq
        have := h.near q r
        omega
    · by_cases hqp : q = p
      · subst hqp
        simp only [Function.update_self, Function.update_of_ne hrp]
        intro hq
        obtain ⟨hb, hc⟩ := h.same r q (by omega)
        rw [hb, hc]
        exact hfollows
      · simp only [Function.update_of_ne hrp, Function.update_of_ne hqp]
        exact h.next r q

/-- PEs that have left their last barrier have all entered the same one. -/
theorem lastBarrier_eq (h : Aligned s) {q : Fin P} (hp : ∀ r, s.entered p ≤ s.entered r)
    (hq : ∀ r, s.entered q ≤ s.entered r) : s.lastBarrier p = s.lastBarrier q :=
  (h.same p q (Nat.le_antisymm (hp q) (hq p))).1

theorem sent_of_not_putIds (h : Aligned s) {q : Fin P}
    (hq : ∀ t todo, s.task q = some t → t.pc ≠ .putIds todo) : Sent s.modeBarriers q := by
  cases ht : s.task q with
  | none => exact (h.idle q ht).2
  | some t =>
    have hlocal := h.busy q t ht
    cases hpc : t.pc with
    | putIds todo => exact absurd hpc (hq t todo ht)
    | await b =>
      cases b with
      | final =>
        simp only [LocalOk, hpc] at hlocal
        exact hlocal.2
      | _ =>
        simp only [LocalOk, hpc] at hlocal
        exact hlocal.2.1
    | _ =>
      simp only [LocalOk, hpc] at hlocal
      first
        | exact hlocal.2.1
        | exact hlocal.2

/-- Nobody is voting while another PE has left a different barrier. -/
theorem sent_of_passed (h : Aligned s) (hp : ∀ r, s.entered p ≤ s.entered r)
    (hb : s.lastBarrier p ≠ .checked) (q : Fin P) : Sent s.modeBarriers q := by
  apply h.sent_of_not_putIds
  intro t todo ht hpc
  have hlocal := h.busy q t ht
  simp only [LocalOk, hpc] at hlocal
  have hpassed := h.passed q (by
    rintro ⟨t', b, ht', hb'⟩
    rw [ht] at ht'
    cases ht'
    rw [hpc] at hb'
    cases hb')
  exact hb ((h.lastBarrier_eq hp hpassed).trans hlocal.1)

theorem not_waiting {t : Task P} (ht : s.task p = some t) (hpc : ∀ b, t.pc ≠ .await b) :
    ¬ Waiting s p := by
  rintro ⟨t', b, ht', hb⟩
  rw [ht] at ht'
  cases ht'
  exact hpc b hb

/-- The end of a conversion. -/
theorem ending (h : Aligned s) (htask : s'.task = Function.update s.task p none)
    (hentered : s'.entered = s.entered) (hlast : s'.lastBarrier = s.lastBarrier)
    (hcalls : s'.calls = s.calls) (hids : s'.modeBarriers = s.modeBarriers)
    (hpassed : ∀ q, s.entered p ≤ s.entered q) (hfinal : s.lastBarrier p = .final)
    (hsent : Sent s.modeBarriers p) : Aligned s' := by
  constructor
  · intro r hr
    rw [hlast, hids]
    by_cases hrp : r = p
    · subst hrp
      exact ⟨hfinal, hsent⟩
    · rw [htask, Function.update_of_ne hrp] at hr
      exact h.idle r hr
  · intro r t hr
    rw [htask] at hr
    rw [hlast, hids]
    by_cases hrp : r = p
    · subst hrp
      simp at hr
    · rw [Function.update_of_ne hrp] at hr
      exact h.busy r t hr
  · intro r hr
    rw [hentered]
    by_cases hrp : r = p
    · subst hrp
      exact hpassed
    · apply h.passed
      rintro ⟨t, b, ht, hb⟩
      refine hr ⟨t, b, ?_, hb⟩
      rw [htask, Function.update_of_ne hrp]
      exact ht
  · rw [hentered]
    exact h.near
  · rw [hentered, hlast, hcalls]
    exact h.same
  · rw [hentered, hlast, hcalls, hids]
    exact h.next

/-- What a task knows about the votes does not change while another PE votes: a task that
has read votes, or acted on them, is not in the same round. -/
theorem localOk_putId {ids : Fin P → Fin P → ℕ} {b : BarrierPoint} {r q : Fin P} {t : Task P}
    {v : ℕ} (hrp : r ≠ p) (hb : b = .voted → ∃ b', t.pc = .await b')
    (h : LocalOk ids b r t) : LocalOk (update₂ ids q p v) b r t := by
  have hdiag : update₂ ids q p v r r = ids r r := update₂_of_ne ids v (Or.inr hrp)
  have hsent : Sent ids r → Sent (update₂ ids q p v) r := by
    intro hsent q'
    rw [hdiag, update₂_of_ne ids v (Or.inr hrp)]
    exact hsent q'
  cases hpc : t.pc with
  | await b' =>
    cases b' with
    | final =>
      simp only [LocalOk, hpc] at h ⊢
      exact ⟨h.1, hsent h.2⟩
    | voted =>
      simp only [LocalOk, hpc, hdiag] at h ⊢
      exact ⟨h.1, hsent h.2.1, h.2.2⟩
    | _ =>
      simp only [LocalOk, hpc] at h ⊢
      exact ⟨h.1, hsent h.2.1, h.2.2⟩
  | putIds todo =>
    simp only [LocalOk, hpc] at h ⊢
    refine ⟨h.1, h.2.1, fun q' hq' => ?_⟩
    rw [update₂_of_ne ids v (Or.inr hrp)]
    exact h.2.2 q' hq'
  | localTest | sendFinished | readRefs _ | readDist | putRefs _ =>
    simp only [LocalOk, hpc] at h ⊢
    obtain ⟨hlast, hrest⟩ := h
    rcases hlast with hlast | ⟨hlast, _⟩
    · exact ⟨Or.inl hlast, hsent hrest.1, hrest.2⟩
    · obtain ⟨b', hb'⟩ := hb hlast
      simp [hpc] at hb'
  | readIds _ | storeMode | putModes _ | waitModes _ =>
    simp only [LocalOk, hpc] at h
    obtain ⟨b', hb'⟩ := hb h.1
    simp [hpc] at hb'
  | start | checkLocal | checkDist | checkRefs _ _ =>
    simp only [LocalOk, hpc] at h ⊢
    exact ⟨h.1, hsent h.2.1, h.2.2⟩
  | _ =>
    simp only [LocalOk, hpc] at h ⊢
    exact ⟨h.1, hsent h.2⟩

theorem putId (h : Aligned s) {t : Task P} {q : Fin P} {todo : Finset (Fin P)}
    (ht : s.task p = some t) (hpc : t.pc = .putIds todo) :
    Aligned ((s.putId p q t.barrierId).setTask p { t with pc := .putIds (todo.erase q) }) := by
  have hlocal := h.busy p t ht
  simp only [LocalOk, hpc] at hlocal
  obtain ⟨hchecked, hready, hput⟩ := hlocal
  have hpassed := h.passed p (not_waiting ht (by simp [hpc]))
  constructor
  · intro r hr
    by_cases hrp : r = p
    · subst hrp
      simp [State.setTask] at hr
    · have hr' : s.task r = none := by simpa [State.setTask, State.putId, hrp] using hr
      refine ⟨(h.idle r hr').1, fun q' => ?_⟩
      simp only [State.setTask, State.putId, update₂_of_ne s.modeBarriers _ (Or.inr hrp)]
      exact (h.idle r hr').2 q'
  · intro r t' hr
    by_cases hrp : r = p
    · subst hrp
      simp only [State.setTask, Function.update_self, Option.some_inj] at hr
      subst hr
      simp only [State.setTask, State.putId, LocalOk]
      refine ⟨hchecked, hready, fun q' hq' => ?_⟩
      by_cases hq : q' = q
      · rw [hq, update₂_self]
      · rw [update₂_of_ne _ _ (Or.inl hq)]
        exact hput q' (fun hmem => hq' (Finset.mem_erase.mpr ⟨hq, hmem⟩))
    · have hr' : s.task r = some t' := by simpa [State.setTask, State.putId, hrp] using hr
      refine localOk_putId hrp (fun hvoted => ?_) (h.busy r t' hr')
      by_contra hno
      have hrpassed := h.passed r (not_waiting hr' (fun b hb => hno ⟨b, hb⟩))
      have heq := h.lastBarrier_eq hpassed hrpassed
      rw [hchecked] at heq
      change s.lastBarrier r = .voted at hvoted
      rw [hvoted] at heq
      cases heq
  · intro r hr
    apply h.passed
    rintro ⟨t', b, ht', hb⟩
    by_cases hrp : r = p
    · subst hrp
      rw [ht] at ht'
      cases ht'
      simp [hpc] at hb
    · refine hr ⟨t', b, ?_, hb⟩
      simp only [State.setTask, Function.update_of_ne hrp]
      exact ht'
  · exact h.near
  · exact h.same
  · intro x y hxy
    have hfollows := h.next x y hxy
    change Follows _ (s.lastBarrier x) (s.lastBarrier y) (s.calls x) (s.calls y)
    have hne : s.lastBarrier x ≠ .voted := by
      intro hvoted
      have h1 := hpassed x
      have h2 := h.near y p
      change s.entered y = s.entered x + 1 at hxy
      have heq := (h.same p x (by omega)).1
      rw [hchecked, hvoted] at heq
      cases heq
    cases hx : s.lastBarrier x with
    | voted => exact absurd hx hne
    | _ =>
      rw [hx] at hfollows
      exact hfollows

/-- The votes of all PEs, read by one that has left the barrier after them. -/
theorem votedAgain_iff (h : Aligned s) {t : Task P} (ht : s.task p = some t)
    (hpc : t.pc = .readIds ∅) : t.outstandingRefs = true ↔ VotedAgain s.modeBarriers := by
  have hlocal := h.busy p t ht
  simp only [LocalOk, hpc] at hlocal
  obtain ⟨hvoted, _, _, hflag⟩ := hlocal
  have hsent := h.sent_of_passed (h.passed p (not_waiting ht (by simp [hpc])))
    (by rw [hvoted]; decide)
  rw [hflag]
  constructor
  · rintro (hzero | ⟨q, _, hzero⟩)
    · exact ⟨p, hzero⟩
    · exact ⟨q, by rw [← hsent q p]; exact hzero⟩
  · rintro ⟨r, hzero⟩
    exact Or.inr ⟨r, by simp, by rw [hsent r p]; exact hzero⟩

theorem taskStep (h : Aligned s) {t : Task P} (ht : s.task p = some t)
    (hs : TaskStep s p t s') : Aligned s' := by
  have hlocal := h.busy p t ht
  have hpassed : (∀ b, t.pc ≠ .await b) → ∀ q, s.entered p ≤ s.entered q :=
    fun hpc => h.passed p (not_waiting ht hpc)
  cases hs with
  | startSolo hpc hP =>
    simp only [LocalOk, hpc] at hlocal
    have hsingle : ∀ x y : Fin P, x = y := fun x y => Fin.ext (by omega)
    have htick : Aligned (s.setTask p { t with pc := .soloTest }) :=
      h.tick rfl rfl rfl rfl rfl (hpassed (by simp [hpc])) ⟨hlocal.1, hlocal.2.1⟩
    refine ⟨htick.idle, htick.busy, htick.passed, htick.near, ?_, ?_⟩
    · intro x y _
      rw [hsingle x y]
      exact ⟨rfl, rfl⟩
    · intro x y hxy
      rw [hsingle x y] at hxy
      omega
  | enterInitial hpc hP =>
    simp only [LocalOk, hpc] at hlocal
    exact h.entering rfl rfl rfl rfl rfl (hpassed (by simp [hpc])) rfl
      ⟨rfl, hlocal.2.1, hlocal.2.2⟩ (by rw [hlocal.1]; exact ⟨rfl, rfl⟩)
  | passInitial hpc hall =>
    simp only [LocalOk, hpc] at hlocal
    refine h.tick rfl rfl rfl rfl rfl hall ⟨Or.inl hlocal.1, hlocal.2.1, hlocal.2.2, ?_⟩
    intro hzero
    exact absurd hzero (Nat.pos_iff_ne_zero.mp hlocal.2.2)
  | passCounted hpc hall =>
    simp only [LocalOk, hpc] at hlocal
    exact h.tick rfl rfl rfl rfl rfl hall hlocal
  | passChecked hpc hall =>
    simp only [LocalOk, hpc] at hlocal
    exact h.tick rfl rfl rfl rfl rfl hall
      ⟨hlocal.1, hlocal.2.2, fun q hq => absurd (Finset.mem_univ q) hq⟩
  | passVoted hpc hall =>
    simp only [LocalOk, hpc] at hlocal
    refine h.tick rfl rfl rfl rfl rfl hall ⟨hlocal.1, hlocal.2.1, hlocal.2.2.1, ?_⟩
    simp [hlocal.2.2.2]
  | passFinal hpc hall hdrop =>
    simp only [LocalOk, hpc] at hlocal
    exact h.tick rfl rfl rfl rfl rfl hall hlocal
  | returnFinal hpc hall hconv =>
    simp only [LocalOk, hpc] at hlocal
    exact h.ending rfl rfl rfl rfl rfl hall hlocal.1 hlocal.2
  | putRef q todo hpc hq hdiff =>
    simp only [LocalOk, hpc] at hlocal
    exact h.tick rfl rfl rfl rfl rfl (hpassed (by simp [hpc]))
      ⟨hlocal.1, hlocal.2.1, hlocal.2.2.1, fun _ => rfl⟩
  | enterCounted hpc =>
    simp only [LocalOk, hpc] at hlocal
    refine h.entering rfl rfl rfl (Function.update_eq_self p s.calls).symm rfl
      (hpassed (by simp [hpc])) rfl ⟨rfl, hlocal.2⟩ ?_
    rcases hlocal.1 with hb | ⟨hb, hagain⟩
    · rw [hb]
      exact ⟨rfl, rfl⟩
    · rw [hb]
      exact ⟨rfl, Or.inl ⟨rfl, hagain⟩⟩
  | checkLocal hpc | checkDist hpc | checkRef _ _ _ hpc =>
    simp only [LocalOk, hpc] at hlocal
    refine h.tick rfl rfl rfl rfl rfl (hpassed (by simp [hpc]))
      ⟨hlocal.1, hlocal.2.1, hlocal.2.2.1, fun hzero => ?_⟩
    simp [Task.flag, hlocal.2.2.2 hzero]
  | enterChecked sum hpc =>
    simp only [LocalOk, hpc] at hlocal
    obtain ⟨hb, hsent, hold, hzero⟩ := hlocal
    have hready : (t.flag (sum ≠ t.oldDistCnt)).resetId.IdReady := by
      unfold Task.resetId
      split
      · rename_i hflag
        exact ⟨hold, iff_of_true rfl hflag⟩
      · rename_i hflag
        refine ⟨hold, iff_of_false (fun hid => hflag ?_) hflag⟩
        simp [Task.flag, hzero hid]
    exact h.entering rfl rfl rfl (Function.update_eq_self p s.calls).symm rfl
      (hpassed (by simp [hpc])) rfl ⟨rfl, hsent, hready⟩ (by rw [hb]; exact ⟨rfl, rfl⟩)
  | putId q todo hpc hq => exact h.putId ht hpc
  | enterVoted hpc =>
    simp only [LocalOk, hpc] at hlocal
    obtain ⟨hb, ⟨hold, hready⟩, hput⟩ := hlocal
    have hids : ∀ q, s.modeBarriers q p = t.barrierId := fun q => hput q (by simp)
    refine h.entering rfl rfl rfl (Function.update_eq_self p s.calls).symm rfl
      (hpassed (by simp [hpc])) rfl ⟨rfl, fun q => ?_, hold, ?_⟩ (by rw [hb]; exact ⟨rfl, rfl⟩)
    · rw [hids q, hids p]
    · rw [hids p]
      exact hready
  | readId q todo hpc hq =>
    simp only [LocalOk, hpc] at hlocal
    obtain ⟨hb, hsent, hold, hflag⟩ := hlocal
    refine h.tick rfl rfl rfl rfl rfl (hpassed (by simp [hpc])) ⟨hb, hsent, hold, ?_⟩
    have hmem : ∀ r, r ∉ todo.erase q ↔ r ∉ todo ∨ r = q := by
      intro r
      rw [Finset.mem_erase, not_and_or, not_not, or_comm]
    simp only [Task.flag, Bool.or_eq_true, decide_eq_true_eq, hflag, hmem]
    constructor
    · rintro ((hself | ⟨r, hr, hzero⟩) | hzero)
      · exact Or.inl hself
      · exact Or.inr ⟨r, Or.inl hr, hzero⟩
      · exact Or.inr ⟨q, Or.inr rfl, hzero⟩
    · rintro (hself | ⟨r, hr | rfl, hzero⟩)
      · exact Or.inl (Or.inl hself)
      · exact Or.inl (Or.inr ⟨r, hr, hzero⟩)
      · exact Or.inr hzero
  | loop hpc hflag =>
    have hagain := (h.votedAgain_iff ht hpc).mp hflag
    simp only [LocalOk, hpc] at hlocal
    refine h.tick rfl rfl rfl rfl rfl (hpassed (by simp [hpc]))
      ⟨Or.inr ⟨hlocal.1, hagain⟩, hlocal.2.1, Nat.succ_pos _, fun hzero => ?_⟩
    exact absurd hzero (Nat.succ_ne_zero _)
  | exit hpc hflag =>
    have hagain : ¬ VotedAgain s.modeBarriers := by
      rw [← h.votedAgain_iff ht hpc, hflag]
      decide
    simp only [LocalOk, hpc] at hlocal
    exact h.tick rfl rfl rfl rfl rfl (hpassed (by simp [hpc])) ⟨hlocal.1, hlocal.2.1, hagain⟩
  | spin hpc =>
    have hsame : (s.sendFinished p).task = Function.update s.task p (some t) := by
      rw [← ht, Function.update_eq_self]
      rfl
    refine h.tick hsame rfl rfl rfl rfl (hpassed ?_) hlocal
    rcases hpc with ⟨todo, hpc⟩ | ⟨todo, hpc⟩ | hpc
    all_goals simp [hpc]
  | enterFinal hpc =>
    simp only [LocalOk, hpc] at hlocal
    exact h.entering rfl rfl rfl (Function.update_eq_self p s.calls).symm rfl
      (hpassed (by simp [hpc])) rfl ⟨rfl, hlocal.2.1⟩
      (by rw [hlocal.1]; exact ⟨rfl, Or.inr ⟨rfl, hlocal.2.2⟩⟩)
  | soloReturn hpc hconv =>
    simp only [LocalOk, hpc] at hlocal
    exact h.ending rfl rfl rfl rfl rfl (hpassed (by simp [hpc])) hlocal.1 hlocal.2
  -- Nothing that the rounds are about
  | localTest hpc | sendFinished hpc | readRef _ _ hpc | readLocal hpc | readDist hpc
  | keepRef _ _ hpc | storeMode hpc | putMode _ _ hpc | modesPut hpc | waitMode _ _ hpc
  | waitDropped _ _ hpc | allDropped hpc | invalidate hpc | waitDist hpc | waitLocal hpc
  | retry hpc | dropItem hpc | waitWeak hpc | free hpc | soloTest hpc | soloStore hpc =>
    simp only [LocalOk, hpc] at hlocal
    exact h.tick rfl rfl rfl rfl rfl (hpassed (by simp [hpc])) hlocal

/-- A new task. -/
theorem starting (h : Aligned s) {m : DarcMode} (htask : s.task p = none)
    (htask' : s'.task = Function.update s.task p (some (Task.new m)))
    (hentered : s'.entered = s.entered) (hlast : s'.lastBarrier = s.lastBarrier)
    (hcalls : s'.calls = s.calls) (hids : s'.modeBarriers = s.modeBarriers) : Aligned s' := by
  obtain ⟨hfinal, hsent⟩ := h.idle p htask
  have hidle : ¬ Waiting s p := by
    rintro ⟨t, b, ht, _⟩
    rw [htask] at ht
    cases ht
  exact h.tick htask' hentered hlast hcalls hids (h.passed p hidle)
    ⟨hfinal, hsent, Nat.one_pos⟩

theorem opStep (h : Aligned s) {a : Action P} (hs : OpStep s a s') : Aligned s' := by
  obtain ⟨_, hids, hentered, hlast, hcalls⟩ := opStep_frame hs
  rcases opStep_task hs with htask | ⟨p, m, hnone, htask⟩
  · constructor
    · rw [htask, hlast, hids]
      exact h.idle
    · rw [htask, hlast, hids]
      exact h.busy
    · rw [hentered]
      simp only [Waiting, htask]
      exact h.passed
    · rw [hentered]
      exact h.near
    · rw [hentered, hlast, hcalls]
      exact h.same
    · rw [hentered, hlast, hcalls, hids]
      exact h.next
  · exact h.starting hnone htask hentered hlast hcalls hids

theorem step (h : Aligned s) (ho : Owned s) {a : Action P} (ha : StartsAlone s a)
    (hs : s.step a = some s') : Aligned s' := by
  rcases ho.single.cases ha hs with hop | ⟨p, q, t, _, ht, htask⟩
  · exact h.opStep hop
  · exact h.taskStep ht htask

theorem init (hs : Initial s) : Aligned s := by
  obtain ⟨mode, garbage, _, rfl⟩ := hs
  constructor
  · exact fun p _ => ⟨rfl, fun q => rfl⟩
  · intro p t ht
    cases ht
  · exact fun p _ q => Nat.le_refl 0
  · exact fun p q => Nat.zero_le _
  · exact fun p q _ => ⟨rfl, rfl⟩
  · intro p q hq
    cases hq

end Aligned

end Lamellar.Darc
