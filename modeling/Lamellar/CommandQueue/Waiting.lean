import Lamellar.CommandQueue.Sound

/-!
# Who sends what is left

A task returns once it has sent a buffer, or when another task waits for this destination.
What is left in the buffers then is for the tasks that have not returned: there are as many
of them as buffers with commands (`Guard.enough`), and the waiting flag is only set while one
of them waits (`Guard.waiter`). With two buffers a task that could not send leaves at most
one of them behind (`Guard.few`).

This needs that the exchange of the flag fails only if the flag is set. The code uses
`compare_exchange_weak` without a loop, which may fail for no reason.
-/

namespace Lamellar.CommandQueue

variable {P : ℕ} {cfg : Config P} {p d : Fin P} {l : Link} {m : CmdMsgBuffer}

/-! ## Buffers that are left -/

/-- The buffers with commands that have not been sent. -/
def CmdMsgBuffer.unsent (m : CmdMsgBuffer) : ℕ := m.filling.countP fun b => 0 < b.index

theorem Placed.unsent_takeCur (h : Placed cfg p d m) : m.takeCur.unsent = m.unsent := by
  rcases takeCur_cases (m := m) with heq | ⟨b, rest, hcur, hempty, heq⟩
  · rw [heq]
  · have hzero := h.empty b (by simp [hempty])
    simp [heq, CmdMsgBuffer.unsent, CmdMsgBuffer.filling, hcur, hzero]

theorem unsent_putCur (cfg : Config P) (m : CmdMsgBuffer) (b : CmdBuf) :
    (m.putCur cfg.cmdBufLen b.next).unsent ≤ m.unsent + 1 := by
  have hperm : (m.putCur cfg.cmdBufLen b.next).filling.Perm (b.next :: m.fullBufs) :=
    putCur_filling
  have hcount := hperm.countP_eq fun b : CmdBuf => decide (0 < b.index)
  rw [CmdMsgBuffer.unsent, hcount, List.countP_cons]
  simp only [CmdMsgBuffer.unsent, CmdMsgBuffer.filling, List.countP_append]
  split <;> omega

theorem unsent_takeFlush {m' : CmdMsgBuffer} {b : CmdBuf} (h : m.takeFlush = some (b, m'))
    (hpos : 0 < b.index) : m.unsent = m'.unsent + 1 := by
  have hcount := (takeFlush_cases h).1.countP_eq fun b : CmdBuf => decide (0 < b.index)
  rw [CmdMsgBuffer.unsent, CmdMsgBuffer.unsent, hcount, List.countP_cons]
  simp [hpos]

theorem unsent_of_takeFlush_none (h : m.takeFlush = none) : m.unsent = 0 := by
  simp only [CmdMsgBuffer.takeFlush] at h
  split at h
  · cases h
  · rename_i hfull
    simp [CmdMsgBuffer.unsent, CmdMsgBuffer.filling, hfull, Option.map_eq_none_iff.mp h]

theorem unsent_le_one (h : m.fullBufs = []) : m.unsent ≤ 1 := by
  refine le_trans List.countP_le_length ?_
  cases hcur : m.curBuf <;> simp [CmdMsgBuffer.filling, h, hcur]

theorem Placed.length_all (h : Placed cfg p d m) : m.emptyBufs.length + (m.filling.length +
    (m.txBufs.length + m.waitingBufs.length)) = (cfg.addrs p d).length := by
  have hlen := h.addrs.length_eq
  simpa [CmdMsgBuffer.all, CmdMsgBuffer.used, CmdMsgBuffer.inFlight] using hlen

/-- Of two buffers at most one is left while the other one is in `tx_bufs`. -/
theorem Placed.unsent_of_tx (h : Placed cfg p d m) (htwo : (cfg.addrs p d).length = 2)
    (htx : m.txBufs ≠ []) : m.unsent ≤ 1 := by
  have hlen := h.length_all
  have hpos := List.length_pos_iff.mpr htx
  have hle : m.unsent ≤ m.filling.length := List.countP_le_length
  omega

theorem Placed.unsent_of_empty (h : Placed cfg p d m) (hnum : m.numBufs = (cfg.addrs p d).length)
    (hempty : m.empty = true) : m.unsent = 0 := by
  have hlen := h.length_all
  have hle : m.unsent ≤ m.filling.length := List.countP_le_length
  have heq : m.emptyBufs.length = m.numBufs := by simpa [CmdMsgBuffer.empty] using hempty
  omega

/-! ## Tasks that have not returned -/

/-- A task that has pushed a command for the link and has not returned. -/
def Alive (tasks : List Task) (cores : List (Core P)) (p d : Fin P) (k : ℕ) : Prop :=
  ∃ (c : Core P) (task : Task), cores[k]? = some c ∧ tasks[k]? = some task ∧ c.pe = p ∧
    c.dst = d ∧ c.pushed = true ∧ task.pc ≠ .returned ∧ task.pc ≠ .panicked

/-- One task more than buffers is needed before the holder of the lock returns. -/
def spare : Option Crit → ℕ
  | some (.sent (.second _) true) => 1
  | _ => 0

structure Guard (tasks : List Task) (cores : List (Core P)) (p d : Fin P) (l : Link) :
    Prop where
  behind : ∀ (k : ℕ) (c : Core P) (task : Task), cores[k]? = some c → c.pe = p → c.dst = d →
    tasks[k]? = some task → task.pc = .loop2 ∨ task.pc = .lock2 → c.pushed = true
  holder : ∀ (x : Crit) (k : ℕ) (c : Core P), l.crit = some x → x.task = some k →
    x.first = false → cores[k]? = some c → c.pe = p → c.dst = d → c.pushed = true
  enough : ∃ A : Finset ℕ, (∀ k ∈ A, Alive tasks cores p d k) ∧
    l.cmdBuffer.unsent + spare l.crit ≤ A.card
  waiter : l.sendWaiting = true → ∃ k task, Alive tasks cores p d k ∧
    tasks[k]? = some task ∧ task.imWaiting = true
  few : ∀ h, l.crit = some (.sent h false) → l.cmdBuffer.unsent ≤ 1
  kind : l.sendSlot.cmd = .clear ∨ l.sendSlot.cmd = .tx

section

variable {tasks tasks' : List Task} {cores cores' : List (Core P)} {k : ℕ} {c : Core P}
  {task : Task} {f : Task → Task} {g : Core P → Core P}

/-- The task of call `k` goes on, and another task stays as it is. -/
theorem Alive.modify_of_ne {k' : ℕ} (h : Alive tasks cores p d k') (hk : k ≠ k') :
    Alive (tasks.modify k f) (cores.modify k g) p d k' := by
  obtain ⟨c', task', hc, htask, hrest⟩ := h
  exact ⟨c', task', by rw [Roster.modify_of_ne hk, hc], by rw [Roster.modify_of_ne hk, htask],
    hrest⟩

theorem Alive.modify (hc : cores[k]? = some c) (htask : tasks[k]? = some task)
    (hpe : (g c).pe = p) (hdst : (g c).dst = d) (hpushed : (g c).pushed = true)
    (hreturned : (f task).pc ≠ .returned) (hpanicked : (f task).pc ≠ .panicked) :
    Alive (tasks.modify k f) (cores.modify k g) p d k :=
  ⟨g c, f task, Roster.modify_self hc, Roster.modify_self htask, hpe, hdst, hpushed, hreturned,
    hpanicked⟩

/-- The tasks of the link are the same, up to new ones. -/
structure SameTasks (p d : Fin P) (tasks tasks' : List Task) (cores cores' : List (Core P)) :
    Prop where
  old : ∀ (k : ℕ) (c : Core P), cores[k]? = some c → c.pe = p → c.dst = d →
    cores'[k]? = some c ∧ tasks'[k]? = tasks[k]?
  new : ∀ (k : ℕ) (c : Core P), cores'[k]? = some c → c.pe = p → c.dst = d →
    cores[k]? = some c ∧ tasks'[k]? = tasks[k]? ∨ tasks'[k]? = some ⟨.start, false⟩ ∧
      cores[k]? = none

theorem Alive.same {k : ℕ} (h : Alive tasks cores p d k)
    (hsame : SameTasks p d tasks tasks' cores cores') : Alive tasks' cores' p d k := by
  obtain ⟨c, task, hc, htask, hpe, hdst, hrest⟩ := h
  obtain ⟨hc', htask'⟩ := hsame.old k c hc hpe hdst
  exact ⟨c, task, hc', by rw [htask', htask], hpe, hdst, hrest⟩

theorem Guard.same (h : Guard tasks cores p d l)
    (hsame : SameTasks p d tasks tasks' cores cores')
    (hholder : ∀ x k, l.crit = some x → x.task = some k → (cores[k]?).isSome) :
    Guard tasks' cores' p d l where
  behind := by
    intro k c task hc hpe hdst htask hpc
    rcases hsame.new k c hc hpe hdst with ⟨hc₀, htask₀⟩ | ⟨hnew, -⟩
    · exact h.behind k c task hc₀ hpe hdst (by rw [← htask₀, htask]) hpc
    · rw [hnew] at htask
      cases htask
      rcases hpc with hpc | hpc <;> cases hpc
  holder := by
    intro x k c hx hk hfirst hc hpe hdst
    rcases hsame.new k c hc hpe hdst with ⟨hc₀, -⟩ | ⟨-, hnone⟩
    · exact h.holder x k c hx hk hfirst hc₀ hpe hdst
    · have hsome := hholder x k hx hk
      rw [hnone] at hsome
      cases hsome
  enough := by
    obtain ⟨A, hA, hcard⟩ := h.enough
    exact ⟨A, fun k hk => (hA k hk).same hsame, hcard⟩
  waiter := by
    intro hwait
    obtain ⟨k, task, halive, htask, him⟩ := h.waiter hwait
    obtain ⟨c, -, hc, -, hpe, hdst, -⟩ := id halive
    exact ⟨k, task, halive.same hsame, by rw [(hsame.old k c hc hpe hdst).2, htask], him⟩
  few := h.few
  kind := h.kind

/-- The task of another link goes on. -/
theorem SameTasks.modify (hc : cores[k]? = some c) (hne : ¬ (c.pe = p ∧ c.dst = d))
    (hpe : (g c).pe = c.pe) (hdst : (g c).dst = c.dst) :
    SameTasks p d tasks (tasks.modify k f) cores (cores.modify k g) := by
  have hother : ∀ (k' : ℕ) (c' : Core P), cores[k']? = some c' → c'.pe = p → c'.dst = d →
      k ≠ k' := by
    rintro k' c' hc' hpe' hdst' rfl
    rw [hc] at hc'
    cases hc'
    exact hne ⟨hpe', hdst'⟩
  constructor
  case old =>
    intro k' c' hc' hpe' hdst'
    have hk := hother k' c' hc' hpe' hdst'
    exact ⟨by rw [Roster.modify_of_ne hk, hc'], Roster.modify_of_ne hk⟩
  case new =>
    intro k' c' hc' hpe' hdst'
    by_cases hk : k = k'
    · subst hk
      rw [Roster.modify_self hc] at hc'
      cases hc'
      exact absurd ⟨hpe.symm.trans hpe', hdst.symm.trans hdst'⟩ hne
    · rw [Roster.modify_of_ne hk] at hc'
      exact Or.inl ⟨hc', Roster.modify_of_ne hk⟩

/-- A task of the link goes on, and the link changes with it. -/
theorem Guard.update {l' : Link} (h : Guard tasks cores p d l) (hc : cores[k]? = some c)
    (htask : tasks[k]? = some task)
    (hbehind : (f task).pc = .loop2 ∨ (f task).pc = .lock2 → (g c).pushed = true)
    (hholder : ∀ x, l'.crit = some x →
      x.task = some k ∧ (x.first = false → (g c).pushed = true) ∨
        x.task ≠ some k ∧ l.crit = some x)
    (henough : ∃ A : Finset ℕ, (∀ k' ∈ A, Alive (tasks.modify k f) (cores.modify k g) p d k') ∧
      l'.cmdBuffer.unsent + spare l'.crit ≤ A.card)
    (hwaiter : l'.sendWaiting = true → ∃ k' task', Alive (tasks.modify k f) (cores.modify k g)
      p d k' ∧ (tasks.modify k f)[k']? = some task' ∧ task'.imWaiting = true)
    (hfew : ∀ hd, l'.crit = some (.sent hd false) → l'.cmdBuffer.unsent ≤ 1)
    (hslot : l'.sendSlot = l.sendSlot) :
    Guard (tasks.modify k f) (cores.modify k g) p d l' where
  behind := by
    intro k' c' task' hc' hpe hdst htask' hpc
    by_cases hk : k = k'
    · subst hk
      rw [Roster.modify_self hc] at hc'
      rw [Roster.modify_self htask] at htask'
      cases hc'
      cases htask'
      exact hbehind hpc
    · rw [Roster.modify_of_ne hk] at hc' htask'
      exact h.behind k' c' task' hc' hpe hdst htask' hpc
  holder := by
    intro x k' c' hx hk' hfirst hc' hpe hdst
    rcases hholder x hx with ⟨hself, hpushed⟩ | ⟨hother, hold⟩
    · obtain rfl : k = k' := by simpa [hself] using hk'
      rw [Roster.modify_self hc] at hc'
      cases hc'
      exact hpushed hfirst
    · have hk : k ≠ k' := by
        rintro rfl
        exact hother hk'
      rw [Roster.modify_of_ne hk] at hc'
      exact h.holder x k' c' hold hk' hfirst hc' hpe hdst
  enough := henough
  waiter := hwaiter
  few := hfew
  kind := hslot ▸ h.kind

/-- The task of call `k` goes on and does not return. -/
theorem Alive.keep {k' : ℕ} (h : Alive tasks cores p d k')
    (hg : ∀ c : Core P, (g c).pe = c.pe ∧ (g c).dst = c.dst ∧
      (c.pushed = true → (g c).pushed = true))
    (hf : ∀ task, (f task).pc ≠ .returned ∧ (f task).pc ≠ .panicked) :
    Alive (tasks.modify k f) (cores.modify k g) p d k' := by
  by_cases hk : k = k'
  · subst hk
    obtain ⟨c, task, hc, htask, hpe, hdst, hpushed, -⟩ := h
    obtain ⟨hpe', hdst', hpushed'⟩ := hg c
    exact Alive.modify hc htask (hpe'.trans hpe) (hdst'.trans hdst) (hpushed' hpushed)
      (hf task).1 (hf task).2
  · exact h.modify_of_ne hk

theorem Guard.advance {l' : Link} (h : Guard tasks cores p d l) (hc : cores[k]? = some c)
    (htask : tasks[k]? = some task)
    (hg : ∀ c : Core P, (g c).pe = c.pe ∧ (g c).dst = c.dst ∧
      (c.pushed = true → (g c).pushed = true))
    (hf : ∀ task, (f task).pc ≠ .returned ∧ (f task).pc ≠ .panicked)
    (him : ∀ task, task.imWaiting = true → (f task).imWaiting = true)
    (hbehind : (f task).pc = .loop2 ∨ (f task).pc = .lock2 → (g c).pushed = true)
    (hholder : ∀ x, l'.crit = some x →
      x.task = some k ∧ (x.first = false → (g c).pushed = true) ∨
        x.task ≠ some k ∧ l.crit = some x)
    (hunsent : l'.cmdBuffer.unsent + spare l'.crit ≤ l.cmdBuffer.unsent + spare l.crit)
    (hwait : l'.sendWaiting = l.sendWaiting)
    (hfew : ∀ hd, l'.crit = some (.sent hd false) → l'.cmdBuffer.unsent ≤ 1)
    (hslot : l'.sendSlot = l.sendSlot) :
    Guard (tasks.modify k f) (cores.modify k g) p d l' := by
  refine h.update hc htask hbehind hholder ?_ ?_ hfew hslot
  · obtain ⟨A, hA, hcard⟩ := h.enough
    exact ⟨A, fun k' hk' => (hA k' hk').keep hg hf, hunsent.trans hcard⟩
  · intro hset
    obtain ⟨k', task', halive, htask', hwaiting⟩ := h.waiter (hwait ▸ hset)
    by_cases hk : k = k'
    · subst hk
      exact ⟨k, f task', halive.keep hg hf, Roster.modify_self htask', him task' hwaiting⟩
    · exact ⟨k', task', halive.keep hg hf, by rw [Roster.modify_of_ne hk, htask'], hwaiting⟩

/-- The task of call `k` returns. What is left is for `n` others. -/
theorem Alive.others {n : ℕ} (h : ∃ A : Finset ℕ, (∀ k' ∈ A, Alive tasks cores p d k') ∧
    n + 1 ≤ A.card) :
    ∃ A : Finset ℕ, (∀ k' ∈ A, Alive (tasks.modify k f) (cores.modify k g) p d k') ∧
      n ≤ A.card := by
  obtain ⟨A, hA, hcard⟩ := h
  refine ⟨A.erase k, fun k' hk' => ?_, ?_⟩
  · obtain ⟨hne, hmem⟩ := Finset.mem_erase.mp hk'
    exact (hA k' hmem).modify_of_ne hne.symm
  · have hle := Finset.pred_card_le_card_erase (s := A) (a := k)
    omega

end

/-! ## Steps -/

/-- The runs in question: no `Print` and no panic. -/
def Action.Calm : Action P → Prop
  | .print .. => False
  | .status _ new => new ≠ .panic
  | _ => True

/-- The exchange of the waiting flag does not fail while the flag is clear. -/
def Action.Strong : Action P → Prop
  | .exchange _ _ weak => weak = false
  | _ => True

instance : (a : Action P) → Decidable a.Calm
  | .print .. => isFalse id
  | .status _ new => inferInstanceAs (Decidable (new ≠ .panic))
  | .send .. | .task .. | .crit .. | .transfer .. | .exchange .. | .checkTransfers .. | .poll ..
  | .fetch .. | .cmd .. | .deliverSlot .. | .deliverState .. | .hold .. | .drop .. =>
    isTrue trivial

instance : (a : Action P) → Decidable a.Strong
  | .exchange _ _ weak => inferInstanceAs (Decidable (weak = false))
  | .send .. | .task .. | .crit .. | .transfer .. | .checkTransfers .. | .poll .. | .fetch ..
  | .cmd .. | .print .. | .deliverSlot .. | .deliverState .. | .status .. | .hold .. | .drop .. =>
    isTrue trivial

structure State.Watched (s : State P) : Prop where
  active : ∀ p, s.active p ≠ .panic
  guard : ∀ p d, Guard s.tasks (s.sends.map Send.core) p d (s.links p d)

namespace State.Watched

variable {s s' : State P} {k : ℕ} {c : Core P} {task : Task} {f : Task → Task}
  {g : Core P → Core P}

/-- A link changes, and no task goes on outside of it. -/
theorem setLink (h : s.Watched) (hl : Guard s.tasks (s.sends.map Send.core) p d l) :
    (s.setLink p d l).Watched where
  active := h.active
  guard := by
    intro p' d'
    rw [State.links_setLink]
    split
    · rename_i heq
      rw [heq.1, heq.2]
      exact hl
    · exact h.guard p' d'

/-- The calls count something else. -/
theorem setSend {f : Send P → Send P} (h : s.Watched) (hf : ∀ t, (f t).core = t.core) :
    (s.setSend k f).Watched where
  active := h.active
  guard := by
    intro p' d'
    have hcores : (s.setSend k f).sends.map Send.core = s.sends.map Send.core :=
      State.map_core_same hf
    rw [hcores]
    exact h.guard p' d'

/-- A task goes on, and its link changes with it. -/
theorem update (h : s.Watched) (htasks : s.TaskOk) (hc : (s.sends.map Send.core)[k]? = some c)
    (hpe : c.pe = p) (hdst : c.dst = d) (hg : ∀ c : Core P, (g c).pe = c.pe ∧ (g c).dst = c.dst)
    (htask' : s'.tasks = s.tasks.modify k f)
    (hcores' : s'.sends.map Send.core = (s.sends.map Send.core).modify k g)
    (hlinks' : s'.links = (s.setLink p d l).links) (hactive' : s'.active = s.active)
    (hown : Guard (s.tasks.modify k f) ((s.sends.map Send.core).modify k g) p d l) :
    s'.Watched where
  active := by
    rw [hactive']
    exact h.active
  guard := by
    intro p' d'
    rw [htask', hcores', hlinks', State.links_setLink]
    split
    · rename_i heq
      rw [heq.1, heq.2]
      exact hown
    · rename_i hne
      refine (h.guard p' d').same (SameTasks.modify hc ?_ (hg c).1 (hg c).2) ?_
      · rintro ⟨hpe', hdst'⟩
        exact hne ⟨hpe'.symm.trans hpe, hdst'.symm.trans hdst⟩
      · intro x k' hx hk'
        obtain ⟨c', -, hc', -⟩ := TaskInv.holder htasks p' d' x k' hx hk'
        rw [hc']
        rfl

theorem same_core (c : Core P) : (id c).pe = c.pe ∧ (id c).dst = c.dst ∧
    (c.pushed = true → (id c).pushed = true) :=
  ⟨rfl, rfl, fun h => h⟩

/-- A task outside the lock goes on. -/
theorem goto {pc : SendPc} {t : Send P} (h : s.Watched) (htasks : s.TaskOk)
    (ht : s.sends[k]? = some t) (htask : s.tasks[k]? = some task)
    (hinside : task.pc ≠ .inside) (hpc : pc ≠ .returned ∧ pc ≠ .panicked)
    (hbehind : pc = .loop2 ∨ pc = .lock2 → t.pushed = true) : (s.goto k pc).Watched := by
  have hc := State.core_of_send ht
  refine h.update (g := id) (p := t.pe) (d := t.dst) (l := s.links t.pe t.dst) htasks hc rfl rfl
    (fun c => ⟨rfl, rfl⟩) rfl (List.modify_id _ _).symm ?_ rfl ?_
  · show s.links = _
    rw [State.setLink_self]
  · exact (h.guard t.pe t.dst).advance hc htask same_core (fun _ => hpc) (fun _ him => him) hbehind
      (fun x hx => Or.inr ⟨TaskInv.not_holder htasks htask hinside hx, hx⟩) le_rfl rfl
      (h.guard t.pe t.dst).few rfl

/-- A task takes the lock. -/
theorem acquire {t : Send P} {x : Crit} (h : s.Watched) (htasks : s.TaskOk)
    (ht : s.sends[k]? = some t) (htask : s.tasks[k]? = some task) (hx : x.task = some k)
    (hpushed : x.first = false → t.pushed = true) (hspare : spare (some x) = 0)
    (hfew : ∀ hd, x ≠ .sent hd false) :
    ((s.setCrit t.pe t.dst (some x)).goto k .inside).Watched := by
  have hc := State.core_of_send ht
  refine h.update (g := id) (p := t.pe) (d := t.dst) htasks hc rfl rfl (fun c => ⟨rfl, rfl⟩) rfl
    (List.modify_id _ _).symm rfl rfl ?_
  refine (h.guard t.pe t.dst).advance hc htask same_core (fun _ => ⟨by simp, by simp⟩)
    (fun _ him => him) (by simp) ?_ ?_ rfl ?_ rfl
  · rintro y ⟨rfl⟩
    exact Or.inl ⟨hx, hpushed⟩
  · rw [hspare]
    exact Nat.le_add_right _ _
  · rintro hd ⟨rfl⟩
    exact absurd rfl (hfew hd)

/-- The holder of the lock gives it back and goes on. -/
theorem release {x : Crit} {pc : SendPc} (h : s.Watched) (htasks : s.TaskOk)
    (hx : (s.links p d).crit = some x) (hk : x.task = some k)
    (hpc : pc ≠ .returned ∧ pc ≠ .panicked)
    (hbehind : pc = .loop2 ∨ pc = .lock2 → x.first = false) :
    ((s.setCrit p d none).goto k pc).Watched := by
  obtain ⟨c, task, hc, htask, hpe, hdst, -⟩ := TaskInv.holder htasks p d x k hx hk
  refine h.update (g := id) htasks hc hpe hdst (fun c => ⟨rfl, rfl⟩) rfl
    (List.modify_id _ _).symm rfl rfl ?_
  refine (h.guard p d).advance hc htask same_core (fun _ => hpc) (fun _ him => him) ?_ (by simp)
    (Nat.add_le_add_left (Nat.zero_le _) _) rfl (by simp) rfl
  exact fun hnext => (h.guard p d).holder x k c hx hk (hbehind hnext) hc hpe hdst

/-- The holder of the lock returns, and enough others are left. -/
theorem leave {x : Crit} {sendWaiting : Bool} (h : s.Watched) (htasks : s.TaskOk)
    (hx : (s.links p d).crit = some x) (hk : x.task = some k)
    (henough : ∃ A : Finset ℕ,
      (∀ k' ∈ A, Alive (s.tasks.modify k fun t => { t with pc := .returned })
        ((s.sends.map Send.core).modify k id) p d k') ∧
      (s.links p d).cmdBuffer.unsent ≤ A.card)
    (hwait : sendWaiting = true → ∃ k' task', k ≠ k' ∧
      Alive s.tasks (s.sends.map Send.core) p d k' ∧ s.tasks[k']? = some task' ∧
        task'.imWaiting = true) :
    ((s.setLink p d { s.links p d with sendWaiting, crit := none }).goto k
      .returned).Watched := by
  obtain ⟨c, task, hc, htask, hpe, hdst, -⟩ := TaskInv.holder htasks p d x k hx hk
  refine h.update (g := id) htasks hc hpe hdst (fun c => ⟨rfl, rfl⟩) rfl
    (List.modify_id _ _).symm rfl rfl ?_
  refine (h.guard p d).update hc htask (by simp) (by simp) henough ?_ (by simp) rfl
  intro hset
  obtain ⟨k', task', hne, halive, htask', him⟩ := hwait hset
  exact ⟨k', task', halive.modify_of_ne hne, by rw [Roster.modify_of_ne hne, htask'], him⟩

theorem start {t : Send P} (h : s.Watched) (htasks : s.TaskOk) (ht : s.sends[k]? = some t)
    (htask : s.tasks[k]? = some task) (hpc : task.pc = .start) :
    (({ s with
        pendingCmds := Function.update s.pendingCmds t.pe (s.pendingCmds t.pe + 1) }.setSend
      k fun t => { t with pending := true }).goto k .loop1).Watched := by
  have hc := State.core_of_send ht
  refine h.update (g := fun c => { c with pending := true }) (p := t.pe) (d := t.dst)
    (l := s.links t.pe t.dst) htasks hc rfl rfl (fun c => ⟨rfl, rfl⟩) rfl
    (map_core_modify fun _ => rfl) ?_ rfl ?_
  · show s.links = _
    rw [State.setLink_self]
  · exact (h.guard t.pe t.dst).advance hc htask (fun c => ⟨rfl, rfl, fun h => h⟩)
      (fun _ => ⟨by simp, by simp⟩) (fun _ him => him) (by simp)
      (fun x hx => Or.inr ⟨TaskInv.not_holder htasks htask (by simp [hpc]) hx, hx⟩) le_rfl rfl
      (h.guard t.pe t.dst).few rfl

/-- `try_push` adds the command, and its task is one more. -/
theorem push {t : Send P} {mem : Mem} {m : CmdMsgBuffer} (h : s.Watched) (htasks : s.TaskOk)
    (hsound : s.SoundLinks cfg) (hcrit : (s.links p d).crit = some (.push k))
    (hpush : (s.links p d).cmdBuffer.tryPush cfg.cmdBufLen (s.links p d).mem t.addr t.len
      t.hash k = .pushed mem m) :
    ((s.setLink p d { s.links p d with mem, cmdBuffer := m, crit := some (.pushed k) }).setSend
      k fun t => { t with pushed := true }).Watched := by
  obtain ⟨c, task, hc, htask, hpe, hdst, hinside, hfirst⟩ :=
    TaskInv.holder htasks p d (.push k) k hcrit rfl
  obtain ⟨b, -, -, heq⟩ | ⟨-, heq⟩ | ⟨-, heq⟩ := tryPush_cases cfg.cmdBufLen
    (s.links p d).mem (s.links p d).cmdBuffer t.addr t.len t.hash k
  all_goals
    rw [hpush] at heq
    cases heq
  have hunpushed : c.pushed = false := (hfirst rfl).2
  have hself : Alive (s.tasks.modify k id)
      ((s.sends.map Send.core).modify k fun c => { c with pushed := true }) p d k :=
    Alive.modify hc htask hpe hdst rfl (by simp [hinside]) (by simp [hinside])
  refine h.update (f := id) (g := fun c => { c with pushed := true }) htasks hc hpe hdst
    (fun c => ⟨rfl, rfl⟩) (List.modify_id _ _).symm (map_core_modify fun _ => rfl) rfl rfl ?_
  refine (h.guard p d).update hc htask (by simp) ?_ ?_ ?_ (by simp) rfl
  · rintro x ⟨rfl⟩
    exact Or.inl ⟨rfl, fun _ => rfl⟩
  · obtain ⟨A, hA, hcard⟩ := (h.guard p d).enough
    have hnot : k ∉ A := by
      intro hk
      obtain ⟨c', -, hc', -, -, -, hpushed, -⟩ := hA k hk
      rw [hc] at hc'
      cases hc'
      rw [hunpushed] at hpushed
      cases hpushed
    refine ⟨Finset.cons k A hnot, fun k' hk' => ?_, ?_⟩
    · rcases Finset.mem_cons.mp hk' with rfl | hk'
      · exact hself
      · exact (hA k' hk').modify_of_ne fun heq => hnot (heq ▸ hk')
    · rw [Finset.card_cons]
      have hle := unsent_putCur cfg (s.links p d).cmdBuffer.takeCur b
      rw [(hsound p d).placed.unsent_takeCur] at hle
      have hcard' := (Nat.le_add_right _ _).trans hcard
      show ((s.links p d).cmdBuffer.takeCur.putCur cfg.cmdBufLen b.next).unsent + 0 ≤ A.card + 1
      omega
  · intro hset
    obtain ⟨k', task', halive, htask', him⟩ := (h.guard p d).waiter hset
    by_cases hk : k = k'
    · subst hk
      exact ⟨k, task', hself, by rw [List.modify_id, htask'], him⟩
    · exact ⟨k', task', halive.modify_of_ne hk, by rw [List.modify_id, htask'], him⟩

/-- A task whose `push` panics has pushed nothing. -/
theorem pushPanic {m : CmdMsgBuffer} (h : s.Watched) (htasks : s.TaskOk)
    (hcrit : (s.links p d).crit = some (.push k))
    (hunsent : m.unsent = (s.links p d).cmdBuffer.unsent) :
    ((s.setLink p d { s.links p d with cmdBuffer := m, crit := none }).panicHolder (.first k)
      .push).Watched := by
  obtain ⟨c, task, hc, htask, hpe, hdst, hinside, hfirst⟩ :=
    TaskInv.holder htasks p d (.push k) k hcrit rfl
  have hother : ∀ k', Alive s.tasks (s.sends.map Send.core) p d k' → k ≠ k' := by
    rintro k' ⟨c', -, hc', -, -, -, hpushed, -⟩ rfl
    rw [hc] at hc'
    cases hc'
    rw [show c.pushed = false from (hfirst rfl).2] at hpushed
    cases hpushed
  refine h.update (f := fun t => { t with pc := .panicked }) (g := id) htasks hc hpe hdst
    (fun c => ⟨rfl, rfl⟩) rfl (List.modify_id _ _).symm rfl rfl ?_
  refine (h.guard p d).update hc htask (by simp) (by simp) ?_ ?_ (by simp) rfl
  · obtain ⟨A, hA, hcard⟩ := (h.guard p d).enough
    refine ⟨A, fun k' hk' => (hA k' hk').modify_of_ne (hother k' (hA k' hk')), ?_⟩
    rw [hunsent]
    exact (Nat.add_le_add_left (Nat.zero_le _) _).trans hcard
  · intro hset
    obtain ⟨k', task', halive, htask', him⟩ := (h.guard p d).waiter hset
    have hk := hother k' halive
    exact ⟨k', task', halive.modify_of_ne hk, by rw [Roster.modify_of_ne hk, htask'], him⟩

theorem pushed (h : s.Watched) (htasks : s.TaskOk)
    (hcrit : (s.links p d).crit = some (.pushed k)) :
    (((({ s with
        pendingCmds := Function.update s.pendingCmds p (s.pendingCmds p - 1) }.setCrit p d
      none)).setSend k fun t => { t with pending := false }).goto k .loop2).Watched := by
  obtain ⟨c, task, hc, htask, hpe, hdst, hinside, hfirst⟩ :=
    TaskInv.holder htasks p d (.pushed k) k hcrit rfl
  refine h.update (g := fun c => { c with pending := false }) htasks hc hpe hdst
    (fun c => ⟨rfl, rfl⟩) rfl (map_core_modify fun _ => rfl) rfl rfl ?_
  exact (h.guard p d).advance hc htask (fun c => ⟨rfl, rfl, fun h => h⟩)
    (fun _ => ⟨by simp, by simp⟩) (fun _ him => him) (fun _ => (hfirst rfl).2) (by simp)
    (Nat.add_le_add_left (Nat.zero_le _) _) rfl (by simp) rfl

/-- The holder of the lock sends a buffer, or finds none. -/
theorem flush {hd : Holder} {m : CmdMsgBuffer} {slot : CmdMsg} {puts : List CmdMsg}
    (h : s.Watched) (htasks : s.TaskOk) (hsound : s.SoundLinks cfg)
    (hcrit : (s.links p d).crit = some (.flush hd))
    (hflush : (s.links p d).cmdBuffer.flushBuffer (s.links p d).mem (s.links p d).sendSlot =
      (m, slot)) :
    (s.setLink p d { s.links p d with
      cmdBuffer := m, sendSlot := slot, slotPuts := puts,
      crit := some (.sent hd true) }).Watched := by
  have hguard := h.guard p d
  have hspare : spare (some (.sent hd true)) ≤ 1 := by
    cases hd <;> simp [spare]
  simp only [CmdMsgBuffer.flushBuffer] at hflush
  refine h.setLink {
    behind := hguard.behind
    holder := ?_
    enough := ?_
    waiter := hguard.waiter
    few := by simp
    kind := ?_ }
  · rintro x k' c ⟨rfl⟩ hk' hfirst
    exact hguard.holder (.flush hd) k' c hcrit hk' hfirst
  · split at hflush
    · rename_i b m' htake
      cases hflush
      obtain ⟨A, hA, hcard⟩ := hguard.enough
      refine ⟨A, hA, ?_⟩
      have hunsent := unsent_takeFlush htake ((hsound p d).ready hd hcrit b m' htake)
      have hsame : ({ m' with txBufs := insert b m'.txBufs } : CmdMsgBuffer).unsent =
          m'.unsent := rfl
      have hcard' := (Nat.le_add_right _ _).trans hcard
      show ({ m' with txBufs := insert b m'.txBufs } : CmdMsgBuffer).unsent +
        spare (some (.sent hd true)) ≤ A.card
      omega
    · rename_i htake
      cases hflush
      have hzero := unsent_of_takeFlush_none htake
      show ∃ A : Finset ℕ, _ ∧ (s.links p d).cmdBuffer.unsent + spare (some (.sent hd true)) ≤ _
      rw [hzero, Nat.zero_add]
      cases hd with
      | first k' => exact ⟨∅, by simp, Nat.zero_le _⟩
      | recv => exact ⟨∅, by simp, Nat.zero_le _⟩
      | second k' =>
        -- the holder itself is left
        obtain ⟨c, task, hc, htask, hpe, hdst, hinside, -⟩ :=
          TaskInv.holder htasks p d _ k' hcrit rfl
        have hpushed := hguard.holder (.flush (.second k')) k' c hcrit rfl rfl hc hpe hdst
        refine ⟨{k'}, fun k'' hk'' => ?_, hspare⟩
        rw [Finset.mem_singleton.mp hk'']
        exact ⟨c, task, hc, htask, hpe, hdst, hpushed, by simp [hinside], by simp [hinside]⟩
  · split at hflush
    · cases hflush
      exact Or.inr rfl
    · cases hflush
      exact hguard.kind

/-- The holder of the lock goes on with it. -/
theorem next {x x' : Crit} (h : s.Watched) (hsound : s.SoundLinks cfg)
    (htwo : (cfg.addrs p d).length = 2) (hcrit : (s.links p d).crit = some x)
    (hnext : Crit.Next cfg s p d x x') : (s.setCrit p d (some x')).Watched := by
  have hguard := h.guard p d
  obtain ⟨htask, hfirst, -⟩ := State.Next.same hnext
  have hspare : spare (some x') = 0 := by
    cases hnext with
    | @notSending hd => cases hd <;> rfl
    | @notClear hd => cases hd <;> rfl
    | _ => rfl
  refine h.setLink { hguard with holder := ?_, enough := ?_, few := ?_ }
  · rintro y k' c ⟨rfl⟩ hk' hsecond
    exact hguard.holder x k' c hcrit (htask ▸ hk') (hfirst ▸ hsecond)
  · obtain ⟨A, hA, hcard⟩ := hguard.enough
    refine ⟨A, hA, ?_⟩
    show (s.links p d).cmdBuffer.unsent + spare (some x') ≤ A.card
    rw [hspare]
    exact (Nat.add_le_add_left (Nat.zero_le _) _).trans hcard
  · rintro hd ⟨rfl⟩
    cases hnext with
    | notSending hpending hfull => exact unsent_le_one hfull
    | notClear hslot =>
      -- the slot holds a `Tx`, whose buffer is not given back yet
      refine (hsound p d).placed.unsent_of_tx htwo ?_
      rcases hguard.kind with hkind | hkind
      · exact absurd ((hsound p d).clear hkind) hslot
      · obtain ⟨b, hb, -⟩ := (hsound p d).slot hkind
        exact List.ne_nil_of_mem hb

/-- The link changes, but neither the lock nor the buffers that are left. -/
theorem setLink_same (h : s.Watched) (hcrit : l.crit = (s.links p d).crit)
    (hunsent : l.cmdBuffer.unsent = (s.links p d).cmdBuffer.unsent)
    (hwait : l.sendWaiting = (s.links p d).sendWaiting)
    (hkind : l.sendSlot.cmd = .clear ∨ l.sendSlot.cmd = .tx) : (s.setLink p d l).Watched := by
  have hguard := h.guard p d
  refine h.setLink {
    behind := hguard.behind
    holder := by rw [hcrit]; exact hguard.holder
    enough := by rw [hcrit, hunsent]; exact hguard.enough
    waiter := by rw [hwait]; exact hguard.waiter
    few := by rw [hcrit, hunsent]; exact hguard.few
    kind := hkind }

/-- `recv_data` takes the lock or gives it back, or the holder goes on with it. -/
theorem setLock {crit : Option Crit} {m : CmdMsgBuffer} {slot : CmdMsg} (h : s.Watched)
    (hcrit : ∀ x k, crit = some x → x.task = some k →
      ∃ x₀, (s.links p d).crit = some x₀ ∧ x₀.task = some k ∧ x₀.first = x.first)
    (hunsent : m.unsent = (s.links p d).cmdBuffer.unsent) (hspare : spare crit = 0)
    (hfew : ∀ hd, crit ≠ some (.sent hd false)) (hkind : slot.cmd = .clear ∨ slot.cmd = .tx) :
    (s.setLink p d { s.links p d with
      cmdBuffer := m, sendSlot := slot, crit := crit }).Watched := by
  have hguard := h.guard p d
  refine h.setLink {
    behind := hguard.behind
    holder := ?_
    enough := ?_
    waiter := hguard.waiter
    few := fun hd hx => absurd hx (hfew hd)
    kind := hkind }
  · intro x k' c hx hk' hfirst
    obtain ⟨x₀, hx₀, hk₀, hsame⟩ := hcrit x k' hx hk'
    exact hguard.holder x₀ k' c hx₀ hk₀ (hsame.trans hfirst)
  · obtain ⟨A, hA, hcard⟩ := hguard.enough
    refine ⟨A, hA, ?_⟩
    show m.unsent + spare crit ≤ A.card
    rw [hspare, hunsent]
    exact (Nat.add_le_add_left (Nat.zero_le _) _).trans hcard

theorem transfer {hd : Holder} {order : List UInt64} {m : CmdMsgBuffer} {done : Bool}
    (h : s.Watched) (hcrit : (s.links p d).crit = some (.transfer hd))
    (hsound : s.SoundLinks cfg)
    (hcheck : (s.links p d).cmdBuffer.checkTransfer (s.links p d).mem
      (s.links p d).sendSlot.daddr = (m, .ok done)) :
    (s.setLink p d { s.links p d with
      cmdBuffer := m
      sendSlot := if done then (s.links p d).sendSlot.clear else (s.links p d).sendSlot
      crit := some (.scan hd order []) }).Watched := by
  refine h.setLock ?_ ?_ rfl (by simp) ?_
  · rintro x k' ⟨rfl⟩ hk'
    exact ⟨.transfer hd, hcrit, hk', rfl⟩
  · rcases (hsound p d).checkTransfer with heq | ⟨b, -, -, heq | ⟨-, heq⟩⟩
    all_goals
      rw [hcheck] at heq
      cases heq
      rfl
  · cases done with
    | false => exact (h.guard p d).kind
    | true => exact Or.inl rfl

theorem send {addr len hash : UInt64} (h : s.Watched) (htasks : s.TaskOk) :
    (s.send p d addr len hash).Watched where
  active := h.active
  guard := by
    intro p' d'
    have hlen : s.tasks.length = (s.sends.map Send.core).length := TaskInv.length htasks
    simp only [State.send, List.map_append, List.map_singleton]
    refine (h.guard p' d').same ⟨?_, ?_⟩ ?_
    · intro k' c hc _ _
      refine ⟨Roster.append_old hc, ?_⟩
      exact List.getElem?_append_left (hlen ▸ (List.getElem?_eq_some_iff.mp hc).1)
    · intro k' c hc _ _
      rcases Roster.append_new hc with hold | ⟨rfl, -⟩
      · left
        refine ⟨hold, ?_⟩
        exact List.getElem?_append_left (hlen ▸ (List.getElem?_eq_some_iff.mp hold).1)
      · right
        rw [← hlen, List.getElem?_concat_length]
        exact ⟨rfl, by rw [hlen]; exact List.getElem?_eq_none le_rfl⟩
    · intro x k' hx hk'
      obtain ⟨c', -, hc', -⟩ := TaskInv.holder htasks p' d' x k' hx hk'
      rw [hc']
      rfl

theorem step {a : Action P} (h : s.Watched) (htasks : s.TaskOk) (hsound : s.SoundLinks cfg)
    (htwo : ∀ p d, (cfg.addrs p d).length = 2) (hcalm : a.Calm) (hstrong : a.Strong)
    (hstep : Step cfg s a s') : s'.Watched := by
  cases hstep with
  | send p d addr len hash => exact h.send htasks
  | start ht htask hpc => exact h.start htasks ht htask hpc
  | loop1 ht htask hpc =>
    rw [if_neg (h.active _)]
    exact h.goto htasks ht htask (by simp [hpc]) ⟨by simp, by simp⟩ (by simp)
  | @loop2 k t task ht htask hpc =>
    rw [if_neg (h.active _)]
    exact h.goto htasks ht htask (by simp [hpc]) ⟨by simp, by simp⟩ fun _ =>
      (h.guard t.pe t.dst).behind k t.core task (State.core_of_send ht) rfl rfl htask (Or.inl hpc)
  | lock1 ht htask hpc hcrit =>
    exact h.acquire htasks ht htask rfl (by simp [Crit.first]) rfl (by simp)
  | @lock2 k t task ht htask hpc hcrit =>
    refine h.acquire htasks ht htask rfl (fun _ => ?_) rfl (by simp)
    exact (h.guard t.pe t.dst).behind k t.core task (State.core_of_send ht) rfl rfl htask
      (Or.inr hpc)
  | @next p d c c' hcrit hnext => exact h.next hsound (htwo p d) hcrit hnext
  | push hcrit ht hpush => exact h.push htasks hsound hcrit hpush
  | @pushPanic p d k t m hcrit ht hpush =>
    obtain ⟨b, -, -, heq⟩ | ⟨-, heq⟩ | ⟨-, heq⟩ := tryPush_cases cfg.cmdBufLen
      (s.links p d).mem (s.links p d).cmdBuffer t.addr t.len t.hash k
    all_goals
      rw [hpush] at heq
      cases heq
    exact h.pushPanic htasks hcrit (hsound p d).placed.unsent_takeCur
  | pushed hcrit => exact h.pushed htasks hcrit
  | @headEmpty p d k hcrit hempty =>
    refine h.leave htasks hcrit rfl ⟨∅, by simp, ?_⟩ (by simp)
    rw [(hsound p d).placed.unsent_of_empty (hsound p d).numBufs hempty]
    exact Nat.zero_le _
  | transfer hcrit hcheck horder => exact h.transfer hcrit hsound hcheck
  | @transferPanic p d _ _ _ _ hcrit hcheck =>
    rcases (hsound p d).checkTransfer with heq | ⟨b, -, -, heq | ⟨-, heq⟩⟩
    all_goals
      rw [hcheck] at heq
      cases heq
  | scanPanic hcrit hb hcheck =>
    exact absurd hcheck ((hsound _ _).checkFreed (mem_of_lookup hb).1)
  | @freeData p d hd addr freed b hcrit hb =>
    obtain ⟨hlinks, htasks', -, -, -, hcores⟩ :=
      State.freeCmds_frame s p (b.cmds (s.links p d).mem)
    have hset : (s.setLink p d { s.links p d with
        cmdBuffer := (s.links p d).cmdBuffer.giveBack b
        crit := some (.freeData hd freed) }).Watched := by
      refine h.setLock ?_ rfl rfl (by simp) (h.guard p d).kind
      rintro x k' ⟨rfl⟩ hk'
      exact ⟨_, hcrit, hk', rfl⟩
    refine ⟨?_, fun p' d' => ?_⟩
    · exact fun p' => State.freeCmds_active s p (b.cmds (s.links p d).mem) ▸ h.active p'
    · have hguard := hset.guard p' d'
      simp only [State.setLink, hlinks, htasks', hcores] at hguard ⊢
      exact hguard
  | checked hcrit => exact h.setLock (by simp) rfl rfl (by simp) (h.guard _ _).kind
  | flush hcrit hslot hflush => exact h.flush htasks hsound hcrit hflush
  | sentFirst hcrit => exact h.release htasks hcrit rfl ⟨by simp, by simp⟩ (by simp)
  | @sentSecond p d k hcrit =>
    refine h.leave htasks hcrit rfl (Alive.others ?_) (by simp)
    have henough := (h.guard p d).enough
    rw [hcrit] at henough
    exact henough
  | goOn hcrit htask hwaiting => exact h.release htasks hcrit rfl ⟨by simp, by simp⟩ fun _ => rfl
  | @exchangeFails p d k task weak hcrit htask hwaiting hflag =>
    have hweak : weak = false := hstrong
    have hset : (s.links p d).sendWaiting = true := hflag.resolve_right (by simp [hweak])
    obtain ⟨k', task', halive, htask', him⟩ := (h.guard p d).waiter hset
    have hk : k ≠ k' := by
      rintro rfl
      rw [htask] at htask'
      cases htask'
      rw [hwaiting] at him
      cases him
    have hleave : ((s.setLink p d { s.links p d with
        sendWaiting := (s.links p d).sendWaiting, crit := none }).goto k .returned).Watched := by
      refine h.leave htasks hcrit rfl ?_ fun _ => ⟨k', task', hk, halive, htask', him⟩
      refine ⟨{k'}, fun k'' hk'' => ?_, (h.guard p d).few _ hcrit⟩
      rw [Finset.mem_singleton.mp hk'']
      exact halive.modify_of_ne hk
    exact hleave
  | @exchange p d k task weak hcrit htask hwaiting hflag =>
    obtain ⟨c, task', hc, htask', hpe, hdst, -⟩ := TaskInv.holder htasks p d _ k hcrit rfl
    have hpushed := (h.guard p d).holder _ k c hcrit rfl rfl hc hpe hdst
    refine h.update (g := id) htasks hc hpe hdst (fun c => ⟨rfl, rfl⟩) rfl
      (List.modify_id _ _).symm rfl rfl ?_
    refine (h.guard p d).update hc htask (fun _ => hpushed) (by simp) ?_ ?_ (by simp) rfl
    · obtain ⟨A, hA, hcard⟩ := (h.guard p d).enough
      exact ⟨A, fun k' hk' => (hA k' hk').keep same_core fun _ => ⟨by simp, by simp⟩,
        (Nat.add_le_add_left (Nat.zero_le _) _).trans hcard⟩
    · intro _
      exact ⟨k, _, Alive.modify hc htask hpe hdst hpushed (by simp) (by simp),
        Roster.modify_self htask, rfl⟩
  | checkTransfers hpd hcrit =>
    refine h.setLock ?_ rfl rfl (by simp) (h.guard _ _).kind
    rintro x k' ⟨rfl⟩ hk'
    cases hk'
  | poll => exact h
  | pollTx hcmd => exact h.setLink_same rfl rfl rfl (h.guard _ _).kind
  | pollPrint hcmd => exact h.setLink_same rfl rfl rfl (h.guard _ _).kind
  | @pollPanic p d l cmd hcmd hne hl =>
    have hset : (s.setLink p d l).Watched := by
      rcases hl with rfl | rfl
      · exact h.setLink_same rfl rfl rfl (h.guard p d).kind
      · exact h.setLink_same rfl rfl rfl (h.guard p d).kind
    exact ⟨hset.active, hset.guard⟩
  | fetchGet hf hpc => exact h.setLink_same rfl rfl rfl (h.guard _ _).kind
  | fetchWait hf hpc => exact h.setLink_same rfl rfl rfl (h.guard _ _).kind
  | fetchRelease hf hpc => exact h.setLink_same rfl rfl rfl (h.guard _ _).kind
  | fetchSpawn hf hpc => exact h.setLink_same rfl rfl rfl (h.guard _ _).kind
  | @fetchPanic p d j f c rest hf hpc hsize =>
    have hset := h.setLink_same (p := p) (d := d) (l := { s.links p d with
      fetches := (s.links p d).fetches.set j { f with pc := .panicked } }) rfl rfl rfl
      (h.guard p d).kind
    exact ⟨hset.active, hset.guard⟩
  | fetchDone hf hpc => exact h.setLink_same rfl rfl rfl (h.guard _ _).kind
  | cmdGet hf hi =>
    refine setSend ?_ fun _ => rfl
    exact h.setLink_same rfl rfl rfl (h.guard _ _).kind
  | cmdSubmit hf hi =>
    refine setSend ?_ fun _ => rfl
    exact h.setLink_same rfl rfl rfl (h.guard _ _).kind
  | cmdCount hf hi => exact h.setLink_same rfl rfl rfl (h.guard _ _).kind
  | cmdFree hf hi => exact h.setLink_same rfl rfl rfl (h.guard _ _).kind
  | print hslot hhash hcmd => cases hcalm
  | deliverSlot hputs => exact h.setLink_same rfl rfl rfl (h.guard _ _).kind
  | deliverState hputs => exact h.setLink_same rfl rfl rfl (h.guard _ _).kind
  | status p new =>
    refine ⟨fun p' => ?_, h.guard⟩
    simp only [Function.update_apply]
    split
    · exact hcalm
    · exact h.active p'
  | hold p addr => exact ⟨h.active, h.guard⟩
  | drop hpos => exact ⟨h.active, h.guard⟩

theorem new {mem : Fin P → Fin P → Mem} : (State.new cfg mem).Watched where
  active := by simp [State.new]
  guard := fun p d => {
    behind := by simp [State.new]
    holder := by simp [State.new, Link.new]
    enough := ⟨∅, by simp, Nat.le_refl 0⟩
    waiter := by simp [State.new, Link.new]
    few := by simp [State.new, Link.new]
    kind := Or.inl rfl }

end State.Watched

/-! ## No stranded command -/

/-- `cur_buf` or `full_bufs` hold a command that has not been sent. -/
def State.Left (s : State P) (p d : Fin P) : Prop :=
  ∃ b ∈ (s.links p d).cmdBuffer.filling, 0 < b.index

/-- A call of `send` from `p` to `d` is under way. -/
def State.Sending (s : State P) (p d : Fin P) : Prop :=
  ∃ (k : ℕ) (t : Send P) (task : Task), s.sends[k]? = some t ∧ s.tasks[k]? = some task ∧
    t.pe = p ∧ t.dst = d ∧ task.pc ≠ .returned ∧ task.pc ≠ .panicked

theorem State.Watched.sending {s : State P} (h : s.Watched) (hleft : s.Left p d) :
    s.Sending p d := by
  obtain ⟨b, hb, hpos⟩ := hleft
  obtain ⟨A, hA, hcard⟩ := (h.guard p d).enough
  have hunsent : 0 < (s.links p d).cmdBuffer.unsent :=
    List.countP_pos_iff.mpr ⟨b, hb, by simpa using hpos⟩
  obtain ⟨k, hk⟩ := Finset.card_pos.mp (show 0 < A.card by omega)
  obtain ⟨c, task, hc, htask, hpe, hdst, -, hreturned, hpanicked⟩ := hA k hk
  obtain ⟨t, ht, rfl⟩ : ∃ t, s.sends[k]? = some t ∧ t.core = c := by simpa using hc
  exact ⟨k, t, task, ht, htask, hpe, hdst, hreturned, hpanicked⟩

open Transition (Reach)

/-- With two buffers for each destination, in every run without a `Print`, a panic status and a
spurious failure of the exchange, somebody is left to send what is in the buffers. -/
theorem no_stranded_command (P : ℕ) (cfg : Config P)
    (htwo : ∀ p d, (cfg.addrs p d).length = 2) (s : State P)
    (hs : Reach (Initial cfg) (State.step cfg) (fun _ a => a.Calm ∧ a.Strong) s) (p d : Fin P)
    (hleft : s.Left p d) : s.Sending p d := by
  have hinv : s.Watched ∧ s.TaskOk ∧ s.SoundLinks cfg := by
    refine Reach.invariant (I := fun s => s.Watched ∧ s.TaskOk ∧ s.SoundLinks cfg) ?_ ?_ hs
    · rintro s ⟨mem, rfl⟩
      exact ⟨.new, .new, .new⟩
    · rintro s a s' ⟨hwatched, htasks, hsound⟩ hok hstep
      have hcases := step_cases hstep
      exact ⟨hwatched.step htasks hsound htwo hok.1 hok.2 hcases, htasks.step hcases,
        hsound.step htasks hcases⟩
  exact hinv.1.sending hleft

/-! ## Three PEs -/

def Config.threePes : Config 3 where
  cmdBufLen := 50000
  addrs := fun _ d =>
    if d = 0 then [0x1000000, 0x1200000]
    else if d = 1 then [0x1400000, 0x1600000] else [0x1800000, 0x1a00000]
  cmdBufLen_pos := default_pos
  size_lt := default_lt
  addrs_ne_zero := by decide
  addrs_nodup := by decide

def State.threePes : State 3 := .new .threePes fun _ _ _ _ => ⟨0, 0, .clear, 0, 0, 0, 0⟩

/-- A call from PE 0 to PE 1 pushes its command. It does not send it, for a call to PE 2 is
pending, and comes to the exchange of the waiting flag. -/
def exchangeCall (weak : Bool) : List (Action 3) :=
  [.send 0 1 0x2000008 8 7, .send 0 2 0x2000018 8 7, .task 1, .task 0, .task 0, .task 0,
    .crit 0 1, .crit 0 1, .task 0, .task 0, .crit 0 1, .transfer 0 1 [], .crit 0 1, .crit 0 1,
    .crit 0 1, .exchange 0 1 weak]

/-- The flag is exchanged, and the call waits. -/
theorem no_stranded_command_waits :
    ∃ s : State 3, Transition.run (Transition.guarded (State.step .threePes)
        fun _ a => a.Calm ∧ a.Strong) .threePes (exchangeCall false) = some s ∧
      s.Left 0 1 ∧ s.Sending 0 1 := by
  have hrun : (Transition.run (Transition.guarded (State.step .threePes)
        fun _ a => a.Calm ∧ a.Strong) .threePes (exchangeCall false)).map
      (fun s => (s.links 0 1).cmdBuffer.filling) = some [⟨0x1600000, 1, 1⟩] := by
    decide +kernel
  obtain ⟨s, hs, hfilling⟩ := Option.map_eq_some_iff.mp hrun
  have hleft : s.Left 0 1 := ⟨⟨0x1600000, 1, 1⟩, by simp [hfilling], by decide⟩
  exact ⟨s, hs, hleft, no_stranded_command 3 .threePes (by decide) s
    (Reach.run_guarded (.init ⟨_, rfl⟩) hs) 0 1 hleft⟩

/-- The exchange fails although the flag is clear. The call returns, and its command is left
in the buffer. -/
theorem stranded_command :
    ¬ ∀ (P : ℕ) (cfg : Config P), (∀ p d, (cfg.addrs p d).length = 2) → ∀ s : State P,
      Reach (Initial cfg) (State.step cfg) (fun _ a => a.Calm) s → ∀ p d, s.Left p d →
      s.Sending p d := by
  intro h
  have hrun : (Transition.run (Transition.guarded (State.step .threePes) fun _ a => a.Calm)
      .threePes (exchangeCall true)).map (fun s => ((s.links 0 1).cmdBuffer.filling,
        decide (∀ x ∈ s.sends.zip s.tasks, x.1.dst = 1 → x.2.pc = .returned))) =
      some ([⟨0x1600000, 1, 1⟩], true) := by
    decide +kernel
  obtain ⟨s, hs, hend⟩ := Option.map_eq_some_iff.mp hrun
  obtain ⟨hfilling, hreturned⟩ := Prod.mk.inj hend
  have hleft : s.Left 0 1 := ⟨⟨0x1600000, 1, 1⟩, by simp [hfilling], by decide⟩
  obtain ⟨k, t, task, ht, htask, -, hdst, hne, -⟩ := h 3 .threePes (by decide) s
    (Reach.run_guarded (.init ⟨_, rfl⟩) hs) 0 1 hleft
  have hzip : (t, task) ∈ s.sends.zip s.tasks := by
    refine List.mem_of_getElem? (i := k) ?_
    rw [List.getElem?_zip_eq_some]
    exact ⟨ht, htask⟩
  exact hne (of_decide_eq_true hreturned (t, task) hzip hdst)

end Lamellar.CommandQueue
