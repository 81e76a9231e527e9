import Lamellar.CommandQueue.Push
import Lamellar.CommandQueue.Steps
import Lamellar.Lib.Roster

/-!
# The tasks of `send` and the locks

Where the tasks stand, what they have counted in `pending_cmds` and pushed, and who holds
which lock. Nothing of this depends on what the receivers do.
-/

namespace Lamellar.CommandQueue

variable {P : ℕ}

namespace Crit

/-- The holder of the lock, if it is a `send`. -/
def task : Crit → Option ℕ
  | .push k | .pushed k | .head k => some k
  | .transfer h | .scan h _ _ | .freeData h _ | .sending h | .flush h | .sent h _ =>
    match h with
    | .first k | .second k => some k
    | .recv => none

/-- The holder is in its first loop. -/
def first : Crit → Bool
  | .push _ | .pushed _ => true
  | .head _ => false
  | .transfer h | .scan h _ _ | .freeData h _ | .sending h | .flush h | .sent h _ =>
    match h with
    | .first _ => true
    | .second _ | .recv => false

def afterPush : Crit → Bool
  | .pushed _ => true
  | _ => false

end Crit

/-- What the sender itself keeps about a call. -/
structure Core (P : ℕ) where
  pe : Fin P
  dst : Fin P
  pending : Bool
  pushed : Bool

def Send.core (t : Send P) : Core P := ⟨t.pe, t.dst, t.pending, t.pushed⟩

/-- A task that has not pushed yet. -/
def SendPc.fits (pc : SendPc) (c : Core P) : Prop :=
  match pc with
  | .start => c.pending = false ∧ c.pushed = false
  | .loop1 | .lock1 => c.pending = true ∧ c.pushed = false
  | _ => True

/-- A task of PE `p` has panicked before it has pushed: it stays counted in `pending_cmds`. -/
def Dead (tasks : List Task) (cores : List (Core P)) (p : Fin P) : Prop :=
  ∃ (k : ℕ) (c : Core P) (task : Task), cores[k]? = some c ∧ c.pe = p ∧ c.pending = true ∧
    tasks[k]? = some task ∧ task.pc = .panicked

structure TaskInv (tasks : List Task) (cores : List (Core P))
    (crit : Fin P → Fin P → Option Crit) (pendingCmds : Fin P → ℕ)
    (cur : Fin P → Fin P → Option CmdBuf) : Prop where
  length : tasks.length = cores.length
  fits : ∀ (k : ℕ) (c : Core P) (task : Task), cores[k]? = some c → tasks[k]? = some task →
    task.pc.fits c
  holder : ∀ (p d : Fin P) (x : Crit) (k : ℕ), crit p d = some x → x.task = some k →
    ∃ (c : Core P) (task : Task), cores[k]? = some c ∧ tasks[k]? = some task ∧ c.pe = p ∧
      c.dst = d ∧ task.pc = .inside ∧ (x.first → c.pending = true ∧ c.pushed = x.afterPush)
  pending : ∀ p, pendingCmds p = cores.countP fun c => c.pe = p ∧ c.pending
  cur : ∀ p d b, cur p d = some b → b.index = 0 → Dead tasks cores p

namespace TaskInv

variable {tasks : List Task} {cores : List (Core P)} {crit crit' : Fin P → Fin P → Option Crit}
  {pendingCmds : Fin P → ℕ} {cur cur' : Fin P → Fin P → Option CmdBuf} {p d : Fin P} {k : ℕ}
  {task : Task} {c : Core P} {x x' : Crit}

theorem init : TaskInv [] ([] : List (Core P)) (fun _ _ => none) (fun _ => 0)
    (fun _ _ => none) where
  length := rfl
  fits := by simp
  holder := by simp
  pending := by simp
  cur := by simp

/-- A new call. -/
theorem send (h : TaskInv tasks cores crit pendingCmds cur) :
    TaskInv (tasks ++ [⟨.start, false⟩]) (cores ++ [⟨p, d, false, false⟩]) crit pendingCmds
      cur where
  length := by simp [h.length]
  fits := by
    intro k c task hc htask
    by_cases hk : k < cores.length
    · rw [List.getElem?_append_left hk] at hc
      rw [List.getElem?_append_left (by rw [h.length]; exact hk)] at htask
      exact h.fits k c task hc htask
    · have hlen : k < (cores ++ [(⟨p, d, false, false⟩ : Core P)]).length :=
        (List.getElem?_eq_some_iff.mp hc).1
      simp only [List.length_append, List.length_singleton] at hlen
      obtain rfl : k = cores.length := by omega
      rw [List.getElem?_concat_length] at hc
      rw [← h.length, List.getElem?_concat_length] at htask
      cases hc
      cases htask
      exact ⟨rfl, rfl⟩
  holder := by
    intro p' d' x k hx hk
    obtain ⟨c, task, hc, htask, hrest⟩ := h.holder p' d' x k hx hk
    refine ⟨c, task, ?_, ?_, hrest⟩
    · rw [List.getElem?_append_left (List.getElem?_eq_some_iff.mp hc).1, hc]
    · rw [List.getElem?_append_left (List.getElem?_eq_some_iff.mp htask).1, htask]
  pending := by
    intro p'
    rw [h.pending]
    simp [List.countP_append]
  cur := by
    intro p' d' b hb hzero
    obtain ⟨k, c, task, hc, hpe, hpend, htask, hpc⟩ := h.cur p' d' b hb hzero
    refine ⟨k, c, task, ?_, hpe, hpend, ?_, hpc⟩
    · rw [List.getElem?_append_left (List.getElem?_eq_some_iff.mp hc).1, hc]
    · rw [List.getElem?_append_left (List.getElem?_eq_some_iff.mp htask).1, htask]

/-- The task of call `k` goes on, with or without the lock of its link. -/
theorem update {f : Task → Task} {g : Core P → Core P} {pendingCmds' : Fin P → ℕ}
    (h : TaskInv tasks cores crit pendingCmds cur) (hc : cores[k]? = some c)
    (htask : tasks[k]? = some task) (halive : task.pc ≠ .panicked) (hpe : (g c).pe = c.pe)
    (hdst : (g c).dst = c.dst) (hfits : (f task).pc.fits (g c))
    (hcrit : ∀ p' d' x, crit' p' d' = some x → crit p' d' = some x ∧ x.task ≠ some k ∨
      p' = c.pe ∧ d' = c.dst ∧ x.task = some k ∧ (f task).pc = .inside ∧
        (x.first → (g c).pending = true ∧ (g c).pushed = x.afterPush))
    (hpending : ∀ p', pendingCmds' p' + (if c.pe = p' ∧ c.pending then 1 else 0) =
      pendingCmds p' + if c.pe = p' ∧ (g c).pending then 1 else 0)
    (hcur : ∀ p' d' b, cur' p' d' = some b → b.index = 0 → cur p' d' = some b ∨
      p' = c.pe ∧ (f task).pc = .panicked ∧ (g c).pending = true) :
    TaskInv (tasks.modify k f) (cores.modify k g) crit' pendingCmds' cur' where
  length := by simp [h.length]
  fits := by
    intro k' c' t hc' ht
    by_cases hk : k = k'
    · subst hk
      rw [Roster.modify_self htask] at ht
      rw [Roster.modify_self hc] at hc'
      cases ht
      cases hc'
      exact hfits
    · rw [Roster.modify_of_ne hk] at ht
      rw [Roster.modify_of_ne hk] at hc'
      exact h.fits k' c' t hc' ht
  holder := by
    intro p' d' x k' hx hk'
    rcases hcrit p' d' x hx with ⟨hold, hne⟩ | ⟨rfl, rfl, hself, hpc, hfirst⟩
    · obtain ⟨c', t, hc', ht, hrest⟩ := h.holder p' d' x k' hold hk'
      have hk : k ≠ k' := by
        rintro rfl
        exact hne hk'
      exact ⟨c', t, by rw [Roster.modify_of_ne hk, hc'], by rw [Roster.modify_of_ne hk, ht], hrest⟩
    · obtain rfl : k = k' := by simpa [hself] using hk'
      exact ⟨g c, f task, Roster.modify_self hc, Roster.modify_self htask, hpe, hdst, hpc, hfirst⟩
  pending := by
    intro p'
    have hcount := Roster.countP_modify (fun c => c.pe = p' ∧ c.pending) g hc
    have hold := h.pending p'
    have hstep := hpending p'
    simp only [decide_eq_true_eq, hpe] at hcount
    omega
  cur := by
    intro p' d' b hb hzero
    rcases hcur p' d' b hb hzero with hold | ⟨rfl, hpc, hpend⟩
    · obtain ⟨k', c', t, hc', hpe', hpend, ht, hpc⟩ := h.cur p' d' b hold hzero
      have hk : k ≠ k' := by
        rintro rfl
        rw [htask] at ht
        cases ht
        exact halive hpc
      exact ⟨k', c', t, by rw [Roster.modify_of_ne hk, hc'], hpe', hpend,
        by rw [Roster.modify_of_ne hk, ht], hpc⟩
    · exact ⟨k, g c, f task, Roster.modify_self hc, hpe, hpend, Roster.modify_self htask, hpc⟩

/-- The tasks stay, and the locks stay with them. -/
theorem relock (h : TaskInv tasks cores crit pendingCmds cur)
    (hcrit : ∀ p' d' x k, crit' p' d' = some x → x.task = some k → ∃ x₀,
      crit p' d' = some x₀ ∧ x₀.task = some k ∧ x.first = x₀.first ∧
        x.afterPush = x₀.afterPush)
    (hcur : ∀ p' d' b, cur' p' d' = some b → b.index = 0 → cur p' d' = some b) :
    TaskInv tasks cores crit' pendingCmds cur' where
  length := h.length
  fits := h.fits
  holder := by
    intro p' d' x k' hx hk'
    obtain ⟨x₀, hx₀, hk₀, hfirst, hafter⟩ := hcrit p' d' x k' hx hk'
    obtain ⟨c', t, hc', ht, hpe, hdst, hpc, hrest⟩ := h.holder p' d' x₀ k' hx₀ hk₀
    refine ⟨c', t, hc', ht, hpe, hdst, hpc, ?_⟩
    rw [hfirst, hafter]
    exact hrest
  pending := h.pending
  cur := fun p' d' b hb hzero => h.cur p' d' b (hcur p' d' b hb hzero) hzero

/-- A task that is not `inside` holds no lock. -/
theorem not_holder (h : TaskInv tasks cores crit pendingCmds cur)
    (htask : tasks[k]? = some task) (hpc : task.pc ≠ .inside) {p' d' : Fin P} {x : Crit}
    (hx : crit p' d' = some x) : x.task ≠ some k := by
  intro hk
  obtain ⟨c', t, -, ht, -, -, hinside, -⟩ := h.holder p' d' x k hx hk
  rw [htask] at ht
  cases ht
  exact hpc hinside

/-- A task holds the lock of its own link only. -/
theorem not_holder_of_ne (h : TaskInv tasks cores crit pendingCmds cur)
    (hx : crit p d = some x) (hk : x.task = some k) {p' d' : Fin P} {y : Crit}
    (hne : ¬ (p' = p ∧ d' = d)) (hy : crit p' d' = some y) : y.task ≠ some k := by
  intro hk'
  obtain ⟨c₁, -, hc₁, -, hpe₁, hdst₁, -⟩ := h.holder p d x k hx hk
  obtain ⟨c₂, -, hc₂, -, hpe₂, hdst₂, -⟩ := h.holder p' d' y k hy hk'
  rw [hc₁] at hc₂
  cases hc₂
  exact hne ⟨hpe₂.symm.trans hpe₁, hdst₂.symm.trans hdst₁⟩

/-- The task of call `k` goes on, and the call counts nothing. -/
theorem updateTask {f : Task → Task} (h : TaskInv tasks cores crit pendingCmds cur)
    (hc : cores[k]? = some c) (htask : tasks[k]? = some task) (halive : task.pc ≠ .panicked)
    (hfits : (f task).pc.fits c)
    (hcrit : ∀ p' d' x, crit' p' d' = some x → crit p' d' = some x ∧ x.task ≠ some k ∨
      p' = c.pe ∧ d' = c.dst ∧ x.task = some k ∧ (f task).pc = .inside ∧
        (x.first → c.pending = true ∧ c.pushed = x.afterPush))
    (hcur : ∀ p' d' b, cur' p' d' = some b → b.index = 0 → cur p' d' = some b ∨
      p' = c.pe ∧ (f task).pc = .panicked ∧ c.pending = true) :
    TaskInv (tasks.modify k f) cores crit' pendingCmds cur' := by
  have hupdate := h.update (f := f) (g := id) hc htask halive rfl rfl hfits hcrit
    (fun _ => rfl) hcur
  rwa [List.modify_id] at hupdate

/-- The call counts something else, and its task stays under the lock. -/
theorem updateCore {g : Core P → Core P} (h : TaskInv tasks cores crit pendingCmds cur)
    (hc : cores[k]? = some c) (htask : tasks[k]? = some task) (hinside : task.pc = .inside)
    (hpe : (g c).pe = c.pe) (hdst : (g c).dst = c.dst) (hpending : ∀ c, (g c).pending = c.pending)
    (hcrit : ∀ p' d' x, crit' p' d' = some x → crit p' d' = some x ∧ x.task ≠ some k ∨
      p' = c.pe ∧ d' = c.dst ∧ x.task = some k ∧
        (x.first → (g c).pending = true ∧ (g c).pushed = x.afterPush))
    (hcur : ∀ p' d' b, cur' p' d' = some b → b.index = 0 → cur p' d' = some b) :
    TaskInv tasks (cores.modify k g) crit' pendingCmds cur' := by
  have hupdate := h.update (f := id) (g := g) hc htask (by simp [hinside]) hpe hdst
    (by simp [hinside, SendPc.fits]) (fun p' d' x hx => (hcrit p' d' x hx).imp_right
      fun ⟨hp, hd, hk, hfirst⟩ => ⟨hp, hd, hk, hinside, hfirst⟩)
    (fun p' => by rw [hpending]) fun p' d' b hb hzero => Or.inl (hcur p' d' b hb hzero)
  rwa [List.modify_id] at hupdate

end TaskInv

/-! ## Steps -/

def State.TaskOk (s : State P) : Prop :=
  TaskInv s.tasks (s.sends.map Send.core) (fun p d => (s.links p d).crit) s.pendingCmds
    fun p d => (s.links p d).cmdBuffer.curBuf

theorem map_core_modify {sends : List (Send P)} {k : ℕ} {f : Send P → Send P}
    {g : Core P → Core P} (h : ∀ t, (f t).core = g t.core) :
    (sends.modify k f).map Send.core = (sends.map Send.core).modify k g := by
  refine List.ext_getElem? fun i => ?_
  simp only [List.getElem?_map, List.getElem?_modify]
  split
  · cases sends[i]? <;> simp [h]
  · cases sends[i]? <;> rfl

namespace State

variable {s : State P} {p d : Fin P} {k : ℕ} {t : Send P} {task : Task} {x : Crit}

theorem map_core_same {f : Send P → Send P} (h : ∀ t, (f t).core = t.core) :
    (s.sends.modify k f).map Send.core = s.sends.map Send.core := by
  rw [map_core_modify (g := id) h, List.modify_id]

theorem core_of_send (ht : s.sends[k]? = some t) :
    (s.sends.map Send.core)[k]? = some t.core := by
  simp [ht]

/-- A link changes, its lock and its current buffer do not. -/
theorem TaskOk.setLink {l : Link} (h : s.TaskOk) (hcrit : l.crit = (s.links p d).crit)
    (hcur : l.cmdBuffer.curBuf = (s.links p d).cmdBuffer.curBuf) : (s.setLink p d l).TaskOk := by
  refine TaskInv.relock h ?_ ?_
  · intro p' d' x k hx hk
    refine ⟨x, ?_, hk, rfl, rfl⟩
    rw [← hx, links_setLink]
    split
    · rename_i heq
      rw [heq.1, heq.2, hcrit]
    · rfl
  · intro p' d' b hb _
    rw [← hb, links_setLink]
    split
    · rename_i heq
      rw [heq.1, heq.2, hcur]
    · rfl

/-- The holder of a lock goes on with it. -/
theorem TaskOk.nextCrit {l : Link} {x' : Crit} (h : s.TaskOk)
    (hx : (s.links p d).crit = some x) (hx' : l.crit = some x') (htask : x'.task = x.task)
    (hfirst : x'.first = x.first) (hafter : x'.afterPush = x.afterPush)
    (hcur : ∀ b, l.cmdBuffer.curBuf = some b → (s.links p d).cmdBuffer.curBuf = some b) :
    (s.setLink p d l).TaskOk := by
  refine TaskInv.relock h ?_ ?_
  · intro p' d' y k hy hk
    rw [links_setLink] at hy
    split at hy
    · rename_i heq
      rw [hx'] at hy
      cases hy
      rw [heq.1, heq.2]
      exact ⟨x, hx, htask.symm.trans hk, hfirst, hafter⟩
    · exact ⟨y, hy, hk, rfl, rfl⟩
  · intro p' d' b hb _
    rw [links_setLink] at hb
    split at hb
    · rename_i heq
      rw [heq.1, heq.2]
      exact hcur b hb
    · exact hb

/-- The lock is given back, or taken by `recv_data`. -/
theorem TaskOk.setLock {l : Link} (h : s.TaskOk) (hcrit : ∀ x, l.crit = some x → x.task = none)
    (hcur : l.cmdBuffer.curBuf = (s.links p d).cmdBuffer.curBuf) :
    (s.setLink p d l).TaskOk := by
  refine TaskInv.relock h ?_ ?_
  · intro p' d' y k hy hk
    rw [links_setLink] at hy
    split at hy
    · rw [hcrit y hy] at hk
      cases hk
    · exact ⟨y, hy, hk, rfl, rfl⟩
  · intro p' d' b hb _
    rw [links_setLink] at hb
    split at hb
    · rename_i heq
      rw [heq.1, heq.2, ← hcur]
      exact hb
    · exact hb

/-- A task outside the locks goes on. -/
theorem TaskOk.goto {pc : SendPc} (h : s.TaskOk) (ht : s.sends[k]? = some t)
    (htask : s.tasks[k]? = some task) (hinside : task.pc ≠ .inside)
    (halive : task.pc ≠ .panicked) (hfits : pc.fits t.core) : (s.goto k pc).TaskOk := by
  refine TaskInv.updateTask h (core_of_send ht) htask halive hfits ?_ fun p' d' b hb _ => Or.inl hb
  exact fun p' d' x hx => Or.inl ⟨hx, h.not_holder htask hinside hx⟩

/-- A task takes the lock of its link. -/
theorem TaskOk.acquire (h : s.TaskOk) (ht : s.sends[k]? = some t)
    (htask : s.tasks[k]? = some task) (hinside : task.pc ≠ .inside)
    (halive : task.pc ≠ .panicked) (hx : x.task = some k)
    (hfirst : x.first → t.pending = true ∧ t.pushed = x.afterPush) :
    ((s.setCrit t.pe t.dst (some x)).goto k .inside).TaskOk := by
  refine TaskInv.updateTask h (core_of_send ht) htask halive trivial ?_ ?_
  · intro p' d' y hy
    simp only [State.goto, setTask, setCrit, links_setLink] at hy
    split at hy
    · rename_i heq
      cases hy
      exact Or.inr ⟨heq.1, heq.2, hx, rfl, hfirst⟩
    · exact Or.inl ⟨hy, h.not_holder htask hinside hy⟩
  · intro p' d' b hb _
    simp only [State.goto, setTask, setCrit, links_setLink] at hb
    split at hb
    · rename_i heq
      rw [heq.1, heq.2]
      exact Or.inl hb
    · exact Or.inl hb

/-- The holder of a lock gives it back and goes on. -/
theorem TaskOk.release {l : Link} {f : Task → Task} (h : s.TaskOk)
    (hx : (s.links p d).crit = some x) (hk : x.task = some k) (hl : l.crit = none)
    (hcur : ∀ b, l.cmdBuffer.curBuf = some b → b.index = 0 →
      (s.links p d).cmdBuffer.curBuf = some b ∨ ∀ task, (f task).pc = .panicked ∧ x.first)
    (hfits : ∀ (c : Core P) task,
      (x.first → c.pending = true ∧ c.pushed = x.afterPush) → (f task).pc.fits c) :
    ((s.setLink p d l).setTask k f).TaskOk := by
  obtain ⟨c, task, hc, htask, hpe, hdst, hinside, hfirst⟩ := TaskInv.holder h p d x k hx hk
  refine TaskInv.updateTask h hc htask (by simp [hinside]) (hfits c task hfirst) ?_ ?_
  · intro p' d' y hy
    simp only [setTask, links_setLink] at hy
    split at hy
    · rw [hl] at hy
      cases hy
    · exact Or.inl ⟨hy, h.not_holder_of_ne hx hk ‹_› hy⟩
  · intro p' d' b hb hzero
    simp only [setTask, links_setLink] at hb
    split at hb
    · rename_i heq
      rw [heq.1, heq.2]
      rcases hcur b hb hzero with hold | hdead
      · exact Or.inl hold
      · exact Or.inr ⟨hpe.symm, (hdead task).1, (hfirst (hdead task).2).1⟩
    · exact Or.inl hb

/-- The counts of what the receivers do are not looked at. -/
theorem TaskOk.setSend {f : Send P → Send P} (h : s.TaskOk) (hf : ∀ t, (f t).core = t.core) :
    (s.setSend k f).TaskOk := by
  have hcores : (s.setSend k f).sends.map Send.core = s.sends.map Send.core := map_core_same hf
  unfold TaskOk
  rw [hcores]
  exact h

theorem freeCmds_frame (s : State P) (p : Fin P) (cmds : List CmdMsg) :
    (s.freeCmds p cmds).links = s.links ∧ (s.freeCmds p cmds).tasks = s.tasks ∧
      (s.freeCmds p cmds).pendingCmds = s.pendingCmds ∧
      (s.freeCmds p cmds).panics = s.panics ∧ (s.freeCmds p cmds).handles = s.handles ∧
      (s.freeCmds p cmds).sends.map Send.core = s.sends.map Send.core := by
  induction cmds generalizing s with
  | nil => exact ⟨rfl, rfl, rfl, rfl, rfl, rfl⟩
  | cons c cmds ih =>
    simp only [State.freeCmds, List.foldl_cons] at ih ⊢
    split
    · obtain ⟨h₁, h₂, h₃, h₄, h₅, h₆⟩ := ih ((s.decrement p c.daddr).setSend c.send
        fun t => { t with decremented := t.decremented + 1 })
      exact ⟨h₁, h₂, h₃, h₄, h₅, h₆.trans (map_core_same fun _ => rfl)⟩
    · exact ih s

theorem freeCmds_active (s : State P) (p : Fin P) (cmds : List CmdMsg) :
    (s.freeCmds p cmds).active = s.active := by
  induction cmds generalizing s with
  | nil => rfl
  | cons c cmds ih =>
    simp only [State.freeCmds, List.foldl_cons] at ih ⊢
    split
    · exact ih _
    · exact ih s

theorem TaskOk.freeCmds {cmds : List CmdMsg} (h : s.TaskOk) : (s.freeCmds p cmds).TaskOk := by
  obtain ⟨hlinks, htasks, hpending, -, -, hcores⟩ := freeCmds_frame s p cmds
  unfold TaskOk
  rw [hlinks, htasks, hpending, hcores]
  exact h

theorem Next.same {cfg : Config P} {c c' : Crit} (h : Crit.Next cfg s p d c c') :
    c'.task = c.task ∧ c'.first = c.first ∧ c'.afterPush = c.afterPush := by
  cases h <;> exact ⟨rfl, rfl, rfl⟩

theorem takeFlush_cur {m m' : CmdMsgBuffer} {b : CmdBuf} (h : m.takeFlush = some (b, m')) :
    ∀ x, m'.curBuf = some x → m.curBuf = some x := by
  intro x hx
  simp only [CmdMsgBuffer.takeFlush] at h
  split at h
  · cases h
    exact hx
  · obtain ⟨b', -, heq⟩ := Option.map_eq_some_iff.mp h
    cases heq
    cases hx

theorem flushBuffer_cur {m m' : CmdMsgBuffer} {mem : Mem} {slot slot' : CmdMsg}
    (h : m.flushBuffer mem slot = (m', slot')) :
    ∀ x, m'.curBuf = some x → m.curBuf = some x := by
  simp only [CmdMsgBuffer.flushBuffer] at h
  split at h
  · rename_i htake
    cases h
    exact fun x hx => takeFlush_cur htake x hx
  · cases h
    exact fun x hx => hx

theorem checkTransfer_cur {m m' : CmdMsgBuffer} {mem : Mem} {addr : UInt64}
    {result : Except Panic Bool} (h : m.checkTransfer mem addr = (m', result)) :
    m'.curBuf = m.curBuf := by
  simp only [CmdMsgBuffer.checkTransfer] at h
  split at h
  · cases h
    rfl
  · split at h
    · cases h
      rfl
    · split at h <;> cases h <;> rfl
    · split at h <;> cases h <;> rfl
    · cases h
      rfl

/-- A buffer that has been pushed to is not empty. -/
theorem putCur_cur {m : CmdMsgBuffer} {b x : CmdBuf} {cmdBufLen : ℕ}
    (h : (m.putCur cmdBufLen b.next).curBuf = some x) : x.index ≠ 0 := by
  unfold CmdMsgBuffer.putCur at h
  split at h
  · cases h
  · cases h
    exact Nat.succ_ne_zero _

theorem TaskOk.push {mem : Mem} {m : CmdMsgBuffer} (h : s.TaskOk)
    (hcrit : (s.links p d).crit = some (.push k))
    (hcur : ∀ b, m.curBuf = some b → b.index ≠ 0) :
    ((s.setLink p d { s.links p d with mem, cmdBuffer := m, crit := some (.pushed k) }).setSend k
      fun t => { t with pushed := true }).TaskOk := by
  obtain ⟨c, task, hc, htask, hpe, hdst, hinside, hfirst⟩ :=
    TaskInv.holder h p d (.push k) k hcrit rfl
  have hcores : (s.sends.modify k fun t => { t with pushed := true }).map Send.core =
      (s.sends.map Send.core).modify k fun c => { c with pushed := true } :=
    map_core_modify fun _ => rfl
  show TaskInv s.tasks ((s.sends.modify k fun t => { t with pushed := true }).map Send.core) _ _ _
  rw [hcores]
  refine TaskInv.updateCore h hc htask hinside rfl rfl (fun _ => rfl) ?_ ?_
  · intro p' d' y hy
    simp only [State.setSend, links_setLink] at hy
    split at hy
    · rename_i heq
      cases hy
      exact Or.inr ⟨heq.1.trans hpe.symm, heq.2.trans hdst.symm, rfl,
        fun _ => ⟨(hfirst rfl).1, rfl⟩⟩
    · exact Or.inl ⟨hy, TaskInv.not_holder_of_ne h hcrit rfl ‹_› hy⟩
  · intro p' d' b hb hzero
    simp only [State.setSend, links_setLink] at hb
    split at hb
    · exact absurd hzero (hcur b hb)
    · exact hb

/-- The `fetch_add` and `fetch_sub` of `pending_cmds` -/
theorem TaskOk.start (h : s.TaskOk) (ht : s.sends[k]? = some t)
    (htask : s.tasks[k]? = some task) (hpc : task.pc = .start) :
    (({ s with
        pendingCmds := Function.update s.pendingCmds t.pe (s.pendingCmds t.pe + 1) }.setSend
      k fun t => { t with pending := true }).goto k .loop1).TaskOk := by
  have hcores : (s.sends.modify k fun t => { t with pending := true }).map Send.core =
      (s.sends.map Send.core).modify k fun c => { c with pending := true } :=
    map_core_modify fun _ => rfl
  have hfits := TaskInv.fits h k t.core task (core_of_send ht) htask
  simp only [hpc, SendPc.fits] at hfits
  unfold TaskOk
  simp only [State.goto, setTask, State.setSend, hcores]
  refine TaskInv.update h (core_of_send ht) htask (by simp [hpc]) rfl rfl ⟨rfl, hfits.2⟩ ?_ ?_
    fun p' d' b hb _ => Or.inl hb
  · exact fun p' d' y hy => Or.inl ⟨hy, TaskInv.not_holder h htask (by simp [hpc]) hy⟩
  · intro p'
    have hpending : t.pending = false := hfits.1
    simp only [hpending, Function.update_apply, Send.core]
    by_cases hp : p' = t.pe
    · simp [hp]
    · simp [hp, Ne.symm hp]

theorem TaskOk.pushed (h : s.TaskOk) (hcrit : (s.links p d).crit = some (.pushed k)) :
    (((({ s with
        pendingCmds := Function.update s.pendingCmds p (s.pendingCmds p - 1) }.setCrit p d
      none)).setSend k fun t => { t with pending := false }).goto k .loop2).TaskOk := by
  obtain ⟨c, task, hc, htask, hpe, hdst, hinside, hfirst⟩ :=
    TaskInv.holder h p d (.pushed k) k hcrit rfl
  have hcores : (s.sends.modify k fun t => { t with pending := false }).map Send.core =
      (s.sends.map Send.core).modify k fun c => { c with pending := false } :=
    map_core_modify fun _ => rfl
  have hpos : 0 < s.pendingCmds p := by
    rw [TaskInv.pending h p]
    refine List.countP_pos_iff.mpr ⟨c, List.mem_of_getElem? hc, ?_⟩
    simp [hpe, (hfirst rfl).1]
  unfold TaskOk
  simp only [State.goto, setTask, State.setSend, setCrit, State.setLink, hcores]
  refine TaskInv.update h hc htask (by simp [hinside]) rfl rfl trivial ?_ ?_ ?_
  · intro p' d' y hy
    have hlink := links_setLink s p d { s.links p d with crit := none } p' d'
    simp only [State.setLink] at hlink
    rw [hlink] at hy
    split at hy
    · cases hy
    · exact Or.inl ⟨hy, TaskInv.not_holder_of_ne h hcrit rfl ‹_› hy⟩
  · intro p'
    simp only [(hfirst rfl).1, Function.update_apply]
    by_cases hp : p' = p
    · simp only [hp, hpe, if_true]
      simp
      omega
    · have hne : ¬ c.pe = p' := fun heq => hp (heq.symm.trans hpe)
      simp [hp, hne]
  · intro p' d' b hb _
    have hlink := links_setLink s p d { s.links p d with crit := none } p' d'
    simp only [State.setLink] at hlink
    rw [hlink] at hb
    split at hb
    · rename_i heq
      rw [heq.1, heq.2]
      exact Or.inl hb
    · exact Or.inl hb

theorem TaskOk.panic {e : Panic} (h : s.TaskOk) : (s.panic e).TaskOk := h

/-- A holder that panics gives its lock back. -/
theorem TaskOk.panicHolder {l : Link} {hd : Holder} {e : Panic} (h : s.TaskOk)
    (hx : (s.links p d).crit = some x)
    (hk : x.task = match hd with | .first k | .second k => some k | .recv => none)
    (hl : l.crit = none) (hcur : l.cmdBuffer.curBuf = (s.links p d).cmdBuffer.curBuf) :
    ((s.setLink p d l).panicHolder hd e).TaskOk := by
  have hcur' : ∀ b, l.cmdBuffer.curBuf = some b → b.index = 0 →
      (s.links p d).cmdBuffer.curBuf = some b ∨
        ∀ task : Task, ({ task with pc := .panicked } : Task).pc = .panicked ∧ x.first :=
    fun b hb _ => Or.inl (hcur ▸ hb)
  cases hd with
  | first k => exact (h.release hx hk hl hcur' fun _ _ _ => trivial).panic
  | second k => exact (h.release hx hk hl hcur' fun _ _ _ => trivial).panic
  | recv =>
    refine TaskOk.panic (h.setLock ?_ hcur)
    simp [hl]

theorem TaskOk.step {cfg : Config P} {a : Action P} {s' : State P} (h : s.TaskOk)
    (hstep : Step cfg s a s') : s'.TaskOk := by
  cases hstep with
  | send p d addr len hash =>
    unfold TaskOk
    simp only [State.send, List.map_append, List.map_singleton]
    exact TaskInv.send h
  | start ht htask hpc => exact h.start ht htask hpc
  | loop1 ht htask hpc =>
    have hfits := TaskInv.fits h _ _ _ (core_of_send ht) htask
    rw [hpc] at hfits
    refine h.goto ht htask (by simp [hpc]) (by simp [hpc]) ?_
    split
    · trivial
    · exact hfits
  | loop2 ht htask hpc =>
    refine h.goto ht htask (by simp [hpc]) (by simp [hpc]) ?_
    split <;> trivial
  | lock1 ht htask hpc hcrit =>
    have hfits := TaskInv.fits h _ _ _ (core_of_send ht) htask
    rw [hpc] at hfits
    exact h.acquire ht htask (by simp [hpc]) (by simp [hpc]) rfl fun _ => hfits
  | lock2 ht htask hpc hcrit =>
    exact h.acquire ht htask (by simp [hpc]) (by simp [hpc]) rfl (by simp [Crit.first])
  | next hcrit hnext =>
    obtain ⟨htask, hfirst, hafter⟩ := Next.same hnext
    exact h.nextCrit hcrit rfl htask hfirst hafter fun b hb => hb
  | @push p d k t mem m hcrit ht hpush =>
    refine h.push hcrit fun b hb => ?_
    obtain ⟨b', -, -, heq⟩ | ⟨-, heq⟩ | ⟨-, heq⟩ := tryPush_cases cfg.cmdBufLen
      (s.links p d).mem (s.links p d).cmdBuffer t.addr t.len t.hash k
    all_goals
      rw [hpush] at heq
      cases heq
    exact putCur_cur hb
  | pushPanic hcrit ht hpush =>
    exact (h.release (f := fun t => { t with pc := .panicked }) hcrit rfl rfl
      (fun _ _ _ => Or.inr fun _ => ⟨rfl, rfl⟩) fun _ _ _ => trivial).panic
  | pushed hcrit => exact h.pushed hcrit
  | headEmpty hcrit hempty =>
    exact h.release hcrit rfl rfl (fun _ hb _ => Or.inl hb) fun _ _ _ => trivial
  | transfer hcrit hcheck horder =>
    refine h.nextCrit hcrit rfl rfl rfl rfl fun b hb => ?_
    rw [← hb]
    exact (checkTransfer_cur hcheck).symm
  | @transferPanic p d hd _ _ _ hcrit hcheck =>
    refine h.panicHolder hcrit ?_ rfl (checkTransfer_cur hcheck)
    cases hd <;> rfl
  | @scanPanic p d hd _ _ _ _ _ hcrit hb hcheck =>
    refine h.panicHolder hcrit ?_ rfl rfl
    cases hd <;> rfl
  | @freeData p d hd addr freed b hcrit hb =>
    have hlinks := (freeCmds_frame s p (b.cmds (s.links p d).mem)).1
    refine (h.freeCmds).nextCrit (x := .freeData hd (addr :: freed)) ?_ rfl rfl rfl rfl ?_
    · rw [hlinks]
      exact hcrit
    · intro b hb
      rw [hlinks]
      exact hb
  | checked hcrit =>
    refine h.setLock ?_ rfl
    simp
  | flush hcrit hslot hflush =>
    exact h.nextCrit hcrit rfl rfl rfl rfl (flushBuffer_cur hflush)
  | sentFirst hcrit =>
    exact h.release hcrit rfl rfl (fun _ hb _ => Or.inl hb) fun _ _ hfirst => hfirst rfl
  | sentSecond hcrit =>
    exact h.release hcrit rfl rfl (fun _ hb _ => Or.inl hb) fun _ _ _ => trivial
  | goOn hcrit htask hwaiting =>
    exact h.release hcrit rfl rfl (fun _ hb _ => Or.inl hb) fun _ _ _ => trivial
  | exchangeFails hcrit htask hwaiting hflag =>
    exact h.release hcrit rfl rfl (fun _ hb _ => Or.inl hb) fun _ _ _ => trivial
  | exchange hcrit htask hwaiting hflag =>
    exact h.release hcrit rfl rfl (fun _ hb _ => Or.inl hb) fun _ _ _ => trivial
  | checkTransfers hpd hcrit =>
    refine h.setLock ?_ rfl
    rintro x ⟨rfl⟩
    rfl
  | poll => exact h
  | pollTx hcmd => exact h.setLink rfl rfl
  | pollPrint hcmd => exact h.setLink rfl rfl
  | pollPanic hcmd hne hl =>
    refine TaskOk.panic (h.setLink ?_ ?_)
    · rcases hl with rfl | rfl <;> rfl
    · rcases hl with rfl | rfl <;> rfl
  | fetchGet hf hpc => exact h.setLink rfl rfl
  | fetchWait hf hpc => exact h.setLink rfl rfl
  | fetchRelease hf hpc => exact h.setLink rfl rfl
  | fetchSpawn hf hpc => exact h.setLink rfl rfl
  | fetchPanic hf hpc hsize =>
    refine TaskOk.panic ?_
    exact h.setLink rfl rfl
  | fetchDone hf hpc => exact h.setLink rfl rfl
  | cmdGet hf hi =>
    refine TaskOk.setSend ?_ fun _ => rfl
    exact h.setLink rfl rfl
  | cmdSubmit hf hi =>
    refine TaskOk.setSend ?_ fun _ => rfl
    exact h.setLink rfl rfl
  | cmdCount hf hi => exact h.setLink rfl rfl
  | cmdFree hf hi => exact h.setLink rfl rfl
  | print hslot hhash hcmd => exact h.setLink rfl rfl
  | deliverSlot hputs => exact h.setLink rfl rfl
  | deliverState hputs => exact h.setLink rfl rfl
  | status p status => exact h
  | hold p addr => exact h
  | drop hpos => exact h

theorem TaskOk.new {cfg : Config P} {mem : Fin P → Fin P → Mem} : (State.new cfg mem).TaskOk :=
  TaskInv.init

/-- Once no call is pending, the current buffer is not empty. -/
theorem TaskOk.cur_pos {b : CmdBuf} (h : s.TaskOk) (hpending : s.pendingCmds p = 0)
    (hb : (s.links p d).cmdBuffer.curBuf = some b) : 0 < b.index := by
  by_contra hzero
  obtain ⟨k, c, task, hc, hpe, hpend, -⟩ := TaskInv.cur h p d b hb (by omega)
  have hcount := TaskInv.pending h p
  have hpos : 0 < (s.sends.map Send.core).countP fun c => c.pe = p ∧ c.pending :=
    List.countP_pos_iff.mpr ⟨c, List.mem_of_getElem? hc, by simp [hpe, hpend]⟩
  omega

/-- `try_sending_buffer` sends no empty buffer. -/
theorem TaskOk.flush_pos {cfg : Config P} (h : s.TaskOk)
    (hplaced : Placed cfg p d (s.links p d).cmdBuffer)
    (hgo : s.pendingCmds p = 0 ∨ 0 < (s.links p d).cmdBuffer.fullBufs.length) :
    ∀ b m, (s.links p d).cmdBuffer.takeFlush = some (b, m) → 0 < b.index := by
  intro b m htake
  cases hfull : (s.links p d).cmdBuffer.fullBufs with
  | cons b' rest =>
    simp only [CmdMsgBuffer.takeFlush, hfull, Option.some.injEq, Prod.mk.injEq] at htake
    refine hplaced.pos b (List.mem_append_left _ ?_)
    rw [hfull, ← htake.1]
    exact List.mem_cons_self
  | nil =>
    simp only [CmdMsgBuffer.takeFlush, hfull] at htake
    obtain ⟨b', hb', heq⟩ := Option.map_eq_some_iff.mp htake
    cases heq
    exact h.cur_pos (hgo.resolve_right (by simp [hfull])) hb'

end State

end Lamellar.CommandQueue
