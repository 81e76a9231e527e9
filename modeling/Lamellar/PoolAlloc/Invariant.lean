import Lamellar.PoolAlloc.Model

/-!
# The rounds of `send_alloc_inner`

The slot of a PE goes through `Clear`, `Alloc`, `Clear` and so on; `Pe.pos` counts how far it
is, so that an even number stands for `Clear`. What another PE sees of it, and what is on the
way there, are consecutive values (`Box`). A PE does not leave a round before it has seen all
the others leave it too (`Pe.need`), and with `alloc_pool` in between no PE is more than a
round ahead (`Rounds.barrier`). So a PE that waits for a slot sees the value of the right
round, and `Alloc` in the slot of an idle PE is never an old one.
-/

namespace Lamellar.PoolAlloc

open CommandQueue (CmdMsg Cmd)

variable {P : ℕ}

/-! ## Positions -/

namespace Pe

/-- The number of calls of `alloc_pool`. -/
def rounds (pe : Pe) : ℕ := pe.calls.length

/-- How far the slot of the PE is. -/
def pos (pe : Pe) : ℕ :=
  match pe.pc with
  | .putAlloc _ | .waitAlloc _ | .alloc => 2 * pe.rounds + 1
  | .allocating | .clear => 2 * pe.rounds - 1
  | .free | .checking _ | .scan _ | .start | .putClear _ | .waitClear .. => 2 * pe.rounds

/-- What has been put to PE `q`. -/
def sent (pe : Pe) (q : Fin P) : ℕ :=
  match pe.pc with
  | .putAlloc i | .putClear i => if i ≤ q then pe.pos - 1 else pe.pos
  | _ => pe.pos

/-- What the PE has seen of the slot of `q`, at least. -/
def need (pe : Pe) (q : Fin P) : ℕ :=
  match pe.pc with
  | .waitAlloc i => if q < i then 2 * pe.rounds + 1 else 2 * pe.rounds
  | .alloc => 2 * pe.rounds + 1
  | .allocating | .clear | .putClear _ => 2 * pe.rounds - 1
  | .waitClear i _ => if q < i then 2 * pe.rounds else 2 * pe.rounds - 1
  | .free | .checking _ | .scan _ | .start | .putAlloc _ => 2 * pe.rounds

/-- The counters of the PE. -/
def Ok (pe : Pe) : Prop :=
  match pe.pc with
  | .free | .checking _ | .scan _ => pe.allocId = .ofNat pe.rounds
  | .start => pe.allocId = .ofNat pe.rounds ∧ pe.rounds < 2 ^ 64
  | .putAlloc _ | .waitAlloc _ | .alloc =>
    pe.allocId = .ofNat (pe.rounds + 1) ∧ pe.id = .ofNat pe.rounds ∧ pe.rounds < 2 ^ 64
  | .allocating | .clear | .putClear _ | .waitClear .. =>
    pe.allocId = .ofNat pe.rounds ∧ pe.id = .ofNat (pe.rounds - 1) ∧ 1 ≤ pe.rounds ∧
      pe.rounds - 1 < 2 ^ 64 ∧ pe.calls.getLast? = some pe.minSize

end Pe

/-- The value at a position. -/
def Shows (n : ℕ) (c : CmdMsg) : Prop :=
  c.checkHash = true ∧
    if n % 2 = 0 then c.cmd = .clear ∧ c.hash = CmdMsg.clearCmd.hash
    else c.cmd = .alloc ∧ c.daddr = .ofNat (n / 2)

/-- What PE `p` sees of `q`, which is at `pe`, is at position `n`, and the puts on their way
follow. -/
structure Box (pe : Pe) (p q : Fin P) (slot : CmdMsg) (puts : List CmdMsg) (n : ℕ) : Prop where
  sent : n + puts.length = if p = q then pe.pos else pe.sent p
  shows : ∀ (i : ℕ) (c : CmdMsg), (slot :: puts)[i]? = some c → Shows (n + i) c
  size : ∀ (i : ℕ) (c : CmdMsg), (slot :: puts)[i]? = some c → n + i = pe.pos →
    (n + i) % 2 = 1 → c.dsize = pe.minSize
  own : p = q → puts = []

def Sees (s : State P) (p q : Fin P) (n : ℕ) : Prop :=
  Box (s.pes q) p q (s.slots p q) (s.puts q p) n

def Boxes (s : State P) : Prop := ∀ p q, ∃ n, Sees s p q n ∧ (s.pes p).need q ≤ n

structure Rounds (pes : Fin P → Pe) : Prop where
  counters : ∀ p, (pes p).Ok
  barrier : ∀ p q, (pes p).rounds ≤ (pes q).rounds + if (pes p).pc = .allocating then 1 else 0
  calls : ∀ p q, (pes p).rounds ≤ (pes q).rounds → (pes p).calls <+: (pes q).calls
  size : ∀ p q, (pes p).pc.running = true → (pes q).pc.running = true →
    (pes p).minSize = (pes q).minSize
  again : ∀ p i, (pes p).pc = .waitClear i true → ∃ q, 2 * (pes p).rounds + 1 ≤ (pes q).pos

structure Inv (s : State P) : Prop where
  boxes : Boxes s
  rounds : Rounds s.pes

/-! ## What a position says -/

theorem Shows.isAlloc {n : ℕ} {c : CmdMsg} (h : Shows n c) :
    State.isAlloc c = true ↔ n % 2 = 1 := by
  obtain ⟨hhash, hcmd⟩ := h
  split at hcmd
  · simp [State.isAlloc, hcmd.1]
    omega
  · simp [State.isAlloc, hhash, hcmd.1]
    omega

theorem Shows.isClear {n : ℕ} {c : CmdMsg} (h : Shows n c) :
    (c.checkHash = true ∧ c.cmd = .clear) ↔ n % 2 = 0 := by
  obtain ⟨hhash, hcmd⟩ := h
  split at hcmd
  · simp [hhash, hcmd.1]
    omega
  · simp [hhash, hcmd.1]
    omega

theorem Sees.slot {s : State P} {p q : Fin P} {n : ℕ} (h : Sees s p q n) :
    Shows n (s.slots p q) := h.shows 0 _ rfl

namespace Pe

theorem sent_le (pe : Pe) (q : Fin P) : pe.sent q ≤ pe.pos := by
  unfold sent
  split
  · split <;> omega
  · split <;> omega
  · exact Nat.le_refl _

theorem running_of_odd {pe : Pe} (h : pe.pos % 2 = 1) : pe.pc.running = true := by
  unfold pos at h
  split at h <;> simp [Pc.running, *]
  all_goals omega

/-- The slot is at `Alloc`, or it is `Clear` after as many rounds as there were calls. -/
theorem pos_cases (pe : Pe) :
    pe.pos = 2 * pe.rounds ∨ pe.pos = 2 * pe.rounds + 1 ∨
      pe.pos = 2 * pe.rounds - 1 ∧ (pe.pc = .allocating ∨ pe.pc = .clear) := by
  unfold pos
  split <;> simp [*]

end Pe

section

variable {s : State P} {p q : Fin P} {n : ℕ}

theorem Sees.le_pos (h : Sees s p q n) : n ≤ (s.pes q).pos := by
  have hsent := h.sent
  have hle := (s.pes q).sent_le p
  split at hsent <;> omega

theorem Rounds.pos_le {pes : Fin P → Pe} (h : Rounds pes) (p q : Fin P) :
    (pes q).pos ≤ 2 * (pes p).rounds + 1 := by
  have hbarrier := h.barrier q p
  rcases (pes q).pos_cases with hpos | hpos | ⟨hpos, hpc⟩
  · split at hbarrier
    · simp only [Pe.pos, ‹(pes q).pc = .allocating›] at hpos ⊢
      omega
    · omega
  · split at hbarrier
    · simp only [Pe.pos, ‹(pes q).pc = .allocating›] at hpos ⊢
      omega
    · omega
  · split at hbarrier <;> omega

/-- `Alloc` at a position that the PE has not left belongs to a running round. -/
theorem Inv.alloc_seen (h : Inv s) (hbox : Sees s p q n)
    (hle : 2 * (s.pes p).rounds ≤ n) (halloc : State.isAlloc (s.slots p q) = true) :
    n = 2 * (s.pes p).rounds + 1 ∧ (s.pes q).pos = n ∧
      (s.slots p q).dsize = (s.pes q).minSize := by
  have hodd := hbox.slot.isAlloc.mp halloc
  have hpos := h.rounds.pos_le p q
  have hn := hbox.le_pos
  have heq : (s.pes q).pos = n := by omega
  exact ⟨by omega, heq, hbox.size 0 _ rfl heq.symm (by simpa using hodd)⟩

/-- The round of a PE whose slot is at `Alloc` has a number of its own. -/
theorem Rounds.lt_of_pos {pes : Fin P → Pe} {r : ℕ} (h : Rounds pes)
    (hpos : (pes q).pos = 2 * r + 1) : r < 2 ^ 64 := by
  have hok := h.counters q
  unfold Pe.pos at hpos
  unfold Pe.Ok at hok
  split at hpos <;> simp only [*] at hok <;> omega

end

end Lamellar.PoolAlloc
