import Lamellar.Shmem.GroupAlloc

/-!
# What holds while groups allocate

How far the members of a call are is counted in stages. Three times nobody goes on before all have
come: the marks in `barrier1` tell that all are there, the counter in the segment that all have
published where they have mapped it, and the cleared marks that all have copied this. Only the group
whose first PE has the mutex has marks.
-/

namespace Lamellar.Shmem

variable {numPes : ℕ}

/-- How far a call is -/
def AllocPc.rank : AllocPc → ℕ
  | .clear => 0
  | .lock => 1
  | .bump => 2
  | .await => 3
  | .mark => 4
  | .gather => 5
  | .create | .mapFile | .openFile | .panicked => 6
  | .head => 7
  | .ready => 8
  | .publish => 9
  | .add => 10
  | .sub => 11
  | .spin => 12
  | .copy => 13
  | .unmark => 14
  | .drain => 15
  | .unpublish => 16
  | .unlock => 17

theorem AllocPc.rank_lt (pc : AllocPc) : pc.rank < 18 := by
  cases pc <;> decide

/-- The stage of a call that has been left is the last one. -/
def AllocCall.stage (r : ℕ) : Option AllocCall → ℕ
  | some c => if c.round = r then c.pc.rank else 18
  | none => 18

/-- What `barrier1` has for a PE in its call -/
def AllocCall.markWord (id : ℕ) : Option AllocCall → ℕ
  | some c => if 5 ≤ c.pc.rank ∧ c.pc.rank ≤ 14 then id else 0
  | none => 0

/-- What `barrier2` has for a PE in its call -/
def AllocCall.addrWord : Option AllocCall → ℕ
  | some c => if 10 ≤ c.pc.rank ∧ c.pc.rank ≤ 16 then c.addr else 0
  | none => 0

/-- Nobody is more than one stage beyond `b` as long as someone is not beyond it. -/
def Gate (b : ℕ) (pes : List ℕ) (stage : ℕ → ℕ) : Prop :=
  ∀ p ∈ pes, ∀ q ∈ pes, stage p ≤ b → stage q ≤ b + 1

namespace AllocState

def stage (s : AllocState numPes) (r q : ℕ) : ℕ := AllocCall.stage r (s.calls q)

/-- The first PE of the round has the mutex. -/
structure Holds (s : AllocState numPes) (r : ℕ) (g : AllocGroup numPes) : Prop where
  round : s.rounds[r]? = some g
  two_le : 2 ≤ s.stage r g.firstPe
  le : s.stage r g.firstPe ≤ 17

/-- What is never taken back -/
structure Extends (s s' : AllocState numPes) : Prop where
  rounds : ∀ (r : ℕ) (g : AllocGroup numPes), s.rounds[r]? = some g → s'.rounds[r]? = some g
  stage : ∀ (r : ℕ) (g : AllocGroup numPes), s.rounds[r]? = some g →
    ∀ q, s.stage r q ≤ s'.stage r q
  files : ∀ (i : ℕ) (f : ShmemFile), s.files[i]? = some f → ∃ f', s'.files[i]? = some f' ∧
    f'.size = f.size ∧ f'.id = f.id ∧ f'.round = f.round ∧ f.mapped ⊆ f'.mapped

/-- PE `q` has mapped file `i` at `addr`. -/
def Mapped (s : AllocState numPes) (i q addr : ℕ) : Prop :=
  ∃ f : ShmemFile, s.files[i]? = some f ∧ (q, addr) ∈ f.mapped

/-- A word of the copy of `barrier2`: where a member has mapped the file. For another PE there is no
address, or one in a file that was made earlier. -/
structure EntryOk (s : AllocState numPes) (file id : ℕ) (g : AllocGroup numPes) (q addr : ℕ) :
    Prop where
  inside : q ∈ g.pes → s.Mapped file q addr
  outside : q ∉ g.pes → addr = 0 ∨
    ∃ (i : ℕ) (f : ShmemFile), s.files[i]? = some f ∧ f.id < id ∧ (q, addr) ∈ f.mapped

end AllocState

open AllocState

/-! What a PE knows in its call, from the loop or access named on -/

namespace AllocCall

variable (s : AllocState numPes) (pe : ℕ) (g : AllocGroup numPes) (c : AllocCall)

/-- `await` -/
def Started : Prop := pe ≠ g.firstPe → 5 ≤ s.stage c.round g.firstPe

/-- `gather`, so far -/
def Gathered : Prop := ∀ q ∈ g.pes.take c.k, 5 ≤ s.stage c.round q

/-- `mapFile` -/
def Made : Prop :=
  ∃ f : ShmemFile, s.files[c.file]? = some f ∧ f.round = c.round ∧ f.id = c.header

/-- `head` and `ready` -/
def HasFile : Prop :=
  ∃ f : ShmemFile, s.files[c.file]? = some f ∧ f.round = c.round ∧ f.id = c.header ∧
    (pe, c.addr) ∈ f.mapped

/-- `copy`, so far -/
def Copied : Prop := ∀ q addr : ℕ, c.addrs[q]? = some addr → s.EntryOk c.file c.header g q addr

/-- `drain`, so far -/
def Drained (pes : List ℕ) : Prop :=
  (∀ q ∈ pes, 15 ≤ s.stage c.round q) ∧ c.relativePe = pes.countP (· < pe)

/-- `copy` -/
structure HasAddrs : Prop where
  file : c.HasFile s pe
  copied : c.Copied s g
  length : c.addrs.length = numPes

def Knows : AllocPc → Prop
  | .clear => True
  | .lock | .bump => pe = g.firstPe
  | .await => pe ≠ g.firstPe
  | .mark | .create | .openFile | .panicked => c.Started s pe g
  | .mapFile => c.Started s pe g ∧ c.Made s
  | .gather => c.Started s pe g ∧ c.Gathered s g
  | .head | .add => pe = g.firstPe ∧ c.HasFile s pe
  | .ready | .publish | .sub | .spin => c.Started s pe g ∧ c.HasFile s pe
  | .copy => c.Started s pe g ∧ c.HasFile s pe ∧ c.Copied s g ∧ c.addrs.length ≤ numPes
  | .unmark => c.Started s pe g ∧ c.HasAddrs s pe g
  | .drain => c.Started s pe g ∧ c.HasAddrs s pe g ∧ c.Drained s pe (g.pes.take c.k)
  | .unpublish => c.Started s pe g ∧ c.HasAddrs s pe g ∧ c.Drained s pe g.pes
  | .unlock => pe = g.firstPe ∧ c.HasAddrs s pe g ∧ c.Drained s pe g.pes

end AllocCall

structure CallOk (s : AllocState numPes) (pe : ℕ) (c : AllocCall) (g : AllocGroup numPes) :
    Prop where
  round : s.rounds[c.round]? = some g
  mem : pe ∈ g.pes
  knows : c.Knows s pe g c.pc

/-- A result is what it should be: the file was made for the call, all members and nobody else have
mapped it, and `addrs` tells where. -/
structure RetOk (s : AllocState numPes) (ret : AllocRet) (g : AllocGroup numPes) (f : ShmemFile) :
    Prop where
  round : s.rounds[ret.round]? = some g
  mem : ret.pe ∈ g.pes
  file : s.files[ret.file]? = some f
  round_eq : f.round = ret.round
  mapped : (ret.pe, ret.addr) ∈ f.mapped
  length : ret.addrs.length = numPes
  entries : ∀ q addr : ℕ, ret.addrs[q]? = some addr → s.EntryOk ret.file f.id g q addr
  relativePe : ret.relativePe = g.pes.countP (· < ret.pe)
  passed : ∀ q ∈ g.pes, 15 ≤ s.stage ret.round q

/-- A file that has been made for a round whose first PE has the mutex, or has had it. -/
structure FileMade (s : AllocState numPes) (f : ShmemFile) (g : AllocGroup numPes) : Prop where
  round : s.rounds[f.round]? = some g
  size_eq : f.size = g.fileSize
  nodup : (f.mapped.map Prod.fst).Nodup
  fits : ∀ m ∈ f.mapped, usizeBytes ≤ m.2 ∧ m.2 + g.totalSize < word
  mem_iff : ∀ q : ℕ, q ∈ f.mapped.map Prod.fst ↔ q ∈ g.pes ∧ 7 ≤ s.stage f.round q
  started : 3 ≤ s.stage f.round g.firstPe
  id_le : f.id ≤ s.id
  current : ∀ (r : ℕ) (g' : AllocGroup numPes), s.Holds r g' → 3 ≤ s.stage r g'.firstPe →
    (f.round = r ↔ f.id = s.id)

/-- The first words of a file: the counter has what is still to come when the first PE has added the
number of PEs. -/
structure FileOk (s : AllocState numPes) (f : ShmemFile) (g : AllocGroup numPes) : Prop where
  made : FileMade s f g
  cnt_eq : ∀ p ∈ g.pes, s.stage f.round p ≤ 12 →
    f.cnt = (if 11 ≤ s.stage f.round g.firstPe then (g.pes.length : ℤ) else 0) -
      g.pes.countP (12 ≤ s.stage f.round ·)
  header_eq : 8 ≤ s.stage f.round g.firstPe → f.header = f.id

structure FilesOk (s : AllocState numPes) : Prop where
  each : ∀ (i : ℕ) (f : ShmemFile), s.files[i]? = some f → ∃ g, FileOk s f g
  inj : ∀ (i : ℕ) (f : ShmemFile), s.files[i]? = some f →
    ∀ (j : ℕ) (f' : ShmemFile), s.files[j]? = some f' → f.round = f'.round → i = j

/-- The mutex and the words of the two barriers -/
structure WordsOk (s : AllocState numPes) : Prop where
  unique : ∀ (r : ℕ) (g : AllocGroup numPes), s.Holds r g →
    ∀ (r' : ℕ) (g' : AllocGroup numPes), s.Holds r' g' → r = r'
  mutex : s.mutex ≠ 0 ↔ ∃ r g, s.Holds r g
  id_pos : ∀ (r : ℕ) (g : AllocGroup numPes), s.rounds[r]? = some g →
    3 ≤ s.stage r g.firstPe → 0 < s.id
  barrier1 : ∀ q, s.barrier1 q = AllocCall.markWord s.id (s.calls q)
  barrier2 : ∀ q, s.barrier2 q = AllocCall.addrWord (s.calls q)

structure GatesOk (s : AllocState numPes) : Prop where
  gathered : ∀ (r : ℕ) (g : AllocGroup numPes), s.rounds[r]? = some g → Gate 4 g.pes (s.stage r)
  counted : ∀ (r : ℕ) (g : AllocGroup numPes), s.rounds[r]? = some g → Gate 11 g.pes (s.stage r)
  cleared : ∀ (r : ℕ) (g : AllocGroup numPes), s.rounds[r]? = some g → Gate 14 g.pes (s.stage r)

structure AllocInv (s : AllocState numPes) : Prop where
  call : ∀ (pe : ℕ) (c : AllocCall), s.calls pe = some c → ∃ g, CallOk s pe c g
  gates : GatesOk s
  words : WordsOk s
  files : FilesOk s
  ret : ∀ ret ∈ s.returned, ∃ g f, RetOk s ret g f

/-! ## Groups -/

namespace AllocGroup

variable {g : AllocGroup numPes}

theorem firstPe_mem (g : AllocGroup numPes) : g.firstPe ∈ g.pes := List.head_mem g.nonempty

theorem take_one (g : AllocGroup numPes) : g.pes.take 1 = [g.firstPe] := by
  rw [firstPe, List.take_one, List.head?_eq_some_head g.nonempty]
  rfl

/-- One more PE has been looked at. -/
theorem mem_take_succ {k q q' : ℕ} (hk : g.pes[k]? = some q) (h : q' ∈ g.pes.take (k + 1)) :
    q' ∈ g.pes.take k ∨ q' = q := by
  rw [List.take_add_one, hk] at h
  exact (List.mem_append.mp h).imp_right List.mem_singleton.mp

theorem take_eq_pes {k : ℕ} (hk : g.pes[k]? = none) : g.pes.take k = g.pes :=
  List.take_of_length_le (List.getElem?_eq_none_iff.mp hk)

end AllocGroup

/-! ## Stages -/

section Stage

variable {s s' : AllocState numPes} {r q pe n : ℕ} {c c' : AllocCall} {g : AllocGroup numPes}

theorem stage_of_call (hc : s.calls q = some c) : s.stage c.round q = c.pc.rank := by
  rw [stage, hc, AllocCall.stage, if_pos rfl]

theorem stage_at {pc : AllocPc} (hc : s.calls q = some c) (hpc : c.pc = pc) :
    s.stage c.round q = pc.rank :=
  hpc ▸ stage_of_call hc

/-- Who is not beyond the last stage is in its call. -/
theorem exists_call_of_stage_lt (h : s.stage r q < 18) :
    ∃ c, s.calls q = some c ∧ c.round = r ∧ c.pc.rank = s.stage r q := by
  rw [stage] at h ⊢
  cases hc : s.calls q with
  | none =>
    rw [hc, AllocCall.stage] at h
    omega
  | some c =>
    rw [hc, AllocCall.stage] at h
    split at h
    · exact ⟨c, rfl, ‹_›, by rw [AllocCall.stage, if_pos ‹_›]⟩
    · omega

theorem stage_of_ne (hc : s.calls q = some c) (hr : c.round ≠ r) : s.stage r q = 18 := by
  rw [stage, hc, AllocCall.stage, if_neg hr]

theorem marked_of_barrier1 (h : WordsOk s) (hq : s.barrier1 q ≠ 0) :
    ∃ c, s.calls q = some c ∧ 5 ≤ c.pc.rank ∧ c.pc.rank ≤ 14 := by
  rw [h.barrier1] at hq
  cases hc : s.calls q with
  | none =>
    rw [hc] at hq
    exact absurd rfl hq
  | some c =>
    rw [hc, AllocCall.markWord] at hq
    split at hq
    · exact ⟨c, rfl, ‹_›⟩
    · exact absurd rfl hq

theorem barrier1_of_marked (h : WordsOk s) (hc : s.calls q = some c) (hlow : 5 ≤ c.pc.rank)
    (hhigh : c.pc.rank ≤ 14) : s.barrier1 q = s.id := by
  rw [h.barrier1, hc, AllocCall.markWord, if_pos ⟨hlow, hhigh⟩]

theorem barrier2_of_published (h : WordsOk s) (hc : s.calls q = some c) (hlow : 10 ≤ c.pc.rank)
    (hhigh : c.pc.rank ≤ 16) : s.barrier2 q = c.addr := by
  rw [h.barrier2, hc, AllocCall.addrWord, if_pos ⟨hlow, hhigh⟩]

theorem published_of_barrier2 (h : WordsOk s) (hq : s.barrier2 q ≠ 0) :
    ∃ c, s.calls q = some c ∧ 10 ≤ c.pc.rank ∧ c.pc.rank ≤ 16 ∧ s.barrier2 q = c.addr := by
  have hword := h.barrier2 q
  cases hc : s.calls q with
  | none =>
    rw [hc] at hword
    exact absurd hword hq
  | some c =>
    rw [hc, AllocCall.addrWord] at hword
    split at hword
    · rename_i hrank
      exact ⟨c, rfl, hrank.1, hrank.2, hword⟩
    · exact absurd hword hq

end Stage

/-! ## What is never taken back -/

section Extends

variable {s s' : AllocState numPes} {i q addr id pe : ℕ} {g : AllocGroup numPes} {c : AllocCall}

theorem AllocState.Extends.mapped (he : Extends s s') (h : s.Mapped i q addr) :
    s'.Mapped i q addr := by
  obtain ⟨f, hf, hmem⟩ := h
  obtain ⟨f', hf', -, -, -, hsub⟩ := he.files i f hf
  exact ⟨f', hf', hsub hmem⟩

theorem AllocState.Extends.entryOk (he : Extends s s') {file : ℕ}
    (h : s.EntryOk file id g q addr) : s'.EntryOk file id g q addr where
  inside hq := he.mapped (h.inside hq)
  outside hq := by
    refine (h.outside hq).imp_right ?_
    rintro ⟨i, f, hf, hid, hmem⟩
    obtain ⟨f', hf', -, hid', -, hsub⟩ := he.files i f hf
    exact ⟨i, f', hf', hid' ▸ hid, hsub hmem⟩

section Knows

variable (he : Extends s s') (hround : s.rounds[c.round]? = some g)
include he hround

theorem AllocState.Extends.started (h : c.Started s pe g) : c.Started s' pe g :=
  fun hne => (h hne).trans (he.stage _ _ hround _)

theorem AllocState.Extends.gathered (h : c.Gathered s g) : c.Gathered s' g :=
  fun q hq => (h q hq).trans (he.stage _ _ hround _)

theorem AllocState.Extends.drained {pes : List ℕ} (h : c.Drained s pe pes) :
    c.Drained s' pe pes :=
  ⟨fun q hq => (h.1 q hq).trans (he.stage _ _ hround _), h.2⟩

omit hround

theorem AllocState.Extends.made (h : c.Made s) : c.Made s' := by
  obtain ⟨f, hf, hround, hid⟩ := h
  obtain ⟨f', hf', -, hid', hround', -⟩ := he.files _ f hf
  exact ⟨f', hf', hround'.trans hround, hid'.trans hid⟩

theorem AllocState.Extends.hasFile (h : c.HasFile s pe) : c.HasFile s' pe := by
  obtain ⟨f, hf, hround, hid, hmem⟩ := h
  obtain ⟨f', hf', -, hid', hround', hsub⟩ := he.files _ f hf
  exact ⟨f', hf', hround'.trans hround, hid'.trans hid, hsub hmem⟩

theorem AllocState.Extends.copied (h : c.Copied s g) : c.Copied s' g :=
  fun q addr hq => he.entryOk (h q addr hq)

theorem AllocState.Extends.hasAddrs (h : c.HasAddrs s pe g) : c.HasAddrs s' pe g :=
  ⟨he.hasFile h.file, he.copied h.copied, h.length⟩

end Knows

theorem AllocState.Extends.callOk (he : Extends s s') (h : CallOk s pe c g) :
    CallOk s' pe c g where
  round := he.rounds _ _ h.round
  mem := h.mem
  knows := by
    have hknows := h.knows
    have hround := h.round
    cases hpc : c.pc with
    | clear | lock | bump | await =>
      rw [hpc] at hknows
      exact hknows
    | mark | create | openFile | panicked =>
      rw [hpc] at hknows
      exact he.started hround hknows
    | mapFile =>
      rw [hpc] at hknows
      exact ⟨he.started hround hknows.1, he.made hknows.2⟩
    | gather =>
      rw [hpc] at hknows
      exact ⟨he.started hround hknows.1, he.gathered hround hknows.2⟩
    | head | add =>
      rw [hpc] at hknows
      exact ⟨hknows.1, he.hasFile hknows.2⟩
    | ready | publish | sub | spin =>
      rw [hpc] at hknows
      exact ⟨he.started hround hknows.1, he.hasFile hknows.2⟩
    | copy =>
      rw [hpc] at hknows
      obtain ⟨hstarted, hfile, hcopied, hle⟩ := hknows
      exact ⟨he.started hround hstarted, he.hasFile hfile, he.copied hcopied, hle⟩
    | unmark =>
      rw [hpc] at hknows
      exact ⟨he.started hround hknows.1, he.hasAddrs hknows.2⟩
    | drain | unpublish =>
      rw [hpc] at hknows
      obtain ⟨hstarted, haddrs, hdrained⟩ := hknows
      exact ⟨he.started hround hstarted, he.hasAddrs haddrs, he.drained hround hdrained⟩
    | unlock =>
      rw [hpc] at hknows
      obtain ⟨hfirst, haddrs, hdrained⟩ := hknows
      exact ⟨hfirst, he.hasAddrs haddrs, he.drained hround hdrained⟩

theorem AllocState.Extends.retOk (he : Extends s s') {ret : AllocRet} {f : ShmemFile}
    (h : RetOk s ret g f) : ∃ f', RetOk s' ret g f' := by
  obtain ⟨f', hf', -, hid, hround, hsub⟩ := he.files _ f h.file
  exact ⟨f', he.rounds _ _ h.round, h.mem, hf', hround.trans h.round_eq, hsub h.mapped, h.length,
    fun q addr hq => hid ▸ he.entryOk (h.entries q addr hq), h.relativePe,
    fun q hq => (h.passed q hq).trans (he.stage _ _ h.round _)⟩

end Extends

/-! ## Who holds the mutex -/

section Holds

variable {s : AllocState numPes} {pe : ℕ} {c : AllocCall} {g : AllocGroup numPes}

theorem CallOk.knows_at {pc : AllocPc} (h : CallOk s pe c g) (hpc : c.pc = pc) :
    c.Knows s pe g pc :=
  hpc ▸ h.knows

/-- The first PE of a call has been the first to mark. -/
theorem CallOk.started (h : CallOk s pe c g) (hlow : 4 ≤ c.pc.rank) : c.Started s pe g := by
  have hknows := h.knows
  cases hpc : c.pc with
  | clear | lock | bump | await =>
    rw [hpc] at hlow
    exact absurd hlow (by decide)
  | mark | create | openFile | panicked =>
    rw [hpc] at hknows
    exact hknows
  | head | add | unlock =>
    rw [hpc] at hknows
    exact fun hne => absurd hknows.1 hne
  | gather | mapFile | ready | publish | sub | spin | copy | unmark | drain | unpublish =>
    rw [hpc] at hknows
    exact hknows.1

theorem CallOk.hasFile (h : CallOk s pe c g) (hlow : 7 ≤ c.pc.rank) : c.HasFile s pe := by
  have hknows := h.knows
  cases hpc : c.pc with
  | clear | lock | bump | await | mark | gather | create | mapFile | openFile | panicked =>
    rw [hpc] at hlow
    exact absurd hlow (by decide)
  | head | add | ready | publish | sub | spin =>
    rw [hpc] at hknows
    exact hknows.2
  | copy =>
    rw [hpc] at hknows
    exact hknows.2.1
  | unmark =>
    rw [hpc] at hknows
    exact hknows.2.file
  | drain | unpublish | unlock =>
    rw [hpc] at hknows
    exact hknows.2.1.file

theorem CallOk.first_marked (hc : s.calls pe = some c) (hok : CallOk s pe c g)
    (hlow : 5 ≤ c.pc.rank) : 5 ≤ s.stage c.round g.firstPe := by
  by_cases hfirst : pe = g.firstPe
  · rw [← hfirst, stage_of_call hc]
    exact hlow
  · exact hok.started (by omega) hfirst

/-- A call with a mark, or about to mark, is one of the group that has the mutex. -/
theorem AllocInv.holds (h : AllocInv s) (hc : s.calls pe = some c) (hok : CallOk s pe c g)
    (hlow : 4 ≤ c.pc.rank) (hhigh : c.pc.rank ≤ 14) : s.Holds c.round g := by
  have hstage := stage_of_call hc
  by_cases hfirst : pe = g.firstPe
  · rw [hfirst] at hstage
    exact ⟨hok.round, by omega, by omega⟩
  · have hstarted := hok.started hlow hfirst
    have hcleared := h.gates.cleared _ _ hok.round pe hok.mem _ g.firstPe_mem (hstage ▸ hhigh)
    exact ⟨hok.round, by omega, by omega⟩

end Holds

end Lamellar.Shmem
