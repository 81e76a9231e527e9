import Lamellar.Shmem.GroupFiles

/-!
# What `ShmemAlloc::alloc` returns

The results for a group are those of one segment, and only the entries of other PEs may differ.
-/

namespace Lamellar.Shmem

open AllocState

variable {numPes : ℕ} {sys : SharedMemory} {s : AllocState numPes} {r q addr : ℕ}
  {g : AllocGroup numPes} {f : ShmemFile} {ret : AllocRet}

/-- The segment of a group whose PEs have mapped it at `ptr`, for a PE that finds `addrs` in
`barrier2` -/
def AllocGroup.segment (g : AllocGroup numPes) (ptr : ℕ → ℕ) (addrs : List ℕ)
    (fits : ∀ pe ∈ g.pes, ptr pe + usizeBytes + g.totalSize < word) : Segment numPes where
  pes := g.pes
  size := g.size
  ptr := ptr
  outside _ pe := addrs.getD pe 0
  nodup := g.nodup
  lt := g.lt
  pos := g.pos
  fits := fits

/-- Where a PE has mapped the file -/
def ShmemFile.ptr (f : ShmemFile) (pe : ℕ) : ℕ :=
  (f.mapped.lookup pe).getD usizeBytes - usizeBytes

/-- The result of a call is that of the segment; the file has its length, the members and nobody
else have mapped it, and an entry for another PE is of a file of another call. -/
structure Allocated (s : AllocState numPes) (ret : AllocRet) (seg : Segment numPes) : Prop where
  mem : ret.pe ∈ seg.pes
  size : s.files[ret.file]?.map ShmemFile.size = some (seg.shmem ret.pe).len
  data : (seg.shmem ret.pe).data = ret.addr
  alloc : seg.alloc ret.pe = (seg.shmem ret.pe, ret.relativePe, ret.addrs)
  mapped : ∀ q addr : ℕ, s.Mapped ret.file q addr ↔ q ∈ seg.pes ∧ addr = (seg.shmem q).data
  outside : ∀ q : ℕ, q ∉ seg.pes → seg.outside ret.pe q = 0 ∨
    ∃ i ≠ ret.file, s.Mapped i q (seg.outside ret.pe q)

theorem FileMade.mem_mapped_iff (h : FileMade s f g)
    (hpassed : ∀ q ∈ g.pes, 7 ≤ s.stage f.round q) :
    (q, addr) ∈ f.mapped ↔ q ∈ g.pes ∧ addr = f.ptr q + usizeBytes := by
  have hfst {addr : ℕ} (hmem : (q, addr) ∈ f.mapped) : f.ptr q + usizeBytes = addr := by
    have hlookup : f.mapped.lookup q = some addr := by
      cases hfind : f.mapped.lookup q with
      | none =>
        have hne := List.lookup_eq_none_iff.mp hfind (q, addr) hmem
        exact absurd rfl (bne_iff_ne.mp hne)
      | some addr' =>
        obtain ⟨l₁, l₂, hsplit, -⟩ := List.lookup_eq_some_iff.mp hfind
        have hmem' : (q, addr') ∈ f.mapped :=
          hsplit ▸ List.mem_append_right _ List.mem_cons_self
        have hsame := List.inj_on_of_nodup_map h.nodup hmem' hmem rfl
        exact congrArg (some ·.2) hsame
    rw [ShmemFile.ptr, hlookup]
    exact Nat.sub_add_cancel (h.fits _ hmem).1
  constructor
  · intro hmem
    exact ⟨((h.mem_iff q).mp (List.mem_map_of_mem hmem)).1, (hfst hmem).symm⟩
  · rintro ⟨hq, rfl⟩
    obtain ⟨⟨q', addr⟩, hmem, rfl⟩ := List.mem_map.mp ((h.mem_iff q).mpr ⟨hq, hpassed q hq⟩)
    rw [hfst hmem]
    exact hmem

/-- The address of a mapping is behind the first word, and the mapping ends below `word`. -/
theorem FileMade.ptr_fits (h : FileMade s f g) (pe : ℕ) :
    f.ptr pe + usizeBytes + g.totalSize < word := by
  rw [ShmemFile.ptr]
  cases hfind : f.mapped.lookup pe with
  | none => exact g.fits
  | some addr =>
    obtain ⟨l₁, l₂, hsplit, -⟩ := List.lookup_eq_some_iff.mp hfind
    obtain ⟨hle, hlt⟩ := h.fits (pe, addr) (hsplit ▸ List.mem_append_right _ List.mem_cons_self)
    rw [Option.getD_some, Nat.sub_add_cancel hle]
    exact hlt

theorem RetOk.allocated (hok : RetOk s ret g f) (hfile : FileMade s f g) :
    Allocated s ret (g.segment f.ptr ret.addrs fun pe _ => hfile.ptr_fits pe) := by
  have hpassed (q : ℕ) (hq : q ∈ g.pes) : 7 ≤ s.stage f.round q :=
    hok.round_eq ▸ (Nat.le_trans (by decide) (hok.passed q hq))
  have hmapped (q addr : ℕ) :
      s.Mapped ret.file q addr ↔ q ∈ g.pes ∧ addr = f.ptr q + usizeBytes := by
    rw [← hfile.mem_mapped_iff hpassed]
    constructor
    · rintro ⟨f', hf', hmem⟩
      obtain rfl := Option.some.inj (hok.file.symm.trans hf')
      exact hmem
    · exact fun hmem => ⟨f, hok.file, hmem⟩
  refine ⟨hok.mem, ?_, ((hfile.mem_mapped_iff hpassed).mp hok.mapped).2.symm, ?_, hmapped,
    fun q hq => ?_⟩
  · rw [hok.file, Option.map_some, hfile.size_eq]
    rfl
  · refine Prod.ext rfl (Prod.ext hok.relativePe.symm ?_)
    refine List.ext_getElem (by simp [Segment.alloc, hok.length]) fun q _ hlt => ?_
    have hget : ret.addrs[q]? = some ret.addrs[q] := List.getElem?_eq_getElem hlt
    simp only [Segment.alloc, List.getElem_map, List.getElem_range]
    split
    · exact ((hmapped q _).mp ((hok.entries q _ hget).inside ‹_›)).2.symm
    · exact (List.getD_eq_getElem _ _ hlt)
  · by_cases hlt : q < ret.addrs.length
    · have hget : ret.addrs[q]? = some ret.addrs[q] := List.getElem?_eq_getElem hlt
      have hword : (g.segment f.ptr ret.addrs fun pe _ => hfile.ptr_fits pe).outside ret.pe q =
          ret.addrs[q] := List.getD_eq_getElem _ _ hlt
      rw [hword]
      refine ((hok.entries q _ hget).outside hq).imp_right ?_
      rintro ⟨i, f', hf', hid, hmem⟩
      refine ⟨i, ?_, f', hf', hmem⟩
      rintro rfl
      obtain rfl := Option.some.inj (hok.file.symm.trans hf')
      exact absurd hid (Nat.lt_irrefl _)
    · exact .inl (List.getD_eq_default _ _ (Nat.le_of_not_lt hlt))

/-- Whatever the other groups do: all members of a group get the same segment, each with its own
position in it, and no other group gets it. -/
theorem alloc_agrees (hsys : sys.Lawful) (h : AllocReachable sys s) (hr : s.rounds[r]? = some g) :
    ∃ ptr fits, ∀ ret ∈ s.returned, ret.round = r →
      Allocated s ret (g.segment ptr ret.addrs fits) ∧
        ∀ ret' ∈ s.returned, ret'.file = ret.file ↔ ret'.round = r := by
  have hinv := h.inv hsys
  by_cases hnone : ∃ ret ∈ s.returned, ret.round = r
  · obtain ⟨ret₀, hret₀, rfl⟩ := hnone
    obtain ⟨g', f, hok₀⟩ := hinv.ret ret₀ hret₀
    obtain rfl := Option.some.inj (hr.symm.trans hok₀.round)
    obtain ⟨g', hfile⟩ := hinv.files.each _ f hok₀.file
    obtain rfl := Option.some.inj (hr.symm.trans (hok₀.round_eq ▸ hfile.made.round))
    refine ⟨f.ptr, fun pe _ => hfile.made.ptr_fits pe, fun ret hret hround => ?_⟩
    have hsame (ret' : AllocRet) (hret' : ret' ∈ s.returned) :
        ret'.file = ret₀.file ↔ ret'.round = ret₀.round := by
      obtain ⟨g', f', hok'⟩ := hinv.ret ret' hret'
      constructor
      · intro hfile
        obtain rfl := Option.some.inj (hok₀.file.symm.trans (hfile ▸ hok'.file))
        exact hok'.round_eq.symm.trans hok₀.round_eq
      · intro hround
        exact hinv.files.inj _ f' hok'.file _ f hok₀.file
          (hok'.round_eq.trans (hround.trans hok₀.round_eq.symm))
    have hfirst := (hsame ret hret).mpr hround
    refine ⟨?_, fun ret' hret' => hfirst ▸ hsame ret' hret'⟩
    obtain ⟨g', f', hok⟩ := hinv.ret ret hret
    obtain rfl := Option.some.inj (hr.symm.trans (hround ▸ hok.round))
    obtain rfl := Option.some.inj (hok₀.file.symm.trans (hfirst ▸ hok.file))
    exact hok.allocated hfile.made
  · refine ⟨fun _ => 0, fun _ _ => ?_, fun ret hret hround => absurd ⟨ret, hret, hround⟩ hnone⟩
    rw [Nat.zero_add]
    exact g.fits

def couple : AllocGroup 3 where
  pes := [1, 2]
  size := 16
  nodup := by decide
  lt := by decide
  nonempty := by decide
  pos := Nat.succ_pos _
  fits := by decide

def lone : AllocGroup 3 where
  pes := [0]
  size := 24
  nodup := by decide
  lt := by decide
  nonempty := by decide
  pos := Nat.succ_pos _
  fits := by decide

/-- Files are made and found at once, and a PE maps them where it likes. -/
def promptMemory : SharedMemory where
  create files size id
    | .made => files.all fun f => !f.named size id
    | .failed .mappingIdExists => files.any fun f => f.named size id
    | _ => false
  map _ size _
    | .mapped ptr => ptr + size < word
    | .failed .other => word ≤ size
    | _ => false
  openFile files size id
    | .mapped ptr => files.any (fun f => f.named size id) ∧ ptr + size < word
    | .failed .mapOpenFailed => !files.any fun f => f.named size id
    | .failed .other => word ≤ size
    | _ => false
  words := (0, 0)

theorem promptMemory_lawful : promptMemory.Lawful where
  create_new files size id h f hf := by
    have hnot := List.all_eq_true.mp h f hf
    simpa using hnot
  open_named files size id ptr h := List.any_eq_true.mp (of_decide_eq_true h).1
  map_fits files size id ptr h := of_decide_eq_true h
  open_fits files size id ptr h := (of_decide_eq_true h).2
  words_eq := rfl
  create_answers files size id := by
    by_cases h : files.any fun f => f.named size id
    · exact .inr ⟨.mappingIdExists, h⟩
    · refine .inl (List.all_eq_true.mpr fun f hf => ?_)
      have hnot := mt (fun hname => List.any_eq_true.mpr ⟨f, hf, hname⟩) h
      simpa using hnot
  map_answers files size id := by
    by_cases h : size < word
    · exact .inl ⟨0, decide_eq_true (by omega)⟩
    · exact .inr ⟨.other, decide_eq_true (by omega)⟩
  open_answers files size id := by
    by_cases h : files.any fun f => f.named size id
    · by_cases hsize : size < word
      · exact .inl ⟨0, decide_eq_true ⟨h, by omega⟩⟩
      · exact .inr ⟨.other, decide_eq_true (by omega)⟩
    · exact .inr ⟨.mapOpenFailed, by simpa [promptMemory] using h⟩

/-- So many accesses of a PE after so many of another, and the replies if they are to the system -/
def accesses (turns : List (ℕ × ℕ × ShmemReply)) : List (ℕ × ShmemReply) :=
  turns.flatMap fun (n, pe, reply) => List.replicate n (pe, reply)

/-- PE 1 makes the file and PE 2 opens it, and PE 1 returns. -/
def coupleTurns : List (ℕ × ℕ × ShmemReply) :=
  [(6, 1, .made), (5, 2, .made), (3, 1, .made), (6, 1, .mapped 8192), (2, 2, .made),
    (1, 2, .failed .mappingIdExists), (10, 2, .mapped 12288), (11, 1, .made)]

/-- PE 2 is late: it has yet to take back its address when PE 1 has returned, and PE 0 allocates. -/
def straggling : List (AllocAction 3) :=
  .enter couple :: (accesses coupleTurns).map (fun (pe, reply) => .access pe reply) ++
    .enter lone :: (accesses [(7, 0, .made), (16, 0, .mapped 4096)]).map fun (pe, reply) =>
      .access pe reply

theorem straggling_run :
    ((Transition.run (AllocState.step promptMemory) .init straggling).map fun s =>
      (s.rounds, s.returned.map fun ret => (ret.round, ret.addrs))) =
    some ([couple, lone], [(0, [0, 8200, 12296]), (1, [4104, 0, 12296])]) := by decide +kernel

/-- PE 0 finds an address of PE 2, which has no part in its segment. -/
theorem alloc_agrees_straggling : ∃ s : AllocState 3, AllocReachable promptMemory s ∧
    (s.returned.map fun ret => (ret.round, ret.addrs)) =
      [(0, [0, 8200, 12296]), (1, [4104, 0, 12296])] ∧
    ∃ ptr fits, ∀ ret ∈ s.returned, ret.round = 1 →
      Allocated s ret (lone.segment ptr ret.addrs fits) ∧
        ∀ ret' ∈ s.returned, ret'.file = ret.file ↔ ret'.round = 1 := by
  obtain ⟨s, hrun, hresult⟩ := Option.map_eq_some_iff.mp straggling_run
  obtain ⟨hrounds, hreturned⟩ := Prod.mk.inj hresult
  have hs : AllocReachable promptMemory s := Transition.Reach.run (.init rfl) hrun
  exact ⟨s, hs, hreturned, alloc_agrees promptMemory_lawful hs (by rw [hrounds]; rfl)⟩

end Lamellar.Shmem
