import Lamellar.Shmem.GroupAccesses

/-!
# The file of a call

The first member that comes to `create` makes the file, and the others find it: its name has the id,
and no other group has had this id.
-/

namespace Lamellar.Shmem

open AllocState

variable {numPes : ℕ} {sys : SharedMemory} {reply : ShmemReply} {s s' : AllocState numPes}
  {pe r q : ℕ} {c : AllocCall} {g g' : AllocGroup numPes} {f : ShmemFile}
  {files : List ShmemFile}

/-! ## Other files -/

theorem holds_of_files (h : { s with files := files }.Holds r g) : s.Holds r g :=
  ⟨h.round, h.two_le, h.le⟩

theorem FileMade.of_files (h : FileMade s f g) : FileMade { s with files := files } f g where
  round := h.round
  size_eq := h.size_eq
  nodup := h.nodup
  fits := h.fits
  mem_iff := h.mem_iff
  started := h.started
  id_le := h.id_le
  current r g' hholds := h.current r g' (holds_of_files hholds)

theorem FileOk.of_files (h : FileOk s f g) : FileOk { s with files := files } f g :=
  ⟨h.made.of_files, h.cnt_eq, h.header_eq⟩

theorem AllocInv.of_files (h : AllocInv s) (he : Extends s { s with files := files })
    (hfiles : FilesOk { s with files := files }) : AllocInv { s with files := files } where
  call pe c hc := by
    obtain ⟨g, hok⟩ := h.call pe c hc
    exact ⟨g, he.callOk hok⟩
  gates := ⟨h.gates.gathered, h.gates.counted, h.gates.cleared⟩
  words := {
    unique := fun r g hr r' g' hr' =>
      h.words.unique r g (holds_of_files hr) r' g' (holds_of_files hr')
    mutex := by
      rw [h.words.mutex]
      constructor
      · rintro ⟨r, g, hr⟩
        exact ⟨r, g, hr.round, hr.two_le, hr.le⟩
      · rintro ⟨r, g, hr⟩
        exact ⟨r, g, holds_of_files hr⟩
    id_pos := h.words.id_pos
    barrier1 := h.words.barrier1
    barrier2 := h.words.barrier2 }
  files := hfiles
  ret ret hmem := by
    obtain ⟨g, f, hok⟩ := h.ret ret hmem
    exact ⟨g, he.retOk hok⟩

/-! ## The file is made -/

section Attach

variable (h : AllocInv s) (hc : s.calls pe = some c) (hok : CallOk s pe c g)
  (hrank : c.pc.rank = 6)
include h hc hok hrank

theorem AllocInv.file_round_iff {i : ℕ} (hf : s.files[i]? = some f) :
    f.round = c.round ↔ f.id = s.id := by
  have hholds := h.holds hc hok (by omega) (by omega)
  have hfirst := hok.first_marked hc (by omega)
  obtain ⟨g', hfile⟩ := h.files.each i f hf
  exact hfile.made.current _ g hholds (by omega)

/-- Nobody has the file before it is made. -/
theorem AllocInv.stage_lt_of_no_file
    (hnone : ∀ (i : ℕ) (f : ShmemFile), s.files[i]? = some f → f.round ≠ c.round)
    (hq : q ∈ g.pes) : s.stage c.round q < 7 := by
  by_contra hlow
  have hself := stage_of_call hc
  have hgate := h.gates.counted _ _ hok.round pe hok.mem q hq (by omega)
  obtain ⟨d, hd, hround, hrank'⟩ := exists_call_of_stage_lt (hgate.trans_lt (by decide))
  obtain ⟨g', hok'⟩ := h.call q d hd
  obtain ⟨f, hf, hfround, -⟩ := hok'.hasFile (by omega)
  exact hnone _ f hf (hfround.trans hround)

/-- The new file has been mapped by nobody. -/
theorem AllocInv.fresh
    (hnone : ∀ (i : ℕ) (f : ShmemFile), s.files[i]? = some f → f.round ≠ c.round) :
    FileOk s ⟨g.fileSize, s.id, 0, 0, [], c.round⟩ g := by
  have hholds := h.holds hc hok (by omega) (by omega)
  have hfirst := hok.first_marked hc (by omega)
  have hearly (q : ℕ) (hq : q ∈ g.pes) := h.stage_lt_of_no_file hc hok hrank hnone hq
  refine ⟨⟨hok.round, rfl, List.nodup_nil, fun m hm => absurd hm List.not_mem_nil, fun q => ?_,
    Nat.le_trans (by decide) hfirst,
    Nat.le_refl _, fun r g' hr _ => ?_⟩, fun p hp _ => ?_, fun hlow => ?_⟩
  · refine iff_of_false List.not_mem_nil ?_
    rintro ⟨hq, hlow⟩
    exact absurd hlow (Nat.not_le_of_lt (hearly q hq))
  · exact iff_of_true (h.words.unique _ _ hholds _ _ hr) rfl
  · have hcount : g.pes.countP (12 ≤ s.stage c.round ·) = 0 := by
      refine List.countP_eq_zero.mpr fun q hq => ?_
      have := hearly q hq
      rw [decide_eq_true_eq]
      omega
    have := hearly _ g.firstPe_mem
    change (0 : ℤ) = (if 11 ≤ s.stage c.round g.firstPe then _ else 0) - _
    rw [if_neg (by omega), hcount]
    rfl
  · have := hearly _ g.firstPe_mem
    change 8 ≤ s.stage c.round g.firstPe at hlow
    omega

/-- The file of the name is that of the call. -/
theorem AllocInv.round_of_named {i : ℕ} (hf : s.files[i]? = some f)
    (hname : f.named g.fileSize s.id) : f.round = c.round ∧ f.id = s.id := by
  have hid := (of_decide_eq_true hname).2
  exact ⟨(h.file_round_iff hc hok hrank hf).mpr hid, hid⟩

/-- There is a new file. -/
theorem AllocInv.newFile (hnew : ∀ f ∈ s.files, ¬ f.named g.fileSize s.id) :
    let files := s.files ++ [⟨g.fileSize, s.id, 0, 0, [], c.round⟩]
    AllocInv { s with files := files } ∧ Extends s { s with files := files } := by
  have hnone (j : ℕ) (f : ShmemFile) (hf : s.files[j]? = some f) : f.round ≠ c.round := by
    intro hround
    have hid := (h.file_round_iff hc hok hrank hf).mp hround
    obtain ⟨g', hfile⟩ := h.files.each j f hf
    obtain rfl := Option.some.inj (hok.round.symm.trans (hround ▸ hfile.made.round))
    exact hnew f (List.mem_of_getElem? hf) (decide_eq_true ⟨hfile.made.size_eq, hid⟩)
  have he : Extends s { s with files := s.files ++ [⟨g.fileSize, s.id, 0, 0, [], c.round⟩] } :=
    ⟨fun _ _ hr => hr, fun _ _ _ _ => Nat.le_refl _, fun j f hf =>
      ⟨f, Roster.append_old hf, rfl, rfl, rfl, List.Subset.refl _⟩⟩
  refine ⟨h.of_files he ⟨fun j f hf => ?_, fun j₁ f₁ hf₁ j₂ f₂ hf₂ hsame => ?_⟩, he⟩
  · rcases Roster.append_new hf with hold | ⟨-, rfl⟩
    · obtain ⟨g', hfile⟩ := h.files.each j f hold
      exact ⟨g', hfile.of_files⟩
    · exact ⟨g, (h.fresh hc hok hrank hnone).of_files⟩
  · rcases Roster.append_new hf₁ with hold₁ | ⟨hj₁, rfl⟩
    · rcases Roster.append_new hf₂ with hold₂ | ⟨-, rfl⟩
      · exact h.files.inj _ _ hold₁ _ _ hold₂ hsame
      · exact absurd hsame (hnone _ _ hold₁)
    · rcases Roster.append_new hf₂ with hold₂ | ⟨hj₂, -⟩
      · exact absurd hsame.symm (hnone _ _ hold₂)
      · exact hj₁.trans hj₂.symm

omit hrank in
/-- A PE goes on in `attach_to_shmem`. -/
theorem AllocInv.trying {c' : AllocCall} {pc : AllocPc} (hpc : c.pc = pc) (hrank : pc.rank = 6)
    (pc' : AllocPc) (hpc' : c'.pc = pc') (hrank' : pc'.rank = 6) (hround : c'.round = c.round)
    (haddr : c'.addr = c.addr) (hknows : c'.Knows s pe g pc') : AllocInv (s.setCall pe c') := by
  refine h.quiet hc hok hpc pc' hpc' hround haddr ?_ (fun _ b _ hb => ?_) ?_ hknows
  · rw [hrank, hrank']
    decide
  · rwa [hrank, ← hrank']
  · rw [hrank, hrank']
    exact .of_le (by decide)

/-- `create` or `open` has failed. -/
theorem AllocInv.failed {c' : AllocCall}
    (hpc' : c'.pc = .create ∨ c'.pc = .openFile ∨ c'.pc = .panicked)
    (hround : c'.round = c.round) (haddr : c'.addr = c.addr) : AllocInv (s.setCall pe c') := by
  have hstarted : c'.Started s pe g := fun hne => hround.symm ▸ hok.started (by omega) hne
  rcases hpc' with hpc' | hpc' | hpc'
  · exact h.trying hc hok rfl hrank .create hpc' rfl hround haddr hstarted
  · exact h.trying hc hok rfl hrank .openFile hpc' rfl hround haddr hstarted
  · exact h.trying hc hok rfl hrank .panicked hpc' rfl hround haddr hstarted

/-! ## The file is mapped -/

omit h in
/-- The PE comes to those who have mapped the file. -/
theorem FileOk.map {c' : AllocCall} {addr : ℕ} (hm : Moves s s' pe c (some c'))
    (hl : LeavesMade s s' pe c (some c') g) (hfile : FileOk s f g) (hround : f.round = c.round)
    (hpc' : c'.pc = if pe = g.firstPe then .head else .ready)
    (hfits : usizeBytes ≤ addr ∧ addr + g.totalSize < word) : FileOk s' (f.map pe addr) g := by
  have hself := stage_of_call hc
  have hstage : AllocCall.stage c.round (some c') = if pe = g.firstPe then 7 else 8 := by
    rw [stage_some (hm.round c' rfl), hpc']
    split <;> rfl
  have hbounds : 7 ≤ AllocCall.stage c.round (some c') ∧ AllocCall.stage c.round (some c') ≤ 8 := by
    rw [hstage]
    split <;> decide
  have hfirst (hfirst : pe = g.firstPe) : AllocCall.stage c.round (some c') = 7 :=
    hstage.trans (if_pos hfirst)
  have hafter : 7 ≤ s'.stage c.round pe := hm.stage_self ▸ hbounds.1
  have hcnt := hfile.cnt_quiet hm hl (by omega) (by omega)
  have hheader := hfile.header_quiet hm (by omega)
  refine ⟨⟨hm.rounds ▸ hfile.made.round, hfile.made.size_eq, ?_, fun m hmem => ?_, fun q => ?_,
    hfile.made.started.trans (hm.stage_le hl.le _ _), hl.id_eq ▸ hfile.made.id_le,
    fun r g' hholds hlow => ?_⟩, hcnt, hheader⟩
  · change ((f.mapped ++ [(pe, addr)]).map Prod.fst).Nodup
    rw [List.map_append, List.nodup_append]
    refine ⟨hfile.made.nodup, List.nodup_singleton _, fun q hq q' hq' hsame => ?_⟩
    obtain rfl := List.mem_singleton.mp hq'
    have hmapped := ((hfile.made.mem_iff q).mp hq).2
    rw [hsame, hround, hself] at hmapped
    omega
  · rcases List.mem_append.mp hmem with hold | hnew
    · exact hfile.made.fits m hold
    · obtain rfl := List.mem_singleton.mp hnew
      exact hfits
  · change q ∈ (f.mapped ++ [(pe, addr)]).map Prod.fst ↔ q ∈ g.pes ∧ 7 ≤ s'.stage f.round q
    rw [List.map_append, List.mem_append, hfile.made.mem_iff, hround]
    by_cases hq : q = pe
    · subst hq
      exact iff_of_true (.inr (List.mem_singleton_self _)) ⟨hok.mem, hafter⟩
    · rw [hm.stage_of_ne hq]
      exact or_iff_left fun hmem => hq (List.mem_singleton.mp hmem)
  · obtain ⟨hholds', hlow'⟩ := hm.holds_started hl hholds hlow
    have hcurrent := hfile.made.current r g' hholds' hlow'
    rw [← hl.id_eq] at hcurrent
    exact hcurrent

theorem AllocInv.map (c' : AllocCall) {i : ℕ} (hf : s.files[i]? = some f)
    (hround : f.round = c.round) (hid : f.id = c'.header) (hround' : c'.round = c.round)
    (hpc' : c'.pc = if pe = g.firstPe then .head else .ready) (hfile : c'.file = i)
    (hfits : usizeBytes ≤ c'.addr ∧ c'.addr + g.totalSize < word) :
    AllocInv ((s.modifyFile i (.map pe c'.addr)).setCall pe c') := by
  have hm : Moves s ((s.modifyFile i (.map pe c'.addr)).setCall pe c') pe c (some c') :=
    .goOn hc rfl hround' rfl
  have hrank' : c'.pc.rank = if pe = g.firstPe then 7 else 8 := by
    rw [hpc']
    split <;> rfl
  have hbounds : 7 ≤ c'.pc.rank ∧ c'.pc.rank ≤ 8 := by
    rw [hrank']
    split <;> decide
  have hstage := stage_some hround'
  have hle : c.pc.rank ≤ AllocCall.stage c.round (some c') := by omega
  have hl : LeavesMade s ((s.modifyFile i (.map pe c'.addr)).setCall pe c') pe c (some c') g :=
    ⟨hok.round, hle, by omega, rfl⟩
  have hfiles (j : ℕ) (f : ShmemFile) (hf : s.files[j]? = some f) :
      ((s.modifyFile i (.map pe c'.addr)).setCall pe c').files[j]? =
        some (if i = j then f.map pe c'.addr else f) := by
    change (s.files.modify i _)[j]? = _
    rw [List.getElem?_modify, hf]
    rfl
  have he : Extends s ((s.modifyFile i (.map pe c'.addr)).setCall pe c') := by
    refine hm.extends_of_files hle fun j f hf => ⟨_, hfiles j f hf, ?_⟩
    split
    · exact ⟨rfl, rfl, rfl, List.subset_append_left _ _⟩
    · exact ⟨rfl, rfl, rfl, List.Subset.refl _⟩
  have hhas : c'.HasFile ((s.modifyFile i (.map pe c'.addr)).setCall pe c') pe := by
    refine ⟨f.map pe c'.addr, ?_, hround.trans hround'.symm, hid,
      List.mem_append_right _ (List.mem_singleton_self _)⟩
    rw [hfile, hfiles i f hf, if_pos rfl]
  have hstarted := hok.started (by omega)
  refine h.moves hm he hok.round hle (fun d hd => ?_) ⟨by omega, by omega, by omega⟩
    (h.words.moves hm hok.round (by omega) rfl rfl ?_ ?_)
    ⟨fun j f' hf' => ?_, h.files.inj_modify (.map pe c'.addr) (fun _ => rfl) i⟩
    fun ret hmem => .inl hmem
  · obtain rfl := Option.some.inj hd
    refine ⟨hround' ▸ he.rounds _ _ hok.round, hok.mem, ?_⟩
    rw [hpc']
    split
    · exact ⟨‹_›, hhas⟩
    · exact ⟨fun hne => hround' ▸ he.started hok.round hstarted hne, hhas⟩
  · change s.barrier1 = _
    exact barrier1_update h.words hc rfl c'.pc rfl (by omega) (by omega)
  · change s.barrier2 = _
    exact barrier2_update h.words hc rfl c'.pc rfl (by omega) (by omega) (by omega)
  · obtain ⟨f₀, hf₀, rfl⟩ := Option.map_eq_some_iff.mp ((List.getElem?_modify ..).symm.trans hf')
    obtain ⟨g', hfile'⟩ := h.files.each j f₀ hf₀
    split
    · rename_i hj
      subst hj
      obtain rfl := Option.some.inj (hf.symm.trans hf₀)
      obtain rfl := Option.some.inj (hok.round.symm.trans (hround ▸ hfile'.made.round))
      exact ⟨g, hfile'.map hc hok hrank hm hl hround hpc' hfits⟩
    · rename_i hj
      refine ⟨g', hfile'.moves_other hm hl fun hsame => hj ?_⟩
      exact h.files.inj i f hf j f₀ hf₀ (hround.trans hsame.symm)

/-- The PE has mapped the file of its call. -/
theorem AllocInv.attach {c' : AllocCall} {ptr : ℕ} (hround : c'.round = c.round)
    (hmade : c'.Made s) (hfits : ptr + g.fileSize < word) : AllocInv (s.attach pe g c' ptr) := by
  obtain ⟨f, hf, hfround, hid⟩ := hmade
  refine h.map hc hok hrank
    { c' with
      pc := if pe = g.firstPe then .head else .ready
      addr := (attachToShmem ptr g.totalSize).data } hf (hfround.trans hround) hid hround rfl rfl
    ⟨Nat.le_add_left _ _, ?_⟩
  rw [AllocGroup.fileSize] at hfits
  simp only [attachToShmem]
  omega

omit hrank

theorem AllocInv.create (hsys : sys.Lawful) (hpc : c.pc = .create)
    (hs : s.access sys pe g c reply = some s') : AllocInv s' := by
  have hrank : c.pc.rank = 6 := hpc ▸ rfl
  simp only [access, hpc] at hs
  obtain ⟨hreply, hs⟩ := Option.ite_none_right_eq_some.mp hs
  cases reply with
  | made =>
    cases hs
    obtain ⟨hinv, he⟩ := h.newFile hc hok hrank (hsys.create_new _ _ _ hreply)
    rw [hsys.words_eq]
    refine hinv.trying hc (he.callOk hok) hpc rfl .mapFile rfl rfl rfl rfl ⟨?_, ?_⟩
    · exact he.started hok.round (hok.started (by omega))
    · exact ⟨_, List.getElem?_concat_length, rfl, rfl⟩
  | mapped ptr => cases hs
  | failed e =>
    cases hs
    exact h.failed hc hok hrank (.inr e.afterCreate_eq) rfl rfl

theorem AllocInv.mapFile (hsys : sys.Lawful) (hpc : c.pc = .mapFile)
    (hs : s.access sys pe g c reply = some s') : AllocInv s' := by
  have hrank : c.pc.rank = 6 := hpc ▸ rfl
  simp only [access, hpc] at hs
  obtain ⟨hreply, hs⟩ := Option.ite_none_right_eq_some.mp hs
  cases reply with
  | made => cases hs
  | mapped ptr =>
    cases hs
    exact h.attach hc hok hrank rfl (hok.knows_at hpc).2 (hsys.map_fits _ _ _ _ hreply)
  | failed e =>
    cases hs
    exact h.failed hc hok hrank (.inr e.afterCreate_eq) rfl rfl

theorem AllocInv.openFile (hsys : sys.Lawful) (hpc : c.pc = .openFile)
    (hs : s.access sys pe g c reply = some s') : AllocInv s' := by
  have hrank : c.pc.rank = 6 := hpc ▸ rfl
  simp only [access, hpc] at hs
  obtain ⟨hreply, hs⟩ := Option.ite_none_right_eq_some.mp hs
  cases reply with
  | made => cases hs
  | mapped ptr =>
    obtain ⟨i, hfind, hs⟩ := Option.bind_eq_some_iff.mp hs
    cases hs
    obtain ⟨hlt, hname, -⟩ := List.findIdx?_eq_some_iff_getElem.mp hfind
    have hf : s.files[i]? = some s.files[i] := List.getElem?_eq_getElem hlt
    obtain ⟨hround, hid⟩ := h.round_of_named hc hok hrank hf hname
    have hopened : ({ c with file := i, header := s.id } : AllocCall).round = c.round := rfl
    exact h.attach hc hok hrank hopened ⟨_, hf, hround, hid⟩ (hsys.open_fits _ _ _ _ hreply)
  | failed e =>
    dsimp only at hs
    split at hs
    · cases hs
      exact h.failed hc hok hrank (.inl rfl) rfl rfl
    · cases hs
      exact h.failed hc hok hrank (.inr (.inr rfl)) rfl rfl

end Attach

/-! ## A call begins -/

section Enter

variable {s : AllocState numPes} {g : AllocGroup numPes}

/-- The members have called `alloc`. -/
abbrev entered (s : AllocState numPes) (g : AllocGroup numPes) : AllocState numPes :=
  { s with
    rounds := s.rounds ++ [g]
    calls := fun pe => if pe ∈ g.pes then some (.start s.rounds.length) else s.calls pe }

theorem entered_calls (s : AllocState numPes) (g : AllocGroup numPes) (q : ℕ) :
    (entered s g).calls q = if q ∈ g.pes then some (.start s.rounds.length) else s.calls q := rfl

theorem AllocInv.round_lt (h : AllocInv s) (hc : s.calls q = some c) :
    c.round < s.rounds.length := by
  obtain ⟨g, hok⟩ := h.call q c hc
  exact (List.getElem?_eq_some_iff.mp hok.round).1

variable (h : AllocInv s) (hidle : ∀ pe ∈ g.pes, s.calls pe = none)
include h hidle

/-- The stages in the other rounds are as they were, and the members are at the start of this. -/
theorem AllocInv.entered_stage (r q : ℕ) :
    (entered s g).stage r q =
      if r = s.rounds.length then if q ∈ g.pes then 0 else 18 else s.stage r q := by
  rw [stage, entered_calls]
  by_cases hq : q ∈ g.pes
  · rw [if_pos hq, if_pos hq, stage, hidle q hq, AllocCall.stage]
    exact if_congr eq_comm rfl rfl
  · rw [if_neg hq, if_neg hq]
    split
    · rename_i hr
      cases hc : s.calls q with
      | none => rfl
      | some d => exact if_neg (hr ▸ (h.round_lt hc).ne)
    · rfl

theorem AllocInv.entered_stage_of_lt {r : ℕ} (hr : r < s.rounds.length) :
    (entered s g).stage r = s.stage r := by
  funext q
  rw [h.entered_stage hidle, if_neg hr.ne]

theorem AllocInv.entered_round {r : ℕ} {g' : AllocGroup numPes}
    (hr : (entered s g).rounds[r]? = some g') :
    (s.rounds[r]? = some g' ∧ (entered s g).stage r = s.stage r) ∨
      (g' = g ∧ ∀ q ∈ g.pes, (entered s g).stage r q = 0) := by
  rcases Roster.append_new hr with hold | ⟨rfl, rfl⟩
  · exact .inl ⟨hold, h.entered_stage_of_lt hidle (List.getElem?_eq_some_iff.mp hold).1⟩
  · refine .inr ⟨rfl, fun q hq => ?_⟩
    rw [h.entered_stage hidle, if_pos rfl, if_pos hq]

theorem AllocInv.entered_holds {r : ℕ} {g' : AllocGroup numPes} :
    (entered s g).Holds r g' ↔ s.Holds r g' := by
  constructor
  · intro hholds
    have hlow := hholds.two_le
    have hhigh := hholds.le
    rcases h.entered_round hidle hholds.round with ⟨hr, hsame⟩ | ⟨rfl, hzero⟩
    · rw [hsame] at hlow hhigh
      exact ⟨hr, hlow, hhigh⟩
    · rw [hzero _ g'.firstPe_mem] at hlow
      exact absurd hlow (by decide)
  · intro hholds
    have hsame := h.entered_stage_of_lt hidle (List.getElem?_eq_some_iff.mp hholds.round).1
    exact ⟨Roster.append_old hholds.round, hsame ▸ hholds.two_le, hsame ▸ hholds.le⟩

theorem AllocInv.enter : AllocInv (entered s g) := by
  have he : Extends s (entered s g) := by
    refine ⟨fun r g' hr => Roster.append_old hr, fun r g' hr q => ?_,
      fun i f hf => ⟨f, hf, rfl, rfl, rfl, List.Subset.refl _⟩⟩
    rw [h.entered_stage_of_lt hidle (List.getElem?_eq_some_iff.mp hr).1]
  have hgate {b : ℕ} (hgates : ∀ (r : ℕ) (g : AllocGroup numPes), s.rounds[r]? = some g →
      Gate b g.pes (s.stage r)) (r : ℕ) (g' : AllocGroup numPes)
      (hr : (entered s g).rounds[r]? = some g') : Gate b g'.pes ((entered s g).stage r) := by
    rcases h.entered_round hidle hr with ⟨hold, hsame⟩ | ⟨rfl, hzero⟩
    · rw [hsame]
      exact hgates r g' hold
    · intro p _ q hq _
      rw [hzero q hq]
      exact Nat.zero_le _
  have hword {word : Option AllocCall → ℕ} (hstart : word (some (.start s.rounds.length)) = 0)
      (hnone : word none = 0) (q : ℕ) : word ((entered s g).calls q) = word (s.calls q) := by
    rw [entered_calls]
    split
    · rw [hstart, hidle q ‹_›, hnone]
    · rfl
  refine ⟨fun pe c hc => ?_, ⟨hgate h.gates.gathered, hgate h.gates.counted,
    hgate h.gates.cleared⟩, ⟨fun r g₁ h₁ r' g₂ h₂ => ?_, ?_, fun r g' hr hlow => ?_, fun q => ?_,
    fun q => ?_⟩, ⟨fun i f hf => ?_, h.files.inj⟩, fun ret hmem => ?_⟩
  · rw [entered_calls] at hc
    split at hc
    · obtain rfl := Option.some.inj hc
      exact ⟨g, List.getElem?_concat_length, ‹_›, trivial⟩
    · obtain ⟨g', hok⟩ := h.call pe c hc
      exact ⟨g', he.callOk hok⟩
  · exact h.words.unique r g₁ ((h.entered_holds hidle).mp h₁) r' g₂ ((h.entered_holds hidle).mp h₂)
  · simp only [h.entered_holds hidle]
    exact h.words.mutex
  · rcases h.entered_round hidle hr with ⟨hold, hsame⟩ | ⟨rfl, hzero⟩
    · exact h.words.id_pos r g' hold (hsame ▸ hlow)
    · rw [hzero _ g'.firstPe_mem] at hlow
      exact absurd hlow (by decide)
  · exact (h.words.barrier1 q).trans (hword (by rfl) (by rfl) q).symm
  · exact (h.words.barrier2 q).trans (hword (by rfl) (by rfl) q).symm
  · obtain ⟨g', hfile⟩ := h.files.each i f hf
    have hsame := h.entered_stage_of_lt hidle (List.getElem?_eq_some_iff.mp hfile.made.round).1
    refine ⟨g', ⟨Roster.append_old hfile.made.round, hfile.made.size_eq, hfile.made.nodup,
      hfile.made.fits, hsame ▸ hfile.made.mem_iff, hsame ▸ hfile.made.started, hfile.made.id_le,
      fun r g₁ hholds hlow => ?_⟩, hsame ▸ hfile.cnt_eq, hsame ▸ hfile.header_eq⟩
    have hholds' := (h.entered_holds hidle).mp hholds
    rw [h.entered_stage_of_lt hidle (List.getElem?_eq_some_iff.mp hholds'.round).1] at hlow
    exact hfile.made.current r g₁ hholds' hlow
  · obtain ⟨g', f, hok⟩ := h.ret ret hmem
    exact ⟨g', he.retOk hok⟩

end Enter

/-! ## The segment is used -/

/-- The counter is not read any more when a PE has returned. -/
theorem AllocInv.write (h : AllocInv s) {ret : AllocRet} (hret : ret ∈ s.returned) (cnt : ℤ) :
    AllocInv (s.modifyFile ret.file fun f => { f with cnt := cnt }) := by
  have hfiles (j : ℕ) : (s.modifyFile ret.file fun f => { f with cnt := cnt }).files[j]? =
      s.files[j]?.map fun f => if ret.file = j then { f with cnt := cnt } else f :=
    List.getElem?_modify ..
  have he : Extends s (s.modifyFile ret.file fun f => { f with cnt := cnt }) := by
    refine ⟨fun _ _ hr => hr, fun _ _ _ _ => Nat.le_refl _, fun j f hf =>
      ⟨_, (hfiles j).trans (congrArg _ hf), ?_⟩⟩
    split <;> exact ⟨rfl, rfl, rfl, List.Subset.refl _⟩
  refine h.of_files he ⟨fun j f' hf' => ?_,
    h.files.inj_modify (fun f => { f with cnt := cnt }) (fun _ => rfl) ret.file⟩
  · obtain ⟨f, hf, rfl⟩ := Option.map_eq_some_iff.mp ((hfiles j).symm.trans hf')
    obtain ⟨g, hfile⟩ := h.files.each j f hf
    refine ⟨g, ?_⟩
    split
    · rename_i hj
      obtain ⟨g', f₀, hok⟩ := h.ret ret hret
      obtain rfl := Option.some.inj (hf.symm.trans (hj ▸ hok.file))
      obtain rfl := Option.some.inj (hok.round.symm.trans (hok.round_eq ▸ hfile.made.round))
      have hmade : FileMade
          { s with files := s.files.modify ret.file fun f => { f with cnt := cnt } } f g' :=
        hfile.made.of_files
      refine ⟨⟨hmade.round, hmade.size_eq, hmade.nodup, hmade.fits, hmade.mem_iff, hmade.started,
        hmade.id_le, hmade.current⟩, fun p hp hlow => ?_, hfile.header_eq⟩
      have hpassed := hok.passed p hp
      rw [← hok.round_eq] at hpassed
      exact absurd (hpassed.trans hlow) (by decide)
    · exact hfile.of_files

/-! ## Runs -/

theorem AllocInv.init : AllocInv (.init : AllocState numPes) where
  call pe c hc := by cases hc
  gates := ⟨fun _ _ hr => (by cases hr), fun _ _ hr => (by cases hr), fun _ _ hr => (by cases hr)⟩
  words := {
    unique := fun r g hr => by cases hr.round
    mutex := by
      refine iff_of_false (fun hne => hne rfl) ?_
      rintro ⟨r, g, hr⟩
      cases hr.round
    id_pos := fun r g hr => by cases hr
    barrier1 := fun q => rfl
    barrier2 := fun q => rfl }
  files := ⟨fun _ _ hf => (by cases hf), fun _ _ hf => (by cases hf)⟩
  ret ret hmem := by cases hmem

theorem AllocInv.access (h : AllocInv s) (hsys : sys.Lawful) (hc : s.calls pe = some c)
    (hok : CallOk s pe c g) (hs : s.access sys pe g c reply = some s') : AllocInv s' := by
  cases hpc : c.pc with
  | clear => exact h.clear hc hok hpc hs
  | lock => exact h.lock hc hok hpc hs
  | bump => exact h.bump hc hok hpc hs
  | await => exact h.await hc hok hpc hs
  | mark => exact h.mark hc hok hpc hs
  | gather => exact h.gather hc hok hpc hs
  | create => exact h.create hc hok hsys hpc hs
  | mapFile => exact h.mapFile hc hok hsys hpc hs
  | openFile => exact h.openFile hc hok hsys hpc hs
  | panicked =>
    simp only [AllocState.access, hpc] at hs
    cases hs
  | head => exact h.head hc hok hpc hs
  | ready => exact h.ready hc hok hpc hs
  | publish => exact h.publish hc hok hpc hs
  | add => exact h.add hc hok hpc hs
  | sub => exact h.sub hc hok hpc hs
  | spin => exact h.spin hc hok hpc hs
  | copy => exact h.copy hc hok hpc hs
  | unmark => exact h.unmark hc hok hpc hs
  | drain => exact h.drain hc hok hpc hs
  | unpublish => exact h.unpublish hc hok hpc hs
  | unlock => exact h.unlock hc hok hpc hs

theorem AllocInv.step (h : AllocInv s) (hsys : sys.Lawful) {a : AllocAction numPes}
    (hs : s.step sys a = some s') : AllocInv s' := by
  cases a with
  | enter g =>
    simp only [AllocState.step] at hs
    obtain ⟨hidle, hs⟩ := Option.ite_none_right_eq_some.mp hs
    cases hs
    exact h.enter fun pe hpe => Option.isNone_iff_eq_none.mp (hidle pe hpe)
  | access pe reply =>
    simp only [AllocState.step] at hs
    obtain ⟨c, hc, hs⟩ := Option.bind_eq_some_iff.mp hs
    obtain ⟨g, hg, hs⟩ := Option.bind_eq_some_iff.mp hs
    obtain ⟨g', hok⟩ := h.call pe c hc
    obtain rfl := Option.some.inj (hg.symm.trans hok.round)
    exact h.access hsys hc hok hs
  | write i cnt =>
    simp only [AllocState.step] at hs
    obtain ⟨⟨ret, hret, rfl⟩, hs⟩ := Option.ite_none_right_eq_some.mp hs
    cases hs
    exact h.write hret cnt

theorem AllocReachable.inv (hsys : sys.Lawful) (h : AllocReachable sys s) : AllocInv s :=
  h.invariant (fun _ hinit => hinit ▸ .init) fun _ _ _ hinv _ hs => hinv.step hsys hs

end Lamellar.Shmem
