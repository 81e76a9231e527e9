import Lamellar.Lib.Roster
import Lamellar.Lib.Tally
import Lamellar.Shmem.GroupSteps

/-!
# Each access of `ShmemAlloc::alloc` keeps the invariant
-/

namespace Lamellar.Shmem

open AllocState

variable {numPes : ℕ} {sys : SharedMemory} {reply : ShmemReply} {s s' : AllocState numPes}
  {pe r q : ℕ} {c : AllocCall} {g g' : AllocGroup numPes} {f : ShmemFile}

/-! ## Loops -/

/-- One more round of a loop -/
theorem AllocInv.loop (h : AllocInv s) (hc : s.calls pe = some c) (hok : CallOk s pe c g)
    {c' : AllocCall} {pc : AllocPc} (hpc : c.pc = pc) (hpc' : c'.pc = pc)
    (hround : c'.round = c.round) (haddr : c'.addr = c.addr) (hknows : c'.Knows s pe g pc) :
    AllocInv (s.setCall pe c') :=
  h.quiet hc hok hpc pc hpc' hround haddr
    ⟨Nat.le_refl _, fun _ _ hb => hb⟩ (fun _ _ _ hb => hb)
    (.of_le fun _ _ hb => hb) hknows

variable (h : AllocInv s) (hc : s.calls pe = some c) (hok : CallOk s pe c g)
include h hc hok

theorem AllocInv.clear (hpc : c.pc = .clear) (hs : s.access sys pe g c reply = some s') :
    AllocInv s' := by
  simp only [access, hpc] at hs
  split at hs
  · split at hs
    · cases hs
      exact h.loop hc hok hpc rfl rfl rfl trivial
    · cases hs
  · cases hs
    split
    · rename_i hfirst
      exact h.quiet hc hok hpc .lock rfl rfl rfl (by decide) (fun _ => by decide)
        (.of_le (by decide)) hfirst
    · rename_i hfirst
      exact h.quiet hc hok hpc .await rfl rfl rfl (by decide) (fun hself => absurd hself hfirst)
        (.of_le (by decide)) hfirst

/-- A mark of the first PE is for the round. -/
theorem AllocInv.await (hpc : c.pc = .await) (hs : s.access sys pe g c reply = some s') :
    AllocInv s' := by
  have hother : pe ≠ g.firstPe := hok.knows_at hpc
  simp only [access, hpc] at hs
  split at hs
  · cases hs
  · rename_i hmark
    cases hs
    refine h.quiet hc hok hpc .mark rfl rfl rfl (by decide) (fun hself => absurd hself hother)
      (.of_le (by decide)) fun _ => ?_
    have hstage := stage_at hc hpc
    have hgate := h.gates.gathered _ _ hok.round pe hok.mem _ g.firstPe_mem
      (hstage.trans_le (by decide))
    obtain ⟨d, hd, hlow, -⟩ := marked_of_barrier1 h.words hmark
    obtain ⟨d', hd', -, hrank⟩ := exists_call_of_stage_lt (hgate.trans_lt (by decide))
    obtain rfl := Option.some.inj (hd.symm.trans hd')
    exact hrank ▸ hlow

theorem AllocInv.gather (hpc : c.pc = .gather) (hs : s.access sys pe g c reply = some s') :
    AllocInv s' := by
  obtain ⟨hstarted, hgathered⟩ := hok.knows_at hpc
  simp only [access, hpc] at hs
  split at hs
  · rename_i q hq
    split at hs
    · rename_i hmark
      cases hs
      refine h.loop hc hok hpc rfl rfl rfl ⟨hstarted, fun q' hq' => ?_⟩
      rcases AllocGroup.mem_take_succ hq hq' with hbefore | rfl
      · exact hgathered q' hbefore
      · have hfirst := hok.first_marked hc (by rw [hpc]; decide)
        have hid := h.words.id_pos _ _ hok.round (Nat.le_trans (by decide) hfirst)
        obtain ⟨d, hd, hlow, -⟩ := marked_of_barrier1 h.words (hmark ▸ hid.ne')
        by_cases hround : d.round = c.round
        · exact hround ▸ stage_of_call hd ▸ hlow
        · rw [stage_of_ne hd hround]
          decide
    · cases hs
  · rename_i hk
    cases hs
    rw [AllocCall.Gathered, AllocGroup.take_eq_pes hk] at hgathered
    exact h.quiet hc hok hpc .create rfl rfl rfl (by decide) (fun _ => by decide)
      ⟨fun _ _ => hgathered, fun _ hn => absurd hn (by decide), fun _ hn => absurd hn (by decide)⟩
      hstarted

theorem AllocInv.ready (hpc : c.pc = .ready) (hs : s.access sys pe g c reply = some s') :
    AllocInv s' := by
  have hknows := hok.knows_at hpc
  simp only [access, hpc] at hs
  obtain ⟨f, -, hs⟩ := Option.bind_eq_some_iff.mp hs
  obtain ⟨-, hs⟩ := Option.ite_none_right_eq_some.mp hs
  cases hs
  exact h.quiet hc hok hpc .publish rfl rfl rfl (by decide) (fun _ => by decide)
    (.of_le (by decide)) hknows

/-- When the counter is zero, all have published their addresses. -/
theorem AllocInv.spin (hpc : c.pc = .spin) (hs : s.access sys pe g c reply = some s') :
    AllocInv s' := by
  have hknows := hok.knows_at hpc
  have hstage := stage_at hc hpc
  simp only [access, hpc] at hs
  obtain ⟨f, hf, hs⟩ := Option.bind_eq_some_iff.mp hs
  obtain ⟨hcnt, hs⟩ := Option.ite_none_right_eq_some.mp hs
  cases hs
  have hall : ∀ q ∈ g.pes, 11 < s.stage c.round q := by
    obtain ⟨f', hf', hround, -, -⟩ := hknows.2
    obtain rfl := Option.some.inj (hf.symm.trans hf')
    obtain ⟨g', hfile⟩ := h.files.each _ f hf
    obtain rfl := Option.some.inj (hok.round.symm.trans (hround ▸ hfile.made.round))
    have hcount := hfile.cnt_eq pe hok.mem (hround ▸ hstage.le)
    rw [hround, hcnt] at hcount
    have hself : 0 < g.pes.countP (12 ≤ s.stage c.round ·) :=
      List.countP_pos_iff.mpr ⟨pe, hok.mem, decide_eq_true hstage.ge⟩
    have hlength : g.pes.countP (12 ≤ s.stage c.round ·) = g.pes.length := by
      split at hcount
      · omega
      · omega
    intro q hq
    exact of_decide_eq_true (List.countP_eq_length.mp hlength q hq)
  exact h.quiet hc hok hpc .copy rfl rfl rfl (by decide) (fun _ => by decide)
    ⟨fun hm => absurd hm (by decide), fun _ _ => hall, fun _ hn => absurd hn (by decide)⟩
    ⟨hknows.1, hknows.2, fun q addr hq => (by cases hq), Nat.zero_le _⟩

omit hok in
/-- What `barrier2` has for a PE comes from a file that it has mapped. -/
theorem AllocInv.exists_mapped (hlow : 10 ≤ c.pc.rank) (hhigh : c.pc.rank ≤ 16) :
    ∃ f : ShmemFile, s.files[c.file]? = some f ∧ f.round = c.round ∧
      (pe, s.barrier2 pe) ∈ f.mapped := by
  obtain ⟨g, hok⟩ := h.call pe c hc
  obtain ⟨f, hf, hround, -, hmem⟩ := hok.hasFile (by omega)
  exact ⟨f, hf, hround, (barrier2_of_published h.words hc hlow hhigh).symm ▸ hmem⟩

/-- The file of a call that has the mutex has the last id, and those of others lower ones. -/
theorem AllocInv.id_lt (hlow : 5 ≤ c.pc.rank) (hhigh : c.pc.rank ≤ 14) {i : ℕ}
    (hf : s.files[i]? = some f) (hround : f.round ≠ c.round) : f.id < s.id := by
  have hholds := h.holds hc hok (by omega) hhigh
  have hfirst := hok.first_marked hc hlow
  obtain ⟨g', hfile⟩ := h.files.each i f hf
  have hne : f.id ≠ s.id := fun hid =>
    hround ((hfile.made.current _ g hholds (by omega)).mpr hid)
  have := hfile.made.id_le
  omega

theorem AllocInv.header_eq (hlow : 7 ≤ c.pc.rank) (hhigh : c.pc.rank ≤ 14) : c.header = s.id := by
  have hholds := h.holds hc hok (by omega) hhigh
  have hfirst := hok.first_marked hc (by omega)
  obtain ⟨f, hf, hround, hid, -⟩ := hok.hasFile hlow
  obtain ⟨g', hfile⟩ := h.files.each _ f hf
  exact hid ▸ (hfile.made.current _ g hholds (by omega)).mp hround

/-- A member reads where another has mapped the file. -/
theorem AllocInv.entryOk (hpc : c.pc = .copy) (q : ℕ) :
    s.EntryOk c.file c.header g q (s.barrier2 q) where
  inside hq := by
    have hstage := stage_at hc hpc
    have hcounted : 11 < s.stage c.round q := by
      by_contra hlow
      have := h.gates.counted _ _ hok.round q hq pe hok.mem (Nat.le_of_not_lt hlow)
      rw [hstage] at this
      exact absurd this (by decide)
    have hcleared := h.gates.cleared _ _ hok.round pe hok.mem q hq (hstage.trans_le (by decide))
    obtain ⟨d, hd, hround, hrank⟩ := exists_call_of_stage_lt (hcleared.trans_lt (by decide))
    obtain ⟨f, hf, hfround, hmem⟩ := h.exists_mapped hd (by omega) (by omega)
    obtain ⟨f', hf', hfround', -, -⟩ := hok.hasFile (by rw [hpc]; decide)
    have hfile := h.files.inj _ f hf _ f' hf' (hfround.trans (hround.trans hfround'.symm))
    exact ⟨f, hfile ▸ hf, hmem⟩
  outside hq := by
    by_cases hzero : s.barrier2 q = 0
    · exact .inl hzero
    · obtain ⟨d, hd, hlow, hhigh, -⟩ := published_of_barrier2 h.words hzero
      obtain ⟨f, hf, hfround, hmem⟩ := h.exists_mapped hd hlow hhigh
      refine .inr ⟨_, f, hf, ?_, hmem⟩
      rw [h.header_eq hc hok (by rw [hpc]; decide) (by rw [hpc]; decide)]
      refine h.id_lt hc hok (by rw [hpc]; decide) (by rw [hpc]; decide) hf fun hround => hq ?_
      obtain ⟨g', hok'⟩ := h.call q d hd
      obtain rfl := Option.some.inj
        (hok.round.symm.trans (hround ▸ hfround.symm ▸ hok'.round))
      exact hok'.mem

theorem AllocInv.copy (hpc : c.pc = .copy) (hs : s.access sys pe g c reply = some s') :
    AllocInv s' := by
  obtain ⟨hstarted, hfile, hcopied, hle⟩ := hok.knows_at hpc
  simp only [access, hpc] at hs
  split at hs
  · rename_i hlt
    cases hs
    refine h.loop hc hok hpc rfl rfl rfl ⟨hstarted, hfile, fun q addr hq => ?_, ?_⟩
    · rcases Roster.append_new hq with hold | ⟨rfl, rfl⟩
      · exact hcopied q addr hold
      · exact h.entryOk hc hok hpc _
    · rw [List.length_append]
      exact hlt
  · rename_i hlt
    cases hs
    exact h.quiet hc hok hpc .unmark rfl rfl rfl (by decide) (fun _ => by decide)
      (.of_le (by decide)) ⟨hstarted, hfile, hcopied, Nat.le_antisymm hle (Nat.le_of_not_lt hlt)⟩

/-- A member whose mark is cleared has copied the addresses. -/
theorem AllocInv.drain (hpc : c.pc = .drain) (hs : s.access sys pe g c reply = some s') :
    AllocInv s' := by
  obtain ⟨hstarted, haddrs, hdrained, hcount⟩ := hok.knows_at hpc
  have hstage := stage_at hc hpc
  simp only [access, hpc] at hs
  split at hs
  · rename_i q hq
    obtain ⟨hmark, hs⟩ := Option.ite_none_right_eq_some.mp hs
    cases hs
    refine h.loop hc hok hpc rfl rfl rfl ⟨hstarted, ⟨haddrs.file, haddrs.copied, haddrs.length⟩,
      fun q' hq' => ?_, ?_⟩
    · rcases AllocGroup.mem_take_succ hq hq' with hbefore | rfl
      · exact hdrained q' hbefore
      · have hmem : q' ∈ g.pes := List.mem_of_mem_take hq'
        by_contra hlow
        have hcounted : 11 < s.stage c.round q' := by
          by_contra hlow'
          have := h.gates.counted _ _ hok.round q' hmem pe hok.mem (Nat.le_of_not_lt hlow')
          rw [hstage] at this
          exact absurd this (by decide)
        change ¬ 15 ≤ s.stage c.round q' at hlow
        obtain ⟨d, hd, hround, hrank⟩ := exists_call_of_stage_lt (s := s) (r := c.round) (q := q')
          (by omega)
        have hfirst := hok.first_marked hc (by rw [hpc]; decide)
        have hid := h.words.id_pos _ _ hok.round (by omega)
        rw [barrier1_of_marked h.words hd (by omega) (by omega)] at hmark
        omega
    · change _ = List.countP _ (g.pes.take (c.k + 1))
      rw [List.take_add_one, hq, List.countP_append]
      simp only [Option.toList_some, List.countP_singleton, decide_eq_true_eq]
      exact congrArg (· + _) hcount
  · rename_i hk
    cases hs
    rw [AllocGroup.take_eq_pes hk] at hdrained hcount
    exact h.quiet hc hok hpc .unpublish rfl rfl rfl (by decide) (fun _ => by decide)
      ⟨fun hm => absurd hm (by decide), fun hm => absurd hm (by decide), fun _ _ => hdrained⟩
      ⟨hstarted, ⟨haddrs.file, haddrs.copied, haddrs.length⟩, hdrained, hcount⟩

/-! ## The words of the PE -/

theorem AllocInv.mark (hpc : c.pc = .mark) (hs : s.access sys pe g c reply = some s') :
    AllocInv s' := by
  have hknows := hok.knows_at hpc
  simp only [access, hpc] at hs
  cases hs
  refine h.goOn hc hok hpc .gather rfl rfl ⟨by decide, by decide, fun _ => by decide⟩
    (.of_le (by decide)) rfl ?_ fun s' he hself => ?_
  · exact barrier2_update h.words hc hpc .gather rfl (by decide) (by decide) fun _ => rfl
  · have hstarted : c.Started s' pe g := he.started hok.round hknows
    refine ⟨hstarted, fun q hq => ?_⟩
    rw [g.take_one, List.mem_singleton] at hq
    subst hq
    by_cases hfirst : pe = g.firstPe
    · rw [← hfirst]
      exact hself.ge
    · exact hstarted hfirst

theorem AllocInv.publish (hpc : c.pc = .publish) (hs : s.access sys pe g c reply = some s') :
    AllocInv s' := by
  have hknows := hok.knows_at hpc
  simp only [access, hpc] at hs
  cases hs
  split
  · rename_i hfirst
    exact h.goOn hc hok hpc .add rfl rfl ⟨by decide, by decide, fun _ => by decide⟩
      (.of_le (by decide)) (barrier1_update h.words hc hpc .add rfl (by decide) (by decide)) rfl
      fun s' he _ => ⟨hfirst, he.hasFile hknows.2⟩
  · rename_i hfirst
    exact h.goOn hc hok hpc .sub rfl rfl ⟨by decide, by decide, fun hself => absurd hself hfirst⟩
      (.of_le (by decide)) (barrier1_update h.words hc hpc .sub rfl (by decide) (by decide)) rfl
      fun s' he _ => ⟨he.started hok.round hknows.1, he.hasFile hknows.2⟩

theorem AllocInv.unmark (hpc : c.pc = .unmark) (hs : s.access sys pe g c reply = some s') :
    AllocInv s' := by
  have hknows := hok.knows_at hpc
  simp only [access, hpc] at hs
  cases hs
  refine h.goOn hc hok hpc .drain rfl rfl ⟨by decide, by decide, fun _ => by decide⟩
    (.of_le (by decide)) rfl ?_ fun s' he _ => ?_
  · exact barrier2_update h.words hc hpc .drain rfl (by decide) (by decide) fun _ => rfl
  · obtain ⟨hfile, hcopied, hlength⟩ := he.hasAddrs hknows.2
    exact ⟨he.started hok.round hknows.1, ⟨hfile, hcopied, hlength⟩,
      fun q hq => absurd hq List.not_mem_nil, rfl⟩

/-! ## The mutex and the id -/

/-- The first PE takes the mutex when nobody has it. -/
theorem AllocInv.lock (hpc : c.pc = .lock) (hs : s.access sys pe g c reply = some s') :
    AllocInv s' := by
  have hself : pe = g.firstPe := hok.knows_at hpc
  simp only [access, hpc] at hs
  obtain ⟨hmutex, hs⟩ := Option.ite_none_right_eq_some.mp hs
  have hfree : ∀ r g', ¬ s.Holds r g' := fun r g' hholds =>
    absurd hmutex (h.words.mutex.mpr ⟨r, g', hholds⟩)
  cases hs
  have hrank : c.pc.rank = 1 := by
    rw [hpc]
    rfl
  have hm : Moves s ({ s with mutex := 1 }.setCall pe { c with pc := .bump }) pe c
      (some { c with pc := .bump }) := .goOn hc rfl rfl rfl
  have hstage : AllocCall.stage c.round (some { c with pc := .bump }) = 2 := stage_some rfl
  have hl : LeavesMade s ({ s with mutex := 1 }.setCall pe { c with pc := .bump }) pe c
      (some { c with pc := .bump }) g := ⟨hok.round, by omega, by omega, rfl⟩
  have he := hm.extends_of_eq hl.le rfl
  have hholds {r : ℕ} {g' : AllocGroup numPes}
      (hholds : ({ s with mutex := 1 }.setCall pe { c with pc := .bump }).Holds r g') :
      r = c.round := by
    by_contra hround
    refine hfree r g' ⟨hholds.round, ?_, ?_⟩
    · exact hm.stage_round hround ▸ hholds.two_le
    · exact hm.stage_round hround ▸ hholds.le
  refine h.moves hm he hok.round hl.le (fun d hd => ?_) ?_ ?_ ?_ fun ret hmem => .inl hmem
  · obtain rfl := Option.some.inj hd
    exact ⟨hok.round, hok.mem, hself⟩
  · rw [hstage, hrank]
    exact .of_le (by decide)
  · refine ⟨fun r g₁ h₁ r' g₂ h₂ => (hholds h₁).trans (hholds h₂).symm,
      iff_of_true Nat.one_ne_zero ⟨c.round, g, hok.round, ?_, ?_⟩,
      fun r g' => h.words.id_pos_moves hm hok.round (by omega),
      h.words.barrier1_moves hm rfl ?_, h.words.barrier2_moves hm ?_⟩
    · rw [← hself, hm.stage_self, hstage]
    · rw [← hself, hm.stage_self, hstage]
      decide
    · change s.barrier1 = _
      exact barrier1_update h.words hc hpc .bump rfl (by decide) (by decide)
    · change s.barrier2 = _
      exact barrier2_update h.words hc hpc .bump rfl (by decide) (by decide) fun _ => rfl
  · refine h.files.moves_quiet hm hl rfl ?_ ?_ fun _ => ?_ <;> omega

/-- Nobody reads the id when it changes. -/
theorem AllocInv.unread (hpc : c.pc = .bump) {d : AllocCall} (hd : s.calls q = some d) :
    ¬ (4 ≤ d.pc.rank ∧ d.pc.rank ≤ 14) := by
  rintro ⟨hlow, hhigh⟩
  have hself : pe = g.firstPe := hok.knows_at hpc
  have hfirst : s.stage c.round g.firstPe = 2 := by
    rw [← hself, stage_of_call hc, hpc]
    rfl
  have hholds : s.Holds c.round g := ⟨hok.round, hfirst.ge, by omega⟩
  obtain ⟨g', hok'⟩ := h.call q d hd
  have hround := h.words.unique _ _ hholds _ _ (h.holds hd hok' hlow hhigh)
  obtain rfl := Option.some.inj (hok.round.symm.trans (hround ▸ hok'.round))
  by_cases hq : q = g.firstPe
  · have hrank := stage_of_call hd
    rw [← hround, hq, hfirst] at hrank
    omega
  · have hmarked := hok'.started hlow hq
    rw [← hround] at hmarked
    omega

/-- The id changes when nobody has a mark, and no file has the new one. -/
theorem AllocInv.bump (hpc : c.pc = .bump) (hs : s.access sys pe g c reply = some s') :
    AllocInv s' := by
  have hself : pe = g.firstPe := hok.knows_at hpc
  have hrank : c.pc.rank = 2 := by
    rw [hpc]
    rfl
  have hfirst : s.stage c.round g.firstPe = 2 := by
    rw [← hself, stage_of_call hc, hrank]
  have hholds : s.Holds c.round g := ⟨hok.round, hfirst.ge, by omega⟩
  have hnone (q : ℕ) (d : AllocCall) (hd : s.calls q = some d) :
      ¬ (5 ≤ d.pc.rank ∧ d.pc.rank ≤ 14) := fun ⟨hlow, hhigh⟩ =>
    h.unread hc hok hpc hd ⟨Nat.le_of_succ_le hlow, hhigh⟩
  simp only [access, hpc] at hs
  cases hs
  have hm : Moves s ({ s with id := s.id + 1 }.setCall pe { c with pc := .mark }) pe c
      (some { c with pc := .mark }) := .goOn hc rfl rfl rfl
  have hstage : AllocCall.stage c.round (some { c with pc := .mark }) = 4 := stage_some rfl
  have he := hm.extends_of_eq (by omega) rfl
  have hholds' {r : ℕ} {g' : AllocGroup numPes}
      (hholds' : ({ s with id := s.id + 1 }.setCall pe { c with pc := .mark }).Holds r g') :
      r = c.round :=
    h.words.unique r g' (hm.holds_of_holds hok.round (by omega) hholds') _ _ hholds
  refine h.moves hm he hok.round (by omega) (fun d hd => ?_) ?_ ?_ ?_ fun ret hmem => .inl hmem
  · obtain rfl := Option.some.inj hd
    exact ⟨hok.round, hok.mem, fun hne => absurd hself hne⟩
  · rw [hstage, hrank]
    exact .of_le (by decide)
  · refine ⟨fun r g₁ h₁ r' g₂ h₂ => (hholds' h₁).trans (hholds' h₂).symm, ?_,
      fun r g' _ _ => Nat.succ_pos _, fun q => ?_, h.words.barrier2_moves hm ?_⟩
    · exact iff_of_true (h.words.mutex.mpr ⟨_, _, hholds⟩)
        ⟨_, _, hm.holds_of_prior hok.round (by omega) hholds⟩
    · by_cases hq : q = pe
      · rw [hq, hm.calls_self]
        change s.barrier1 pe = 0
        rw [h.words.barrier1, hc, AllocCall.markWord, if_neg (hnone pe c hc)]
      · rw [hm.calls_of_ne hq]
        change s.barrier1 q = _
        rw [h.words.barrier1]
        cases hd : s.calls q with
        | none => rfl
        | some d => rw [AllocCall.markWord, AllocCall.markWord, if_neg (hnone q d hd),
            if_neg (hnone q d hd)]
    · change s.barrier2 = _
      exact barrier2_update h.words hc hpc .mark rfl (by decide) (by decide) fun _ => rfl
  · refine ⟨fun i f hf => ?_, h.files.inj⟩
    obtain ⟨g', hfile⟩ := h.files.each i f hf
    have hround : f.round ≠ c.round := fun hround => by
      obtain rfl := Option.some.inj (hok.round.symm.trans (hround ▸ hfile.made.round))
      have := hfile.made.started
      rw [hround] at this
      omega
    have hsame : ({ s with id := s.id + 1 }.setCall pe { c with pc := .mark }).stage f.round =
        s.stage f.round := funext fun q => hm.stage_round hround
    refine ⟨g', ⟨hfile.made.round, hfile.made.size_eq, hfile.made.nodup, hfile.made.fits, ?_, ?_,
      hfile.made.id_le.trans (Nat.le_succ _), fun r g₁ hr _ => ?_⟩, ?_, ?_⟩
    · rw [hsame]
      exact hfile.made.mem_iff
    · rw [hsame]
      exact hfile.made.started
    · have := hfile.made.id_le
      exact iff_of_false (hholds' hr ▸ hround) (Nat.ne_of_lt (Nat.lt_succ_of_le this))
    · rw [hsame]
      exact hfile.cnt_eq
    · rw [hsame]
      exact hfile.header_eq

/-! ## The end of a call -/

/-- A PE leaves with what it knows. -/
theorem AllocInv.leave (haddrs : c.HasAddrs s pe g) (hdrained : c.Drained s pe g.pes)
    (hrank : 16 ≤ c.pc.rank) (mutex : ℕ) (barrier2 : ℕ → ℕ)
    (hwords : WordsOk ({ s with mutex := mutex, barrier2 := barrier2 }.leave pe c)) :
    AllocInv ({ s with mutex := mutex, barrier2 := barrier2 }.leave pe c) := by
  have hm : Moves s ({ s with mutex := mutex, barrier2 := barrier2 }.leave pe c) pe c none :=
    ⟨hc, rfl, rfl, fun d hd => by cases hd⟩
  have hstage : AllocCall.stage c.round none = 18 := rfl
  have hlt := c.pc.rank_lt
  have hl : LeavesMade s ({ s with mutex := mutex, barrier2 := barrier2 }.leave pe c) pe c none g :=
    ⟨hok.round, by omega, by omega, rfl⟩
  have he := hm.extends_of_eq hl.le rfl
  refine h.moves hm he hok.round hl.le (fun d hd => by cases hd)
    (.of_le fun b hb _ => ?_) hwords (h.files.moves_quiet hm hl rfl ?_ ?_ fun _ => ?_)
    fun ret hmem => ?_
  · simp only [List.mem_cons, List.not_mem_nil, or_false] at hb
    omega
  · omega
  · omega
  · omega
  · rcases List.mem_append.mp hmem with hold | hnew
    · exact .inl hold
    · obtain rfl := List.mem_singleton.mp hnew
      obtain ⟨f, hf, hround, hid, hmapped⟩ := haddrs.file
      refine .inr (he.retOk (f := f) ⟨hok.round, hok.mem, hf, hround, hmapped, haddrs.length,
        fun q addr hq => hid ▸ haddrs.copied q addr hq, hdrained.2, hdrained.1⟩)

theorem AllocInv.unpublish (hpc : c.pc = .unpublish) (hs : s.access sys pe g c reply = some s') :
    AllocInv s' := by
  obtain ⟨-, haddrs, hdrained⟩ := hok.knows_at hpc
  have hrank : c.pc.rank = 16 := by
    rw [hpc]
    rfl
  simp only [access, hpc] at hs
  split at hs
  · rename_i hfirst
    cases hs
    refine h.goOn hc hok hpc .unlock rfl rfl ⟨by decide, by decide, fun _ => by decide⟩
      (.of_le (by decide)) ?_ rfl fun s' he _ => ?_
    · exact barrier1_update h.words hc hpc .unlock rfl (by decide) (by decide)
    · obtain ⟨hfile, hcopied, hlength⟩ := he.hasAddrs haddrs
      exact ⟨hfirst, ⟨hfile, hcopied, hlength⟩, he.drained hok.round hdrained⟩
  · rename_i hother
    cases hs
    refine h.leave hc hok haddrs hdrained hrank.ge s.mutex _ ?_
    have hm : Moves s ({ s with barrier2 := Function.update s.barrier2 pe 0 }.leave pe c) pe c
        none := ⟨hc, rfl, rfl, fun d hd => by cases hd⟩
    refine h.words.moves hm hok.round (fun hself => absurd hself hother) rfl rfl ?_ rfl
    change s.barrier1 = Function.update s.barrier1 pe 0
    have hword : s.barrier1 pe = 0 := by
      rw [h.words.barrier1, hc, AllocCall.markWord, if_neg (by omega)]
    rw [← hword, Function.update_eq_self]

/-- Nobody has the mutex when the first PE has left. -/
theorem AllocInv.unlock (hpc : c.pc = .unlock) (hs : s.access sys pe g c reply = some s') :
    AllocInv s' := by
  obtain ⟨hself, haddrs, hdrained⟩ := hok.knows_at hpc
  have hrank : c.pc.rank = 17 := by
    rw [hpc]
    rfl
  have hlock := stage_of_call hc
  rw [hself] at hlock
  have hholds : s.Holds c.round g := ⟨hok.round, by omega, by omega⟩
  simp only [access, hpc] at hs
  cases hs
  have hm : Moves s ({ s with mutex := 0 }.leave pe c) pe c none :=
    ⟨hc, rfl, rfl, fun d hd => by cases hd⟩
  have hstage : AllocCall.stage c.round none = 18 := rfl
  have hnone {r : ℕ} {g' : AllocGroup numPes}
      (hholds' : ({ s with mutex := 0 }.leave pe c).Holds r g') : False := by
    have hround := h.words.unique r g' (hm.holds_of_holds hok.round (by omega) hholds') _ _ hholds
    subst hround
    obtain rfl := Option.some.inj (hok.round.symm.trans hholds'.round)
    have hle := hholds'.le
    rw [← hself, hm.stage_self] at hle
    omega
  refine h.leave hc hok haddrs hdrained (by omega) 0 s.barrier2 ?_
  refine ⟨fun r g₁ h₁ => (hnone h₁).elim, iff_of_false (fun hne => hne rfl) ?_,
    fun r g' => h.words.id_pos_moves hm hok.round (by omega),
    h.words.barrier1_moves hm rfl ?_, h.words.barrier2_moves hm ?_⟩
  · rintro ⟨r, g', hholds'⟩
    exact hnone hholds'
  · change s.barrier1 = Function.update s.barrier1 pe 0
    have hword : s.barrier1 pe = 0 := by
      rw [h.words.barrier1, hc, AllocCall.markWord, if_neg (by omega)]
    rw [← hword, Function.update_eq_self]
  · change s.barrier2 = Function.update s.barrier2 pe 0
    have hword : s.barrier2 pe = 0 := by
      rw [h.words.barrier2, hc, AllocCall.addrWord, if_neg (by omega)]
    rw [← hword, Function.update_eq_self]

/-! ## The first words of the file -/

/-- What the first words of the file of a call are when its PE has come to `n` and the others have
stayed -/
def WordsAfter (s : AllocState numPes) (pe : ℕ) (c : AllocCall) (g : AllocGroup numPes) (n : ℕ)
    (φ : ShmemFile → ShmemFile) : Prop :=
  ∀ f : ShmemFile, FileOk s f g → f.round = c.round → f.id = c.header → ∀ stage : ℕ → ℕ,
    stage pe = n → (∀ q, q ≠ pe → stage q = s.stage c.round q) →
    (∀ p ∈ g.pes, stage p ≤ 12 →
      (φ f).cnt = (if 11 ≤ stage g.firstPe then (g.pes.length : ℤ) else 0) -
        g.pes.countP (12 ≤ stage ·)) ∧ (8 ≤ stage g.firstPe → (φ f).header = f.id)

theorem AllocInv.firstWord {c' : AllocCall} {pc : AllocPc} {φ : ShmemFile → ShmemFile}
    (hpc : c.pc = pc) (pc' : AllocPc) (hpc' : c'.pc = pc') (hround : c'.round = c.round)
    (haddr : c'.addr = c.addr) (hrank : pc'.rank = pc.rank + 1) (hlow : 7 ≤ pc.rank)
    (hbounds : ∀ b ∈ [10, 15, 17], b ≤ pc'.rank → b ≤ pc.rank) (hhigh : pc'.rank ≤ 12)
    (hφ : KeepsMade φ) (hknows : c'.Knows s pe g pc')
    (hafter : WordsAfter s pe c g pc'.rank φ) :
    AllocInv ((s.modifyFile c.file φ).setCall pe c') := by
  subst hpc hpc'
  have hm : Moves s ((s.modifyFile c.file φ).setCall pe c') pe c (some c') :=
    .goOn hc rfl hround rfl
  have hstage := stage_some hround
  have hle : c.pc.rank ≤ AllocCall.stage c.round (some c') := by omega
  have h10 := hbounds 10 (by decide)
  have he := hφ.extends hm hle rfl
  have hl : LeavesMade s ((s.modifyFile c.file φ).setCall pe c') pe c (some c') g :=
    ⟨hok.round, hle, by omega, rfl⟩
  obtain ⟨f, hf, hfround, hid, -⟩ := hok.hasFile hlow
  refine h.moves hm he hok.round hle (fun d hd => ?_) ?_ ?_ ?_ fun ret hmem => .inl hmem
  · obtain rfl := Option.some.inj hd
    exact he.callOk ⟨hround ▸ hok.round, hok.mem, hknows⟩
  · exact ⟨by omega, by omega, by omega⟩
  · refine h.words.moves hm hok.round (by omega) rfl rfl ?_ ?_
    · change s.barrier1 = _
      exact barrier1_update h.words hc rfl c'.pc rfl (by omega) (by omega)
    · change s.barrier2 = _
      exact barrier2_update h.words hc rfl c'.pc rfl (by omega) (by omega) fun _ => haddr
  · have hwords (hfile : FileOk s f g) := hafter f hfile hfround hid
      (((s.modifyFile c.file φ).setCall pe c').stage c.round) (hm.stage_self.trans hstage)
      fun q hq => hm.stage_of_ne hq
    exact h.files.moves_word hm hl hf hfround (fun _ => hlow) hφ rfl
      (fun hfile => (hwords hfile).1) fun hfile => (hwords hfile).2

omit h hc hok in
/-- The stage of a PE that was at `n` or has stayed -/
theorem stage_le_of_after {stage : ℕ → ℕ} {n b p : ℕ} (hself : s.stage c.round pe = n)
    (hn : n ≤ b) (hothers : ∀ q, q ≠ pe → stage q = s.stage c.round q) (hp : stage p ≤ b) :
    s.stage c.round p ≤ b := by
  by_cases hne : p = pe
  · rw [hne, hself]
    exact hn
  · rw [← hothers p hne]
    exact hp

theorem AllocInv.head (hpc : c.pc = .head) (hs : s.access sys pe g c reply = some s') :
    AllocInv s' := by
  obtain ⟨hfirst, hfile⟩ := hok.knows_at hpc
  have hself := stage_at hc hpc
  simp only [access, hpc] at hs
  cases hs
  refine h.firstWord hc hok hpc .ready rfl rfl rfl rfl (by decide) (by decide) (by decide)
    ⟨fun _ => rfl, fun _ => rfl, fun _ => rfl, fun _ => rfl⟩
    ⟨fun hne => absurd hfirst hne, hfile⟩ ?_
  intro f hok' hround hid stage hstage hothers
  refine ⟨fun p hp hlow => ?_, fun _ => hid.symm⟩
  have hcnt := hok'.cnt_eq p hp
    (hround ▸ stage_le_of_after (b := 12) hself (by decide) hothers hlow)
  rw [hround, ← hfirst, hself, if_neg (by decide)] at hcnt
  rw [← hfirst, hstage, if_neg (by decide)]
  change f.cnt = _
  rw [hcnt]
  congr 2
  refine List.countP_congr fun q _ => ?_
  by_cases hq : q = pe
  · rw [hq, hself, hstage]
    decide
  · rw [hothers q hq]

theorem AllocInv.add (hpc : c.pc = .add) (hs : s.access sys pe g c reply = some s') :
    AllocInv s' := by
  obtain ⟨hfirst, hfile⟩ := hok.knows_at hpc
  have hself := stage_at hc hpc
  simp only [access, hpc] at hs
  cases hs
  refine h.firstWord hc hok hpc .sub rfl rfl rfl rfl (by decide) (by decide) (by decide)
    ⟨fun _ => rfl, fun _ => rfl, fun _ => rfl, fun _ => rfl⟩
    ⟨fun hne => absurd hfirst hne, hfile⟩ ?_
  intro f hok' hround hid stage hstage hothers
  refine ⟨fun p hp hlow => ?_, fun _ => hok'.header_eq ?_⟩
  · have hcnt := hok'.cnt_eq p hp
      (hround ▸ stage_le_of_after (b := 12) hself (by decide) hothers hlow)
    rw [hround, ← hfirst, hself, if_neg (by decide)] at hcnt
    have hcount : g.pes.countP (12 ≤ stage ·) = g.pes.countP (12 ≤ s.stage c.round ·) := by
      refine List.countP_congr fun q _ => ?_
      by_cases hq : q = pe
      · rw [hq, hself, hstage]
        decide
      · rw [hothers q hq]
    rw [← hfirst, hstage, if_pos (by decide), hcount]
    change f.cnt + _ = _
    omega
  · rw [hround, ← hfirst, hself]
    decide

theorem AllocInv.sub (hpc : c.pc = .sub) (hs : s.access sys pe g c reply = some s') :
    AllocInv s' := by
  have hknows := hok.knows_at hpc
  have hself := stage_at hc hpc
  simp only [access, hpc] at hs
  cases hs
  refine h.firstWord hc hok hpc .spin rfl rfl rfl rfl (by decide) (by decide) (by decide)
    ⟨fun _ => rfl, fun _ => rfl, fun _ => rfl, fun _ => rfl⟩ hknows ?_
  intro f hok' hround hid stage hstage hothers
  have hfirst : 11 ≤ stage g.firstPe ↔ 11 ≤ s.stage c.round g.firstPe := by
    by_cases hq : g.firstPe = pe
    · rw [hq, hself, hstage]
      decide
    · rw [hothers _ hq]
  refine ⟨fun p hp hlow => ?_, fun hhead => hok'.header_eq ?_⟩
  · have hcnt := hok'.cnt_eq p hp
      (hround ▸ stage_le_of_after (b := 12) hself (by decide) hothers hlow)
    have hcount := Tally.countP_gain g.nodup hok.mem
      (p := fun q => decide (12 ≤ s.stage c.round q)) (q := fun q => decide (12 ≤ stage q))
      (fun q _ hq => by rw [hothers q hq]) (by rw [hself]; decide) (by rw [hstage]; decide)
    rw [hround] at hcnt
    simp only [hfirst]
    rw [hcount]
    change f.cnt + _ = _
    omega
  · rw [hround]
    by_cases hq : g.firstPe = pe
    · rw [hq, hself]
      decide
    · exact hothers _ hq ▸ hhead

end Lamellar.Shmem
