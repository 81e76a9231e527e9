import Lamellar.Shmem.GroupResults
import Mathlib.Algebra.Order.BigOperators.Group.Finset

/-!
# Every call of `ShmemAlloc::alloc` returns

There are only so many accesses before a PE has left its call. As long as some PE has not and none
has panicked, there is an access that does not have to wait.
-/

namespace Lamellar.Shmem

open AllocState

variable {numPes : ℕ} {sys : SharedMemory} {reply : ShmemReply} {s s' : AllocState numPes}
  {pe r q : ℕ} {c c' : AllocCall} {g : AllocGroup numPes} {f : ShmemFile} {ret : AllocRet}

/-! ## What is left to do -/

namespace AllocCall

/-- The rounds of the loop named, and the attempts of `attach_to_shmem` -/
def turn (c : AllocCall) : AllocPc → ℕ
  | .clear | .gather | .drain => c.k
  | .create => 3 * min c.retry 5
  | .mapFile => 3 * min c.retry 5 + 1
  | .openFile => 3 * min c.retry 5 + 2
  | .panicked => 18
  | .copy => c.addrs.length
  | _ => 0

/-- A bound of the accesses of a call that are still to come -/
def left (numPes : ℕ) : Option AllocCall → ℕ
  | some c => (18 - c.pc.rank) * (numPes + 20) + (numPes + 19 - c.turn c.pc)
  | none => 0

theorem left_lt_of_rank (hrank : c.pc.rank < c'.pc.rank) :
    left numPes (some c') < left numPes (some c) := by
  have hlt := c'.pc.rank_lt
  have hmul := Nat.mul_le_mul_right (numPes + 20)
    (show 18 - c'.pc.rank + 1 ≤ 18 - c.pc.rank by omega)
  rw [Nat.succ_mul] at hmul
  simp only [left]
  omega

theorem left_lt_of_turn (hpc : c'.pc.rank = c.pc.rank) (hturn : c.turn c.pc < c'.turn c'.pc)
    (hle : c.turn c.pc ≤ numPes + 18) :
    left numPes (some c') < left numPes (some c) := by
  simp only [left, hpc]
  omega

theorem left_pos (c : AllocCall) : 0 < left numPes (some c) := by
  have hmul := Nat.mul_le_mul_right (numPes + 20)
    (show 1 ≤ 18 - c.pc.rank by have := c.pc.rank_lt; omega)
  simp only [left]
  omega

end AllocCall

/-- The accesses that are still to come at most -/
def AllocState.left (s : AllocState numPes) : ℕ :=
  ∑ pe ∈ Finset.range numPes, AllocCall.left numPes (s.calls pe)

theorem AllocGroup.length_le (g : AllocGroup numPes) : g.pes.length ≤ numPes := by
  have hsub : g.pes ⊆ List.range numPes := fun pe hpe => List.mem_range.mpr (g.lt pe hpe)
  have hle := (g.nodup.subperm hsub).length_le
  rwa [List.length_range] at hle

theorem AllocGroup.turn_lt {k : ℕ} (hk : g.pes[k]? = some q) : k < numPes :=
  (List.getElem?_eq_some_iff.mp hk).1.trans_le g.length_le

/-- What an access does to the call: it goes on, or it returns. -/
inductive AccessCases (s s' : AllocState numPes) (pe : ℕ) (c : AllocCall) : Prop
  | goes (c' : AllocCall) (moves : Moves s s' pe c (some c')) (returned : s'.returned = s.returned)
      (left : AllocCall.left numPes (some c') < AllocCall.left numPes (some c))
  | returns (moves : Moves s s' pe c none) (returned : s'.returned = s.returned ++ [c.ret pe])

section

variable (hc : s.calls pe = some c) (hcalls : s'.calls = Function.update s.calls pe (some c'))
  (hround : c'.round = c.round) (hrounds : s'.rounds = s.rounds)
  (hreturned : s'.returned = s.returned) {pc : AllocPc} (hpc : c.pc = pc)
include hc hcalls hround hrounds hreturned hpc

theorem AccessCases.next (pc' : AllocPc) (hpc' : c'.pc = pc') (hrank : pc.rank < pc'.rank) :
    AccessCases s s' pe c :=
  .goes c' (.goOn hc hcalls hround hrounds) hreturned
    (AllocCall.left_lt_of_rank (by rwa [hpc, hpc']))

theorem AccessCases.again (pc' : AllocPc) (hpc' : c'.pc = pc') (hrank : pc'.rank = pc.rank)
    (hturn : c.turn pc < c'.turn pc') (hle : c.turn pc ≤ numPes + 18) : AccessCases s s' pe c := by
  subst hpc hpc'
  exact .goes c' (.goOn hc hcalls hround hrounds) hreturned
    (AllocCall.left_lt_of_turn hrank hturn hle)

end

/-- The PE has mapped the file. -/
theorem accessCases_attach {ptr : ℕ} (hc : s.calls pe = some c) (hround : c'.round = c.round)
    (hrank : c.pc.rank = 6) : AccessCases s (s.attach pe g c' ptr) pe c := by
  refine .goes _ (.goOn hc rfl hround rfl) rfl (AllocCall.left_lt_of_rank ?_)
  rw [hrank]
  dsimp only
  split <;> decide

/-- The PE tries again to have the file mapped, or panics. -/
theorem accessCases_failed {e : ShmemError} (hc : s.calls pe = some c)
    (hpc : c.pc = .create ∨ c.pc = .mapFile) :
    AccessCases s (s.setCall pe { c with pc := e.afterCreate }) pe c := by
  rcases hpc with hpc | hpc <;> rcases e.afterCreate_eq with hpc' | hpc'
  all_goals
    refine .again hc rfl rfl rfl rfl hpc _ hpc' rfl ?_ ?_
    all_goals simp only [AllocCall.turn]; omega

theorem accessCases (hc : s.calls pe = some c) (hs : s.access sys pe g c reply = some s') :
    AccessCases s s' pe c := by
  cases hpc : c.pc with
  | clear =>
    simp only [access, hpc] at hs
    split at hs
    · rename_i q hq
      obtain ⟨-, hs⟩ := Option.ite_none_right_eq_some.mp hs
      cases hs
      exact .again hc rfl rfl rfl rfl hpc _ rfl rfl (Nat.lt_succ_self c.k)
        ((AllocGroup.turn_lt hq).le.trans (Nat.le_add_right _ _))
    · cases hs
      split
      · exact .next hc rfl rfl rfl rfl hpc .lock rfl (by decide)
      · exact .next hc rfl rfl rfl rfl hpc .await rfl (by decide)
  | lock =>
    simp only [access, hpc] at hs
    obtain ⟨-, hs⟩ := Option.ite_none_right_eq_some.mp hs
    cases hs
    exact .next hc rfl rfl rfl rfl hpc .bump rfl (by decide)
  | bump =>
    simp only [access, hpc] at hs
    cases hs
    exact .next hc rfl rfl rfl rfl hpc .mark rfl (by decide)
  | await =>
    simp only [access, hpc] at hs
    obtain ⟨-, hs⟩ := Option.ite_none_left_eq_some.mp hs
    cases hs
    exact .next hc rfl rfl rfl rfl hpc .mark rfl (by decide)
  | mark =>
    simp only [access, hpc] at hs
    cases hs
    exact .next hc rfl rfl rfl rfl hpc .gather rfl (by decide)
  | gather =>
    simp only [access, hpc] at hs
    split at hs
    · rename_i q hq
      obtain ⟨-, hs⟩ := Option.ite_none_right_eq_some.mp hs
      cases hs
      exact .again hc rfl rfl rfl rfl hpc _ rfl rfl (Nat.lt_succ_self c.k)
        ((AllocGroup.turn_lt hq).le.trans (Nat.le_add_right _ _))
    · cases hs
      exact .next hc rfl rfl rfl rfl hpc .create rfl (by decide)
  | create =>
    simp only [access, hpc] at hs
    obtain ⟨-, hs⟩ := Option.ite_none_right_eq_some.mp hs
    cases reply with
    | made =>
      cases hs
      refine .again hc rfl rfl rfl rfl hpc .mapFile rfl rfl (Nat.lt_succ_self _) ?_
      simp only [AllocCall.turn]
      omega
    | mapped ptr => cases hs
    | failed e =>
      cases hs
      exact accessCases_failed hc (.inl hpc)
  | mapFile =>
    simp only [access, hpc] at hs
    obtain ⟨-, hs⟩ := Option.ite_none_right_eq_some.mp hs
    cases reply with
    | made => cases hs
    | mapped ptr =>
      cases hs
      exact accessCases_attach hc rfl (by rw [hpc]; rfl)
    | failed e =>
      cases hs
      exact accessCases_failed hc (.inr hpc)
  | openFile =>
    simp only [access, hpc] at hs
    obtain ⟨-, hs⟩ := Option.ite_none_right_eq_some.mp hs
    cases reply with
    | made => cases hs
    | mapped ptr =>
      obtain ⟨i, -, hs⟩ := Option.bind_eq_some_iff.mp hs
      cases hs
      have hround : ({ c with file := i, header := s.id } : AllocCall).round = c.round := rfl
      exact accessCases_attach hc hround (by rw [hpc]; rfl)
    | failed e =>
      dsimp only at hs
      split at hs
      · rename_i hretry
        cases hs
        refine .again hc rfl rfl rfl rfl hpc .create rfl rfl ?_ ?_
        all_goals simp only [AllocCall.turn]; omega
      · cases hs
        refine .again hc rfl rfl rfl rfl hpc .panicked rfl rfl ?_ ?_
        all_goals simp only [AllocCall.turn]; omega
  | panicked =>
    simp only [access, hpc] at hs
    cases hs
  | head =>
    simp only [access, hpc] at hs
    cases hs
    exact .next hc rfl rfl rfl rfl hpc .ready rfl (by decide)
  | ready =>
    simp only [access, hpc] at hs
    obtain ⟨f, -, hs⟩ := Option.bind_eq_some_iff.mp hs
    obtain ⟨-, hs⟩ := Option.ite_none_right_eq_some.mp hs
    cases hs
    exact .next hc rfl rfl rfl rfl hpc .publish rfl (by decide)
  | publish =>
    simp only [access, hpc] at hs
    cases hs
    split
    · exact .next hc rfl rfl rfl rfl hpc .add rfl (by decide)
    · exact .next hc rfl rfl rfl rfl hpc .sub rfl (by decide)
  | add =>
    simp only [access, hpc] at hs
    cases hs
    exact .next hc rfl rfl rfl rfl hpc .sub rfl (by decide)
  | sub =>
    simp only [access, hpc] at hs
    cases hs
    exact .next hc rfl rfl rfl rfl hpc .spin rfl (by decide)
  | spin =>
    simp only [access, hpc] at hs
    obtain ⟨f, -, hs⟩ := Option.bind_eq_some_iff.mp hs
    obtain ⟨-, hs⟩ := Option.ite_none_right_eq_some.mp hs
    cases hs
    exact .next hc rfl rfl rfl rfl hpc .copy rfl (by decide)
  | copy =>
    simp only [access, hpc] at hs
    split at hs
    · rename_i hlt
      cases hs
      refine .again hc rfl rfl rfl rfl hpc _ rfl rfl ?_ (hlt.le.trans (Nat.le_add_right _ _))
      change c.addrs.length < (c.addrs ++ [s.barrier2 c.addrs.length]).length
      rw [List.length_append]
      exact Nat.lt_succ_self _
    · cases hs
      exact .next hc rfl rfl rfl rfl hpc .unmark rfl (by decide)
  | unmark =>
    simp only [access, hpc] at hs
    cases hs
    exact .next hc rfl rfl rfl rfl hpc .drain rfl (by decide)
  | drain =>
    simp only [access, hpc] at hs
    split at hs
    · rename_i q hq
      obtain ⟨-, hs⟩ := Option.ite_none_right_eq_some.mp hs
      cases hs
      exact .again hc rfl rfl rfl rfl hpc _ rfl rfl (Nat.lt_succ_self c.k)
        ((AllocGroup.turn_lt hq).le.trans (Nat.le_add_right _ _))
    · cases hs
      exact .next hc rfl rfl rfl rfl hpc .unpublish rfl (by decide)
  | unpublish =>
    simp only [access, hpc] at hs
    split at hs
    · cases hs
      exact .next hc rfl rfl rfl rfl hpc .unlock rfl (by decide)
    · cases hs
      exact .returns ⟨hc, rfl, rfl, fun d hd => by cases hd⟩ rfl
  | unlock =>
    simp only [access, hpc] at hs
    cases hs
    exact .returns ⟨hc, rfl, rfl, fun d hd => by cases hd⟩ rfl

/-- The next access of a call, with what is known of it -/
theorem AllocInv.access_cases (h : AllocInv s) (hs : s.step sys (.access pe reply) = some s') :
    ∃ c g, CallOk s pe c g ∧ AccessCases s s' pe c := by
  simp only [AllocState.step] at hs
  obtain ⟨c, hc, hs⟩ := Option.bind_eq_some_iff.mp hs
  obtain ⟨g, hg, hs⟩ := Option.bind_eq_some_iff.mp hs
  obtain ⟨g', hok⟩ := h.call pe c hc
  exact ⟨c, g', hok, accessCases hc hs⟩

theorem AllocInv.left_lt (h : AllocInv s) (hs : s.step sys (.access pe reply) = some s') :
    s'.left < s.left := by
  obtain ⟨c, g, hok, hcases⟩ := h.access_cases hs
  have hmem : pe ∈ Finset.range numPes := Finset.mem_range.mpr (g.lt pe hok.mem)
  have hsum {next : Option AllocCall} (hm : Moves s s' pe c next)
      (hlt : AllocCall.left numPes next < AllocCall.left numPes (some c)) : s'.left < s.left := by
    have hself : AllocCall.left numPes (s'.calls pe) < AllocCall.left numPes (s.calls pe) := by
      rw [hm.calls_self, hm.call]
      exact hlt
    refine Finset.sum_lt_sum (fun q _ => ?_) ⟨pe, hmem, hself⟩
    by_cases hq : q = pe
    · exact hq ▸ hself.le
    · rw [hm.calls_of_ne hq]
  cases hcases with
  | goes c' hm _ hleft => exact hsum hm hleft
  | returns hm _ => exact hsum hm c.left_pos

/-! ## What is waited for -/

/-- What is not yet there for a PE that has to wait -/
def Waits (s : AllocState numPes) (g : AllocGroup numPes) (c : AllocCall) : AllocPc → Prop
  | .clear => ∃ q ∈ g.pes, s.barrier2 q ≠ 0
  | .lock => s.mutex ≠ 0
  | .await => s.barrier1 g.firstPe = 0
  | .gather => ∃ q ∈ g.pes, s.barrier1 q ≠ s.id
  | .ready => ∀ f : ShmemFile, s.files[c.file]? = some f → f.header ≠ c.header
  | .spin => ∀ f : ShmemFile, s.files[c.file]? = some f → f.cnt ≠ 0
  | .drain => ∃ q ∈ g.pes, s.barrier1 q ≠ 0
  | _ => False

theorem waits_of_blocked (hsys : sys.Lawful) (hpanic : c.pc ≠ .panicked)
    (hblocked : ∀ reply, s.access sys pe g c reply = none) : Waits s g c c.pc := by
  have hnone := hblocked .made
  cases hpc : c.pc with
  | clear | drain =>
    simp only [access, hpc] at hnone
    split at hnone
    · rename_i q hq
      exact ⟨q, List.mem_of_getElem? hq, fun hzero => by rw [if_pos hzero] at hnone; cases hnone⟩
    · cases hnone
  | gather =>
    simp only [access, hpc] at hnone
    split at hnone
    · rename_i q hq
      exact ⟨q, List.mem_of_getElem? hq, fun hid => by rw [if_pos hid] at hnone; cases hnone⟩
    · cases hnone
  | lock =>
    simp only [access, hpc] at hnone
    exact fun hzero => by rw [if_pos hzero] at hnone; cases hnone
  | await =>
    simp only [access, hpc] at hnone
    change s.barrier1 g.firstPe = 0
    by_contra hmark
    rw [if_neg hmark] at hnone
    cases hnone
  | create =>
    rcases hsys.create_answers s.files g.fileSize s.id with hreply | ⟨e, hreply⟩
    · simp only [access, hpc, if_pos hreply] at hnone
      cases hnone
    · have hnone := hblocked (.failed e)
      simp only [access, hpc, if_pos hreply] at hnone
      cases hnone
  | mapFile =>
    rcases hsys.map_answers s.files g.fileSize s.id with ⟨ptr, hreply⟩ | ⟨e, hreply⟩
    · have hnone := hblocked (.mapped ptr)
      simp only [access, hpc, if_pos hreply] at hnone
      cases hnone
    · have hnone := hblocked (.failed e)
      simp only [access, hpc, if_pos hreply] at hnone
      cases hnone
  | openFile =>
    rcases hsys.open_answers s.files g.fileSize s.id with ⟨ptr, hreply⟩ | ⟨e, hreply⟩
    · have hnone := hblocked (.mapped ptr)
      obtain ⟨f, hf, hname⟩ := hsys.open_named _ _ _ _ hreply
      have hsome : (s.files.findIdx? (·.named g.fileSize s.id)).isSome := by
        rw [List.findIdx?_isSome]
        exact List.any_eq_true.mpr ⟨f, hf, hname⟩
      obtain ⟨i, hfind⟩ := Option.isSome_iff_exists.mp hsome
      simp only [access, hpc, if_pos hreply, hfind] at hnone
      cases hnone
    · have hnone := hblocked (.failed e)
      simp only [access, hpc, if_pos hreply] at hnone
      split at hnone <;> cases hnone
  | panicked => exact hpanic hpc
  | ready | spin =>
    intro f hf hword
    simp only [access, hpc, hf, Option.bind_eq_bind, Option.bind_some, if_pos hword] at hnone
    cases hnone
  | copy =>
    simp only [access, hpc] at hnone
    split at hnone <;> cases hnone
  | unpublish =>
    simp only [access, hpc] at hnone
    split at hnone <;> cases hnone
  | bump | mark | head | publish | add | sub | unmark | unlock =>
    simp only [access, hpc] at hnone
    cases hnone

/-- Every PE that is in a call has to wait. -/
def Stuck (s : AllocState numPes) : Prop :=
  ∀ pe c g, s.calls pe = some c → CallOk s pe c g → Waits s g c c.pc

theorem stuck_of_blocked (hsys : sys.Lawful)
    (hpanic : ∀ pe c, s.calls pe = some c → c.pc ≠ .panicked)
    (hblocked : ∀ pe reply, s.step sys (.access pe reply) = none) : Stuck s := by
  intro pe c g hc hok
  have hnone (reply : ShmemReply) : s.access sys pe g c reply = none := by
    have hnone := hblocked pe reply
    simp only [AllocState.step, hc, hok.round, Option.bind_eq_bind, Option.bind_some] at hnone
    exact hnone
  exact waits_of_blocked hsys (hpanic pe c hc) hnone

section Stuck

variable (h : AllocInv s) (hstuck : Stuck s) (hr : s.rounds[r]? = some g)
include h hstuck hr

/-- A member that has not left is in its call and has to wait. -/
theorem AllocInv.waits (hq : s.stage r q < 18) :
    ∃ c, s.calls q = some c ∧ c.round = r ∧ CallOk s q c g ∧ Waits s g c c.pc ∧
      c.pc.rank = s.stage r q := by
  obtain ⟨c, hc, rfl, hrank⟩ := exists_call_of_stage_lt hq
  obtain ⟨g', hok⟩ := h.call q c hc
  obtain rfl := Option.some.inj (hr.symm.trans hok.round)
  exact ⟨c, hc, rfl, hok, hstuck q c g hc hok, hrank⟩

/-- All the addresses of earlier calls are cleared when the members come, and they wait for nothing
else at first. -/
theorem AllocInv.not_clear (hq : q ∈ g.pes) : s.stage r q ≠ 0 := by
  intro hzero
  obtain ⟨c, hc, rfl, hok, hwaits, hrank⟩ := h.waits hstuck hr (q := q) (by omega)
  rw [hzero] at hrank
  cases hpc : c.pc with
  | clear =>
    rw [hpc] at hwaits
    obtain ⟨p, hp, hword⟩ := hwaits
    obtain ⟨d, hd, hlow, -, -⟩ := published_of_barrier2 h.words hword
    have hgate := h.gates.gathered _ g hr q hq p hp (by omega)
    obtain ⟨d', hd', -, hrank'⟩ := exists_call_of_stage_lt (hgate.trans_lt (by decide))
    obtain rfl := Option.some.inj (hd.symm.trans hd')
    omega
  | _ =>
    rw [hpc] at hrank
    cases hrank

omit hstuck in
/-- All marks are set, for nobody can clear one yet. -/
theorem AllocInv.marked (hall : ∀ p ∈ g.pes, 5 ≤ s.stage r p) {p : ℕ} (hp : p ∈ g.pes)
    (hlow : s.stage r p ≤ 11) (hq : q ∈ g.pes) : s.barrier1 q = s.id := by
  have hgate := h.gates.counted _ g hr p hp q hq hlow
  have hq5 := hall q hq
  obtain ⟨d, hd, -, hrank⟩ := exists_call_of_stage_lt (hgate.trans_lt (by decide))
  exact barrier1_of_marked h.words hd (by omega) (by omega)

section Marked

variable (hfirst : 5 ≤ s.stage r g.firstPe)
include hfirst

theorem AllocInv.all_marked (hhigh : s.stage r g.firstPe ≤ 17) (hq : q ∈ g.pes) :
    5 ≤ s.stage r q := by
  by_contra hlow
  have hclear := h.not_clear hstuck hr hq
  obtain ⟨c, hc, rfl, hok, hwaits, hrank⟩ := h.waits hstuck hr (q := q) (by omega)
  have hknows := hok.knows
  cases hpc : c.pc with
  | lock =>
    rw [hpc] at hknows hrank
    rw [show q = g.firstPe from hknows] at hrank
    rw [← hrank] at hfirst
    exact absurd hfirst (by decide)
  | await =>
    rw [hpc] at hwaits
    have hgate := h.gates.gathered _ g hr q hq _ g.firstPe_mem (by omega)
    obtain ⟨d, hd, -, hrank'⟩ := exists_call_of_stage_lt (hgate.trans_lt (by decide))
    have hid := h.words.id_pos _ g hr (by omega)
    have hmark := barrier1_of_marked h.words hd (by omega) (by omega)
    change s.barrier1 g.firstPe = 0 at hwaits
    omega
  | clear =>
    rw [hpc] at hrank
    exact hclear hrank.symm
  | bump | mark =>
    rw [hpc] at hwaits
    exact hwaits
  | _ =>
    rw [hpc] at hrank
    exact hlow (hrank ▸ by decide)

theorem AllocInv.all_attached (hhigh : s.stage r g.firstPe ≤ 17) (hq : q ∈ g.pes) :
    8 ≤ s.stage r q := by
  by_contra hlow
  have hmarked := h.all_marked hstuck hr hfirst hhigh hq
  obtain ⟨c, hc, rfl, hok, hwaits, hrank⟩ := h.waits hstuck hr (q := q) (by omega)
  cases hpc : c.pc with
  | gather =>
    rw [hpc] at hwaits
    obtain ⟨p, hp, hmark⟩ := hwaits
    exact hmark (h.marked hr (fun p hp => h.all_marked hstuck hr hfirst hhigh hp) hq (by omega) hp)
  | create | mapFile | openFile | panicked | head =>
    rw [hpc] at hwaits
    exact hwaits
  | clear | lock | bump | await | mark =>
    rw [hpc] at hrank
    exact absurd (hrank ▸ hmarked) (by decide)
  | _ =>
    rw [hpc] at hrank
    exact hlow (hrank ▸ by decide)

theorem AllocInv.all_counted (hhigh : s.stage r g.firstPe ≤ 17) (hq : q ∈ g.pes) :
    12 ≤ s.stage r q := by
  by_contra hlow
  have hattached := h.all_attached hstuck hr hfirst hhigh hq
  have hfirst' := h.all_attached hstuck hr hfirst hhigh g.firstPe_mem
  obtain ⟨c, hc, rfl, hok, hwaits, hrank⟩ := h.waits hstuck hr (q := q) (by omega)
  cases hpc : c.pc with
  | ready =>
    rw [hpc] at hwaits
    obtain ⟨f, hf, hround, hid, -⟩ := hok.hasFile (by omega)
    obtain ⟨g', hfile⟩ := h.files.each _ f hf
    obtain rfl := Option.some.inj (hr.symm.trans (hround ▸ hfile.made.round))
    exact hwaits f hf ((hfile.header_eq (hround ▸ hfirst')).trans hid)
  | publish | add | sub =>
    rw [hpc] at hwaits
    exact hwaits
  | clear | lock | bump | await | mark | gather | create | mapFile | openFile | panicked | head =>
    rw [hpc] at hrank
    exact absurd (hrank ▸ hattached) (by decide)
  | _ =>
    rw [hpc] at hrank
    exact hlow (hrank ▸ by decide)

theorem AllocInv.all_copied (hhigh : s.stage r g.firstPe ≤ 17) (hq : q ∈ g.pes) :
    15 ≤ s.stage r q := by
  by_contra hlow
  have hall (p : ℕ) (hp : p ∈ g.pes) := h.all_counted hstuck hr hfirst hhigh hp
  have hcounted := hall q hq
  obtain ⟨c, hc, rfl, hok, hwaits, hrank⟩ := h.waits hstuck hr (q := q) (by omega)
  cases hpc : c.pc with
  | spin =>
    rw [hpc] at hwaits hrank
    obtain ⟨f, hf, hround, -, -⟩ := hok.hasFile (by rw [hpc]; decide)
    obtain ⟨g', hfile⟩ := h.files.each _ f hf
    obtain rfl := Option.some.inj (hr.symm.trans (hround ▸ hfile.made.round))
    have hcnt := hfile.cnt_eq q hq (hround ▸ hrank.ge)
    have hcount : g.pes.countP (12 ≤ s.stage f.round ·) = g.pes.length :=
      List.countP_eq_length.mpr fun p hp => decide_eq_true (hround ▸ hall p hp)
    have hfirst' := hall _ g.firstPe_mem
    rw [hcount, if_pos (by rw [hround]; omega), Int.sub_self] at hcnt
    exact hwaits f hf hcnt
  | copy | unmark =>
    rw [hpc] at hwaits
    exact hwaits
  | drain | unpublish | unlock =>
    rw [hpc] at hrank
    exact hlow (hrank ▸ by decide)
  | _ =>
    rw [hpc] at hrank
    exact absurd (hrank ▸ hcounted) (by decide)

end Marked

/-- The group that has the mutex goes on. -/
theorem AllocInv.not_holds (hholds : s.Holds r g) : False := by
  have hlow := hholds.two_le
  have hhigh := hholds.le
  obtain ⟨c, hc, hround, hok, hwaits, hrank⟩ := h.waits hstuck hr (q := g.firstPe) (by omega)
  have hfirst : 5 ≤ s.stage r g.firstPe := by
    have hknows := hok.knows
    cases hpc : c.pc with
    | clear | lock =>
      rw [hpc] at hrank
      exact absurd (hrank ▸ hlow) (by decide)
    | await =>
      rw [hpc] at hknows
      exact absurd rfl hknows
    | bump | mark =>
      rw [hpc] at hwaits
      exact hwaits.elim
    | _ =>
      rw [hpc] at hrank
      exact hrank ▸ by decide
  have hall (p : ℕ) (hp : p ∈ g.pes) := h.all_copied hstuck hr hfirst hhigh hp
  have hcopied := hall _ g.firstPe_mem
  cases hpc : c.pc with
  | drain =>
    rw [hpc] at hwaits
    obtain ⟨q, hq, hmark⟩ := hwaits
    obtain ⟨d, hd, hlow', hhigh'⟩ := marked_of_barrier1 h.words hmark
    obtain ⟨g', hok'⟩ := h.call q d hd
    have hsame := h.words.unique _ _ hholds _ _ (h.holds hd hok' (by omega) hhigh')
    have hbeyond := hall q hq
    rw [hsame, stage_of_call hd] at hbeyond
    omega
  | unpublish | unlock =>
    rw [hpc] at hwaits
    exact hwaits
  | _ =>
    rw [hpc] at hrank
    exact absurd (hrank ▸ hcopied) (by decide)

end Stuck

/-- Where every PE has to wait, nobody is in a call. -/
theorem AllocInv.calls_none (h : AllocInv s) (hstuck : Stuck s) (pe : ℕ) : s.calls pe = none := by
  by_contra hne
  obtain ⟨c, hc⟩ := Option.ne_none_iff_exists'.mp hne
  obtain ⟨g, hok⟩ := h.call pe c hc
  have hfree (r : ℕ) (g' : AllocGroup numPes) (hholds : s.Holds r g') : False :=
    h.not_holds hstuck hholds.round hholds
  have hfirst : 18 ≤ s.stage c.round g.firstPe := by
    by_contra hlt
    obtain ⟨d, hd, hround, hok', hwaits, hrank⟩ :=
      h.waits hstuck hok.round (q := g.firstPe) (by omega)
    have hclear := h.not_clear hstuck hok.round g.firstPe_mem
    by_cases hlow : 2 ≤ s.stage c.round g.firstPe
    · exact hfree _ g ⟨hok.round, hlow, by omega⟩
    · cases hpc : d.pc with
      | lock =>
        rw [hpc] at hwaits
        obtain ⟨r, g', hholds⟩ := h.words.mutex.mp hwaits
        exact hfree r g' hholds
      | clear =>
        rw [hpc] at hrank
        exact hclear hrank.symm
      | _ =>
        rw [hpc] at hrank
        exact hlow (hrank ▸ by decide)
  have hbeyond : 14 < s.stage c.round pe := by
    by_contra hlow
    have := h.gates.cleared _ g hok.round pe hok.mem _ g.firstPe_mem (Nat.le_of_not_lt hlow)
    omega
  have hwaits := hstuck pe c g hc hok
  rw [stage_of_call hc] at hbeyond
  cases hpc : c.pc with
  | drain =>
    rw [hpc] at hwaits
    obtain ⟨q, hq, hmark⟩ := hwaits
    obtain ⟨d, hd, hlow, hhigh⟩ := marked_of_barrier1 h.words hmark
    obtain ⟨g', hok'⟩ := h.call q d hd
    exact hfree _ _ (h.holds hd hok' (by omega) hhigh)
  | unpublish | unlock =>
    rw [hpc] at hwaits
    exact hwaits
  | _ =>
    rw [hpc] at hbeyond
    exact absurd hbeyond (by decide)

/-! ## Every member returns -/

/-- A member has returned once when it has left the call, and not before. -/
def Answered (s : AllocState numPes) : Prop :=
  ∀ (r : ℕ) (g : AllocGroup numPes), s.rounds[r]? = some g → ∀ pe ∈ g.pes,
    s.returned.countP (fun ret => ret.round = r ∧ ret.pe = pe) =
      if s.stage r pe = 18 then 1 else 0

theorem Answered.access (h : Answered s) (hcases : AccessCases s s' pe c) : Answered s' := by
  have hlt := c.pc.rank_lt
  intro r g hr q hq
  cases hcases with
  | goes c' hm hreturned _ =>
    rw [hreturned, h r g (hm.rounds ▸ hr) q hq]
    rcases hm.stage_cases r q with ⟨rfl, rfl, hbefore, hafter⟩ | hsame
    · have hlt' := c'.pc.rank_lt
      rw [stage_some (hm.round c' rfl)] at hafter
      rw [if_neg (by omega), if_neg (by omega)]
    · rw [hsame]
  | returns hm hreturned =>
    rw [hreturned, List.countP_append, h r g (hm.rounds ▸ hr) q hq, List.countP_singleton]
    rcases hm.stage_cases r q with ⟨rfl, rfl, hbefore, hafter⟩ | hsame
    · rw [if_neg (by omega), if_pos (decide_eq_true ⟨rfl, rfl⟩),
        if_pos (show s'.stage c.round q = 18 from hafter)]
    · rw [hsame]
      refine Nat.add_eq_left.mpr (if_neg fun hself => ?_)
      obtain ⟨rfl, rfl⟩ := of_decide_eq_true hself
      rw [show (c.ret pe).round = c.round from rfl, show (c.ret pe).pe = pe from rfl,
        hm.stage_self, stage_of_call hm.call] at hsame
      change 18 = c.pc.rank at hsame
      omega

theorem Answered.enter (h : Answered s) (hinv : AllocInv s)
    (hidle : ∀ pe ∈ g.pes, s.calls pe = none) : Answered (entered s g) := by
  intro r g' hr q hq
  rcases Roster.append_new hr with hold | ⟨rfl, rfl⟩
  · rw [hinv.entered_stage_of_lt hidle (List.getElem?_eq_some_iff.mp hold).1]
    exact h r g' hold q hq
  · rw [hinv.entered_stage hidle, if_pos rfl, if_pos hq, if_neg (by decide)]
    refine List.countP_eq_zero.mpr fun ret hret hself => ?_
    obtain ⟨g'', f, hok⟩ := hinv.ret ret hret
    have hlt := (List.getElem?_eq_some_iff.mp hok.round).1
    exact absurd (of_decide_eq_true hself).1 hlt.ne

theorem AllocReachable.answered (hsys : sys.Lawful) (h : AllocReachable sys s) : Answered s := by
  have hboth : AllocInv s ∧ Answered s := by
    refine h.invariant (I := fun s => AllocInv s ∧ Answered s) ?_ ?_
    · rintro s rfl
      exact ⟨.init, fun r g hr => by cases hr⟩
    · rintro s a s' ⟨hinv, hans⟩ - hs
      refine ⟨hinv.step hsys hs, ?_⟩
      cases a with
      | enter g =>
        simp only [AllocState.step] at hs
        obtain ⟨hidle, hs⟩ := Option.ite_none_right_eq_some.mp hs
        cases hs
        exact hans.enter hinv fun pe hpe => Option.isNone_iff_eq_none.mp (hidle pe hpe)
      | access pe reply =>
        obtain ⟨c, g, -, hcases⟩ := hinv.access_cases hs
        exact hans.access hcases
      | write i cnt =>
        simp only [AllocState.step] at hs
        obtain ⟨-, hs⟩ := Option.ite_none_right_eq_some.mp hs
        cases hs
        exact hans
  exact hboth.2

/-- The next access of a PE, with the reply if it is one to the system -/
def AllocState.accessStep (sys : SharedMemory) (s : AllocState numPes) (a : ℕ × ShmemReply) :
    Option (AllocState numPes) :=
  s.step sys (.access a.1 a.2)

theorem run_accessStep {as : List (ℕ × ShmemReply)} :
    Transition.run (AllocState.accessStep sys) s as =
      Transition.run (AllocState.step sys) s (as.map fun a => .access a.1 a.2) := by
  induction as generalizing s with
  | nil => rfl
  | cons a as ih =>
    simp only [List.map_cons, Transition.run, accessStep]
    split
    · exact ih
    · rfl

/-- In whatever order the PEs go on: after so many accesses nobody has to wait any more, and every
member of every group has returned once, unless some PE has panicked in `attach_to_shmem`. -/
theorem alloc_ends (hsys : sys.Lawful) (h : AllocReachable sys s) {as : List (ℕ × ShmemReply)}
    (hrun : Transition.run (AllocState.accessStep sys) s as = some s') :
    as.length ≤ s.left ∧ ((∀ a, s'.accessStep sys a = none) →
      (∀ pe c, s'.calls pe = some c → c.pc ≠ .panicked) →
      (∀ pe, s'.calls pe = none) ∧
        ∀ (r : ℕ) (g : AllocGroup numPes), s'.rounds[r]? = some g → ∀ pe ∈ g.pes,
          s'.returned.countP (fun ret => ret.round = r ∧ ret.pe = pe) = 1) := by
  have hs' : AllocReachable sys s' := h.run (run_accessStep ▸ hrun)
  refine ⟨Transition.length_le_of_decreases (I := AllocInv) AllocState.left
    (fun s a s' hinv hs => ⟨hinv.step hsys hs, hinv.left_lt hs⟩) (h.inv hsys) hrun,
    fun hblocked hpanic => ?_⟩
  have hnone := (hs'.inv hsys).calls_none
    (stuck_of_blocked hsys hpanic fun pe reply => hblocked (pe, reply))
  refine ⟨hnone, fun r g hr pe hpe => ?_⟩
  rw [hs'.answered hsys r g hr pe hpe, stage, hnone]
  rfl

/-- PE 2 is done last. -/
def coupling : List (ℕ × ShmemReply) := accesses (coupleTurns ++ [(4, 2, .made)])

theorem coupling_run :
    ((Transition.run (AllocState.accessStep promptMemory) (entered .init couple) coupling).map
      fun s => (s.rounds, (List.range 3).all fun pe => (s.calls pe).isNone)) =
      some ([couple], true) := by
  decide +kernel

theorem alloc_ends_coupling : ∃ s' : AllocState 3,
    Transition.run (AllocState.accessStep promptMemory) (entered .init couple) coupling = some s' ∧
      48 ≤ (entered .init couple : AllocState 3).left ∧
      (∀ pe, s'.calls pe = none) ∧
      ∀ pe ∈ couple.pes, s'.returned.countP (fun ret => ret.round = 0 ∧ ret.pe = pe) = 1 := by
  obtain ⟨s', hrun, hresult⟩ := Option.map_eq_some_iff.mp coupling_run
  obtain ⟨hrounds, hleft⟩ := Prod.mk.inj hresult
  have henter : AllocState.init.step promptMemory (.enter couple) =
      some (entered .init couple) := by
    simp only [AllocState.step]
    exact if_pos fun pe _ => rfl
  have hs : AllocReachable promptMemory (entered .init couple) := .step (.init rfl) trivial henter
  have hs' : AllocReachable promptMemory s' := hs.run (run_accessStep ▸ hrun)
  have hidle (pe : ℕ) : s'.calls pe = none := by
    by_contra hne
    obtain ⟨c, hc⟩ := Option.ne_none_iff_exists'.mp hne
    obtain ⟨g, hok⟩ := (hs'.inv promptMemory_lawful).call _ c hc
    have hidle := List.all_eq_true.mp hleft pe (List.mem_range.mpr (g.lt _ hok.mem))
    rw [hc] at hidle
    cases hidle
  have hblocked (a : ℕ × ShmemReply) : s'.accessStep promptMemory a = none := by
    simp only [accessStep, AllocState.step, hidle, Option.bind_eq_bind, Option.bind_none]
  have hpanic (pe : ℕ) (c : AllocCall) (hc : s'.calls pe = some c) : c.pc ≠ .panicked := by
    rw [hidle] at hc
    cases hc
  obtain ⟨hbound, hends⟩ := alloc_ends promptMemory_lawful hs hrun
  obtain ⟨hnone, hreturned⟩ := hends hblocked hpanic
  exact ⟨s', hrun, hbound, hnone, hreturned 0 couple (by rw [hrounds]; rfl)⟩

end Lamellar.Shmem
