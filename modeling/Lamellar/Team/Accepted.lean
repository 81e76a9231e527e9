import Mathlib.Data.List.Forall2
import Lamellar.Lib.Draining
import Lamellar.Lib.Folds
import Lamellar.Lib.Word
import Lamellar.Team.Subteam

/-!
# The teams that `LamellarArchRT::new` takes

`new` takes a team if the numbers that it names lie between the first and the last number that
the parent itself names. But the parent names numbers of its own parent, and a child names
numbers of the parent: the two agree only where a team starts at zero and leaves no PE out. The
last number of a team is a sum that may wrap around, and so is what a team names; here they are
those of the build (`newIn`, `parentPeIdIn`, `worldPeIn`).

* `new_exact_iff`: when `new` takes exactly the teams that name numbers of the parent.
* `worldPeIn_iff_worldPe`: where nothing wraps around, the translation is that of the naturals.
-/

namespace Lamellar.Team

variable {build : Build}

/-- `StridedArch::new` -/
def StridedArch.newIn (build : Build) (startPe stride numTeamPes : ℕ) :
    Option LamellarArchEnum := do
  let endPe ← (List.range' 1 (numTeamPes - 1)).foldlM
    (fun endPe _i => build.result (endPe + stride)) startPe
  some (.stridedArch numTeamPes startPe endPe stride)

/-- `BlockedArch::new` -/
def BlockedArch.newIn (build : Build) (startPe numTeamPes : ℕ) : Option LamellarArchEnum := do
  let endPe ← build.sub (← build.result (startPe + numTeamPes)) 1
  some (.blockedArch numTeamPes startPe endPe)

namespace LamellarArchEnum

/-- `parent_pe_id`, or none where it panics -/
def parentPeIdIn (build : Build) (teamPe : ℕ) : LamellarArchEnum → Option (Except IdError ℕ)
  | globalArch numPes => some (if teamPe < numPes then .ok teamPe else .error ⟨teamPe, teamPe⟩)
  | stridedArch numPes startPe endPe stride => do
    let parentPe ← build.result (startPe + (← build.result (teamPe * stride)))
    some (if parentPe ≥ startPe ∧ parentPe ≤ endPe ∧ teamPe < numPes then .ok parentPe
      else .error ⟨parentPe, teamPe⟩)
  | blockedArch numPes startPe endPe => do
    let parentPe ← build.result (startPe + teamPe)
    some (if parentPe ≥ startPe ∧ parentPe ≤ endPe ∧ teamPe < numPes then .ok parentPe
      else .error ⟨parentPe, teamPe⟩)
  | dynamic _ _ _ parentPeId _ => some (parentPeId teamPe)

/-- The arguments of `LamellarArchRT::new` -/
inductive SubIn (build : Build) : LamellarArchEnum → Prop
  | strided (startPe stride num : ℕ) {a : LamellarArchEnum} (hstart : startPe < word)
    (hstride : 0 < stride) (hnew : StridedArch.newIn build startPe stride num = some a) :
    SubIn build a
  | blocked (startPe num : ℕ) {a : LamellarArchEnum} (hstart : startPe < word)
    (hnew : BlockedArch.newIn build startPe num = some a) : SubIn build a

/-- The number of the parent that number `t` names -/
def nameOf (a : LamellarArchEnum) (t : ℕ) : ℕ := a.startPe + t * a.stride

/-- What the team itself takes for it -/
def wrappedName (a : LamellarArchEnum) (t : ℕ) : ℕ := a.nameOf t % word

/-- The last number of the parent that the team names -/
def lastName (a : LamellarArchEnum) : ℕ := a.nameOf (a.numPes - 1)

variable {a : LamellarArchEnum} {t p : ℕ}

theorem nameOf_le_lastName (ht : t < a.numPes) : a.nameOf t ≤ a.lastName :=
  Nat.add_le_add_left (Nat.mul_le_mul_right _ (by omega)) _

theorem wrappedName_eq (h : a.nameOf t < word) : a.wrappedName t = a.nameOf t := Nat.mod_eq_of_lt h

/-! ## The sums of a team -/

theorem foldlM_endPe {stride startPe endPe : ℕ} {is : List ℕ} (hstart : startPe < word)
    (h : is.foldlM (fun endPe _i => build.result (endPe + stride)) startPe = some endPe) :
    endPe = (startPe + is.length * stride) % word ∧
      (build = .checked → startPe + is.length * stride < word) := by
  induction is generalizing startPe with
  | nil =>
    cases h
    simp [Nat.mod_eq_of_lt hstart, hstart]
  | cons i is ih =>
    rw [List.foldlM_cons] at h
    obtain ⟨next, hnext, h⟩ := Option.bind_eq_some_iff.mp h
    obtain ⟨rfl, hfits⟩ := ih (Build.result_lt hnext) h
    have hlen : startPe + (i :: is).length * stride = startPe + stride + is.length * stride := by
      rw [List.length_cons, Nat.succ_mul, Nat.add_comm (is.length * stride), Nat.add_assoc]
    rw [hlen]
    cases build with
    | checked =>
      obtain ⟨-, rfl⟩ := Build.checked_result_eq_some_iff.mp hnext
      exact ⟨rfl, hfits⟩
    | wrapping =>
      rw [Build.wrapping_result] at hnext
      cases hnext
      exact ⟨Nat.mod_add_mod _ _ _, fun hchecked => nomatch hchecked⟩

theorem SubIn.stride_pos (ha : a.SubIn build) : 0 < a.stride := by
  cases ha with
  | strided start stride num hstart hstride hnew =>
    obtain ⟨endPe, -, hnew⟩ := Option.bind_eq_some_iff.mp hnew
    cases hnew
    exact hstride
  | blocked start num hstart hnew =>
    obtain ⟨sum, -, hnew⟩ := Option.bind_eq_some_iff.mp hnew
    obtain ⟨endPe, -, hnew⟩ := Option.bind_eq_some_iff.mp hnew
    cases hnew
    exact Nat.one_pos

/-- The last number that a team names has wrapped around, or the sum has panicked. -/
theorem SubIn.endPe_eq (ha : a.SubIn build) (hnum : 0 < a.numPes) :
    a.endPe = a.wrappedName (a.numPes - 1) ∧ (build = .checked → a.lastName < word) := by
  cases ha with
  | strided start stride num hstart hstride hnew =>
    obtain ⟨last, hlast, hnew⟩ := Option.bind_eq_some_iff.mp hnew
    cases hnew
    have hsum := foldlM_endPe hstart hlast
    rwa [List.length_range'] at hsum
  | blocked start num hstart hnew =>
    obtain ⟨sum, hsum, hnew⟩ := Option.bind_eq_some_iff.mp hnew
    obtain ⟨last, hlast, hnew⟩ := Option.bind_eq_some_iff.mp hnew
    cases hnew
    have hpos : 0 < num := hnum
    have hname : start + (num - 1) * 1 = start + num - 1 := by omega
    have hgoal : last = (start + num - 1) % word ∧ (build = .checked → start + num - 1 < word) := by
      cases build with
      | checked =>
        obtain ⟨hlt, rfl⟩ := Build.checked_result_eq_some_iff.mp hsum
        rw [Build.sub_of_le _ (by omega)] at hlast
        cases hlast
        exact ⟨(Nat.mod_eq_of_lt (by omega)).symm, fun _ => by omega⟩
      | wrapping =>
        rw [Build.wrapping_result] at hsum
        cases hsum
        rw [Build.wrapping_sub_one (by omega)] at hlast
        cases hlast
        exact ⟨rfl, fun hchecked => nomatch hchecked⟩
    rw [← hname] at hgoal
    exact hgoal

theorem SubIn.endPe_of_lt (ha : a.SubIn build) (hnum : 0 < a.numPes) (h : a.lastName < word) :
    a.endPe = a.lastName :=
  (ha.endPe_eq hnum).1.trans (wrappedName_eq h)

theorem checkName_iff {num start last name p : ℕ} {e : IdError} :
    (if name ≥ start ∧ name ≤ last ∧ t < num then Except.ok name else .error e) = .ok p ↔
      (t < num ∧ start ≤ name ∧ name ≤ last) ∧ name = p := by
  split
  · rename_i h
    simp [h.2.2, h.1, h.2.1]
  · rename_i h
    refine iff_of_false (fun herror => nomatch herror) ?_
    rintro ⟨⟨ht, hstart, hlast⟩, -⟩
    exact h ⟨hstart, hlast, ht⟩

/-- The numbers that a team names -/
theorem SubIn.parentPeIdIn_iff (ha : a.SubIn build) : a.parentPeIdIn build t = some (.ok p) ↔
    (t < a.numPes ∧ a.startPe ≤ a.wrappedName t ∧ a.wrappedName t ≤ a.endPe) ∧
      a.wrappedName t = p := by
  have hfits : t < a.numPes → build = .checked → a.nameOf t < word := fun ht hchecked =>
    Nat.lt_of_le_of_lt (nameOf_le_lastName ht)
      ((ha.endPe_eq (Nat.zero_lt_of_lt ht)).2 hchecked)
  cases ha with
  | strided start stride num hstart hstride hnew =>
    obtain ⟨last, -, hnew⟩ := Option.bind_eq_some_iff.mp hnew
    cases hnew
    constructor
    · intro h
      obtain ⟨k, hk, h⟩ := Option.bind_eq_some_iff.mp h
      obtain ⟨q, hq, h⟩ := Option.bind_eq_some_iff.mp h
      obtain rfl : q = (start + t * stride) % word := by
        rw [Build.result_mod hq, Build.result_mod hk, Nat.add_mod_mod]
      exact checkName_iff.mp (Option.some.inj h)
    · intro h
      have hlt : build = .checked → start + t * stride < word := hfits h.1.1
      have hk : build.result (t * stride) = some (t * stride % word) :=
        Build.result_of_fits fun hchecked =>
          Nat.lt_of_le_of_lt (Nat.le_add_left _ start) (hlt hchecked)
      have hq : build.result (start + t * stride % word) =
          some ((start + t * stride) % word) := by
        rw [Build.result_of_fits fun hchecked => Nat.lt_of_le_of_lt
          (Nat.add_le_add_left (Nat.mod_le _ _) start) (hlt hchecked), Nat.add_mod_mod]
      simp only [parentPeIdIn, hk, hq, Option.bind_eq_bind, Option.bind_some]
      exact congrArg some (checkName_iff.mpr h)
  | blocked start num hstart hnew =>
    obtain ⟨sum, -, hnew⟩ := Option.bind_eq_some_iff.mp hnew
    obtain ⟨last, -, hnew⟩ := Option.bind_eq_some_iff.mp hnew
    cases hnew
    have hname : start + t * 1 = start + t := by rw [Nat.mul_one]
    simp only [wrappedName, nameOf, startPe, stride, hname] at hfits ⊢
    constructor
    · intro h
      obtain ⟨q, hq, h⟩ := Option.bind_eq_some_iff.mp h
      obtain rfl := Build.result_mod hq
      exact checkName_iff.mp (Option.some.inj h)
    · intro h
      simp only [parentPeIdIn, Build.result_of_fits (hfits h.1.1), Option.bind_eq_bind,
        Option.bind_some]
      exact congrArg some (checkName_iff.mpr h)

end LamellarArchEnum

namespace LamellarArchRT

open LamellarArchEnum

/-- `world_pe`, or none where it panics -/
def worldPeIn (build : Build) : LamellarArchRT → ℕ → Option (Except IdError ℕ)
  | root arch, teamPe => arch.parentPeIdIn build teamPe
  | sub parent arch, teamPe => do
    match ← arch.parentPeIdIn build teamPe with
    | .ok parentPe => parent.worldPeIn build parentPe
    | .error e => some (.error e)

/-- `next` of `team_iter`, whose state is the number of the next PE -/
def iterNext (build : Build) (a : LamellarArchRT) (curPe : ℕ) : Option (Option ℕ × ℕ) :=
  if curPe < a.numPes then do
    match ← a.worldPeIn build curPe with
    | .ok pe => some (some pe, curPe + 1)
    | .error _ => some (none, curPe + 1)
  else some (none, curPe)

/-- What `team_iter` yields -/
def teamIterIn (build : Build) (a : LamellarArchRT) : Option (List ℕ) :=
  Draining.collect (a.iterNext build) (a.numPes + 1) 0

/-- The chains of teams that `new` takes, above the team of all `n` PEs -/
inductive BuiltIn (build : Build) (n : ℕ) : LamellarArchRT → Prop
  | world : BuiltIn build n (root (.globalArch n))
  | new {parent a : LamellarArchRT} {arch : LamellarArchEnum} (hparent : BuiltIn build n parent)
    (harch : arch.SubIn build) (hnew : parent.new arch = some a) : BuiltIn build n a

/-- `new` takes the child exactly if all that it names are numbers of the parent; and if it does,
every number of the new team has a PE, and `team_iter` passes through as many different PEs. -/
def NewExact (build : Build) (parent : LamellarArchRT) (child : LamellarArchEnum) : Prop :=
  ((parent.new child).isSome ↔ ∀ t < child.numPes, child.nameOf t < parent.numPes) ∧
    ∀ a, parent.new child = some a →
      (∀ t < a.numPes, ∃ w, a.worldPeIn build t = some (.ok w)) ∧
        ∃ pes, a.teamIterIn build = some pes ∧ pes.length = a.numPes ∧ pes.Nodup

/-- Numbers of the team that every team of the chain names within its own bounds, up to the world,
where no two of them meet -/
def PassUp : LamellarArchRT → List ℕ → Prop
  | root arch, ts => (∀ t ∈ ts, t < arch.numPes) ∧ ts.Nodup
  | sub parent arch, ts =>
    (∀ t ∈ ts, t < arch.numPes ∧ arch.startPe ≤ arch.wrappedName t ∧
      arch.wrappedName t ≤ arch.endPe) ∧ parent.PassUp (ts.map arch.wrappedName)

/-- If the child ends within the parent, it lies between what the parent itself names, and all its
numbers are passed up to the world. If it ends beyond the parent, it is too large, or one of its
ends, as it takes them itself, is not between what the parent itself names. -/
def Matches (parent : LamellarArchRT) (child : LamellarArchEnum) : Prop :=
  (child.lastName < parent.numPes → parent.arch.startPe ≤ child.startPe ∧
    child.lastName ≤ parent.arch.endPe ∧
    parent.PassUp ((List.range child.numPes).map child.nameOf)) ∧
  (parent.numPes ≤ child.lastName → parent.numPes < child.numPes ∨
    child.startPe < parent.arch.startPe ∨ parent.arch.endPe < child.startPe ∨
    child.endPe < parent.arch.startPe ∨ parent.arch.endPe < child.endPe)

variable {n : ℕ} {parent a : LamellarArchRT} {child : LamellarArchEnum}

/-! ## The PEs of a team -/

theorem new_isSome_iff : (parent.new child).isSome ↔ child.numPes ≤ parent.numPes ∧
    (parent.arch.startPe ≤ child.startPe ∧ child.startPe ≤ parent.arch.endPe) ∧
      parent.arch.startPe ≤ child.endPe ∧ child.endPe ≤ parent.arch.endPe := by
  simp only [new]
  split
  · rename_i h
    simpa [and_assoc] using h
  · rename_i h
    simpa [and_assoc] using h

theorem BuiltIn.numPes_le (ha : BuiltIn build n a) : a.numPes ≤ n := by
  induction ha with
  | world => exact Nat.le_refl _
  | @new parent a arch hparent harch hnew ih =>
    have hle := (new_isSome_iff.mp (Option.isSome_iff_exists.mpr ⟨a, hnew⟩)).1
    cases new_eq_some hnew
    exact Nat.le_trans hle ih

theorem worldPeIn_sub_iff (harch : child.SubIn build) {t w : ℕ} :
    (sub parent child).worldPeIn build t = some (.ok w) ↔
      (t < child.numPes ∧ child.startPe ≤ child.wrappedName t ∧
        child.wrappedName t ≤ child.endPe) ∧
      parent.worldPeIn build (child.wrappedName t) = some (.ok w) := by
  rw [worldPeIn]
  constructor
  · intro h
    obtain ⟨r, hr, h⟩ := Option.bind_eq_some_iff.mp h
    cases r with
    | error e => cases h
    | ok p =>
      obtain ⟨hin, rfl⟩ := harch.parentPeIdIn_iff.mp hr
      exact ⟨hin, h⟩
  · rintro ⟨hin, h⟩
    rw [harch.parentPeIdIn_iff.mpr ⟨hin, rfl⟩]
    exact h

/-- The PEs of numbers that are passed up -/
theorem BuiltIn.passUp_iff (ha : BuiltIn build n a) (ts : List ℕ) : a.PassUp ts ↔
    ∃ pes, List.Forall₂ (fun t w => a.worldPeIn build t = some (.ok w)) ts pes ∧ pes.Nodup := by
  induction ha generalizing ts with
  | world =>
    have hworld : ∀ t w, (root (.globalArch n)).worldPeIn build t = some (.ok w) ↔
        t < n ∧ t = w := by
      intro t w
      simp only [worldPeIn, parentPeIdIn, Option.some.injEq]
      split <;> simp [*]
    simp only [hworld, PassUp, List.forall₂_and_left, List.forall₂_eq_eq_eq]
    constructor
    · rintro ⟨hlt, hnodup⟩
      exact ⟨ts, ⟨hlt, rfl⟩, hnodup⟩
    · rintro ⟨pes, ⟨hlt, rfl⟩, hnodup⟩
      exact ⟨hlt, hnodup⟩
  | @new parent a arch hparent harch hnew ih =>
    cases new_eq_some hnew
    simp only [worldPeIn_sub_iff harch, List.forall₂_and_left, PassUp, ih,
      List.forall₂_map_left_iff]
    constructor
    · rintro ⟨hin, pes, hpes, hnodup⟩
      exact ⟨pes, ⟨hin, hpes⟩, hnodup⟩
    · rintro ⟨pes, ⟨hin, hpes⟩, hnodup⟩
      exact ⟨hin, pes, hpes, hnodup⟩

/-- `team_iter` yields the PEs of all numbers. -/
theorem teamIterIn_eq {pes : List ℕ} (h : List.Forall₂
    (fun t w => a.worldPeIn build t = some (.ok w)) (List.range a.numPes) pes) :
    a.teamIterIn build = some pes := by
  have hlen : a.numPes = pes.length := by rw [← h.length_eq, List.length_range]
  have hitem : ∀ i < a.numPes, a.iterNext build i = (pes[i]?).map fun w => (some w, i + 1) := by
    intro i hi
    have hworld := h.get (by simpa using hi) (hlen ▸ hi)
    simp only [List.get_eq_getElem, List.getElem_range] at hworld
    rw [iterNext, if_pos hi, hworld, List.getElem?_eq_getElem (hlen ▸ hi)]
    rfl
  have hend : a.iterNext build a.numPes = some (none, a.numPes) := if_neg (Nat.lt_irrefl _)
  have hcollect : a.teamIterIn build = (List.range' 0 (a.numPes - 0)).mapM (pes[·]?) :=
    @Draining.collect_count _ _ (a.iterNext build) (fun i => i) (pes[·]?) a.numPes hitem hend 0
      (Nat.zero_le _) _ (by omega)
  rw [hcollect, Nat.sub_zero, ← List.range_eq_range', hlen]
  exact Folds.mapM_range fun _ _ hget => hget

/-- Every number has a PE, and `team_iter` passes through different ones. -/
theorem teamIterIn_nodup_iff : ((∀ t < a.numPes, ∃ w, a.worldPeIn build t = some (.ok w)) ∧
    ∃ pes, a.teamIterIn build = some pes ∧ pes.length = a.numPes ∧ pes.Nodup) ↔
      ∃ pes, List.Forall₂ (fun t w => a.worldPeIn build t = some (.ok w))
        (List.range a.numPes) pes ∧ pes.Nodup := by
  constructor
  · rintro ⟨hok, pes, hiter, -, hnodup⟩
    have hall : ∀ t ∈ List.range a.numPes, ∃ w, a.worldPeIn build t = some (.ok w) :=
      fun t ht => hok t (List.mem_range.mp ht)
    obtain ⟨pes', hpes'⟩ : ∃ pes', List.Forall₂
        (fun t w => a.worldPeIn build t = some (.ok w)) (List.range a.numPes) pes' := by
      generalize List.range a.numPes = ts at hall
      induction ts with
      | nil => exact ⟨[], .nil⟩
      | cons t ts ih =>
        obtain ⟨w, hw⟩ := hall t List.mem_cons_self
        obtain ⟨ws, hws⟩ := ih fun t ht => hall t (List.mem_cons_of_mem _ ht)
        exact ⟨w :: ws, .cons hw hws⟩
    rw [teamIterIn_eq hpes'] at hiter
    cases hiter
    exact ⟨_, hpes', hnodup⟩
  · rintro ⟨pes, hpes, hnodup⟩
    refine ⟨fun t ht => ?_, pes, teamIterIn_eq hpes, ?_, hnodup⟩
    · have hlen : t < pes.length := by rwa [← hpes.length_eq, List.length_range]
      have hworld := hpes.get (by simpa using ht) hlen
      simp only [List.get_eq_getElem, List.getElem_range] at hworld
      exact ⟨_, hworld⟩
    · rw [← hpes.length_eq, List.length_range]

/-! ## What `new` takes -/

/-- A child whose last number is one of the parent names numbers of the parent only. -/
theorem nameOf_lt_iff (hnum : 0 < child.numPes) (m : ℕ) :
    (∀ t < child.numPes, child.nameOf t < m) ↔ child.lastName < m :=
  ⟨fun h => h _ (by omega), fun h _ ht => Nat.lt_of_le_of_lt (nameOf_le_lastName ht) h⟩

theorem sub_passUp_iff (hword : child.lastName < word) (hend : child.endPe = child.lastName) :
    (sub parent child).PassUp (List.range child.numPes) ↔
      parent.PassUp ((List.range child.numPes).map child.nameOf) := by
  have hname : ∀ t ∈ List.range child.numPes, child.wrappedName t = child.nameOf t := fun t ht =>
    wrappedName_eq (Nat.lt_of_le_of_lt (nameOf_le_lastName (List.mem_range.mp ht)) hword)
  rw [PassUp, List.map_congr_left hname]
  refine and_iff_right fun t ht => ?_
  have hlt := List.mem_range.mp ht
  rw [hname t ht, hend]
  exact ⟨hlt, Nat.le_add_right _ _, nameOf_le_lastName hlt⟩

/-- The exact condition for `new` -/
theorem new_exact_iff (hn : n < word) (hparent : BuiltIn build n parent)
    (hchild : child.SubIn build) (hnum : 0 < child.numPes) :
    NewExact build parent child ↔ Matches parent child := by
  have hsize : child.numPes - 1 ≤ child.lastName :=
    (Nat.le_mul_of_pos_right _ hchild.stride_pos).trans (Nat.le_add_left _ _)
  have hstart : child.startPe ≤ child.lastName := Nat.le_add_right _ _
  unfold NewExact Matches
  rw [nameOf_lt_iff hnum]
  by_cases hlt : child.lastName < parent.numPes
  · have hword : child.lastName < word :=
      Nat.lt_of_lt_of_le hlt (Nat.le_trans hparent.numPes_le (Nat.le_of_lt hn))
    have hend := hchild.endPe_of_lt hnum hword
    have hpass : ∀ a, parent.new child = some a →
        (((∀ t < a.numPes, ∃ w, a.worldPeIn build t = some (.ok w)) ∧
          ∃ pes, a.teamIterIn build = some pes ∧ pes.length = a.numPes ∧ pes.Nodup) ↔
            parent.PassUp ((List.range child.numPes).map child.nameOf)) := by
      intro a hnew
      have ha := BuiltIn.new hparent hchild hnew
      rw [teamIterIn_nodup_iff, ← ha.passUp_iff]
      cases new_eq_some hnew
      exact sub_passUp_iff hword hend
    rw [new_isSome_iff, hend]
    constructor
    · rintro ⟨hiff, hnew⟩
      obtain ⟨hpes, ⟨hfirst, -⟩, -, hlast⟩ := hiff.mpr hlt
      obtain ⟨a, ha⟩ := Option.isSome_iff_exists.mp
        (new_isSome_iff.mpr (hend.symm ▸ hiff.mpr hlt))
      exact ⟨fun _ => ⟨hfirst, hlast, (hpass a ha).mp (hnew a ha)⟩, fun h => by omega⟩
    · rintro ⟨hin, -⟩
      obtain ⟨hfirst, hlast, hup⟩ := hin hlt
      exact ⟨⟨fun _ => hlt, fun _ => ⟨by omega, ⟨hfirst, by omega⟩, by omega, hlast⟩⟩,
        fun a hnew => (hpass a hnew).mpr hup⟩
  · rw [new_isSome_iff]
    constructor
    · rintro ⟨hiff, -⟩
      refine ⟨fun h => absurd h hlt, fun _ => ?_⟩
      by_contra hnot
      push Not at hnot
      obtain ⟨hpes, h₁, h₂, h₃, h₄⟩ := hnot
      exact hlt (hiff.mp ⟨hpes, ⟨h₁, h₂⟩, h₃, h₄⟩)
    · rintro ⟨-, hout⟩
      have hrejected := hout (by omega)
      refine ⟨⟨fun h => ?_, fun h => absurd h hlt⟩, fun a hnew => ?_⟩
      · omega
      · have h := new_isSome_iff.mp (Option.isSome_iff_exists.mpr ⟨a, hnew⟩)
        omega

/-- The even ones of ten PEs, and of these the first two. -/
theorem new_exact_iff_even : NewExact .checked
    (sub (root (.globalArch 10)) (.stridedArch 5 0 8 2)) (.blockedArch 2 0 1) := by
  have hparent : BuiltIn .checked 10 (sub (root (.globalArch 10)) (.stridedArch 5 0 8 2)) :=
    .new .world (.strided 0 2 5 (by decide) (by decide) rfl) rfl
  refine (new_exact_iff (by decide) hparent (.blocked 0 2 (by decide) rfl) (by decide)).mpr
    ⟨fun _ => ⟨by decide, by decide, ?_⟩, fun h => absurd h (by decide)⟩
  exact ⟨by decide, by decide, by decide⟩

/-- The upper half of eight PEs is a team with the numbers 0 to 3: `new` panics for its first
two, and it takes the team of its numbers 4 and 5, which do not exist. It takes a team of three
PEs with a distance of `2 ^ 63`, too, the last of which has wrapped around to the first. -/
theorem new_not_exact :
    let upper := sub (root (.globalArch 8)) (.blockedArch 4 4 7)
    BuiltIn .checked 8 upper ∧ BlockedArch.newIn .checked 0 2 = some (.blockedArch 2 0 1) ∧
      ¬ NewExact .checked upper (.blockedArch 2 0 1) ∧
      BlockedArch.newIn .checked 4 2 = some (.blockedArch 2 4 5) ∧
      ¬ NewExact .checked upper (.blockedArch 2 4 5) ∧
      StridedArch.newIn .wrapping 0 (2 ^ 63) 3 = some (.stridedArch 3 0 0 (2 ^ 63)) ∧
      ¬ NewExact .wrapping (root (.globalArch 3)) (.stridedArch 3 0 0 (2 ^ 63)) := by
  refine ⟨.new .world (.blocked 4 4 (by decide) rfl) rfl, rfl, ?_, rfl, ?_, rfl, ?_⟩
  · rintro ⟨hiff, -⟩
    exact absurd (hiff.mpr (by decide)) (by decide)
  · rintro ⟨hiff, -⟩
    exact absurd (hiff.mp rfl) (by decide)
  · rintro ⟨hiff, -⟩
    exact absurd (hiff.mp rfl) (by decide)

/-! ## Where nothing wraps around -/

/-- The last number that a team names, and the sums that lead to it, are words. -/
def Fits : LamellarArchRT → Prop
  | root _ => True
  | sub parent arch =>
    parent.Fits ∧ 0 < arch.numPes ∧ arch.startPe + arch.numPes * arch.stride < word

theorem foldlM_eq (build : Build) {stride start : ℕ} {is : List ℕ}
    (h : start + is.length * stride < word) :
    is.foldlM (fun endPe _i => build.result (endPe + stride)) start =
      some ((· + stride)^[is.length] start) := by
  induction is generalizing start with
  | nil => rfl
  | cons i is ih =>
    rw [List.length_cons, Nat.succ_mul] at h
    rw [List.foldlM_cons, Build.result_of_lt _ (by omega), List.length_cons,
      Function.iterate_succ_apply]
    exact ih (by omega)

theorem subIn_of_sub (ha : child.Sub) (hnum : 0 < child.numPes)
    (hfits : child.startPe + child.numPes * child.stride < word) : child.SubIn build := by
  cases ha with
  | strided start stride num hstride =>
    have hpos : 0 < num := hnum
    have hsum : start + num * stride < word := hfits
    have hle : (num - 1) * stride ≤ num * stride := Nat.mul_le_mul_right _ (by omega)
    refine .strided start stride num (by omega) hstride ?_
    have hlen : start + (List.range' 1 (num - 1)).length * stride < word := by
      rw [List.length_range']
      omega
    rw [StridedArch.newIn, foldlM_eq build hlen, List.length_range']
    rfl
  | blocked start num =>
    have hpos : 0 < num := hnum
    have hsum : start + num * 1 < word := hfits
    refine .blocked start num (by omega) ?_
    rw [BlockedArch.newIn, Build.result_of_lt _ (by omega)]
    dsimp only [Option.bind_eq_bind, Option.bind_some]
    rw [Build.sub_of_le _ (by omega)]
    rfl

/-- Where nothing wraps around, the translation to the world is that of the naturals. -/
theorem worldPeIn_iff_worldPe (ha : Built (.globalArch n) a) (hfits : a.Fits) (t w : ℕ) :
    a.worldPeIn build t = some (.ok w) ↔ a.worldPe t = .ok w := by
  induction ha generalizing t with
  | world => rw [worldPeIn, worldPe, parentPeIdIn, parentPeId, Option.some.injEq]
  | @new parent a arch hparent harch hnew ih =>
    cases new_eq_some hnew
    obtain ⟨hup, hnum, hsum⟩ := hfits
    have hname : t < arch.numPes → arch.wrappedName t = arch.nameOf t ∧
        arch.startPe ≤ arch.nameOf t ∧ arch.nameOf t ≤ arch.endPe := by
      intro ht
      have hle := nameOf_le_lastName ht
      have hlast : arch.lastName < word := Nat.lt_of_le_of_lt
        (Nat.add_le_add_left (Nat.mul_le_mul_right _ (Nat.sub_le _ _)) _) hsum
      exact ⟨wrappedName_eq (Nat.lt_of_le_of_lt hle hlast), Nat.le_add_right _ _,
        (harch.endPe_eq hnum).symm ▸ hle⟩
    rw [worldPeIn_sub_iff (subIn_of_sub harch hnum hsum), worldPe]
    constructor
    · rintro ⟨⟨ht, -⟩, h⟩
      rw [(hname ht).1] at h
      rw [harch.parentPeId_iff.mpr ⟨ht, rfl⟩]
      exact (ih hup _).mp h
    · intro h
      split at h
      · rename_i p hp
        obtain ⟨ht, rfl⟩ := harch.parentPeId_iff.mp hp
        obtain ⟨heq, hin⟩ := hname ht
        rw [heq]
        exact ⟨⟨ht, hin⟩, (ih hup _).mpr h⟩
      · cases h

end LamellarArchRT

end Lamellar.Team
