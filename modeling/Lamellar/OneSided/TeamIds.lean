import Lamellar.OneSided.TeamModel

/-!
# The ids of one-sided regions on teams

Every handle has either allocated its region or was made from a message of an earlier handle, with
the ids of that one (`Inv.origin`). The number that a handle carries is the number of its PE in the
world where the region is allocated, and its number in the team elsewhere: address translation wants
the first, a completion message the second.

* `ids_exact`: as long as only PEs send handles whose two numbers are the same, the ids are right in
  every state; a handle from any other PE is wrong.
* `ids_wrong`: PE 1 of three allocates for the team of PEs 1 and 2, and sends its handle to PE 2.
-/

namespace Lamellar.OneSided.Teams

open Lamellar.Team Lamellar.Memregion Lamellar.Transition

variable {n i j : ℕ} {ok : Ids → Prop} {s s' : State} {x x' : MemRegionHandleInner} {a e p : Ids}
  {m : NetMemRegionHandle}

namespace Ids

def IsRoot (e : Ids) : Prop := e = allocated e.pe e.myId.1 e.team

/-- `e` was made from a message of `p`, the handle at position `j`. -/
structure IsChildOf (e p : Ids) (j : ℕ) : Prop where
  made : e = (p.net j e.pe).ids e.myId.1 e.myId.2
  teamPe : e.team.teamPe e.pe = .ok e.myId.2
  pe_ne : e.pe ≠ p.pe

end Ids

/-- `m` is a message of the handle `p`. -/
structure NetMemRegionHandle.IsFrom (m : NetMemRegionHandle) (p : Ids) : Prop where
  eq : m = p.net m.sender m.dst
  dst_ne : m.dst ≠ p.pe
  member : ∃ t, p.team.teamPe m.dst = .ok t

structure Inv (n : ℕ) (ok : Ids → Prop) (s : State) : Prop where
  member : ∀ {i : ℕ} {e : Ids}, s.ids[i]? = some e →
    LamellarArchRT.Built (.globalArch n) e.team ∧ ∃ t, e.team.teamPe e.pe = .ok t
  id_lt : ∀ {i : ℕ} {e : Ids}, s.ids[i]? = some e → e.myId.1 < s.idCounter e.pe
  id_inj : ∀ {i j : ℕ} {a b : Ids}, s.ids[i]? = some a → s.ids[j]? = some b → a.pe = b.pe →
    a.myId.1 = b.myId.1 → i = j
  origin : ∀ {i : ℕ} {e : Ids}, s.ids[i]? = some e →
    e.IsRoot ∨ ∃ j p, j < i ∧ s.ids[j]? = some p ∧ e.IsChildOf p j ∧ ok p
  map_ok : ∀ {q : ℕ} {key : ℕ × ℕ} {i : ℕ}, s.map q key = some i →
    ∃ e, s.ids[i]? = some e ∧ e.pe = q ∧ e.parentId = key
  message : ∀ m ∈ s.inFlight, ∃ p, s.ids[m.sender]? = some p ∧ m.IsFrom p ∧ ok p
  finished : ∀ m ∈ s.finished, ∃ e, s.ids[m.child]? = some e ∧ e.completionPe = some m.dst

/-! ## Steps that make no handle -/

theorem State.ids_eq_some (hi : s.entries[i]? = some x) : s.ids[i]? = some x.toIds := by
  rw [State.ids, List.getElem?_map, hi]
  rfl

theorem State.of_ids_eq_some (hi : s.ids[i]? = some e) :
    ∃ x, s.entries[i]? = some x ∧ x.toIds = e := by
  rw [State.ids, List.getElem?_map] at hi
  exact Option.map_eq_some_iff.mp hi

theorem State.ids_setEntry (hi : s.entries[i]? = some x) (hids : x'.toIds = x.toIds) :
    (s.setEntry i x').ids = s.ids := by
  have hget := State.ids_eq_some hi
  obtain ⟨hlt, hx⟩ := List.getElem?_eq_some_iff.mp hget
  rw [State.ids, setEntry, List.map_set, hids, ← hx]
  exact List.set_getElem_self hlt

/-- A step that makes no handle -/
structure Keeps (ok : Ids → Prop) (s s' : State) : Prop where
  ids : s'.ids = s.ids
  idCounter : s'.idCounter = s.idCounter
  map : ∀ q key i, s'.map q key = some i → s.map q key = some i
  message : ∀ m ∈ s'.inFlight,
    m ∈ s.inFlight ∨ ∃ p, s.ids[m.sender]? = some p ∧ m.IsFrom p ∧ ok p
  finished : ∀ m ∈ s'.finished,
    m ∈ s.finished ∨ ∃ e, s.ids[m.child]? = some e ∧ e.completionPe = some m.dst

theorem Inv.keep (h : Inv n ok s) (hs' : Keeps ok s s') : Inv n ok s' where
  member hi := h.member (hs'.ids ▸ hi)
  id_lt hi := hs'.idCounter ▸ h.id_lt (hs'.ids ▸ hi)
  id_inj hi hj := h.id_inj (hs'.ids ▸ hi) (hs'.ids ▸ hj)
  origin hi := by
    rw [hs'.ids] at hi ⊢
    exact h.origin hi
  map_ok hq := by
    rw [hs'.ids]
    exact h.map_ok (hs'.map _ _ _ hq)
  message m hm := by
    rw [hs'.ids]
    rcases hs'.message m hm with hold | hnew
    · exact h.message m hold
    · exact hnew
  finished m hm := by
    rw [hs'.ids]
    rcases hs'.finished m hm with hold | hnew
    · exact h.finished m hold
    · exact hnew

theorem Keeps.setEntry (hi : s.entries[i]? = some x) (hids : x'.toIds = x.toIds) :
    Keeps ok s (s.setEntry i x') :=
  ⟨State.ids_setEntry hi hids, rfl, fun _ _ _ h => h, fun _ h => Or.inl h, fun _ h => Or.inl h⟩

theorem State.setMap_none {q q' : ℕ} {key key' : ℕ × ℕ}
    (h : (s.setMap q key none).map q' key' = some i) : s.map q' key' = some i := by
  simp only [setMap, Function.update_apply] at h
  split at h
  · rename_i hq
    subst hq
    simp only [Function.update_apply] at h
    split at h
    · cases h
    · exact h
  · exact h

theorem Keeps.release (hi : s.entries[i]? = some x) (hids : x'.toIds = x.toIds) :
    Keeps ok s (s.release i x') := by
  have hset (x'' : MemRegionHandleInner) (hids'' : x''.toIds = x.toIds) :
      Keeps ok s ((s.setMap x'.pe x'.parentId none).setEntry i x'') :=
    ⟨State.ids_setEntry hi hids'', rfl, fun _ _ _ h => State.setMap_none h,
      fun _ h => Or.inl h, fun _ h => Or.inl h⟩
  rw [State.release]
  split
  · rename_i hne
    obtain ⟨hsetIds, hcounter, hmap, hmessage, -⟩ := hset { x' with remoteRecv := 0 } hids
    refine ⟨hsetIds, hcounter, hmap, hmessage, fun m hm => ?_⟩
    dsimp only at hm
    split at hm
    · split at hm
      · rename_i dst hdst
        rcases List.mem_cons.mp hm with rfl | hold
        · refine Or.inr ⟨x.toIds, State.ids_eq_some hi, ?_⟩
          rw [← hids, Ids.completionPe, if_pos hne]
          exact hdst
        · exact Or.inl hold
      · exact Or.inl hm
    · exact Or.inl hm
  · exact hset x' hids

theorem Keeps.drop (hi : s.entries[i]? = some x) : Keeps ok s (s.drop i x) := by
  rw [State.drop]
  split
  · split
    · exact .release hi rfl
    · exact .setEntry hi rfl
  · exact .setEntry hi rfl

theorem Keeps.waitStep (hi : s.entries[i]? = some x) (h : s.waitStep i x = some s') :
    Keeps ok s s' := by
  rw [State.waitStep] at h
  split at h
  · cases h
    exact .setEntry hi rfl
  · cases h
    exact .setEntry hi rfl
  · split at h
    · cases h
      exact .release hi rfl
    · cases h
      exact .setEntry hi rfl
  · cases h

theorem Keeps.finish (m : MemRegionFinishedAm) (k : ℕ) :
    Keeps ok s ({ s with finished := s.finished.eraseIdx k }.finish m) := by
  have herase (m : MemRegionFinishedAm) (hm : m ∈ s.finished.eraseIdx k) : m ∈ s.finished :=
    List.mem_of_mem_eraseIdx hm
  rw [State.finish]
  split
  · rename_i l hl
    refine ⟨?_, rfl, fun _ _ _ h => h, fun _ h => Or.inl h, fun m hm => Or.inl (herase m hm)⟩
    refine List.ext_getElem? fun k => ?_
    rw [State.ids, State.ids, List.getElem?_map, List.getElem?_map, List.getElem?_modify]
    cases hk : s.entries[k]? with
    | none => rfl
    | some x =>
      simp only [Option.map_some]
      split <;> rfl
  · exact ⟨rfl, rfl, fun _ _ _ h => h, fun _ h => Or.inl h, fun m hm => Or.inl (herase m hm)⟩

theorem Keeps.ser {dsts : List ℕ} (hi : s.entries[i]? = some x) (hpe : x.pe ∉ dsts)
    (hmember : ∀ dst ∈ dsts, ∃ t, x.team.teamPe dst = .ok t) (hok : dsts ≠ [] → ok x.toIds) :
    Keeps ok s (s.ser i x dsts) := by
  obtain ⟨hids, hcounter, hmap, -, hfinished⟩ : Keeps ok s
      (s.setEntry i { x with remoteSent := x.remoteSent + dsts.length }) := .setEntry hi rfl
  refine ⟨hids, hcounter, hmap, fun m hm => ?_, hfinished⟩
  rcases List.mem_append.mp hm with hold | hnew
  · exact Or.inl hold
  · obtain ⟨dst, hdst, rfl⟩ := List.mem_map.mp hnew
    refine Or.inr ⟨x.toIds, State.ids_eq_some hi, ⟨rfl, ?_, hmember dst hdst⟩,
      hok (List.ne_nil_of_mem hdst)⟩
    rintro rfl
    exact hpe hdst

/-! ## Steps that make one -/

theorem State.ids_insert {q : ℕ} {key : ℕ × ℕ} : (s.insert q key x).ids = s.ids ++ [x.toIds] :=
  List.map_append

theorem getElem?_concat {l : List Ids} (h : (l ++ [a])[i]? = some e) :
    l[i]? = some e ∨ i = l.length ∧ e = a := by
  rw [List.getElem?_append] at h
  split at h
  · exact Or.inl h
  · rename_i hle
    obtain ⟨hlt, rfl⟩ := List.getElem?_eq_some_iff.mp h
    rw [List.length_singleton] at hlt
    exact Or.inr ⟨by omega, List.getElem_singleton _⟩

theorem getElem?_concat_of_eq_some {l : List Ids} (h : l[i]? = some e) :
    (l ++ [a])[i]? = some e := by
  rw [List.getElem?_append_left (List.getElem?_eq_some_iff.mp h).1]
  exact h

/-- A new handle gets the next id of its PE. -/
theorem Inv.insert (h : Inv n ok s) (hid : x.myId.1 = s.idCounter x.pe)
    (hmember : LamellarArchRT.Built (.globalArch n) x.team ∧ ∃ t, x.team.teamPe x.pe = .ok t)
    (horigin : x.toIds.IsRoot ∨ ∃ j p, s.ids[j]? = some p ∧ x.toIds.IsChildOf p j ∧ ok p) :
    Inv n ok (s.insert x.pe x.parentId x) := by
  have hlt {i : ℕ} {e : Ids} (hi : s.ids[i]? = some e) : i < s.ids.length :=
    (List.getElem?_eq_some_iff.mp hi).1
  have hnew {i : ℕ} {e : Ids} (hi : s.ids[i]? = some e) (hpe : e.pe = x.pe) :
      e.myId.1 ≠ x.myId.1 := by
    have hold := h.id_lt hi
    rw [hpe] at hold
    omega
  refine ⟨?_, ?_, ?_, ?_, ?_, ?_, ?_⟩
  · intro i e hi
    rw [State.ids_insert] at hi
    rcases getElem?_concat hi with hi | ⟨-, rfl⟩
    · exact h.member hi
    · exact hmember
  · intro i e hi
    rw [State.ids_insert] at hi
    simp only [State.insert, Function.update_apply]
    rcases getElem?_concat hi with hi | ⟨-, rfl⟩
    · have hold := h.id_lt hi
      split
      · rename_i hpe
        rw [hpe] at hold
        omega
      · exact hold
    · rw [if_pos rfl, hid]
      exact Nat.lt_succ_self _
  · intro i j a b hi hj hpe hids
    rw [State.ids_insert] at hi hj
    rcases getElem?_concat hi with hi | ⟨rfl, rfl⟩
    · rcases getElem?_concat hj with hj | ⟨rfl, rfl⟩
      · exact h.id_inj hi hj hpe hids
      · exact absurd hids (hnew hi hpe)
    · rcases getElem?_concat hj with hj | ⟨rfl, rfl⟩
      · exact absurd hids.symm (hnew hj hpe.symm)
      · rfl
  · intro i e hi
    rw [State.ids_insert] at hi ⊢
    rcases getElem?_concat hi with hi | ⟨rfl, rfl⟩
    · rcases h.origin hi with hroot | ⟨j, p, hji, hj, hchild⟩
      · exact Or.inl hroot
      · exact Or.inr ⟨j, p, hji, getElem?_concat_of_eq_some hj, hchild⟩
    · rcases horigin with hroot | ⟨j, p, hj, hchild⟩
      · exact Or.inl hroot
      · exact Or.inr ⟨j, p, hlt hj, getElem?_concat_of_eq_some hj, hchild⟩
  · intro q key i hq
    rw [State.ids_insert]
    simp only [State.insert, State.setMap, Function.update_apply] at hq
    have hold (hq : s.map q key = some i) :
        ∃ e, (s.ids ++ [x.toIds])[i]? = some e ∧ e.pe = q ∧ e.parentId = key := by
      obtain ⟨e, hi, hpe, hkey⟩ := h.map_ok hq
      exact ⟨e, getElem?_concat_of_eq_some hi, hpe, hkey⟩
    split at hq
    · rename_i hpe
      subst hpe
      simp only [Function.update_apply] at hq
      split at hq
      · rename_i hkey
        cases hq
        refine ⟨x.toIds, ?_, rfl, hkey.symm⟩
        rw [State.ids, List.getElem?_append_right (by rw [List.length_map]), List.length_map,
          Nat.sub_self]
        rfl
      · exact hold hq
    · exact hold hq
  · intro m hm
    rw [State.ids_insert]
    obtain ⟨p, hp, hfrom⟩ := h.message m hm
    exact ⟨p, getElem?_concat_of_eq_some hp, hfrom⟩
  · intro m hm
    rw [State.ids_insert]
    obtain ⟨e, he, hpe⟩ := h.finished m hm
    exact ⟨e, getElem?_concat_of_eq_some he, hpe⟩

/-! ## All steps -/

theorem Inv.new {q : ℕ} {team : LamellarArchRT} (h : Inv n ok s)
    (hbuilt : LamellarArchRT.Built (.globalArch n) team) (hmember : ∃ t, team.teamPe q = .ok t) :
    Inv n ok (s.new q team) :=
  h.insert (x := { Ids.allocated q (s.idCounter q) team with
    localRef := 1, remoteSent := 0, remoteRecv := 0, localDropped := false
    handles := 1, opened := 0, wait := none }) rfl ⟨hbuilt, hmember⟩ (Or.inl rfl)

theorem Inv.receive {k : ℕ} (h : Inv n ok s) (hm : s.inFlight[k]? = some m)
    (hstep : { s with inFlight := s.inFlight.eraseIdx k }.receive m = some s') : Inv n ok s' := by
  obtain ⟨p, hp, hfrom, hok⟩ := h.message m (List.mem_of_getElem? hm)
  have h' : Inv n ok { s with inFlight := s.inFlight.eraseIdx k } :=
    h.keep ⟨rfl, rfl, fun _ _ _ h => h, fun _ h => Or.inl (List.mem_of_mem_eraseIdx h),
      fun _ h => Or.inl h⟩
  have hteam : m.team = p.team := by rw [hfrom.eq]; rfl
  rw [State.receive] at hstep
  split at hstep
  · split at hstep
    · rename_i hi
      cases hstep
      exact h'.keep (.setEntry hi rfl)
    · cases hstep
  · split at hstep
    · rename_i t ht
      cases hstep
      refine h'.insert (x := { m.ids (s.idCounter m.dst) t with
        localRef := 1, remoteSent := 0, remoteRecv := 0, localDropped := false
        handles := 0, opened := 1, wait := none }) rfl ⟨?_, t, ht⟩
        (Or.inr ⟨m.sender, p, hp, ⟨?_, ht, hfrom.dst_ne⟩, hok⟩)
      · change LamellarArchRT.Built _ m.team
        rw [hteam]
        exact (h.member hp).1
      · exact congrArg (fun m => m.ids (s.idCounter m.dst) t) hfrom.eq
    · cases hstep

theorem Inv.step {act : Action} (h : Inv n ok s) (hmembers : BetweenMembers n s act)
    (hsent : SentBy ok s act) (hstep : s.step act = some s') : Inv n ok s' := by
  cases act with
  | new q team =>
    cases hstep
    exact h.new hmembers.1 hmembers.2
  | receive k =>
    simp only [State.step] at hstep
    split at hstep
    · exact h.receive ‹_› hstep
    · cases hstep
  | finish k =>
    simp only [State.step] at hstep
    split at hstep
    · cases hstep
      exact h.keep (.finish _ k)
    · cases hstep
  | waitStep i =>
    simp only [State.step] at hstep
    split at hstep
    · exact h.keep (.waitStep ‹_› hstep)
    · cases hstep
  | ser i dsts =>
    simp only [State.step] at hstep
    split at hstep
    · rename_i x hi
      split at hstep
      · rename_i hguard
        cases hstep
        exact h.keep (.ser hi hguard.2 (hmembers x hi) fun hne => hsent hne x hi)
      · cases hstep
    · cases hstep
  | clone i | des i =>
    simp only [State.step] at hstep
    split at hstep
    · rename_i x hi
      split at hstep
      · cases hstep
        exact h.keep (.setEntry hi rfl)
      · cases hstep
    · cases hstep
  | drop i =>
    simp only [State.step] at hstep
    split at hstep
    · split at hstep
      · cases hstep
        exact h.keep (.drop ‹_›)
      · cases hstep
    · cases hstep

theorem Inv.empty : Inv n ok State.empty where
  member hi := by cases hi
  id_lt hi := by cases hi
  id_inj hi := by cases hi
  origin hi := by cases hi
  map_ok hq := by cases hq
  message m hm := by cases hm
  finished m hm := by cases hm

theorem Reach.inv (hs : Reached n ok s) : Inv n ok s :=
  Transition.Reach.invariant (fun _ hs => hs ▸ Inv.empty)
    (fun _ _ _ h hok hstep => h.step hok.1 hok.2 hstep) hs

/-! ## Senders -/

namespace Ids.IsChildOf

theorem team (h : e.IsChildOf p j) : e.team = p.team := (congrArg Ids.team h.made :)

theorem mrPe (h : e.IsChildOf p j) : e.mrPe = p.mrPe := (congrArg Ids.mrPe h.made :)

theorem addrPe (h : e.IsChildOf p j) : e.addrPe = some p.myId.2 := (congrArg Ids.addrPe h.made :)

theorem parentId (h : e.IsChildOf p j) : e.parentId = p.myId := (congrArg Ids.parentId h.made :)

theorem region (h : e.IsChildOf p j) : e.region = p.region := (congrArg Ids.region h.made :)

theorem sender (h : e.IsChildOf p j) : e.sender = some j := (congrArg Ids.sender h.made :)

end Ids.IsChildOf

theorem Ids.IsRoot.completionPe (h : e.IsRoot) : e.completionPe = none := by
  have hsame : e.myId = e.parentId :=
    (congrArg Ids.myId h).trans (congrArg Ids.parentId h).symm
  rw [Ids.completionPe, if_neg (not_not_intro hsame)]

theorem Inv.received (h : Inv n ok s) (hr : s.Received i e p) :
    ∃ j, s.ids[j]? = some p ∧ e.IsChildOf p j ∧ ok p := by
  obtain ⟨hi, j, hsender, hj⟩ := hr
  rcases h.origin hi with hroot | ⟨j', p', -, hj', hchild, hok⟩
  · rw [hroot] at hsender
    cases hsender
  · rw [hchild.sender] at hsender
    cases hsender
    rw [hj] at hj'
    cases hj'
    exact ⟨j, hj, hchild, hok⟩

/-- The number that a handle carries is that of its PE in the world or in the team. -/
theorem Inv.number (h : Inv n ok s) (hi : s.ids[i]? = some e) :
    e.myId.2 = e.pe ∨ e.team.teamPe e.pe = .ok e.myId.2 := by
  rcases h.origin hi with hroot | ⟨_, _, -, -, hchild, -⟩
  · exact Or.inl (congrArg (fun e => e.myId.2) hroot)
  · exact Or.inr hchild.teamPe

theorem Inv.number_eq (h : Inv n ok s) (hi : s.ids[i]? = some e) (hnum : e.Numbered) :
    e.myId.2 = e.pe := by
  rcases h.number hi with heq | hteam
  · exact heq
  · rw [hnum] at hteam
    exact (Except.ok.inj hteam).symm

theorem Inv.mrPe_eq (h : Inv n ok s) (hi : s.ids[i]? = some e) : e.mrPe = e.region.2 := by
  induction i using Nat.strongRecOn generalizing e with
  | _ i ih =>
    rcases h.origin hi with hroot | ⟨j, p, hlt, hj, hchild, -⟩
    · exact (congrArg Ids.mrPe hroot).trans (congrArg (fun e => e.region.2) hroot).symm
    · rw [hchild.mrPe, hchild.region]
      exact ih j hlt hj

theorem Inv.worldPe_iff (h : Inv n ok s) (hi : s.ids[i]? = some e) (t w : ℕ) :
    e.team.worldPe t = .ok w ↔ e.team.teamPe w = .ok t :=
  (h.member hi).1.worldPe_iff (.global n) t w

/-- Two members of a team have two numbers. -/
theorem Inv.pe_inj (h : Inv n ok s) (hi : s.ids[i]? = some e) {t q q' : ℕ}
    (hq : e.team.teamPe q = .ok t) (hq' : e.team.teamPe q' = .ok t) : q = q' := by
  rw [← h.worldPe_iff hi] at hq hq'
  rw [hq] at hq'
  cases hq'
  rfl

/-- A completion message goes to the member whose number in the team the sender's id carries. -/
theorem Inv.finishedPe_iff (h : Inv n ok s) (hi : s.ids[i]? = some e) (q : ℕ) :
    e.finishedPe = some q ↔ e.team.teamPe q = .ok e.parentId.2 := by
  rw [← h.worldPe_iff hi, Ids.finishedPe]
  constructor
  · intro hq
    split at hq
    · cases hworld : e.team.worldPe e.parentId.2 with
      | ok w =>
        rw [hworld] at hq
        cases hq
        rfl
      | error err =>
        rw [hworld] at hq
        cases hq
    · cases hq
  · intro hworld
    have hnames := ((h.member hi).1.worldPe_ok_iff (.global n) _).mp ⟨q, hworld⟩
    rw [if_pos hnames.lt, hworld]
    rfl

/-- The sender of a handle is the PE of its ids exactly if its two numbers are the same. -/
theorem Inv.fromPe_iff (h : Inv n ok s) (hr : s.Received i e p) : e.FromPe p.pe ↔ p.Numbered := by
  obtain ⟨j, hj, hchild, -⟩ := h.received hr
  have hfinished := h.finishedPe_iff hr.1 p.pe
  rw [hchild.team, hchild.parentId] at hfinished
  constructor
  · rintro ⟨htranslated, hcompleted⟩
    rw [hchild.addrPe, Option.some.injEq] at htranslated
    rw [Ids.completionPe] at hcompleted
    split at hcompleted
    · rw [hfinished, htranslated] at hcompleted
      exact hcompleted
    · cases hcompleted
  · intro hnum
    have hnumber := h.number_eq hj hnum
    refine ⟨?_, ?_⟩
    · rw [hchild.addrPe, hnumber]
    · rw [Ids.completionPe, if_pos, hfinished, hnumber]
      · exact hnum
      · intro hsame
        have hteam := hchild.teamPe
        rw [hsame, hchild.parentId, hnumber] at hteam
        exact hchild.pe_ne (h.pe_inj hr.1 hteam (hchild.team ▸ hnum))

/-! ## Locality -/

theorem Ids.addr_oneSided (e : Ids) (build : Build) (size : ℕ) (view : View) :
    (e.oneSided view).addr build size =
      if e.mrPe = e.myId.2 then view.addr build size else .error .notLocal := rfl

theorem Ids.asSlice_oneSided (e : Ids) (build : Build) (size : ℕ) (view : View) :
    (e.oneSided view).asSlice build size =
      if e.mrPe = e.myId.2 then view.asSlice build size else .error .notLocal := rfl

theorem localExactly_iff : e.LocalExactly ↔ (e.mrPe = e.myId.2 ↔ e.pe = e.region.2) := by
  constructor
  · intro h
    have hholds : (⟨1, 1⟩ : MemoryRegion).Holds 1 1 := ⟨by decide, rfl, by decide, by decide⟩
    have hlocal := (h .checked 1 1 ⟨⟨1, 1⟩, 0, 1⟩ hholds (Nat.le_refl 1)).1
    rw [← hlocal]
    exact decide_eq_true_iff.symm
  · intro h build size n view hholds hin
    rw [← h]
    refine ⟨decide_eq_true_iff, ?_, ?_⟩
    · rw [Ids.addr_oneSided, View.addr_eq hholds hin]
      split
      · rename_i hlocal
        exact ⟨fun _ => hlocal, fun _ => ⟨_, rfl⟩⟩
      · rename_i hlocal
        refine ⟨?_, fun hpe => absurd hpe hlocal⟩
        rintro ⟨_, haddr⟩
        cases haddr
    · rw [Ids.asSlice_oneSided, View.asSlice_eq hholds hin]
      split
      · rename_i hlocal
        exact ⟨fun _ => hlocal, fun _ => ⟨_, rfl⟩⟩
      · rename_i hlocal
        refine ⟨?_, fun hpe => absurd hpe hlocal⟩
        rintro ⟨_, hslice⟩
        cases hslice

theorem Inv.localExactly_iff (h : Inv n ok s) (hr : s.Received i e p) :
    e.LocalExactly ↔ e.LocalNumbered := by
  obtain ⟨j, -, hchild, -⟩ := h.received hr
  rw [Teams.localExactly_iff, h.mrPe_eq hr.1, Ids.LocalNumbered, hchild.teamPe, Except.ok.injEq,
    eq_comm]

/-- Regions are allocated where the two numbers are the same, or stay there. -/
theorem Inv.allocator_numbered (h : Inv n Ids.Numbered s) (hi : s.ids[i]? = some e) :
    e.IsRoot ∨ e.team.teamPe e.region.2 = .ok e.region.2 := by
  induction i using Nat.strongRecOn generalizing e with
  | _ i ih =>
    rcases h.origin hi with hroot | ⟨j, p, hlt, hj, hchild, hnum⟩
    · exact Or.inl hroot
    · refine Or.inr ?_
      rw [hchild.team, hchild.region]
      rcases ih j hlt hj with hroot | hregion
      · have hpe : p.region.2 = p.pe := congrArg (fun p => p.region.2) hroot
        rw [hpe]
        exact hnum
      · exact hregion

theorem Inv.localExactly (h : Inv n Ids.Numbered s) (hi : s.ids[i]? = some e) :
    e.LocalExactly := by
  rw [Teams.localExactly_iff, h.mrPe_eq hi]
  rcases h.origin hi with hroot | ⟨j, p, -, -, hchild, -⟩
  · rw [hroot]
    exact iff_of_true rfl rfl
  · rcases h.allocator_numbered hi with hroot | hregion
    · rw [hroot] at hchild
      cases hchild.sender
    · constructor
      · intro hnumber
        refine h.pe_inj hi ?_ hregion
        rw [hnumber]
        exact hchild.teamPe
      · intro hpe
        have hteam := hchild.teamPe
        rw [hpe, hregion] at hteam
        exact Except.ok.inj hteam

/-! ## Runs -/

theorem Inv.found (h : Inv n Ids.Numbered s) (hm : m ∈ s.inFlight)
    (hi : s.map m.dst m.myId = some i) : ∃ e, s.ids[i]? = some e ∧ e.sender = some m.sender := by
  obtain ⟨p, hp, hfrom, hnum⟩ := h.message m hm
  obtain ⟨e, he, hpe, hkey⟩ := h.map_ok hi
  have hid : e.parentId = p.myId := by
    rw [hkey, hfrom.eq]
    rfl
  have hnumber := h.number_eq hp hnum
  refine ⟨e, he, ?_⟩
  rcases h.origin he with hroot | ⟨j, q, -, hj, hchild, hqnum⟩
  · -- the sender would be the PE of `e`, to which the message goes
    have hown : e.parentId.2 = e.pe := congrArg (fun e => e.parentId.2) hroot
    rw [hid, hnumber, hpe] at hown
    exact absurd hown.symm hfrom.dst_ne
  · have hsame : q.myId = p.myId := hchild.parentId.symm.trans hid
    have hpes : q.pe = p.pe := by rw [← h.number_eq hj hqnum, hsame, hnumber]
    rw [hchild.sender, h.id_inj hj hp hpes (congrArg Prod.fst hsame)]

theorem Inv.idsRight (h : Inv n Ids.Numbered s) : s.IdsRight where
  received i e p hr := by
    obtain ⟨_, -, -, hnum⟩ := h.received hr
    exact (h.fromPe_iff hr).mpr hnum
  found m hm i hi := h.found hm hi
  finished m hm := by
    obtain ⟨e, he, hcompleted⟩ := h.finished m hm
    rcases h.origin he with hroot | ⟨j, p, -, hj, hchild, hnum⟩
    · rw [hroot.completionPe] at hcompleted
      cases hcompleted
    · have hr : s.Received m.child e p := ⟨he, j, hchild.sender, hj⟩
      have hright := ((h.fromPe_iff hr).mpr hnum).completed
      rw [hcompleted] at hright
      exact ⟨e, p, hr, Option.some.inj hright⟩
  isLocal e he := by
    obtain ⟨i, hi⟩ := List.mem_iff_getElem?.mp he
    exact h.localExactly hi

/-- As long as only handles are sent of PEs that have one number in the world and in the team, all
ids are right. Of the handles that a PE receives, in any run, the ids are right only if the sender
is such a PE and the two numbers do not mix up the PE that has allocated the region. -/
theorem ids_exact (n : ℕ) :
    (∀ s, Reached n Ids.Numbered s → s.IdsRight) ∧
      ∀ s, Reached n (fun _ => True) s → ∀ i e p, s.Received i e p →
        (e.FromPe p.pe ↔ p.Numbered) ∧ (e.LocalExactly ↔ e.LocalNumbered) := by
  refine ⟨fun s hs => (Reach.inv hs).idsRight, fun s hs i e p hr => ?_⟩
  have h := Reach.inv hs
  exact ⟨h.fromPe_iff hr, h.localExactly_iff hr⟩

theorem State.receive_new {t : ℕ} (hmap : s.map m.dst m.myId = none)
    (hteam : m.team.teamPe m.dst = .ok t) :
    ∃ s', s.receive m = some s' ∧ s'.ids = s.ids ++ [m.ids (s.idCounter m.dst) t] := by
  simp only [State.receive, hmap, hteam]
  exact ⟨_, rfl, State.ids_insert⟩

theorem Reached.mono {ok' : Ids → Prop} (himp : ∀ e, ok e → ok' e) (hs : Reached n ok s) :
    Reached n ok' s := by
  refine Reach.mono (fun s act hact => ⟨hact.1, ?_⟩) hs
  cases act with
  | ser i dsts => exact fun hne x hx => himp _ (hact.2 hne x hx)
  | _ => trivial

/-- PE `q` allocates a region and sends its handle to PE `q'`. -/
theorem reached_sent {q q' t t' : ℕ} {team : LamellarArchRT}
    (hbuilt : LamellarArchRT.Built (.globalArch n) team) (hq : team.teamPe q = .ok t)
    (hq' : team.teamPe q' = .ok t') (hne : q ≠ q') (hok : ok (Ids.allocated q 0 team)) :
    ∃ s, Reached n ok s ∧
      s.Received 1 (((Ids.allocated q 0 team).net 0 q').ids 0 t') (Ids.allocated q 0 team) := by
  have hnew : Reached n ok (State.empty.new q team) :=
    .step (a := .new q team) (.init rfl) ⟨⟨hbuilt, t, hq⟩, trivial⟩ rfl
  obtain ⟨x, hx, hids, hser⟩ : ∃ x, (State.empty.new q team).entries[0]? = some x ∧
      x.toIds = Ids.allocated q 0 team ∧
        (State.empty.new q team).step (.ser 0 [q']) =
          some ((State.empty.new q team).ser 0 x [q']) :=
    ⟨_, rfl, rfl, if_pos ⟨Nat.one_pos, fun hmem => hne (List.mem_singleton.mp hmem)⟩⟩
  have hsent : Reached n ok ((State.empty.new q team).ser 0 x [q']) := by
    refine .step (a := .ser 0 [q']) hnew ⟨fun e he dst hdst => ?_, fun _ e he => ?_⟩ hser
    · rw [hx] at he
      cases he
      rw [List.mem_singleton.mp hdst, hids]
      exact ⟨t', hq'⟩
    · rw [hx] at he
      cases he
      rw [hids]
      exact hok
  have hmap : ((State.empty.new q team).ser 0 x [q']).map q' x.myId = none := by
    simp only [State.ser, State.setEntry, State.new, State.insert, State.setMap,
      Function.update_of_ne hne.symm]
    rfl
  have hteam : x.team.teamPe q' = .ok t' := by
    rw [hids]
    exact hq'
  have hcounter : ((State.empty.new q team).ser 0 x [q']).idCounter q' = 0 := by
    simp only [State.ser, State.setEntry, State.new, State.insert, Function.update_of_ne hne.symm]
    rfl
  obtain ⟨s, hreceive, hentries⟩ := State.receive_new
    (s := { (State.empty.new q team).ser 0 x [q'] with inFlight := [] }) (m := x.net 0 q')
    hmap hteam
  refine ⟨s, .step (a := .receive 0) hsent ⟨trivial, trivial⟩ hreceive, ?_, 0, rfl, ?_⟩
  · rw [hentries]
    change some ((x.net 0 q').ids (((State.empty.new q team).ser 0 x [q']).idCounter q') t') = _
    rw [hcounter, hids]
  · rw [hentries, ← hids]
    rfl

/-- PE 0 of two sends PE 1 a handle of the world team. -/
theorem ids_exact_world :
    ∃ (s : State) (e p : Ids), s.Received 1 e p ∧ s.IdsRight ∧ e.FromPe p.pe := by
  have hnum : (Ids.allocated 0 0 (.root (.globalArch 2))).Numbered := rfl
  obtain ⟨s, hs, hr⟩ := reached_sent (n := 2) .world rfl rfl Nat.zero_ne_one hnum
  obtain ⟨hright, hexact⟩ := ids_exact 2
  have hfrom := (hexact s (hs.mono fun _ _ => trivial) _ _ _ hr).1
  exact ⟨s, _, _, hr, hright s hs, hfrom.mpr hnum⟩

/-- PE 1 of three has the number 0 in the team of PEs 1 and 2, and PE 2 the number 1: the handle of
PE 2 gets the id of the one that it was made from, and returns nothing. -/
theorem ids_wrong : ¬ ∀ n s, Reached n (fun _ => True) s → s.IdsRight := by
  intro hall
  have hbuilt : LamellarArchRT.Built (.globalArch 3)
      (.sub (.root (.globalArch 3)) (BlockedArch.new 1 2)) := .new .world (.blocked 1 2) rfl
  obtain ⟨s, hs, hr⟩ := @reached_sent 3 (fun _ => True) 1 2 0 1 _ hbuilt rfl rfl (by decide) trivial
  have hcompleted := ((hall 3 s hs).received _ _ _ hr).completed
  cases hcompleted

end Lamellar.OneSided.Teams
