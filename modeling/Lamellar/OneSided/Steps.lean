import Lamellar.OneSided.Invariant
import Mathlib.Algebra.Order.BigOperators.Group.Multiset

/-!
# The steps keep the tree

A step changes one entry, makes one, or takes one out of the map (`Inv.set`, `Inv.insert`,
`Inv.release`). In each case it is enough to say what the step does to the counts of the entry
and to what it has outstanding.
-/

namespace Lamellar.OneSided

variable {P : ℕ} {s s' : State P} {i j : ℕ} {e x : MemRegionHandleInner P}

/-- The sum over the children after a step of the entry at `i`. -/
theorem State.overChildren_set (w : MemRegionHandleInner P → ℕ) (e' : MemRegionHandleInner P)
    (hi : s.entries[i]? = some e)
    (hids : e'.toIds = e.toIds) (id : ℕ × Fin P) :
    (s.setEntry i e').overChildren w id +
        (if e.parentId = id ∧ e.myId ≠ id then w e else 0) =
      s.overChildren w id + if e.parentId = id ∧ e.myId ≠ id then w e' else 0 := by
  have hset := Roster.sum_map_set (fun c : MemRegionHandleInner P =>
    if c.parentId = id ∧ c.myId ≠ id then w c else 0) e' hi
  rw [hids] at hset
  exact hset

theorem State.overChildren_set_of_eq {w : MemRegionHandleInner P → ℕ}
    (e' : MemRegionHandleInner P) (hi : s.entries[i]? = some e) (hids : e'.toIds = e.toIds)
    (hw : w e' = w e)
    (id : ℕ × Fin P) : (s.setEntry i e').overChildren w id = s.overChildren w id := by
  have h := State.overChildren_set w e' hi hids id
  rw [hw] at h
  exact Nat.add_right_cancel h

/-- A step of the entry at `i` that leaves the map as it is. -/
theorem Inv.set (h : Inv s) (e' : MemRegionHandleInner P) (hi : s.entries[i]? = some e)
    (hids : e'.toIds = e.toIds)
    (inFlight' : Multiset (NetMemRegionHandle P)) (finished' : Multiset (MemRegionFinishedAm P))
    (hinFlight : ∀ m ∈ inFlight', m ∈ s.inFlight ∨ m = e.net m.dst ∧ m.dst ≠ e.pe)
    (hfinished : ∀ m ∈ finished', m ∈ s.finished) (hok : e'.Ok (s.Live i e.toIds))
    (hconserved : ∀ {j x}, s.entries[j]? = some x →
      (if j = i then e'.remoteSent else x.remoteSent) =
        inFlight'.countP (fun m => m.myId = x.myId) +
          (s.setEntry i e').overChildren (fun c => c.receipts) x.myId +
          if s.Live j x.toIds then x.finishedTo finished' else 0) :
    Inv { s.setEntry i e' with inFlight := inFlight', finished := finished' } := by
  have hnew : ((s.setEntry i e').entries.map MemRegionHandleInner.toIds) = s.ids :=
    State.ids_set hi hids
  refine ⟨⟨?_, ?_, ?_, ?_⟩, ?_, ?_, ?_, ?_⟩
  · rw [State.ids, hnew]
    exact h.shape.id_lt
  · intro k l a b
    rw [State.ids, hnew]
    exact h.shape.id_inj
  · intro k a
    rw [State.ids, hnew]
    exact h.shape.origin
  · intro m hm
    rw [State.ids, hnew]
    rcases hinFlight m hm with hold | hnet
    · exact h.shape.message m hold
    · exact ⟨i, e.toIds, State.ids_eq_some hi, hnet⟩
  · intro p key k hk
    obtain ⟨a, ha, hpe, hkey⟩ := h.map_ok hk
    by_cases hik : i = k
    · subst hik
      rw [hi] at ha
      cases ha
      refine ⟨e', ?_, hids ▸ hpe, hids ▸ hkey⟩
      exact (List.getElem?_set_self' ..).trans (by rw [hi]; rfl)
    · exact ⟨a, (List.getElem?_set_ne hik).trans ha, hpe, hkey⟩
  · intro k a hk
    rcases State.getElem?_set hi hk with ⟨rfl, rfl⟩ | ⟨-, hold⟩
    · rw [hids]
      exact hok
    · exact h.ok hold
  · intro m hm
    exact h.finished m (hfinished m hm)
  · intro k a hk
    rcases State.getElem?_set hi hk with ⟨rfl, rfl⟩ | ⟨hne, hold⟩
    · have hcons := hconserved hi
      rw [if_pos rfl] at hcons
      rw [hids]
      exact hcons
    · have hcons := hconserved hold
      rw [if_neg hne] at hcons
      exact hcons

/-- A step of the entry at `i` that changes nothing that counts for others. -/
theorem Inv.set_counts (h : Inv s) (e' : MemRegionHandleInner P) (hi : s.entries[i]? = some e)
    (hids : e'.toIds = e.toIds)
    (hsent : e'.remoteSent = e.remoteSent) (hreceipts : e'.receipts = e.receipts)
    (hok : e'.Ok (s.Live i e.toIds)) : Inv (s.setEntry i e') := by
  refine h.set e' hi hids s.inFlight s.finished (fun m hm => Or.inl hm) (fun m hm => hm) hok ?_
  intro j x hj
  have hcons := h.conserved hj
  have hchildren := State.overChildren_set_of_eq (w := fun c => c.receipts) e' hi hids hreceipts
    x.myId
  have hx : (if j = i then e'.remoteSent else x.remoteSent) = x.remoteSent := by
    split
    · rename_i hji
      subst hji
      rw [hi] at hj
      cases hj
      exact hsent
    · rfl
  rw [hx, hcons, hchildren, State.outstanding]

theorem Inv.clone (h : Inv s) (hi : s.entries[i]? = some e) (hpos : 0 < e.handles) :
    Inv (s.clone i e) := by
  have hlive := h.live_of_handles hi hpos
  have hok := h.ok hi
  have href := hok.localRef_eq
  refine h.set_counts _ hi rfl rfl rfl ⟨?_, fun hdead => absurd hlive hdead, hok.child,
    hok.noWait⟩
  simp only
  omega

theorem Inv.des (h : Inv s) (hi : s.entries[i]? = some e) (hpos : 0 < e.opened) :
    Inv (s.des i e) := by
  have hok := h.ok hi
  have href := hok.localRef_eq
  have hlive := h.live_of_localRef hi (by omega)
  refine h.set_counts _ hi rfl rfl ?_ ⟨?_, fun hdead => absurd hlive hdead, fun _ _ => ?_,
    hok.noWait⟩
  all_goals simp only [MemRegionHandleInner.receipts]
  all_goals omega

/-! ## Messages -/

theorem countP_net (e : Ids P) (dsts : List (Fin P)) (id : ℕ × Fin P) :
    (dsts.map e.net : Multiset (NetMemRegionHandle P)).countP (fun m => m.myId = id) =
      if e.myId = id then dsts.length else 0 := by
  rw [Multiset.coe_countP, List.countP_map]
  split
  · rename_i hid
    exact List.countP_eq_length.mpr fun _ _ => decide_eq_true hid
  · rename_i hid
    exact List.countP_eq_zero.mpr fun _ _ => by simp [Ids.net, hid]

theorem Inv.ser (h : Inv s) (hi : s.entries[i]? = some e) (hpos : 0 < e.handles)
    {dsts : List (Fin P)} (hdsts : e.pe ∉ dsts) : Inv (s.ser i e dsts) := by
  have hlive := h.live_of_handles hi hpos
  have hok := h.ok hi
  refine h.set { e with remoteSent := e.remoteSent + dsts.length } hi rfl
    (s.inFlight + (dsts.map e.net : Multiset (NetMemRegionHandle P))) s.finished ?_
    (fun m hm => hm) ⟨hok.localRef_eq, fun hdead => absurd hlive hdead, hok.child,
    hok.noWait⟩ ?_
  · intro m hm
    rcases Multiset.mem_add.mp hm with hold | hnew
    · exact Or.inl hold
    · obtain ⟨d, hd, rfl⟩ := List.mem_map.mp (Multiset.mem_coe.mp hnew)
      exact Or.inr ⟨rfl, fun heq => hdsts (heq ▸ hd)⟩
  · intro j x hj
    have hcons := h.conserved hj
    rw [State.outstanding] at hcons
    rw [State.overChildren_set_of_eq (w := fun c => c.receipts)
      { e with remoteSent := e.remoteSent + dsts.length } hi rfl rfl, Multiset.countP_add,
      countP_net]
    by_cases hji : j = i
    · subst hji
      rw [hi] at hj
      cases hj
      simp only [if_true]
      omega
    · have hid : e.myId ≠ x.myId := fun hid => hji (h.myId_inj hi hj hid).symm
      simp only [if_neg hji, if_neg hid]
      omega

/-- The entry that a message finds is a child of its sender. -/
theorem Inv.found (h : Inv s) {m : NetMemRegionHandle P} (hm : m ∈ s.inFlight)
    (hmap : s.map m.dst m.myId = some i) (hi : s.entries[i]? = some e) :
    e.pe = m.dst ∧ e.parentId = m.myId ∧ e.myId ≠ m.myId := by
  obtain ⟨a, ha, hpe, hkey⟩ := h.map_ok hmap
  rw [hi] at ha
  cases ha
  refine ⟨hpe, hkey, ?_⟩
  intro hid
  obtain ⟨j, a, hj, hnet, hdst⟩ := h.shape.message m hm
  have hmyId : m.myId = a.myId := congrArg NetMemRegionHandle.myId hnet
  refine hdst ?_
  rw [← hpe]
  exact congrArg Prod.snd (hid.trans hmyId)

theorem countP_erase {m : NetMemRegionHandle P} (hm : m ∈ s.inFlight) (id : ℕ × Fin P) :
    s.inFlight.countP (fun m => m.myId = id) =
      (s.inFlight.erase m).countP (fun m => m.myId = id) + if m.myId = id then 1 else 0 := by
  conv_lhs => rw [← Multiset.cons_erase hm]
  exact Multiset.countP_cons ..

theorem Inv.receive_old (h : Inv s) {m : NetMemRegionHandle P} (hm : m ∈ s.inFlight)
    (hmap : s.map m.dst m.myId = some i) (hi : s.entries[i]? = some e) :
    Inv { s.setEntry i { e with localRef := e.localRef + 1, opened := e.opened + 1 } with
      inFlight := s.inFlight.erase m } := by
  obtain ⟨hpe, hkey, hne⟩ := h.found hm hmap hi
  have hlive : s.Live i e.toIds := by
    rw [State.Live, hpe, hkey]
    exact hmap
  have hok := h.ok hi
  have href := hok.localRef_eq
  refine h.set { e with localRef := e.localRef + 1, opened := e.opened + 1 } hi rfl
    (s.inFlight.erase m) s.finished (fun k hk => Or.inl (Multiset.mem_of_mem_erase hk))
    (fun k hk => hk) ⟨?_, fun hdead => absurd hlive hdead, fun _ _ => ?_,
    hok.noWait⟩ ?_
  · simp only
    omega
  · simp only
    omega
  · intro j x hj
    have hcons := h.conserved hj
    have hchildren := State.overChildren_set (fun c => c.receipts)
      { e with localRef := e.localRef + 1, opened := e.opened + 1 } hi rfl x.myId
    have hcount := countP_erase hm x.myId
    have hsame : (if j = i then e.remoteSent else x.remoteSent) = x.remoteSent := by
      split
      · rename_i hji
        subst hji
        rw [hi] at hj
        cases hj
        rfl
      · rfl
    rw [State.outstanding] at hcons
    rw [hkey] at hchildren
    rw [hsame]
    by_cases hid : m.myId = x.myId
    · rw [if_pos ⟨hid, hid ▸ hne⟩, if_pos ⟨hid, hid ▸ hne⟩] at hchildren
      rw [if_pos hid] at hcount
      simp only [MemRegionHandleInner.receipts] at hchildren hcons ⊢
      omega
    · rw [if_neg fun h => hid h.1, if_neg fun h => hid h.1] at hchildren
      rw [if_neg hid] at hcount
      omega

/-! ## New entries -/

/-- The next id of a PE occurs nowhere yet. -/
theorem Inv.fresh (h : Inv s) (p : Fin P) : (∀ e ∈ s.entries, e.myId ≠ (s.idCounter p, p)) ∧
    (∀ e ∈ s.entries, e.parentId ≠ (s.idCounter p, p)) ∧
      ∀ m ∈ s.inFlight, m.myId ≠ (s.idCounter p, p) := by
  have hmyId : ∀ e ∈ s.entries, e.myId ≠ (s.idCounter p, p) := by
    intro e he heq
    have hlt := h.shape.id_lt e.toIds (List.mem_map_of_mem he)
    rw [heq] at hlt
    exact Nat.lt_irrefl _ hlt
  refine ⟨hmyId, ?_, ?_⟩
  · intro e he heq
    obtain ⟨i, hi⟩ := List.mem_iff_getElem?.mp he
    by_cases hroot : e.myId = e.parentId
    · exact hmyId e he (hroot.trans heq)
    · obtain ⟨j, a, -, hj, hchild, -⟩ := h.parent hi hroot
      exact hmyId a (List.mem_of_getElem? hj) (hchild.1.symm.trans heq)
  · intro m hm heq
    obtain ⟨j, a, hj, hnet, -⟩ := h.shape.message m hm
    obtain ⟨b, hb, rfl⟩ := State.of_ids_eq_some hj
    have hb' : m.myId = b.myId := congrArg NetMemRegionHandle.myId hnet
    exact hmyId b (List.mem_of_getElem? hb) (hb'.symm.trans heq)

theorem Ids.finishedTo_eq_zero {a : Ids P} {finished : Multiset (MemRegionFinishedAm P)}
    (h : ∀ m ∈ finished, ¬ (m.dst = a.pe ∧ m.parentId = a.parentId)) :
    a.finishedTo finished = 0 := by
  refine Multiset.sum_eq_zero fun n hn => ?_
  obtain ⟨m, hm, rfl⟩ := Multiset.mem_map.mp hn
  exact if_neg (h m hm)

/-- A new entry on PE `p`, whose messages so far are `inFlight'`. -/
theorem Inv.insert (h : Inv s) {p : Fin P} {key : ℕ × Fin P} (hmap : s.map p key = none)
    (hmyId : e.myId = (s.idCounter p, p)) (hkey : e.parentId = key)
    (horigin : e.IsRoot ∨
      ∃ (j : ℕ) (a : MemRegionHandleInner P), s.entries[j]? = some a ∧ e.IsChildOf a.toIds)
    (hok : e.Ok True) (hsent : e.remoteSent = 0) (inFlight' : Multiset (NetMemRegionHandle P))
    (hinFlight : ∀ m ∈ inFlight', m ∈ s.inFlight)
    (hconserved : ∀ {j x}, s.entries[j]? = some x →
      x.remoteSent = inFlight'.countP (fun m => m.myId = x.myId) +
        (s.overChildren (fun c => c.receipts) x.myId +
          if e.parentId = x.myId then e.receipts else 0) +
          if s.Live j x.toIds then x.finishedTo s.finished else 0) :
    Inv { s.insert p key e with inFlight := inFlight' } := by
  obtain ⟨hfresh, hparent, hmessage⟩ := h.fresh p
  have hpe : e.pe = p := congrArg Prod.snd hmyId
  have hids : (s.insert p key e).ids = s.ids ++ [e.toIds] := by
    simp [State.insert, State.ids]
  have hlen : s.ids.length = s.entries.length := List.length_map ..
  have hmap_self : (s.insert p key e).map p key = some s.entries.length := by
    simp [State.insert, State.setMap]
  have hmap_ne : ∀ q k, (q, k) ≠ (p, key) → (s.insert p key e).map q k = s.map q k := by
    intro q k hne
    simp only [State.insert, State.setMap]
    by_cases hq : q = p
    · subst hq
      have hk : k ≠ key := fun hk => hne (by rw [hk])
      simp [hk]
    · simp [hq]
  -- no other entry becomes live
  have hlive : ∀ {j x}, s.entries[j]? = some x →
      ((s.insert p key e).Live j x.toIds ↔ s.Live j x.toIds) := by
    intro j x hj
    unfold State.Live
    by_cases hx : (x.pe, x.parentId) = (p, key)
    · have hx1 : x.pe = p := congrArg Prod.fst hx
      have hx2 : x.parentId = key := congrArg Prod.snd hx
      have hlt := (List.getElem?_eq_some_iff.mp hj).1
      rw [hx1, hx2, hmap_self, hmap]
      simp only [Option.some.injEq, reduceCtorEq, iff_false]
      omega
    · rw [hmap_ne _ _ hx]
  have hmem : e ∈ s.entries ++ [e] := List.mem_append_right _ (List.mem_singleton_self e)
  refine ⟨⟨?_, ?_, ?_, ?_⟩, ?_, ?_, ?_, ?_⟩
  · intro a ha
    have ha' : a ∈ (s.insert p key e).ids := ha
    rw [hids] at ha'
    simp only [State.insert, Function.update_apply]
    rcases List.mem_append.mp ha' with hold | hnew
    · have hlt := h.shape.id_lt a hold
      split
      · rename_i heq
        rw [heq] at hlt
        omega
      · exact hlt
    · rw [List.mem_singleton.mp hnew, hmyId]
      simp
  · intro k l a b hk hl hid
    have hk' : (s.insert p key e).ids[k]? = some a := hk
    have hl' : (s.insert p key e).ids[l]? = some b := hl
    rw [hids] at hk' hl'
    rcases Roster.append_new hk' with hk | ⟨rfl, rfl⟩ <;>
      rcases Roster.append_new hl' with hl | ⟨rfl, rfl⟩
    · exact h.shape.id_inj hk hl hid
    · obtain ⟨c, hc, rfl⟩ := State.of_ids_eq_some hk
      exact absurd (hid.trans hmyId) (hfresh c (List.mem_of_getElem? hc))
    · obtain ⟨c, hc, rfl⟩ := State.of_ids_eq_some hl
      exact absurd (hid.symm.trans hmyId) (hfresh c (List.mem_of_getElem? hc))
    · rfl
  · intro k a hk
    have hk' : (s.insert p key e).ids[k]? = some a := hk
    change _ ∨ ∃ j b, j < k ∧ (s.insert p key e).ids[j]? = some b ∧ _
    rw [hids] at hk' ⊢
    rcases Roster.append_new hk' with hold | ⟨rfl, rfl⟩
    · rcases h.shape.origin hold with hroot | ⟨j, b, hlt, hj, hchild⟩
      · exact Or.inl hroot
      · exact Or.inr ⟨j, b, hlt, Roster.append_old hj, hchild⟩
    · rcases horigin with hroot | ⟨j, b, hj, hchild⟩
      · exact Or.inl hroot
      · have hlt := (List.getElem?_eq_some_iff.mp hj).1
        exact Or.inr ⟨j, b.toIds, by omega, Roster.append_old (State.ids_eq_some hj), hchild⟩
  · intro m hm
    change ∃ i b, (s.insert p key e).ids[i]? = some b ∧ _
    rw [hids]
    obtain ⟨j, b, hj, hnet⟩ := h.shape.message m (hinFlight m hm)
    exact ⟨j, b, Roster.append_old hj, hnet⟩
  · intro q k i hi
    have hi' : (s.insert p key e).map q k = some i := hi
    change ∃ a, (s.entries ++ [e])[i]? = some a ∧ _
    by_cases hqk : (q, k) = (p, key)
    · cases hqk
      rw [hmap_self] at hi'
      cases hi'
      exact ⟨e, by simp, hpe, hkey⟩
    · rw [hmap_ne q k hqk] at hi'
      obtain ⟨a, ha, hspec⟩ := h.map_ok hi'
      exact ⟨a, Roster.append_old ha, hspec⟩
  · intro j x hj
    have hj' : (s.entries ++ [e])[j]? = some x := hj
    change x.Ok ((s.insert p key e).Live j x.toIds)
    rcases Roster.append_new hj' with hold | ⟨rfl, rfl⟩
    · rw [propext (hlive hold)]
      exact h.ok hold
    · have hself : (s.insert p key x).Live s.entries.length x.toIds := by
        rw [State.Live, hpe, hkey]
        exact hmap_self
      rw [propext (iff_true_intro hself)]
      exact hok
  · intro m hm
    obtain ⟨hcnt, i, hi⟩ := h.finished m hm
    refine ⟨hcnt, i, ?_⟩
    change (s.insert p key e).map m.dst m.parentId = some i
    rw [hmap_ne, hi]
    intro heq
    cases heq
    rw [hmap] at hi
    cases hi
  · intro j x hj
    have hj' : (s.entries ++ [e])[j]? = some x := hj
    have hchildren : ∀ id : ℕ × Fin P, (s.insert p key e).overChildren (fun c => c.receipts) id =
        s.overChildren (fun c => c.receipts) id +
          if e.parentId = id ∧ e.myId ≠ id then e.receipts else 0 := by
      intro id
      simp [State.insert, State.overChildren]
    change x.remoteSent = inFlight'.countP (fun m => m.myId = x.myId) +
      (s.insert p key e).overChildren (fun c => c.receipts) x.myId +
        if (s.insert p key e).Live j x.toIds then x.finishedTo s.finished else 0
    rw [hchildren]
    rcases Roster.append_new hj' with hold | ⟨rfl, rfl⟩
    · have hne : e.myId ≠ x.myId :=
        fun hid => hfresh x (List.mem_of_getElem? hold) (hid.symm.trans hmyId)
      have hcons := hconserved hold
      simp only [hlive hold, hne, ne_eq, not_false_eq_true, and_true]
      exact hcons
    · have hcount : inFlight'.countP (fun m => m.myId = x.myId) = 0 :=
        Multiset.countP_eq_zero.mpr fun m hm hid =>
          hmessage m (hinFlight m hm) (hid.trans hmyId)
      have hzero : s.overChildren (fun c => c.receipts) x.myId = 0 := by
        refine List.sum_eq_zero fun n hn => ?_
        obtain ⟨c, hc, rfl⟩ := List.mem_map.mp hn
        exact if_neg fun hc' => hparent c hc (hc'.1.trans hmyId)
      have hfin : x.finishedTo s.finished = 0 := by
        refine Ids.finishedTo_eq_zero fun m hm hto => ?_
        obtain ⟨-, i, hi⟩ := h.finished m hm
        rw [hto.1, hto.2, hpe, hkey, hmap] at hi
        cases hi
      rw [hsent, hcount, hzero, hfin]
      simp

theorem Inv.new (h : Inv s) (p : Fin P) : Inv (s.new p) := by
  obtain ⟨hfresh, hparent, -⟩ := h.fresh p
  have hmap : s.map p (s.idCounter p, p) = none := by
    cases hcase : s.map p (s.idCounter p, p) with
    | none => rfl
    | some i =>
      obtain ⟨a, ha, -, hkey⟩ := h.map_ok hcase
      exact absurd hkey (hparent a (List.mem_of_getElem? ha))
  refine h.insert hmap rfl rfl (Or.inl ⟨rfl, rfl⟩)
    ⟨rfl, fun hdead => absurd trivial hdead, fun _ hne => absurd rfl hne,
      fun _ => rfl⟩ rfl s.inFlight
    (fun m hm => hm) ?_
  intro j x hj
  have hne : (s.idCounter p, p) ≠ x.myId := fun heq => hfresh x (List.mem_of_getElem? hj) heq.symm
  rw [if_neg hne, Nat.add_zero]
  exact h.conserved hj

theorem Inv.receive_new (h : Inv s) {m : NetMemRegionHandle P} (hm : m ∈ s.inFlight)
    (hmap : s.map m.dst m.myId = none) (hstep : s.receive m = some s') : Inv s' := by
  simp only [State.receive, hmap, Option.some.injEq] at hstep
  subst hstep
  obtain ⟨j, a, hj, hnet, hdst⟩ := h.shape.message m hm
  obtain ⟨b, hb, rfl⟩ := State.of_ids_eq_some hj
  refine h.insert hmap rfl rfl (Or.inr ⟨j, b, hb, ?_⟩)
    ⟨rfl, fun hdead => absurd trivial hdead, fun _ _ => by simp, fun _ => rfl⟩ rfl
    (s.inFlight.erase m)
    (fun k hk => Multiset.mem_of_mem_erase hk) ?_
  · exact ⟨congrArg NetMemRegionHandle.myId hnet, congrArg NetMemRegionHandle.parentId hnet,
      congrArg NetMemRegionHandle.region hnet⟩
  · intro k x hk
    have hcons := h.conserved hk
    have hcount := countP_erase hm x.myId
    rw [State.outstanding] at hcons
    simp only [MemRegionHandleInner.receipts] at hcons ⊢
    split
    · rename_i hid
      rw [if_pos hid] at hcount
      omega
    · rename_i hid
      rw [if_neg hid] at hcount
      omega

/-! ## Returning what was received -/

theorem Ids.not_to_of_finishedTo {a : Ids P} {finished : Multiset (MemRegionFinishedAm P)}
    (hzero : a.finishedTo finished = 0) {m : MemRegionFinishedAm P} (hm : m ∈ finished)
    (hcnt : 0 < m.cnt) : ¬ (m.dst = a.pe ∧ m.parentId = a.parentId) := by
  intro hto
  have hmem : (if m.dst = a.pe ∧ m.parentId = a.parentId then m.cnt else 0) ∈ finished.map fun m =>
      if m.dst = a.pe ∧ m.parentId = a.parentId then m.cnt else 0 :=
    Multiset.mem_map_of_mem _ hm
  have hle := Multiset.le_sum_of_mem hmem
  rw [if_pos hto] at hle
  rw [Ids.finishedTo] at hzero
  omega

theorem Ids.finishedTo_cons (a : Ids P) (m : MemRegionFinishedAm P)
    (finished : Multiset (MemRegionFinishedAm P)) : a.finishedTo (m ::ₘ finished) =
      (if m.dst = a.pe ∧ m.parentId = a.parentId then m.cnt else 0) + a.finishedTo finished := by
  rw [Ids.finishedTo, Multiset.map_cons, Multiset.sum_cons]
  rfl

/-- Two live entries with the same key on the same PE are one. -/
theorem State.Live.unique {a b : Ids P} (ha : s.Live i a) (hb : s.Live j b) (hpe : a.pe = b.pe)
    (hkey : a.parentId = b.parentId) : i = j := by
  rw [State.Live] at ha hb
  rw [hpe, hkey, hb] at ha
  cases ha
  rfl

theorem Inv.finish (h : Inv s) {m : MemRegionFinishedAm P} (hm : m ∈ s.finished) :
    Inv (s.finish m) := by
  obtain ⟨hcnt, i, hmap⟩ := h.finished m hm
  obtain ⟨e, hi, hpe, hkey⟩ := h.map_ok hmap
  have hlive : s.Live i e.toIds := by
    rw [State.Live, hpe, hkey]
    exact hmap
  have hok := h.ok hi
  have herase : ∀ a : Ids P, a.finishedTo s.finished =
      (if m.dst = a.pe ∧ m.parentId = a.parentId then m.cnt else 0) +
        a.finishedTo (s.finished.erase m) := by
    intro a
    rw [← Ids.finishedTo_cons, Multiset.cons_erase hm]
  have hset : s.finish m = { s.setEntry i { e with remoteSent := e.remoteSent - m.cnt } with
      finished := s.finished.erase m } := by
    simp only [State.finish, hmap, Roster.modify_eq_set hi]
    rfl
  rw [hset]
  refine h.set { e with remoteSent := e.remoteSent - m.cnt } hi rfl s.inFlight
    (s.finished.erase m) (fun k hk => Or.inl hk) (fun k hk => Multiset.mem_of_mem_erase hk)
    ⟨hok.localRef_eq, fun hdead => absurd hlive hdead, hok.child,
    hok.noWait⟩ ?_
  intro j x hj
  have hcons := h.conserved hj
  rw [State.outstanding] at hcons
  rw [State.overChildren_set_of_eq (w := fun c => c.receipts)
    { e with remoteSent := e.remoteSent - m.cnt } hi rfl rfl]
  have hx := herase x.toIds
  by_cases hji : j = i
  · subst hji
    rw [hi] at hj
    cases hj
    rw [if_pos ⟨hpe.symm, hkey.symm⟩] at hx
    simp only [hlive, if_true] at hcons ⊢
    omega
  · simp only [if_neg hji]
    split
    · rename_i hxlive
      rw [if_pos hxlive] at hcons
      rw [if_neg fun hto => hji (hxlive.unique hlive (hto.1.symm.trans hpe.symm)
        (hto.2.symm.trans hkey.symm))] at hx
      omega
    · rename_i hdead
      rw [if_neg hdead] at hcons
      exact hcons

/-- The entry at `i`, which has nothing left to count, leaves the map. -/
theorem Inv.remove (h : Inv s) (e' : MemRegionHandleInner P) (hi : s.entries[i]? = some e)
    (hlive : s.Live i e.toIds)
    (hsent : e.remoteSent = 0) (hids : e'.toIds = e.toIds) (hok : e'.Ok False)
    (finished' : Multiset (MemRegionFinishedAm P))
    (hfinished : ∀ m ∈ finished', m ∈ s.finished ∨
      0 < m.cnt ∧ ∃ j, j ≠ i ∧ s.map m.dst m.parentId = some j)
    (hconserved : ∀ {j x}, s.entries[j]? = some x → j ≠ i →
      (s.setEntry i e').overChildren (fun c => c.receipts) x.myId +
          (if s.Live j x.toIds then x.finishedTo finished' else 0) =
        s.overChildren (fun c => c.receipts) x.myId +
          if s.Live j x.toIds then x.finishedTo s.finished else 0) :
    Inv { (s.setMap e.pe e.parentId none).setEntry i e' with finished := finished' } := by
  have hcons := h.conserved hi
  rw [State.outstanding, if_pos hlive, hsent] at hcons
  have hmap_ne : ∀ q k, (q, k) ≠ (e.pe, e.parentId) →
      (s.setMap e.pe e.parentId none).map q k = s.map q k := by
    intro q k hne
    simp only [State.setMap]
    by_cases hq : q = e.pe
    · subst hq
      have hk : k ≠ e.parentId := fun hk => hne (by rw [hk])
      simp [hk]
    · simp [hq]
  have hmap_self : (s.setMap e.pe e.parentId none).map e.pe e.parentId = none := by
    simp [State.setMap]
  -- the others stay live
  have hlive_ne : ∀ {j x}, s.entries[j]? = some x → j ≠ i →
      ((s.setMap e.pe e.parentId none).Live j x.toIds ↔ s.Live j x.toIds) := by
    intro j x hj hji
    unfold State.Live at hlive ⊢
    by_cases hx : (x.pe, x.parentId) = (e.pe, e.parentId)
    · have hx1 : x.pe = e.pe := congrArg Prod.fst hx
      have hx2 : x.parentId = e.parentId := congrArg Prod.snd hx
      rw [hx1, hx2, hmap_self, hlive]
      simp only [reduceCtorEq, Option.some.injEq, false_iff]
      exact fun heq => hji heq.symm
    · rw [hmap_ne _ _ hx]
  have hdead : ¬ (s.setMap e.pe e.parentId none).Live i e'.toIds := by
    rw [hids, State.Live, hmap_self]
    simp
  have hnew : ((s.setEntry i e').entries.map MemRegionHandleInner.toIds) = s.ids :=
    State.ids_set hi hids
  have hkeep : ∀ {q k j}, j ≠ i → s.map q k = some j →
      (s.setMap e.pe e.parentId none).map q k = some j := by
    intro q k j hji hj
    rw [hmap_ne, hj]
    rintro ⟨⟩
    rw [State.Live] at hlive
    rw [hj] at hlive
    cases hlive
    exact hji rfl
  refine ⟨⟨?_, ?_, ?_, ?_⟩, ?_, ?_, ?_, ?_⟩
  · change ∀ a ∈ (s.setEntry i e').entries.map MemRegionHandleInner.toIds, _
    rw [hnew]
    exact h.shape.id_lt
  · intro k l a b
    change ((s.setEntry i e').entries.map MemRegionHandleInner.toIds)[k]? = _ →
      ((s.setEntry i e').entries.map MemRegionHandleInner.toIds)[l]? = _ → _
    rw [hnew]
    exact h.shape.id_inj
  · intro k a
    change ((s.setEntry i e').entries.map MemRegionHandleInner.toIds)[k]? = _ → _ ∨ ∃ j p, _ ∧
      ((s.setEntry i e').entries.map MemRegionHandleInner.toIds)[j]? = _ ∧ _
    rw [hnew]
    exact h.shape.origin
  · intro m hm
    change ∃ k a, ((s.setEntry i e').entries.map MemRegionHandleInner.toIds)[k]? = _ ∧ _
    rw [hnew]
    exact h.shape.message m hm
  · intro q k j hj
    have hj' : (s.setMap e.pe e.parentId none).map q k = some j := hj
    change ∃ a, (s.entries.set i e')[j]? = some a ∧ _
    by_cases hqk : (q, k) = (e.pe, e.parentId)
    · cases hqk
      rw [hmap_self] at hj'
      cases hj'
    · rw [hmap_ne q k hqk] at hj'
      obtain ⟨a, ha, hpe, hkey⟩ := h.map_ok hj'
      refine ⟨a, (List.getElem?_set_ne ?_).trans ha, hpe, hkey⟩
      rintro rfl
      rw [hi] at ha
      cases ha
      exact hqk (by rw [hpe, hkey])
  · intro j x hj
    change x.Ok ((s.setMap e.pe e.parentId none).Live j x.toIds)
    rcases State.getElem?_set hi hj with ⟨rfl, rfl⟩ | ⟨hji, hold⟩
    · rw [propext (iff_false_intro hdead)]
      exact hok
    · rw [propext (hlive_ne hold hji)]
      exact h.ok hold
  · intro m hm
    change 0 < m.cnt ∧ ∃ j, (s.setMap e.pe e.parentId none).map m.dst m.parentId = some j
    rcases hfinished m hm with hold | ⟨hcnt, j, hji, hj⟩
    · obtain ⟨hcnt, j, hj⟩ := h.finished m hold
      refine ⟨hcnt, j, hkeep ?_ hj⟩
      rintro rfl
      obtain ⟨a, ha, hpe, hkey⟩ := h.map_ok hj
      rw [hi] at ha
      cases ha
      exact Ids.not_to_of_finishedTo (by omega) hold hcnt ⟨hpe.symm, hkey.symm⟩
    · exact ⟨hcnt, j, hkeep hji hj⟩
  · intro j x hj
    change x.remoteSent = s.inFlight.countP (fun m => m.myId = x.myId) +
      (s.setEntry i e').overChildren (fun c => c.receipts) x.myId +
        if (s.setMap e.pe e.parentId none).Live j x.toIds then x.finishedTo finished' else 0
    rcases State.getElem?_set hi hj with ⟨rfl, rfl⟩ | ⟨hji, hold⟩
    · have hchildren := State.overChildren_set (fun c => c.receipts) x hi hids e.myId
      rw [if_neg fun h => h.2 rfl, if_neg fun h => h.2 rfl] at hchildren
      rw [if_neg hdead, (hok.dead not_false).2.1, hids]
      omega
    · have hx := h.conserved hold
      have hch := hconserved hold hji
      rw [State.outstanding] at hx
      simp only [hlive_ne hold hji]
      omega

/-- `release`, called with the entry `e'` that the caller has made of the one at `i`. -/
theorem Inv.release (h : Inv s) (e' : MemRegionHandleInner P) (hi : s.entries[i]? = some e)
    (hlive : s.Live i e.toIds)
    (hsent : e.remoteSent = 0) (hopened : e.opened = 0) (hids : e'.toIds = e.toIds)
    (hcounts : e'.localRef = 0 ∧ e'.handles = 0 ∧ e'.opened = 0 ∧ e'.wait = none)
    (hremote : e'.remoteSent = 0 ∧ e'.remoteRecv = e.remoteRecv) : Inv (s.release i e') := by
  obtain ⟨href, hhandles, hopened', hwait⟩ := hcounts
  obtain ⟨hsent', hrecv⟩ := hremote
  have hmyId : e'.myId = e.myId := congrArg Ids.myId hids
  have hparentId : e'.parentId = e.parentId := congrArg Ids.parentId hids
  have hgrand : e'.grandParentId = e.grandParentId := congrArg Ids.grandParentId hids
  have hpe : e'.pe = e.pe := congrArg Ids.pe hids
  unfold State.release
  simp only [hpe, hparentId, hmyId, hgrand, hrecv]
  by_cases hroot : e.myId = e.parentId
  · rw [if_neg (not_not.mpr hroot)]
    refine h.remove e' hi hlive hsent hids ⟨by omega, fun _ => ⟨href, hsent', hwait⟩, by simp,
      fun _ => hwait⟩
      s.finished (fun m hm => Or.inl hm) ?_
    intro j x hj hji
    rw [State.overChildren_set_of_eq e' hi hids
      (by simp only [MemRegionHandleInner.receipts, hopened, hopened', hrecv])]
  · rw [if_pos hroot]
    obtain ⟨j₀, p, hlt, hj₀, hchild, hne⟩ := h.parent hi hroot
    have hpos := (h.ok hi).child hlive hroot
    have hrecvPos : 0 < e.remoteRecv := by omega
    have hplive := h.live_of_child hi hj₀ hchild hne (by
      rw [MemRegionHandleInner.receipts]
      omega)
    have hpPe : p.pe = e.parentId.2 := congrArg Prod.snd hchild.1.symm
    rw [if_pos hrecvPos]
    refine h.remove { e' with remoteRecv := 0 } hi hlive hsent hids
      ⟨?_, fun _ => ⟨href, hsent', hwait⟩, by simp,
      fun _ => hwait⟩ _ ?_ ?_
    · simp only
      omega
    · intro m hm
      rcases Multiset.mem_cons.mp hm with rfl | hold
      · refine Or.inr ⟨hrecvPos, j₀, by omega, ?_⟩
        rw [State.Live, hpPe, ← hchild.2.1] at hplive
        exact hplive
      · exact Or.inl hold
    · intro j x hj hji
      have hset := State.overChildren_set (fun c => c.receipts) { e' with remoteRecv := 0 } hi
        hids x.myId
      have hreceipts : MemRegionHandleInner.receipts { e' with remoteRecv := 0 } = 0 := by
        simp only [MemRegionHandleInner.receipts, hopened', Nat.add_zero]
      have hreceipts' : e.receipts = e.remoteRecv := by
        rw [MemRegionHandleInner.receipts, hopened, Nat.zero_add]
      rw [hreceipts, hreceipts'] at hset
      rw [Ids.finishedTo_cons]
      by_cases hjp : j = j₀
      · subst hjp
        rw [hj₀] at hj
        cases hj
        rw [if_pos ⟨hchild.1, hne⟩, if_pos ⟨hchild.1, hne⟩] at hset
        simp only [hplive, if_true, if_pos (And.intro hpPe.symm hchild.2.1)]
        omega
      · have hid : ¬ (e.parentId = x.myId ∧ e.myId ≠ x.myId) := fun hx =>
          hjp (h.myId_inj hj hj₀ (hx.1.symm.trans hchild.1))
        rw [if_neg hid, if_neg hid] at hset
        split
        · rename_i hxlive
          rw [if_neg fun hto => hjp (hxlive.unique hplive (hto.1.symm.trans hpPe.symm)
            (hto.2.symm.trans hchild.2.1))]
          omega
        · exact congrArg (· + 0) hset

theorem Inv.drop (h : Inv s) (hi : s.entries[i]? = some e) (hpos : 0 < e.handles) :
    Inv (s.drop i e) := by
  have hok := h.ok hi
  have href := hok.localRef_eq
  have hlive := h.live_of_handles hi hpos
  unfold State.drop
  simp only
  split
  · rename_i hlast
    split
    · rename_i hsent
      have hwait := hok.noWait hlast.2
      exact h.release
        { e with localRef := e.localRef - 1, handles := e.handles - 1, localDropped := true }
        hi hlive hsent (by omega) rfl ⟨by simp only; omega, by simp only; omega,
          by simp only; omega, hwait⟩ ⟨hsent, rfl⟩
    · refine h.set_counts
        { e with
          localRef := e.localRef - 1, handles := e.handles - 1, localDropped := true
          wait := some .sent }
        hi rfl rfl rfl ⟨?_, fun hdead => absurd hlive hdead, hok.child, by simp⟩
      simp only
      omega
  · refine h.set_counts
      { e with localRef := e.localRef - 1, handles := e.handles - 1 }
      hi rfl rfl rfl ⟨?_, fun hdead => absurd hlive hdead, hok.child, hok.noWait⟩
    simp only
    omega

/-- A `MemRegionDropWaitAm` stands only at a live entry. -/
theorem Inv.waitStep (h : Inv s) (hi : s.entries[i]? = some e)
    (hstep : s.waitStep i e = some s') : Inv s' := by
  have hok := h.ok hi
  have hdropped : ∀ pc, e.wait = some pc → s.Live i e.toIds ∧ e.localDropped = true := by
    intro pc hpc
    refine ⟨?_, ?_⟩
    · by_contra hdead
      have hnone := (hok.dead hdead).2.2
      rw [hpc] at hnone
      cases hnone
    · by_contra hfalse
      have hnone := hok.noWait (Bool.eq_false_iff.mpr hfalse)
      rw [hpc] at hnone
      cases hnone
  have hmove : ∀ pc pc', e.wait = some pc →
      Inv (s.setEntry i { e with wait := some pc' }) := by
    intro pc pc' hpc
    obtain ⟨hlive, htrue⟩ := hdropped pc hpc
    exact h.set_counts _ hi rfl rfl rfl ⟨hok.localRef_eq, fun hdead => absurd hlive hdead,
      hok.child, fun hfalse => by simp [htrue] at hfalse⟩
  unfold State.waitStep at hstep
  cases hwait : e.wait with
  | none =>
    rw [hwait] at hstep
    cases hstep
  | some pc =>
    rw [hwait] at hstep
    cases pc with
    | sent =>
      cases hstep
      exact hmove _ _ hwait
    | ref =>
      cases hstep
      exact hmove _ _ hwait
    | lock =>
      simp only at hstep
      split at hstep
      · rename_i hzero
        cases hstep
        have href := hok.localRef_eq
        exact h.release { e with wait := none } hi (hdropped _ hwait).1 hzero.1 (by omega)
          rfl ⟨hzero.2, by simp only; omega, by simp only; omega, rfl⟩ ⟨hzero.1, rfl⟩
      · cases hstep
        exact hmove _ _ hwait

/-! ## Runs -/

theorem Inv.empty : Inv (State.empty : State P) := by
  refine ⟨⟨?_, ?_, ?_, ?_⟩, ?_, ?_, ?_, ?_⟩ <;> simp [State.empty, State.ids]

theorem Inv.receive (h : Inv s) {m : NetMemRegionHandle P} (hm : m ∈ s.inFlight)
    (hstep : s.receive m = some s') : Inv s' := by
  cases hmap : s.map m.dst m.myId with
  | none => exact h.receive_new hm hmap hstep
  | some i =>
    simp only [State.receive, hmap] at hstep
    split at hstep
    · rename_i e hi
      cases hstep
      exact h.receive_old hm hmap hi
    · cases hstep

theorem Inv.step (h : Inv s) {a : Action P} (hstep : s.step a = some s') : Inv s' := by
  cases a with
  | new p =>
    cases hstep
    exact h.new p
  | clone i =>
    simp only [State.step] at hstep
    split at hstep
    · rename_i e hi
      split at hstep
      · cases hstep
        exact h.clone hi ‹_›
      · cases hstep
    · cases hstep
  | ser i dsts =>
    simp only [State.step] at hstep
    split at hstep
    · rename_i e hi
      split at hstep
      · rename_i hguard
        cases hstep
        exact h.ser hi hguard.1 hguard.2
      · cases hstep
    · cases hstep
  | receive m =>
    simp only [State.step] at hstep
    split at hstep
    · exact h.receive ‹_› hstep
    · cases hstep
  | des i =>
    simp only [State.step] at hstep
    split at hstep
    · rename_i e hi
      split at hstep
      · cases hstep
        exact h.des hi ‹_›
      · cases hstep
    · cases hstep
  | drop i =>
    simp only [State.step] at hstep
    split at hstep
    · rename_i e hi
      split at hstep
      · cases hstep
        exact h.drop hi ‹_›
      · cases hstep
    · cases hstep
  | finish m =>
    simp only [State.step] at hstep
    split at hstep
    · cases hstep
      exact h.finish ‹_›
    · cases hstep
  | waitStep i =>
    simp only [State.step] at hstep
    split at hstep
    · rename_i e hi
      exact h.waitStep hi hstep
    · cases hstep

theorem Reachable.inv (hs : Reachable s) : Inv s :=
  hs.invariant (fun _ h => h ▸ Inv.empty) fun _ _ _ h _ hstep => h.step hstep

end Lamellar.OneSided
