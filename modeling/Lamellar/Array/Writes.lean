import Lamellar.Array.Reads

/-!
# The write paths

A put splits the buffer into pieces, and each piece is written to a run of slots of one PE.
`Places` says that a piece takes its elements to their homes. Since homes are distinct, such
a write makes its own elements `Stored`, keeps those that are, and touches no slot outside
the range (`write_stored`); the two put operations are loops over such writes, in any order.
-/

namespace Lamellar.Array

open Segments

variable {T : Type}

/-- Element `k` of the buffer is in the memory, `k` after index `g` of the full array. -/
def Stored (d : Distribution) (len numPes g : ℕ) (buf : List T) (r : MemoryRegion T)
    (k : ℕ) : Prop :=
  Right (r.valueAt d len numPes g) buf k

/-- `r'` agrees with `r` outside the homes of the `n` elements from index `g` on. -/
structure Frame (d : Distribution) (len numPes g n : ℕ) (r r' : MemoryRegion T) : Prop where
  perPe : r'.perPe = r.perPe
  cell : ∀ p s, (∀ k < n, (p, s) ≠ home d len numPes (g + k)) → r'.cell p s = r.cell p s

/-- The first `count` elements of `data` are those of the buffer at the positions `f`, and
belong to the slots of `pe` from `start` on. -/
structure Places (d : Distribution) (len numPes g : ℕ) (buf data : List T)
    (pe start count : ℕ) (f : ℕ → ℕ) : Prop where
  data_eq : ∀ t < count, data[t]? = buf[f t]?
  lt_length : ∀ t < count, f t < buf.length
  home_eq : ∀ t < count, home d len numPes (g + f t) = (pe, start + t)

theorem Frame.refl (d : Distribution) (len numPes g n : ℕ) (r : MemoryRegion T) :
    Frame d len numPes g n r r := ⟨rfl, fun _ _ _ => rfl⟩

section Write

variable {d : Distribution} {len numPes g : ℕ} {buf data : List T} {pe start : ℕ} {f : ℕ → ℕ}
  {r₀ r : MemoryRegion T}

theorem Places.write_frame (h : Places d len numPes g buf data pe start data.length f)
    (hr : Frame d len numPes g buf.length r₀ r) :
    Frame d len numPes g buf.length r₀ (r.write pe start data) := by
  refine ⟨hr.perPe, ?_⟩
  intro p s hps
  rw [write_cell_of_ne, hr.cell p s hps]
  intro t ht heq
  exact hps (f t) (h.lt_length t ht) (heq.trans (h.home_eq t ht).symm)

theorem Places.write_stored (h : Places d len numPes g buf data pe start data.length f)
    (hP : 0 < numPes) (hN : numPes ≤ len) {k : ℕ}
    (hk : Stored d len numPes g buf r k ∨ ∃ t < data.length, k = f t) :
    Stored d len numPes g buf (r.write pe start data) k := by
  by_cases hin : ∃ t < data.length, k = f t
  · obtain ⟨t, ht, rfl⟩ := hin
    obtain ⟨v, hv⟩ : ∃ v, data[t]? = some v := ⟨_, List.getElem?_eq_getElem ht⟩
    rw [Stored, Right, ← h.data_eq t ht, hv, MemoryRegion.valueAt, h.home_eq t ht,
      write_cell_of_data hv]
  · have hk' := hk.resolve_right hin
    rw [Stored, Right] at hk' ⊢
    rw [hk', MemoryRegion.valueAt, MemoryRegion.valueAt, write_cell_of_ne]
    -- a slot of the piece would be the home of one of its elements
    intro t ht heq
    have hhome : home d len numPes (g + k) = home d len numPes (g + f t) :=
      heq.trans (h.home_eq t ht).symm
    have := home_injective hP hN hhome
    exact hin ⟨t, ht, by omega⟩

/-- A put of exactly the placed elements. -/
theorem Places.blockingPut (h : Places d len numPes g buf data pe start data.length f)
    (hP : 0 < numPes) (hN : numPes ≤ len) (hfit : start + data.length ≤ r₀.perPe)
    (hr : Frame d len numPes g buf.length r₀ r) :
    ∃ r', r.blockingPut pe start data = some r' ∧ Frame d len numPes g buf.length r₀ r' ∧
      ∀ k, Stored d len numPes g buf r k ∨ (∃ t < data.length, k = f t) →
        Stored d len numPes g buf r' k :=
  ⟨_, blockingPut_eq_some (hr.perPe.symm ▸ hfit), h.write_frame hr,
    fun _ hk => h.write_stored hP hN hk⟩

/-- The front of a longer piece is a piece. -/
theorem Places.front {count : ℕ} (h : Places d len numPes g buf data pe start count f)
    (hle : 0 + count ≤ data.length) :
    Places d len numPes g buf ((data.drop 0).take count) pe start
      ((data.drop 0).take count).length f := by
  rw [length_subRegion hle]
  refine ⟨fun t ht => ?_, h.lt_length, h.home_eq⟩
  rw [getElem?_subRegion ht, Nat.zero_add, h.data_eq t ht]

end Write

/-- Gathering the listed positions of the buffer at the front of `temp`. -/
theorem gatherLoop_eq {buf : List T} (js : List ℕ) (k : ℕ) (temp : List T)
    (hjs : ∀ j ∈ js, j < buf.length) (hroom : k + js.length ≤ temp.length) :
    ∃ temp', UnsafeArrayInner.gatherLoop buf js k temp = some (temp', k + js.length) ∧
      temp'.length = temp.length ∧ (∀ t < k, temp'[t]? = temp[t]?) ∧
      ∀ t j, js[t]? = some j → temp'[k + t]? = buf[j]? := by
  induction js generalizing k temp with
  | nil => exact ⟨temp, rfl, rfl, fun _ _ => rfl, fun t j hj => by simp at hj⟩
  | cons j js ih =>
    have hj := hjs j List.mem_cons_self
    have hlen : ((buf.drop j).take 1).length = 1 := length_subRegion hj
    rw [List.length_cons] at hroom
    have hput : k + ((buf.drop j).take 1).length ≤ temp.length := by omega
    obtain ⟨temp', hloop, hlen', hlow, hdata⟩ := ih (k + 1) (splice temp k ((buf.drop j).take 1))
      (fun i hi => hjs i (List.mem_cons_of_mem j hi))
      (by rw [length_splice hput]; omega)
    refine ⟨temp', ?_, hlen'.trans (length_splice hput), ?_, ?_⟩
    · rw [UnsafeArrayInner.gatherLoop, subRegion_eq_some hj]
      simp only [Option.bind_eq_bind, Option.bind_some, bufPut_eq_some hput, hloop,
        List.length_cons]
      rw [Nat.add_assoc, Nat.add_comm 1]
    · intro t ht
      rw [hlow t (by omega), getElem?_splice hput, if_neg (by omega)]
    · intro t i hi
      cases t with
      | zero =>
        cases hi
        rw [Nat.add_zero, hlow k (by omega), getElem?_splice hput, if_pos (by omega),
          Nat.sub_self, getElem?_subRegion Nat.one_pos, Nat.add_zero]
      | succ t =>
        rw [← hdata t i hi]
        congr 1
        omega

namespace UnsafeArrayInner

variable {a : UnsafeArrayInner} {len index : ℕ} {buf : List T} {r₀ : MemoryRegion T}

/-! ## Direct puts -/

theorem BlockPiece.Exact.places {p : BlockPiece} (h : a.WellFormed len)
    (hp : p.Exact len a.numPes (a.offset + index) buf.length) :
    ∃ data, subRegion buf p.bufIndex p.len = some data ∧ data.length = p.len ∧
      Places .block len a.numPes (a.offset + index) buf data p.pe p.offset p.len
        (p.bufIndex + ·) := by
  have hupper := hp.upper
  have hroom : p.bufIndex + p.len ≤ buf.length := by omega
  refine ⟨_, subRegion_eq_some hroom, length_subRegion hroom, ?_, ?_, ?_⟩
  · exact fun t ht => getElem?_subRegion ht
  · exact fun t ht => by omega
  · exact fun t ht => hp.home_eq h.pos h.le ht

theorem blockPut_stored (h : a.WellFormed len) (hd : a.distribution = .block)
    (hr : r₀.perPe = perPeSize len a.numPes) (hn : 0 < buf.length)
    (hfit : index + buf.length ≤ a.size) :
    ∃ r', a.blockPut r₀ index buf = some r' ∧
      Frame .block len a.numPes (a.offset + index) buf.length r₀ r' ∧
      ∀ k < buf.length, Stored .block len a.numPes (a.offset + index) buf r' k := by
  obtain ⟨pieces, hpieces, hexact, hcover⟩ := mem_blockPieces h hd hn hfit
  obtain ⟨r', hfold, hframe, hstored⟩ := Folds.foldlM_progress
    (fun (r : MemoryRegion T) (p : BlockPiece) => do
      let data ← subRegion buf p.bufIndex p.len
      r.blockingPut p.pe p.offset data)
    (Frame .block len a.numPes (a.offset + index) buf.length r₀)
    (Stored .block len a.numPes (a.offset + index) buf)
    (fun p => p.Exact len a.numPes (a.offset + index) buf.length)
    (fun p k => p.bufIndex ≤ k ∧ k < p.bufIndex + p.len)
    (by
      intro r p hframe hp
      obtain ⟨data, hsub, hlen, hplaces⟩ := hp.places h
      rw [← hlen] at hplaces
      obtain ⟨r', hput, hframe', hstored⟩ := hplaces.blockingPut h.pos h.le
        (by rw [hlen, hr]; exact hp.fits h hfit) hframe
      refine ⟨r', by simp only [hsub, Option.bind_eq_bind, Option.bind_some, hput], hframe', ?_⟩
      intro k hk
      apply hstored
      rcases hk with hk | ⟨h1, h2⟩
      · exact Or.inl hk
      · exact Or.inr ⟨k - p.bufIndex, by omega, by omega⟩)
    pieces r₀ (Frame.refl _ _ _ _ _ r₀) hexact
  refine ⟨r', ?_, hframe, ?_⟩
  · simp only [blockPut, hpieces, Option.bind_eq_bind, Option.bind_some]
    exact hfold
  · intro k hk
    obtain ⟨p, hp, hpk⟩ := hcover k hk
    exact hstored k (Or.inr ⟨p, hp, hpk⟩)

/-- The temporary region of a turn, after its elements were gathered. -/
theorem CyclicTurn.Exact.gather {t : CyclicTurn} (temp : List T) (h : a.WellFormed len)
    (ht : t.Exact a.numPes (a.offset + index) buf.length)
    (htemp : temp.length = a.cyclicNumElemsPe buf.length) :
    ∃ temp', gatherLoop buf (stepBy t.i buf.length a.numPes) 0 temp =
        some (temp', (stepBy t.i buf.length a.numPes).length) ∧ temp'.length = temp.length ∧
      Places .cyclic len a.numPes (a.offset + index) buf temp' t.pe t.offset
        (stepBy t.i buf.length a.numPes).length (t.i + · * a.numPes) := by
  have hmem : ∀ j ∈ stepBy t.i buf.length a.numPes, j < buf.length := by
    intro j hj
    obtain ⟨k, hk⟩ := List.getElem?_of_mem hj
    exact (getElem?_stepBy_eq_some h.pos hk).2
  have hroom := length_stepBy_le h ht
  obtain ⟨temp', hloop, hlen, _, hdata⟩ := gatherLoop_eq (stepBy t.i buf.length a.numPes) 0 temp
    hmem (by omega)
  rw [Nat.zero_add] at hloop
  refine ⟨temp', hloop, hlen, ?_, ?_, ?_⟩
  · intro k hk
    rw [← hdata k _ (getElem?_stepBy hk), Nat.zero_add]
  · intro k hk
    exact (lt_length_stepBy h.pos k).mp hk
  · intro k _
    exact ht.home_eq len h.pos k

/-- The positions of a turn are those of its residue. -/
theorem mem_turn {t : CyclicTurn} {n : ℕ} (h : a.WellFormed len) {k : ℕ} (hk : k < n)
    (hmod : k % a.numPes = t.i) :
    ∃ j < (stepBy t.i n a.numPes).length, k = t.i + j * a.numPes := by
  have hj := getElem?_stepBy_mod h.pos hk
  rw [hmod] at hj
  obtain ⟨hlt, _⟩ := List.getElem?_eq_some_iff.mp hj
  exact ⟨_, hlt, (getElem?_stepBy_eq_some h.pos hj).1⟩

theorem cyclicPut_stored {junk : ℕ → T} (h : a.WellFormed len)
    (hr : r₀.perPe = perPeSize len a.numPes) (hfit : index + buf.length ≤ a.size) :
    ∃ r', a.cyclicPut junk r₀ index buf = some r' ∧
      Frame .cyclic len a.numPes (a.offset + index) buf.length r₀ r' ∧
      ∀ k < buf.length, Stored .cyclic len a.numPes (a.offset + index) buf r' k := by
  obtain ⟨hexact, hcover⟩ := mem_cyclicTurns (a := a) index buf.length h.pos
  obtain ⟨⟨temp', r'⟩, hfold, ⟨_, hframe⟩, hstored⟩ := Folds.foldlM_progress
    (fun (s : List T × MemoryRegion T) t => a.cyclicPutTurn buf s.1 s.2 t)
    (fun s => s.1.length = a.cyclicNumElemsPe buf.length ∧
      Frame .cyclic len a.numPes (a.offset + index) buf.length r₀ s.2)
    (fun s => Stored .cyclic len a.numPes (a.offset + index) buf s.2)
    (fun t => t.Exact a.numPes (a.offset + index) buf.length)
    (fun t k => k < buf.length ∧ k % a.numPes = t.i)
    (by
      rintro ⟨temp, r⟩ t ⟨htemp, hframe⟩ ht
      obtain ⟨temp', hloop, hlen, hplaces⟩ := ht.gather temp h htemp
      have hroom : 0 + (stepBy t.i buf.length a.numPes).length ≤ temp'.length := by
        rw [Nat.zero_add, hlen, htemp]
        exact length_stepBy_le h ht
      obtain ⟨r', hput, hframe', hstored⟩ := (hplaces.front hroom).blockingPut h.pos h.le
        (by rw [length_subRegion hroom, hr]; exact ht.fits h hfit) hframe
      refine ⟨(temp', r'), ?_, ⟨hlen.trans htemp, hframe'⟩, ?_⟩
      · simp only [cyclicPutTurn, hloop, subRegion_eq_some hroom, Option.bind_eq_bind,
          Option.bind_some, hput]
      · intro k hk
        apply hstored
        rcases hk with hk | ⟨hkn, hmod⟩
        · exact Or.inl hk
        · rw [length_subRegion hroom]
          exact Or.inr (mem_turn h hkn hmod))
    (a.cyclicTurns index buf.length)
    (allocOneSidedMemRegion junk (a.cyclicNumElemsPe buf.length), r₀)
    ⟨length_allocOneSidedMemRegion _ _, Frame.refl _ _ _ _ _ r₀⟩ hexact
  refine ⟨r', ?_, hframe, ?_⟩
  · simp only [cyclicPut, hfold, Option.bind_eq_bind, Option.bind_some]
  · intro k hk
    obtain ⟨t, ht, htk⟩ := hcover k hk
    exact hstored k (Or.inr ⟨t, ht, hk, htk.symm⟩)

/-! ## Puts by active messages -/

/-- What a put message needs: the receiver finds `count` of its slots in the range, and the
front of the data holds what belongs there. -/
structure PutAm.Addressed (am : PutAm T) (a : UnsafeArrayInner) (len index : ℕ) (buf : List T)
    (pe start count : ℕ) (f : ℕ → ℕ) : Prop where
  places : Places a.distribution len a.numPes (a.offset + index) buf am.data pe start count f
  range : ∃ bounds, (a.onPe pe).localElementsForRange am.startIndex am.len =
    some (some ((start, start + count), bounds))
  enough : 0 + count ≤ am.data.length
  fits : start + count ≤ perPeSize len a.numPes

theorem PutAm.Addressed.exec_stored {am : PutAm T} {pe start count : ℕ} {f : ℕ → ℕ}
    {r : MemoryRegion T} (ham : am.Addressed a len index buf pe start count f)
    (h : a.WellFormed len) (hr : r₀.perPe = perPeSize len a.numPes)
    (hframe : Frame a.distribution len a.numPes (a.offset + index) buf.length r₀ r) :
    ∃ r', am.exec (a.onPe pe) r = some r' ∧
      Frame a.distribution len a.numPes (a.offset + index) buf.length r₀ r' ∧
      ∀ k, Stored a.distribution len a.numPes (a.offset + index) buf r k ∨
        (∃ t < count, k = f t) →
        Stored a.distribution len a.numPes (a.offset + index) buf r' k := by
  obtain ⟨bounds, hrange⟩ := ham.range
  have hfront : am.front count = some ((am.data.drop 0).take count) := by
    unfold PutAm.front
    cases am.kind with
    | unsafePutAm => exact subRegion_eq_some ham.enough
    | unsafeSmallPutAm => exact subRegion_eq_some ham.enough
  obtain ⟨r', hput, hframe', hstored⟩ := (ham.places.front ham.enough).blockingPut h.pos h.le
    (by rw [length_subRegion ham.enough, hr]; exact ham.fits) hframe
  rw [length_subRegion ham.enough] at hstored
  refine ⟨r', ?_, hframe', hstored⟩
  simp only [PutAm.exec, hrange, Option.bind_eq_bind, Option.bind_some, onPe_myPe,
    Nat.add_sub_cancel_left, hfront, hput]

/-- The messages `xs`, `am x` for PE `pe x`, put their parts of the buffer, and together all of
it. -/
structure Covering {α : Type} (a : UnsafeArrayInner) (len index : ℕ) (buf : List T) (pe : α → ℕ)
    (am : α → PutAm T) (xs : List α) : Prop where
  addressed : ∀ x ∈ xs, ∃ start count f,
    (am x).Addressed a len index buf (pe x) start count f
  cover : ∀ k < buf.length, ∃ x ∈ xs, ∃ start count f,
    (am x).Addressed a len index buf (pe x) start count f ∧ ∃ t < count, k = f t

/-- Messages that cover the buffer may run in any order. -/
theorem Covering.run {α : Type} {pe : α → ℕ} {am : α → PutAm T} {xs ys : List α}
    (hxs : Covering a len index buf pe am xs) (hperm : ys.Perm xs) (h : a.WellFormed len)
    (hr : r₀.perPe = perPeSize len a.numPes)
    {exec : MemoryRegion T → α → Option (MemoryRegion T)}
    (hexec : ∀ x ∈ xs, ∀ r, exec r x = (am x).exec (a.onPe (pe x)) r) :
    ∃ r', ys.foldlM exec r₀ = some r' ∧
      Frame a.distribution len a.numPes (a.offset + index) buf.length r₀ r' ∧
      ∀ k < buf.length, Stored a.distribution len a.numPes (a.offset + index) buf r' k := by
  obtain ⟨r', hfold, hframe, hstored⟩ := Folds.foldlM_progress exec
    (Frame a.distribution len a.numPes (a.offset + index) buf.length r₀)
    (Stored a.distribution len a.numPes (a.offset + index) buf)
    (· ∈ xs)
    (fun x k => ∃ start count f,
      (am x).Addressed a len index buf (pe x) start count f ∧ ∃ t < count, k = f t)
    (by
      intro r x hframe hx
      rw [hexec x hx]
      obtain ⟨_, _, _, ham⟩ := hxs.addressed x hx
      obtain ⟨r', hrun, hframe', hstored⟩ := ham.exec_stored h hr hframe
      refine ⟨r', hrun, hframe', ?_⟩
      rintro k (hk | ⟨_, _, _, ham', hk⟩)
      · exact hstored k (Or.inl hk)
      · -- the message does the same, whichever part of the buffer it is asked about
        obtain ⟨r'', hrun', -, hstored'⟩ := ham'.exec_stored h hr hframe
        rw [hrun, Option.some.injEq] at hrun'
        exact hrun' ▸ hstored' k (Or.inr hk))
    ys r₀ (Frame.refl _ _ _ _ _ r₀) (fun x hx => hperm.mem_iff.mp hx)
  refine ⟨r', hfold, hframe, ?_⟩
  intro k hk
  obtain ⟨x, hx, hxk⟩ := hxs.cover k hk
  exact hstored k (Or.inr ⟨x, hperm.mem_iff.mpr hx, hxk⟩)

theorem blockPutAms_covering (sizeOf : ℕ) (h : a.WellFormed len)
    (hd : a.distribution = .block) (hn : 0 < buf.length) (hfit : index + buf.length ≤ a.size) :
    ∃ ams, a.blockPutAms sizeOf index buf = some ams ∧
      Covering a len index buf Prod.fst Prod.snd ams := by
  obtain ⟨pieces, hpieces, hexact, hcover⟩ := mem_blockPieces h hd hn hfit
  let am : BlockPiece → ℕ × PutAm T := fun p =>
    (p.pe, ⟨putAmKind buf.length sizeOf, index, buf.length, (buf.drop p.bufIndex).take p.len⟩)
  have hams : a.blockPutAms sizeOf index buf = some (pieces.map am) := by
    simp only [blockPutAms, hpieces, Option.bind_eq_bind, Option.bind_some]
    rw [← List.map_id pieces, List.map_map]
    apply Folds.mapM_map_eq_some
    intro p hp
    obtain ⟨_, hsub, _⟩ := (hexact p hp).places h
    have hupper := (hexact p hp).upper
    rw [id_eq, subRegion_eq_some (by omega)]
    rfl
  have haddressed : ∀ p ∈ pieces, (am p).2.Addressed a len index buf p.pe p.offset p.len
      (p.bufIndex + ·) := by
    intro p hp
    have hp := hexact p hp
    obtain ⟨hlower, hupper, _, _⟩ := id hp
    obtain ⟨data, hsub, hlen, hplaces⟩ := hp.places h
    rw [subRegion_eq_some (by omega)] at hsub
    cases hsub
    refine ⟨hd ▸ hplaces, localElementsForRange_block h hd hn hfit hp, ?_, hp.fits h hfit⟩
    rw [Nat.zero_add]
    exact hlen.ge
  refine ⟨pieces.map am, hams, ?_, ?_⟩
  · intro x hx
    obtain ⟨p, hp, rfl⟩ := List.mem_map.mp hx
    exact ⟨p.offset, p.len, _, haddressed p hp⟩
  · intro k hk
    obtain ⟨p, hp, hpk⟩ := hcover k hk
    exact ⟨am p, List.mem_map_of_mem hp, p.offset, p.len, _, haddressed p hp, k - p.bufIndex,
      by omega, by omega⟩

theorem cyclicPutAms_covering (junk : ℕ → ℕ → T) (sizeOf : ℕ) (h : a.WellFormed len)
    (hd : a.distribution = .cyclic) (hn : 0 < buf.length) (hfit : index + buf.length ≤ a.size) :
    ∃ ams, a.cyclicPutAms junk sizeOf index buf = some ams ∧
      Covering a len index buf Prod.fst Prod.snd ams := by
  obtain ⟨hexact, hcover⟩ := mem_cyclicTurns (a := a) index buf.length h.pos
  have hgather : ∀ t ∈ a.cyclicTurns index buf.length, _ := fun t ht =>
    (hexact t ht).gather (allocOneSidedMemRegion (junk t.i) (a.cyclicNumElemsPe buf.length)) h
      (length_allocOneSidedMemRegion _ _)
  choose! temp hloop hlen hplaces using hgather
  let am : CyclicTurn → ℕ × PutAm T := fun t =>
    (t.pe, ⟨putAmKind buf.length sizeOf, index, buf.length, temp t⟩)
  have hams : a.cyclicPutAms junk sizeOf index buf =
      some ((a.cyclicTurns index buf.length).map am) := by
    rw [cyclicPutAms, ← List.map_id (a.cyclicTurns index buf.length), List.map_map]
    apply Folds.mapM_map_eq_some
    intro t ht
    simp only [id_eq, hloop t ht, Option.bind_eq_bind, Option.bind_some]
    rfl
  have haddressed : ∀ t ∈ a.cyclicTurns index buf.length,
      (am t).2.Addressed a len index buf t.pe t.offset
        (stepBy t.i buf.length a.numPes).length (t.i + · * a.numPes) := by
    intro t ht
    have hexact := hexact t ht
    refine ⟨hd ▸ hplaces t ht, localElementsForRange_cyclic h hd hn hfit hexact, ?_,
      hexact.fits h hfit⟩
    show 0 + _ ≤ (temp t).length
    rw [Nat.zero_add, hlen t ht, length_allocOneSidedMemRegion]
    exact length_stepBy_le h hexact
  refine ⟨_, hams, ?_, ?_⟩
  · intro x hx
    obtain ⟨t, ht, rfl⟩ := List.mem_map.mp hx
    exact ⟨_, _, _, haddressed t ht⟩
  · intro k hk
    obtain ⟨t, ht, htk⟩ := hcover k hk
    exact ⟨am t, List.mem_map_of_mem ht, _, _, _, haddressed t ht, mem_turn h hk htk.symm⟩

theorem runPutAms_stored (sched : Schedule) {ams : List (ℕ × PutAm T)}
    (hams : Covering a len index buf Prod.fst Prod.snd ams) (h : a.WellFormed len)
    (hr : r₀.perPe = perPeSize len a.numPes) :
    ∃ r', a.runPutAms sched ams r₀ = some r' ∧
      Frame a.distribution len a.numPes (a.offset + index) buf.length r₀ r' ∧
      ∀ k < buf.length, Stored a.distribution len a.numPes (a.offset + index) buf r' k :=
  hams.run (sched.perm ams) h hr fun _ _ _ => rfl

/-! ## Both paths -/

theorem write_right (env : Env T) (path : WritePath) (h : a.WellFormed len)
    (hr : r₀.perPe = perPeSize len a.numPes) (hn : 0 < buf.length)
    (hfit : index + buf.length ≤ a.size) :
    ∃ r', a.write env path r₀ index buf = some r' ∧
      Frame a.distribution len a.numPes (a.offset + index) buf.length r₀ r' ∧
      ∀ k < buf.length, Stored a.distribution len a.numPes (a.offset + index) buf r' k := by
  cases hd : a.distribution with
  | block =>
    cases path with
    | putUnchecked =>
      simp only [write, hd]
      exact blockPut_stored h hd hr hn hfit
    | put =>
      obtain ⟨ams, hams, hcover⟩ := blockPutAms_covering env.sizeOf h hd hn hfit
      have hrun := runPutAms_stored env.sched hcover h hr
      rw [hd] at hrun
      simp only [write, hd, hams, Option.bind_eq_bind, Option.bind_some]
      exact hrun
  | cyclic =>
    cases path with
    | putUnchecked =>
      simp only [write, hd]
      exact cyclicPut_stored h hr hfit
    | put =>
      obtain ⟨ams, hams, hcover⟩ := cyclicPutAms_covering env.junk env.sizeOf h hd hn hfit
      have hrun := runPutAms_stored env.sched hcover h hr
      rw [hd] at hrun
      simp only [write, hd, hams, Option.bind_eq_bind, Option.bind_some]
      exact hrun

end UnsafeArrayInner

open UnsafeArrayInner

/-- After a put of a buffer at `index` of a view, the elements of the range are those of the
buffer, every other element of the full array is as before, and a get of the range returns
the buffer. -/
theorem write_exact (env : Env T) (path : WritePath) (myPe numPes len : ℕ) (d : Distribution)
    (offset size index : ℕ) (buf : List T) (r : MemoryRegion T) (hP : 1 ≤ numPes)
    (hN : numPes ≤ len) (hfit : offset + size ≤ len) (hn : 1 ≤ buf.length)
    (hrange : index + buf.length ≤ size) (hr : r.perPe = perPeSize len numPes) :
    ∃ r', (view myPe numPes len d offset size).write env path r index buf = some r' ∧
      (∀ k < buf.length,
        (view myPe numPes len d offset size).element r' (index + k) = buf[k]?) ∧
      (∀ g < len, ¬ (offset + index ≤ g ∧ g < offset + index + buf.length) →
        (view myPe numPes len d 0 len).element r' g =
          (view myPe numPes len d 0 len).element r g) ∧
      ∀ (env' : Env T) (path' : ReadPath) (buf' : List T), buf'.length = buf.length →
        ¬ (path' = .getUnchecked ∧ d = .cyclic ∧ offset ≠ 0) →
        (view myPe numPes len d offset size).read env' path' r' index buf' = some buf := by
  have h : (view myPe numPes len d offset size).WellFormed len := view_wellFormed hP hN hfit
  have hfull : (view myPe numPes len d 0 len).WellFormed len := view_wellFormed hP hN (by omega)
  obtain ⟨r', hwrite, hframe, hstored⟩ := write_right env path h hr hn hrange
  refine ⟨r', hwrite, ?_, ?_, ?_⟩
  · intro k hk
    rw [element_eq_valueAt h (show index + k < size by omega), hstored k hk]
  · intro g hg hout
    have hcell := hframe.cell _ _ (show ∀ k < buf.length, ((home d len numPes g).1,
        (home d len numPes g).2) ≠ home d len numPes (offset + index + k) by
      intro k hk heq
      have := home_injective hP hN heq
      omega)
    rw [← Nat.zero_add g, element_eq_valueAt hfull (show 0 + g < len by omega),
      element_eq_valueAt hfull (show 0 + g < len by omega), MemoryRegion.valueAt,
      MemoryRegion.valueAt, show (view myPe numPes len d 0 len).offset + 0 + g = g by
        rw [Nat.add_zero]; exact Nat.zero_add g]
    exact congrArg some hcell
  · intro env' path' buf' hbuf' hpath
    obtain ⟨buf'', hread, hlen, hright⟩ := read_right env' h (hframe.perPe.trans hr) hn hrange
      hbuf' hpath
    rw [hread, Option.some.injEq]
    apply List.ext_getElem?
    intro k
    by_cases hk : k < buf.length
    · rw [hright k hk, hstored k hk]
    · rw [List.getElem?_eq_none (by omega), List.getElem?_eq_none (by omega)]

/-- Five elements over two PEs, and a put of two of them into the view `[1, 4)`. -/
theorem write_exact_two_pes :
    ∃ r', (view 0 2 5 .block 1 3).write ⟨8, fun _ _ => 0, .inOrder⟩ .put
        ⟨3, fun p s => 3 * p + s⟩ 1 [7, 8] = some r' ∧
      (∀ k < 2, (view 0 2 5 .block 1 3).element r' (1 + k) = [7, 8][k]?) ∧
      (∀ g < 5, ¬ (1 + 1 ≤ g ∧ g < 1 + 1 + 2) →
        (view 0 2 5 .block 0 5).element r' g =
          (view 0 2 5 .block 0 5).element ⟨3, fun p s => 3 * p + s⟩ g) ∧
      ∀ (env' : Env ℕ) (path' : ReadPath) (buf' : List ℕ), buf'.length = 2 →
        ¬ (path' = .getUnchecked ∧ Distribution.block = .cyclic ∧ 1 ≠ 0) →
        (view 0 2 5 .block 1 3).read env' path' r' 1 buf' = some [7, 8] :=
  write_exact ⟨8, fun _ _ => 0, .inOrder⟩ .put 0 2 5 .block 1 3 1 [7, 8]
    ⟨3, fun p s => 3 * p + s⟩ (by decide) (by decide) (by decide) (by decide) (by decide)
    (by decide +kernel)

end Lamellar.Array
