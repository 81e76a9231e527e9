import Lamellar.Shmem.Model
import Mathlib.Data.List.Perm.Basic

/-!
# Addresses in shared memory

A PE finds the segment of an address by the range of a mapping. That range ends one word too late,
for `len` counts the word in front of `data`, but the word behind a mapping is never `data` of
another one: there is a word in front of that one too.

`put_all` asks every PE of the world for its part. It panics at the first one that has none, so
it works on segments of all PEs only.
-/

namespace Lamellar.Shmem

variable {numPes me pe : ℕ} {s t : Segment numPes}

/-! ## The positions of the parts -/

theorem lookup_addrMap_of_lt {words : List ℕ} {p q i : ℕ} (h : q < p) :
    (addrMap p i words).lookup q = none := by
  induction words generalizing p i with
  | nil => rfl
  | cons w words ih =>
    rw [addrMap]
    split
    · have hne : (q == p) = false := by simp; omega
      rw [List.lookup_cons, hne]
      exact ih (Nat.lt_succ_of_lt h)
    · exact ih (Nat.lt_succ_of_lt h)

theorem lookup_addrMap {words : List ℕ} {k w : ℕ} (p i : ℕ) (hk : words[k]? = some w) :
    (addrMap p i words).lookup (p + k) =
      if 0 < w then some (w, i + (words.take k).countP (0 < ·)) else none := by
  induction words generalizing k p i with
  | nil => simp at hk
  | cons v words ih =>
    cases k with
    | zero =>
      obtain rfl : v = w := by simpa using hk
      rw [addrMap]
      split
      · simp
      · exact lookup_addrMap_of_lt (Nat.lt_succ_self p)
    | succ k =>
      have hne : (p + (k + 1) == p) = false := by simp
      have hrest : words[k]? = some w := by simpa using hk
      rw [addrMap]
      split
      · rename_i hv
        rw [List.lookup_cons, hne, Nat.add_comm k 1, ← Nat.add_assoc, ih (p + 1) (i + 1) hrest]
        simp [hv, Nat.add_assoc, Nat.add_comm 1]
      · rename_i hv
        rw [Nat.add_comm k 1, ← Nat.add_assoc, ih (p + 1) i hrest, Nat.add_comm 1 k,
          List.take_succ_cons, List.countP_cons_of_neg (by simpa using hv)]

namespace Segment

/-- Whether PE `pe` has an entry on PE `me`. -/
def Listed (s : Segment numPes) (me pe : ℕ) : Prop := pe ∈ s.pes ∨ 0 < s.outside me pe

instance (s : Segment numPes) (me pe : ℕ) : Decidable (s.Listed me pe) :=
  inferInstanceAs (Decidable (_ ∨ _))

/-- The position that the loop of `ShmemComm::alloc` finds for the part of PE `pe`. -/
def position (s : Segment numPes) (me pe : ℕ) : ℕ := (List.range pe).countP (s.Listed me ·)

theorem data_pos (s : Segment numPes) (pe : ℕ) : 0 < (s.shmem pe).data := by
  simp [shmem, attachToShmem, usizeBytes]

/-- What PE `me` has copied from `barrier2` for PE `pe`. -/
def copied (s : Segment numPes) (me pe : ℕ) : ℕ :=
  if pe ∈ s.pes then (s.shmem pe).data else s.outside me pe

theorem copied_pos_iff : 0 < s.copied me pe ↔ s.Listed me pe := by
  unfold copied Listed
  split
  · exact iff_of_true (s.data_pos pe) (Or.inl ‹_›)
  · simp [*]

theorem lookup_allocation (hpe : pe < numPes) :
    (s.allocation me).addrs.lookup pe =
      if s.Listed me pe then some (s.copied me pe, s.position me pe) else none := by
  have hword : ((List.range numPes).map (s.copied me))[pe]? = some (s.copied me pe) := by
    simp [hpe]
  have hlookup := lookup_addrMap 0 0 hword
  rw [Nat.zero_add, Nat.zero_add, ← List.map_take, List.take_range, Nat.min_eq_left hpe.le,
    List.countP_map] at hlookup
  have hposition : (List.range pe).countP ((fun x => decide (0 < x)) ∘ s.copied me) =
      s.position me pe := by
    refine List.countP_congr fun q _ => ?_
    simp [copied_pos_iff]
  rw [hposition] at hlookup
  simp only [copied_pos_iff] at hlookup
  exact hlookup

/-! ## Where a part is -/

/-- The position of the part of PE `pe` -/
def index (s : Segment numPes) (pe : ℕ) : ℕ := s.pes.countP (· < pe)

/-- Where PE `me` has mapped the part of PE `pe`. -/
def part (s : Segment numPes) (me pe : ℕ) : ℕ := (s.shmem me).data + s.size * s.index pe

theorem allocation_addr (s : Segment numPes) (me : ℕ) : (s.allocation me).addr = s.part me me := rfl

theorem countP_lt_length {l : List ℕ} {p : ℕ → Bool} {a : ℕ} (ha : a ∈ l) (hp : p a = false) :
    l.countP p < l.length := by
  refine Nat.lt_of_le_of_ne List.countP_le_length fun heq => ?_
  rw [List.countP_eq_length.mp heq a ha] at hp
  cases hp

theorem index_lt (hpe : pe ∈ s.pes) : s.index pe < s.pes.length :=
  countP_lt_length hpe (by simp)

theorem index_lt_index {q : ℕ} (hpe : pe ∈ s.pes) (hlt : pe < q) : s.index pe < s.index q := by
  have hbelow : s.index pe = (s.pes.filter (· < q)).countP (· < pe) := by
    rw [List.countP_filter]
    refine List.countP_congr fun r _ => ?_
    simp
    omega
  have hmem : pe ∈ s.pes.filter (· < q) := List.mem_filter.mpr ⟨hpe, by simpa using hlt⟩
  rw [hbelow]
  exact (countP_lt_length hmem (by simp)).trans_eq List.countP_eq_length_filter.symm

variable (me) in
/-- A part ends before the end of the mapping. -/
theorem part_le (hpe : pe ∈ s.pes) :
    s.part me pe + s.size ≤ (s.shmem me).data + s.size * s.pes.length := by
  have hle := Nat.mul_le_mul_left s.size (Nat.succ_le_of_lt (index_lt hpe))
  rw [Nat.mul_succ] at hle
  unfold part
  omega

/-- No other PE has an entry. -/
def Quiet (s : Segment numPes) (me : ℕ) : Prop :=
  ∀ pe < numPes, pe ∉ s.pes → s.outside me pe = 0

theorem Quiet.listed_iff (h : s.Quiet me) (hpe : pe < numPes) : s.Listed me pe ↔ pe ∈ s.pes := by
  refine ⟨fun hlisted => ?_, Or.inl⟩
  by_contra hnot
  have hpos := hlisted.resolve_left hnot
  rw [h pe hpe hnot] at hpos
  exact Nat.lt_irrefl 0 hpos

theorem Quiet.position_eq (h : s.Quiet me) (hpe : pe < numPes) :
    s.position me pe = s.index pe := by
  have hperm : ((List.range pe).filter (s.Listed me ·)).Perm (s.pes.filter (· < pe)) := by
    refine (List.perm_ext_iff_of_nodup (List.nodup_range.filter _) (s.nodup.filter _)).mpr
      fun q => ?_
    simp only [List.mem_filter, List.mem_range, decide_eq_true_eq]
    constructor
    · rintro ⟨hlt, hlisted⟩
      exact ⟨(h.listed_iff (hlt.trans hpe)).mp hlisted, hlt⟩
    · rintro ⟨hmem, hlt⟩
      exact ⟨hlt, Or.inl hmem⟩
  rw [position, index, List.countP_eq_length_filter, List.countP_eq_length_filter, hperm.length_eq]

theorem Quiet.lookup (h : s.Quiet me) (hpe : pe ∈ s.pes) :
    (s.allocation me).addrs.lookup pe = some ((s.shmem pe).data, s.index pe) := by
  have hlisted : s.Listed me pe := Or.inl hpe
  rw [lookup_allocation (s.lt pe hpe), if_pos hlisted, copied, if_pos hpe,
    h.position_eq (s.lt pe hpe)]

/-! ## The segment of an address -/

/-- The end of the mapping of PE `pe` -/
def stop (s : Segment numPes) (pe : ℕ) : ℕ := (s.shmem pe).data + s.size * s.pes.length

/-- What a range test takes to be the mapping. -/
def InRange (s : Segment numPes) (pe x : ℕ) : Prop :=
  (s.shmem pe).data ≤ x ∧ x < (s.shmem pe).data + (s.shmem pe).len

theorem contains_iff (s : Segment numPes) (pe x : ℕ) :
    (s.shmem pe).contains x = true ↔ s.InRange pe x := decide_eq_true_iff

theorem data_eq (s : Segment numPes) (pe : ℕ) : (s.shmem pe).data = s.ptr pe + usizeBytes := rfl

theorem len_eq (s : Segment numPes) (pe : ℕ) :
    (s.shmem pe).data + (s.shmem pe).len = s.stop pe + usizeBytes := (Nat.add_assoc _ _ _).symm

/-- On each PE of both the mappings have no byte in common. -/
def Apart (s t : Segment numPes) : Prop :=
  ∀ pe ∈ s.pes, pe ∈ t.pes → s.stop pe ≤ t.ptr pe ∨ t.stop pe ≤ s.ptr pe

theorem Apart.symm (h : s.Apart t) : t.Apart s := fun pe ht hs => (h pe hs ht).symm

instance : Std.Symm (@Apart numPes) := ⟨fun _ _ => Apart.symm⟩

theorem Apart.not_inRange (h : s.Apart t) (hs : pe ∈ s.pes) (ht : pe ∈ t.pes) {x : ℕ}
    (hx : s.InRange pe x) : ¬ t.InRange pe x := by
  unfold InRange at *
  rw [len_eq] at *
  have hsdata := s.data_eq pe
  have htdata := t.data_eq pe
  rcases h pe hs ht with hle | hle <;> omega

theorem part_inRange {q off : ℕ} (hq : q ∈ s.pes) (hoff : off < s.size) :
    s.InRange pe (s.part pe q + off) := by
  have hle := part_le pe hq
  rw [InRange, len_eq]
  unfold part stop at *
  omega

end Segment

/-- The entries that PE `me` has for the segments `live`. -/
structure Mapped (me : ℕ) (live : List (Segment numPes)) (allocs : Allocs) : Prop where
  perm : allocs.Perm (live.map (·.allocation me))
  mem : ∀ s ∈ live, me ∈ s.pes
  apart : live.Pairwise Segment.Apart

variable {live : List (Segment numPes)} {allocs : Allocs}

namespace Mapped

theorem allocation_mem (h : Mapped me live allocs) (hs : s ∈ live) : s.allocation me ∈ allocs :=
  h.perm.mem_iff.mpr (List.mem_map_of_mem hs)

theorem exists_segment (h : Mapped me live allocs) {a : Allocation} (ha : a ∈ allocs) :
    ∃ s ∈ live, s.allocation me = a := List.mem_map.mp (h.perm.mem_iff.mp ha)

/-- Two segments with an address in common are one. -/
theorem eq_of_inRange (h : Mapped me live allocs) (hs : s ∈ live) (ht : t ∈ live) {x : ℕ}
    (hps : pe ∈ s.pes) (hpt : pe ∈ t.pes) (hxs : s.InRange pe x) (hxt : t.InRange pe x) :
    s = t := by
  by_contra hne
  have hapart : s.Apart t := h.apart.forall hs ht hne
  exact hapart.not_inRange hps hpt hxs hxt

theorem find?_contains (h : Mapped me live allocs) (hs : s ∈ live) {x : ℕ} (hx : s.InRange me x) :
    allocs.find? (·.shmem.contains x) = some (s.allocation me) := by
  cases hfind : allocs.find? (·.shmem.contains x) with
  | none =>
    have hnot := List.find?_eq_none.mp hfind _ (h.allocation_mem hs)
    exact absurd ((s.contains_iff me x).mpr hx) hnot
  | some a =>
    obtain ⟨t, ht, rfl⟩ := h.exists_segment (List.mem_of_find?_eq_some hfind)
    have hcontains := List.find?_some hfind
    have hxt : t.InRange me x := (t.contains_iff me x).mp hcontains
    rw [h.eq_of_inRange hs ht (h.mem s hs) (h.mem t ht) hx hxt]

/-- Keys are addresses in the mapping. -/
theorem addr_ne (h : Mapped me live allocs) (hs : me ∈ s.pes) (hapart : ∀ t ∈ live, s.Apart t)
    {a : Allocation} (ha : a ∈ allocs) : a.addr ≠ (s.allocation me).addr := by
  obtain ⟨t, ht, rfl⟩ := h.exists_segment ha
  intro heq
  rw [Segment.allocation_addr, Segment.allocation_addr] at heq
  have hin : s.InRange me (s.part me me + 0) := s.part_inRange hs s.pos
  have hin' : t.InRange me (t.part me me + 0) := t.part_inRange (h.mem t ht) t.pos
  exact (hapart t ht).not_inRange hs (h.mem t ht) hin (heq ▸ hin')

theorem insert (h : Mapped me live allocs) (hs : me ∈ s.pes) (hapart : ∀ t ∈ live, s.Apart t) :
    Mapped me (s :: live) (allocs.insert (s.allocation me)) := by
  have hkept : allocs.filter (fun b => b.addr ≠ (s.allocation me).addr) = allocs :=
    List.filter_eq_self.mpr fun a ha => by simpa using h.addr_ne hs hapart ha
  refine ⟨?_, List.forall_mem_cons.mpr ⟨hs, h.mem⟩, List.pairwise_cons.mpr ⟨hapart, h.apart⟩⟩
  rw [Allocs.insert, hkept]
  exact h.perm.cons _

theorem free {rest : List (Segment numPes)} (h : Mapped me live allocs)
    (hlive : live.Perm (s :: rest)) : Mapped me rest (allocs.free (s.allocation me).addr) := by
  have hmem : ∀ t ∈ s :: rest, me ∈ t.pes := fun t ht => h.mem t (hlive.mem_iff.mpr ht)
  have hpairs : (s :: rest).Pairwise Segment.Apart :=
    (hlive.pairwise_iff Segment.Apart.symm).mp h.apart
  obtain ⟨hapart, hrest⟩ := List.pairwise_cons.mp hpairs
  have hothers : Mapped me rest (rest.map (·.allocation me)) :=
    ⟨.rfl, fun t ht => hmem t (List.mem_cons_of_mem s ht), hrest⟩
  refine ⟨?_, hothers.mem, hothers.apart⟩
  have hkept : (rest.map (·.allocation me)).filter (fun b => b.addr ≠ (s.allocation me).addr) =
      rest.map (·.allocation me) := List.filter_eq_self.mpr fun a ha => by
    simpa using hothers.addr_ne (hmem s List.mem_cons_self) hapart ha
  have hperm := (h.perm.trans (hlive.map _)).filter fun b => b.addr ≠ (s.allocation me).addr
  rw [List.map_cons, List.filter_cons_of_neg (by simp), hkept] at hperm
  exact hperm

end Mapped

/-! ## The runs of a PE -/

theorem addrMap_of_pos {words : List ℕ} (h : ∀ w ∈ words, 0 < w) (p : ℕ) :
    addrMap p p words =
      ((words.zipIdx p).filter fun (addr, _) => 0 < addr).map fun (addr, pe) => (pe, addr, pe) := by
  induction words generalizing p with
  | nil => rfl
  | cons w words ih =>
    obtain ⟨hw, hwords⟩ := List.forall_mem_cons.mp h
    rw [addrMap, if_pos hw, List.zipIdx_cons, List.filter_cons_of_pos (by simpa using hw),
      ih hwords]
    rfl

theorem Segment.index_eq (hall : ∀ pe < numPes, pe ∈ s.pes) (hpe : pe < numPes) :
    s.index pe = pe := by
  have hquiet : s.Quiet 0 := fun q hq hnot => absurd (hall q hq) hnot
  have hlisted : (List.range pe).countP (s.Listed 0 ·) = (List.range pe).length :=
    List.countP_eq_length.mpr fun q hq =>
      decide_eq_true (Or.inl (hall q ((List.mem_range.mp hq).trans hpe)))
  rw [← hquiet.position_eq hpe, position, hlisted, List.length_range]

/-- The first entry is that of any segment of all PEs. -/
theorem Segment.first_eq (hall : ∀ pe < numPes, pe ∈ s.pes) (hme : me < numPes) :
    s.first me = s.allocation me := by
  have hpos : ∀ w ∈ (s.alloc me).2.2, 0 < w := by
    intro w hw
    obtain ⟨pe, hpe, rfl⟩ := List.mem_map.mp hw
    exact s.copied_pos_iff.mpr (Or.inl (hall pe (List.mem_range.mp hpe)))
  have hindex : s.pes.countP (· < me) = me := Segment.index_eq hall hme
  have haddrs := addrMap_of_pos hpos 0
  simp only [alloc] at haddrs
  simp only [first, allocation, alloc, hindex, haddrs]

/-- A PE allocates and frees segments: `live` are those that it has. -/
inductive Session (me : ℕ) : List (Segment numPes) → Allocs → Prop
  | new {s : Segment numPes} :
    me < numPes → (∀ pe < numPes, pe ∈ s.pes) → Session me [s] [s.first me]
  | alloc {s : Segment numPes} {live : List (Segment numPes)} {allocs allocs' : Allocs} {addr : ℕ} :
    Session me live allocs → (∀ t ∈ live, s.Apart t) → allocs.alloc s me = some (addr, allocs') →
    Session me (s :: live) allocs'
  | free {s : Segment numPes} {live rest : List (Segment numPes)} {allocs : Allocs} :
    Session me live allocs → live.Perm (s :: rest) → Session me rest (allocs.free (s.part me me))

theorem Session.mapped (h : Session me live allocs) : Mapped me live allocs := by
  induction h with
  | @new s hme hall =>
    rw [Segment.first_eq hall hme]
    exact ⟨.rfl, fun t ht => List.mem_singleton.mp ht ▸ hall me hme, List.pairwise_singleton _ _⟩
  | alloc _ hapart halloc ih =>
    obtain ⟨hme, heq⟩ := Option.ite_none_right_eq_some.mp halloc
    cases heq
    exact ih.insert hme hapart
  | free _ hlive ih => exact ih.free hlive

/-! ## Translation -/

variable {build : Build} {off x : ℕ}

theorem Segment.part_lt_word {q : ℕ} (hme : me ∈ s.pes) (hq : q ∈ s.pes) (hoff : off < s.size) :
    s.part me q + off < word := by
  have hle := Segment.part_le me hq
  have hfits := s.fits me hme
  rw [← Segment.data_eq] at hfits
  omega

theorem Mapped.remoteAddr (h : Mapped me live allocs) (hs : s ∈ live) (hquiet : s.Quiet me)
    (hpe : pe ∈ s.pes) (hoff : off < s.size) :
    allocs.remoteAddr build pe (s.part me me + off) = some (s.part pe pe + off) := by
  have hme := h.mem s hs
  have hsub : build.sub (s.part me me + off) (s.allocation me).addr = some off := by
    rw [Segment.allocation_addr, build.sub_of_le (Nat.le_add_right _ _), Nat.add_sub_cancel_left]
  have hadd : wrappingAdd ((s.shmem pe).data + (s.allocation me).size * s.index pe) off =
      s.part pe pe + off := wrappingAdd_of_lt (Segment.part_lt_word hpe hpe hoff)
  simp only [Allocs.remoteAddr, h.find?_contains hs (s.part_inRange hme hoff), hsub,
    hquiet.lookup hpe, hadd, Option.bind_eq_bind, Option.bind_some]

/-- `local_addr` where one entry only has the address in the range of PE `pe`. -/
theorem Allocs.localAddr_of_unique {a : Allocation} {base index : ℕ} (ha : a ∈ allocs)
    (hlookup : a.addrs.lookup pe = some (base, index)) (hle : base ≤ x)
    (hlt : x < base + a.shmem.len)
    (hunique : ∀ b ∈ allocs, ∀ base' index', b.addrs.lookup pe = some (base', index') →
      base' ≤ x → x < base' + b.shmem.len → b = a) :
    allocs.localAddr build pe x =
      (build.sub x (base + a.size * index)).map (wrappingAdd a.addr) := by
  induction allocs with
  | nil => cases ha
  | cons b allocs ih =>
    have hrest := fun ha => ih ha fun c hc => hunique c (List.mem_cons_of_mem b hc)
    rw [Allocs.localAddr]
    rcases List.mem_cons.mp ha with rfl | ha
    · simp only [hlookup, if_pos (And.intro hle hlt)]
    · split
      · rename_i base' index' hlookup'
        split
        · rename_i hin
          obtain rfl := hunique b List.mem_cons_self base' index' hlookup' hin.1 hin.2
          rw [hlookup'] at hlookup
          cases hlookup
          rfl
        · exact hrest ha
      · exact hrest ha

/-- No segment of the PE has an entry of another PE. -/
def QuietAll (me : ℕ) (live : List (Segment numPes)) : Prop := ∀ s ∈ live, s.Quiet me

theorem Mapped.localAddr (h : Mapped me live allocs) (hs : s ∈ live) (hquiet : QuietAll me live)
    (hpe : pe ∈ s.pes) (hoff : off < s.size) :
    allocs.localAddr build pe (s.part pe pe + off) = some (s.part me me + off) := by
  have hin : s.InRange pe (s.part pe pe + off) := s.part_inRange hpe hoff
  rw [Allocs.localAddr_of_unique (h.allocation_mem hs) ((hquiet s hs).lookup hpe) hin.1 hin.2]
  · have hsub : build.sub (s.part pe pe + off)
        ((s.shmem pe).data + (s.allocation me).size * s.index pe) = some off :=
      (build.sub_of_le (Nat.le_add_right (s.part pe pe) off)).trans
        (congrArg some (Nat.add_sub_cancel_left _ _))
    rw [hsub, Option.map_some, Segment.allocation_addr,
      wrappingAdd_of_lt (Segment.part_lt_word (h.mem s hs) (h.mem s hs) hoff)]
  · intro b hb base index hlookup hle hlt
    obtain ⟨t, ht, rfl⟩ := h.exists_segment hb
    have hnumPes := s.lt pe hpe
    have hpt : pe ∈ t.pes := by
      by_contra hnot
      rw [Segment.lookup_allocation hnumPes,
        if_neg fun hlisted => hnot (((hquiet t ht).listed_iff hnumPes).mp hlisted)] at hlookup
      cases hlookup
    rw [(hquiet t ht).lookup hpt] at hlookup
    cases hlookup
    rw [h.eq_of_inRange hs ht hpe hpt hin ⟨hle, hlt⟩]

/-! ## Transfers -/

variable {β : Type} {mem : ℕ → β}

/-- Where `put` and `get` find the part of PE `pe`, by the position that the table has. -/
def Segment.target (s : Segment numPes) (me off pe : ℕ) : ℕ :=
  wrappingAdd ((s.shmem me).data + s.size * s.position me pe) off

theorem Segment.realAddr (hpe : pe < numPes) :
    Allocs.realAddr build (s.allocation me) pe (s.part me me + off) =
      if s.Listed me pe then some (s.target me off pe) else none := by
  have hsub : build.sub (s.part me me + off) (s.allocation me).addr = some off := by
    rw [allocation_addr, build.sub_of_le (Nat.le_add_right _ _), Nat.add_sub_cancel_left]
  rw [Allocs.realAddr, lookup_allocation hpe]
  split
  · simp only [hsub, Option.bind_eq_bind, Option.bind_some]
    rfl
  · rfl

theorem Segment.Quiet.target (h : s.Quiet me) (hme : me ∈ s.pes) (hpe : pe ∈ s.pes)
    (hoff : off < s.size) : s.target me off pe = s.part me pe + off := by
  rw [Segment.target, h.position_eq (s.lt pe hpe)]
  exact wrappingAdd_of_lt (part_lt_word hme hpe hoff)

theorem Mapped.put (h : Mapped me live allocs) (hs : s ∈ live) (hpe : pe < numPes)
    (hoff : off < s.size) (src : List β) :
    allocs.put build mem pe src (s.part me me + off) =
      if s.Listed me pe then some (Memory.write mem (s.target me off pe) src) else none := by
  simp only [Allocs.put, h.find?_contains hs (s.part_inRange (h.mem s hs) hoff),
    Segment.realAddr hpe]
  split <;> rfl

theorem Mapped.get (h : Mapped me live allocs) (hs : s ∈ live) (hpe : pe < numPes)
    (hoff : off < s.size) (dst : List β) :
    allocs.get build mem pe (s.part me me + off) dst =
      if s.Listed me pe then some (Memory.read mem (s.target me off pe) dst.length) else none := by
  simp only [Allocs.get, h.find?_contains hs (s.part_inRange (h.mem s hs) hoff),
    Segment.realAddr hpe]
  split <;> rfl

theorem Mapped.putAll (h : Mapped me live allocs) (hs : s ∈ live) (hoff : off < s.size)
    (src : List β) :
    allocs.putAll build numPes mem src (s.part me me + off) =
      if ∀ pe < numPes, s.Listed me pe then
        some (Memory.writeAll mem ((List.range numPes).map (s.target me off)) src) else none := by
  have hfold : ∀ l : List ℕ, (∀ pe ∈ l, pe < numPes) → ∀ mem : ℕ → β,
      l.foldlM (fun mem pe => allocs.put build mem pe src (s.part me me + off)) mem =
        if ∀ pe ∈ l, s.Listed me pe then
          some (Memory.writeAll mem (l.map (s.target me off)) src) else none := by
    intro l hl
    induction l with
    | nil => simp [Memory.writeAll]
    | cons pe l ih =>
      intro mem
      obtain ⟨hpe, hl⟩ := List.forall_mem_cons.mp hl
      simp only [List.foldlM_cons, h.put hs hpe hoff, List.forall_mem_cons]
      by_cases hlisted : s.Listed me pe
      · simp only [hlisted, if_true, true_and, Option.bind_eq_bind, Option.bind_some, ih hl]
        rfl
      · simp [hlisted]
  rw [Allocs.putAll, hfold _ fun pe hpe => List.mem_range.mp hpe]
  simp only [List.mem_range]

/-- A `put_all` writes the location of every PE of the segment and nothing else. -/
def Segment.PutsAll (s : Segment numPes) (build : Build) (allocs : Allocs) (me : ℕ) : Prop :=
  ∀ (mem : ℕ → UInt8) (src : List UInt8) (off : ℕ), off < s.size → off + src.length ≤ s.size →
    ∃ mem', allocs.putAll build numPes mem src (s.part me me + off) = some mem' ∧
      (∀ pe ∈ s.pes, Memory.read mem' (s.part me pe + off) src.length = src) ∧
      ∀ x, (∀ pe ∈ s.pes, x < s.part me pe + off ∨ s.part me pe + off + src.length ≤ x) →
        mem' x = mem x

variable (me) in
/-- A part ends before the next one. -/
theorem Segment.part_apart {q : ℕ} (hpe : pe ∈ s.pes) (hlt : pe < q) :
    s.part me pe + s.size ≤ s.part me q := by
  have hle := Nat.mul_le_mul_left s.size (Nat.succ_le_of_lt (s.index_lt_index hpe hlt))
  rw [Nat.mul_succ] at hle
  unfold part
  omega

theorem Mapped.putsAll (h : Mapped me live allocs) (hs : s ∈ live)
    (hall : ∀ pe < numPes, pe ∈ s.pes) : s.PutsAll build allocs me := by
  intro mem src off hoff hfit
  have hquiet : s.Quiet me := fun pe hpe hnot => absurd (hall pe hpe) hnot
  have htargets : (List.range numPes).map (s.target me off) =
      (List.range numPes).map fun pe => s.part me pe + off :=
    List.map_congr_left fun pe hpe =>
      hquiet.target (h.mem s hs) (hall pe (List.mem_range.mp hpe)) hoff
  have hlisted : ∀ pe < numPes, s.Listed me pe := fun pe hpe => Or.inl (hall pe hpe)
  rw [h.putAll hs hoff, if_pos hlisted, htargets]
  refine ⟨_, rfl, fun pe hpe => Memory.read_writeAll ?_ ?_, fun x hx =>
    Memory.writeAll_outside fun a ha => ?_⟩
  · refine List.pairwise_map.mpr (List.pairwise_lt_range.imp_of_mem fun {p q} hp _ hlt => ?_)
    have hapart := Segment.part_apart me (hall p (List.mem_range.mp hp)) hlt
    omega
  · exact List.mem_map.mpr ⟨pe, List.mem_range.mpr (s.lt pe hpe), rfl⟩
  · obtain ⟨pe, hpe, rfl⟩ := List.mem_map.mp ha
    exact hx pe (hall pe (List.mem_range.mp hpe))

/-- Where every PE has an entry, one byte for each of them does not fit in fewer parts. -/
theorem Mapped.not_putsAll (h : Mapped me live allocs) (hs : s ∈ live)
    (hlt : s.pes.length < numPes) : ¬ s.PutsAll build allocs me := by
  intro hputs
  obtain ⟨mem', hput, -, hframe⟩ := hputs (fun _ => 0) [1] 0 s.pos
    ((Nat.zero_add 1).trans_le s.pos)
  rw [h.putAll hs s.pos] at hput
  obtain ⟨hlisted, hput⟩ := Option.ite_none_right_eq_some.mp hput
  obtain rfl := Option.some.inj hput
  have hposition : s.position me s.pes.length = s.pes.length := by
    have hcount : (List.range s.pes.length).countP (s.Listed me ·) =
        (List.range s.pes.length).length := List.countP_eq_length.mpr fun q hq =>
      decide_eq_true (hlisted q ((List.mem_range.mp hq).trans hlt))
    rw [Segment.position, hcount, List.length_range]
  have htarget : s.target me 0 s.pes.length = s.stop me := by
    rw [Segment.target, hposition]
    exact wrappingAdd_of_lt (s.fits me (h.mem s hs))
  have hmem : s.target me 0 s.pes.length ∈ (List.range numPes).map (s.target me 0) :=
    List.mem_map_of_mem (List.mem_range.mpr hlt)
  have hwritten : Memory.writeAll (fun _ => (0 : UInt8)) _ [1] _ = 1 := Memory.writeAll_single hmem
  rw [htarget, hframe (s.stop me) fun pe hpe => Or.inr ?_] at hwritten
  · exact absurd hwritten (by decide)
  · have hle : s.part me pe + s.size ≤ s.stop me := Segment.part_le me hpe
    have hpos := s.pos
    rw [List.length_singleton]
    omega

theorem Mapped.putsAll_iff (h : Mapped me live allocs) (hs : s ∈ live) :
    s.PutsAll build allocs me ↔ ∀ pe < numPes, pe ∈ s.pes := by
  refine ⟨fun hputs => ?_, h.putsAll hs⟩
  by_contra hnot
  obtain ⟨p, hp, hmem⟩ : ∃ pe < numPes, pe ∉ s.pes := by
    by_contra hall
    exact hnot fun pe hpe => by_contra fun hmem => hall ⟨pe, hpe, hmem⟩
  have hsub : (p :: s.pes) ⊆ List.range numPes := by
    intro q hq
    rcases List.mem_cons.mp hq with rfl | hq
    · exact List.mem_range.mpr hp
    · exact List.mem_range.mpr (s.lt q hq)
  have hlength := (List.subperm_of_subset (List.nodup_cons.mpr ⟨hmem, s.nodup⟩) hsub).length_le
  rw [List.length_cons, List.length_range] at hlength
  exact h.not_putsAll hs hlength hputs

/-! ## What holds of every segment -/

/-- The address at `off` in the own part is translated there and back, and the transfers for it
go to the caller's mapping of the location. -/
structure Segment.Translates (s : Segment numPes) (build : Build) (allocs : Allocs)
    (me pe off : ℕ) : Prop where
  remoteAddr : allocs.remoteAddr build pe (s.part me me + off) = some (s.part pe pe + off)
  localAddr : allocs.localAddr build pe (s.part pe pe + off) = some (s.part me me + off)
  put : ∀ (mem : ℕ → UInt8) src, allocs.put build mem pe src (s.part me me + off) =
    some (Memory.write mem (s.part me pe + off) src)
  get : ∀ (mem : ℕ → UInt8) dst, allocs.get build mem pe (s.part me me + off) dst =
    some (Memory.read mem (s.part me pe + off) dst.length)

theorem Mapped.translates (h : Mapped me live allocs) (hs : s ∈ live) (hquiet : QuietAll me live)
    (hpe : pe ∈ s.pes) (hoff : off < s.size) : s.Translates build allocs me pe off := by
  have hlisted : s.Listed me pe := Or.inl hpe
  have htarget := (hquiet s hs).target (h.mem s hs) hpe hoff
  refine ⟨h.remoteAddr hs (hquiet s hs) hpe hoff, h.localAddr hs hquiet hpe hoff,
    fun mem src => ?_, fun mem dst => ?_⟩
  · rw [h.put hs (s.lt pe hpe) hoff, if_pos hlisted, htarget]
  · rw [h.get hs (s.lt pe hpe) hoff, if_pos hlisted, htarget]

/-- Addresses are translated for every PE of a segment. -/
def Segment.Correct (s : Segment numPes) (build : Build) (allocs : Allocs) (me : ℕ) : Prop :=
  (∀ pe ∈ s.pes, ∀ off < s.size, s.Translates build allocs me pe off) ∧ s.PutsAll build allocs me

/-- Everything holds of all segments of a PE exactly if they are segments of all PEs. `put_all`
is what goes wrong: the rest holds of the segments of any PEs, as long as no other PEs were
allocating when they were made. -/
theorem translation_exact (h : Session me live allocs) (build : Build) :
    ((∀ s ∈ live, s.Correct build allocs me) ↔ ∀ s ∈ live, ∀ pe < numPes, pe ∈ s.pes) ∧
    (∀ s ∈ live, s.PutsAll build allocs me ↔ ∀ pe < numPes, pe ∈ s.pes) ∧
    (QuietAll me live → ∀ s ∈ live, ∀ pe ∈ s.pes, ∀ off < s.size,
      s.Translates build allocs me pe off) := by
  have hmapped := h.mapped
  refine ⟨⟨fun hcorrect s hs => (hmapped.putsAll_iff hs).mp (hcorrect s hs).2, fun hall s hs =>
    ⟨fun pe hpe off hoff => ?_, (hmapped.putsAll_iff hs).mpr (hall s hs)⟩⟩,
    fun s hs => hmapped.putsAll_iff hs, fun hquiet s hs pe hpe off hoff =>
      hmapped.translates hs hquiet hpe hoff⟩
  have hquiet : QuietAll me live := fun t ht q hq hnot => absurd (hall t ht q hq) hnot
  exact hmapped.translates hs hquiet hpe hoff

/-- A segment of 16 bytes for each of two PEs. -/
def ofWorld : Segment 2 where
  pes := [0, 1]
  size := 16
  ptr pe := 4096 * (pe + 1)
  outside _ _ := 0
  nodup := by decide
  lt := by decide
  pos := by decide
  fits := by decide

/-- A segment of 8 bytes that PE 1 has for itself. -/
def ofSubteam : Segment 2 where
  pes := [1]
  size := 8
  ptr _ := 16384
  outside _ _ := 0
  nodup := by decide
  lt := by decide
  pos := Nat.succ_pos _
  fits := by decide

theorem session_ofWorld : Session 1 [ofWorld] [ofWorld.first 1] := .new (by decide) (by decide)

theorem translation_exact_ofWorld : ofWorld.Correct .checked [ofWorld.first 1] 1 :=
  (translation_exact session_ofWorld .checked).1.mpr (by decide) ofWorld List.mem_cons_self

/-- PE 0 has no part in the segment. -/
theorem put_all_panics : ∃ allocs, Session 1 [ofSubteam, ofWorld] allocs ∧
    ¬ ofSubteam.PutsAll .checked allocs 1 := by
  have hapart : ∀ t ∈ [ofWorld], ofSubteam.Apart t := by
    intro t ht
    rw [List.mem_singleton.mp ht]
    unfold Segment.Apart
    decide
  refine ⟨_, .alloc session_ofWorld hapart rfl, fun hputs => ?_⟩
  obtain ⟨mem', hput, -⟩ := hputs (fun _ => 0) [1] 0 (by decide) (by decide)
  cases hput

end Lamellar.Shmem
