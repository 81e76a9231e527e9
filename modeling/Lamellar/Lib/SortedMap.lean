import Mathlib.Data.List.Nodup
import Mathlib.Data.List.Pairwise
import Mathlib.Data.List.Perm.Basic
import Mathlib.Algebra.Ring.Nat

/-!
# Sorted maps

A `SortedMap` is a map with keys in `ℕ` as the list of its entries, in the order of the keys:
what `BTreeMap` is. Two maps with the same values are equal (`ext_get?`), and a change of one
key is a change of one entry (`perm_insert`, `perm_erase`).
-/

namespace Lamellar

structure SortedMap (V : Type) where
  entries : List (ℕ × V)
  sorted : entries.Pairwise fun a b => a.1 < b.1

namespace SortedMap

variable {V : Type} {m m' : SortedMap V} {k k' : ℕ} {v v' : V}

def empty : SortedMap V := ⟨[], .nil⟩

def get? (m : SortedMap V) (k : ℕ) : Option V := (m.entries.find? fun e => e.1 = k).map Prod.snd

def insertEntry (k : ℕ) (v : V) : List (ℕ × V) → List (ℕ × V)
  | [] => [(k, v)]
  | e :: es =>
    if k < e.1 then (k, v) :: e :: es
    else if k = e.1 then (k, v) :: es
    else e :: insertEntry k v es

theorem mem_insertEntry {es : List (ℕ × V)} {e : ℕ × V} (he : e ∈ insertEntry k v es) :
    e = (k, v) ∨ e ∈ es := by
  induction es with
  | nil => exact Or.inl (List.mem_singleton.mp he)
  | cons a es ih =>
    rw [insertEntry] at he
    split at he
    · exact List.mem_cons.mp he
    · split at he
      · rcases List.mem_cons.mp he with h | h
        · exact Or.inl h
        · exact Or.inr (List.mem_cons_of_mem _ h)
      · rcases List.mem_cons.mp he with rfl | h
        · exact Or.inr List.mem_cons_self
        · exact (ih h).imp_right (List.mem_cons_of_mem _)

theorem sorted_insertEntry {es : List (ℕ × V)} (h : es.Pairwise fun a b => a.1 < b.1) :
    (insertEntry k v es).Pairwise fun a b => a.1 < b.1 := by
  induction es with
  | nil => exact List.pairwise_singleton _ _
  | cons a es ih =>
    obtain ⟨ha, hes⟩ := List.pairwise_cons.mp h
    rw [insertEntry]
    split
    · rename_i hlt
      refine List.pairwise_cons.mpr ⟨fun b hb => ?_, h⟩
      rcases List.mem_cons.mp hb with rfl | hb
      · exact hlt
      · exact Nat.lt_trans hlt (ha b hb)
    · split
      · rename_i heq
        exact List.pairwise_cons.mpr ⟨fun b hb => heq ▸ ha b hb, hes⟩
      · refine List.pairwise_cons.mpr ⟨fun b hb => ?_, ih hes⟩
        rcases mem_insertEntry hb with rfl | hb
        · show a.1 < k
          omega
        · exact ha b hb

def insert (m : SortedMap V) (k : ℕ) (v : V) : SortedMap V :=
  ⟨insertEntry k v m.entries, sorted_insertEntry m.sorted⟩

def erase (m : SortedMap V) (k : ℕ) : SortedMap V :=
  ⟨m.entries.filter fun e => e.1 ≠ k, m.sorted.filter _⟩

def map {W : Type} (f : V → W) (m : SortedMap V) : SortedMap W :=
  ⟨m.entries.map fun e => (e.1, f e.2), List.pairwise_map.mpr m.sorted⟩

/-- The entry with the smallest key, and the other entries. -/
def popFirst (m : SortedMap V) : Option ((ℕ × V) × SortedMap V) :=
  m.entries.head?.map fun e => (e, m.erase e.1)

/-- The first entry from `k` on. -/
def firstFrom (m : SortedMap V) (k : ℕ) : Option (ℕ × V) := m.entries.find? fun e => k ≤ e.1

/-- The last entry below `k`. -/
def lastBelow (m : SortedMap V) (k : ℕ) : Option (ℕ × V) :=
  (m.entries.filter fun e => e.1 < k).getLast?

/-! ## The values -/

theorem key_inj {a b : ℕ × V} (ha : a ∈ m.entries) (hb : b ∈ m.entries) (hk : a.1 = b.1) :
    a = b := by
  by_contra hne
  have hpair : m.entries.Pairwise fun a b => a.1 ≠ b.1 := m.sorted.imp fun h => Nat.ne_of_lt h
  have : Std.Symm fun a b : ℕ × V => a.1 ≠ b.1 := ⟨fun _ _ h => h.symm⟩
  exact hpair.forall ha hb hne hk

theorem get?_eq_some_iff : m.get? k = some v ↔ (k, v) ∈ m.entries := by
  rw [get?, Option.map_eq_some_iff]
  constructor
  · rintro ⟨e, he, rfl⟩
    have hmem := List.mem_of_find?_eq_some he
    have hkey : e.1 = k := by simpa using List.find?_some he
    rwa [← hkey]
  · intro hmem
    cases hfind : m.entries.find? fun e => e.1 = k with
    | none =>
      have hnone := List.find?_eq_none.mp hfind (k, v) hmem
      simp at hnone
    | some e =>
      have hkey : e.1 = k := by simpa using List.find?_some hfind
      have heq := m.key_inj (List.mem_of_find?_eq_some hfind) hmem hkey
      exact ⟨e, rfl, congrArg Prod.snd heq⟩

theorem get?_eq_none_iff : m.get? k = none ↔ ∀ v, (k, v) ∉ m.entries := by
  rw [Option.eq_none_iff_forall_ne_some]
  exact forall_congr' fun v => not_congr get?_eq_some_iff

theorem get?_insertEntry {es : List (ℕ × V)} (h : es.Pairwise fun a b => a.1 < b.1) (v' : V) :
    (k', v') ∈ insertEntry k v es ↔ k' = k ∧ v' = v ∨ k' ≠ k ∧ (k', v') ∈ es := by
  induction es with
  | nil => simp [insertEntry]
  | cons a es ih =>
    obtain ⟨ha, hes⟩ := List.pairwise_cons.mp h
    obtain ⟨ka, va⟩ := a
    rw [insertEntry]
    split
    · rename_i hlt
      simp only [List.mem_cons, Prod.mk.injEq]
      constructor
      · rintro (hnew | hold | hmem)
        · exact Or.inl hnew
        · exact Or.inr ⟨by simp only at hlt; omega, Or.inl hold⟩
        · have := ha _ hmem
          exact Or.inr ⟨by simp only at hlt this; omega, Or.inr hmem⟩
      · rintro (hnew | ⟨-, hold⟩)
        · exact Or.inl hnew
        · exact Or.inr hold
    · split
      · rename_i heq
        simp only at heq
        subst heq
        simp only [List.mem_cons, Prod.mk.injEq]
        constructor
        · rintro (hnew | hmem)
          · exact Or.inl hnew
          · have := ha _ hmem
            exact Or.inr ⟨by simp only at this; omega, Or.inr hmem⟩
        · rintro (hnew | ⟨hne, hold | hmem⟩)
          · exact Or.inl hnew
          · exact absurd hold.1 hne
          · exact Or.inr hmem
      · rename_i hge hne
        simp only at hge hne
        simp only [List.mem_cons, Prod.mk.injEq, ih hes]
        constructor
        · rintro (hold | hnew | ⟨hk, hmem⟩)
          · exact Or.inr ⟨by omega, Or.inl hold⟩
          · exact Or.inl hnew
          · exact Or.inr ⟨hk, Or.inr hmem⟩
        · rintro (hnew | ⟨hk, hold | hmem⟩)
          · exact Or.inr (Or.inl hnew)
          · exact Or.inl hold
          · exact Or.inr (Or.inr ⟨hk, hmem⟩)

theorem get?_insert (m : SortedMap V) (k k' : ℕ) (v : V) :
    (m.insert k v).get? k' = if k' = k then some v else m.get? k' := by
  refine Option.ext fun v' => ?_
  rw [get?_eq_some_iff]
  refine (get?_insertEntry m.sorted v').trans ?_
  split
  · rename_i hk
    simp [hk, eq_comm]
  · rename_i hk
    simp [hk, get?_eq_some_iff]

theorem get?_erase (m : SortedMap V) (k k' : ℕ) :
    (m.erase k).get? k' = if k' = k then none else m.get? k' := by
  refine Option.ext fun v' => ?_
  rw [get?_eq_some_iff]
  simp only [erase, List.mem_filter, decide_eq_true_eq]
  split
  · rename_i hk
    simp [hk]
  · rename_i hk
    simp [hk, get?_eq_some_iff]

theorem get?_map {W : Type} (f : V → W) (m : SortedMap V) (k : ℕ) :
    (m.map f).get? k = (m.get? k).map f := by
  simp only [get?, map, List.find?_map, Option.map_map]
  rfl

/-- There is one entry for a key at most. -/
theorem filter_key (m : SortedMap V) (k : ℕ) :
    (m.entries.filter fun e => e.1 = k) = ((m.get? k).map fun v => (k, v)).toList := by
  obtain ⟨es, hes⟩ := m
  simp only [get?]
  induction es with
  | nil => rfl
  | cons e es ih =>
    obtain ⟨he, hrest⟩ := List.pairwise_cons.mp hes
    rw [List.filter_cons, List.find?_cons]
    by_cases hk : e.1 = k
    · have hnil : es.filter (fun e => e.1 = k) = [] := by
        refine List.filter_eq_nil_iff.mpr fun e' he' => ?_
        have hlt := he e' he'
        simp only [decide_eq_true_eq]
        omega
      subst hk
      simp [hnil]
    · simp [hk, ih hrest]

theorem nodup_entries (m : SortedMap V) : m.entries.Nodup :=
  m.sorted.imp fun hlt heq => Nat.ne_of_lt hlt (congrArg Prod.fst heq)

/-- A map is its values. -/
theorem ext_get? (h : ∀ k, m.get? k = m'.get? k) : m = m' := by
  have hperm : m.entries.Perm m'.entries := by
    refine (List.perm_ext_iff_of_nodup m.nodup_entries m'.nodup_entries).mpr fun e => ?_
    rw [← get?_eq_some_iff (m := m), ← get?_eq_some_iff (m := m'), h]
  have heq := hperm.eq_of_pairwise (fun a b _ _ hab hba => absurd hab (by omega)) m.sorted
    m'.sorted
  cases m
  cases m'
  cases heq
  rfl

theorem perm_insert (h : m.get? k = none) : (m.insert k v).entries.Perm ((k, v) :: m.entries) := by
  have hnot := get?_eq_none_iff.mp h
  have hnodup : ((k, v) :: m.entries).Nodup := List.nodup_cons.mpr ⟨hnot v, m.nodup_entries⟩
  refine (List.perm_ext_iff_of_nodup (m.insert k v).nodup_entries hnodup).mpr fun e => ?_
  obtain ⟨k', v'⟩ := e
  rw [List.mem_cons, Prod.mk.injEq]
  refine (get?_insertEntry m.sorted v').trans ?_
  constructor
  · exact Or.imp_right And.right
  · rintro (hnew | hmem)
    · exact Or.inl hnew
    · refine Or.inr ⟨?_, hmem⟩
      rintro rfl
      exact hnot v' hmem

theorem perm_erase (h : m.get? k = some v) : m.entries.Perm ((k, v) :: (m.erase k).entries) := by
  have hmem := get?_eq_some_iff.mp h
  have hnodup : ((k, v) :: (m.erase k).entries).Nodup := by
    refine List.nodup_cons.mpr ⟨?_, (m.erase k).nodup_entries⟩
    simp [erase]
  refine (List.perm_ext_iff_of_nodup m.nodup_entries hnodup).mpr fun e => ?_
  rw [List.mem_cons]
  constructor
  · intro he
    by_cases hk : e.1 = k
    · exact Or.inl (m.key_inj he hmem hk)
    · exact Or.inr (List.mem_filter.mpr ⟨he, by simpa using hk⟩)
  · rintro (rfl | he)
    · exact hmem
    · exact List.mem_of_mem_filter he

/-! ## Queries -/

theorem erase_first {e : ℕ × V} {es : List (ℕ × V)} (h : m.entries = e :: es) :
    (m.erase e.1).entries = es := by
  have hsorted := m.sorted
  rw [h] at hsorted
  have hne : ∀ a ∈ es, decide (a.1 ≠ e.1) = true := fun a ha => by
    have hlt := (List.pairwise_cons.mp hsorted).1 a ha
    exact decide_eq_true (Nat.ne_of_gt hlt)
  show m.entries.filter (fun a => a.1 ≠ e.1) = es
  rw [h, List.filter_cons_of_neg (by simp), List.filter_eq_self.mpr hne]

theorem popFirst_eq {e : ℕ × V} {es : List (ℕ × V)} (h : m.entries = e :: es) :
    m.popFirst = some (e, m.erase e.1) := by
  rw [popFirst, h]
  rfl

theorem insert_first (h : ∀ e ∈ m.entries, k < e.1) :
    (m.insert k v).entries = (k, v) :: m.entries := by
  show insertEntry k v m.entries = (k, v) :: m.entries
  cases hentries : m.entries with
  | nil => rfl
  | cons e es =>
    have hlt := h e (hentries ▸ List.mem_cons_self)
    simp only [insertEntry, if_pos hlt]

theorem firstFrom_eq_some {e : ℕ × V} (h : m.firstFrom k = some e) :
    k ≤ e.1 ∧ m.get? e.1 = some e.2 := by
  refine ⟨by simpa using List.find?_some h, get?_eq_some_iff.mpr ?_⟩
  exact List.mem_of_find?_eq_some h

theorem firstFrom_eq_none (h : m.firstFrom k = none) {e : ℕ × V} (he : e ∈ m.entries) :
    e.1 < k := by
  have hnot := List.find?_eq_none.mp h e he
  simpa using hnot

/-- The first entry from `k` on is the first. -/
theorem firstFrom_le {e : ℕ × V} (h : m.firstFrom k = some e) (hget : m.get? k' = some v)
    (hk : k ≤ k') : e.1 ≤ k' := by
  obtain ⟨-, pre, post, hentries, hpre⟩ := List.find?_eq_some_iff_append.mp h
  have hsorted := m.sorted
  have hmem := get?_eq_some_iff.mp hget
  rw [hentries] at hsorted hmem
  rcases List.mem_append.mp hmem with hmem | hmem
  · simpa [hk] using hpre (k', v) hmem
  · rcases List.mem_cons.mp hmem with heq | hmem
    · exact Nat.le_of_eq (congrArg Prod.fst heq).symm
    · exact Nat.le_of_lt ((List.pairwise_cons.mp (List.pairwise_append.mp hsorted).2.1).1 _ hmem)

theorem firstFrom_eq (hget : m.get? k' = some v) (hk : k ≤ k')
    (hnone : ∀ x, k ≤ x → x < k' → m.get? x = none) : m.firstFrom k = some (k', v) := by
  cases hfirst : m.firstFrom k with
  | none =>
    have hlt := firstFrom_eq_none hfirst (get?_eq_some_iff.mp hget)
    exact absurd hk (Nat.not_le.mpr hlt)
  | some e =>
    obtain ⟨hle, he⟩ := firstFrom_eq_some hfirst
    have hkey : e.1 = k' := by
      rcases Nat.lt_or_eq_of_le (firstFrom_le hfirst hget hk) with hlt | heq
      · rw [hnone e.1 hle hlt] at he
        cases he
      · exact heq
    rw [hkey, hget] at he
    cases he
    rw [← hkey]

theorem lastBelow_eq_some {e : ℕ × V} (h : m.lastBelow k = some e) :
    e.1 < k ∧ m.get? e.1 = some e.2 := by
  obtain ⟨hmem, hlt⟩ := List.mem_filter.mp (List.mem_of_getLast? h)
  exact ⟨by simpa using hlt, get?_eq_some_iff.mpr hmem⟩

theorem lastBelow_eq_none (h : m.lastBelow k = none) (hget : m.get? k' = some v) : k ≤ k' := by
  rw [lastBelow, List.getLast?_eq_none_iff, List.filter_eq_nil_iff] at h
  simpa using h (k', v) (get?_eq_some_iff.mp hget)

/-- The last entry below `k` is the last. -/
theorem le_lastBelow {e : ℕ × V} (h : m.lastBelow k = some e) (hget : m.get? k' = some v)
    (hk : k' < k) : k' ≤ e.1 := by
  have hmem : (k', v) ∈ m.entries.filter fun e => e.1 < k :=
    List.mem_filter.mpr ⟨get?_eq_some_iff.mp hget, by simpa using hk⟩
  have hsorted := m.sorted.filter fun e => decide (e.1 < k)
  have hconcat := List.dropLast_append_getLast? e h
  rw [← hconcat] at hmem hsorted
  rcases List.mem_append.mp hmem with hmem | hmem
  · exact Nat.le_of_lt ((List.pairwise_append.mp hsorted).2.2 _ hmem e (List.mem_singleton_self e))
  · exact Nat.le_of_eq (congrArg Prod.fst (List.mem_singleton.mp hmem))

theorem lastBelow_eq (hget : m.get? k' = some v) (hk : k' < k)
    (hnone : ∀ x, k' < x → x < k → m.get? x = none) : m.lastBelow k = some (k', v) := by
  cases hlast : m.lastBelow k with
  | none => exact absurd hk (Nat.not_lt.mpr (lastBelow_eq_none hlast hget))
  | some e =>
    obtain ⟨hlt, he⟩ := lastBelow_eq_some hlast
    have hkey : e.1 = k' := by
      rcases Nat.lt_or_eq_of_le (le_lastBelow hlast hget hk) with hgt | heq
      · rw [hnone e.1 hgt hlt] at he
        cases he
      · exact heq.symm
    rw [hkey, hget] at he
    cases he
    rw [← hkey]

end SortedMap

end Lamellar
