import Mathlib.Data.Nat.Find
import Lamellar.TaskGroup.GroupRuns

/-!
# The batches of a typed group

Which messages share a batch depends on the calls alone. A call sends the buffer that it adds to
if the number of calls is then a multiple of `num_per_batch` (`Sends`); `waiting` are the messages
in a buffer, `sent` the batches that have been sent, and `batches` those of a group when `exec`
has sent the rest. Every message is in one batch (`exists_batch`, `nodup_ids`), and two share one
if they are for the same PE and it has not been sent between them (`share_iff`).
-/

namespace Lamellar.TaskGroup

variable {V T : Type} {s : Shape}

/-- The key of the buffer for a destination -/
def Dest.key (numPes : ℕ) : Dest → ℕ
  | .all => numPes
  | .pe p => p

/-! ## Batches -/

/-- The messages of a `GroupAm`, each with its number, for the PE with key `key` -/
structure Batch (V : Type) (s : Shape) where
  key : ℕ
  first : ℕ × Am V s
  others : List (ℕ × Am V s)

namespace Batch

def entries (b : Batch V s) : List (ℕ × Am V s) := b.first :: b.others

def ids (b : Batch V s) : List ℕ := b.entries.map Prod.fst

def group (b : Batch V s) : GroupAm V s := .ofList b.first.2 (b.others.map Prod.snd)

def request (b : Batch V s) : TypedAmGroupBatchReq V s := ⟨b.key, b.ids, b.group⟩

/-- The batch of the messages that wait, if there are any -/
def of? (key : ℕ) : List (ℕ × Am V s) → Option (Batch V s)
  | [] => none
  | e :: es => some ⟨key, e, es⟩

def snoc (key : ℕ) (es : List (ℕ × Am V s)) (e : ℕ × Am V s) : Batch V s :=
  match es with
  | [] => ⟨key, e, []⟩
  | e' :: es => ⟨key, e', es ++ [e]⟩

theorem entries_snoc (key : ℕ) (es : List (ℕ × Am V s)) (e : ℕ × Am V s) :
    (snoc key es e).entries = es ++ [e] := by
  cases es <;> rfl

theorem key_snoc (key : ℕ) (es : List (ℕ × Am V s)) (e : ℕ × Am V s) :
    (snoc key es e).key = key := by
  cases es <;> rfl

theorem of?_append (key : ℕ) (es : List (ℕ × Am V s)) (e : ℕ × Am V s) :
    of? key (es ++ [e]) = some (snoc key es e) := by
  cases es <;> rfl

theorem of?_eq_some {key : ℕ} {es : List (ℕ × Am V s)} {b : Batch V s} (h : of? key es = some b) :
    b.key = key ∧ b.entries = es := by
  cases es with
  | nil => cases h
  | cons e es =>
    cases h
    exact ⟨rfl, rfl⟩

end Batch

/-! ## The calls -/

section Calls

variable (numPes limit : ℕ) (ops : List (Dest × Am V s))

/-- Call number `m` sends the buffer with key `key`. -/
def Sends (m key : ℕ) : Prop :=
  (∃ op, ops[m]? = some op ∧ op.1.key numPes = key) ∧ limit ∣ m + 1

/-- Call number `k` adds the message `a` to the buffer with key `key`. -/
def Adds (key k : ℕ) (a : Am V s) : Prop :=
  ∃ op, ops[k]? = some op ∧ op.1.key numPes = key ∧ op.2 = a

/-- After `n` calls, the message `a` that call number `k` has added is in the buffer. -/
def Waits (key n k : ℕ) (a : Am V s) : Prop :=
  k < n ∧ Adds numPes ops key k a ∧ ∀ m, k ≤ m → m < n → ¬ Sends numPes limit ops m key

/-- The messages in the buffer with key `key` after `n` calls -/
def waiting (key : ℕ) : ℕ → List (ℕ × Am V s)
  | 0 => []
  | n + 1 =>
    match ops[n]? with
    | some op =>
      if op.1.key numPes = key then
        if limit ∣ n + 1 then [] else waiting key n ++ [(n, op.2)]
      else waiting key n
    | none => waiting key n

/-- The batches that have been sent after `n` calls -/
def sent : ℕ → List (Batch V s)
  | 0 => []
  | n + 1 =>
    match ops[n]? with
    | some op =>
      if limit ∣ n + 1 then
        sent n ++ [.snoc (op.1.key numPes) (waiting numPes limit ops (op.1.key numPes) n) (n, op.2)]
      else sent n
    | none => sent n

/-- The batches, when `exec` has sent the buffers. -/
def batches : List (Batch V s) :=
  sent numPes limit ops ops.length ++ (List.range (numPes + 1)).filterMap fun key =>
    Batch.of? key (waiting numPes limit ops key ops.length)

end Calls

variable {numPes limit : ℕ} {ops : List (Dest × Am V s)} {key k n : ℕ} {a : Am V s}

theorem waits_succ : Waits numPes limit ops key (n + 1) k a ↔
    ¬ Sends numPes limit ops n key ∧
      (Waits numPes limit ops key n k a ∨ k = n ∧ Adds numPes ops key n a) := by
  constructor
  · rintro ⟨hk, hadds, hno⟩
    refine ⟨hno n (Nat.le_of_lt_succ hk) (Nat.lt_succ_self n), ?_⟩
    rcases Nat.eq_or_lt_of_le (Nat.le_of_lt_succ hk) with rfl | hk
    · exact Or.inr ⟨rfl, hadds⟩
    · exact Or.inl ⟨hk, hadds, fun m hm hmn => hno m hm (Nat.lt_succ_of_lt hmn)⟩
  · rintro ⟨hnot, ⟨hk, hadds, hno⟩ | ⟨rfl, hadds⟩⟩
    · refine ⟨Nat.lt_succ_of_lt hk, hadds, fun m hm hmn => ?_⟩
      rcases Nat.eq_or_lt_of_le (Nat.le_of_lt_succ hmn) with rfl | hmn
      · exact hnot
      · exact hno m hm hmn
    · refine ⟨Nat.lt_succ_self k, hadds, fun m hm hmn => ?_⟩
      rwa [← Nat.le_antisymm hm (Nat.le_of_lt_succ hmn)]

theorem mem_waiting_iff :
    (k, a) ∈ waiting numPes limit ops key n ↔ Waits numPes limit ops key n k a := by
  induction n with
  | zero => simp [waiting, Waits]
  | succ n ih =>
    rw [waits_succ, waiting, ← ih]
    cases hop : ops[n]? with
    | none => simp [Sends, Adds, hop]
    | some op =>
      by_cases hkey : op.1.key numPes = key
      · by_cases hdvd : limit ∣ n + 1
        · simp [Sends, hop, hkey, hdvd]
        · simp [Sends, Adds, hop, hkey, hdvd, eq_comm]
      · simp [Sends, Adds, hop, hkey]

theorem Adds.unique {key' : ℕ} {a' : Am V s} (h : Adds numPes ops key k a)
    (h' : Adds numPes ops key' k a') : key = key' ∧ a = a' := by
  obtain ⟨op, hop, rfl, rfl⟩ := h
  obtain ⟨op', hop', rfl, rfl⟩ := h'
  rw [hop] at hop'
  cases hop'
  exact ⟨rfl, rfl⟩

theorem mem_sent_iff {b : Batch V s} : b ∈ sent numPes limit ops n ↔ ∃ m < n, ∃ op,
    ops[m]? = some op ∧ limit ∣ m + 1 ∧ b = .snoc (op.1.key numPes)
      (waiting numPes limit ops (op.1.key numPes) m) (m, op.2) := by
  induction n with
  | zero => simp [sent]
  | succ n ih =>
    have hlast : ∀ P : ℕ → Prop, (∃ m < n + 1, P m) ↔ (∃ m < n, P m) ∨ P n := by
      intro P
      constructor
      · rintro ⟨m, hm, h⟩
        rcases Nat.eq_or_lt_of_le (Nat.le_of_lt_succ hm) with rfl | hm
        · exact Or.inr h
        · exact Or.inl ⟨m, hm, h⟩
      · rintro (⟨m, hm, h⟩ | h)
        · exact ⟨m, Nat.lt_succ_of_lt hm, h⟩
        · exact ⟨n, Nat.lt_succ_self n, h⟩
    rw [hlast, ← ih, sent]
    cases hop : ops[n]? with
    | none => simp
    | some op => by_cases hdvd : limit ∣ n + 1 <;> simp [hdvd]

/-- Call number `m` closes the batch: its messages have been in the buffer until then. -/
def Batch.Closed (numPes limit : ℕ) (ops : List (Dest × Am V s)) (m : ℕ) (b : Batch V s) : Prop :=
  ∀ k a, (k, a) ∈ b.entries ↔ k ≤ m ∧ Adds numPes ops b.key k a ∧
    ∀ m', k ≤ m' → m' < m → ¬ Sends numPes limit ops m' b.key

theorem closed_snoc {m : ℕ} {op : Dest × Am V s} (hop : ops[m]? = some op) :
    (Batch.snoc (op.1.key numPes) (waiting numPes limit ops (op.1.key numPes) m)
      (m, op.2)).Closed numPes limit ops m := by
  intro k a
  rw [Batch.key_snoc, Batch.entries_snoc, List.mem_append, mem_waiting_iff, List.mem_singleton]
  constructor
  · rintro (⟨hk, hadds, hno⟩ | heq)
    · exact ⟨Nat.le_of_lt hk, hadds, hno⟩
    · cases heq
      exact ⟨Nat.le_refl _, ⟨op, hop, rfl, rfl⟩, fun m' hm hlt => absurd hm (Nat.not_le.mpr hlt)⟩
  · rintro ⟨hk, hadds, hno⟩
    rcases Nat.eq_or_lt_of_le hk with rfl | hk
    · have ha := (hadds.unique ⟨op, hop, rfl, rfl⟩).2
      exact Or.inr (by rw [ha])
    · exact Or.inl ⟨hk, hadds, hno⟩

theorem closed_sent {b : Batch V s} (hb : b ∈ sent numPes limit ops n) :
    ∃ m < n, Sends numPes limit ops m b.key ∧ b.Closed numPes limit ops m := by
  obtain ⟨m, hm, op, hop, hdvd, rfl⟩ := mem_sent_iff.mp hb
  refine ⟨m, hm, ⟨⟨op, hop, ?_⟩, hdvd⟩, closed_snoc hop⟩
  rw [Batch.key_snoc]

theorem Adds.lt (h : Adds numPes ops key k a) : k < ops.length := by
  obtain ⟨op, hop, -⟩ := h
  exact (List.getElem?_eq_some_iff.mp hop).1

theorem closed_of? {b : Batch V s}
    (hb : Batch.of? key (waiting numPes limit ops key ops.length) = some b) :
    b.key = key ∧ b.Closed numPes limit ops ops.length := by
  obtain ⟨hkey, hentries⟩ := Batch.of?_eq_some hb
  refine ⟨hkey, fun k a => ?_⟩
  rw [hentries, mem_waiting_iff, hkey]
  exact ⟨fun ⟨hk, hadds, hno⟩ => ⟨Nat.le_of_lt hk, hadds, hno⟩,
    fun ⟨_, hadds, hno⟩ => ⟨hadds.lt, hadds, hno⟩⟩

theorem mem_batches_iff {b : Batch V s} : b ∈ batches numPes limit ops ↔
    b ∈ sent numPes limit ops ops.length ∨
      ∃ key ≤ numPes, Batch.of? key (waiting numPes limit ops key ops.length) = some b := by
  simp only [batches, List.mem_append, List.mem_filterMap, List.mem_range, Nat.lt_add_one_iff]

theorem closed_batches {b : Batch V s} (hb : b ∈ batches numPes limit ops) :
    ∃ m, b.Closed numPes limit ops m := by
  rcases mem_batches_iff.mp hb with hb | ⟨key, -, hb⟩
  · obtain ⟨m, -, -, hclosed⟩ := closed_sent hb
    exact ⟨m, hclosed⟩
  · exact ⟨_, (closed_of? hb).2⟩

/-- The messages of a batch are those that its calls have added. -/
theorem adds_of_mem {b : Batch V s} (hb : b ∈ batches numPes limit ops)
    (hk : (k, a) ∈ b.entries) : Adds numPes ops b.key k a := by
  obtain ⟨m, hclosed⟩ := closed_batches hb
  exact ((hclosed k a).mp hk).2.1

/-- Two messages share a batch when it has not been sent between them. -/
theorem share_iff {b : Batch V s} (hb : b ∈ batches numPes limit ops) (hk : (k, a) ∈ b.entries)
    {j : ℕ} (hjk : j < k) (a' : Am V s) : (j, a') ∈ b.entries ↔
      Adds numPes ops b.key j a' ∧ ∀ m, j ≤ m → m < k → ¬ Sends numPes limit ops m b.key := by
  obtain ⟨m, hclosed⟩ := closed_batches hb
  obtain ⟨hkm, -, hno⟩ := (hclosed k a).mp hk
  rw [hclosed]
  constructor
  · exact fun ⟨_, hadds, hno'⟩ => ⟨hadds, fun m' hj hm' => hno' m' hj (by omega)⟩
  · rintro ⟨hadds, hno'⟩
    refine ⟨by omega, hadds, fun m' hj hm' => ?_⟩
    rcases Nat.lt_or_ge m' k with hlt | hge
    · exact hno' m' hj hlt
    · exact hno m' hge hm'

theorem exists_sent_or_waits (hk : k < n) (hadds : Adds numPes ops key k a) :
    (∃ b ∈ sent numPes limit ops n, b.key = key ∧ (k, a) ∈ b.entries) ∨
      Waits numPes limit ops key n k a := by
  by_cases hsends : ∃ m, k ≤ m ∧ m < n ∧ Sends numPes limit ops m key
  · left
    classical
    obtain ⟨hkm, hmn, hsend⟩ := Nat.find_spec hsends
    obtain ⟨⟨op, hop, rfl⟩, hdvd⟩ := hsend
    refine ⟨_, mem_sent_iff.mpr ⟨_, hmn, op, hop, hdvd, rfl⟩, Batch.key_snoc _ _ _, ?_⟩
    rw [closed_snoc hop, Batch.key_snoc]
    refine ⟨hkm, hadds, fun m' hk' hlt hsend => ?_⟩
    exact Nat.find_min hsends hlt ⟨hk', Nat.lt_trans hlt hmn, hsend⟩
  · exact Or.inr ⟨hk, hadds, fun m hkm hmn hsend => hsends ⟨m, hkm, hmn, hsend⟩⟩

variable (limit) in
/-- Every message is in a batch. -/
theorem exists_batch (hkey : key ≤ numPes) (hadds : Adds numPes ops key k a) :
    ∃ b ∈ batches numPes limit ops, b.key = key ∧ (k, a) ∈ b.entries := by
  rcases exists_sent_or_waits hadds.lt hadds with ⟨b, hb, hmem⟩ | hwaits
  · exact ⟨b, mem_batches_iff.mpr (Or.inl hb), hmem⟩
  · have hmem := mem_waiting_iff.mpr hwaits
    cases hof : Batch.of? key (waiting numPes limit ops key ops.length) with
    | none =>
      cases hes : waiting numPes limit ops key ops.length with
      | nil =>
        rw [hes] at hmem
        cases hmem
      | cons e es =>
        rw [hes] at hof
        cases hof
    | some b =>
      obtain ⟨hb, hentries⟩ := Batch.of?_eq_some hof
      exact ⟨b, mem_batches_iff.mpr (Or.inr ⟨key, hkey, hof⟩), hb, hentries ▸ hmem⟩

theorem waiting_sorted :
    ((waiting numPes limit ops key n).map Prod.fst).Pairwise (· < ·) := by
  induction n with
  | zero => exact .nil
  | succ n ih =>
    rw [waiting]
    cases hop : ops[n]? with
    | none => exact ih
    | some op =>
      dsimp only
      split
      · split
        · exact .nil
        · rw [List.map_append, List.pairwise_append]
          refine ⟨ih, List.pairwise_singleton _ _, fun k hk m hm => ?_⟩
          obtain ⟨⟨k, a⟩, hmem, rfl⟩ := List.mem_map.mp hk
          rw [List.map_singleton, List.mem_singleton] at hm
          rw [hm]
          exact (mem_waiting_iff.mp hmem).1
      · exact ih

theorem ids_sorted {b : Batch V s} (hb : b ∈ batches numPes limit ops) :
    b.ids.Pairwise (· < ·) := by
  rcases mem_batches_iff.mp hb with hb | ⟨key, -, hb⟩
  · obtain ⟨m, -, op, hop, -, rfl⟩ := mem_sent_iff.mp hb
    rw [Batch.ids, Batch.entries_snoc, List.map_append, List.pairwise_append]
    refine ⟨waiting_sorted, List.pairwise_singleton _ _, fun k hk m' hm' => ?_⟩
    obtain ⟨⟨k, a⟩, hmem, rfl⟩ := List.mem_map.mp hk
    rw [List.map_singleton, List.mem_singleton] at hm'
    rw [hm']
    exact (mem_waiting_iff.mp hmem).1
  · rw [Batch.ids, (Batch.of?_eq_some hb).2]
    exact waiting_sorted

/-- The number of a message in one of two batches -/
theorem apart_of_sends {b b' : Batch V s} {m m' : ℕ} (hb : b.Closed numPes limit ops m)
    (hsends : Sends numPes limit ops m b.key) (hb' : b'.Closed numPes limit ops m')
    (hlt : m < m') : b.ids.Disjoint b'.ids := by
  intro k hk hk'
  obtain ⟨⟨k, a⟩, hmem, rfl⟩ := List.mem_map.mp hk
  obtain ⟨⟨k', a'⟩, hmem', heq⟩ := List.mem_map.mp hk'
  obtain rfl : k' = k := heq
  obtain ⟨hkm, hadds, -⟩ := (hb k' a).mp hmem
  obtain ⟨-, hadds', hno⟩ := (hb' k' a').mp hmem'
  rw [(hadds.unique hadds').1] at hsends
  exact hno m hkm hlt hsends

theorem pairwise_sent : (sent numPes limit ops n).Pairwise fun b b' => b.ids.Disjoint b'.ids := by
  induction n with
  | zero => exact .nil
  | succ n ih =>
    rw [sent]
    cases hop : ops[n]? with
    | none => exact ih
    | some op =>
      dsimp only
      split
      · rw [List.pairwise_append]
        refine ⟨ih, List.pairwise_singleton _ _, fun b hb b' hb' => ?_⟩
        obtain rfl := List.mem_singleton.mp hb'
        obtain ⟨m, hm, hsends, hclosed⟩ := closed_sent hb
        exact apart_of_sends hclosed hsends (closed_snoc hop) hm
      · exact ih

/-- No message is in two batches. -/
theorem nodup_ids : ((batches numPes limit ops).flatMap Batch.ids).Nodup := by
  refine List.nodup_flatMap.mpr ⟨fun b hb => (ids_sorted hb).imp Nat.ne_of_lt, ?_⟩
  rw [batches, List.pairwise_append]
  refine ⟨pairwise_sent, ?_, fun b hb b' hb' => ?_⟩
  · refine List.pairwise_filterMap.mpr (List.pairwise_lt_range.imp fun hlt b hb b' hb' => ?_)
    obtain ⟨hkey, hclosed⟩ := closed_of? hb
    obtain ⟨hkey', hclosed'⟩ := closed_of? hb'
    intro k hk hk'
    obtain ⟨⟨k, a⟩, hmem, rfl⟩ := List.mem_map.mp hk
    obtain ⟨⟨k', a'⟩, hmem', heq⟩ := List.mem_map.mp hk'
    obtain rfl : k' = k := heq
    have hsame := (((hclosed k' a).mp hmem).2.1.unique ((hclosed' k' a').mp hmem').2.1).1
    omega
  · obtain ⟨m, hm, hsends, hclosed⟩ := closed_sent hb
    obtain ⟨key, -, hof⟩ := List.mem_filterMap.mp hb'
    exact apart_of_sends hclosed hsends (closed_of? hof).2 hm

end Lamellar.TaskGroup
