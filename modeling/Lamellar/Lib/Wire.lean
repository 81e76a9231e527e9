import Mathlib.Data.List.Basic
import Mathlib.Algebra.Ring.Nat

/-!
# Fixed-width fields in byte buffers

Numbers are written with a fixed number of bytes, the lowest first, and a header is a list of
such fields. A buffer is written through a `Cursor` and read by `slice`; both fail outside of
the buffer. `Cursor.Wrote` says what has been written so far and `At` what is still to be
read, each with its rule for one access.
-/

namespace Lamellar.Wire

/-! ## Fields -/

def encodeLe : ℕ → ℕ → List UInt8
  | 0, _ => []
  | w + 1, n => UInt8.ofNat n :: encodeLe w (n / 256)

def decodeLe : List UInt8 → ℕ
  | [] => 0
  | b :: bs => b.toNat + 256 * decodeLe bs

theorem length_encodeLe (w n : ℕ) : (encodeLe w n).length = w := by
  induction w generalizing n with
  | zero => rfl
  | succ w ih => simp [encodeLe, ih]

theorem decodeLe_encodeLe {w n : ℕ} (h : n < 256 ^ w) : decodeLe (encodeLe w n) = n := by
  induction w generalizing n with
  | zero =>
    rw [Nat.pow_zero] at h
    simp [encodeLe, decodeLe]
    omega
  | succ w ih =>
    have hdiv : n / 256 < 256 ^ w := by
      rw [Nat.pow_succ, Nat.mul_comm] at h
      exact Nat.div_lt_of_lt_mul h
    simp only [encodeLe, decodeLe, ih hdiv, UInt8.toNat_ofNat']
    omega

/-- The lowest bytes -/
theorem take_encodeLe {k w : ℕ} (h : k ≤ w) (n : ℕ) : (encodeLe w n).take k = encodeLe k n := by
  induction k generalizing w n with
  | zero => rfl
  | succ k ih =>
    obtain ⟨w, rfl⟩ : ∃ v, w = v + 1 := ⟨w - 1, by omega⟩
    rw [encodeLe, encodeLe, List.take_succ_cons, ih (Nat.le_of_succ_le_succ h)]

/-- Fields, each with its width. -/
def encodeFields (fs : List (ℕ × ℕ)) : List UInt8 := fs.flatMap fun f => encodeLe f.1 f.2

def decodeFields : List ℕ → List UInt8 → List ℕ
  | [], _ => []
  | w :: ws, bs => decodeLe (bs.take w) :: decodeFields ws (bs.drop w)

theorem length_encodeFields (fs : List (ℕ × ℕ)) :
    (encodeFields fs).length = (fs.map Prod.fst).sum := by
  induction fs with
  | nil => rfl
  | cons f fs ih =>
    rw [encodeFields] at ih ⊢
    simp [length_encodeLe, ih]

theorem decodeFields_encodeFields (fs : List (ℕ × ℕ)) (h : ∀ f ∈ fs, f.2 < 256 ^ f.1) :
    decodeFields (fs.map Prod.fst) (encodeFields fs) = fs.map Prod.snd := by
  induction fs with
  | nil => rfl
  | cons f fs ih =>
    have hlen := length_encodeLe f.1 f.2
    have htake : (encodeFields (f :: fs)).take f.1 = encodeLe f.1 f.2 := by
      rw [encodeFields, List.flatMap_cons]
      exact List.take_left' hlen
    have hdrop : (encodeFields (f :: fs)).drop f.1 = encodeFields fs := by
      rw [encodeFields, List.flatMap_cons]
      exact List.drop_left' hlen
    simp only [List.map_cons, decodeFields, htake, hdrop,
      decodeLe_encodeLe (h f List.mem_cons_self),
      ih fun f hf => h f (List.mem_cons_of_mem _ hf)]

/-! ## Reading -/

/-- `data[i..i + n]` -/
def slice (data : List UInt8) (i n : ℕ) : Option (List UInt8) :=
  if i + n ≤ data.length then some ((data.drop i).take n) else none

/-- From position `i` on, the data are `bs`. -/
structure At (data : List UInt8) (i : ℕ) (bs : List UInt8) : Prop where
  drop : data.drop i = bs
  le : i ≤ data.length

theorem At.start (data : List UInt8) : At data 0 data := ⟨rfl, Nat.zero_le _⟩

variable {data bs rest : List UInt8} {i n : ℕ}

theorem At.slice (h : At data i (bs ++ rest)) (hn : bs.length = n) :
    slice data i n = some bs := by
  have hlen := congrArg List.length h.drop
  have hle := h.le
  rw [List.length_drop, List.length_append] at hlen
  rw [Wire.slice, if_pos (by omega), h.drop, List.take_left' hn]

theorem At.add (h : At data i (bs ++ rest)) (hn : bs.length = n) : At data (i + n) rest := by
  have hlen := congrArg List.length h.drop
  have hle := h.le
  rw [List.length_drop, List.length_append] at hlen
  refine ⟨?_, by omega⟩
  rw [← List.drop_drop, h.drop, List.drop_left' hn]

theorem At.lt (h : At data i bs) (hbs : bs ≠ []) : i < data.length := by
  have hlen := congrArg List.length h.drop
  have hpos := List.length_pos_iff.mpr hbs
  rw [List.length_drop] at hlen
  omega

theorem At.eq_length (h : At data i []) : i = data.length := by
  have hlen := congrArg List.length h.drop
  have hle := h.le
  rw [List.length_drop, List.length_nil] at hlen
  omega

/-- A step that reads the given bytes, wherever they are, and yields `x`. -/
def Reads {α : Type} (data : List UInt8) (f : ℕ → Option (α × ℕ)) (bs : List UInt8) (x : α) :
    Prop :=
  ∀ i rest, At data i (bs ++ rest) → f i = some (x, i + bs.length)

/-! ## Writing -/

structure Cursor where
  buf : List UInt8
  i : ℕ

/-- Write into `buf[i..i + n]` and go on behind it. -/
def Cursor.put (c : Cursor) (n : ℕ) (bs : List UInt8) : Option Cursor :=
  if c.i + n ≤ c.buf.length ∧ bs.length ≤ n then
    some ⟨c.buf.take c.i ++ bs ++ c.buf.drop (c.i + bs.length), c.i + n⟩
  else none

/-- The bytes up to the cursor are `out`, in a buffer of the given size. -/
structure Cursor.Wrote (c : Cursor) (size : ℕ) (out : List UInt8) : Prop where
  length : c.buf.length = size
  take : c.buf.take c.i = out
  i_eq : c.i = out.length

theorem Cursor.Wrote.start {buf : List UInt8} : (Cursor.mk buf 0).Wrote buf.length [] :=
  ⟨rfl, rfl, rfl⟩

theorem Cursor.Wrote.put {c : Cursor} {size : ℕ} {out bs : List UInt8} {n : ℕ}
    (h : c.Wrote size out) (hn : bs.length = n) (hroom : out.length + n ≤ size) :
    ∃ c', c.put n bs = some c' ∧ c'.Wrote size (out ++ bs) := by
  have hlen := h.length
  have hi := h.i_eq
  refine ⟨_, if_pos ⟨by omega, by omega⟩, ?_, ?_, ?_⟩
  · simp only [List.length_append, List.length_take, List.length_drop]
    omega
  · rw [h.take, List.append_assoc]
    have hlength : (out ++ bs).length = c.i + n := by
      rw [List.length_append]
      omega
    rw [← List.append_assoc]
    exact List.take_left' hlength
  · rw [List.length_append]
    dsimp only
    omega

/-- The whole buffer has been written. -/
theorem Cursor.Wrote.full {c : Cursor} {out : List UInt8} (h : c.Wrote out.length out) :
    c.buf = out ∧ c.i = out.length := by
  have htake := h.take
  rw [List.take_of_length_le (Nat.le_of_eq (h.length.trans h.i_eq.symm))] at htake
  exact ⟨htake, h.i_eq⟩

/-- A step that writes the given bytes, wherever there is room for them. -/
def Writes (size : ℕ) (f : Cursor → Option Cursor) (bs : List UInt8) : Prop :=
  ∀ c out, c.Wrote size out → out.length + bs.length ≤ size →
    ∃ c', f c = some c' ∧ c'.Wrote size (out ++ bs)

variable {size : ℕ} {f g : Cursor → Option Cursor} {bs' : List UInt8}

theorem Writes.put (hn : bs.length = n) : Writes size (fun c => c.put n bs) bs :=
  fun _ _ hc hroom => hc.put hn (hn ▸ hroom)

theorem Writes.nil : Writes size some [] := by
  intro c out hc _
  refine ⟨c, rfl, ?_⟩
  rw [List.append_nil]
  exact hc

theorem Writes.bind (hf : Writes size f bs) (hg : Writes size g bs') :
    Writes size (fun c => f c >>= g) (bs ++ bs') := by
  intro c out hc hroom
  rw [List.length_append] at hroom
  obtain ⟨c₁, h₁, hc₁⟩ := hf c out hc (by omega)
  obtain ⟨c₂, h₂, hc₂⟩ := hg c₁ (out ++ bs) hc₁ (by rw [List.length_append]; omega)
  refine ⟨c₂, ?_, by rwa [List.append_assoc] at hc₂⟩
  dsimp only
  rw [h₁]
  exact h₂

theorem Writes.foldlM {α : Type} {f : Cursor → α → Option Cursor} {enc : α → List UInt8}
    {es : List α} (h : ∀ e ∈ es, Writes size (fun c => f c e) (enc e)) :
    Writes size (fun c => es.foldlM f c) (es.flatMap enc) := by
  induction es with
  | nil => exact .nil
  | cons e es ih =>
    exact (h e List.mem_cons_self).bind (ih fun e he => h e (List.mem_cons_of_mem _ he))

end Lamellar.Wire
