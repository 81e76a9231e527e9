import Lamellar.Batching.RoundTrip
import Lamellar.TaskGroup.Model

/-!
# An `AmGroupAm` is read back as its messages

`serialize_into` writes exactly `serialized_size` bytes, and `am_group_am_unpack` reads them as a
message whose range is the whole of what was in the range of the one written.
-/

namespace Lamellar.TaskGroup

open Batching (AmId toNat_lt_pow_four)
open Wire

variable {A : Type} {C : AmCodec A}

namespace AmGroupAm

/-- What is written of one message. -/
def encodeAm (C : AmCodec A) (am : A) : List UInt8 :=
  encodeLe idLen (C.amId am).toUInt32.toNat ++ C.serialize am

def encode (C : AmCodec A) (ams : List A) : List UInt8 :=
  encodeLe numLen ams.length ++ ams.flatMap (encodeAm C)

theorem length_encodeAm (hC : C.Lawful) (am : A) :
    (encodeAm C am).length = idLen + C.serializedSize am := by
  rw [encodeAm, List.length_append, length_encodeLe, hC.length_serialize]

theorem foldl_size (hC : C.Lawful) (ams : List A) (size : ℕ) :
    ams.foldl (fun size am => size + idLen + C.serializedSize am) size =
      size + (ams.flatMap (encodeAm C)).length := by
  induction ams generalizing size with
  | nil => rfl
  | cons am ams ih =>
    rw [List.foldl_cons, ih, List.flatMap_cons, List.length_append, length_encodeAm hC]
    omega

theorem serializedSize_eq (hC : C.Lawful) {m : AmGroupAm A} {ams : List A}
    (h : m.messages = some ams) : m.serializedSize C = some (encode C ams).length := by
  rw [serializedSize, h, Option.map_some, foldl_size hC, encode, List.length_append,
    length_encodeLe]

theorem serializeAm_writes (hC : C.Lawful) (size : ℕ) (am : A) :
    Writes size (fun c => serializeAm C c am) (encodeAm C am) :=
  (Writes.put (length_encodeLe _ _)).bind (Writes.put (hC.length_serialize am))

theorem messages_length {m : AmGroupAm A} {ams : List A} (h : m.messages = some ams) :
    m.si ≤ m.ei ∧ ams.length = m.ei - m.si := by
  rw [messages] at h
  split at h
  · rename_i hrange
    cases h
    refine ⟨hrange.1, ?_⟩
    rw [List.length_take, List.length_drop]
    omega
  · cases h

theorem serializeInto_writes (hC : C.Lawful) {m : AmGroupAm A} {ams : List A}
    (h : m.messages = some ams) {buf : List UInt8} (hbuf : buf.length = (encode C ams).length) :
    ∃ c, m.serializeInto C buf = some c ∧ c.buf = encode C ams := by
  obtain ⟨hle, hlen⟩ := messages_length h
  have hwrites : Writes (encode C ams).length
      (fun c => c.put numLen (encodeLe numLen ams.length) >>=
        fun c => ams.foldlM (serializeAm C) c) (encode C ams) :=
    (Writes.put (length_encodeLe _ _)).bind
      (Writes.foldlM fun am _ => serializeAm_writes hC _ am)
  obtain ⟨c, hc, hwrote⟩ := hwrites ⟨buf, 0⟩ [] (hbuf ▸ .start) (Nat.le_of_eq (Nat.zero_add _))
  refine ⟨c, ?_, (List.nil_append (encode C ams) ▸ hwrote).full.1⟩
  rw [serializeInto, Batching.checkedSub, if_pos hle, ← hlen, h]
  exact hc

theorem serialize_eq (hC : C.Lawful) {m : AmGroupAm A} {ams : List A} (h : m.messages = some ams) :
    m.serialize C = some (encode C ams) := by
  have hlen : (List.replicate (encode C ams).length (0 : UInt8)).length = (encode C ams).length :=
    List.length_replicate
  obtain ⟨c, hc, hbuf⟩ := serializeInto_writes hC h hlen
  simp only [serialize, serializedSize_eq hC h, Option.bind_eq_bind, Option.bind_some, hc, hbuf]

/-! ## Reading -/

theorem unpackAms_eq (hC : C.Lawful) {data rest : List UInt8} {ams : List A} {i : ℕ}
    (h : At data i (ams.flatMap (encodeAm C) ++ rest)) :
    unpackAms C data ams.length i = some ams := by
  induction ams generalizing i with
  | nil => rfl
  | cons am ams ih =>
    rw [List.flatMap_cons, encodeAm, List.append_assoc, List.append_assoc] at h
    have hid := h.slice (length_encodeLe _ _)
    have hrest := h.add (length_encodeLe _ _)
    have hunpack := hC.unpack_serialize am (ams.flatMap (encodeAm C) ++ rest)
    have hnext := ih (hrest.add (hC.length_serialize am))
    have hlt : (C.amId am).toUInt32.toNat < 256 ^ idLen := toNat_lt_pow_four _
    simp only [List.length_cons, unpackAms, hid, decodeLe_encodeLe hlt, UInt32.ofNat_toNat,
      hrest.drop, hunpack, hnext, Option.bind_eq_bind, Option.bind_some]

theorem unpack_encode (hC : C.Lawful) {ams : List A} (hlen : ams.length < 2 ^ 64)
    (rest : List UInt8) :
    amGroupAmUnpack C (encode C ams ++ rest) = some ⟨ams, 0, ams.length⟩ := by
  have hat : At (encode C ams ++ rest) 0
      (encodeLe numLen ams.length ++ (ams.flatMap (encodeAm C) ++ rest)) := by
    rw [← List.append_assoc]
    exact .start _
  have hnum := hat.slice (length_encodeLe _ _)
  have hams := unpackAms_eq hC (hat.add (length_encodeLe _ _))
  have hfits : ams.length < 256 ^ numLen := hlen
  rw [Nat.zero_add] at hams
  simp only [amGroupAmUnpack, hnum, decodeLe_encodeLe hfits, hams, Option.bind_eq_bind,
    Option.bind_some]

theorem messages_whole (ams : List A) : messages ⟨ams, 0, ams.length⟩ = some ams := by
  simp [messages]

/-- What is written is `serialized_size` bytes, and is read back as the messages. -/
def RoundTrips (C : AmCodec A) (m : AmGroupAm A) : Prop :=
  ∃ ams bytes m', m.messages = some ams ∧ m.serialize C = some bytes ∧
    m.serializedSize C = some bytes.length ∧ amGroupAmUnpack C bytes = some m' ∧
    m'.messages = some ams

theorem roundTrips (hC : C.Lawful) {m : AmGroupAm A} (hle : m.si ≤ m.ei)
    (hei : m.ei ≤ m.ams.length) (hlen : m.ams.length < 2 ^ 64) : m.RoundTrips C := by
  have hmessages : m.messages = some ((m.ams.drop m.si).take (m.ei - m.si)) := if_pos ⟨hle, hei⟩
  have hcount := (messages_length hmessages).2
  have hfits : ((m.ams.drop m.si).take (m.ei - m.si)).length < 2 ^ 64 := by omega
  have hunpack := unpack_encode hC hfits []
  rw [List.append_nil] at hunpack
  exact ⟨_, _, _, hmessages, serialize_eq hC hmessages, serializedSize_eq hC hmessages, hunpack,
    messages_whole _⟩

end AmGroupAm

end Lamellar.TaskGroup
