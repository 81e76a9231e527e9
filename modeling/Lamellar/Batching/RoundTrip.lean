import Lamellar.Batching.Codec

/-!
# A transfer is read back as the messages of its batch

What the `add` functions add up is the number of bytes that the transfer writes, and reading
them consumes the whole buffer and gives each message of the batch once. Here are the parts
that the batchers share, and the simple batcher.
-/

namespace Lamellar.Batching

open Wire

variable {A D R : Type} {C : Codec A D R}

/-! ## Headers -/

theorem toNat_lt_pow (n : UInt64) : n.toNat < 256 ^ 8 := n.toNat_lt

theorem toNat_lt_pow_four (n : UInt32) : n.toNat < 256 ^ 4 := n.toNat_lt

theorem Cmd.index_lt (cmd : Cmd) : cmd.index < 256 ^ 4 := by
  cases cmd <;> decide

theorem Cmd.ofIndex_index (cmd : Cmd) : Cmd.ofIndex cmd.index = some cmd := by
  cases cmd <;> rfl

theorem Cmd.decode_encode (cmd : Cmd) : Cmd.decode cmd.encode = some cmd := by
  rw [Cmd.decode, Cmd.encode, decodeLe_encodeLe cmd.index_lt, Cmd.ofIndex_index]

theorem ReqId.ofNats_toNat (id : ReqId) : ReqId.ofNats id.id.toNat id.subId.toNat = id := by
  simp [ReqId.ofNats]

theorem ReqId.decode_encode (id : ReqId) : ReqId.decode id.encode = some id := by
  have h := decodeFields_encodeFields id.fields
    (by simp [-Nat.reducePow, ReqId.fields, toNat_lt_pow])
  simp only [ReqId.fields, List.map_cons, List.map_nil] at h
  simp only [ReqId.decode, ReqId.encode, ReqId.fields, h, ReqId.ofNats_toNat]

theorem AmHeader.decode_encode (h : AmHeader) : AmHeader.decode h.encode = some h := by
  have hfields := decodeFields_encodeFields
    ([(4, h.amId.toUInt32.toNat), (8, h.teamAddr.toNat)] ++ h.reqId.fields)
    (by simp [-Nat.reducePow, ReqId.fields, toNat_lt_pow, toNat_lt_pow_four])
  simp only [ReqId.fields, List.cons_append, List.nil_append, List.map_cons, List.map_nil]
    at hfields
  simp only [AmHeader.decode, AmHeader.encode, ReqId.fields, List.cons_append, List.nil_append,
    hfields, ReqId.ofNats_toNat, UInt32.ofNat_toNat, UInt64.ofNat_toNat]

theorem DataHeader.decode_encode (h : DataHeader) (hsize : h.size < 2 ^ 64)
    (hdarcs : h.darcListSize < 2 ^ 64) : DataHeader.decode h.encode = some h := by
  have hfields := decodeFields_encodeFields
    ([(8, h.size)] ++ h.reqId.fields ++ [(8, h.darcListSize)])
    (by
      have hpow : 256 ^ 8 = 2 ^ 64 := by decide
      simp [-Nat.reducePow, ReqId.fields, hpow, hsize, hdarcs])
  simp only [ReqId.fields, List.cons_append, List.nil_append, List.map_cons, List.map_nil]
    at hfields
  simp only [DataHeader.decode, DataHeader.encode, ReqId.fields, List.cons_append,
    List.nil_append, hfields, ReqId.ofNats_toNat]

theorem BatchHeader.decode_encode (h : BatchHeader) (hcnt : h.cnt < 2 ^ 64) :
    BatchHeader.decode h.encode = some h := by
  have hfields := decodeFields_encodeFields [(4, h.cmd.index), (8, h.cnt)]
    (by
      have hpow : 256 ^ 8 = 2 ^ 64 := by decide
      simp [-Nat.reducePow, h.cmd.index_lt, hpow, hcnt])
  simp only [List.map_cons, List.map_nil] at hfields
  simp only [BatchHeader.decode, BatchHeader.encode, hfields, Cmd.ofIndex_index, Option.map_some]

theorem TeamHeader.decode_encode (h : TeamHeader) (hcnt : h.amBatchCnts < 2 ^ 64) :
    TeamHeader.decode h.encode = some h := by
  have hfields := decodeFields_encodeFields [(8, h.teamId.toNat), (8, h.amBatchCnts)]
    (by
      have hpow : 256 ^ 8 = 2 ^ 64 := by decide
      simp [-Nat.reducePow, hpow, hcnt])
  simp only [List.map_cons, List.map_nil] at hfields
  simp only [TeamHeader.decode, TeamHeader.encode, hfields, UInt64.ofNat_toNat]

theorem BatchedAmHeader.decode_encode (h : BatchedAmHeader) (hcnt : h.amCnt < 2 ^ 64) :
    BatchedAmHeader.decode h.encode = some h := by
  have hfields := decodeFields_encodeFields
    [(4, h.amId.toUInt32.toNat), (8, h.amCnt), (4, h.cmd.index)]
    (by
      have hpow : 256 ^ 8 = 2 ^ 64 := by decide
      simp [-Nat.reducePow, toNat_lt_pow_four, h.cmd.index_lt, hpow, hcnt])
  simp only [List.map_cons, List.map_nil] at hfields
  simp only [BatchedAmHeader.decode, BatchedAmHeader.encode, hfields, Cmd.ofIndex_index,
    Option.map_some, UInt32.ofNat_toNat]

theorem length_cmd (cmd : Cmd) : cmd.encode.length = cmdLen := length_encodeLe _ _

theorem ReqId.length_encode (id : ReqId) : id.encode.length = reqIdLen := length_encodeFields _

theorem AmHeader.length_encode (h : AmHeader) : h.encode.length = amHeaderLen :=
  length_encodeFields _

theorem DataHeader.length_encode (h : DataHeader) : h.encode.length = dataHeaderLen :=
  length_encodeFields _

theorem BatchHeader.length_encode (h : BatchHeader) : h.encode.length = batchHeaderLen :=
  length_encodeFields _

theorem TeamHeader.length_encode (h : TeamHeader) : h.encode.length = teamHeaderLen :=
  length_encodeFields _

theorem BatchedAmHeader.length_encode (h : BatchedAmHeader) :
    h.encode.length = batchedAmHeaderLen :=
  length_encodeFields _

/-! ## Loops -/

section Loops

variable {data : List UInt8} {body : ℕ → Option (List (Received A R) × ℕ)} {E : Type}
  {enc : E → List UInt8} {dec : E → List (Received A R)}

theorem repeatExec_reads {es : List E} (h : ∀ e ∈ es, Reads data body (enc e) (dec e)) :
    Reads data (repeatExec body es.length) (es.flatMap enc) (es.flatMap dec) := by
  induction es with
  | nil =>
    intro i rest _
    rfl
  | cons e es ih =>
    intro i rest hat
    rw [List.flatMap_cons, List.append_assoc] at hat
    have hfirst := h e List.mem_cons_self i _ hat
    have hrest := ih (fun e he => h e (List.mem_cons_of_mem _ he)) _ rest (hat.add rfl)
    simp only [List.length_cons, repeatExec, hfirst, hrest, Option.bind_eq_bind, Option.bind_some,
      List.flatMap_cons, List.length_append, Nat.add_assoc]
    rfl

/-- The loop ends with the buffer. -/
theorem whileExec_reads {es : List E} (h : ∀ e ∈ es, Reads data body (enc e) (dec e))
    (hne : ∀ e ∈ es, enc e ≠ []) {i : ℕ} (hat : At data i (es.flatMap enc)) (fuel : ℕ)
    (hfuel : es.length < fuel) :
    whileExec body data.length fuel i = some (es.flatMap dec, data.length) := by
  induction es generalizing i fuel with
  | nil =>
    obtain ⟨fuel, rfl⟩ := Nat.exists_eq_add_of_lt hfuel
    have hi := At.eq_length hat
    simp [whileExec, hi]
  | cons e es ih =>
    cases fuel with
    | zero => exact absurd hfuel (Nat.not_lt_zero _)
    | succ fuel =>
      rw [List.flatMap_cons] at hat
      have hlt : i < data.length := hat.lt (by simp [hne e List.mem_cons_self])
      have hfirst := h e List.mem_cons_self i _ hat
      have hrest := ih (fun e he => h e (List.mem_cons_of_mem _ he))
        (fun e he => hne e (List.mem_cons_of_mem _ he)) (hat.add rfl) fuel
        (Nat.lt_of_succ_lt_succ hfuel)
      simp only [whileExec, hlt, if_true, hfirst, hrest, Option.bind_eq_bind, Option.bind_some,
        List.flatMap_cons]
      rfl

theorem length_le_flatMap {es : List E} (hne : ∀ e ∈ es, enc e ≠ []) :
    es.length ≤ (es.flatMap enc).length := by
  induction es with
  | nil => rfl
  | cons e es ih =>
    have hpos := List.length_pos_iff.mpr (hne e List.mem_cons_self)
    have hle := ih fun e he => hne e (List.mem_cons_of_mem _ he)
    rw [List.flatMap_cons, List.length_cons, List.length_append]
    omega

theorem length_le_of_mem (enc : E → List UInt8) {es : List E} {e : E} (he : e ∈ es) :
    (enc e).length ≤ (es.flatMap enc).length := by
  induction es with
  | nil => cases he
  | cons e' es ih =>
    rw [List.flatMap_cons, List.length_append]
    rcases List.mem_cons.mp he with rfl | he
    · omega
    · have hle := ih he
      omega

end Loops

/-! ## Results -/

/-- What the receiver gets of a message. -/
def Message.received (C : Codec A D R) (m : Message A D R) : Received A R :=
  match m.data with
  | .am a id => .am m.req.teamAddr id m.req.id a
  | .ret a id => .returnAm m.req.teamAddr id m.req.id a
  | .data d darcs _ => .data m.req.id (C.serializeData d) darcs
  | .unit => .unit m.req.id

theorem Item.received_call (C : Codec A D R) (stallMark : UInt64) (it : Item A D R) :
    (it.call C stallMark).msg.received C = it.received C := by
  cases it <;> rfl

theorem checkedSub_add (a b : ℕ) : checkedSub (a + b) a = some b := by
  simp [checkedSub]

def dataBytes (C : Codec A D R) (reqId : ReqId) (d : D) (darcs : List R) : List UInt8 :=
  DataHeader.encode ⟨C.dataSize d, reqId, C.ptrsSize darcs⟩ ++
    (C.serializePtrs darcs ++ C.serializeData d)

theorem length_dataBytes (hC : C.Lawful) (reqId : ReqId) (d : D) (darcs : List R) :
    (dataBytes C reqId d darcs).length = dataHeaderLen + C.ptrsSize darcs + C.dataSize d := by
  simp only [dataBytes, List.length_append, DataHeader.length_encode, hC.length_serializePtrs,
    hC.length_serializeData]
  omega

theorem execDataAm_reads (hC : C.Lawful) (data : List UInt8) (reqId : ReqId) (d : D)
    (darcs : List R) (hlt : (dataBytes C reqId d darcs).length < 2 ^ 64) :
    Reads data (execDataAm C data) (dataBytes C reqId d darcs)
      (.data reqId (C.serializeData d) darcs) := by
  intro i rest hat
  have hlen := length_dataBytes hC reqId d darcs
  simp only [dataBytes, List.append_assoc] at hat
  have hat₁ := hat.add (DataHeader.length_encode _)
  have hat₂ := hat₁.add (hC.length_serializePtrs darcs)
  have hdecode := DataHeader.decode_encode ⟨C.dataSize d, reqId, C.ptrsSize darcs⟩
    (by dsimp only; omega) (by dsimp only; omega)
  simp only [execDataAm, hat.slice (DataHeader.length_encode _), hdecode,
    hat₁.slice (hC.length_serializePtrs darcs), hC.deserializePtrs_serializePtrs,
    hat₂.slice (hC.length_serializeData d), Option.bind_eq_bind, Option.bind_some, hlen,
    ← Nat.add_assoc]
  rfl

/-- The part of a data result that both batchers write alike. -/
theorem dataBytes_writes (hC : C.Lawful) {size : ℕ} (reqId : ReqId) (d : D) (darcs : List R) :
    Writes size (fun c =>
      (c.put dataHeaderLen (DataHeader.encode ⟨C.dataSize d, reqId, C.ptrsSize darcs⟩)).bind
        fun c => (c.put (C.ptrsSize darcs) (C.serializePtrs darcs)).bind
          fun c => c.put (C.dataSize d) (C.serializeData d)) (dataBytes C reqId d darcs) :=
  (Writes.put (DataHeader.length_encode _)).bind ((Writes.put (hC.length_serializePtrs darcs)).bind
    (Writes.put (hC.length_serializeData d)))

theorem execUnitAm_reads (data : List UInt8) (reqId : ReqId) :
    Reads data (execUnitAm (A := A) (R := R) data) reqId.encode (.unit reqId) := by
  intro i rest hat
  have hslice : slice data i unitHeaderLen = some reqId.encode := hat.slice reqId.length_encode
  simp only [execUnitAm, hslice, ReqId.decode_encode, Option.bind_eq_bind, Option.bind_some,
    ReqId.length_encode]
  rfl

/-- One round of a loop that reads one message. -/
theorem one_reads {data bs : List UInt8} {f : ℕ → Option (Received A R × ℕ)} {r : Received A R}
    (h : Reads data f bs r) : Reads data (fun i => one (f i)) bs [r] := by
  intro i rest hat
  simp only [one, h i rest hat, Option.map_some]

/-! ## Batches of added messages -/

/-- The batch and the size after the calls for the items. -/
def addAll {B : Type} (C : Codec A D R) (I : Inner (Message A D R) B) (stallMark : UInt64)
    (items : List (Item A D R)) : B × ℕ :=
  items.foldl (fun s it =>
    let added := I.add s.1 (it.call C stallMark).msg (it.call C stallMark).size
    (added.1, s.2 + added.2)) (I.empty, 0)

theorem addAll_induction {B : Type} {I : Inner (Message A D R) B} {stallMark : UInt64}
    {P : B → ℕ → Prop} (hempty : P I.empty 0)
    (hadd : ∀ b n (it : Item A D R), P b n →
      P (I.add b (it.call C stallMark).msg (it.call C stallMark).size).1
        (n + (I.add b (it.call C stallMark).msg (it.call C stallMark).size).2))
    (items : List (Item A D R)) :
    P (addAll C I stallMark items).1 (addAll C I stallMark items).2 := by
  have hfold : ∀ (items : List (Item A D R)) (s : B × ℕ), P s.1 s.2 →
      P (items.foldl (fun s it =>
        let added := I.add s.1 (it.call C stallMark).msg (it.call C stallMark).size
        (added.1, s.2 + added.2)) s).1
        (items.foldl (fun s it =>
        let added := I.add s.1 (it.call C stallMark).msg (it.call C stallMark).size
        (added.1, s.2 + added.2)) s).2 := by
    intro items
    induction items with
    | nil => exact fun _ h => h
    | cons it items ih => exact fun s h => ih _ (hadd s.1 s.2 it h)
  exact hfold items (I.empty, 0) hempty

/-- The batch holds the messages of the items. -/
theorem received_addAll {B : Type} (I : Inner (Message A D R) B) (stallMark : UInt64)
    (items : List (Item A D R)) :
    ((I.messages (addAll C I stallMark items).1).map (Message.received C)).Perm
      (items.map (Item.received C)) := by
  have hfold : ∀ (items : List (Item A D R)) (s : B × ℕ),
      ((I.messages (items.foldl (fun s it =>
        let added := I.add s.1 (it.call C stallMark).msg (it.call C stallMark).size
        (added.1, s.2 + added.2)) s).1).map (Message.received C)).Perm
      (items.map (Item.received C) ++ (I.messages s.1).map (Message.received C)) := by
    intro items
    induction items with
    | nil => exact fun _ => .rfl
    | cons it items ih =>
      intro s
      refine (ih _).trans ?_
      have hadd := (I.messages_add s.1 (it.call C stallMark).msg
        (it.call C stallMark).size).map (Message.received C)
      rw [List.map_cons, Item.received_call] at hadd
      rw [List.map_cons, List.cons_append]
      exact (hadd.append_left _).trans List.perm_middle
  have h := hfold items (I.empty, 0)
  rwa [I.messages_empty, List.map_nil, List.append_nil] at h

/-! ## The simple batcher -/

namespace SimpleBatcher

/-- The entry of an item -/
def Fits (C : Codec A D R) (e : ReqMetaData × LamellarData A D R × ℕ) : Prop :=
  match e.2.1 with
  | .am a id | .ret a id => id = C.amId a ∧ e.2.2 = cmdLen + amHeaderLen + C.amSize a
  | .data d darcs darcListSize => darcListSize = C.ptrsSize darcs ∧
      e.2.2 = cmdLen + dataHeaderLen + darcListSize + C.dataSize d
  | .unit => e.2.2 = cmdLen + unitHeaderLen

def amBytes (C : Codec A D R) (cmd : Cmd) (req : ReqMetaData) (a : A) (id : AmId) : List UInt8 :=
  cmd.encode ++ (AmHeader.encode ⟨id, req.teamAddr, req.id⟩ ++ C.serializeAm a)

def entryBytes (C : Codec A D R) (e : ReqMetaData × LamellarData A D R × ℕ) : List UInt8 :=
  match e.2.1 with
  | .am a id => amBytes C .am e.1 a id
  | .ret a id => amBytes C .returnAm e.1 a id
  | .data d darcs _ => Cmd.data.encode ++ dataBytes C e.1.id d darcs
  | .unit => Cmd.unit.encode ++ e.1.id.encode

theorem length_amBytes (hC : C.Lawful) (cmd : Cmd) (req : ReqMetaData) (a : A) (id : AmId) :
    (amBytes C cmd req a id).length = cmdLen + amHeaderLen + C.amSize a := by
  simp only [amBytes, List.length_append, length_cmd, AmHeader.length_encode,
    hC.length_serializeAm, Nat.add_assoc]

theorem length_entryBytes (hC : C.Lawful) {e : ReqMetaData × LamellarData A D R × ℕ}
    (he : Fits C e) : (entryBytes C e).length = e.2.2 := by
  obtain ⟨req, data, size⟩ := e
  cases data with
  | am a id => exact (length_amBytes hC ..).trans he.2.symm
  | ret a id => exact (length_amBytes hC ..).trans he.2.symm
  | data d darcs darcListSize =>
    obtain ⟨rfl, hsize⟩ := he
    simp only [entryBytes, List.length_append, length_cmd, length_dataBytes hC]
    dsimp only at hsize
    omega
  | unit =>
    simp only [Fits] at he
    simp only [entryBytes, List.length_append, length_cmd, ReqId.length_encode, he]
    rfl

theorem serializeAm_writes (hC : C.Lawful) {size : ℕ} (cmd : Cmd) (req : ReqMetaData) (a : A)
    (id : AmId) :
    Writes size (serializeAm C req a id (cmdLen + amHeaderLen + C.amSize a) cmd)
      (amBytes C cmd req a id) := by
  have h : Writes size _ (amBytes C cmd req a id) := (Writes.put (length_cmd cmd)).bind
    ((Writes.put (AmHeader.length_encode ⟨id, req.teamAddr, req.id⟩)).bind
      (Writes.put (hC.length_serializeAm a)))
  unfold serializeAm
  simp only [checkedSub_add, Option.bind_eq_bind, Option.bind_some]
  exact h

theorem serializeEntry_writes (hC : C.Lawful) {size : ℕ}
    {e : ReqMetaData × LamellarData A D R × ℕ} (he : Fits C e) :
    Writes size (fun c => serializeEntry C c e) (entryBytes C e) := by
  obtain ⟨req, data, n⟩ := e
  cases data with
  | am a id =>
    obtain ⟨-, hn⟩ := he
    dsimp only at hn
    subst hn
    exact serializeAm_writes hC .am req a id
  | ret a id =>
    obtain ⟨-, hn⟩ := he
    dsimp only at hn
    subst hn
    exact serializeAm_writes hC .returnAm req a id
  | data d darcs darcListSize =>
    obtain ⟨rfl, hn⟩ := he
    dsimp only at hn
    subst hn
    unfold serializeEntry serializeData
    simp only [checkedSub_add, Option.bind_eq_bind, Option.bind_some]
    exact (Writes.put (length_cmd .data)).bind (dataBytes_writes hC req.id d darcs)
  | unit => exact (Writes.put (length_cmd .unit)).bind (Writes.put req.id.length_encode)

theorem execAm_reads (hC : C.Lawful) (data : List UInt8) (cmd : Cmd) (req : ReqMetaData) (a : A)
    {r : Received A R}
    (hr : Received.ofAm cmd req.teamAddr (C.amId a) req.id a = some r) :
    Reads data (execAm C cmd data)
      (AmHeader.encode ⟨C.amId a, req.teamAddr, req.id⟩ ++ C.serializeAm a) r := by
  intro i rest hat
  rw [List.append_assoc] at hat
  have hat₁ := hat.add (AmHeader.length_encode _)
  simp only [execAm, hat.slice (AmHeader.length_encode _), AmHeader.decode_encode, hat₁.drop,
    hC.unpack_serializeAm, hr, Option.bind_eq_bind, Option.bind_some, List.length_append,
    AmHeader.length_encode, hC.length_serializeAm, Nat.add_assoc]
  rfl

theorem execMsg_reads (hC : C.Lawful) (data : List UInt8)
    {e : ReqMetaData × LamellarData A D R × ℕ} (he : Fits C e) (hlt : e.2.2 < 2 ^ 64) :
    Reads data (execMsg C data) (entryBytes C e) (Message.received C ⟨e.1, e.2.1⟩) := by
  have hlen := length_entryBytes hC he
  obtain ⟨req, d, n⟩ := e
  intro i rest hat
  cases d with
  | am a id =>
    obtain ⟨rfl, -⟩ := he
    simp only [entryBytes, amBytes, List.append_assoc] at hat
    have hread := execAm_reads hC data .am req a rfl _ rest
      (by rw [List.append_assoc]; exact hat.add (length_cmd _))
    simp only [execMsg, hat.slice (length_cmd _), Cmd.decode_encode, Option.bind_eq_bind,
      Option.bind_some, hread, entryBytes, amBytes, List.length_append, length_cmd, Nat.add_assoc]
    rfl
  | ret a id =>
    obtain ⟨rfl, -⟩ := he
    simp only [entryBytes, amBytes, List.append_assoc] at hat
    have hread := execAm_reads hC data .returnAm req a rfl _ rest
      (by rw [List.append_assoc]; exact hat.add (length_cmd _))
    simp only [execMsg, hat.slice (length_cmd _), Cmd.decode_encode, Option.bind_eq_bind,
      Option.bind_some, hread, entryBytes, amBytes, List.length_append, length_cmd, Nat.add_assoc]
    rfl
  | data d darcs darcListSize =>
    simp only [entryBytes, List.append_assoc] at hat
    have hread := execDataAm_reads hC data req.id d darcs
      (by simp only [entryBytes, List.length_append] at hlen; dsimp only at hlt; omega) _ rest
      (hat.add (length_cmd _))
    simp only [execMsg, hat.slice (length_cmd _), Cmd.decode_encode, Option.bind_eq_bind,
      Option.bind_some, hread, entryBytes, List.length_append, length_cmd, Nat.add_assoc]
    rfl
  | unit =>
    simp only [entryBytes, List.append_assoc] at hat
    have hread := execUnitAm_reads (A := A) (R := R) data req.id _ rest
      (hat.add (length_cmd _))
    simp only [execMsg, hat.slice (length_cmd _), Cmd.decode_encode, Option.bind_eq_bind,
      Option.bind_some, hread, entryBytes, List.length_append, length_cmd, Nat.add_assoc]
    rfl

/-- Entries fit, and the size added up is that of their bytes. -/
theorem addAll_fits (hC : C.Lawful) (stallMark : UInt64) (items : List (Item A D R)) :
    (∀ e ∈ (addAll C simpleBatcher stallMark items).1, Fits C e) ∧
      (addAll C simpleBatcher stallMark items).2 =
        ((addAll C simpleBatcher stallMark items).1.flatMap (entryBytes C)).length := by
  refine addAll_induction (I := simpleBatcher) (P := fun b n => (∀ e ∈ b, Fits C e) ∧
    n = (b.flatMap (entryBytes C)).length) ⟨by simp [simpleBatcher], rfl⟩ ?_ items
  rintro b n it ⟨hfits, hn⟩
  have hfit : Fits C ((it.call C stallMark).msg.req, (it.call C stallMark).msg.data,
      SimpleBatch.callSize (it.call C stallMark).msg.data (it.call C stallMark).size + cmdLen) := by
    cases it with
    | am req a =>
      exact ⟨rfl, by simp only [SimpleBatch.callSize, Item.call, addRemoteAmToBatch]; omega⟩
    | ret req a =>
      exact ⟨rfl, by simp only [SimpleBatch.callSize, Item.call, addReturnAmToBatch]; omega⟩
    | data req d darcs =>
      exact ⟨rfl, by simp only [SimpleBatch.callSize, Item.call, addDataAmToBatch]; omega⟩
    | unit req => rfl
  refine ⟨?_, ?_⟩
  · intro e he
    rcases List.mem_append.mp he with he | he
    · exact hfits e he
    · exact List.mem_singleton.mp he ▸ hfit
  · simp only [simpleBatcher, SimpleBatch.add, List.flatMap_append, List.flatMap_cons,
      List.flatMap_nil, List.append_nil, List.length_append, length_entryBytes hC hfit, hn]

/-- The transfer fills the buffer and is read back. -/
theorem roundTrip (hC : C.Lawful) (stallMark : UInt64) (items : List (Item A D R))
    (data : List UInt8) (hlen : data.length = (addAll C simpleBatcher stallMark items).2)
    (hlt : data.length < 2 ^ 64) :
    ∃ c rs, createTxTask C (addAll C simpleBatcher stallMark items).1 data = some c ∧
      c.i = data.length ∧ execBatchedMsg C c.buf = some (rs, data.length) ∧
      rs.Perm (items.map (Item.received C)) := by
  obtain ⟨hfits, hsize⟩ := addAll_fits hC stallMark items
  have hreceived := received_addAll (C := C) simpleBatcher stallMark items
  generalize addAll C simpleBatcher stallMark items = added at *
  obtain ⟨batch, n⟩ := added
  dsimp only at *
  subst hlen
  have hwrites : Writes data.length (fun c => batch.foldlM (serializeEntry C) c)
      (batch.flatMap (entryBytes C)) :=
    Writes.foldlM fun e he => serializeEntry_writes hC (hfits e he)
  obtain ⟨c, hc, hwrote⟩ := hwrites ⟨data, 0⟩ [] .start (by rw [List.length_nil]; omega)
  rw [List.nil_append, hsize] at hwrote
  obtain ⟨hbuf, hi⟩ := hwrote.full
  have hle : ∀ e ∈ batch, e.2.2 < 2 ^ 64 := by
    intro e he
    have hsub := length_le_of_mem (entryBytes C) he
    rw [length_entryBytes hC (hfits e he)] at hsub
    omega
  have hne : ∀ e ∈ batch, entryBytes C e ≠ [] := by
    intro e he hnil
    obtain ⟨req, d, n⟩ := e
    cases d <;> cases hnil
  have hread := whileExec_reads (i := 0)
    (fun e he => one_reads (execMsg_reads hC c.buf (hfits e he) (hle e he))) hne
    (hbuf ▸ At.start c.buf) (c.buf.length + 1) (Nat.lt_succ_of_le (hbuf ▸ length_le_flatMap hne))
  refine ⟨c, batch.map fun e => Message.received C ⟨e.1, e.2.1⟩, hc, hi.trans hsize.symm, ?_, ?_⟩
  · rw [execBatchedMsg, hread, hbuf, ← hsize, List.map_eq_flatMap]
  · simpa [simpleBatcher, SimpleBatch.messages, Function.comp_def] using hreceived

end SimpleBatcher

end Lamellar.Batching
