import Lamellar.Batching.RoundTrip

/-!
# Transfers of the team batcher

The team batcher groups active messages by team and type. The headers of the groups are
counted when their first message is added, and the maps are written in any order.
-/

namespace Lamellar.Batching

open Wire

variable {A D R : Type} {C : Codec A D R}

namespace TeamAmBatcher

/-- The entry of an active message, under its team and its type -/
structure AmFits (C : Codec A D R) (teamAddr : UInt64) (id : AmId) (e : ReqMetaData × A × ℕ) :
    Prop where
  teamAddr : e.1.teamAddr = teamAddr
  amId : id = C.amId e.2.1
  size : e.2.2 = C.amSize e.2.1

/-- Keys are there only with messages. -/
def MapFits (C : Codec A D R) (m : TeamMap A) : Prop :=
  ∀ t ∈ m, t.2 ≠ [] ∧ ∀ a ∈ t.2, a.2 ≠ [] ∧ ∀ e ∈ a.2, AmFits C t.1 a.1 e

def amBytes (C : Codec A D R) (e : ReqMetaData × A × ℕ) : List UInt8 :=
  e.1.id.encode ++ C.serializeAm e.2.1

def amsBytes (C : Codec A D R) (cmd : Cmd) (e : AmId × List (ReqMetaData × A × ℕ)) : List UInt8 :=
  BatchedAmHeader.encode ⟨e.1, e.2.length, cmd⟩ ++ e.2.flatMap (amBytes C)

def teamBytes (C : Codec A D R) (cmd : Cmd) (e : UInt64 × AmIdMap A) : List UInt8 :=
  TeamHeader.encode ⟨e.1, e.2.length⟩ ++ e.2.flatMap (amsBytes C cmd)

def mapBytes (C : Codec A D R) (cmd : Cmd) (m : TeamMap A) : List UInt8 :=
  BatchHeader.encode ⟨.batchedMsg, m.length⟩ ++ m.flatMap (teamBytes C cmd)

def NonAmFits (C : Codec A D R) (e : ReqMetaData × LamellarData A D R × ℕ) : Prop :=
  match e.2.1 with
  | .am _ _ | .ret _ _ => False
  | .data d darcs darcListSize => darcListSize = C.ptrsSize darcs ∧
      e.2.2 = batchHeaderLen + dataHeaderLen + darcListSize + C.dataSize d
  | .unit => e.2.2 = batchHeaderLen + unitHeaderLen

def nonAmBytes (C : Codec A D R) (e : ReqMetaData × LamellarData A D R × ℕ) : List UInt8 :=
  match e.2.1 with
  | .am _ _ | .ret _ _ => []
  | .data d darcs _ => BatchHeader.encode ⟨.data, 1⟩ ++ dataBytes C e.1.id d darcs
  | .unit => BatchHeader.encode ⟨.unit, 1⟩ ++ e.1.id.encode

theorem amBytes_ne_nil (e : ReqMetaData × A × ℕ) : amBytes C e ≠ [] := by
  intro h
  cases h

theorem amsBytes_ne_nil (cmd : Cmd) (a : AmId × List (ReqMetaData × A × ℕ)) :
    amsBytes C cmd a ≠ [] := by
  intro h
  cases h

theorem teamBytes_ne_nil (cmd : Cmd) (t : UInt64 × AmIdMap A) : teamBytes C cmd t ≠ [] := by
  intro h
  cases h

/-! ## Writing -/

theorem serializeAm_writes (hC : C.Lawful) {size : ℕ} {teamAddr : UInt64} {id : AmId}
    {e : ReqMetaData × A × ℕ} (he : AmFits C teamAddr id e) :
    Writes size (fun c => serializeAm C c e) (amBytes C e) :=
  (Writes.put e.1.id.length_encode).bind
    (Writes.put ((hC.length_serializeAm e.2.1).trans he.size.symm))

theorem serializeTeam_writes (hC : C.Lawful) {size : ℕ} {cmd : Cmd} {m : TeamMap A}
    (hm : MapFits C m) {t : UInt64 × AmIdMap A} (ht : t ∈ m) :
    Writes size (fun c => serializeTeam C cmd c t) (teamBytes C cmd t) :=
  (Writes.put (TeamHeader.length_encode _)).bind (Writes.foldlM fun a ha =>
    (Writes.put (BatchedAmHeader.length_encode _)).bind (Writes.foldlM fun _ he =>
      serializeAm_writes hC (((hm t ht).2 a ha).2 _ he)))

theorem serializeAmBatch_writes (hC : C.Lawful) {size : ℕ} {cmd : Cmd} {m : TeamMap A}
    (hm : MapFits C m) :
    Writes size (serializeAmBatch C m cmd) (if m.length > 0 then mapBytes C cmd m else []) := by
  unfold serializeAmBatch
  split
  · exact (Writes.put (BatchHeader.length_encode _)).bind
      (Writes.foldlM fun t ht => serializeTeam_writes hC hm ht)
  · exact .nil

theorem serializeNonAm_writes (hC : C.Lawful) {size : ℕ}
    {e : ReqMetaData × LamellarData A D R × ℕ} (he : NonAmFits C e) :
    Writes size (fun c => serializeNonAm C c e) (nonAmBytes C e) := by
  obtain ⟨req, data, n⟩ := e
  cases data with
  | am a id => exact he.elim
  | ret a id => exact he.elim
  | data d darcs darcListSize =>
    obtain ⟨rfl, hn⟩ := he
    dsimp only at hn
    subst hn
    unfold serializeNonAm serializeData
    simp only [checkedSub_add, Option.bind_eq_bind, Option.bind_some]
    exact (Writes.put (BatchHeader.length_encode _)).bind (dataBytes_writes hC req.id d darcs)
  | unit =>
    exact (Writes.put (BatchHeader.length_encode _)).bind (Writes.put req.id.length_encode)

/-! ## Reading -/

section Reading

variable {cmd : Cmd} {kind : A → AmId → LamellarData A D R}
  (hkind : ∀ (req : ReqMetaData) (a : A) (id : AmId), Received.ofAm cmd req.teamAddr id req.id a =
    some (Message.received C ⟨req, kind a id⟩))

include hkind

theorem execAm_reads (hC : C.Lawful) (data : List UInt8) {teamAddr : UInt64} {id : AmId}
    {e : ReqMetaData × A × ℕ} (he : AmFits C teamAddr id e) :
    Reads data (execAm C cmd teamAddr id data) (amBytes C e)
      (Message.received C ⟨e.1, kind e.2.1 id⟩) := by
  intro i rest hat
  simp only [amBytes, List.append_assoc] at hat
  have hat₁ := hat.add e.1.id.length_encode
  have hunpack : C.unpack id (C.serializeAm e.2.1 ++ rest) = some e.2.1 := by
    rw [he.amId]
    exact hC.unpack_serializeAm e.2.1 rest
  have hr := hkind e.1 e.2.1 id
  rw [he.teamAddr] at hr
  simp only [execAm, hat.slice e.1.id.length_encode, ReqId.decode_encode, hat₁.drop, hunpack, hr,
    Option.bind_eq_bind, Option.bind_some, amBytes, List.length_append, ReqId.length_encode,
    hC.length_serializeAm, Nat.add_assoc]
  rfl

theorem execAms_reads (hC : C.Lawful) (data : List UInt8) {teamAddr : UInt64}
    {a : AmId × List (ReqMetaData × A × ℕ)} (ha : ∀ e ∈ a.2, AmFits C teamAddr a.1 e)
    (hlt : a.2.length < 2 ^ 64) :
    Reads data (execAms C teamAddr data) (amsBytes C cmd a)
      (a.2.flatMap fun e => [Message.received C ⟨e.1, kind e.2.1 a.1⟩]) := by
  intro i rest hat
  simp only [amsBytes, List.append_assoc] at hat
  have hat₁ := hat.add (BatchedAmHeader.length_encode _)
  have hread := repeatExec_reads
    (fun e he => one_reads (execAm_reads hkind hC data (ha e he))) _ rest hat₁
  simp only [execAms, hat.slice (BatchedAmHeader.length_encode _),
    BatchedAmHeader.decode_encode ⟨a.1, a.2.length, cmd⟩ hlt, Option.bind_eq_bind,
    Option.bind_some, hread, amsBytes,
    List.length_append, BatchedAmHeader.length_encode, Nat.add_assoc]

theorem execTeam_reads (hC : C.Lawful) (data : List UInt8) {t : UInt64 × AmIdMap A}
    (ht : ∀ a ∈ t.2, ∀ e ∈ a.2, AmFits C t.1 a.1 e) (hlt : (teamBytes C cmd t).length < 2 ^ 64) :
    Reads data (execTeam C data) (teamBytes C cmd t)
      (t.2.flatMap fun a => a.2.flatMap fun e => [Message.received C ⟨e.1, kind e.2.1 a.1⟩]) := by
  intro i rest hat
  simp only [teamBytes, List.append_assoc] at hat
  rw [teamBytes, List.length_append] at hlt
  have hcnt : t.2.length ≤ (t.2.flatMap (amsBytes C cmd)).length :=
    length_le_flatMap fun a _ => amsBytes_ne_nil cmd a
  have hat₁ := hat.add (TeamHeader.length_encode _)
  have hread := repeatExec_reads (fun a ha => execAms_reads hkind hC data (ht a ha) (by
    have hle := length_le_of_mem (amsBytes C cmd) ha
    have hle' : a.2.length ≤ (a.2.flatMap (amBytes C)).length :=
      length_le_flatMap fun e _ => amBytes_ne_nil e
    rw [amsBytes, List.length_append] at hle
    omega)) _ rest hat₁
  simp only [execTeam, hat.slice (TeamHeader.length_encode _),
    TeamHeader.decode_encode ⟨t.1, t.2.length⟩ (by dsimp only; omega), Option.bind_eq_bind,
    Option.bind_some, hread, teamBytes, List.length_append, TeamHeader.length_encode, Nat.add_assoc]

/-- The messages of a map are read in one round of the loop. -/
theorem execMsg_reads_map (hC : C.Lawful) (data : List UInt8) {m : TeamMap A} (hm : MapFits C m)
    (hlt : (mapBytes C cmd m).length < 2 ^ 64) :
    Reads data (execMsg C data) (mapBytes C cmd m)
      ((m.messages kind).map (Message.received C)) := by
  intro i rest hat
  simp only [mapBytes, List.append_assoc] at hat
  rw [mapBytes, List.length_append] at hlt
  have hcnt : m.length ≤ (m.flatMap (teamBytes C cmd)).length :=
    length_le_flatMap fun t _ => teamBytes_ne_nil cmd t
  have hat₁ := hat.add (BatchHeader.length_encode _)
  have hread := repeatExec_reads (fun t ht => execTeam_reads hkind hC data
    (fun a ha => ((hm t ht).2 a ha).2) (by
      have hle := length_le_of_mem (teamBytes C cmd) ht
      omega)) _ rest hat₁
  have hmessages : (m.messages kind).map (Message.received C) = m.flatMap fun t =>
      t.2.flatMap fun a => a.2.flatMap fun e => [Message.received C ⟨e.1, kind e.2.1 a.1⟩] := by
    simp only [TeamMap.messages, List.map_flatMap, List.map_map, Function.comp_def,
      ← List.map_eq_flatMap]
  simp only [execMsg, execBatchedAm, hat.slice (BatchHeader.length_encode _),
    BatchHeader.decode_encode ⟨.batchedMsg, m.length⟩ (by dsimp only; omega), Option.bind_eq_bind,
    Option.bind_some, hread, hmessages, mapBytes, List.length_append, BatchHeader.length_encode,
    Nat.add_assoc]

end Reading

theorem length_nonAmBytes (hC : C.Lawful) {e : ReqMetaData × LamellarData A D R × ℕ}
    (he : NonAmFits C e) : (nonAmBytes C e).length = e.2.2 := by
  obtain ⟨req, data, size⟩ := e
  cases data with
  | am a id => exact he.elim
  | ret a id => exact he.elim
  | data d darcs darcListSize =>
    obtain ⟨rfl, hsize⟩ := he
    simp only [nonAmBytes, List.length_append, BatchHeader.length_encode, length_dataBytes hC]
    dsimp only at hsize
    omega
  | unit =>
    simp only [NonAmFits] at he
    simp only [nonAmBytes, List.length_append, BatchHeader.length_encode, ReqId.length_encode, he]
    rfl

theorem execMsg_reads_nonAm (hC : C.Lawful) (data : List UInt8)
    {e : ReqMetaData × LamellarData A D R × ℕ} (he : NonAmFits C e) (hlt : e.2.2 < 2 ^ 64) :
    Reads data (execMsg C data) (nonAmBytes C e) [Message.received C ⟨e.1, e.2.1⟩] := by
  have hlen := length_nonAmBytes hC he
  obtain ⟨req, d, n⟩ := e
  intro i rest hat
  cases d with
  | am a id => exact he.elim
  | ret a id => exact he.elim
  | data d darcs darcListSize =>
    simp only [nonAmBytes, List.append_assoc] at hat
    have hread := one_reads (execDataAm_reads hC data req.id d darcs
      (by simp only [nonAmBytes, List.length_append] at hlen; dsimp only at hlt; omega)) _ rest
      (hat.add (BatchHeader.length_encode _))
    simp only [execMsg, hat.slice (BatchHeader.length_encode _),
      BatchHeader.decode_encode ⟨.data, 1⟩ (by decide), Option.bind_eq_bind, Option.bind_some,
      hread, nonAmBytes, List.length_append, BatchHeader.length_encode, Nat.add_assoc]
    rfl
  | unit =>
    simp only [nonAmBytes, List.append_assoc] at hat
    have hread := one_reads (execUnitAm_reads (A := A) (R := R) data req.id) _ rest
      (hat.add (BatchHeader.length_encode _))
    simp only [execMsg, hat.slice (BatchHeader.length_encode _),
      BatchHeader.decode_encode ⟨.unit, 1⟩ (by decide), Option.bind_eq_bind, Option.bind_some,
      hread, nonAmBytes, List.length_append, BatchHeader.length_encode, Nat.add_assoc]
    rfl

/-! ## Sizes -/

theorem length_amBytes (hC : C.Lawful) (e : ReqMetaData × A × ℕ) :
    (amBytes C e).length = reqIdLen + C.amSize e.2.1 := by
  rw [amBytes, List.length_append, ReqId.length_encode, hC.length_serializeAm]

theorem length_amsBytes (cmd : Cmd) (a : AmId × List (ReqMetaData × A × ℕ)) :
    (amsBytes C cmd a).length = batchedAmHeaderLen + (a.2.flatMap (amBytes C)).length := by
  rw [amsBytes, List.length_append, BatchedAmHeader.length_encode]

theorem length_teamBytes (cmd : Cmd) (t : UInt64 × AmIdMap A) :
    (teamBytes C cmd t).length = teamHeaderLen + (t.2.flatMap (amsBytes C cmd)).length := by
  rw [teamBytes, List.length_append, TeamHeader.length_encode]

/-- The messages of a team grow by the new one, with the header of its type if that is new. -/
theorem length_upsert_am (hC : C.Lawful) (cmd : Cmd) {v : AmIdMap A} (hv : ∀ a ∈ v, a.2 ≠ [])
    (req : ReqMetaData) (am : A) (id : AmId) :
    ((Entries.upsert id [] (· ++ [(req, am, C.amSize am)]) v).flatMap (amsBytes C cmd)).length =
      (v.flatMap (amsBytes C cmd)).length +
        ((if (Entries.getD id [] v).length = 0 then batchedAmHeaderLen else 0) +
          (C.amSize am + reqIdLen)) := by
  rw [List.length_flatMap, List.length_flatMap]
  refine Entries.sum_upsert (fun a => (amsBytes C cmd a).length) _ ?_
  simp only [length_amsBytes, List.flatMap_append, List.flatMap_cons, List.flatMap_nil,
    List.append_nil, List.length_append, length_amBytes hC]
  by_cases hid : id ∈ v.map Prod.fst
  · have hne : (Entries.getD id [] v).length ≠ 0 :=
      fun h => hv _ (Entries.getD_mem hid) (List.length_eq_zero_iff.mp h)
    simp only [hid, hne, if_true, if_false]
    omega
  · simp only [hid, if_false, Entries.getD_of_not_mem hid, List.flatMap_nil, List.length_nil,
      if_true]
    omega

/-- What `add_am_to_batch` returns is the number of bytes that come to the map. -/
theorem length_addAmToBatch (hC : C.Lawful) (cmd : Cmd) {m : TeamMap A} (hm : MapFits C m)
    (req : ReqMetaData) (am : A) (id : AmId) :
    ((m.addAmToBatch req am id (C.amSize am)).1.flatMap (teamBytes C cmd)).length =
      (m.flatMap (teamBytes C cmd)).length + (m.addAmToBatch req am id (C.amSize am)).2 := by
  rw [List.length_flatMap, List.length_flatMap]
  refine Entries.sum_upsert (fun t => (teamBytes C cmd t).length) _ ?_
  simp only [length_teamBytes]
  by_cases hteam : req.teamAddr ∈ m.map Prod.fst
  · have ht := hm (req.teamAddr, Entries.getD req.teamAddr [] m) (Entries.getD_mem hteam)
    have hne : (Entries.getD req.teamAddr [] m).length ≠ 0 :=
      fun h => ht.1 (List.length_eq_zero_iff.mp h)
    rw [length_upsert_am hC cmd fun a ha => (ht.2 a ha).1]
    simp only [hteam, hne, if_true, if_false, TeamMap.addAmToBatch]
    omega
  · rw [length_upsert_am hC cmd (by simp [Entries.getD_of_not_mem hteam])]
    simp only [hteam, if_false, Entries.getD_of_not_mem hteam, List.flatMap_nil, List.length_nil,
      if_true, Entries.getD, TeamMap.addAmToBatch]
    omega

theorem MapFits.addAmToBatch {m : TeamMap A} (hm : MapFits C m) (req : ReqMetaData) (am : A) :
    MapFits C (m.addAmToBatch req am (C.amId am) (C.amSize am)).1 := by
  have hfit : ∀ v : AmIdMap A, (∀ a ∈ v, a.2 ≠ [] ∧ ∀ e ∈ a.2, AmFits C req.teamAddr a.1 e) →
      ∀ a ∈ Entries.upsert (C.amId am) [] (· ++ [(req, am, C.amSize am)]) v,
        a.2 ≠ [] ∧ ∀ e ∈ a.2, AmFits C req.teamAddr a.1 e := by
    intro v hv
    refine Entries.forall_upsert hv ?_ ?_
    · refine ⟨by simp, ?_⟩
      intro e he
      simp only [List.nil_append, List.mem_singleton] at he
      subst he
      exact ⟨rfl, rfl, rfl⟩
    · rintro ams ⟨-, hams⟩
      refine ⟨by simp, ?_⟩
      intro e he
      rcases List.mem_append.mp he with he | he
      · exact hams e he
      · cases List.mem_singleton.mp he
        exact ⟨rfl, rfl, rfl⟩
  refine Entries.forall_upsert hm ?_ ?_
  · exact ⟨Entries.upsert_ne_nil, hfit [] (by simp)⟩
  · rintro v ⟨-, hv⟩
    exact ⟨Entries.upsert_ne_nil, hfit v hv⟩

/-- All entries of the batch are those of items. -/
structure BatchFits (C : Codec A D R) (batch : TeamBatch A D R) : Prop where
  ams : MapFits C batch.ams
  returnAms : MapFits C batch.returnAms
  nonAms : ∀ e ∈ batch.nonAms, NonAmFits C e

/-- The bytes of the batch apart from the headers of the two maps. -/
def contentSize (C : Codec A D R) (batch : TeamBatch A D R) : ℕ :=
  (batch.ams.flatMap (teamBytes C .am)).length +
    (batch.returnAms.flatMap (teamBytes C .returnAm)).length +
    (batch.nonAms.flatMap (nonAmBytes C)).length

theorem fits_addNonAm (hC : C.Lawful) {batch : TeamBatch A D R} (h : BatchFits C batch)
    (req : ReqMetaData) (data : LamellarData A D R) (size : ℕ)
    (hfit : NonAmFits C (req, data, size + batchHeaderLen)) :
    BatchFits C (batch.addNonAm req data size).1 ∧
      contentSize C (batch.addNonAm req data size).1 =
        contentSize C batch + (batch.addNonAm req data size).2 := by
  refine ⟨⟨h.ams, h.returnAms, ?_⟩, ?_⟩
  · intro e he
    rcases List.mem_append.mp he with he | he
    · exact h.nonAms e he
    · exact List.mem_singleton.mp he ▸ hfit
  · simp only [contentSize, TeamBatch.addNonAm, List.flatMap_append, List.flatMap_cons,
      List.flatMap_nil, List.append_nil, List.length_append, length_nonAmBytes hC hfit]
    omega

/-- Entries fit, and the size added up is that of their bytes. -/
theorem addAll_fits (hC : C.Lawful) (stallMark : UInt64) (items : List (Item A D R)) :
    BatchFits C (addAll C teamAmBatcher stallMark items).1 ∧
      (addAll C teamAmBatcher stallMark items).2 =
        contentSize C (addAll C teamAmBatcher stallMark items).1 := by
  refine addAll_induction (I := teamAmBatcher) (P := fun b n => BatchFits C b ∧
    n = contentSize C b) ⟨⟨?_, ?_, ?_⟩, rfl⟩ ?_ items
  · exact fun t ht => by cases ht
  · exact fun t ht => by cases ht
  · exact fun e he => by cases he
  rintro b n it ⟨hfits, rfl⟩
  cases it with
  | am req a =>
    have hlen := length_addAmToBatch hC .am hfits.ams req a (C.amId a)
    refine ⟨⟨hfits.ams.addAmToBatch req a, hfits.returnAms, hfits.nonAms⟩, ?_⟩
    simp only [teamAmBatcher, TeamBatch.add, Item.call, addRemoteAmToBatch, contentSize, hlen]
    omega
  | ret req a =>
    have hlen := length_addAmToBatch hC .returnAm hfits.returnAms req a (C.amId a)
    refine ⟨⟨hfits.ams, hfits.returnAms.addAmToBatch req a, hfits.nonAms⟩, ?_⟩
    simp only [teamAmBatcher, TeamBatch.add, Item.call, addReturnAmToBatch, contentSize, hlen]
    omega
  | data req d darcs =>
    have h := fits_addNonAm hC hfits req (.data d darcs (C.ptrsSize darcs))
      (C.dataSize d + C.ptrsSize darcs + dataHeaderLen) ⟨rfl, by dsimp only; omega⟩
    exact ⟨h.1, h.2.symm⟩
  | unit req =>
    have h := fits_addNonAm hC hfits req .unit unitHeaderLen rfl
    exact ⟨h.1, h.2.symm⟩

/-! ## Orders of the maps -/

/-- The entries of the outer map and of the inner maps in some other order. -/
def MapReorder (m m' : TeamMap A) : Prop :=
  ∃ m₁, m.Perm m₁ ∧ List.Forall₂ (fun t t' => t.1 = t'.1 ∧ t.2.Perm t'.2) m₁ m'

theorem MapReorder.length_eq {m m' : TeamMap A} (h : MapReorder m m') : m'.length = m.length := by
  obtain ⟨m₁, hperm, hinner⟩ := h
  rw [hperm.length_eq, hinner.length_eq]

theorem MapReorder.fits {m m' : TeamMap A} (h : MapReorder m m') (hm : MapFits C m) :
    MapFits C m' := by
  obtain ⟨m₁, hperm, hinner⟩ := h
  have hm₁ : MapFits C m₁ := fun t ht => hm t (hperm.mem_iff.mpr ht)
  clear hperm hm
  induction hinner with
  | nil => exact hm₁
  | @cons t t' m₁ m' hhead _ ih =>
    intro u hu
    rcases List.mem_cons.mp hu with rfl | hu
    · obtain ⟨hne, hams⟩ := hm₁ t List.mem_cons_self
      refine ⟨fun hnil => hne (List.Perm.eq_nil (hnil ▸ hhead.2)), ?_⟩
      intro a ha
      obtain ⟨hane, hfits⟩ := hams a (hhead.2.mem_iff.mpr ha)
      exact ⟨hane, fun e he => hhead.1 ▸ hfits e he⟩
    · exact ih (fun t ht => hm₁ t (List.mem_cons_of_mem _ ht)) u hu

theorem MapReorder.length_bytes {m m' : TeamMap A} (h : MapReorder m m') (cmd : Cmd) :
    (m'.flatMap (teamBytes C cmd)).length = (m.flatMap (teamBytes C cmd)).length := by
  obtain ⟨m₁, hperm, hinner⟩ := h
  have hbytes : (m₁.flatMap (teamBytes C cmd)).length = (m'.flatMap (teamBytes C cmd)).length := by
    clear hperm
    induction hinner with
    | nil => rfl
    | cons hhead _ ih =>
      have hlen := (hhead.2.flatMap_right (amsBytes C cmd)).length_eq
      simp only [List.flatMap_cons, List.length_append, length_teamBytes, ih, hlen]
  rw [← hbytes, (hperm.flatMap_right _).length_eq]

theorem MapReorder.messages {m m' : TeamMap A} (h : MapReorder m m')
    (kind : A → AmId → LamellarData A D R) : (m'.messages kind).Perm (m.messages kind) := by
  obtain ⟨m₁, hperm, hinner⟩ := h
  have hmessages : (TeamMap.messages kind m₁).Perm (TeamMap.messages kind m') := by
    clear hperm
    induction hinner with
    | nil => rfl
    | cons hhead _ ih => exact (hhead.2.flatMap_right _).append ih
  exact hmessages.symm.trans (hperm.flatMap_right _).symm

/-- The batch as a transfer goes through it. -/
structure Reorder (batch batch' : TeamBatch A D R) : Prop where
  ams : MapReorder batch.ams batch'.ams
  returnAms : MapReorder batch.returnAms batch'.returnAms
  nonAms : batch'.nonAms = batch.nonAms

variable {batch batch' : TeamBatch A D R}

theorem Reorder.fits (h : Reorder batch batch') (hb : BatchFits C batch) : BatchFits C batch' :=
  ⟨h.ams.fits hb.ams, h.returnAms.fits hb.returnAms, h.nonAms ▸ hb.nonAms⟩

theorem Reorder.contentSize_eq (h : Reorder batch batch') :
    contentSize C batch' = contentSize C batch := by
  rw [contentSize, contentSize, h.ams.length_bytes, h.returnAms.length_bytes, h.nonAms]

theorem Reorder.messages (h : Reorder batch batch') : batch'.messages.Perm batch.messages := by
  rw [TeamBatch.messages, TeamBatch.messages, h.nonAms]
  exact ((h.ams.messages _).append (h.returnAms.messages _)).append_right _

/-! ## The whole buffer -/

/-- What a round of the loop reads, and what it yields. -/
def blocks (C : Codec A D R) (batch : TeamBatch A D R) :
    List (List UInt8 × List (Received A R)) :=
  (if batch.ams.length > 0 then
    [(mapBytes C .am batch.ams, (batch.ams.messages .am).map (Message.received C))] else []) ++
  (if batch.returnAms.length > 0 then
    [(mapBytes C .returnAm batch.returnAms,
      (batch.returnAms.messages .ret).map (Message.received C))] else []) ++
  batch.nonAms.map fun e => (nonAmBytes C e, [Message.received C ⟨e.1, e.2.1⟩])

theorem blocks_bytes (C : Codec A D R) (batch : TeamBatch A D R) :
    (blocks C batch).flatMap Prod.fst =
      (if batch.ams.length > 0 then mapBytes C .am batch.ams else []) ++
        ((if batch.returnAms.length > 0 then mapBytes C .returnAm batch.returnAms else []) ++
          batch.nonAms.flatMap (nonAmBytes C)) := by
  simp only [blocks, List.flatMap_append, List.flatMap_map, List.append_assoc]
  congr 1
  · split <;> simp
  · congr 1
    split <;> simp

theorem blocks_received (C : Codec A D R) (batch : TeamBatch A D R) :
    (blocks C batch).flatMap Prod.snd = batch.messages.map (Message.received C) := by
  have hmap : ∀ (m : TeamMap A) (kind : A → AmId → LamellarData A D R) (bs : List UInt8),
      (if m.length > 0 then [(bs, (m.messages kind).map (Message.received C))] else []).flatMap
        Prod.snd = (m.messages kind).map (Message.received C) := by
    intro m kind bs
    cases m <;> simp [TeamMap.messages]
  simp only [blocks, List.flatMap_append, hmap, TeamBatch.messages, List.map_append,
    List.flatMap_map, List.map_map, Function.comp_def, ← List.map_eq_flatMap]

theorem length_blocks :
    ((blocks C batch).flatMap Prod.fst).length = bufferSize batch (contentSize C batch) := by
  rw [blocks_bytes, List.length_append, List.length_append, bufferSize, contentSize]
  have hmap : ∀ (m : TeamMap A) (cmd : Cmd),
      (if m.length > 0 then mapBytes C cmd m else []).length =
        (if m.length > 0 then batchHeaderLen else 0) + (m.flatMap (teamBytes C cmd)).length := by
    intro m cmd
    cases m with
    | nil => rfl
    | cons t m =>
      simp only [List.length_cons, Nat.zero_lt_succ, gt_iff_lt, if_true, mapBytes,
        List.length_append, BatchHeader.length_encode]
  rw [hmap, hmap]
  split <;> split <;> omega

/-- Each round of the loop reads one of the blocks. -/
theorem execMsg_reads_blocks (hC : C.Lawful) (hb : BatchFits C batch) (data : List UInt8)
    {b : List UInt8 × List (Received A R)} (hmem : b ∈ blocks C batch) (hlt : b.1.length < 2 ^ 64) :
    Reads data (execMsg C data) b.1 b.2 ∧ b.1 ≠ [] := by
  simp only [blocks, List.mem_append, List.mem_map] at hmem
  rcases hmem with (hmem | hmem) | ⟨e, he, rfl⟩
  · split at hmem
    · cases List.mem_singleton.mp hmem
      exact ⟨execMsg_reads_map (fun _ _ _ => rfl) hC data hb.ams hlt, fun hnil => by cases hnil⟩
    · cases hmem
  · split at hmem
    · cases List.mem_singleton.mp hmem
      exact ⟨execMsg_reads_map (fun _ _ _ => rfl) hC data hb.returnAms hlt,
        fun hnil => by cases hnil⟩
    · cases hmem
  · have hfit := hb.nonAms e he
    dsimp only at hlt
    rw [length_nonAmBytes hC hfit] at hlt
    refine ⟨execMsg_reads_nonAm hC data hfit hlt, ?_⟩
    obtain ⟨req, d, n⟩ := e
    cases d with
    | am a id => exact hfit.elim
    | ret a id => exact hfit.elim
    | data d darcs darcListSize => exact fun hnil => by cases hnil
    | unit => exact fun hnil => by cases hnil

theorem createTxTask_writes (hC : C.Lawful) (hb : BatchFits C batch) {size : ℕ} :
    Writes size (fun c => serializeAmBatch C batch.ams .am c >>= fun c =>
      serializeAmBatch C batch.returnAms .returnAm c >>= fun c =>
        serializeNonAmBatch C batch.nonAms c) ((blocks C batch).flatMap Prod.fst) := by
  rw [blocks_bytes]
  exact (serializeAmBatch_writes hC hb.ams).bind ((serializeAmBatch_writes hC hb.returnAms).bind
    (Writes.foldlM fun e he => serializeNonAm_writes hC (hb.nonAms e he)))

/-- The transfer fills the buffer and is read back. -/
theorem roundTrip (hC : C.Lawful) (stallMark : UInt64) (items : List (Item A D R))
    {batch : TeamBatch A D R}
    (horder : Reorder (addAll C teamAmBatcher stallMark items).1 batch) (data : List UInt8)
    (hlen : data.length = bufferSize batch (addAll C teamAmBatcher stallMark items).2)
    (hlt : data.length < 2 ^ 64) :
    ∃ c rs, createTxTask C batch data = some c ∧ c.i = data.length ∧
      execBatchedMsg C c.buf = some (rs, data.length) ∧
      rs.Perm (items.map (Item.received C)) := by
  obtain ⟨hfits, hsize⟩ := addAll_fits hC stallMark items
  have hreceived := received_addAll (C := C) teamAmBatcher stallMark items
  have hb := horder.fits hfits
  have hbytes : data.length = ((blocks C batch).flatMap Prod.fst).length := by
    rw [length_blocks, horder.contentSize_eq, ← hsize, hlen]
  obtain ⟨c, hc, hwrote⟩ := createTxTask_writes hC hb ⟨data, 0⟩ [] .start
    (by rw [List.length_nil]; omega)
  rw [List.nil_append, hbytes] at hwrote
  obtain ⟨hbuf, hi⟩ := hwrote.full
  have hblock : ∀ b ∈ blocks C batch, Reads c.buf (execMsg C c.buf) b.1 b.2 ∧ b.1 ≠ [] := by
    intro b hmem
    have hle := length_le_of_mem Prod.fst hmem
    exact execMsg_reads_blocks hC hb c.buf hmem (by omega)
  have hread := whileExec_reads (i := 0) (fun b hmem => (hblock b hmem).1)
    (fun b hmem => (hblock b hmem).2) (hbuf ▸ At.start c.buf) (c.buf.length + 1)
    (Nat.lt_succ_of_le (hbuf ▸ length_le_flatMap fun b hmem => (hblock b hmem).2))
  refine ⟨c, batch.messages.map (Message.received C), hc, hi.trans hbytes.symm, ?_, ?_⟩
  · rw [execBatchedMsg, hread, blocks_received, hbuf, ← hbytes]
  · exact (horder.messages.map _).trans hreceived

theorem MapReorder.refl (m : TeamMap A) : MapReorder m m :=
  ⟨m, .rfl, List.forall₂_same.mpr fun _ _ => ⟨rfl, .rfl⟩⟩

theorem Reorder.refl (batch : TeamBatch A D R) : Reorder batch batch :=
  ⟨.refl _, .refl _, rfl⟩

end TeamAmBatcher

/-! ## Both batchers -/

/-- The size that the `add` functions add up, with the batch headers, is the number of bytes
that `create_tx_task` writes, in whatever order it goes through the maps; and
`exec_batched_msg` reads the whole buffer, and from it the messages of the batch. The length
of the buffer is a `usize`. -/
theorem batch_roundTrip (C : Codec A D R) (hC : C.Lawful) (stallMark : UInt64)
    (items : List (Item A D R)) :
    (∀ data : List UInt8, data.length = (addAll C simpleBatcher stallMark items).2 →
      data.length < 2 ^ 64 →
      ∃ c rs,
        SimpleBatcher.createTxTask C (addAll C simpleBatcher stallMark items).1 data = some c ∧
        c.i = data.length ∧ SimpleBatcher.execBatchedMsg C c.buf = some (rs, data.length) ∧
        rs.Perm (items.map (Item.received C))) ∧
    ∀ batch, TeamAmBatcher.Reorder (addAll C teamAmBatcher stallMark items).1 batch →
      ∀ data : List UInt8,
      data.length = TeamAmBatcher.bufferSize batch (addAll C teamAmBatcher stallMark items).2 →
      data.length < 2 ^ 64 →
      ∃ c rs, TeamAmBatcher.createTxTask C batch data = some c ∧
        c.i = data.length ∧ TeamAmBatcher.execBatchedMsg C c.buf = some (rs, data.length) ∧
        rs.Perm (items.map (Item.received C)) :=
  ⟨fun data hlen hlt => SimpleBatcher.roundTrip hC stallMark items data hlen hlt,
    fun _ horder data hlen hlt => TeamAmBatcher.roundTrip hC stallMark items horder data hlen hlt⟩

/-- Active messages of one byte, results and lists of pointers as they are. -/
def byteCodec : Codec UInt8 (List UInt8) UInt8 where
  amId _ := 7
  amSize _ := 1
  serializeAm a := [a]
  unpack _ bs := bs.head?
  dataSize := List.length
  serializeData d := d
  ptrsSize := List.length
  serializePtrs rs := rs
  deserializePtrs := some

theorem byteCodec_lawful : byteCodec.Lawful :=
  ⟨fun _ => rfl, fun _ _ => rfl, fun _ => rfl, fun _ => rfl, fun _ => rfl⟩

/-- One message of each kind, the active messages of two teams. -/
def mixedItems : List (Item UInt8 (List UInt8) UInt8) :=
  let req (teamAddr id : UInt64) : ReqMetaData :=
    ⟨0, some 1, ⟨id, 0⟩, ⟨.root (.globalArch 2), 0⟩, teamAddr⟩
  [.am (req 64 1) 5, .ret (req 128 2) 6, .data (req 64 3) [1, 2, 3] [9], .am (req 128 4) 7,
    .unit (req 64 5), .am (req 64 6) 8]

theorem batch_roundTrip_mixed :
    (∃ c rs, SimpleBatcher.createTxTask byteCodec (addAll byteCodec simpleBatcher 0 mixedItems).1
        (List.replicate 192 0) = some c ∧ c.i = 192 ∧
      SimpleBatcher.execBatchedMsg byteCodec c.buf = some (rs, 192) ∧
      rs.Perm (mixedItems.map (Item.received byteCodec))) ∧
    ∃ c rs, TeamAmBatcher.createTxTask byteCodec (addAll byteCodec teamAmBatcher 0 mixedItems).1
        (List.replicate 264 0) = some c ∧ c.i = 264 ∧
      TeamAmBatcher.execBatchedMsg byteCodec c.buf = some (rs, 264) ∧
      rs.Perm (mixedItems.map (Item.received byteCodec)) := by
  obtain ⟨hsimple, hteam⟩ := batch_roundTrip byteCodec byteCodec_lawful 0 mixedItems
  have h := hsimple (List.replicate 192 0) (by rw [List.length_replicate]; rfl)
    (by rw [List.length_replicate]; decide)
  have h' := hteam _ (.refl _) (List.replicate 264 0) (by rw [List.length_replicate]; rfl)
    (by rw [List.length_replicate]; decide)
  rw [List.length_replicate] at h h'
  exact ⟨h, h'⟩

end Lamellar.Batching
