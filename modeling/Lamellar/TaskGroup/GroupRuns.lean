import Lamellar.Lib.Folds
import Lamellar.TaskGroup.Typed

/-!
# What a `GroupAm` runs

The vectors of a `GroupAm` give back the fields of its messages, its static fields those of the
first one only; without a field that is not static, its length is 1, and it runs the first message
only (`seen`). So its messages are run as they are when they agree on the static fields and there
is a field, and the same holds of the messages that they return (`Clean`, `run_exact`).
-/

namespace Lamellar.TaskGroup

variable {V T : Type} {s : Shape}

/-! ## The vectors -/

namespace GroupAm

/-- The `GroupAm` of the messages `a :: as` -/
def ofList (a : Am V s) (as : List (Am V s)) : GroupAm V s :=
  ⟨fun n => (a :: as).map fun b => b.fields n, a.statics⟩

theorem addAm_ofList (a b : Am V s) (as : List (Am V s)) :
    (ofList a as).addAm b = ofList a (as ++ [b]) := by
  simp [addAm, ofList]

theorem foldl_addReturned (a : Am V s) (as : List (Am V s)) :
    (a :: as).foldl addReturned none = some (ofList a as) := by
  rw [List.foldl_cons]
  show as.foldl addReturned (some (ofList a [])) = _
  have hfold : ∀ bs, as.foldl addReturned (some (ofList a bs)) = some (ofList a (bs ++ as)) := by
    induction as with
    | nil => simp
    | cons b as ih =>
      intro bs
      rw [List.foldl_cons, addReturned, addAm_ofList, ih]
      simp
  exact hfold []

end GroupAm

/-- The messages of a batch that its `GroupAm` runs, and as what it runs them -/
def seen : List (ℕ × Am V s) → List (ℕ × Am V s)
  | [] => []
  | e :: es =>
    if 0 < s.numFields then (e :: es).map fun e' => (e'.1, ⟨e'.2.fields, e.2.statics⟩) else [e]

theorem fields_ofList (e : ℕ × Am V s) (es : List (ℕ × Am V s)) (n : Fin s.numFields) :
    (GroupAm.ofList e.2 (es.map Prod.snd)).fields n =
      (e :: es).map fun e' => e'.2.fields n := by
  simp [GroupAm.ofList]

theorem ams_ofList (e : ℕ × Am V s) (es : List (ℕ × Am V s)) :
    (GroupAm.ofList e.2 (es.map Prod.snd)).ams = some ((seen (e :: es)).map Prod.snd) := by
  rw [GroupAm.ams, GroupAm.len, seen]
  split
  · have hlen : ((GroupAm.ofList e.2 (es.map Prod.snd)).fields ⟨0, by assumption⟩).length =
        ((e :: es).map fun e' => (⟨e'.2.fields, e.2.statics⟩ : Am V s)).length := by
      rw [fields_ofList, List.length_map, List.length_map]
    rw [hlen, List.map_map]
    refine Folds.mapM_range fun i a hi => ?_
    rw [List.getElem?_map, Option.map_eq_some_iff] at hi
    obtain ⟨e', he', rfl⟩ := hi
    obtain ⟨hi, rfl⟩ := List.getElem?_eq_some_iff.mp he'
    have hread : ∀ n, i < ((GroupAm.ofList e.2 (es.map Prod.snd)).fields n).length := by
      intro n
      rwa [fields_ofList, List.length_map]
    rw [GroupAm.read, dif_pos hread]
    congr 2
    funext n
    simp only [fields_ofList, List.get_eq_getElem, List.getElem_map]
  · rename_i hnone
    have hread : (GroupAm.ofList e.2 (es.map Prod.snd)).read 0 = some e.2 := by
      rw [GroupAm.read, dif_pos fun n => absurd (Nat.zero_lt_of_lt n.isLt) hnone]
      have hfields : ∀ f : Fin s.numFields → V, f = e.2.fields :=
        fun f => funext fun n => absurd (Nat.zero_lt_of_lt n.isLt) hnone
      exact congrArg some (Am.ext (hfields _) rfl)
    simp [List.range_one, hread]

/-- The messages that are run keep their numbers, the first ones of the batch. -/
theorem seen_ids (es : List (ℕ × Am V s)) (rest : List ℕ) :
    ∃ rest', es.map Prod.fst ++ rest = (seen es).map Prod.fst ++ rest' := by
  cases es with
  | nil => exact ⟨rest, rfl⟩
  | cons e es =>
    rw [seen]
    split
    · exact ⟨rest, by simp⟩
    · exact ⟨es.map Prod.fst ++ rest, by simp⟩

theorem seen_ne_nil {es : List (ℕ × Am V s)} (h : es ≠ []) : seen es ≠ [] := by
  cases es with
  | nil => exact absurd rfl h
  | cons e es =>
    rw [seen]
    split <;> simp

/-! ## The runs -/

/-- The run of a message -/
def Executed.ofEntry (pe : ℕ) (e : ℕ × Am V s) : Executed V := ⟨pe, e.1, s, e.2⟩

theorem zipWith_entries {β γ : Type} (f : ℕ → β → γ) (es : List (ℕ × β)) (rest : List ℕ) :
    List.zipWith f (es.map Prod.fst ++ rest) (es.map Prod.snd) = es.map fun e => f e.1 e.2 := by
  induction es with
  | nil => simp
  | cons e es ih => simp [ih]

theorem zipWith_seen {β : Type} (f : ℕ → Am V s → β) (es : List (ℕ × Am V s)) (rest : List ℕ) :
    List.zipWith f (es.map Prod.fst ++ rest) ((seen es).map Prod.snd) =
      (seen es).map fun e => f e.1 e.2 := by
  obtain ⟨rest', hids⟩ := seen_ids es rest
  rw [hids, zipWith_entries]

namespace AmType

/-- What the `GroupAm` of a batch returns on PE `pe`, and what is run. -/
def run {V T : Type} {s : Shape} (t : AmType V s T) (pe : ℕ) (es : List (ℕ × Am V s)) :
    Output T × List (Executed V) :=
  match t with
  | .noReturn => (.unit (), (seen es).map (.ofEntry pe))
  | .returnData output =>
    (.val ((seen es).map fun e => output e.1 pe e.2), (seen es).map (.ofEntry pe))
  | .returnAm am ret =>
    let r := ret.run pe ((seen es).map fun e => (e.1, am e.1 pe e.2))
    (r.1, (seen es).map (.ofEntry pe) ++ r.2)

theorem executed_seen (pe : ℕ) (es : List (ℕ × Am V s)) (rest : List ℕ) :
    executed (es.map Prod.fst ++ rest) pe ((seen es).map Prod.snd) =
      (seen es).map (.ofEntry pe) :=
  zipWith_seen _ es rest

theorem exec_ofList (t : AmType V s T) (pe : ℕ) (e : ℕ × Am V s) (es : List (ℕ × Am V s))
    (rest : List ℕ) : t.exec ((e :: es).map Prod.fst ++ rest) pe
      (GroupAm.ofList e.2 (es.map Prod.snd)) = some (t.run pe (e :: es)) := by
  induction t generalizing rest with
  | noReturn =>
    simp only [exec, run, ams_ofList, executed_seen, Option.bind_eq_bind, Option.bind_some]
  | returnData output =>
    simp only [exec, run, ams_ofList, executed_seen, zipWith_seen, Option.bind_eq_bind,
      Option.bind_some]
  | @returnAm s s' T am ret ih =>
    obtain ⟨e', es', hseen⟩ := List.exists_cons_of_ne_nil (seen_ne_nil (List.cons_ne_nil e es))
    obtain ⟨rest', hids⟩ := seen_ids (e :: es) rest
    have hfold := GroupAm.foldl_addReturned (am e'.1 pe e'.2) (es'.map fun e => am e.1 pe e.2)
    have hnext := ih (e'.1, am e'.1 pe e'.2) (es'.map fun e => (e.1, am e.1 pe e.2)) rest'
    simp only [List.map_cons, List.map_map, Function.comp_def] at hnext
    simp only [exec, ams_ofList, Option.bind_eq_bind, Option.bind_some, executed_seen,
      zipWith_seen, run]
    rw [hids, hseen]
    simp only [List.map_cons, hfold, hnext, Option.bind_some]

/-! ## Messages that are run as they are -/

/-- The runs of a message on PE `pe`, and of those that it returns -/
def trace {V T : Type} {s : Shape} (t : AmType V s T) (k pe : ℕ) (a : Am V s) :
    List (Executed V) :=
  match t with
  | .noReturn | .returnData _ => [.ofEntry pe (k, a)]
  | .returnAm am ret => .ofEntry pe (k, a) :: ret.trace k pe (am k pe a)

/-- What a message yields on PE `pe` -/
def value {V T : Type} {s : Shape} (t : AmType V s T) (k pe : ℕ) (a : Am V s) : T :=
  match t with
  | .noReturn => ()
  | .returnData output => output k pe a
  | .returnAm am ret => ret.value k pe (am k pe a)

/-- Two messages that a batch keeps apart, and whose returned messages it keeps apart -/
def Apart {V T : Type} {s : Shape} (t : AmType V s T) (pe : ℕ) (e e' : ℕ × Am V s) : Prop :=
  match t with
  | .noReturn | .returnData _ => 0 < s.numFields ∧ e.2.statics = e'.2.statics
  | .returnAm am ret => (0 < s.numFields ∧ e.2.statics = e'.2.statics) ∧
      ret.Apart pe (e.1, am e.1 pe e.2) (e'.1, am e'.1 pe e'.2)

/-- A batch whose messages are run as they are, and so are those that they return. -/
def Clean {V T : Type} {s : Shape} (t : AmType V s T) (pe : ℕ) (es : List (ℕ × Am V s)) : Prop :=
  match t with
  | .noReturn | .returnData _ => seen es = es
  | .returnAm am ret => seen es = es ∧ ret.Clean pe (es.map fun e => (e.1, am e.1 pe e.2))

theorem seen_eq_iff {es : List (ℕ × Am V s)} : seen es = es ↔
    es.Pairwise fun e e' => 0 < s.numFields ∧ e.2.statics = e'.2.statics := by
  cases es with
  | nil => simp [seen]
  | cons e es =>
    rw [seen]
    split
    · rename_i hpos
      rw [← List.map_id (e :: es), List.map_map, List.map_inj_left]
      constructor
      · intro h
        have hall : ∀ e' ∈ e :: es, e.2.statics = e'.2.statics := fun e' he' =>
          congrArg (fun e => e.2.statics) (h e' he')
        rw [List.map_id]
        refine List.pairwise_of_forall_mem_list fun a ha b hb => ⟨hpos, ?_⟩
        exact (hall a ha).symm.trans (hall b hb)
      · intro h e' he'
        rw [List.map_id] at h
        have hstatics : e.2.statics = e'.2.statics := by
          rcases List.mem_cons.mp he' with rfl | he'
          · rfl
          · exact ((List.pairwise_cons.mp h).1 e' he').2
        exact Prod.ext rfl (Am.ext rfl hstatics)
    · rename_i hzero
      constructor
      · intro h
        cases h
        exact List.pairwise_singleton _ _
      · intro h
        cases es with
        | nil => rfl
        | cons e' es =>
          exact absurd ((List.pairwise_cons.mp h).1 e' List.mem_cons_self).1 hzero

theorem clean_iff {t : AmType V s T} {pe : ℕ} {es : List (ℕ × Am V s)} :
    t.Clean pe es ↔ es.Pairwise (t.Apart pe) := by
  induction t with
  | noReturn => exact seen_eq_iff
  | returnData output => exact seen_eq_iff
  | returnAm am ret ih =>
    rw [Clean, seen_eq_iff, ih, List.pairwise_map]
    exact List.pairwise_and_iff.symm

theorem run_unit {t : AmType V s T} (h : t.isUnit = true) (k pe pe' : ℕ) (a : Am V s)
    (es : List (ℕ × Am V s)) : (t.run pe es).1 = .unit (t.value k pe' a) := by
  induction t with
  | noReturn => rfl
  | returnData output => cases h
  | returnAm am ret ih => exact ih h _ _

theorem run_val {t : AmType V s T} (h : t.isUnit = false) {pe : ℕ} {es : List (ℕ × Am V s)}
    (hclean : t.Clean pe es) :
    (t.run pe es).1 = .val (es.map fun e => t.value e.1 pe e.2) := by
  induction t with
  | noReturn => cases h
  | returnData output =>
    have hseen : seen es = es := hclean
    rw [run, hseen]
    rfl
  | returnAm am ret ih =>
    obtain ⟨hseen, hret⟩ := hclean
    simp only [run, hseen, ih h hret, List.map_map]
    rfl

/-! ## The runs of one message -/

/-- What has been run for message `k` on PE `pe` -/
def ofMessage (k pe : ℕ) (log : List (Executed V)) : List (Executed V) :=
  log.filter fun r => r.k = k ∧ r.pe = pe

theorem ofMessage_append (k pe : ℕ) (log log' : List (Executed V)) :
    ofMessage k pe (log ++ log') = ofMessage k pe log ++ ofMessage k pe log' :=
  List.filter_append _ _

theorem ofMessage_entries (k pe : ℕ) (es : List (ℕ × Am V s)) :
    ofMessage k pe (es.map (.ofEntry pe)) =
      (es.filter fun e => e.1 = k).map (.ofEntry pe) := by
  rw [ofMessage, List.filter_map]
  refine congrArg _ (List.filter_congr fun e _ => ?_)
  show decide (e.1 = k ∧ pe = pe) = decide (e.1 = k)
  rw [decide_eq_decide]
  exact and_iff_left rfl

theorem ofEntry_inj {pe : ℕ} {e e' : ℕ × Am V s}
    (h : Executed.ofEntry pe e = Executed.ofEntry pe e') : e = e' := by
  obtain ⟨-, hk, -, ham⟩ := Executed.mk.inj h
  exact Prod.ext hk (eq_of_heq ham)

theorem mem_seen_ids {es : List (ℕ × Am V s)} {k : ℕ} (h : k ∈ (seen es).map Prod.fst) :
    k ∈ es.map Prod.fst := by
  obtain ⟨rest, hids⟩ := seen_ids es []
  rw [List.append_nil] at hids
  rw [hids]
  exact List.mem_append_left _ h

/-- A batch runs on its PE, and for its messages only. -/
theorem run_mem {t : AmType V s T} {pe : ℕ} {es : List (ℕ × Am V s)} {r : Executed V}
    (h : r ∈ (t.run pe es).2) : r.pe = pe ∧ r.k ∈ (seen es).map Prod.fst := by
  have hentry : ∀ {s : Shape} {es : List (ℕ × Am V s)}, r ∈ (seen es).map (.ofEntry pe) →
      r.pe = pe ∧ r.k ∈ (seen es).map Prod.fst := by
    intro s es hr
    obtain ⟨e, he, rfl⟩ := List.mem_map.mp hr
    exact ⟨rfl, List.mem_map_of_mem he⟩
  induction t with
  | noReturn => exact hentry h
  | returnData output => exact hentry h
  | returnAm am ret ih =>
    rcases List.mem_append.mp h with h | h
    · exact hentry h
    · obtain ⟨hpe, hk⟩ := ih h
      have hids := mem_seen_ids hk
      rw [List.map_map] at hids
      exact ⟨hpe, hids⟩

theorem filter_id {es : List (ℕ × Am V s)} (hnodup : (es.map Prod.fst).Nodup) {e : ℕ × Am V s}
    (he : e ∈ es) : es.filter (fun e' => e'.1 = e.1) = [e] := by
  induction es with
  | nil => cases he
  | cons a es ih =>
    obtain ⟨ha, hes⟩ := List.nodup_cons.mp hnodup
    rw [List.filter_cons]
    rcases List.mem_cons.mp he with rfl | he
    · have hnil : es.filter (fun e' => e'.1 = e.1) = [] := by
        refine List.filter_eq_nil_iff.mpr fun e' he' => ?_
        have hne : e'.1 ≠ e.1 := fun heq => ha (heq ▸ List.mem_map_of_mem he')
        simpa using hne
      simp [hnil]
    · have hne : a.1 ≠ e.1 := fun heq => ha (heq ▸ List.mem_map_of_mem he)
      simp [hne, ih hes he]

theorem ofMessage_run_of_clean {t : AmType V s T} {pe : ℕ} {es : List (ℕ × Am V s)}
    (hnodup : (es.map Prod.fst).Nodup) (hclean : t.Clean pe es) {e : ℕ × Am V s} (he : e ∈ es) :
    ofMessage e.1 pe (t.run pe es).2 = t.trace e.1 pe e.2 := by
  have hentry : ∀ {s : Shape} {es : List (ℕ × Am V s)} {e : ℕ × Am V s}, (es.map Prod.fst).Nodup →
      seen es = es → e ∈ es →
      ofMessage e.1 pe ((seen es).map (.ofEntry pe)) = [.ofEntry pe e] := by
    intro s es e hnodup hseen he
    rw [hseen, ofMessage_entries, filter_id hnodup he]
    rfl
  induction t with
  | noReturn => exact hentry hnodup hclean he
  | returnData output => exact hentry hnodup hclean he
  | returnAm am ret ih =>
    obtain ⟨hseen, hret⟩ := hclean
    have hnodup' : ((es.map fun e => (e.1, am e.1 pe e.2)).map Prod.fst).Nodup := by
      rwa [List.map_map]
    have hnext := ih hnodup' hret (List.mem_map_of_mem he)
    rw [run, ofMessage_append, hentry hnodup hseen he, hseen]
    exact congrArg _ hnext

/-- The first run for a message is of that message only if the batch runs it as it is. -/
theorem mem_seen_of_first {pe : ℕ} {es : List (ℕ × Am V s)} {e : ℕ × Am V s}
    {rest tl : List (Executed V)} (hrest : ∀ r ∈ rest, r.k ∈ (seen es).map Prod.fst)
    (h : ofMessage e.1 pe ((seen es).map (.ofEntry pe) ++ rest) = .ofEntry pe e :: tl) :
    e ∈ seen es := by
  rw [ofMessage_append, ofMessage_entries] at h
  cases hfilter : (seen es).filter fun e' => e'.1 = e.1 with
  | nil =>
    rw [hfilter, List.map_nil, List.nil_append] at h
    have hmem : Executed.ofEntry pe e ∈ ofMessage e.1 pe rest := h ▸ List.mem_cons_self
    obtain ⟨e', he', hid⟩ := List.mem_map.mp (hrest _ (List.mem_of_mem_filter hmem))
    have hnot := List.filter_eq_nil_iff.mp hfilter e' he'
    exact absurd (decide_eq_true hid) hnot
  | cons e' es' =>
    rw [hfilter, List.map_cons, List.cons_append] at h
    have heq := ofEntry_inj (List.cons.inj h).1
    have hmem : e' ∈ (seen es).filter fun e' => e'.1 = e.1 := hfilter ▸ List.mem_cons_self
    exact heq ▸ List.mem_of_mem_filter hmem

theorem seen_eq_of_mem {es : List (ℕ × Am V s)} (hnodup : (es.map Prod.fst).Nodup)
    (h : ∀ e ∈ es, e ∈ seen es) : seen es = es := by
  cases es with
  | nil => rfl
  | cons e es =>
    rw [seen] at h ⊢
    split
    · rename_i hpos
      rw [if_pos hpos] at h
      conv_rhs => rw [← List.map_id (e :: es)]
      refine List.map_congr_left fun a ha => ?_
      obtain ⟨b, hb, hab⟩ := List.mem_map.mp (h a ha)
      have hid : b.1 = a.1 := by rw [← hab]
      have hba : b = a := List.inj_on_of_nodup_map hnodup hb ha hid
      rw [← hba] at hab ⊢
      exact hab
    · rename_i hzero
      rw [if_neg hzero] at h
      cases es with
      | nil => rfl
      | cons e' es =>
        have heq := List.mem_singleton.mp (h e' (List.mem_cons_of_mem _ List.mem_cons_self))
        rw [heq] at hnodup
        exact absurd List.mem_cons_self (List.nodup_cons.mp hnodup).1

/-- A batch runs each of its messages exactly once, with all that it returns, if and only if it
keeps them apart. -/
theorem run_exact {t : AmType V s T} {pe : ℕ} {es : List (ℕ × Am V s)}
    (hnodup : (es.map Prod.fst).Nodup) :
    (∀ e ∈ es, ofMessage e.1 pe (t.run pe es).2 = t.trace e.1 pe e.2) ↔ t.Clean pe es := by
  refine ⟨fun h => ?_, fun hclean e he => ofMessage_run_of_clean hnodup hclean he⟩
  have hentry : ∀ {s : Shape} {es : List (ℕ × Am V s)}, (es.map Prod.fst).Nodup →
      (∀ e ∈ es, ofMessage e.1 pe ((seen es).map (.ofEntry pe)) = [.ofEntry pe e]) →
      seen es = es := by
    intro s es hnodup h
    refine seen_eq_of_mem hnodup fun e he => ?_
    have hlog := h e he
    rw [← List.append_nil ((seen es).map (Executed.ofEntry pe))] at hlog
    exact mem_seen_of_first (fun r hr => (List.not_mem_nil hr).elim) hlog
  induction t with
  | noReturn => exact hentry hnodup h
  | returnData output => exact hentry hnodup h
  | returnAm am ret ih =>
    have hseen : seen es = es := by
      refine seen_eq_of_mem hnodup fun e he => mem_seen_of_first (fun r hr => ?_) (h e he)
      have hids := mem_seen_ids (run_mem hr).2
      rwa [List.map_map] at hids
    have hnodup' : ((es.map fun e => (e.1, am e.1 pe e.2)).map Prod.fst).Nodup := by
      rwa [List.map_map]
    refine ⟨hseen, ih hnodup' fun e' he' => ?_⟩
    obtain ⟨e, he, rfl⟩ := List.mem_map.mp he'
    have hlog := h e he
    rw [run, ofMessage_append, ofMessage_entries, hseen, filter_id hnodup he] at hlog
    exact (List.cons.inj hlog).2

end AmType

end Lamellar.TaskGroup
