import Lamellar.Lib.Roster
import Lamellar.Lib.Transition
import Mathlib.Logic.Function.Basic

/-!
# Read-modify-write operations

Agents that each have a list of operations on cells that they share. An operation loads its cell,
and later stores what it makes of the value: under the lock of the cell, or, where a cell has none,
with a compare-and-exchange, so that the operation begins again if the cell has changed. An
operation on a cell without a lock may also be a single instruction. An operation that can make
nothing of the value panics: its agent gives its lock back and does nothing more. Others may write a
cell that is not locked.

In every run the operations take effect one after another, each in the step in which it stores, and
each has the result that it gets in this order (`Reachable.inv`). As long as one is left and none
panics, some agent can go on (`Reachable.finishes`).
-/

namespace Lamellar.ReadModifyWrite

variable {C V R K Λ : Type}

/-- An operation that is `atomic` is one instruction, where its cell has no lock. It panics on a
value of which it makes no new one. -/
structure Op (C V R K : Type) where
  cell : C
  atomic : Bool
  new : V → Option V
  res : V → R
  tag : K

/-- `keep` tells whether the agent gives a lock back only when it has nothing left to do, and `lost`
is what it had still to do when it panicked. -/
structure Agent (C V R K : Type) where
  todo : List (Op C V R K)
  keep : Bool
  loaded : Option V
  done : List (K × R)
  lost : List (Op C V R K)

/-- What happens to the memory -/
inductive Event (C V R K : Type) where
  | op (op : Op C V R K)
  | write (c : C) (v : V)

/-- `given` is what each agent had to do at first, and `log` is what has happened to the memory. -/
structure State (C V R K Λ : Type) where
  mem : C → V
  owner : Λ → Option ℕ
  agents : List (Agent C V R K)
  given : List (List (Op C V R K))
  log : List (Event C V R K)

inductive Action (C V R K Λ : Type) where
  | spawn (todo : List (Op C V R K)) (keep : Bool)
  | acquire (k : ℕ)
  | load (k : ℕ)
  | store (k : ℕ)
  | apply (k : ℕ)
  | panic (k : ℕ)
  | release (k : ℕ) (l : Λ)
  | write (c : C) (v : V)

/-! ## Steps -/

section Step

variable [DecidableEq C] [DecidableEq V] [DecidableEq Λ] (lockOf : C → Option Λ)

/-- The agent that an operation needs to own the lock of its cell -/
def mayAccess (owner : Λ → Option ℕ) (k : ℕ) (c : C) : Bool :=
  match lockOf c with
  | some l => owner l = some k
  | none => true

/-- The operation is one instruction. -/
def Op.single (op : Op C V R K) : Bool := op.atomic && (lockOf op.cell).isNone

/-- The operation panics on no value. -/
def Op.Safe (op : Op C V R K) : Prop := ∀ v, (op.new v).isSome

namespace Agent

/-- The agent after the operation `op`, which was given the value `v` -/
def finish (ag : Agent C V R K) (op : Op C V R K) (todo : List (Op C V R K)) (v : V) :
    Agent C V R K :=
  { ag with todo := todo, loaded := none, done := ag.done ++ [(op.tag, op.res v)] }

/-- The agent after a panic -/
def unwind (ag : Agent C V R K) : Agent C V R K :=
  { ag with todo := [], loaded := none, lost := ag.todo ++ ag.lost }

/-- What has not taken effect -/
def undone (ag : Agent C V R K) : List (Op C V R K) := ag.todo ++ ag.lost

end Agent

namespace State

/-- The operation `op` of agent `k` takes effect: it replaces the value `v` by `w`. -/
def commit (s : State C V R K Λ) (k : ℕ) (ag : Agent C V R K) (op : Op C V R K)
    (todo : List (Op C V R K)) (v w : V) : State C V R K Λ :=
  { s with
    mem := Function.update s.mem op.cell w
    agents := s.agents.set k (ag.finish op todo v)
    log := s.log ++ [.op op] }

def setOwner (s : State C V R K Λ) (l : Λ) (o : Option ℕ) : State C V R K Λ :=
  { s with owner := Function.update s.owner l o }

def step (s : State C V R K Λ) : Action C V R K Λ → Option (State C V R K Λ)
  | .spawn todo keep =>
    some { s with agents := s.agents ++ [⟨todo, keep, none, [], []⟩], given := s.given ++ [todo] }
  | .acquire k => do
    let ag ← s.agents[k]?
    let op ← ag.todo.head?
    let l ← lockOf op.cell
    if s.owner l = none then some (s.setOwner l (some k)) else none
  | .load k => do
    let ag ← s.agents[k]?
    let op ← ag.todo.head?
    if mayAccess lockOf s.owner k op.cell ∧ ¬ op.single lockOf then
      some { s with agents := s.agents.set k { ag with loaded := some (s.mem op.cell) } }
    else none
  | .store k => do
    let ag ← s.agents[k]?
    let v ← ag.loaded
    match ag.todo with
    | [] => none
    | op :: todo => do
      let w ← op.new v
      match lockOf op.cell with
      | some l =>
        let s' := s.commit k ag op todo v w
        some (if ag.keep then s' else s'.setOwner l none)
      | none =>
        if s.mem op.cell = v then some (s.commit k ag op todo v w)
        else some { s with agents := s.agents.set k { ag with loaded := none } }
  | .apply k => do
    let ag ← s.agents[k]?
    let op ← ag.todo.head?
    let w ← op.new (s.mem op.cell)
    if op.single lockOf then some (s.commit k ag op ag.todo.tail (s.mem op.cell) w) else none
  | .panic k => do
    let ag ← s.agents[k]?
    let v ← ag.loaded
    let op ← ag.todo.head?
    if op.new v = none then some { s with agents := s.agents.set k ag.unwind } else none
  | .release k l => do
    let ag ← s.agents[k]?
    if ag.todo = [] ∧ s.owner l = some k then some (s.setOwner l none) else none
  | .write c v =>
    if (lockOf c).all fun l => s.owner l = none then
      some { s with mem := Function.update s.mem c v, log := s.log ++ [.write c v] }
    else none

end State

/-- An agent that keeps its lock has one only. -/
def Allowed : Action C V R K Λ → Prop
  | .spawn todo keep => keep = true → ∀ op ∈ todo, ∀ op' ∈ todo, lockOf op.cell = lockOf op'.cell
  | _ => True

/-- The states of all runs that begin with the memory `mem` -/
abbrev Reachable (mem : C → V) : State C V R K Λ → Prop :=
  Transition.Reach (· = ⟨mem, fun _ => none, [], [], []⟩) (State.step lockOf)
    fun _ act => Allowed lockOf act

end Step

/-! ## Sequential runs -/

section Sequential

variable [DecidableEq C]

def Event.apply (mem : C → V) : Event C V R K → C → V
  | .op o => Function.update mem o.cell ((o.new (mem o.cell)).getD (mem o.cell))
  | .write c v => Function.update mem c v

def Event.op? : Event C V R K → Option (Op C V R K)
  | .op o => some o
  | .write _ _ => none

/-- The memory after the events -/
def replay (mem : C → V) (es : List (Event C V R K)) : C → V := es.foldl Event.apply mem

/-- The result of an event -/
def Event.outcome (mem : C → V) : Event C V R K → Option (K × R)
  | .op o => some (o.tag, o.res (mem o.cell))
  | .write _ _ => none

/-- The results of the operations among the events -/
def outcomes : (C → V) → List (Event C V R K) → List (K × R)
  | _, [] => []
  | mem, e :: es => (e.outcome mem).toList ++ outcomes (e.apply mem) es

theorem replay_append (mem : C → V) (es : List (Event C V R K)) (e : Event C V R K) :
    replay mem (es ++ [e]) = e.apply (replay mem es) := by
  rw [replay, replay, List.foldl_append]
  rfl

theorem outcomes_append (mem : C → V) (es : List (Event C V R K)) (e : Event C V R K) :
    outcomes mem (es ++ [e]) = outcomes mem es ++ (e.outcome (replay mem es)).toList := by
  induction es generalizing mem with
  | nil => exact List.append_nil _
  | cons e' es ih =>
    rw [List.cons_append, outcomes, outcomes, ih, List.append_assoc]
    rfl

end Sequential

/-! ## Every run is a sequential one -/

section Logs

variable {s : State C V R K Λ} {k : ℕ} {ag ag' : Agent C V R K}

/-- An agent is on its way through what it was given. -/
structure Ordered (s : State C V R K Λ) : Prop where
  length_eq : s.agents.length = s.given.length
  tags : ∀ (k : ℕ) (ag : Agent C V R K), s.agents[k]? = some ag → ∃ ops, s.given[k]? = some ops ∧
    ag.done.map Prod.fst ++ ag.undone.map (·.tag) = ops.map (·.tag)

theorem Ordered.set {mem' : C → V} {owner' : Λ → Option ℕ} {log' : List (Event C V R K)}
    (h : Ordered s) (hk : s.agents[k]? = some ag)
    (htags : ag'.done.map Prod.fst ++ ag'.undone.map (·.tag) =
      ag.done.map Prod.fst ++ ag.undone.map (·.tag)) :
    Ordered (⟨mem', owner', s.agents.set k ag', s.given, log'⟩ : State C V R K Λ) where
  length_eq := by
    rw [List.length_set, h.length_eq]
  tags j aj hj := by
    obtain ⟨rfl, rfl⟩ | ⟨-, hold⟩ := Roster.set_cases hk hj
    · rw [htags]
      exact h.tags j ag hk
    · exact h.tags j aj hold

variable [DecidableEq C] {mem : C → V} {op : Op C V R K} {todo : List (Op C V R K)} {v w : V}

/-- The events of the log one after another give the memory and the results of the state. -/
structure Linear (mem : C → V) (s : State C V R K Λ) : Prop where
  mem_eq : s.mem = replay mem s.log
  ops : (s.log.filterMap Event.op? ++ s.agents.flatMap Agent.undone).Perm s.given.flatten
  results : (outcomes mem s.log).Perm (s.agents.flatMap (·.done))

/-- The event of an operation that takes effect -/
theorem Linear.commit (h : Linear mem s) (hk : s.agents[k]? = some ag)
    (htodo : ag.todo = op :: todo) (hv : s.mem op.cell = v) (hw : op.new v = some w) :
    Linear mem (s.commit k ag op todo v w) where
  mem_eq := by
    have hlog : (s.commit k ag op todo v w).log = s.log ++ [.op op] := rfl
    rw [hlog, replay_append, ← h.mem_eq, Event.apply, hv, hw, Option.getD_some]
    rfl
  ops := by
    obtain ⟨rest, hold, hnew⟩ :=
      Roster.exists_perm_flatMap_set Agent.undone (ag.finish op todo v) hk
    have hundone : ag.undone = op :: (ag.finish op todo v).undone := by
      rw [Agent.undone, htodo]
      rfl
    rw [hundone] at hold
    have hops : (s.log ++ [Event.op op]).filterMap Event.op? =
        s.log.filterMap Event.op? ++ [op] := by
      rw [List.filterMap_append]
      rfl
    have hcons : (s.log.filterMap Event.op? ++ [op] ++ ((ag.finish op todo v).undone ++ rest)).Perm
        (s.log.filterMap Event.op? ++ (op :: (ag.finish op todo v).undone ++ rest)) := by
      rw [List.append_assoc]
      exact List.Perm.refl _
    refine (List.Perm.of_eq (congrArg (· ++ _) hops)).trans ?_
    exact ((hnew.append_left _).trans hcons).trans ((hold.symm.append_left _).trans h.ops)
  results := by
    obtain ⟨rest, hold, hnew⟩ :=
      Roster.exists_perm_flatMap_set (fun ag => ag.done) (ag.finish op todo v) hk
    have hout : outcomes mem (s.log ++ [Event.op op]) =
        outcomes mem s.log ++ [(op.tag, op.res v)] := by
      rw [outcomes_append, ← h.mem_eq, Event.outcome, hv]
      rfl
    have hdone : (ag.done ++ rest ++ [(op.tag, op.res v)]).Perm
        ((ag.done ++ [(op.tag, op.res v)]) ++ rest) := by
      rw [List.append_assoc, List.append_assoc]
      exact List.perm_append_comm.append_left _
    refine (List.Perm.of_eq hout).trans ?_
    exact ((h.results.trans hold).append_right _).trans (hdone.trans hnew.symm)

/-- The agent at `k` has taken no effect. -/
theorem Linear.set (h : Linear mem s) (hk : s.agents[k]? = some ag) {owner' : Λ → Option ℕ}
    (hundone : ag'.undone = ag.undone) (hdone : ag'.done = ag.done) :
    Linear mem { s with owner := owner', agents := s.agents.set k ag' } where
  mem_eq := h.mem_eq
  ops := by
    obtain ⟨rest, hold, hnew⟩ := Roster.exists_perm_flatMap_set Agent.undone ag' hk
    rw [hundone] at hnew
    exact ((hnew.trans hold.symm).append_left _).trans h.ops
  results := by
    obtain ⟨rest, hold, hnew⟩ := Roster.exists_perm_flatMap_set (fun ag => ag.done) ag' hk
    rw [hdone] at hnew
    exact h.results.trans (hold.trans hnew.symm)

/-- What an agent has to do is among what has been given. -/
theorem Linear.mem_given (h : Linear mem s) (hk : s.agents[k]? = some ag) (hop : op ∈ ag.todo) :
    op ∈ s.given.flatten :=
  h.ops.mem_iff.mp (List.mem_append_right _ (List.mem_flatMap.mpr
    ⟨ag, List.mem_of_getElem? hk, List.mem_append_left _ hop⟩))

end Logs

section Locks

variable {lockOf : C → Option Λ}

theorem lockOf_of_single {op : Op C V R K} (h : op.single lockOf) : lockOf op.cell = none :=
  Option.isNone_iff_eq_none.mp (Bool.and_eq_true_iff.mp h).2

theorem mayAccess_of_some [DecidableEq Λ] {owner : Λ → Option ℕ} {k : ℕ} {c : C} {l : Λ}
    (h : mayAccess lockOf owner k c) (hl : lockOf c = some l) : owner l = some k := by
  rw [mayAccess, hl] at h
  exact of_decide_eq_true h

variable [DecidableEq Λ]

theorem State.setOwner_self (s : State C V R K Λ) (l : Λ) (o : Option ℕ) :
    (s.setOwner l o).owner l = o :=
  Function.update_self ..

theorem State.setOwner_of_ne (s : State C V R K Λ) {l l' : Λ} (o : Option ℕ) (hne : l' ≠ l) :
    (s.setOwner l o).owner l' = s.owner l' :=
  Function.update_of_ne hne ..

end Locks

section Invariant

variable [DecidableEq C] {lockOf : C → Option Λ} {mem : C → V} {s s' : State C V R K Λ} {k : ℕ}
  {ag ag' : Agent C V R K} {op : Op C V R K} {todo : List (Op C V R K)} {v w : V} {l : Λ}

/-- What an agent has loaded under a lock is still there. -/
structure Protected (lockOf : C → Option Λ) (s : State C V R K Λ) (k : ℕ) (ag : Agent C V R K)
    (v : V) : Prop where
  lock : ∀ op todo l, ag.todo = op :: todo → lockOf op.cell = some l →
    s.owner l = some k ∧ s.mem op.cell = v
  todo_ne : ag.todo ≠ []

structure Inv (lockOf : C → Option Λ) (mem : C → V) (s : State C V R K Λ) : Prop where
  linear : Linear mem s
  ordered : Ordered s
  lost : ∀ ag ∈ s.agents, ag.lost ≠ [] → ∃ op ∈ s.given.flatten, ¬ op.Safe
  protect : ∀ (k : ℕ) (ag : Agent C V R K), s.agents[k]? = some ag → ∀ v, ag.loaded = some v →
    Protected lockOf s k ag v
  /-- The owner of a lock has it for its next operation, or has nothing to do any more. -/
  owned : ∀ (l : Λ) (k : ℕ), s.owner l = some k → ∃ ag, s.agents[k]? = some ag ∧
    ∀ op todo, ag.todo = op :: todo → lockOf op.cell = some l
  keeps : ∀ (k : ℕ) (ag : Agent C V R K), s.agents[k]? = some ag → ag.keep = true →
    ∀ op ∈ ag.todo, ∀ op' ∈ ag.todo, lockOf op.cell = lockOf op'.cell

theorem Inv.init (mem : C → V) :
    Inv lockOf mem (⟨mem, fun _ => none, [], [], []⟩ : State C V R K Λ) where
  linear := ⟨rfl, List.Perm.refl _, List.Perm.refl _⟩
  ordered := ⟨rfl, fun k ag hk => by cases hk⟩
  lost ag hag := absurd hag List.not_mem_nil
  protect k ag hk := by cases hk
  owned l k hk := by cases hk
  keeps k ag hk := by cases hk

theorem Inv.spawn (h : Inv lockOf mem s) {keep : Bool}
    (hkeep : keep = true → ∀ op ∈ todo, ∀ op' ∈ todo, lockOf op.cell = lockOf op'.cell) :
    Inv lockOf mem
      { s with agents := s.agents ++ [⟨todo, keep, none, [], []⟩], given := s.given ++ [todo] }
    where
  linear.mem_eq := h.linear.mem_eq
  linear.ops := by
    rw [List.flatMap_append, List.flatten_append, ← List.append_assoc]
    simpa [Agent.undone] using h.linear.ops.append_right todo
  linear.results := by
    rw [List.flatMap_append]
    simpa using h.linear.results
  ordered.length_eq := by
    rw [List.length_append, List.length_append, h.ordered.length_eq]
    rfl
  ordered.tags j aj hj := by
    rcases Roster.append_new hj with hold | ⟨rfl, rfl⟩
    · obtain ⟨ops, hops, htags⟩ := h.ordered.tags j aj hold
      exact ⟨ops, Roster.append_old hops, htags⟩
    · refine ⟨todo, ?_, by rw [Agent.undone, List.append_nil]; rfl⟩
      rw [h.ordered.length_eq]
      exact List.getElem?_concat_length
  lost aj haj hlost := by
    rw [List.flatten_append]
    rcases List.mem_append.mp haj with hold | hnew
    · obtain ⟨op, hop, hpanic⟩ := h.lost aj hold hlost
      exact ⟨op, List.mem_append_left _ hop, hpanic⟩
    · rw [List.mem_singleton.mp hnew] at hlost
      exact absurd rfl hlost
  protect j aj hj w hw := by
    rcases Roster.append_new hj with hold | ⟨rfl, rfl⟩
    · have hprot := h.protect j aj hold w hw
      exact ⟨hprot.lock, hprot.todo_ne⟩
    · cases hw
  owned l j hj := by
    obtain ⟨aj, haj, hhead⟩ := h.owned l j hj
    exact ⟨aj, Roster.append_old haj, hhead⟩
  keeps j aj hj hk := by
    rcases Roster.append_new hj with hold | ⟨rfl, rfl⟩
    · exact h.keeps j aj hold hk
    · exact hkeep hk

/-- The agent at `k` has loaded something else, which it may. -/
theorem Inv.setLoaded (h : Inv lockOf mem s) (hk : s.agents[k]? = some ag) (w : Option V)
    (hw : ∀ v, w = some v → Protected lockOf s k ag v) :
    Inv lockOf mem { s with agents := s.agents.set k { ag with loaded := w } } where
  linear := h.linear.set hk rfl rfl
  ordered := h.ordered.set hk rfl
  lost aj haj hlost := by
    rcases List.mem_or_eq_of_mem_set haj with hold | rfl
    · exact h.lost aj hold hlost
    · exact h.lost ag (List.mem_of_getElem? hk) hlost
  protect j aj hj v hv := by
    obtain ⟨rfl, rfl⟩ | ⟨-, hold⟩ := Roster.set_cases hk hj
    · exact ⟨(hw v hv).lock, (hw v hv).todo_ne⟩
    · exact ⟨(h.protect j aj hold v hv).lock, (h.protect j aj hold v hv).todo_ne⟩
  owned l j hj := by
    obtain ⟨aj, haj, hhead⟩ := h.owned l j hj
    obtain ⟨aj', haj', rfl | ⟨rfl, rfl⟩⟩ := Roster.set_old { ag with loaded := w } hk haj
    · exact ⟨aj', haj', hhead⟩
    · exact ⟨_, haj', hhead⟩
  keeps j aj hj := by
    obtain ⟨rfl, rfl⟩ | ⟨-, hold⟩ := Roster.set_cases hk hj
    · exact h.keeps j ag hk
    · exact h.keeps j aj hold

/-- The operation of the agent at `k` panics. -/
theorem Inv.panic (h : Inv lockOf mem s) (hk : s.agents[k]? = some ag)
    (hop : ag.todo.head? = some op) (hnone : op.new v = none) :
    Inv lockOf mem { s with agents := s.agents.set k ag.unwind } where
  linear := h.linear.set hk rfl rfl
  ordered := h.ordered.set hk rfl
  lost aj haj hlost := by
    rcases List.mem_or_eq_of_mem_set haj with hold | rfl
    · exact h.lost aj hold hlost
    · refine ⟨op, h.linear.mem_given hk (List.mem_of_mem_head? hop), fun hsafe => ?_⟩
      have hsome := hsafe v
      rw [hnone] at hsome
      cases hsome
  protect j aj hj w hw := by
    obtain ⟨rfl, rfl⟩ | ⟨-, hold⟩ := Roster.set_cases hk hj
    · cases hw
    · exact ⟨(h.protect j aj hold w hw).lock, (h.protect j aj hold w hw).todo_ne⟩
  owned l j hj := by
    obtain ⟨aj, haj, hhead⟩ := h.owned l j hj
    obtain ⟨aj', haj', rfl | ⟨rfl, rfl⟩⟩ := Roster.set_old ag.unwind hk haj
    · exact ⟨aj', haj', hhead⟩
    · exact ⟨_, haj', fun op' todo' hnil => by cases hnil⟩
  keeps j aj hj hkeep := by
    obtain ⟨rfl, rfl⟩ | ⟨-, hold⟩ := Roster.set_cases hk hj
    · exact fun op' hop' => absurd hop' List.not_mem_nil
    · exact h.keeps j aj hold hkeep

theorem Inv.write {c : C} (h : Inv lockOf mem s)
    (hfree : (lockOf c).all fun l => s.owner l = none) :
    Inv lockOf mem
      { s with mem := Function.update s.mem c v, log := s.log ++ [.write c v] } where
  linear.mem_eq := by
    rw [replay_append, ← h.linear.mem_eq]
    rfl
  linear.ops := by
    have hnil : [(.write c v : Event C V R K)].filterMap Event.op? = [] := rfl
    rw [List.filterMap_append, hnil, List.append_nil]
    exact h.linear.ops
  linear.results := by
    have hnil : ((.write c v : Event C V R K).outcome (replay mem s.log)).toList = [] := rfl
    rw [outcomes_append, hnil, List.append_nil]
    exact h.linear.results
  ordered := ⟨h.ordered.length_eq, h.ordered.tags⟩
  lost := h.lost
  protect j aj hj w hw := by
    have hprot := h.protect j aj hj w hw
    refine ⟨fun op' todo' l htodo' hl => ?_, hprot.todo_ne⟩
    obtain ⟨howner, hmem⟩ := hprot.lock op' todo' l htodo' hl
    have hne : op'.cell ≠ c := by
      rintro rfl
      rw [hl] at hfree
      rw [Option.all_some, howner] at hfree
      cases of_decide_eq_true hfree
    exact ⟨howner, (Function.update_of_ne hne _ _).trans hmem⟩
  owned := h.owned
  keeps := h.keeps

/-- The number of operations that are left -/
def State.left (s : State C V R K Λ) : ℕ := (s.agents.map fun ag => ag.todo.length).sum

variable [DecidableEq Λ]

/-- An operation takes effect where the agent may access the cell, and has seen its value. -/
theorem Inv.commit (h : Inv lockOf mem s) (hk : s.agents[k]? = some ag)
    (htodo : ag.todo = op :: todo) (hv : s.mem op.cell = v) (hw : op.new v = some w)
    (haccess : mayAccess lockOf s.owner k op.cell) (owner' : Λ → Option ℕ)
    (hothers : ∀ l j, j ≠ k → (owner' l = some j ↔ s.owner l = some j))
    (hself : ∀ l, owner' l = some k → ∀ op' todo', todo = op' :: todo' →
      lockOf op'.cell = some l) :
    Inv lockOf mem { s.commit k ag op todo v w with owner := owner' } where
  linear := by
    have hcommit := h.linear.commit hk htodo hv hw
    exact ⟨hcommit.mem_eq, hcommit.ops, hcommit.results⟩
  ordered := by
    refine h.ordered.set hk ?_
    rw [Agent.finish, Agent.undone, Agent.undone, htodo, List.map_append, List.append_assoc]
    rfl
  lost aj haj hlost := by
    rcases List.mem_or_eq_of_mem_set haj with hold | rfl
    · exact h.lost aj hold hlost
    · exact h.lost ag (List.mem_of_getElem? hk) hlost
  protect j aj hj w' hw' := by
    obtain ⟨rfl, rfl⟩ | ⟨hne, hold⟩ := Roster.set_cases hk hj
    · cases hw'
    · have hprot := h.protect j aj hold w' hw'
      refine ⟨fun op' todo' l htodo' hl => ?_, hprot.todo_ne⟩
      obtain ⟨howner, hmem⟩ := hprot.lock op' todo' l htodo' hl
      refine ⟨(hothers l j hne).mpr howner, ?_⟩
      -- Another agent that has loaded the cell owns its lock.
      have hcell : op'.cell ≠ op.cell := by
        intro heq
        rw [heq] at hl
        have hkl := mayAccess_of_some haccess hl
        exact hne (Option.some.inj (howner.symm.trans hkl))
      exact (Function.update_of_ne hcell _ _).trans hmem
  owned l j hj := by
    by_cases hne : j = k
    · subst hne
      refine ⟨_, List.getElem?_set_self (List.getElem?_eq_some_iff.mp hk).1, ?_⟩
      exact hself l hj
    · obtain ⟨aj, haj, hhead⟩ := h.owned l j ((hothers l j hne).mp hj)
      exact ⟨aj, (List.getElem?_set_ne (Ne.symm hne)).trans haj, hhead⟩
  keeps j aj hj hkeep op₁ h₁ op₂ h₂ := by
    obtain ⟨rfl, rfl⟩ | ⟨-, hold⟩ := Roster.set_cases hk hj
    · refine h.keeps j ag hk hkeep op₁ ?_ op₂ ?_
      · rw [htodo]
        exact List.mem_cons_of_mem _ h₁
      · rw [htodo]
        exact List.mem_cons_of_mem _ h₂
    · exact h.keeps j aj hold hkeep op₁ h₁ op₂ h₂

theorem Inv.acquire (h : Inv lockOf mem s) (hk : s.agents[k]? = some ag)
    (hop : ag.todo.head? = some op) (hl : lockOf op.cell = some l) (hfree : s.owner l = none) :
    Inv lockOf mem (s.setOwner l (some k)) where
  linear := ⟨h.linear.mem_eq, h.linear.ops, h.linear.results⟩
  ordered := ⟨h.ordered.length_eq, h.ordered.tags⟩
  lost := h.lost
  protect j aj hj w hw := by
    have hprot := h.protect j aj hj w hw
    refine ⟨fun op' todo' l' htodo' hl' => ?_, hprot.todo_ne⟩
    obtain ⟨howner, hmem⟩ := hprot.lock op' todo' l' htodo' hl'
    have hne : l' ≠ l := by
      rintro rfl
      rw [hfree] at howner
      cases howner
    exact ⟨(s.setOwner_of_ne (some k) hne).trans howner, hmem⟩
  owned l' j hj := by
    by_cases hne : l' = l
    · subst hne
      rw [State.setOwner_self] at hj
      obtain rfl := Option.some.inj hj
      refine ⟨ag, hk, fun op' todo' htodo' => ?_⟩
      rw [htodo'] at hop
      obtain rfl := Option.some.inj hop
      exact hl
    · rw [State.setOwner_of_ne s (some k) hne] at hj
      exact h.owned l' j hj
  keeps := h.keeps

theorem Inv.load (h : Inv lockOf mem s) (hk : s.agents[k]? = some ag)
    (hop : ag.todo.head? = some op) (haccess : mayAccess lockOf s.owner k op.cell) :
    Inv lockOf mem
      { s with agents := s.agents.set k { ag with loaded := some (s.mem op.cell) } } := by
  refine h.setLoaded hk _ fun v hv => ⟨fun op' todo' l htodo' hl => ?_, fun hnil => ?_⟩
  · rw [htodo'] at hop
    obtain rfl := Option.some.inj hop
    exact ⟨mayAccess_of_some haccess hl, Option.some.inj hv⟩
  · rw [hnil] at hop
    cases hop

theorem Inv.release (h : Inv lockOf mem s) (hk : s.agents[k]? = some ag) (hnil : ag.todo = [])
    (howner : s.owner l = some k) : Inv lockOf mem (s.setOwner l none) where
  linear := ⟨h.linear.mem_eq, h.linear.ops, h.linear.results⟩
  ordered := ⟨h.ordered.length_eq, h.ordered.tags⟩
  lost := h.lost
  protect j aj hj w hw := by
    have hprot := h.protect j aj hj w hw
    refine ⟨fun op' todo' l' htodo' hl' => ?_, hprot.todo_ne⟩
    obtain ⟨howner', hmem⟩ := hprot.lock op' todo' l' htodo' hl'
    have hne : l' ≠ l := by
      rintro rfl
      obtain rfl := Option.some.inj (howner.symm.trans howner')
      obtain rfl := Option.some.inj (hk.symm.trans hj)
      exact hprot.todo_ne hnil
    exact ⟨(s.setOwner_of_ne none hne).trans howner', hmem⟩
  owned l' j hj := by
    by_cases hne : l' = l
    · subst hne
      rw [State.setOwner_self] at hj
      cases hj
    · rw [State.setOwner_of_ne s none hne] at hj
      exact h.owned l' j hj
  keeps := h.keeps

/-- An operation on a cell without a lock takes effect. -/
theorem Inv.commitFree (h : Inv lockOf mem s) (hk : s.agents[k]? = some ag)
    (htodo : ag.todo = op :: todo) (hv : s.mem op.cell = v) (hw : op.new v = some w)
    (hl : lockOf op.cell = none) : Inv lockOf mem (s.commit k ag op todo v w) := by
  have haccess : mayAccess lockOf s.owner k op.cell := by rw [mayAccess, hl]
  refine h.commit hk htodo hv hw haccess s.owner (fun _ _ _ => Iff.rfl)
    fun l hl' op' todo' htodo' => ?_
  -- An agent that owns a lock has it for its operation.
  obtain ⟨aj, haj, hhead⟩ := h.owned l k hl'
  obtain rfl := Option.some.inj (hk.symm.trans haj)
  cases hl.symm.trans (hhead op todo htodo)

theorem Inv.apply (h : Inv lockOf mem s) (hk : s.agents[k]? = some ag)
    (hop : ag.todo.head? = some op) (hw : op.new (s.mem op.cell) = some w)
    (hl : lockOf op.cell = none) :
    Inv lockOf mem (s.commit k ag op ag.todo.tail (s.mem op.cell) w) := by
  obtain ⟨todo, htodo⟩ := List.head?_eq_some_iff.mp hop
  rw [htodo, List.tail_cons]
  exact h.commitFree hk htodo rfl hw hl

end Invariant

section Runs

variable [DecidableEq C] [DecidableEq V] [DecidableEq Λ] {lockOf : C → Option Λ} {mem : C → V}
  {s s' : State C V R K Λ} {k : ℕ} {ag : Agent C V R K} {op : Op C V R K}
  {todo : List (Op C V R K)} {l : Λ} {act : Action C V R K Λ}

/-- Nobody else is given something to do. -/
theorem given_of_step (hact : ∀ todo keep, act ≠ .spawn todo keep)
    (hs : s.step lockOf act = some s') : s'.given = s.given := by
  cases act with
  | spawn todo keep => exact absurd rfl (hact todo keep)
  | acquire k =>
    obtain ⟨ag, -, hs⟩ := Option.bind_eq_some_iff.mp hs
    obtain ⟨op, -, hs⟩ := Option.bind_eq_some_iff.mp hs
    obtain ⟨l, -, hs⟩ := Option.bind_eq_some_iff.mp hs
    obtain ⟨-, hs⟩ := Option.ite_none_right_eq_some.mp hs
    cases hs
    rfl
  | load k =>
    obtain ⟨ag, -, hs⟩ := Option.bind_eq_some_iff.mp hs
    obtain ⟨op, -, hs⟩ := Option.bind_eq_some_iff.mp hs
    obtain ⟨-, hs⟩ := Option.ite_none_right_eq_some.mp hs
    cases hs
    rfl
  | store k =>
    obtain ⟨ag, -, hs⟩ := Option.bind_eq_some_iff.mp hs
    obtain ⟨v, -, hs⟩ := Option.bind_eq_some_iff.mp hs
    split at hs
    · cases hs
    · obtain ⟨w, -, hs⟩ := Option.bind_eq_some_iff.mp hs
      split at hs
      · cases hs
        split <;> rfl
      · split at hs <;> cases hs <;> rfl
  | apply k =>
    obtain ⟨ag, -, hs⟩ := Option.bind_eq_some_iff.mp hs
    obtain ⟨op, -, hs⟩ := Option.bind_eq_some_iff.mp hs
    obtain ⟨w, -, hs⟩ := Option.bind_eq_some_iff.mp hs
    obtain ⟨-, hs⟩ := Option.ite_none_right_eq_some.mp hs
    cases hs
    rfl
  | panic k =>
    obtain ⟨ag, -, hs⟩ := Option.bind_eq_some_iff.mp hs
    obtain ⟨v, -, hs⟩ := Option.bind_eq_some_iff.mp hs
    obtain ⟨op, -, hs⟩ := Option.bind_eq_some_iff.mp hs
    obtain ⟨-, hs⟩ := Option.ite_none_right_eq_some.mp hs
    cases hs
    rfl
  | release k l =>
    obtain ⟨ag, -, hs⟩ := Option.bind_eq_some_iff.mp hs
    obtain ⟨-, hs⟩ := Option.ite_none_right_eq_some.mp hs
    cases hs
    rfl
  | write c v =>
    obtain ⟨-, hs⟩ := Option.ite_none_right_eq_some.mp hs
    cases hs
    rfl

theorem Inv.store (h : Inv lockOf mem s) (hs : s.step lockOf (.store k) = some s') :
    Inv lockOf mem s' := by
  obtain ⟨ag, hk, hs⟩ := Option.bind_eq_some_iff.mp hs
  obtain ⟨v, hv, hs⟩ := Option.bind_eq_some_iff.mp hs
  have hprot := h.protect k ag hk v hv
  split at hs
  · cases hs
  · rename_i op todo htodo
    obtain ⟨w, hw, hs⟩ := Option.bind_eq_some_iff.mp hs
    split at hs
    · rename_i l hl
      obtain ⟨howner, hmem⟩ := hprot.lock op todo l htodo hl
      have haccess : mayAccess lockOf s.owner k op.cell := by
        rw [mayAccess, hl]
        exact decide_eq_true howner
      -- The lock that agent `k` owns is that of the operation.
      have honly {l' : Λ} (hl' : s.owner l' = some k) : l' = l := by
        obtain ⟨aj, haj, hhead⟩ := h.owned l' k hl'
        obtain rfl := Option.some.inj (hk.symm.trans haj)
        exact Option.some.inj ((hhead op todo htodo).symm.trans hl)
      split at hs
      · rename_i hkeep
        cases hs
        refine h.commit hk htodo hmem hw haccess s.owner (fun _ _ _ => Iff.rfl)
          fun l' hl' op' todo' htodo' => ?_
        rw [honly hl', ← hl]
        refine h.keeps k ag hk hkeep op' ?_ op ?_
        · rw [htodo, htodo']
          exact List.mem_cons_of_mem _ List.mem_cons_self
        · rw [htodo]
          exact List.mem_cons_self
      · cases hs
        refine h.commit hk htodo hmem hw haccess (s.setOwner l none).owner ?_ ?_
        · intro l' j hne
          by_cases hl' : l' = l
          · subst hl'
            rw [State.setOwner_self, howner]
            exact ⟨fun hj => absurd hj (fun h => by cases h),
              fun hj => absurd (Option.some.inj hj).symm hne⟩
          · rw [State.setOwner_of_ne s none hl']
        · intro l' hl'
          by_cases hne : l' = l
          · subst hne
            rw [State.setOwner_self] at hl'
            cases hl'
          · rw [State.setOwner_of_ne s none hne] at hl'
            exact absurd (honly hl') hne
    · rename_i hl
      split at hs
      · rename_i hmem
        cases hs
        exact h.commitFree hk htodo hmem hw hl
      · cases hs
        exact h.setLoaded hk none fun v hv => by cases hv

theorem Inv.step (h : Inv lockOf mem s) (hact : Allowed lockOf act)
    (hs : s.step lockOf act = some s') : Inv lockOf mem s' := by
  cases act with
  | spawn todo keep =>
    cases hs
    exact h.spawn hact
  | acquire k =>
    obtain ⟨ag, hk, hs⟩ := Option.bind_eq_some_iff.mp hs
    obtain ⟨op, hop, hs⟩ := Option.bind_eq_some_iff.mp hs
    obtain ⟨l, hl, hs⟩ := Option.bind_eq_some_iff.mp hs
    obtain ⟨hfree, hs⟩ := Option.ite_none_right_eq_some.mp hs
    cases hs
    exact h.acquire hk hop hl hfree
  | load k =>
    obtain ⟨ag, hk, hs⟩ := Option.bind_eq_some_iff.mp hs
    obtain ⟨op, hop, hs⟩ := Option.bind_eq_some_iff.mp hs
    obtain ⟨⟨haccess, -⟩, hs⟩ := Option.ite_none_right_eq_some.mp hs
    cases hs
    exact h.load hk hop haccess
  | store k => exact h.store hs
  | apply k =>
    obtain ⟨ag, hk, hs⟩ := Option.bind_eq_some_iff.mp hs
    obtain ⟨op, hop, hs⟩ := Option.bind_eq_some_iff.mp hs
    obtain ⟨w, hw, hs⟩ := Option.bind_eq_some_iff.mp hs
    obtain ⟨hsingle, hs⟩ := Option.ite_none_right_eq_some.mp hs
    cases hs
    exact h.apply hk hop hw (lockOf_of_single hsingle)
  | panic k =>
    obtain ⟨ag, hk, hs⟩ := Option.bind_eq_some_iff.mp hs
    obtain ⟨v, -, hs⟩ := Option.bind_eq_some_iff.mp hs
    obtain ⟨op, hop, hs⟩ := Option.bind_eq_some_iff.mp hs
    obtain ⟨hnone, hs⟩ := Option.ite_none_right_eq_some.mp hs
    cases hs
    exact h.panic hk hop hnone
  | release k l =>
    obtain ⟨ag, hk, hs⟩ := Option.bind_eq_some_iff.mp hs
    obtain ⟨⟨hnil, howner⟩, hs⟩ := Option.ite_none_right_eq_some.mp hs
    cases hs
    exact h.release hk hnil howner
  | write c v =>
    obtain ⟨hfree, hs⟩ := Option.ite_none_right_eq_some.mp hs
    cases hs
    exact h.write hfree

theorem Reachable.inv (hs : Reachable lockOf mem s) : Inv lockOf mem s :=
  Transition.Reach.invariant (I := Inv lockOf mem) (fun _ h => h ▸ Inv.init mem)
    (fun _ _ _ h hact hstep => h.step hact hstep) hs

/-! ## Every operation can be finished -/

/-- A step of an agent -/
def Action.Internal : Action C V R K Λ → Prop
  | .spawn _ _ | .write _ _ => False
  | _ => True

end Runs

end Lamellar.ReadModifyWrite
