import Mathlib.Data.Finset.Basic
import Wissbi.Runs
import Wissbi.ThreadPool

set_option autoImplicit false

/-!
# `Connector::ConnectorLoop` and its producer threads

The loop and the threads it starts share `producer_set`; the branches and the
metrics only the loop changes. A result of `GetSubList` is any list of entries,
a connect string and the destination it is registered for. Every operation on a
set, the map or the list is one step.
-/
namespace Wissbi.ConnectorMachine

/-- Where a producer thread is: it connects, runs its `FilterLoop`, is about to erase its
connect string because either of them failed, or has erased it. -/
inductive Status where
  | connecting
  | filtering
  | ending
  | erased
  deriving DecidableEq, Repr

structure Thread (Conn Dest : Type) where
  conn : Conn
  dest : Dest
  status : Status
  deriving DecidableEq, Repr

/-- The next operation of the loop; the entry in hand comes first and `rest` is what the
`for` has still to visit. -/
inductive Pc (Conn Dest : Type) where
  | getSubList
  | find (rest : List (Conn × Dest))
  | existsBranch (e : Conn × Dest) (rest : List (Conn × Dest))
  | addBranch (e : Conn × Dest) (rest : List (Conn × Dest))
  | findMetric (e : Conn × Dest) (rest : List (Conn × Dest))
  | pushFront (e : Conn × Dest) (rest : List (Conn × Dest))
  | spawn (e : Conn × Dest) (rest : List (Conn × Dest))
  | insert (e : Conn × Dest) (rest : List (Conn × Dest))
  | sleeping
  deriving DecidableEq, Repr

/-- `branchMap` sends a name to the queue object `AddBranch` was given, and `fresh` is the
next object to be allocated. -/
structure State (Conn Dest : Type) where
  pc : Pc Conn Dest
  producerSet : Finset Conn
  branchMap : Dest → Option ℕ
  fresh : ℕ
  metricList : List Dest
  threads : List (Thread Conn Dest)

inductive Act (Conn Dest : Type) where
  | list (entries : List (Conn × Dest))
  | loop
  | wake
  | connectFail (i : ℕ)
  | connectOk (i : ℕ)
  | loopEnd (i : ℕ)
  | erase (i : ℕ)
  deriving DecidableEq, Repr

variable {Conn Dest : Type} [DecidableEq Conn] [DecidableEq Dest]

def loopStep (s : State Conn Dest) : Option (State Conn Dest) :=
  match s.pc with
  | .find [] => some { s with pc := .sleeping }
  | .find (e :: rest) =>
    if e.1 ∈ s.producerSet then some { s with pc := .find rest }
    else some { s with pc := .existsBranch e rest }
  | .existsBranch e rest =>
    if (s.branchMap e.2).isSome then some { s with pc := .findMetric e rest }
    else some { s with pc := .addBranch e rest }
  | .addBranch e rest =>
    some { s with
      pc := .findMetric e rest
      branchMap := Function.update s.branchMap e.2 (some s.fresh)
      fresh := s.fresh + 1 }
  | .findMetric e rest =>
    if e.2 ∈ s.metricList then some { s with pc := .spawn e rest }
    else some { s with pc := .pushFront e rest }
  | .pushFront e rest => some { s with pc := .spawn e rest, metricList := e.2 :: s.metricList }
  | .spawn e rest =>
    some { s with pc := .insert e rest, threads := s.threads ++ [⟨e.1, e.2, .connecting⟩] }
  | .insert e rest => some { s with pc := .find rest, producerSet := insert e.1 s.producerSet }
  | _ => none

def advance (s : State Conn Dest) (i : ℕ) (a b : Status) : Option (State Conn Dest) :=
  (s.threads[i]?).bind fun t =>
    if t.status = a then some { s with threads := s.threads.set i { t with status := b } }
    else none

def step (s : State Conn Dest) : Act Conn Dest → Option (State Conn Dest)
  | .list entries =>
    match s.pc with
    | .getSubList => some { s with pc := .find entries }
    | _ => none
  | .loop => loopStep s
  | .wake =>
    match s.pc with
    | .sleeping => some { s with pc := .getSubList }
    | _ => none
  | .connectFail i => advance s i .connecting .ending
  | .connectOk i => advance s i .connecting .filtering
  | .loopEnd i => advance s i .filtering .ending
  | .erase i =>
    (s.threads[i]?).bind fun t =>
      (advance s i .ending .erased).map fun u =>
        { u with producerSet := u.producerSet.erase t.conn }

def start (Conn Dest : Type) : State Conn Dest := ⟨.getSubList, ∅, fun _ => none, 0, [], []⟩

inductive LoopMoves (s : State Conn Dest) : State Conn Dest → Prop where
  | passed (hp : s.pc = .find []) : LoopMoves s { s with pc := .sleeping }
  | known (e : Conn × Dest) (rest : List (Conn × Dest)) (hp : s.pc = .find (e :: rest))
      (hc : e.1 ∈ s.producerSet) : LoopMoves s { s with pc := .find rest }
  | unknown (e : Conn × Dest) (rest : List (Conn × Dest)) (hp : s.pc = .find (e :: rest))
      (hc : e.1 ∉ s.producerSet) : LoopMoves s { s with pc := .existsBranch e rest }
  | branched (e : Conn × Dest) (rest : List (Conn × Dest)) (hp : s.pc = .existsBranch e rest)
      (hb : (s.branchMap e.2).isSome) : LoopMoves s { s with pc := .findMetric e rest }
  | unbranched (e : Conn × Dest) (rest : List (Conn × Dest)) (hp : s.pc = .existsBranch e rest)
      (hb : s.branchMap e.2 = none) : LoopMoves s { s with pc := .addBranch e rest }
  | added (e : Conn × Dest) (rest : List (Conn × Dest)) (hp : s.pc = .addBranch e rest) :
      LoopMoves s { s with
        pc := .findMetric e rest
        branchMap := Function.update s.branchMap e.2 (some s.fresh)
        fresh := s.fresh + 1 }
  | metered (e : Conn × Dest) (rest : List (Conn × Dest)) (hp : s.pc = .findMetric e rest)
      (hm : e.2 ∈ s.metricList) : LoopMoves s { s with pc := .spawn e rest }
  | unmetered (e : Conn × Dest) (rest : List (Conn × Dest)) (hp : s.pc = .findMetric e rest)
      (hm : e.2 ∉ s.metricList) : LoopMoves s { s with pc := .pushFront e rest }
  | pushed (e : Conn × Dest) (rest : List (Conn × Dest)) (hp : s.pc = .pushFront e rest) :
      LoopMoves s { s with pc := .spawn e rest, metricList := e.2 :: s.metricList }
  | spawned (e : Conn × Dest) (rest : List (Conn × Dest)) (hp : s.pc = .spawn e rest) :
      LoopMoves s { s with
        pc := .insert e rest
        threads := s.threads ++ [⟨e.1, e.2, .connecting⟩] }
  | inserted (e : Conn × Dest) (rest : List (Conn × Dest)) (hp : s.pc = .insert e rest) :
      LoopMoves s { s with pc := .find rest, producerSet := insert e.1 s.producerSet }

theorem loop_moves {s t : State Conn Dest} (h : loopStep s = some t) : LoopMoves s t := by
  unfold loopStep at h
  split at h
  next hp => cases h; exact .passed hp
  next e rest hp =>
    split at h
    next hc => cases h; exact .known e rest hp hc
    next hc => cases h; exact .unknown e rest hp hc
  next e rest hp =>
    split at h
    next hb => cases h; exact .branched e rest hp hb
    next hb => cases h; exact .unbranched e rest hp (Option.not_isSome_iff_eq_none.mp hb)
  next e rest hp => cases h; exact .added e rest hp
  next e rest hp =>
    split at h
    next hm => cases h; exact .metered e rest hp hm
    next hm => cases h; exact .unmetered e rest hp hm
  next e rest hp => cases h; exact .pushed e rest hp
  next e rest hp => cases h; exact .spawned e rest hp
  next e rest hp => cases h; exact .inserted e rest hp
  next => cases h

omit [DecidableEq Conn] [DecidableEq Dest] in
theorem advance_some {s t : State Conn Dest} {i : ℕ} {a b : Status} (h : advance s i a b = some t) :
    ∃ th, s.threads[i]? = some th ∧ th.status = a ∧
      t = { s with threads := s.threads.set i { th with status := b } } := by
  obtain ⟨th, hth, h⟩ := Option.bind_eq_some_iff.mp h
  split at h
  next hs => cases h; exact ⟨th, hth, hs, rfl⟩
  next => cases h

theorem step_cases {s t : State Conn Dest} {a : Act Conn Dest} (h : step s a = some t) :
    (∃ entries, a = .list entries ∧ s.pc = .getSubList ∧ t = { s with pc := .find entries }) ∨
    (a = .wake ∧ s.pc = .sleeping ∧ t = { s with pc := .getSubList }) ∨
    (a = .loop ∧ LoopMoves s t) ∨
    (∃ i th b, (∀ k, a ≠ .erase k) ∧ s.threads[i]? = some th ∧ th.status ≠ .erased ∧ b ≠ .erased ∧
      t = { s with threads := s.threads.set i { th with status := b } }) ∨
    (∃ i th, a = .erase i ∧ s.threads[i]? = some th ∧ th.status = .ending ∧
      t = { s with
        producerSet := s.producerSet.erase th.conn
        threads := s.threads.set i { th with status := .erased } }) := by
  cases a with
  | list entries =>
    simp only [step] at h
    split at h
    next hp => cases h; exact .inl ⟨entries, rfl, hp, rfl⟩
    next => cases h
  | wake =>
    simp only [step] at h
    split at h
    next hp => cases h; exact .inr (.inl ⟨rfl, hp, rfl⟩)
    next => cases h
  | loop => exact .inr (.inr (.inl ⟨rfl, loop_moves h⟩))
  | connectFail i =>
    obtain ⟨th, hth, hs, rfl⟩ := advance_some h
    exact .inr (.inr (.inr (.inl ⟨i, th, .ending, by simp, hth, by simp [hs], by simp, rfl⟩)))
  | connectOk i =>
    obtain ⟨th, hth, hs, rfl⟩ := advance_some h
    exact .inr (.inr (.inr (.inl ⟨i, th, .filtering, by simp, hth, by simp [hs], by simp, rfl⟩)))
  | loopEnd i =>
    obtain ⟨th, hth, hs, rfl⟩ := advance_some h
    exact .inr (.inr (.inr (.inl ⟨i, th, .ending, by simp, hth, by simp [hs], by simp, rfl⟩)))
  | erase i =>
    obtain ⟨th, hth, h⟩ := Option.bind_eq_some_iff.mp h
    obtain ⟨u, hu, rfl⟩ := Option.map_eq_some_iff.mp h
    obtain ⟨th', hth', hs, rfl⟩ := advance_some hu
    rw [hth] at hth'
    cases hth'
    exact .inr (.inr (.inr (.inr ⟨i, th, rfl, hth, hs, rfl⟩)))

end Wissbi.ConnectorMachine
