import Wissbi.Runs
import Wissbi.TcpPolicy

set_option autoImplicit false

/-!
# A publisher: the input filter, its branches and their producers

One `Connector` of `run()` in `pub.cpp` with the filter that feeds it. The
threads are the callers of the filter (the input loop, or the threads that call
`MetricReporter::Report`) and one producer per connection. A branch is known by
its name and `queueOf` says which kernel queue its `SysvMq` uses; two names may
share one. Puts, writes and queue calls may fail at any point of a schedule.
-/
namespace Wissbi.PublisherMachine
open Buffers TcpPolicy

/-- Whose post-filter the counter belongs to: the one of `FilterLoop`, or that of the metric filter,
whose result `Report` does not look at. -/
inductive Mode where
  | loop
  | report
  deriving DecidableEq, Repr

structure Config (Name Queue : Type) where
  mode : Mode
  queueOf : Name → Queue

/-- Where a producer is in its `FilterLoop`. Between `sent` and the end of the
post-filter the message is out but not yet counted down; in `failed` the
post-filter is about to put `msg_buf_` back. -/
inductive Phase where
  | waiting
  | writing (m : Msg) (k : ℕ)
  | sent (m : Msg)
  | failed (m : Msg)
  | closed
  deriving DecidableEq, Repr

/-- `wire` is what `write` has taken on this producer's connection and `done` the
messages for which `TCP::Put` has returned true on it. -/
structure Producer (Queue : Type) where
  queue : Queue
  phase : Phase
  wire : List UInt8
  done : List Msg
  deriving DecidableEq, Repr

inductive Caller (Name : Type) where
  | idle
  | teeing (m : Msg) (todo seen : List Name) (tee failed : ℕ)
  | returned
  deriving DecidableEq, Repr

structure Shared (Queue : Type) where
  mq : List (Queue × Msg)
  pending : UInt32
  attempted : ℕ
  dropped : ℕ
  enqueued : List (Queue × Msg)
  starved : List (Queue × Msg)
  lost : List (Queue × Msg)
  credited : ℕ
  counted : ℕ
  deriving DecidableEq, Repr

structure State (Name Queue : Type) where
  branches : List Name
  shared : Shared Queue
  producers : List (Producer Queue)
  callers : List (Caller Name)
  deriving DecidableEq, Repr

inductive CallerAct (Name : Type) where
  | getFalse
  | getTrue (m : Msg) (order : List Name)
  | visit (n : Name)
  | putOk
  | putFail
  | post
  deriving DecidableEq, Repr

inductive ProducerAct where
  | msgrcv
  | msgrcvFail
  | write (n : ℕ)
  | writeFail
  | countDown
  | requeue
  | requeueFail
  deriving DecidableEq, Repr

inductive Act (Name : Type) where
  | addBranch (n : Name)
  | connect (n : Name)
  | caller (i : ℕ) (a : CallerAct Name)
  | producer (i : ℕ) (a : ProducerAct)
  deriving DecidableEq, Repr

section
variable {Name Queue : Type} [DecidableEq Name] [DecidableEq Queue]

def Mode.credit : Mode → ℕ → ℕ
  | .loop, tee => tee
  | .report, _ => 1

def Mode.afterFalse : Mode → Caller Name
  | .loop => .returned
  | .report => .idle

def takeFirst (q : Queue) : List (Queue × Msg) → Option (Msg × List (Queue × Msg))
  | [] => none
  | x :: rest =>
    if x.1 = q then some (x.2, rest)
    else (takeFirst q rest).map (fun r => (r.1, x :: r.2))

/-- One step of a caller. `Tee::Put` visits the branches in any order; one that is
added meanwhile it may or may not meet. `Report` only ever sends texts that are
not empty. -/
def Caller.step (cfg : Config Name Queue) (branches : List Name) (w : Shared Queue) :
    Caller Name → CallerAct Name → Option (Caller Name × Shared Queue)
  | .idle, .getFalse => some (cfg.mode.afterFalse, w)
  | .idle, .getTrue m order =>
    if order.isPerm branches ∧ (cfg.mode = .report → m ≠ []) then
      some (.teeing m order order 0 0, w)
    else none
  | .teeing m todo seen tee failed, .visit n =>
    if n ∈ branches ∧ n ∉ seen then some (.teeing m (n :: todo) (n :: seen) tee failed, w)
    else none
  | .teeing m (n :: todo) seen tee failed, .putOk =>
    some (.teeing m todo seen (tee + 1) failed,
      { w with
        mq := w.mq ++ [(cfg.queueOf n, m)]
        enqueued := w.enqueued ++ [(cfg.queueOf n, m)]
        attempted := w.attempted + 1 })
  | .teeing m (_ :: todo) seen tee failed, .putFail =>
    some (.teeing m todo seen (tee + 1) (failed + 1),
      { w with attempted := w.attempted + 1, dropped := w.dropped + 1 })
  | .teeing _ [] _ tee _, .post =>
    some (.idle,
      { w with
        pending := w.pending + UInt32.ofNat (cfg.mode.credit tee)
        credited := w.credited + cfg.mode.credit tee })
  | _, _ => none

/-- One step of a producer. An empty message is refused by `TCP::Put` before any
`write`; a `Get` that fails leaves an empty message in `msg_buf_`. -/
def Producer.step (p : Producer Queue) (w : Shared Queue) :
    ProducerAct → Option (Producer Queue × Shared Queue)
  | .msgrcv =>
    match p.phase, takeFirst p.queue w.mq with
    | .waiting, some (m, rest) =>
      if m.length ≤ maxMsgSize then
        some ({ p with phase := if m = [] then .failed m else .writing m 0 }, { w with mq := rest })
      else none
    | _, _ => none
  | .msgrcvFail =>
    match p.phase with
    | .waiting =>
      some ({ p with phase := .failed [] }, { w with starved := w.starved ++ [(p.queue, [])] })
    | _ => none
  | .write n =>
    match p.phase with
    | .writing m k =>
      let chunk := (offered m k).take n
      if k + chunk.length = (frame m).length then
        some ({ p with phase := .sent m, wire := p.wire ++ chunk, done := p.done ++ [m] }, w)
      else some ({ p with phase := .writing m (k + chunk.length), wire := p.wire ++ chunk }, w)
    | _ => none
  | .writeFail =>
    match p.phase with
    | .writing m _ => some ({ p with phase := .failed m }, w)
    | _ => none
  | .countDown =>
    match p.phase with
    | .sent _ =>
      some ({ p with phase := .waiting },
        { w with pending := w.pending - 1, counted := w.counted + 1 })
    | _ => none
  | .requeue =>
    match p.phase with
    | .failed m => some ({ p with phase := .closed }, { w with mq := w.mq ++ [(p.queue, m)] })
    | _ => none
  | .requeueFail =>
    match p.phase with
    | .failed m => some ({ p with phase := .closed }, { w with lost := w.lost ++ [(p.queue, m)] })
    | _ => none

def step (cfg : Config Name Queue) (s : State Name Queue) : Act Name → Option (State Name Queue)
  | .addBranch n => if n ∈ s.branches then none else some { s with branches := s.branches ++ [n] }
  | .connect n =>
    if n ∈ s.branches then
      some { s with producers := s.producers ++ [⟨cfg.queueOf n, .waiting, [], []⟩] }
    else none
  | .caller i a =>
    (s.callers[i]?).bind fun c =>
      (Caller.step cfg s.branches s.shared c a).map fun r =>
        { s with callers := s.callers.set i r.1, shared := r.2 }
  | .producer i a =>
    (s.producers[i]?).bind fun p =>
      (p.step s.shared a).map fun r =>
        { s with producers := s.producers.set i r.1, shared := r.2 }

end

def start (Name Queue : Type) (callers : ℕ) : State Name Queue :=
  ⟨[], ⟨[], 0, 0, 0, [], [], [], 0, 0⟩, [], List.replicate callers .idle⟩

end Wissbi.PublisherMachine
