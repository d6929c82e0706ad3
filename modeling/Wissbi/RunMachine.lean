import Wissbi.MetricReporter
import Wissbi.PublisherMachine
import Wissbi.StringPolicy

set_option autoImplicit false

/-!
# `run()` of `pub.cpp`

The machine of the input filter and its producers, with what `run()` puts around it:
the metrics and their reporters, the background thread that reports once a second, and
the main thread from its `FilterLoop` to its return. `metric_input_filter` is a stream
on one buffer; `Send` and `Filter()` are one step each. The producers of the metric
connector appear only where they count `metric_pending_counter` down.
-/
namespace Wissbi.RunMachine
open Buffers MetricReporter Streams Util

inductive Stage where
  | idle
  | last
  | total
  deriving DecidableEq, Repr

/-- What a producer has still to do in its post-filter after `--pending_counter`, and the
name of the metric it has a reference to. -/
structure Tail where
  metric : Str
  stage : Stage
  deriving DecidableEq, Repr

inductive Reporter where
  | metricReporter
  | dropMetricReporter
  deriving DecidableEq, Repr

def Reporter.direction : Reporter → Str
  | .metricReporter => ascii "enqueue"
  | .dropMetricReporter => ascii "drop"

structure Count where
  reporter : Reporter
  name : Str
  v : UInt32
  deriving DecidableEq, Repr

def Count.text (c : Count) : Str := reportText c.name c.reporter.direction c.v

inductive Background where
  | sleeping
  | reporting (r : Reporter) (call : Report)
  deriving DecidableEq, Repr

/-- In `filtering` the post-filter may still owe the drop metric the failed puts of the
last message. A `sleep_while` that is `busy` has found its condition true. `atZero` says
that the first one ended because the counter was zero. -/
inductive Main where
  | filtering (owed : Option ℕ)
  | waiting (busy : Bool)
  | reporting (atZero : Bool) (call : Report)
  | lastWait (atZero busy : Bool)
  | returned (atZero : Bool)
  deriving DecidableEq, Repr

structure MetricFilter where
  stream : IStream
  msgBuf : MsgBuf
  pending : UInt32
  delivered : List Msg

/-- `obtained` are the values that were not zero, `handed` those whose text was passed to
`Send`, and `failed` the sum of `last_failed_count_` over the messages so far. -/
structure State (Queue : Type) where
  pub : PublisherMachine.State Str Queue
  tails : List Tail
  lists : Reporter → List FilterMetric
  filter : MetricFilter
  background : Background
  main : Main
  obtained : List Count
  handed : List Count
  failed : ℕ

inductive Who where
  | background
  | main
  deriving DecidableEq, Repr

inductive Act where
  | pub (a : PublisherMachine.Act Str)
  | addMetric (n : Str)
  | lastProcessed (i : ℕ)
  | totalProcessed (i : ℕ)
  | addDrops
  | wake
  | exchange (w : Who) (r : Reporter)
  | send (w : Who) (r : Reporter)
  | filter (w : Who) (r : Reporter)
  | finish (w : Who)
  | metricCountDown
  | loopEnded
  | look
  | sleep
  | timeout
  deriving DecidableEq, Repr

section
variable {Queue : Type} [DecidableEq Queue]

def State.call (s : State Queue) : Who → Option (Reporter × Report)
  | .background =>
    match s.background with
    | .sleeping => none
    | .reporting r c => some (r, c)
  | .main =>
    match s.main with
    | .reporting _ c => some (.metricReporter, c)
    | _ => none

def Background.setCall (c : Report) : Background → Background
  | .reporting r _ => .reporting r c
  | b => b

def Main.setCall (c : Report) : Main → Main
  | .reporting z _ => .reporting z c
  | m => m

def State.setCall (s : State Queue) (c : Report) : Who → State Queue
  | .background => { s with background := s.background.setCall c }
  | .main => { s with main := s.main.setCall c }

def State.setList (s : State Queue) (r : Reporter) (ms : List FilterMetric) : State Queue :=
  { s with lists := Function.update s.lists r ms }

def lastFailedCount (p : PublisherMachine.State Str Queue) (i : ℕ) : ℕ :=
  match p.callers[i]? with
  | some (.teeing _ _ _ _ failed) => failed
  | _ => 0

/-- A step of the input filter, its connector or a producer. A producer begins with the
next message when its post-filter is over. -/
def pubStep (queueOf : Str → Queue) (s : State Queue) (a : PublisherMachine.Act Str) :
    Option (State Queue) :=
  (PublisherMachine.step ⟨.loop, queueOf⟩ s.pub a).bind fun p =>
    match a with
    | .addBranch _ => some { s with pub := p }
    | .connect n =>
      if n ∈ (s.lists .metricReporter).map FilterMetric.name then
        some { s with pub := p, tails := s.tails ++ [⟨n, .idle⟩] }
      else none
    | .caller i b =>
      if s.main = .filtering none then
        if b = .post then
          some { s with
            pub := p
            main := .filtering (some (lastFailedCount s.pub i))
            failed := s.failed + lastFailedCount s.pub i }
        else some { s with pub := p }
      else none
    | .producer i b =>
      (s.tails[i]?).bind fun t =>
        if t.stage = .idle then
          if b = .countDown then
            some { s with pub := p, tails := s.tails.set i { t with stage := .last } }
          else some { s with pub := p }
        else none

/-- `Filter()` of `metric_input_filter`; its `Tee::Put` always succeeds. -/
def MetricFilter.filter (f : MetricFilter) : MetricFilter :=
  let r := LengthPolicy.get f.stream f.msgBuf
  if r.ok then ⟨r.rest, r.msg, f.pending + 1, f.delivered ++ [r.msg.data]⟩
  else { f with stream := r.rest, msgBuf := r.msg }

def State.finish (s : State Queue) : Who → Option (State Queue)
  | .background =>
    match s.background with
    | .reporting .metricReporter (.visiting []) =>
      some { s with
        background := .reporting .dropMetricReporter (Report.start (s.lists .dropMetricReporter)) }
    | .reporting .dropMetricReporter (.visiting []) => some { s with background := .sleeping }
    | _ => none
  | .main =>
    match s.main with
    | .reporting z (.visiting []) => some { s with main := .lastWait z false }
    | _ => none

def State.look (s : State Queue) : Option (State Queue) :=
  match s.main with
  | .waiting false =>
    if s.pub.shared.pending > 0 then some { s with main := .waiting true }
    else some { s with main := .reporting true (Report.start (s.lists .metricReporter)) }
  | .lastWait z false =>
    if s.filter.pending > 0 then some { s with main := .lastWait z true }
    else some { s with main := .returned z }
  | _ => none

def State.sleep (s : State Queue) : Option (State Queue) :=
  match s.main with
  | .waiting true => some { s with main := .waiting false }
  | .lastWait z true => some { s with main := .lastWait z false }
  | _ => none

def State.timeout (s : State Queue) : Option (State Queue) :=
  match s.main with
  | .waiting true =>
    some { s with main := .reporting false (Report.start (s.lists .metricReporter)) }
  | .lastWait z true => some { s with main := .returned z }
  | _ => none

def Main.isReturned : Main → Bool
  | .returned _ => true
  | _ => false

def step (queueOf : Str → Queue) (s : State Queue) (a : Act) : Option (State Queue) :=
  if s.main.isReturned then none else
  match a with
  | .pub a => pubStep queueOf s a
  | .addMetric n =>
    if n ∈ (s.lists .metricReporter).map FilterMetric.name then none
    else some (s.setList .metricReporter (FilterMetric.init n :: s.lists .metricReporter))
  | .lastProcessed i =>
    (s.tails[i]?).bind fun t =>
      if t.stage = .last then
        some { s.setList .metricReporter
            (update t.metric (FilterMetric.add 1) (s.lists .metricReporter)) with
          tails := s.tails.set i { t with stage := .total } }
      else none
  | .totalProcessed i =>
    (s.tails[i]?).bind fun t =>
      if t.stage = .total then
        some { s.setList .metricReporter
            (update t.metric FilterMetric.addTotal (s.lists .metricReporter)) with
          tails := s.tails.set i { t with stage := .idle } }
      else none
  | .addDrops =>
    match s.main, s.lists .dropMetricReporter with
    | .filtering (some k), m :: ms =>
      some { s.setList .dropMetricReporter (m.add (UInt32.ofNat k) :: ms) with
        main := .filtering none }
    | _, _ => none
  | .wake =>
    match s.background with
    | .sleeping =>
      some { s with
        background := .reporting .metricReporter (Report.start (s.lists .metricReporter)) }
    | _ => none
  | .exchange w r =>
    match s.call w with
    | some (r', c) =>
      if r' = r then
        (c.exchange (s.lists r)).map fun x =>
          let given := if x.v = 0 then [] else [⟨r, x.name, x.v⟩]
          { (s.setList r x.list).setCall x.call w with obtained := s.obtained ++ given }
      else none
    | none => none
  | .send w r =>
    match s.call w with
    | some (r', .sending n v rest) =>
      if r' = r then
        some { s.setCall (.filtering n v rest) w with
          filter := { s.filter with
            stream := StringPolicy.send s.filter.stream (Count.text ⟨r, n, v⟩) }
          handed := s.handed ++ [⟨r, n, v⟩] }
      else none
    | _ => none
  | .filter w r =>
    match s.call w with
    | some (r', .filtering _ _ rest) =>
      if r' = r then
        some { s.setCall (.visiting rest) w with filter := s.filter.filter }
      else none
    | _ => none
  | .finish w => s.finish w
  | .metricCountDown =>
    some { s with filter := { s.filter with pending := s.filter.pending - 1 } }
  | .loopEnded =>
    match s.main with
    | .filtering none =>
      if s.pub.callers = [.returned] then some { s with main := .waiting false } else none
    | _ => none
  | .look => s.look
  | .sleep => s.sleep
  | .timeout => s.timeout

end

/-- The state in which `run()` enters its `FilterLoop`; nothing sets the buffer of
`metric_input_filter` before its first `Get`. -/
def start (Queue : Type) (dest : Str) (msgBuf : MsgBuf) : State Queue :=
  { pub := PublisherMachine.start Str Queue 1
    tails := []
    lists := fun
      | .metricReporter => []
      | .dropMetricReporter => [FilterMetric.init dest]
    filter := ⟨IStream.ofBytes [], msgBuf, 0, []⟩
    background := .sleeping
    main := .filtering none
    obtained := []
    handed := []
    failed := 0 }

def foo : Str := ascii "foo"

def noMsg : MsgBuf := ⟨0, fun _ => 0, 0⟩

end Wissbi.RunMachine
