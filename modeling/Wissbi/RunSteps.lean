import Wissbi.RunMachine

set_option autoImplicit false

namespace Wissbi.RunSteps
open MetricReporter RunMachine Util

section
variable {Queue : Type}

@[simp] theorem setCall_pub (s : State Queue) (c : Report) (w : Who) :
    (s.setCall c w).pub = s.pub := by cases w <;> rfl

@[simp] theorem setCall_tails (s : State Queue) (c : Report) (w : Who) :
    (s.setCall c w).tails = s.tails := by cases w <;> rfl

@[simp] theorem setCall_lists (s : State Queue) (c : Report) (w : Who) :
    (s.setCall c w).lists = s.lists := by cases w <;> rfl

@[simp] theorem setCall_filter (s : State Queue) (c : Report) (w : Who) :
    (s.setCall c w).filter = s.filter := by cases w <;> rfl

@[simp] theorem setCall_obtained (s : State Queue) (c : Report) (w : Who) :
    (s.setCall c w).obtained = s.obtained := by cases w <;> rfl

@[simp] theorem setCall_handed (s : State Queue) (c : Report) (w : Who) :
    (s.setCall c w).handed = s.handed := by cases w <;> rfl

@[simp] theorem setCall_failed (s : State Queue) (c : Report) (w : Who) :
    (s.setCall c w).failed = s.failed := by cases w <;> rfl

@[simp] theorem setList_self (s : State Queue) (r : Reporter) (ms : List FilterMetric) :
    (s.setList r ms).lists r = ms :=
  Function.update_self ..

@[simp] theorem setList_drop (s : State Queue) (ms : List FilterMetric) :
    (s.setList .dropMetricReporter ms).lists .metricReporter = s.lists .metricReporter :=
  rfl

@[simp] theorem setList_metric (s : State Queue) (ms : List FilterMetric) :
    (s.setList .metricReporter ms).lists .dropMetricReporter = s.lists .dropMetricReporter :=
  rfl

@[simp] theorem setList_pub (s : State Queue) (r : Reporter) (ms : List FilterMetric) :
    (s.setList r ms).pub = s.pub := rfl

@[simp] theorem setList_tails (s : State Queue) (r : Reporter) (ms : List FilterMetric) :
    (s.setList r ms).tails = s.tails := rfl

@[simp] theorem setList_filter (s : State Queue) (r : Reporter) (ms : List FilterMetric) :
    (s.setList r ms).filter = s.filter := rfl

@[simp] theorem setList_obtained (s : State Queue) (r : Reporter) (ms : List FilterMetric) :
    (s.setList r ms).obtained = s.obtained := rfl

@[simp] theorem setList_handed (s : State Queue) (r : Reporter) (ms : List FilterMetric) :
    (s.setList r ms).handed = s.handed := rfl

@[simp] theorem setList_failed (s : State Queue) (r : Reporter) (ms : List FilterMetric) :
    (s.setList r ms).failed = s.failed := rfl

def Who.other : Who → Who
  | .background => .main
  | .main => .background

theorem call_setCall {s : State Queue} {w : Who} {r : Reporter} {c : Report}
    (h : s.call w = some (r, c)) (c' : Report) :
    (s.setCall c' w).call w = some (r, c') ∧
    (s.setCall c' w).call (Who.other w) = s.call (Who.other w) := by
  cases w with
  | background =>
    refine ⟨?_, rfl⟩
    unfold State.call at h ⊢
    simp only [State.setCall] at h ⊢
    cases hb : s.background with
    | sleeping => simp [hb] at h
    | reporting r' c'' =>
      simp only [hb, Option.some.injEq, Prod.mk.injEq] at h
      simp [Background.setCall, h.1]
  | main =>
    refine ⟨?_, rfl⟩
    unfold State.call at h ⊢
    simp only [State.setCall] at h ⊢
    cases hm : s.main with
    | reporting z c'' =>
      simp only [hm, Option.some.injEq, Prod.mk.injEq] at h
      simp [Main.setCall, h.1]
    | _ => simp [hm] at h

end

section
variable {Queue : Type} [DecidableEq Queue]

inductive Moves (queueOf : Str → Queue) (s : State Queue) : Act → State Queue → Prop where
  | branched (n : Str) (p : PublisherMachine.State Str Queue)
      (hp : PublisherMachine.step ⟨.loop, queueOf⟩ s.pub (.addBranch n) = some p) :
      Moves queueOf s (.pub (.addBranch n)) { s with pub := p }
  | connected (n : Str) (p : PublisherMachine.State Str Queue)
      (hp : PublisherMachine.step ⟨.loop, queueOf⟩ s.pub (.connect n) = some p)
      (hn : n ∈ (s.lists .metricReporter).map FilterMetric.name) :
      Moves queueOf s (.pub (.connect n)) { s with pub := p, tails := s.tails ++ [⟨n, .idle⟩] }
  | called (i : ℕ) (b : PublisherMachine.CallerAct Str) (p : PublisherMachine.State Str Queue)
      (hp : PublisherMachine.step ⟨.loop, queueOf⟩ s.pub (.caller i b) = some p)
      (hm : s.main = .filtering none) (hb : b ≠ .post) :
      Moves queueOf s (.pub (.caller i b)) { s with pub := p }
  | posted (i : ℕ) (p : PublisherMachine.State Str Queue)
      (hp : PublisherMachine.step ⟨.loop, queueOf⟩ s.pub (.caller i .post) = some p)
      (hm : s.main = .filtering none) :
      Moves queueOf s (.pub (.caller i .post))
        { s with
          pub := p
          main := .filtering (some (lastFailedCount s.pub i))
          failed := s.failed + lastFailedCount s.pub i }
  | produced (i : ℕ) (b : PublisherMachine.ProducerAct) (p : PublisherMachine.State Str Queue)
      (t : Tail) (hp : PublisherMachine.step ⟨.loop, queueOf⟩ s.pub (.producer i b) = some p)
      (ht : s.tails[i]? = some t) (hi : t.stage = .idle) (hb : b ≠ .countDown) :
      Moves queueOf s (.pub (.producer i b)) { s with pub := p }
  | counted (i : ℕ) (p : PublisherMachine.State Str Queue) (t : Tail)
      (hp : PublisherMachine.step ⟨.loop, queueOf⟩ s.pub (.producer i .countDown) = some p)
      (ht : s.tails[i]? = some t) (hi : t.stage = .idle) :
      Moves queueOf s (.pub (.producer i .countDown))
        { s with pub := p, tails := s.tails.set i { t with stage := .last } }
  | metricAdded (n : Str) (hn : n ∉ (s.lists .metricReporter).map FilterMetric.name) :
      Moves queueOf s (.addMetric n)
        (s.setList .metricReporter (FilterMetric.init n :: s.lists .metricReporter))
  | lastAdded (i : ℕ) (t : Tail) (ht : s.tails[i]? = some t) (hl : t.stage = .last) :
      Moves queueOf s (.lastProcessed i)
        { s.setList .metricReporter
            (update t.metric (FilterMetric.add 1) (s.lists .metricReporter)) with
          tails := s.tails.set i { t with stage := .total } }
  | totalAdded (i : ℕ) (t : Tail) (ht : s.tails[i]? = some t) (hl : t.stage = .total) :
      Moves queueOf s (.totalProcessed i)
        { s.setList .metricReporter
            (update t.metric FilterMetric.addTotal (s.lists .metricReporter)) with
          tails := s.tails.set i { t with stage := .idle } }
  | dropsAdded (k : ℕ) (m : FilterMetric) (ms : List FilterMetric)
      (hm : s.main = .filtering (some k)) (hl : s.lists .dropMetricReporter = m :: ms) :
      Moves queueOf s .addDrops
        { s.setList .dropMetricReporter (m.add (UInt32.ofNat k) :: ms) with
          main := .filtering none }
  | woke (hb : s.background = .sleeping) :
      Moves queueOf s .wake
        { s with
          background := .reporting .metricReporter (Report.start (s.lists .metricReporter)) }
  | skipped (w : Who) (r : Reporter) (n : Str) (rest : List Str) (m : FilterMetric)
      (hc : s.call w = some (r, .visiting (n :: rest))) (hm : lookup n (s.lists r) = some m)
      (hz : m.lastProcessed = 0) :
      Moves queueOf s (.exchange w r)
        ((s.setList r (update n FilterMetric.drain (s.lists r))).setCall (.visiting rest) w)
  | exchanged (w : Who) (r : Reporter) (n : Str) (rest : List Str) (m : FilterMetric)
      (hc : s.call w = some (r, .visiting (n :: rest))) (hm : lookup n (s.lists r) = some m)
      (hz : m.lastProcessed ≠ 0) :
      Moves queueOf s (.exchange w r)
        { (s.setList r (update n FilterMetric.drain (s.lists r))).setCall
            (.sending n m.lastProcessed rest) w with
          obtained := s.obtained ++ [⟨r, n, m.lastProcessed⟩] }
  | sent (w : Who) (r : Reporter) (n : Str) (v : UInt32) (rest : List Str)
      (hc : s.call w = some (r, .sending n v rest)) :
      Moves queueOf s (.send w r)
        { s.setCall (.filtering n v rest) w with
          filter := { s.filter with
            stream := StringPolicy.send s.filter.stream (Count.text ⟨r, n, v⟩) }
          handed := s.handed ++ [⟨r, n, v⟩] }
  | filtered (w : Who) (r : Reporter) (n : Str) (v : UInt32) (rest : List Str)
      (hc : s.call w = some (r, .filtering n v rest)) :
      Moves queueOf s (.filter w r)
        { s.setCall (.visiting rest) w with filter := s.filter.filter }
  | turned (hb : s.background = .reporting .metricReporter (.visiting [])) :
      Moves queueOf s (.finish .background)
        { s with
          background :=
            .reporting .dropMetricReporter (Report.start (s.lists .dropMetricReporter)) }
  | slept (hb : s.background = .reporting .dropMetricReporter (.visiting [])) :
      Moves queueOf s (.finish .background) { s with background := .sleeping }
  | reported (z : Bool) (hm : s.main = .reporting z (.visiting [])) :
      Moves queueOf s (.finish .main) { s with main := .lastWait z false }
  | metricCounted :
      Moves queueOf s .metricCountDown
        { s with filter := { s.filter with pending := s.filter.pending - 1 } }
  | loopEnded (hm : s.main = .filtering none) (hc : s.pub.callers = [.returned]) :
      Moves queueOf s .loopEnded { s with main := .waiting false }
  | found (hm : s.main = .waiting false) (hp : s.pub.shared.pending > 0) :
      Moves queueOf s .look { s with main := .waiting true }
  | left (hm : s.main = .waiting false) (hz : ¬ s.pub.shared.pending > 0) :
      Moves queueOf s .look
        { s with main := .reporting true (Report.start (s.lists .metricReporter)) }
  | rested (hm : s.main = .waiting true) :
      Moves queueOf s .sleep { s with main := .waiting false }
  | expired (hm : s.main = .waiting true) :
      Moves queueOf s .timeout
        { s with main := .reporting false (Report.start (s.lists .metricReporter)) }
  | waited (a : Act) (z b b' : Bool) (ha : a = .look ∨ a = .sleep) (hm : s.main = .lastWait z b) :
      Moves queueOf s a { s with main := .lastWait z b' }
  | returned (a : Act) (z b : Bool) (ha : a = .look ∨ a = .timeout)
      (hm : s.main = .lastWait z b) :
      Moves queueOf s a { s with main := .returned z }

theorem pub_moves {queueOf : Str → Queue} {s t : State Queue} {a : PublisherMachine.Act Str}
    (h : pubStep queueOf s a = some t) : Moves queueOf s (.pub a) t := by
  obtain ⟨p, hp, h⟩ := Option.bind_eq_some_iff.mp h
  cases a with
  | addBranch n => cases h; exact .branched n p hp
  | connect n =>
    simp only at h
    split at h
    next hn => cases h; exact .connected n p hp hn
    next => cases h
  | caller i b =>
    simp only at h
    split_ifs at h with hm hb
    · cases h
      subst hb
      exact .posted i p hp hm
    · cases h
      exact .called i b p hp hm hb
  | producer i b =>
    obtain ⟨tail, ht, h⟩ := Option.bind_eq_some_iff.mp h
    split_ifs at h with hi hb
    · cases h
      subst hb
      exact .counted i p tail hp ht hi
    · cases h
      exact .produced i b p tail hp ht hi hb

theorem exchange_moves {queueOf : Str → Queue} {s : State Queue} {w : Who} {r : Reporter}
    {c : Report} {x : Exchanged} (hc : s.call w = some (r, c))
    (h : c.exchange (s.lists r) = some x) :
    Moves queueOf s (.exchange w r)
      { (s.setList r x.list).setCall x.call w with
        obtained := s.obtained ++ if x.v = 0 then [] else [⟨r, x.name, x.v⟩] } := by
  unfold Report.exchange at h
  split at h
  next n rest =>
    obtain ⟨m, hm, rfl⟩ := Option.map_eq_some_iff.mp h
    by_cases hz : m.lastProcessed = 0
    · simp only [hz, ↓reduceIte, List.append_nil]
      convert Moves.skipped w r n rest m hc hm hz using 1
      cases w <;> rfl
    · simp only [hz, ↓reduceIte]
      exact .exchanged w r n rest m hc hm hz
  next => cases h

theorem finish_moves {queueOf : Str → Queue} {s t : State Queue} {w : Who}
    (h : s.finish w = some t) : Moves queueOf s (.finish w) t := by
  cases w with
  | background =>
    simp only [State.finish] at h
    split at h
    next hb => cases h; exact .turned hb
    next hb => cases h; exact .slept hb
    next => cases h
  | main =>
    simp only [State.finish] at h
    split at h
    next z hm => cases h; exact .reported z hm
    next => cases h

theorem look_moves {queueOf : Str → Queue} {s t : State Queue} (h : s.look = some t) :
    Moves queueOf s .look t := by
  unfold State.look at h
  split at h
  next hm =>
    split at h
    next hp => cases h; exact .found hm hp
    next hz => cases h; exact .left hm hz
  next z hm =>
    split at h
    next => cases h; exact .waited .look z false true (.inl rfl) hm
    next => cases h; exact .returned .look z false (.inl rfl) hm
  next => cases h

theorem clock_moves {queueOf : Str → Queue} {s t : State Queue} :
    (s.sleep = some t → Moves queueOf s .sleep t) ∧
    (s.timeout = some t → Moves queueOf s .timeout t) := by
  constructor
  · intro h
    unfold State.sleep at h
    split at h
    next hm => cases h; exact .rested hm
    next z hm => cases h; exact .waited .sleep z true false (.inr rfl) hm
    next => cases h
  · intro h
    unfold State.timeout at h
    split at h
    next hm => cases h; exact .expired hm
    next z hm => cases h; exact .returned .timeout z true (.inr rfl) hm
    next => cases h

theorem step_moves {queueOf : Str → Queue} {s t : State Queue} {a : Act}
    (h : step queueOf s a = some t) : Moves queueOf s a t := by
  unfold step at h
  split at h
  next => cases h
  next =>
    cases a with
    | pub a => exact pub_moves h
    | addMetric n =>
      simp only at h
      split at h
      next => cases h
      next hn => cases h; exact .metricAdded n hn
    | lastProcessed i =>
      obtain ⟨tail, ht, h⟩ := Option.bind_eq_some_iff.mp h
      split at h
      next hl => cases h; exact .lastAdded i tail ht hl
      next => cases h
    | totalProcessed i =>
      obtain ⟨tail, ht, h⟩ := Option.bind_eq_some_iff.mp h
      split at h
      next hl => cases h; exact .totalAdded i tail ht hl
      next => cases h
    | addDrops =>
      simp only at h
      split at h
      next k m ms hm hl => cases h; exact .dropsAdded k m ms hm hl
      next => cases h
    | wake =>
      simp only at h
      split at h
      next hb => cases h; exact .woke hb
      next => cases h
    | exchange w r =>
      simp only at h
      split at h
      next r' c hc =>
        split at h
        next hr =>
          subst hr
          obtain ⟨x, hx, rfl⟩ := Option.map_eq_some_iff.mp h
          exact exchange_moves hc hx
        next => cases h
      next => cases h
    | send w r =>
      simp only at h
      split at h
      next r' n v rest hc =>
        split at h
        next hr => subst hr; cases h; exact .sent w r' n v rest hc
        next => cases h
      next => cases h
    | filter w r =>
      simp only at h
      split at h
      next r' n v rest hc =>
        split at h
        next hr => subst hr; cases h; exact .filtered w r' n v rest hc
        next => cases h
      next => cases h
    | finish w => exact finish_moves h
    | metricCountDown => cases h; exact .metricCounted
    | loopEnded =>
      simp only at h
      split at h
      next hm =>
        split at h
        next hc => cases h; exact .loopEnded hm hc
        next => cases h
      next => cases h
    | look => exact look_moves h
    | sleep => exact clock_moves.1 h
    | timeout => exact clock_moves.2 h

end

end Wissbi.RunSteps
