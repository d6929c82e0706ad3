import Wissbi.PublisherMachine
import Wissbi.TcpFraming
import Wissbi.ThreadPool

set_option autoImplicit false

namespace Wissbi.PublisherSteps
open Buffers Framing PublisherMachine TcpFraming TcpPolicy ThreadPool

variable {Name Queue : Type} [DecidableEq Name] [DecidableEq Queue]

inductive ProducerMoves (p : Producer Queue) (w : Shared Queue) :
    ProducerAct → Producer Queue → Shared Queue → Prop where
  | took (m : Msg) (before after : List (Queue × Msg)) (hp : p.phase = .waiting)
      (hq : w.mq = before ++ (p.queue, m) :: after) (hm : m ≠ []) (hl : m.length ≤ maxMsgSize) :
      ProducerMoves p w .msgrcv { p with phase := .writing m 0 } { w with mq := before ++ after }
  | tookEmpty (before after : List (Queue × Msg)) (hp : p.phase = .waiting)
      (hq : w.mq = before ++ (p.queue, []) :: after) :
      ProducerMoves p w .msgrcv { p with phase := .failed [] } { w with mq := before ++ after }
  | starved (hp : p.phase = .waiting) :
      ProducerMoves p w .msgrcvFail { p with phase := .failed [] }
        { w with starved := w.starved ++ [(p.queue, [])] }
  | wrote (m : Msg) (k n : ℕ) (hp : p.phase = .writing m k)
      (hk : k + ((offered m k).take n).length ≠ (frame m).length) :
      ProducerMoves p w (.write n)
        { p with
          phase := .writing m (k + ((offered m k).take n).length)
          wire := p.wire ++ (offered m k).take n } w
  | finished (m : Msg) (k n : ℕ) (hp : p.phase = .writing m k)
      (hk : k + ((offered m k).take n).length = (frame m).length) :
      ProducerMoves p w (.write n)
        { p with
          phase := .sent m
          wire := p.wire ++ (offered m k).take n
          done := p.done ++ [m] } w
  | broke (m : Msg) (k : ℕ) (hp : p.phase = .writing m k) :
      ProducerMoves p w .writeFail { p with phase := .failed m } w
  | counted (m : Msg) (hp : p.phase = .sent m) :
      ProducerMoves p w .countDown { p with phase := .waiting }
        { w with pending := w.pending - 1, counted := w.counted + 1 }
  | requeued (m : Msg) (hp : p.phase = .failed m) :
      ProducerMoves p w .requeue { p with phase := .closed }
        { w with mq := w.mq ++ [(p.queue, m)] }
  | lost (m : Msg) (hp : p.phase = .failed m) :
      ProducerMoves p w .requeueFail { p with phase := .closed }
        { w with lost := w.lost ++ [(p.queue, m)] }

theorem takeFirst_some {q : Queue} {l rest : List (Queue × Msg)} {m : Msg}
    (h : takeFirst q l = some (m, rest)) :
    ∃ before after, l = before ++ (q, m) :: after ∧ rest = before ++ after := by
  induction l generalizing rest with
  | nil => cases h
  | cons x l ih =>
    unfold takeFirst at h
    split at h
    next hx =>
      cases h
      exact ⟨[], l, by rw [← hx]; rfl, rfl⟩
    next =>
      obtain ⟨r, hr, he⟩ := Option.map_eq_some_iff.mp h
      cases he
      obtain ⟨before, after, rfl, hrest⟩ := ih hr
      exact ⟨x :: before, after, rfl, by rw [hrest]; rfl⟩

theorem producer_moves {p p' : Producer Queue} {w w' : Shared Queue} {a : ProducerAct}
    (h : p.step w a = some (p', w')) : ProducerMoves p w a p' w' := by
  cases a with
  | msgrcv =>
    simp only [Producer.step] at h
    split at h
    next m rest hp ht =>
      obtain ⟨before, after, hq, rfl⟩ := takeFirst_some ht
      split_ifs at h with hl hm
      · cases h
        subst hm
        exact .tookEmpty before after hp hq
      · cases h
        exact .took m before after hp hq hm hl
    next => cases h
  | msgrcvFail =>
    simp only [Producer.step] at h
    split at h
    next hp => cases h; exact .starved hp
    next => cases h
  | write n =>
    simp only [Producer.step] at h
    split at h
    next m k hp =>
      split at h
      next hk => cases h; exact .finished m k n hp hk
      next hk => cases h; exact .wrote m k n hp hk
    next => cases h
  | writeFail =>
    simp only [Producer.step] at h
    split at h
    next m k hp => cases h; exact .broke m k hp
    next => cases h
  | countDown =>
    simp only [Producer.step] at h
    split at h
    next m hp => cases h; exact .counted m hp
    next => cases h
  | requeue =>
    simp only [Producer.step] at h
    split at h
    next m hp => cases h; exact .requeued m hp
    next => cases h
  | requeueFail =>
    simp only [Producer.step] at h
    split at h
    next m hp => cases h; exact .lost m hp
    next => cases h

inductive CallerMoves (cfg : Config Name Queue) (branches : List Name) (w : Shared Queue) :
    CallerAct Name → Caller Name → Caller Name → Shared Queue → Prop where
  | ended : CallerMoves cfg branches w .getFalse .idle cfg.mode.afterFalse w
  | began (m : Msg) (order : List Name) (ho : order.isPerm branches = true)
      (hm : cfg.mode = .report → m ≠ []) :
      CallerMoves cfg branches w (.getTrue m order) .idle (.teeing m order order 0 0) w
  | visited (m : Msg) (todo seen : List Name) (tee failed : ℕ) (n : Name) (hn : n ∈ branches)
      (hs : n ∉ seen) :
      CallerMoves cfg branches w (.visit n) (.teeing m todo seen tee failed)
        (.teeing m (n :: todo) (n :: seen) tee failed) w
  | put (m : Msg) (n : Name) (todo seen : List Name) (tee failed : ℕ) :
      CallerMoves cfg branches w .putOk (.teeing m (n :: todo) seen tee failed)
        (.teeing m todo seen (tee + 1) failed)
        { w with
          mq := w.mq ++ [(cfg.queueOf n, m)]
          enqueued := w.enqueued ++ [(cfg.queueOf n, m)]
          attempted := w.attempted + 1 }
  | dropped (m : Msg) (n : Name) (todo seen : List Name) (tee failed : ℕ) :
      CallerMoves cfg branches w .putFail (.teeing m (n :: todo) seen tee failed)
        (.teeing m todo seen (tee + 1) (failed + 1))
        { w with attempted := w.attempted + 1, dropped := w.dropped + 1 }
  | posted (m : Msg) (seen : List Name) (tee failed : ℕ) :
      CallerMoves cfg branches w .post (.teeing m [] seen tee failed) .idle
        { w with
          pending := w.pending + UInt32.ofNat (cfg.mode.credit tee)
          credited := w.credited + cfg.mode.credit tee }

omit [DecidableEq Queue] in
theorem caller_moves {cfg : Config Name Queue} {branches : List Name} {w w' : Shared Queue}
    {a : CallerAct Name} {c c' : Caller Name}
    (h : Caller.step cfg branches w c a = some (c', w')) :
    CallerMoves cfg branches w a c c' w' := by
  unfold Caller.step at h
  split at h
  next => cases h; exact .ended
  next m order =>
    split at h
    next hc => cases h; exact .began m order hc.1 hc.2
    next => cases h
  next m todo seen tee failed n =>
    split at h
    next hc => cases h; exact .visited m todo seen tee failed n hc.1 hc.2
    next => cases h
  next m n todo seen tee failed => cases h; exact .put m n todo seen tee failed
  next m n todo seen tee failed => cases h; exact .dropped m n todo seen tee failed
  next m seen tee failed => cases h; exact .posted m seen tee failed
  next => cases h

/-- A step is a new branch, a new producer, or a step of one thread. -/
theorem step_cases {cfg : Config Name Queue} {s t : State Name Queue} {a : Act Name}
    (h : step cfg s a = some t) :
    (∃ n, a = .addBranch n ∧ t = { s with branches := s.branches ++ [n] }) ∨
    (∃ n, a = .connect n ∧
      t = { s with producers := s.producers ++ [⟨cfg.queueOf n, .waiting, [], []⟩] }) ∨
    (∃ i b c c' w, a = .caller i b ∧ s.callers[i]? = some c ∧
      CallerMoves cfg s.branches s.shared b c c' w ∧
      t = { s with callers := s.callers.set i c', shared := w }) ∨
    (∃ i b p p' w, a = .producer i b ∧ s.producers[i]? = some p ∧
      ProducerMoves p s.shared b p' w ∧
      t = { s with producers := s.producers.set i p', shared := w }) := by
  cases a with
  | addBranch n =>
    simp only [step] at h
    split at h
    next => cases h
    next => cases h; exact .inl ⟨n, rfl, rfl⟩
  | connect n =>
    simp only [step] at h
    split at h
    next => cases h; exact .inr (.inl ⟨n, rfl, rfl⟩)
    next => cases h
  | caller i b =>
    obtain ⟨c, hc, h⟩ := Option.bind_eq_some_iff.mp h
    obtain ⟨r, hr, he⟩ := Option.map_eq_some_iff.mp h
    exact .inr (.inr (.inl ⟨i, b, c, r.1, r.2, rfl, hc, caller_moves hr, he.symm⟩))
  | producer i b =>
    obtain ⟨p, hp, h⟩ := Option.bind_eq_some_iff.mp h
    obtain ⟨r, hr, he⟩ := Option.map_eq_some_iff.mp h
    exact .inr (.inr (.inr ⟨i, b, p, r.1, r.2, rfl, hp, producer_moves hr, he.symm⟩))

end Wissbi.PublisherSteps
