import Wissbi.PublisherPending

set_option autoImplicit false

namespace Wissbi.MetricPending
open Buffers PublisherConservation PublisherMachine PublisherPending PublisherSteps Runs ThreadPool

section
variable {Name Queue : Type} [DecidableEq Name] [DecidableEq Queue]

def accepted : Caller Name → ℕ
  | .teeing _ _ _ tee failed => tee - failed
  | _ => 0

def Sane : Caller Name → Prop
  | .teeing m _ _ tee failed => m ≠ [] ∧ failed ≤ tee
  | _ => True

/-- The metric messages in the queues and in the hands of producers; a producer has its
message in hand until its post-filter is done. -/
def outstanding (s : State Name Queue) : ℕ :=
  real s.shared.mq + total (fun p => real (held p)) s.producers + total uncounted s.producers

/-- Every call of `Filter()` was accepted by one branch when its post-filter runs, and a
requeue fails for no metric message. -/
def OnePerCall (s : State Name Queue) : Act Name → Prop
  | .caller i .post => ∀ c, s.callers[i]? = some c → accepted c = 1
  | .producer i .requeueFail => ∀ p, s.producers[i]? = some p → real (held p) = 0
  | _ => True

structure Metered (s : State Name Queue) : Prop where
  books : Books s
  credited : s.shared.enqueued.length = s.shared.credited + total accepted s.callers
  texts : ∀ x ∈ s.shared.enqueued, x.2 ≠ []
  sane : ∀ c ∈ s.callers, Sane c
  lost : real s.shared.lost = 0

omit [DecidableEq Queue] in
theorem caller_sane {cfg : Config Name Queue} (hr : cfg.mode = .report) {branches : List Name}
    {w w' : Shared Queue} {a : CallerAct Name} {c c' : Caller Name}
    (h : CallerMoves cfg branches w a c c' w') (hc : Sane c) : Sane c' := by
  cases h with
  | ended => simp only [Mode.afterFalse, hr, Sane]
  | began m order _ hm => exact ⟨hm hr, Nat.le_refl 0⟩
  | visited m todo seen tee failed n => exact hc
  | put m n todo seen tee failed => exact ⟨hc.1, Nat.le_succ_of_le hc.2⟩
  | dropped m n todo seen tee failed => exact ⟨hc.1, Nat.succ_le_succ hc.2⟩
  | posted m seen tee failed => trivial

omit [DecidableEq Queue] in
theorem caller_texts {cfg : Config Name Queue} {branches : List Name} {w w' : Shared Queue}
    {a : CallerAct Name} {c c' : Caller Name} (h : CallerMoves cfg branches w a c c' w')
    (hc : Sane c) (hw : ∀ x ∈ w.enqueued, x.2 ≠ []) : ∀ x ∈ w'.enqueued, x.2 ≠ [] := by
  cases h
  case put =>
    intro x hx
    rcases List.mem_append.mp hx with hx | hx
    · exact hw x hx
    · rw [List.mem_singleton.mp hx]
      exact hc.1
  all_goals exact hw

omit [DecidableEq Queue] in
theorem caller_accepted {cfg : Config Name Queue} (hr : cfg.mode = .report) {branches : List Name}
    {w w' : Shared Queue} {a : CallerAct Name} {c c' : Caller Name}
    (h : CallerMoves cfg branches w a c c' w') (hc : Sane c) (hp : a = .post → accepted c = 1) :
    w'.lost = w.lost ∧
    w'.enqueued.length + w.credited + accepted c =
      w.enqueued.length + w'.credited + accepted c' := by
  refine ⟨by cases h <;> rfl, ?_⟩
  cases h with
  | ended => simp only [Mode.afterFalse, hr, accepted]
  | began m order => simp only [accepted]
  | visited m todo seen tee failed n => simp only [accepted]
  | put m n todo seen tee failed =>
    have hle := hc.2
    simp only [accepted, List.length_append, List.length_singleton]
    omega
  | dropped m n todo seen tee failed => simp only [accepted]; omega
  | posted m seen tee failed =>
    have h1 := hp rfl
    simp only [accepted, Mode.credit, hr] at h1 ⊢
    omega

omit [DecidableEq Queue] in
theorem producer_lost {p p' : Producer Queue} {w w' : Shared Queue} {a : ProducerAct}
    (h : ProducerMoves p w a p' w') (hp : a = .requeueFail → real (held p) = 0)
    (hw : real w.lost = 0) : real w'.lost = 0 := by
  cases h
  case lost m hm =>
    have hz := hp rfl
    simp only [held, hm] at hz
    unfold real at *
    rw [List.countP_append, hw, hz]
  all_goals exact hw

theorem step_metered {cfg : Config Name Queue} (hr : cfg.mode = .report) (s : State Name Queue)
    (a : Act Name) (t : State Name Queue) (hs : Metered s) (hone : OnePerCall s a)
    (h : step cfg s a = some t) : Metered t := by
  have books := step_books s a t hs.books h
  obtain ⟨n, -, rfl⟩ | ⟨n, -, rfl⟩ | ⟨i, b, c, c', w, rfl, hc, hm, rfl⟩ |
    ⟨i, b, p, p', w, rfl, hp, hm, rfl⟩ := step_cases h
  · exact ⟨books, hs.credited, hs.texts, hs.sane, hs.lost⟩
  · exact ⟨books, hs.credited, hs.texts, hs.sane, hs.lost⟩
  · have hsane := hs.sane c (List.mem_of_getElem? hc)
    have hpost : b = .post → accepted c = 1 := by
      rintro rfl
      exact hone c hc
    obtain ⟨hlost, hacc⟩ := caller_accepted hr hm hsane hpost
    refine ⟨books, ?_, caller_texts hm hsane hs.texts, forall_set hs.sane (caller_sane hr hm hsane),
      hlost ▸ hs.lost⟩
    have hcred := hs.credited
    have hset := total_set accepted hc c'
    simp only
    omega
  · have hfail : b = .requeueFail → real (held p) = 0 := by
      rintro rfl
      exact hone p hp
    obtain ⟨hc, -, -, he⟩ := producer_frame hm
    refine ⟨books, ?_, ?_, hs.sane, producer_lost hm hfail hs.lost⟩
    · simp only [hc, he]
      exact hs.credited
    · simp only [he]
      exact hs.texts

theorem run_metered {cfg : Config Name Queue} (hr : cfg.mode = .report) {callers : ℕ}
    {acts : List (Act Name)} {s : State Name Queue}
    (h : run (step cfg) (start Name Queue callers) acts = some s)
    (along : Along (step cfg) OnePerCall (start Name Queue callers) acts) : Metered s := by
  refine run_invariant_along OnePerCall Metered (step_metered hr) h along
    ⟨start_books callers, ?_, ?_, ?_, rfl⟩
  · have hz : total accepted (List.replicate callers (.idle : Caller Name)) = 0 :=
      total_eq_zero accepted fun c hc => by rw [List.eq_of_mem_replicate hc]; rfl
    simp [start, hz]
  · simp [start]
  · intro c hc
    rw [List.eq_of_mem_replicate hc]
    trivial

omit [DecidableEq Name] [DecidableEq Queue] in
theorem metered_counter {s : State Name Queue} (hs : Metered s)
    (rest : ∀ c ∈ s.callers, c = .idle) : s.shared.pending = UInt32.ofNat (outstanding s) := by
  have hz : total accepted s.callers = 0 :=
    total_eq_zero accepted fun c hc => by rw [rest c hc]; rfl
  have hr : real s.shared.enqueued = s.shared.enqueued.length :=
    List.countP_eq_length.mpr fun x hx => by simpa using hs.texts x hx
  have hb := real_balance hs.books.ledger
  have hf := hs.books.forwarded
  have hc := hs.credited
  have hl := hs.lost
  have he : s.shared.credited = outstanding s + s.shared.counted := by
    unfold outstanding
    omega
  have hp := hs.books.counter
  rw [he, UInt32.ofNat_add] at hp
  exact (UInt32.add_left_inj _).mp hp

/-- In the runs in which every call is accepted by one branch, whenever no call is in
progress the counter is the number of metric messages that are still around. -/
theorem metric_counter_tracks_outstanding (queueOf : Name → Queue) (callers : ℕ)
    (acts : List (Act Name)) (s : State Name Queue)
    (h : run (step ⟨.report, queueOf⟩) (start Name Queue callers) acts = some s)
    (along : Along (step ⟨.report, queueOf⟩) OnePerCall (start Name Queue callers) acts)
    (rest : ∀ c ∈ s.callers, c = .idle) (hb : outstanding s < 2 ^ 32) :
    (s.shared.pending = 0 ↔ outstanding s = 0) ∧ s.shared.pending.toNat = outstanding s := by
  have hp := metered_counter (run_metered rfl h along) rest
  have hn : s.shared.pending.toNat = outstanding s := by
    rw [hp, UInt32.toNat_ofNat']
    exact Nat.mod_eq_of_lt hb
  refine ⟨⟨fun hz => ?_, fun hz => ?_⟩, hn⟩
  · rw [← hn, hz]
    rfl
  · rw [hp, hz]
    rfl

def oneSubscriber : List (Act ℕ) :=
  [.addBranch 0, .connect 0, .caller 0 (.getTrue [7] [0]), .caller 0 .putOk, .caller 0 .post]

theorem one_subscriber_tracked :
    ∃ s, run (step ⟨.report, id⟩) (start ℕ ℕ 2) oneSubscriber = some s ∧ outstanding s = 1 ∧
      (s.shared.pending = 0 ↔ outstanding s = 0) ∧ s.shared.pending.toNat = outstanding s := by
  refine ⟨_, rfl, rfl, metric_counter_tracks_outstanding id 2 oneSubscriber _ rfl ?_ ?_ ?_⟩
  · simp [oneSubscriber, Along, OnePerCall, step, start, Caller.step, accepted]
  · decide
  · decide

def twoSubscribers : List (Act ℕ) :=
  [.addBranch 0, .addBranch 1, .connect 0, .connect 1, .caller 0 (.getTrue [7] [0, 1]),
    .caller 0 .putOk, .caller 0 .putOk, .caller 0 .post,
    .producer 0 .msgrcv, .producer 0 (.write 4), .producer 0 (.write 1), .producer 0 .countDown,
    .producer 1 .msgrcv, .producer 1 (.write 4), .producer 1 (.write 1), .producer 1 .countDown]

theorem two_subscribers_wrap :
    (∃ s, run (step ⟨.report, id⟩) (start ℕ ℕ 2) twoSubscribers = some s ∧
      (∀ c ∈ s.callers, c = .idle) ∧ outstanding s = 0 ∧ s.shared.pending.toNat = 2 ^ 32 - 1) ∧
    ¬ ∀ (acts : List (Act ℕ)) (s : State ℕ ℕ),
      run (step ⟨.report, id⟩) (start ℕ ℕ 2) acts = some s → (∀ c ∈ s.callers, c = .idle) →
      (s.shared.pending = 0 ↔ outstanding s = 0) := by
  refine ⟨⟨_, rfl, by decide, rfl, rfl⟩, fun h => ?_⟩
  have hz := (h twoSubscribers _ rfl (by decide)).mpr rfl
  exact absurd hz (by decide)

end

end Wissbi.MetricPending
