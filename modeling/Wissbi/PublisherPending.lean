import Wissbi.PublisherConservation

set_option autoImplicit false

namespace Wissbi.PublisherPending
open Buffers PublisherConservation PublisherMachine PublisherSteps Runs ThreadPool

section
variable {Name Queue : Type} [DecidableEq Name] [DecidableEq Queue]

def real (l : List (Queue × Msg)) : ℕ := l.countP fun x => x.2 ≠ []

def uncounted (p : Producer Queue) : ℕ :=
  match p.phase with
  | .sent _ => 1
  | _ => 0

structure Books (s : State Name Queue) : Prop where
  ledger : Invariant s
  forwarded : s.shared.counted + total uncounted s.producers =
    total (fun p => p.done.length) s.producers
  counter : s.shared.pending + UInt32.ofNat s.shared.counted = UInt32.ofNat s.shared.credited
  attempted : s.shared.attempted = s.shared.enqueued.length + s.shared.dropped

omit [DecidableEq Queue] in
theorem producer_books {p p' : Producer Queue} {w w' : Shared Queue} {a : ProducerAct}
    (h : ProducerMoves p w a p' w') :
    w'.counted + uncounted p' + p.done.length = w.counted + uncounted p + p'.done.length ∧
    w'.pending + UInt32.ofNat w'.counted = w.pending + UInt32.ofNat w.counted := by
  cases h with
  | took m before after hp => simp [uncounted, hp]
  | tookEmpty before after hp => simp [uncounted, hp]
  | starved hp => simp [uncounted, hp]
  | wrote m k n hp => simp [uncounted, hp]
  | finished m k n hp =>
    simp only [uncounted, hp, List.length_append, List.length_singleton, and_true]
    omega
  | broke m k hp => simp [uncounted, hp]
  | counted m hp =>
    refine ⟨by simp only [uncounted, hp], ?_⟩
    rw [UInt32.ofNat_add]
    grind
  | requeued m hp => simp [uncounted, hp]
  | lost m hp => simp [uncounted, hp]

omit [DecidableEq Queue] in
theorem producer_frame {p p' : Producer Queue} {w w' : Shared Queue} {a : ProducerAct}
    (h : ProducerMoves p w a p' w') :
    w'.credited = w.credited ∧ w'.attempted = w.attempted ∧ w'.dropped = w.dropped ∧
      w'.enqueued = w.enqueued := by
  cases h <;> exact ⟨rfl, rfl, rfl, rfl⟩

omit [DecidableEq Queue] in
theorem caller_books {cfg : Config Name Queue} {branches : List Name} {w w' : Shared Queue}
    {a : CallerAct Name} {c c' : Caller Name} (h : CallerMoves cfg branches w a c c' w') :
    w'.counted = w.counted ∧
    w'.pending + UInt32.ofNat w.credited = w.pending + UInt32.ofNat w'.credited ∧
    w'.attempted + w.enqueued.length + w.dropped =
      w.attempted + w'.enqueued.length + w'.dropped := by
  cases h
  case put =>
    refine ⟨rfl, rfl, ?_⟩
    simp only [List.length_append, List.length_singleton]
    omega
  case dropped =>
    refine ⟨rfl, rfl, ?_⟩
    simp only
    omega
  case posted =>
    refine ⟨rfl, ?_, rfl⟩
    rw [UInt32.ofNat_add]
    grind
  all_goals exact ⟨rfl, rfl, rfl⟩

theorem step_books {cfg : Config Name Queue} (s : State Name Queue) (a : Act Name)
    (t : State Name Queue) (hs : Books s) (h : step cfg s a = some t) : Books t := by
  have ledger := step_invariant s a t hs.ledger h
  obtain ⟨n, -, rfl⟩ | ⟨n, -, rfl⟩ | ⟨i, b, c, c', w, -, -, hm, rfl⟩ |
    ⟨i, b, p, p', w, -, hp, hm, rfl⟩ := step_cases h
  · exact ⟨ledger, hs.forwarded, hs.counter, hs.attempted⟩
  · refine ⟨ledger, ?_, hs.counter, hs.attempted⟩
    simpa [uncounted] using hs.forwarded
  · obtain ⟨h₁, h₂, h₃⟩ := caller_books hm
    refine ⟨ledger, ?_, ?_, ?_⟩
    · exact h₁ ▸ hs.forwarded
    · have hc := hs.counter
      rw [h₁]
      grind
    · have ha := hs.attempted
      simp only
      omega
  · obtain ⟨h₁, h₂⟩ := producer_books hm
    obtain ⟨hc, ha, hd, he⟩ := producer_frame hm
    refine ⟨ledger, ?_, ?_, ?_⟩
    · have hu := total_set uncounted hp p'
      have hl := total_set (fun p => p.done.length) hp p'
      have hf := hs.forwarded
      simp only at hl ⊢
      omega
    · exact h₂.trans (hs.counter.trans (by rw [hc]))
    · simp only [ha, hd, he]
      exact hs.attempted

omit [DecidableEq Name] [DecidableEq Queue] in
theorem start_books (callers : ℕ) : Books (start Name Queue callers) :=
  ⟨start_invariant callers, rfl, rfl, rfl⟩

theorem run_books {cfg : Config Name Queue} {callers : ℕ} {acts : List (Act Name)}
    {s : State Name Queue} (h : run (step cfg) (start Name Queue callers) acts = some s) :
    Books s :=
  run_invariant Books step_books h (start_books callers)

omit [DecidableEq Queue] in
theorem real_delivered {p : Producer Queue} (hp : Connected p) :
    real (delivered p) = p.done.length := by
  unfold real delivered
  rw [List.countP_map, List.countP_eq_length]
  intro m hm
  simpa using (hp.sized m hm).1

omit [DecidableEq Name] [DecidableEq Queue] in
theorem real_balance {s : State Name Queue} (hs : Invariant s) :
    real s.shared.enqueued =
      real s.shared.mq + real s.shared.lost + total (fun p => real (held p)) s.producers +
        total (fun p => p.done.length) s.producers := by
  have hz : real s.shared.starved = 0 :=
    List.countP_eq_zero.mpr fun x hx => by simpa using hs.starved x hx
  have hd : total (fun p => p.done.length) s.producers =
      total (fun p => real (delivered p)) s.producers := by
    refine congrArg List.sum (List.map_congr_left fun p hp => ?_)
    exact (real_delivered (hs.connected p hp)).symm
  have hp := hs.conserved.countP_eq fun x => x.2 ≠ []
  simp only [List.countP_append, List.countP_flatMap] at hp
  rw [hd]
  unfold real total at *
  change _ = _ + _ + (s.producers.map _).sum + (s.producers.map _).sum at hp
  simp only [Function.comp_def] at hp
  omega

def tee : Caller Name → ℕ
  | .teeing _ _ _ n _ => n
  | _ => 0

omit [DecidableEq Queue] in
theorem caller_credited {cfg : Config Name Queue} (hl : cfg.mode = .loop) {branches : List Name}
    {w w' : Shared Queue} {a : CallerAct Name} {c c' : Caller Name}
    (h : CallerMoves cfg branches w a c c' w') :
    w'.credited + tee c' + w.attempted = w.credited + tee c + w'.attempted := by
  cases h <;> simp only [tee, Mode.credit, Mode.afterFalse, hl] <;> omega

theorem run_credited {cfg : Config Name Queue} (hl : cfg.mode = .loop) {callers : ℕ}
    {acts : List (Act Name)} {s : State Name Queue}
    (h : run (step cfg) (start Name Queue callers) acts = some s) :
    s.shared.credited + total tee s.callers = s.shared.attempted := by
  refine run_invariant (fun s => s.shared.credited + total tee s.callers = s.shared.attempted)
    ?_ h ?_
  · intro s a t hs h
    obtain ⟨n, -, rfl⟩ | ⟨n, -, rfl⟩ | ⟨i, b, c, c', w, -, hc, hm, rfl⟩ |
      ⟨i, b, p, p', w, -, -, hm, rfl⟩ := step_cases h
    · exact hs
    · exact hs
    · have hb := caller_credited hl hm
      have ht := total_set tee hc c'
      simp only
      omega
    · obtain ⟨hc, ha, -, -⟩ := producer_frame hm
      simp only [hc, ha]
      exact hs
  · simp only [start, Nat.zero_add]
    exact total_eq_zero tee fun c hc => by rw [List.eq_of_mem_replicate hc]; rfl

/-- After the input loop the counter is what was put on branches less what was counted
down, modulo its range. -/
theorem returned_counter {cfg : Config Name Queue} (hl : cfg.mode = .loop) {callers : ℕ}
    {acts : List (Act Name)} {s : State Name Queue}
    (h : run (step cfg) (start Name Queue callers) acts = some s)
    (hret : ∀ c ∈ s.callers, c = .returned) :
    s.shared.pending + UInt32.ofNat s.shared.counted = UInt32.ofNat s.shared.attempted := by
  have hz : total tee s.callers = 0 := total_eq_zero tee fun c hc => by rw [hret c hc]; rfl
  have hc := run_credited hl h
  rw [(run_books h).counter, ← hc, hz, Nat.add_zero]

omit [DecidableEq Name] [DecidableEq Queue] in
/-- What was counted down and what is still around was put on a branch before. -/
theorem counted_bound {s : State Name Queue} (hs : Books s) :
    s.shared.counted + total uncounted s.producers + real s.shared.mq +
      total (fun p => real (held p)) s.producers + s.shared.dropped ≤ s.shared.attempted := by
  have hr := real_balance hs.ledger
  have hf := hs.forwarded
  have ha := hs.attempted
  have hle : real s.shared.enqueued ≤ s.shared.enqueued.length := List.countP_le_length
  omega

def countsDown : Act Name → ℕ
  | .producer _ .countDown => 1
  | _ => 0

omit [DecidableEq Name] in
theorem countsDown_producer {b : ProducerAct} (i : ℕ) (hb : b ≠ .countDown) :
    countsDown (.producer i b : Act Name) = 0 := by
  cases b <;> first | rfl | exact absurd rfl hb

theorem step_counted {cfg : Config Name Queue} {s t : State Name Queue} {a : Act Name}
    (h : step cfg s a = some t) :
    t.shared.counted = s.shared.counted + countsDown a ∧
    s.shared.attempted ≤ t.shared.attempted := by
  obtain ⟨n, rfl, rfl⟩ | ⟨n, rfl, rfl⟩ | ⟨i, b, c, c', w, rfl, -, hm, rfl⟩ |
    ⟨i, b, p, p', w, rfl, -, hm, rfl⟩ := step_cases h
  · exact ⟨rfl, Nat.le_refl _⟩
  · exact ⟨rfl, Nat.le_refl _⟩
  · refine ⟨(caller_books hm).1, ?_⟩
    cases hm <;> simp
  · refine ⟨?_, Nat.le_of_eq (producer_frame hm).2.1.symm⟩
    cases hm <;> rfl

theorem step_frame {cfg : Config Name Queue} {s t : State Name Queue} {a : Act Name}
    (h : step cfg s a = some t) (ha : ∀ i b, a ≠ .caller i b) :
    t.shared.attempted = s.shared.attempted ∧ t.callers = s.callers := by
  obtain ⟨n, rfl, rfl⟩ | ⟨n, rfl, rfl⟩ | ⟨i, b, c, c', w, rfl, -, hm, rfl⟩ |
    ⟨i, b, p, p', w, rfl, -, hm, rfl⟩ := step_cases h
  · exact ⟨rfl, rfl⟩
  · exact ⟨rfl, rfl⟩
  · exact absurd rfl (ha i b)
  · exact ⟨(producer_frame hm).2.1, rfl⟩

/-- Once the exit condition of the publisher is met, no message that is not empty is
left in a queue or in a hand. -/
theorem clean_exit_abandons_nothing (queueOf : Name → Queue) (acts : List (Act Name))
    (s : State Name Queue) (h : run (step ⟨.loop, queueOf⟩) (start Name Queue 1) acts = some s)
    (hret : s.callers = [.returned]) :
    (s.shared.pending.toNat : ℤ) ≡ s.shared.attempted - s.shared.counted [ZMOD 2 ^ 32] ∧
    (s.shared.attempted < 2 ^ 32 → ¬ s.shared.pending > 0 →
      (∀ x ∈ s.shared.mq, x.2 = []) ∧ ∀ p ∈ s.producers, ∀ x ∈ held p, x.2 = []) := by
  have hret' : ∀ c ∈ s.callers, c = .returned := by simp [hret]
  have hc := congrArg UInt32.toNat (returned_counter rfl h hret')
  rw [UInt32.toNat_add, UInt32.toNat_ofNat', UInt32.toNat_ofNat'] at hc
  constructor
  · rw [Int.modEq_iff_dvd]
    omega
  · intro hlt hpos
    have hzero : s.shared.pending.toNat = 0 := by
      rw [gt_iff_lt, UInt32.lt_iff_toNat_lt] at hpos
      exact Nat.eq_zero_of_not_pos hpos
    have hb := counted_bound (run_books h)
    have hmq : real s.shared.mq = 0 := by omega
    have hhand : total (fun p => real (held p)) s.producers = 0 := by omega
    constructor
    · intro x hx
      simpa using List.countP_eq_zero.mp hmq x hx
    · intro p hp x hx
      have hle := le_total (fun p => real (held p)) hp
      have hz : real (held p) = 0 := Nat.le_zero.mp (hhand ▸ hle)
      simpa using List.countP_eq_zero.mp hz x hx

def reconnected : List (Act ℕ) := reconnecting ++ [.producer 1 .countDown, .caller 0 .getFalse]

theorem reconnected_abandons_nothing :
    ∃ s, run (step ⟨.loop, id⟩) (start ℕ ℕ 1) reconnected = some s ∧ s.callers = [.returned] ∧
      s.shared.attempted = 1 ∧ s.shared.counted = 1 ∧
      (s.shared.pending.toNat : ℤ) ≡ s.shared.attempted - s.shared.counted [ZMOD 2 ^ 32] ∧
      (∀ x ∈ s.shared.mq, x.2 = []) ∧ ∀ p ∈ s.producers, ∀ x ∈ held p, x.2 = [] := by
  refine ⟨_, rfl, rfl, rfl, rfl, ?_⟩
  have h := clean_exit_abandons_nothing id reconnected _ rfl rfl
  exact ⟨h.1, h.2 (by decide) (by decide)⟩

/-- The input loop has returned and everything that was enqueued has been forwarded and
counted down. -/
structure Finished (s : State Name Queue) : Prop where
  returned : ∀ c ∈ s.callers, c = .returned
  empty : s.shared.mq = []
  idle : ∀ p ∈ s.producers, p.phase = .waiting ∨ p.phase = .closed
  forwarded : s.shared.enqueued.Perm (s.producers.flatMap delivered)

theorem finished_counter {cfg : Config Name Queue} (hl : cfg.mode = .loop) {callers : ℕ}
    {acts : List (Act Name)} {s : State Name Queue}
    (h : run (step cfg) (start Name Queue callers) acts = some s) (hf : Finished s) :
    s.shared.pending = UInt32.ofNat s.shared.dropped := by
  have hb := run_books h
  have hu : total uncounted s.producers = 0 := by
    refine total_eq_zero uncounted fun p hp => ?_
    rcases hf.idle p hp with hi | hi <;> simp only [uncounted, hi]
  have he : s.shared.enqueued.length = total (fun p => p.done.length) s.producers := by
    rw [hf.forwarded.length_eq, List.length_flatMap]
    simp only [delivered, List.length_map]
    rfl
  have hc := returned_counter hl h hf.returned
  have hfw := hb.forwarded
  have ha : s.shared.attempted = s.shared.dropped + s.shared.counted := by
    have := hb.attempted
    omega
  rw [ha, UInt32.ofNat_add] at hc
  exact (UInt32.add_left_inj _).mp hc

def drops : Act Name → ℕ
  | .caller _ .putFail => 1
  | _ => 0

omit [DecidableEq Queue] in
theorem caller_dropped {cfg : Config Name Queue} {branches : List Name} {w w' : Shared Queue}
    {a : CallerAct Name} {c c' : Caller Name} (h : CallerMoves cfg branches w a c c' w') (i : ℕ) :
    w'.dropped = w.dropped + drops (.caller i a) := by
  cases h <;> rfl

theorem run_dropped {cfg : Config Name Queue} {callers : ℕ} {acts : List (Act Name)}
    {s : State Name Queue} (h : run (step cfg) (start Name Queue callers) acts = some s) :
    s.shared.dropped = (acts.map drops).sum := by
  have hd := run_adds (fun s : State Name Queue => s.shared.dropped) drops ?_ h
  · simpa [start] using hd
  · intro s a t h
    obtain ⟨n, rfl, rfl⟩ | ⟨n, rfl, rfl⟩ | ⟨i, b, c, c', w, rfl, -, hm, rfl⟩ |
      ⟨i, b, p, p', w, rfl, -, hm, rfl⟩ := step_cases h
    · rfl
    · rfl
    · exact caller_dropped hm i
    · exact (producer_frame hm).2.2.1

omit [DecidableEq Name] in
theorem drops_eq_zero (a : Act Name) : drops a = 0 ↔ ∀ i, a ≠ .caller i .putFail := by
  constructor
  · rintro h i rfl
    cases h
  · intro h
    unfold drops
    split
    next i => exact absurd rfl (h i)
    next => rfl

theorem run_dropped_zero {cfg : Config Name Queue} {callers : ℕ} {acts : List (Act Name)}
    {s : State Name Queue} (h : run (step cfg) (start Name Queue callers) acts = some s) :
    s.shared.dropped = 0 ↔ ∀ i, .caller i .putFail ∉ acts := by
  rw [run_dropped h, List.sum_eq_zero_iff_forall_eq_nat]
  simp only [List.mem_map, forall_exists_index, and_imp, forall_apply_eq_imp_iff₂, drops_eq_zero]
  exact ⟨fun hz i hi => hz _ hi i rfl, fun hz a ha i he => hz i (he ▸ ha)⟩

/-- When everything has been forwarded the counter is zero unless a branch refused a
message, and then it is not. -/
theorem finished_pending_zero_iff (queueOf : Name → Queue) (acts : List (Act Name))
    (s : State Name Queue) (h : run (step ⟨.loop, queueOf⟩) (start Name Queue 1) acts = some s)
    (hf : Finished s) :
    ((∀ i, .caller i .putFail ∉ acts) → s.shared.pending = 0) ∧
    (s.shared.attempted < 2 ^ 32 →
      (s.shared.pending = 0 ↔ ∀ i, .caller i .putFail ∉ acts)) := by
  have hp := finished_counter rfl h hf
  have hd := run_dropped_zero h
  have hzero : (∀ i, .caller i .putFail ∉ acts) → s.shared.pending = 0 := by
    intro hno
    rw [hp, hd.mpr hno]
    rfl
  refine ⟨hzero, fun hlt => ⟨fun hz => hd.mp ?_, hzero⟩⟩
  have hle : s.shared.dropped ≤ s.shared.attempted := by
    rw [(run_books h).attempted]
    exact Nat.le_add_left _ _
  have hn := congrArg UInt32.toNat (hp.symm.trans hz)
  rw [UInt32.toNat_ofNat'] at hn
  change _ = 0 at hn
  omega

theorem reconnected_pending_zero :
    ∃ s, run (step ⟨.loop, id⟩) (start ℕ ℕ 1) reconnected = some s ∧ Finished s ∧
      s.shared.pending = 0 := by
  have hf : ∀ s, run (step ⟨.loop, id⟩) (start ℕ ℕ 1) reconnected = some s → Finished s := by
    rintro s ⟨⟩
    exact ⟨by decide, rfl, by decide, by decide⟩
  refine ⟨_, rfl, hf _ rfl, ?_⟩
  apply (finished_pending_zero_iff id reconnected _ rfl (hf _ rfl)).1
  intro i hi
  simp [reconnected, reconnecting] at hi

theorem dropped_put_stays_pending :
    ¬ ∀ (acts : List (Act ℕ)) (s : State ℕ ℕ),
      run (step ⟨.loop, id⟩) (start ℕ ℕ 1) acts = some s → Finished s → s.shared.pending = 0 := by
  intro h
  have hp := h [.addBranch 0, .connect 0, .caller 0 (.getTrue [7] [0]), .caller 0 .putFail,
    .caller 0 .post, .caller 0 .getFalse] _ rfl ⟨by decide, rfl, by decide, by decide⟩
  exact absurd hp (by decide)

end

end Wissbi.PublisherPending
