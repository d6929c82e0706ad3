import Wissbi.PublisherPending
import Wissbi.ReportHands

set_option autoImplicit false

namespace Wissbi.FinalReport
open Buffers MetricReporter PublisherPending ReportHands RunMachine RunSteps Runs ThreadPool Util

section
variable {Queue : Type}

def enqueued (c : Count) : ℕ :=
  match c.reporter with
  | .metricReporter => c.v.toNat
  | .dropMetricReporter => 0

def unreported (ms : List FilterMetric) : ℕ := total (fun m => m.lastProcessed.toNat) ms

def gap (t : Tail) : ℕ := if t.stage = .last then 1 else 0

variable [DecidableEq Queue]

/-- The messages that were counted down are those in the reports, those that a metric
still shows, and those of the producers that have not counted up. -/
structure Tally (queueOf : Str → Queue) (p : PublisherMachine.State Str Queue)
    (tails : List Tail) (ms : List FilterMetric) (obtained : List Count) : Prop where
  reached : Reaches (PublisherMachine.step ⟨.loop, queueOf⟩) (PublisherMachine.start Str Queue 1) p
  names : (ms.map FilterMetric.name).Nodup
  known : ∀ t ∈ tails, t.metric ∈ ms.map FilterMetric.name
  counts : p.shared.attempted < 2 ^ 32 →
    total enqueued obtained + unreported ms + total gap tails = p.shared.counted

section
variable {queueOf : Str → Queue} {p : PublisherMachine.State Str Queue} {tails : List Tail}
  {ms : List FilterMetric} {obtained : List Count}

theorem Tally.books (hs : Tally queueOf p tails ms obtained) : Books p := by
  obtain ⟨acts, h⟩ := hs.reached
  exact run_books h

theorem Tally.bound (hs : Tally queueOf p tails ms obtained) :
    p.shared.counted ≤ p.shared.attempted := by
  have := counted_bound hs.books
  omega

theorem Tally.pub (hs : Tally queueOf p tails ms obtained) {a : PublisherMachine.Act Str}
    {p' : PublisherMachine.State Str Queue}
    (hp : PublisherMachine.step ⟨.loop, queueOf⟩ p a = some p') (ha : countsDown a = 0) :
    Tally queueOf p' tails ms obtained := by
  obtain ⟨h₁, h₂⟩ := step_counted hp
  refine ⟨hs.reached.trans (.single hp), hs.names, hs.known, fun hlt => ?_⟩
  have := hs.counts (by omega)
  omega

theorem Tally.connected (hs : Tally queueOf p tails ms obtained) {n : Str}
    (hn : n ∈ ms.map FilterMetric.name) : Tally queueOf p (tails ++ [⟨n, .idle⟩]) ms obtained := by
  refine ⟨hs.reached, hs.names, ?_, ?_⟩
  · intro t ht
    rcases List.mem_append.mp ht with ht | ht
    · exact hs.known t ht
    · rw [List.mem_singleton.mp ht]
      exact hn
  · simpa [gap] using hs.counts

theorem Tally.counted (hs : Tally queueOf p tails ms obtained) {i : ℕ} {t : Tail}
    {p' : PublisherMachine.State Str Queue}
    (hp : PublisherMachine.step ⟨.loop, queueOf⟩ p (.producer i .countDown) = some p')
    (ht : tails[i]? = some t) (hi : t.stage = .idle) :
    Tally queueOf p' (tails.set i { t with stage := .last }) ms obtained := by
  obtain ⟨h₁, h₂⟩ := step_counted hp
  refine ⟨hs.reached.trans (.single hp), hs.names, ?_, fun hlt => ?_⟩
  · exact forall_set hs.known (hs.known t (List.mem_of_getElem? ht))
  · have h₃ := hs.counts (by omega)
    have h₄ := total_set gap ht { t with stage := .last }
    simp only [gap, hi, countsDown, reduceCtorEq, ↓reduceIte] at h₁ h₃ h₄ ⊢
    omega

theorem Tally.added (hs : Tally queueOf p tails ms obtained) {n : Str}
    (hn : n ∉ ms.map FilterMetric.name) :
    Tally queueOf p tails (FilterMetric.init n :: ms) obtained := by
  refine ⟨hs.reached, List.nodup_cons.mpr ⟨hn, hs.names⟩, ?_, ?_⟩
  · exact fun t ht => List.mem_cons_of_mem _ (hs.known t ht)
  · simpa [unreported, FilterMetric.init] using hs.counts

theorem Tally.updated (hs : Tally queueOf p tails ms obtained) {n : Str} {m : FilterMetric}
    {f : FilterMetric → FilterMetric} {tails' : List Tail} {obtained' : List Count}
    (hm : lookup n ms = some m) (hf : ∀ m, (f m).name = m.name)
    (hk : ∀ t ∈ tails', t.metric ∈ ms.map FilterMetric.name)
    (h : p.shared.attempted < 2 ^ 32 →
      total enqueued obtained' + (f m).lastProcessed.toNat + total gap tails' =
        total enqueued obtained + m.lastProcessed.toNat + total gap tails) :
    Tally queueOf p tails' (update n f ms) obtained' := by
  refine ⟨hs.reached, ?_, ?_, fun hlt => ?_⟩
  · rw [update_names _ hf]
    exact hs.names
  · rw [update_names _ hf]
    exact hk
  · have h₁ := hs.counts hlt
    have h₂ := h hlt
    have h₃ := total_update (fun m => m.lastProcessed.toNat) hs.names hm f
    simp only [unreported] at h₁ ⊢
    omega

theorem Tally.lastAdded (hs : Tally queueOf p tails ms obtained) {i : ℕ} {t : Tail}
    (ht : tails[i]? = some t) (hl : t.stage = .last) :
    Tally queueOf p (tails.set i { t with stage := .total })
      (update t.metric (FilterMetric.add 1) ms) obtained := by
  have hk := hs.known t (List.mem_of_getElem? ht)
  obtain ⟨m, hm⟩ := lookup_some hk
  refine hs.updated hm (fun _ => rfl) (forall_set hs.known hk) fun hlt => ?_
  have h₁ := hs.counts hlt
  have h₂ := hs.bound
  have h₃ := total_set gap ht { t with stage := .total }
  have h₄ := le_total (fun m : FilterMetric => m.lastProcessed.toNat)
    (List.mem_of_find?_eq_some hm)
  -- the counter does not wrap: with this message it shows at most what was counted down
  have h₅ : m.lastProcessed.toNat + 1 < 2 ^ 32 := by
    have := le_total gap (List.mem_of_getElem? ht)
    simp only [gap, hl, ↓reduceIte, unreported] at this h₁ h₄
    omega
  have h₆ : (m.add 1).lastProcessed.toNat = m.lastProcessed.toNat + 1 := by
    simp only [FilterMetric.add, UInt32.toNat_add]
    exact Nat.mod_eq_of_lt h₅
  simp only [gap, hl, reduceCtorEq, ↓reduceIte] at h₃
  omega

theorem Tally.totalAdded (hs : Tally queueOf p tails ms obtained) {i : ℕ} {t : Tail}
    (ht : tails[i]? = some t) (hl : t.stage = .total) :
    Tally queueOf p (tails.set i { t with stage := .idle })
      (update t.metric FilterMetric.addTotal ms) obtained := by
  have hk := hs.known t (List.mem_of_getElem? ht)
  obtain ⟨m, hm⟩ := lookup_some hk
  refine hs.updated hm (fun _ => rfl) (forall_set hs.known hk) fun _ => ?_
  have h := total_set gap ht { t with stage := .idle }
  simp only [gap, hl, reduceCtorEq, ↓reduceIte, FilterMetric.addTotal] at h ⊢
  omega

theorem Tally.drained (hs : Tally queueOf p tails ms obtained) {n : Str} {m : FilterMetric}
    (hm : lookup n ms = some m) (more : List Count)
    (hv : total enqueued more = m.lastProcessed.toNat) :
    Tally queueOf p tails (update n FilterMetric.drain ms) (obtained ++ more) := by
  refine hs.updated hm (fun _ => rfl) hs.known fun _ => ?_
  rw [total_append, hv]
  simp [FilterMetric.drain]

theorem Tally.ignored (hs : Tally queueOf p tails ms obtained) (more : List Count)
    (hv : total enqueued more = 0) : Tally queueOf p tails ms (obtained ++ more) := by
  refine ⟨hs.reached, hs.names, hs.known, ?_⟩
  rw [total_append, hv]
  exact hs.counts

end

theorem step_tally {queueOf : Str → Queue} (s : State Queue) (a : Act) (t : State Queue)
    (hs : Tally queueOf s.pub s.tails (s.lists .metricReporter) s.obtained)
    (h : step queueOf s a = some t) :
    Tally queueOf t.pub t.tails (t.lists .metricReporter) t.obtained := by
  cases step_moves h with
  | branched n p hp => exact hs.pub hp rfl
  | connected n p hp hn => exact (hs.pub hp rfl).connected hn
  | called i b p hp hm hb => exact hs.pub hp rfl
  | posted i p hp hm => exact hs.pub hp rfl
  | produced i b p tail hp ht hi hb => exact hs.pub hp (countsDown_producer i hb)
  | counted i p tail hp ht hi => exact hs.counted hp ht hi
  | metricAdded n hn => exact hs.added hn
  | lastAdded i tail ht hl => exact hs.lastAdded ht hl
  | totalAdded i tail ht hl => exact hs.totalAdded ht hl
  | skipped w r n rest m hc hm hz =>
    cases r with
    | metricReporter => simpa using hs.drained hm [] (by simp [hz])
    | dropMetricReporter => simpa using hs
  | exchanged w r n rest m hc hm hz =>
    cases r with
    | metricReporter => simpa using hs.drained hm [⟨.metricReporter, n, _⟩] rfl
    | dropMetricReporter => simpa using hs.ignored [⟨.dropMetricReporter, n, m.lastProcessed⟩] rfl
  | sent w r n v rest hc => simpa using hs
  | filtered w r n v rest hc => simpa using hs
  | _ => exact hs

def Report.rest : Report → List Str
  | .visiting rest => rest
  | .sending _ _ rest => rest
  | .filtering _ _ rest => rest

def Main.rest : Main → List Str
  | .reporting _ c => Report.rest c
  | _ => []

def Main.looped : Main → Bool
  | .filtering _ => false
  | _ => true

def Main.leftAtZero : Main → Bool
  | .reporting z _ => z
  | .lastWait z _ => z
  | .returned z => z
  | _ => false

def Main.reportedAtZero : Main → Bool
  | .lastWait z _ => z
  | .returned z => z
  | _ => false

/-- When the last `Report` comes to a metric, no producer of it is between its
`--pending_counter` and its `++last_processed`. -/
def Settled (s : State Queue) : Act → Prop
  | .exchange .main _ =>
    ∀ n ∈ (Main.rest s.main).head?, ∀ t ∈ s.tails, t.metric = n → t.stage ≠ .last
  | _ => True

instance (s : State Queue) (a : Act) : Decidable (Settled s a) :=
  match a with
  | .exchange .main _ => inferInstanceAs (Decidable (∀ n ∈ (Main.rest s.main).head?, _))
  | .pub _ | .addMetric _ | .lastProcessed _ | .totalProcessed _ | .addDrops | .wake
  | .exchange .background _ | .send _ _ | .filter _ _ | .finish _ | .metricCountDown
  | .loopEnded | .look | .sleep | .timeout => inferInstanceAs (Decidable True)

/-- The metrics that were visited show nothing, and nobody will change that. -/
def Drained (rest : List Str) (tails : List Tail) (ms : List FilterMetric) : Prop :=
  ∀ m ∈ ms, m.name ∉ rest →
    m.lastProcessed = 0 ∧ ∀ t ∈ tails, t.metric = m.name → t.stage ≠ .last

section
variable {rest : List Str} {tails : List Tail} {ms : List FilterMetric}

theorem Drained.start (tails : List Tail) (ms : List FilterMetric) :
    Drained (ms.map FilterMetric.name) tails ms :=
  fun _ hm hn => absurd (List.mem_map_of_mem hm) hn

theorem Drained.connected (h : Drained rest tails ms) (n : Str) :
    Drained rest (tails ++ [⟨n, .idle⟩]) ms := by
  intro m hm hn
  obtain ⟨hz, ht⟩ := h m hm hn
  refine ⟨hz, fun t hmem he => ?_⟩
  rcases List.mem_append.mp hmem with hmem | hmem
  · exact ht t hmem he
  · rw [List.mem_singleton.mp hmem]
    simp

theorem Drained.added (h : Drained rest tails ms)
    (known : ∀ t ∈ tails, t.metric ∈ ms.map FilterMetric.name) {n : Str}
    (hn : n ∉ ms.map FilterMetric.name) : Drained rest tails (FilterMetric.init n :: ms) := by
  intro m hm hr
  rcases List.mem_cons.mp hm with rfl | hm
  · refine ⟨rfl, fun t ht (he : t.metric = n) => ?_⟩
    exact absurd (he ▸ known t ht) hn
  · exact h m hm hr

/-- The post-filter of a producer goes on: only a metric that was not yet visited can be
counted up. -/
theorem Drained.advanced (h : Drained rest tails ms) {i : ℕ} {t u : Tail}
    {f : FilterMetric → FilterMetric} (ht : tails[i]? = some t) (hf : ∀ m, (f m).name = m.name)
    (hu : u.stage ≠ .last)
    (hkeep : t.stage ≠ .last → ∀ m, (f m).lastProcessed = m.lastProcessed) :
    Drained rest (tails.set i u) (update t.metric f ms) := by
  have htails (m : FilterMetric) (hm : m ∈ ms) (hn : m.name ∉ rest) :
      ∀ x ∈ tails.set i u, x.metric = m.name → x.stage ≠ .last :=
    forall_set (h m hm hn).2 fun _ => hu
  refine forall_update (fun m hm _ hn => ⟨(h m hm hn).1, htails m hm hn⟩) fun m hm he hn => ?_
  rw [hf] at hn ⊢
  have hstage : t.stage ≠ .last := (h m hm hn).2 t (List.mem_of_getElem? ht) he.symm
  exact ⟨(hkeep hstage m).trans (h m hm hn).1, htails m hm hn⟩

theorem Drained.drained (h : Drained rest tails ms) (n : Str) :
    Drained rest tails (update n FilterMetric.drain ms) :=
  forall_update (fun m hm _ => h m hm) fun m hm _ hn => ⟨rfl, (h m hm hn).2⟩

theorem Drained.visited {n : Str} (h : Drained (n :: rest) tails ms)
    (hn : ∀ t ∈ tails, t.metric = n → t.stage ≠ .last) :
    Drained rest tails (update n FilterMetric.drain ms) := by
  refine forall_update (fun m hm he hr => h m hm ?_) fun m hm he hr => ⟨rfl, ?_⟩
  · simp [he, hr]
  · exact fun t ht hx => hn t ht (hx.trans he)

end

/-- From the end of the input loop on nothing is put on a branch; once the counter was
found at zero nothing is left to be counted down. -/
structure Closing (main : Main) (p : PublisherMachine.State Str Queue) (tails : List Tail)
    (ms : List FilterMetric) : Prop where
  looped : Main.looped main = true → p.callers = [.returned]
  counted : Main.leftAtZero main = true → p.shared.attempted < 2 ^ 32 →
    p.shared.counted = p.shared.attempted
  drained : Main.leftAtZero main = true → p.shared.attempted < 2 ^ 32 →
    Drained (Main.rest main) tails ms

section
variable {queueOf : Str → Queue} {main : Main} {p : PublisherMachine.State Str Queue}
  {tails : List Tail} {ms : List FilterMetric}

omit [DecidableEq Queue] in
theorem Closing.filtering (owed : Option ℕ) : Closing (.filtering owed) p tails ms :=
  ⟨Bool.noConfusion, Bool.noConfusion, Bool.noConfusion⟩

theorem Closing.pub (hs : Closing main p tails ms) {a : PublisherMachine.Act Str}
    {p' : PublisherMachine.State Str Queue}
    (hp : PublisherMachine.step ⟨.loop, queueOf⟩ p a = some p') (ha : ∀ i b, a ≠ .caller i b)
    (hc : countsDown a = 0) : Closing main p' tails ms := by
  obtain ⟨h₁, h₂⟩ := step_frame hp ha
  have h₃ := (step_counted hp).1
  rw [hc, Nat.add_zero] at h₃
  refine ⟨?_, ?_, ?_⟩
  · rw [h₂]
    exact hs.looped
  · rw [h₁, h₃]
    exact hs.counted
  · rw [h₁]
    exact hs.drained

omit [DecidableEq Queue] in
theorem Closing.moved (hs : Closing main p tails ms) {main' : Main} {tails' : List Tail}
    {ms' : List FilterMetric} (hl : Main.looped main' = true → Main.looped main = true)
    (hz : Main.leftAtZero main' = true → Main.leftAtZero main = true)
    (hd : Drained (Main.rest main) tails ms → Drained (Main.rest main') tails' ms') :
    Closing main' p tails' ms' :=
  ⟨fun h => hs.looped (hl h), fun h => hs.counted (hz h), fun h hlt => hd (hs.drained (hz h) hlt)⟩

end

theorem counted_of_zero {queueOf : Str → Queue} {p : PublisherMachine.State Str Queue}
    (reached : Reaches (PublisherMachine.step ⟨.loop, queueOf⟩)
      (PublisherMachine.start Str Queue 1) p) (hc : p.callers = [.returned])
    (hz : ¬ p.shared.pending > 0) (hlt : p.shared.attempted < 2 ^ 32) :
    p.shared.counted = p.shared.attempted := by
  obtain ⟨acts, hrun⟩ := reached
  have hsum := congrArg UInt32.toNat (returned_counter rfl hrun (by simp [hc]))
  rw [UInt32.toNat_add, UInt32.toNat_ofNat', UInt32.toNat_ofNat'] at hsum
  have hzero : p.shared.pending.toNat = 0 := by
    rw [gt_iff_lt, UInt32.lt_iff_toNat_lt] at hz
    exact Nat.eq_zero_of_not_pos hz
  have hb := counted_bound (run_books hrun)
  omega

omit [DecidableEq Queue] in
theorem closing_exchange {s : State Queue} {w : Who} {r : Reporter} {n : Str} {rest : List Str}
    (c : Report) (hs : Closing s.main s.pub s.tails (s.lists .metricReporter))
    (settled : Settled s (.exchange w r)) (hc : s.call w = some (r, .visiting (n :: rest)))
    (hrest : Report.rest c = rest) :
    Closing ((s.setList r (update n FilterMetric.drain (s.lists r))).setCall c w).main s.pub s.tails
      ((s.setList r (update n FilterMetric.drain (s.lists r))).lists .metricReporter) := by
  cases w with
  | background =>
    cases r with
    | metricReporter => exact hs.moved id id fun hd => hd.drained n
    | dropMetricReporter => exact hs
  | main =>
    obtain ⟨rfl, z, hm⟩ := call_main hc
    rw [hm] at hs
    simp only [Settled, hm, Main.rest, Report.rest, List.head?_cons, Option.mem_some_iff,
      forall_eq'] at settled
    simp only [State.setCall, State.setList, hm, Main.setCall, Function.update_self]
    refine hs.moved id id fun hd => ?_
    rw [Main.rest, hrest]
    exact Drained.visited hd settled

omit [DecidableEq Queue] in
theorem closing_setCall {s : State Queue} {w : Who} {r : Reporter} {c : Report} (c' : Report)
    (hs : Closing s.main s.pub s.tails (s.lists .metricReporter)) (hc : s.call w = some (r, c))
    (hrest : Report.rest c' = Report.rest c) :
    Closing (s.setCall c' w).main s.pub s.tails (s.lists .metricReporter) := by
  cases w with
  | background => exact hs
  | main =>
    obtain ⟨-, z, hm⟩ := call_main hc
    rw [hm] at hs
    simp only [State.setCall, hm, Main.setCall]
    refine hs.moved id id fun hd => ?_
    rw [Main.rest, hrest]
    exact hd

theorem step_closing {queueOf : Str → Queue} (s : State Queue) (a : Act) (t : State Queue)
    (tally : Tally queueOf s.pub s.tails (s.lists .metricReporter) s.obtained)
    (hs : Closing s.main s.pub s.tails (s.lists .metricReporter)) (settled : Settled s a)
    (h : step queueOf s a = some t) :
    Closing t.main t.pub t.tails (t.lists .metricReporter) := by
  cases step_moves h with
  | branched n p hp => exact hs.pub hp (by simp) rfl
  | connected n p hp hn =>
    exact (hs.pub hp (by simp) rfl).moved id id fun hd => hd.connected n
  | called i b p hp hm hb => simpa only [hm] using Closing.filtering none
  | posted i p hp hm => exact Closing.filtering _
  | produced i b p tail hp ht hi hb => exact hs.pub hp (by simp) (countsDown_producer i hb)
  | counted i p tail hp ht hi =>
    -- after a counter of zero there is no message left to count down
    obtain ⟨h₁, h₂⟩ := step_frame hp (by simp)
    have h₃ := (step_counted hp).1
    have hno : Main.leftAtZero s.main = true → ¬ p.shared.attempted < 2 ^ 32 := by
      intro hz hlt
      have h₄ := (tally.counted hp ht hi).bound
      have h₅ := hs.counted hz (h₁ ▸ hlt)
      simp only [countsDown] at h₃
      omega
    refine ⟨?_, fun hz hlt => absurd hlt (hno hz), fun hz hlt => absurd hlt (hno hz)⟩
    simp only [h₂]
    exact hs.looped
  | metricAdded n hn => exact hs.moved id id fun hd => hd.added tally.known hn
  | lastAdded i tail ht hl =>
    exact hs.moved id id fun hd =>
      hd.advanced ht (fun _ => rfl) (by simp) fun hne => absurd hl hne
  | totalAdded i tail ht hl =>
    exact hs.moved id id fun hd => hd.advanced ht (fun _ => rfl) (by simp) fun _ _ => rfl
  | skipped w r n rest m hc hm hz =>
    simpa using closing_exchange (.visiting rest) hs settled hc rfl
  | exchanged w r n rest m hc hm hz =>
    simpa using closing_exchange (.sending n m.lastProcessed rest) hs settled hc rfl
  | sent w r n v rest hc => simpa using closing_setCall (.filtering n v rest) hs hc rfl
  | filtered w r n v rest hc => simpa using closing_setCall (.visiting rest) hs hc rfl
  | dropsAdded k m ms hm hl => exact Closing.filtering _
  | loopEnded hm hc => exact ⟨fun _ => hc, Bool.noConfusion, Bool.noConfusion⟩
  | reported _ hm | found hm | rested hm | waited _ _ _ _ _ hm | returned _ _ _ _ hm =>
    rw [hm] at hs
    exact hs.moved id id id
  | left hm hz =>
    rw [hm] at hs
    refine ⟨fun _ => hs.looped rfl, fun _ => ?_, fun _ _ => Drained.start _ _⟩
    exact counted_of_zero tally.reached (hs.looped rfl) hz
  | expired hm =>
    rw [hm] at hs
    exact ⟨fun _ => hs.looped rfl, Bool.noConfusion, Bool.noConfusion⟩
  | _ => exact hs

theorem run_closing {queueOf : Str → Queue} {dest : Str} {msgBuf : MsgBuf} {acts : List Act}
    {s : State Queue} (h : run (step queueOf) (start Queue dest msgBuf) acts = some s)
    (settled : Along (step queueOf) Settled (start Queue dest msgBuf) acts) :
    Tally queueOf s.pub s.tails (s.lists .metricReporter) s.obtained ∧
    Closing s.main s.pub s.tails (s.lists .metricReporter) := by
  refine run_invariant_along Settled (fun s =>
    Tally queueOf s.pub s.tails (s.lists .metricReporter) s.obtained ∧
    Closing s.main s.pub s.tails (s.lists .metricReporter)) ?_ h settled ?_
  · intro s a t hs ha h
    exact ⟨step_tally s a t hs.1 h, step_closing s a t hs.1 hs.2 ha h⟩
  · refine ⟨⟨.refl _, List.nodup_nil, ?_, fun _ => rfl⟩, Closing.filtering none⟩
    intro t ht
    cases ht

omit [DecidableEq Queue] in
theorem kept_outside {s : State Queue} (hb : s.background = .sleeping)
    (hm : Main.reportedAtZero s.main = true) (f : Count → ℕ) : kept f s = 0 := by
  have hmain : s.call .main = none := by
    unfold State.call
    cases h : s.main <;> simp_all [Main.reportedAtZero]
  simp only [kept, hand, hmain]
  simp [State.call, hb, Hand.of, Hand.kept]

/-- After a counter of zero, the last report completes the count of what the producers
have forwarded, in every run in which no producer is caught between its two counts. -/
theorem final_report_complete (queueOf : Str → Queue) (dest : Str) (msgBuf : MsgBuf)
    (acts : List Act) (s : State Queue)
    (h : run (step queueOf) (start Queue dest msgBuf) acts = some s)
    (settled : Along (step queueOf) Settled (start Queue dest msgBuf) acts)
    (hlt : s.pub.shared.attempted < 2 ^ 32) (hm : Main.reportedAtZero s.main = true)
    (hb : s.background = .sleeping) :
    total enqueued s.handed = total (fun p => p.done.length) s.pub.producers := by
  obtain ⟨tally, closing⟩ := run_closing h settled
  have hleft : Main.leftAtZero s.main = true ∧ Main.rest s.main = [] := by
    cases hmain : s.main <;> simp_all [Main.reportedAtZero, Main.leftAtZero, Main.rest]
  have hd := closing.drained hleft.1 hlt
  rw [hleft.2] at hd
  have hshown : unreported (s.lists .metricReporter) = 0 :=
    total_eq_zero _ fun m hm => by rw [(hd m hm List.not_mem_nil).1]; rfl
  have hgap : total gap s.tails = 0 := by
    refine total_eq_zero _ fun t ht => if_neg ?_
    obtain ⟨m, hm, he⟩ := List.mem_map.mp (tally.known t ht)
    exact (hd m hm List.not_mem_nil).2 t ht he.symm
  have hhanded := run_handed enqueued h rfl
  rw [kept_outside hb hm] at hhanded
  have h₁ := tally.counts hlt
  have h₂ := closing.counted hleft.1 hlt
  have h₃ := counted_bound tally.books
  have h₄ := tally.books.forwarded
  omega

end

def oneForwarded : List Act :=
  [.pub (.addBranch foo), .addMetric foo, .pub (.connect foo),
    .pub (.caller 0 (.getTrue [7] [foo])), .pub (.caller 0 .putOk), .pub (.caller 0 .post),
    .addDrops, .pub (.producer 0 .msgrcv), .pub (.producer 0 (.write 4)),
    .pub (.producer 0 (.write 1)), .pub (.caller 0 .getFalse), .loopEnded,
    .pub (.producer 0 .countDown)]

def countedUp : List Act :=
  oneForwarded ++ [.look, .lastProcessed 0, .exchange .main .metricReporter,
    .send .main .metricReporter, .filter .main .metricReporter, .totalProcessed 0, .finish .main]

/-- The main thread is through before the producer counts its metric up. -/
def tooEarly : List Act :=
  oneForwarded ++ [.look, .exchange .main .metricReporter, .finish .main, .lastProcessed 0,
    .totalProcessed 0]

theorem counted_up_complete :
    ∃ s, run (step id) (start Str foo noMsg) countedUp = some s ∧
      s.filter.delivered = [ascii "foo,enqueue,1"] ∧
      total enqueued s.handed = total (fun p => p.done.length) s.pub.producers := by
  have hsome : ((run (step id) (start Str foo noMsg) countedUp).map fun s =>
      (s.filter.delivered, s.pub.shared.attempted, Main.reportedAtZero s.main, s.background)) =
        some ([ascii "foo,enqueue,1"], 1, true, .sleeping) := by decide +kernel
  obtain ⟨s, hs, he⟩ := Option.map_eq_some_iff.mp hsome
  simp only [Prod.mk.injEq] at he
  obtain ⟨hd, ha, hm, hb⟩ := he
  refine ⟨s, hs, hd, ?_⟩
  exact final_report_complete id foo noMsg countedUp s hs (by decide +kernel) (by omega) hm hb

theorem early_report_incomplete :
    ¬ ∀ acts s, run (step id) (start Str foo noMsg) acts = some s →
      (∀ i, .pub (.caller i .putFail) ∉ acts) → .wake ∉ acts →
      Main.reportedAtZero s.main = true →
      total enqueued s.handed = total (fun p => p.done.length) s.pub.producers := by
  intro h
  have hsome : ((run (step id) (start Str foo noMsg) tooEarly).map fun s =>
      (Main.reportedAtZero s.main, total enqueued s.handed,
        total (fun p => p.done.length) s.pub.producers)) = some (true, 0, 1) := by decide +kernel
  obtain ⟨s, hs, he⟩ := Option.map_eq_some_iff.mp hsome
  simp only [Prod.mk.injEq] at he
  have hc := h tooEarly s hs (by simp [tooEarly, oneForwarded]) (by decide) he.1
  omega

end Wissbi.FinalReport
