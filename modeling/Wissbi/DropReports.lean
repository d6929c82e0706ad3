import Wissbi.PublisherPending
import Wissbi.ReportHands

set_option autoImplicit false

namespace Wissbi.DropReports
open Buffers MetricReporter PublisherPending ReportHands RunMachine RunSteps Runs ThreadPool Util

def dropped (c : Count) : ℕ :=
  match c.reporter with
  | .metricReporter => 0
  | .dropMetricReporter => c.v.toNat

/-- Where the refused puts of a run are: in the message that is being put, owed by its
post-filter, shown by the metric, in the background thread's hand, or handed over. -/
structure Flow where
  inTee : ℕ
  owed : ℕ
  shown : ℕ
  kept : ℕ
  handed : ℕ
  failed : ℕ
  deriving DecidableEq, Repr

def refuse : Act := .pub (.caller 0 .putFail)

def take : Act := .exchange .background .dropMetricReporter

def give : Act := .send .background .dropMetricReporter

inductive Flow.Moves (f : Flow) : Act → Flow → Prop where
  | quiet (a : Act) (ha : a ≠ refuse ∧ a ≠ .addDrops ∧ a ≠ take ∧ a ≠ give) : Moves f a f
  | posted (ho : f.owed = 0) :
      Moves f (.pub (.caller 0 .post))
        { f with inTee := 0, owed := f.inTee, failed := f.failed + f.inTee }
  | refused : Moves f refuse { f with inTee := f.inTee + 1 }
  | added (hi : f.inTee = 0) :
      Moves f .addDrops { f with owed := 0, shown := (f.shown + f.owed) % 2 ^ 32 }
  | taken (hk : f.kept = 0) : Moves f take { f with shown := 0, kept := f.shown }
  | given : Moves f give { f with kept := 0, handed := f.handed + f.kept }

section
variable {Queue : Type}

def owed (s : State Queue) : ℕ :=
  match s.main with
  | .filtering (some k) => k
  | _ => 0

def flow (s : State Queue) : Flow where
  inTee := lastFailedCount s.pub 0
  owed := owed s
  shown := total (fun m => m.lastProcessed.toNat) (s.lists .dropMetricReporter)
  kept := kept dropped s
  handed := total dropped s.handed
  failed := s.failed

/-- One caller and one drop metric; outside `Tee::Put` nothing is in the `Tee`. -/
structure Shape (s : State Queue) : Prop where
  callers : ∃ c, s.pub.callers = [c]
  drops : ∃ m, s.lists .dropMetricReporter = [m]
  resting : s.main ≠ .filtering none → lastFailedCount s.pub 0 = 0

def failedOf : PublisherMachine.Caller Str → ℕ
  | .teeing _ _ _ _ failed => failed
  | _ => 0

theorem lastFailedCount_single {p : PublisherMachine.State Str Queue}
    {c : PublisherMachine.Caller Str} (h : p.callers = [c]) : lastFailedCount p 0 = failedOf c := by
  unfold lastFailedCount failedOf
  rw [h]
  cases c <;> rfl

def failedAfter (k : ℕ) : PublisherMachine.CallerAct Str → ℕ
  | .putFail => k + 1
  | .post => 0
  | _ => k

theorem caller_failed {queueOf : Str → Queue} {branches : List Str}
    {w w' : PublisherMachine.Shared Queue} {a : PublisherMachine.CallerAct Str}
    {c c' : PublisherMachine.Caller Str}
    (h : PublisherSteps.CallerMoves ⟨.loop, queueOf⟩ branches w a c c' w') :
    failedOf c' = failedAfter (failedOf c) a := by
  cases h <;> rfl

variable [DecidableEq Queue]

theorem called_failed {queueOf : Str → Queue} {p p' : PublisherMachine.State Str Queue} {i : ℕ}
    {a : PublisherMachine.CallerAct Str} (hs : ∃ c, p.callers = [c])
    (h : PublisherMachine.step ⟨.loop, queueOf⟩ p (.caller i a) = some p') :
    i = 0 ∧ (∃ c, p'.callers = [c]) ∧
      lastFailedCount p' 0 = failedAfter (lastFailedCount p 0) a := by
  obtain ⟨c, hc⟩ := hs
  obtain ⟨n, ha, -⟩ | ⟨n, ha, -⟩ | ⟨j, b, c₁, c', w, ha, hj, hm, rfl⟩ |
    ⟨j, b, q, q', w, ha, -⟩ := PublisherSteps.step_cases h
  · cases ha
  · cases ha
  · cases ha
    have hi : i = 0 := by
      have := (List.getElem?_eq_some_iff.mp hj).1
      rw [hc, List.length_singleton] at this
      omega
    subst hi
    rw [hc] at hj
    cases hj
    have hset : p.callers.set 0 c' = [c'] := by rw [hc]; rfl
    refine ⟨rfl, ⟨c', hset⟩, ?_⟩
    rw [lastFailedCount_single hset, lastFailedCount_single hc]
    exact caller_failed hm
  · cases ha

theorem lastFailedCount_frame {queueOf : Str → Queue} {p p' : PublisherMachine.State Str Queue}
    {a : PublisherMachine.Act Str} (h : PublisherMachine.step ⟨.loop, queueOf⟩ p a = some p')
    (ha : ∀ i b, a ≠ .caller i b) : lastFailedCount p' 0 = lastFailedCount p 0 := by
  unfold lastFailedCount
  rw [(step_frame h ha).2]

theorem Shape.pub {queueOf : Str → Queue} {s : State Queue} (hs : Shape s)
    {p : PublisherMachine.State Str Queue} {a : PublisherMachine.Act Str}
    (h : PublisherMachine.step ⟨.loop, queueOf⟩ s.pub a = some p) (ha : ∀ i b, a ≠ .caller i b)
    (tails : List Tail) : Shape { s with pub := p, tails } := by
  refine ⟨?_, hs.drops, ?_⟩
  · rw [(step_frame h ha).2]
    exact hs.callers
  · rw [lastFailedCount_frame h ha]
    exact hs.resting

theorem update_single {n : Str} {f : FilterMetric → FilterMetric} {ms : List FilterMetric}
    (h : ∃ m, ms = [m]) : ∃ m, update n f ms = [m] := by
  obtain ⟨m, rfl⟩ := h
  exact ⟨_, rfl⟩

omit [DecidableEq Queue] in
theorem setCall_main {s : State Queue} {c : Report} {w : Who}
    (h : (s.setCall c w).main ≠ .filtering none) : s.main ≠ .filtering none := by
  intro hm
  cases w <;> simp [State.setCall, Main.setCall, hm] at h

theorem step_shape {queueOf : Str → Queue} (s : State Queue) (a : Act) (t : State Queue)
    (hs : Shape s) (h : step queueOf s a = some t) : Shape t := by
  cases step_moves h with
  | branched n p hp => exact hs.pub hp (by simp) s.tails
  | connected n p hp hn => exact hs.pub hp (by simp) _
  | called i b p hp hm hb =>
    exact ⟨(called_failed hs.callers hp).2.1, hs.drops, fun hne => absurd hm hne⟩
  | posted i p hp hm =>
    obtain ⟨-, hc, hf⟩ := called_failed hs.callers hp
    exact ⟨hc, hs.drops, fun _ => hf⟩
  | produced i b p tail hp ht hi hb => exact hs.pub hp (by simp) s.tails
  | counted i p tail hp ht hi => exact hs.pub hp (by simp) _
  | dropsAdded k m ms hm hl =>
    obtain ⟨m', hd⟩ := hs.drops
    rw [hl] at hd
    cases hd
    exact ⟨hs.callers, ⟨_, setList_self s .dropMetricReporter [m.add (UInt32.ofNat k)]⟩,
      fun hne => absurd rfl hne⟩
  | skipped w r n | exchanged w r n =>
    refine ⟨by simpa using hs.callers, ?_, fun hne => ?_⟩
    · cases r with
      | metricReporter => simpa using hs.drops
      | dropMetricReporter => simpa using update_single hs.drops
    · simpa using hs.resting (setCall_main (s := s.setList r _) hne)
  | sent | filtered =>
    refine ⟨by simpa using hs.callers, by simpa using hs.drops, fun hne => ?_⟩
    simpa using hs.resting (setCall_main hne)
  | loopEnded hm hc =>
    exact ⟨hs.callers, hs.drops, fun _ => lastFailedCount_single hc⟩
  | reported _ hm | found hm | left hm | rested hm | expired hm | waited _ _ _ _ _ hm
  | returned _ _ _ _ hm =>
    exact ⟨hs.callers, hs.drops, fun _ => hs.resting (by simp [hm])⟩
  | _ => exact ⟨hs.callers, hs.drops, hs.resting⟩

omit [DecidableEq Queue] in
theorem moves_flow {s t : State Queue} {a : Act} {f : Flow} (hm : Flow.Moves (flow s) a f)
    (hi : lastFailedCount t.pub 0 = f.inTee) (ho : owed t = f.owed)
    (hs : total (fun m => m.lastProcessed.toNat) (t.lists .dropMetricReporter) = f.shown)
    (hk : kept dropped t = f.kept) (hh : total dropped t.handed = f.handed)
    (hf : t.failed = f.failed) : Flow.Moves (flow s) a (flow t) := by
  have he : flow t = f := by
    cases f
    simp only [flow, Flow.mk.injEq]
    exact ⟨hi, ho, hs, hk, hh, hf⟩
  rw [he]
  exact hm

theorem quiet_flow {queueOf : Str → Queue} {s t : State Queue} {a : Act}
    (h : step queueOf s a = some t) (hr : reports a = false) (ha : a ≠ refuse ∧ a ≠ .addDrops)
    (hi : lastFailedCount t.pub 0 = lastFailedCount s.pub 0) (ho : owed t = owed s)
    (hs : t.lists .dropMetricReporter = s.lists .dropMetricReporter) (hf : t.failed = s.failed) :
    Flow.Moves (flow s) a (flow t) := by
  obtain ⟨hk, hh⟩ := kept_quiet dropped h hr
  refine moves_flow (.quiet a ⟨ha.1, ha.2, ?_, ?_⟩) hi ho (by rw [hs]; rfl) hk (by rw [hh]; rfl) hf
  · rintro rfl
    cases hr
  · rintro rfl
    cases hr

omit [DecidableEq Queue] in
theorem owed_setCall (s : State Queue) (c : Report) (w : Who) :
    owed (s.setCall c w) = owed s := by
  unfold owed
  cases w with
  | background => rfl
  | main =>
    simp only [State.setCall]
    cases s.main <;> rfl

omit [DecidableEq Queue] in
theorem kept_background (s : State Queue) :
    kept dropped s = Hand.kept dropped (hand s .background) := by
  have hmain : Hand.kept dropped (hand s .main) = 0 := by
    cases hc : s.call .main with
    | none => simp [hand, hc, Hand.of, Hand.kept]
    | some x =>
      obtain ⟨r, c⟩ := x
      obtain ⟨rfl, -⟩ := call_main hc
      rw [hand_call hc]
      cases c <;> rfl
  rw [kept, hmain, Nat.add_zero]

theorem drained_single {n : Str} {ms : List FilterMetric} {m : FilterMetric}
    (h : ∃ m, ms = [m]) (hm : lookup n ms = some m) :
    total (fun m => m.lastProcessed.toNat) ms = m.lastProcessed.toNat ∧
    total (fun m => m.lastProcessed.toNat) (update n FilterMetric.drain ms) = 0 := by
  obtain ⟨m', rfl⟩ := h
  obtain ⟨hn, hm⟩ := List.find?_cons_eq_some.mp hm |>.resolve_right (by simp)
  subst hm
  simp only [decide_eq_true_eq] at hn
  simp [update, hn, FilterMetric.drain]

omit [DecidableEq Queue] in
theorem exchange_flow {s t : State Queue} {w : Who} {r : Reporter} {n : Str} {rest : List Str}
    {m : FilterMetric} {c : Report} (hs : Shape s) (hc : s.call w = some (r, .visiting (n :: rest)))
    (hm : lookup n (s.lists r) = some m)
    (hcall : Hand.kept dropped (Hand.of (some (r, c))) = dropped ⟨r, n, m.lastProcessed⟩)
    (hpub : t.pub = s.pub) (howed : owed t = owed s)
    (hlists : t.lists = (s.setList r (update n FilterMetric.drain (s.lists r))).lists)
    (hkept : kept dropped t =
      kept dropped ((s.setList r (update n FilterMetric.drain (s.lists r))).setCall c w))
    (hhanded : t.handed = s.handed) (hfailed : t.failed = s.failed) :
    Flow.Moves (flow s) (.exchange w r) (flow t) := by
  have hc' : (s.setList r (update n FilterMetric.drain (s.lists r))).call w =
      some (r, .visiting (n :: rest)) := hc
  have hk := kept_setCall dropped hc' c
  rw [← hkept, hcall] at hk
  change kept dropped t + 0 = kept dropped s + _ at hk
  cases r with
  | metricReporter =>
    refine moves_flow (.quiet _ (by simp [refuse, take, give])) (by rw [hpub]; rfl) howed
      (by rw [hlists]; rfl) hk (by rw [hhanded]; rfl) hfailed
  | dropMetricReporter =>
    cases w with
    | main => exact absurd (call_main hc).1 (by simp)
    | background =>
      obtain ⟨h₁, h₂⟩ := drained_single hs.drops hm
      have hz : kept dropped s = 0 := by
        rw [kept_background, hand_call hc]
        rfl
      refine moves_flow (.taken hz) (by rw [hpub]; rfl) howed (by rw [hlists]; exact h₂) ?_
        (by rw [hhanded]; rfl) hfailed
      rw [hz, Nat.add_zero, Nat.zero_add] at hk
      rw [hk]
      exact h₁.symm

theorem flow_moves {queueOf : Str → Queue} {s t : State Queue} {a : Act} (hs : Shape s)
    (h : step queueOf s a = some t) : Flow.Moves (flow s) a (flow t) := by
  cases step_moves h with
  | branched _ _ hp | connected _ _ hp | produced _ _ _ _ hp | counted _ _ _ hp =>
    exact quiet_flow h rfl (by simp [refuse]) (lastFailedCount_frame hp (by simp)) rfl rfl rfl
  | called i b p hp hm hb =>
    obtain ⟨rfl, -, hf⟩ := called_failed hs.callers hp
    by_cases hfail : b = .putFail
    · subst hfail
      obtain ⟨hk, hh⟩ := kept_quiet dropped h rfl
      exact moves_flow .refused hf rfl rfl hk (by rw [hh]; rfl) rfl
    · refine quiet_flow h rfl (by simp [refuse, hfail]) ?_ rfl rfl rfl
      rw [hf]
      cases b <;> first | rfl | contradiction
  | posted i p hp hm =>
    obtain ⟨rfl, -, hf⟩ := called_failed hs.callers hp
    obtain ⟨hk, hh⟩ := kept_quiet dropped h rfl
    refine moves_flow (.posted ?_) hf rfl rfl hk (by rw [hh]; rfl) rfl
    simp [flow, owed, hm]
  | dropsAdded k m ms hm hl =>
    obtain ⟨hk, hh⟩ := kept_quiet dropped h rfl
    obtain ⟨m', hd⟩ := hs.drops
    rw [hl] at hd
    cases hd
    refine moves_flow (.added (hs.resting (by simp [hm]))) rfl rfl ?_ hk (by rw [hh]; rfl) rfl
    simp [flow, owed, hm, hl, FilterMetric.add]
  | skipped w r n rest m hc hm hz =>
    refine exchange_flow hs hc hm (c := .visiting rest) ?_ (by simp)
      (owed_setCall (s.setList r _) _ w) (by simp) rfl (by simp) (by simp)
    cases r <;> simp [dropped, hz, Hand.of, Hand.kept]
  | exchanged w r n rest m hc hm hz =>
    exact exchange_flow hs hc hm (c := .sending n m.lastProcessed rest) rfl (by simp)
      (owed_setCall (s.setList r _) _ w) (by simp) rfl (by simp) (by simp)
  | sent w r n v rest hc =>
    have hk := kept_setCall dropped hc (.filtering n v rest)
    cases r with
    | metricReporter =>
      exact moves_flow (.quiet _ (by simp [refuse, take, give])) (by simp [flow])
        (owed_setCall s _ w) (by simp [flow]) hk (by simp [flow, dropped]) (by simp [flow])
    | dropMetricReporter =>
      cases w with
      | main => exact absurd (call_main hc).1 (by simp)
      | background =>
        have hv : kept dropped s = v.toNat := by
          rw [kept_background, hand_call hc]
          rfl
        refine moves_flow .given (by simp [flow]) (owed_setCall s _ _) (by simp [flow]) ?_ ?_
          (by simp [flow])
        · change _ + v.toNat = _ + 0 at hk
          change kept dropped (s.setCall (.filtering n v rest) .background) = 0
          omega
        · simp [flow, hv, dropped]
  | filtered w r n v rest hc =>
    have hk := kept_setCall dropped hc (.visiting rest)
    exact moves_flow (.quiet _ (by simp [refuse, take, give])) (by simp [flow])
      (owed_setCall s _ w) (by simp [flow]) hk (by simp [flow]) (by simp [flow])
  | waited _ _ _ _ ha hm | returned _ _ _ ha hm =>
    rcases ha with rfl | rfl
    all_goals exact quiet_flow h rfl (by simp [refuse]) rfl (by simp [owed, hm]) rfl rfl
  | reported _ hm | loopEnded hm | found hm | left hm | rested hm | expired hm =>
    exact quiet_flow h rfl (by simp [refuse]) rfl (by simp [owed, hm]) rfl rfl
  | _ => exact quiet_flow h rfl (by simp [refuse]) rfl rfl rfl rfl

/-- The drop metric has room for the refused puts of the message. -/
def Fits (s : State Queue) : Act → Prop
  | .addDrops => (flow s).shown + (flow s).owed < 2 ^ 32
  | _ => True

instance (s : State Queue) (a : Act) : Decidable (Fits s a) :=
  match a with
  | .addDrops => inferInstanceAs (Decidable (_ < _))
  | .pub _ | .addMetric _ | .lastProcessed _ | .totalProcessed _ | .wake | .exchange _ _
  | .send _ _ | .filter _ _ | .finish _ | .metricCountDown | .loopEnded | .look | .sleep
  | .timeout => inferInstanceAs (Decidable True)

end

def Flow.accounted (f : Flow) : ℕ := f.owed + f.shown + f.kept + f.handed

theorem accounted_moves {f f' : Flow} {a : Act} (h : f.Moves a f') :
    ∃ loss, f'.accounted + f.failed + loss = f.accounted + f'.failed ∧
      (loss = 0 ↔ (a = .addDrops → f.shown + f.owed < 2 ^ 32)) := by
  unfold Flow.accounted
  cases h with
  | quiet a ha => exact ⟨0, rfl, by simp [ha.2.1]⟩
  | posted ho =>
    refine ⟨0, ?_, by simp⟩
    simp only [ho]
    omega
  | refused => exact ⟨0, rfl, by simp [refuse]⟩
  | added hi =>
    refine ⟨f.shown + f.owed - (f.shown + f.owed) % 2 ^ 32, ?_, ?_⟩
    · simp only
      omega
    · simp only [forall_const]
      omega
  | taken hk =>
    refine ⟨0, ?_, by simp [take]⟩
    simp only [hk]
    omega
  | given =>
    refine ⟨0, ?_, by simp [give]⟩
    simp only
    omega

/-- The schedule so far has, after every refused put, the steps that take it further. -/
structure Flow.Tracked (f : Flow) (acts : List Act) : Prop where
  added : Followed refuse ([] ++ [.addDrops]) acts ↔ f.inTee + f.owed = 0
  taken : Followed refuse ([.addDrops] ++ [take]) acts ↔ f.inTee + f.owed + f.shown = 0
  given : Followed refuse ([.addDrops, take] ++ [give]) acts ↔
    f.inTee + f.owed + f.shown + f.kept = 0

theorem Flow.Tracked.other {f f' : Flow} {a : Act} {acts : List Act} (hf : f.Tracked acts)
    (ha : a ≠ refuse ∧ a ≠ .addDrops ∧ a ≠ take ∧ a ≠ give)
    (hi : f'.inTee + f'.owed = f.inTee + f.owed) (hs : f'.shown = f.shown) (hk : f'.kept = f.kept) :
    f'.Tracked (acts ++ [a]) := by
  obtain ⟨hr, hadd, htake, hgive⟩ := ha
  refine ⟨?_, ?_, ?_⟩
  · rw [followed_snoc_other _ _ hr hadd, hi]
    exact hf.added
  · rw [followed_snoc_other _ _ hr htake, hi, hs]
    exact hf.taken
  · rw [followed_snoc_other _ _ hr hgive, hi, hs, hk]
    exact hf.given

theorem tracked_moves {f f' : Flow} {a : Act} {acts : List Act} (h : f.Moves a f')
    (hfit : a = .addDrops → f.shown + f.owed < 2 ^ 32) (hf : f.Tracked acts) :
    f'.Tracked (acts ++ [a]) := by
  have hadd : Act.addDrops ≠ refuse ∧ Act.addDrops ≠ take ∧ Act.addDrops ≠ give := by decide
  have htake : take ≠ refuse ∧ take ≠ .addDrops ∧ take ≠ give := by decide
  have hgive : give ≠ refuse ∧ give ≠ .addDrops ∧ give ≠ take := by decide
  cases h with
  | quiet a ha => exact hf.other ha rfl rfl rfl
  | posted ho =>
    refine hf.other (by decide) ?_ rfl rfl
    simp only [ho]
    omega
  | refused =>
    -- the put that was just refused is not followed by anything
    refine ⟨?_, ?_, ?_⟩
    all_goals
      apply iff_of_false (followed_snoc_self _ _ _ acts)
      simp only
      omega
  | added hi =>
    have hmod : (f.shown + f.owed) % 2 ^ 32 = f.shown + f.owed := Nat.mod_eq_of_lt (hfit rfl)
    refine ⟨?_, ?_, ?_⟩
    · rw [followed_snoc_last _ _ hadd.1]
      exact iff_of_true (followed_nil _ _) (by simp only [hi])
    · rw [followed_snoc_other _ _ hadd.1 hadd.2.1, hf.taken]
      simp only [hmod]
      omega
    · rw [followed_snoc_other _ _ hadd.1 hadd.2.2, hf.given]
      simp only [hmod]
      omega
  | taken hk =>
    refine ⟨?_, ?_, ?_⟩
    · rw [followed_snoc_other _ _ htake.1 htake.2.1]
      exact hf.added
    · rw [followed_snoc_last _ _ htake.1]
      exact hf.added
    · rw [followed_snoc_other _ _ htake.1 htake.2.2, hf.given, hk]
      rfl
  | given =>
    refine ⟨?_, ?_, ?_⟩
    · rw [followed_snoc_other _ _ hgive.1 hgive.2.1]
      exact hf.added
    · rw [followed_snoc_other _ _ hgive.1 hgive.2.2]
      exact hf.taken
    · rw [followed_snoc_last _ _ hgive.1]
      exact hf.taken

section
variable {Queue : Type} [DecidableEq Queue]

omit [DecidableEq Queue] in
theorem fits_iff (s : State Queue) (a : Act) :
    Fits s a ↔ (a = .addDrops → (flow s).shown + (flow s).owed < 2 ^ 32) := by
  unfold Fits
  split
  next => simp
  next hne => exact iff_of_true trivial fun ha => absurd ha hne

omit [DecidableEq Queue] in
theorem start_shape (dest : Str) (msgBuf : MsgBuf) : Shape (start Queue dest msgBuf) :=
  ⟨⟨.idle, rfl⟩, ⟨FilterMetric.init dest, rfl⟩, fun hne => absurd rfl hne⟩

theorem run_shape {queueOf : Str → Queue} {dest : Str} {msgBuf : MsgBuf} {acts : List Act}
    {s : State Queue} (h : run (step queueOf) (start Queue dest msgBuf) acts = some s) : Shape s :=
  run_invariant Shape step_shape h (start_shape dest msgBuf)

/-- Nothing gets lost past the `Tee` exactly when the drop metric never wraps. -/
theorem run_accounted {queueOf : Str → Queue} {dest : Str} {msgBuf : MsgBuf} {acts : List Act}
    {s : State Queue} (h : run (step queueOf) (start Queue dest msgBuf) acts = some s) :
    (flow s).accounted ≤ s.failed ∧
    ((flow s).accounted = s.failed ↔
      Along (step queueOf) Fits (start Queue dest msgBuf) acts) := by
  have hrun := run_lossless_iff Shape step_shape (fun s => (flow s).accounted) State.failed Fits
    ?_ h (start_shape dest msgBuf)
  · have hzero : (flow (start Queue dest msgBuf)).accounted = 0 := rfl
    have hfailed : (start Queue dest msgBuf).failed = 0 := rfl
    simpa only [hzero, hfailed, Nat.zero_add, Nat.add_zero] using hrun
  · intro s a t hs hstep
    obtain ⟨loss, hloss, hiff⟩ := accounted_moves (flow_moves hs hstep)
    exact ⟨loss, hloss, hiff.trans (fits_iff s a).symm⟩

theorem run_tracked {queueOf : Str → Queue} {dest : Str} {msgBuf : MsgBuf} {acts : List Act}
    {s : State Queue} (h : run (step queueOf) (start Queue dest msgBuf) acts = some s)
    (fits : Along (step queueOf) Fits (start Queue dest msgBuf) acts) :
    (flow s).Tracked acts := by
  refine run_history (fun acts s => Along (step queueOf) Fits (start Queue dest msgBuf) acts →
    (flow s).Tracked acts) h ?_ ?_ fits
  · intro _
    exact ⟨iff_of_true (followed_start _ _) rfl, iff_of_true (followed_start _ _) rfl,
      iff_of_true (followed_start _ _) rfl⟩
  · intro acts s a t hrun ih hstep hfits
    obtain ⟨hbefore, hlast⟩ := (along_snoc Fits hrun a).mp hfits
    exact tracked_moves (flow_moves (run_shape hrun) hstep) ((fits_iff s a).mp hlast) (ih hbefore)

def AllReported (s : State Queue) : Prop :=
  total dropped s.handed = s.failed ∧ ∀ m ∈ s.lists .dropMetricReporter, m.lastProcessed = 0

/-- When `run()` returns, every drop was reported exactly if the drop metric never wrapped
and the background thread took and sent a value after every refused put. -/
theorem drops_reported_iff (queueOf : Str → Queue) (dest : Str) (msgBuf : MsgBuf)
    (acts : List Act) (s : State Queue)
    (h : run (step queueOf) (start Queue dest msgBuf) acts = some s)
    (hr : s.main.isReturned = true) :
    AllReported s ↔
      Along (step queueOf) Fits (start Queue dest msgBuf) acts ∧
      Followed (.pub (.caller 0 .putFail))
        [.addDrops, .exchange .background .dropMetricReporter,
          .send .background .dropMetricReporter] acts := by
  obtain ⟨hle, hiff⟩ := run_accounted h
  have hmain : s.main ≠ .filtering none ∧ owed s = 0 := by
    unfold owed
    cases hm : s.main <;> simp_all [Main.isReturned]
  have htee : (flow s).inTee = 0 := (run_shape h).resting hmain.1
  have howed : (flow s).owed = 0 := hmain.2
  have hhanded : total dropped s.handed = (flow s).handed := rfl
  have hacc : (flow s).accounted =
      (flow s).owed + (flow s).shown + (flow s).kept + (flow s).handed := rfl
  constructor
  · rintro ⟨hall, -⟩
    have hfits := hiff.mp (by omega)
    refine ⟨hfits, (run_tracked h hfits).given.mpr ?_⟩
    omega
  · rintro ⟨hfits, hfollowed⟩
    have hz := (run_tracked h hfits).given.mp hfollowed
    have heq := hiff.mpr hfits
    refine ⟨by omega, fun m hm => ?_⟩
    have hshown : m.lastProcessed.toNat ≤ (flow s).shown :=
      le_total (fun m : FilterMetric => m.lastProcessed.toNat) hm
    exact UInt32.toNat_inj.mp (by rw [UInt32.toNat_zero]; omega)

end

def oneRefused : List Act :=
  [.pub (.addBranch foo), .pub (.caller 0 (.getTrue [7] [foo])), .pub (.caller 0 .putFail),
    .pub (.caller 0 .post), .addDrops, .pub (.caller 0 .getFalse), .loopEnded, .look]

def reportedInTime : List Act :=
  oneRefused ++ [.wake, .finish .background, .exchange .background .dropMetricReporter,
    .send .background .dropMetricReporter, .filter .background .dropMetricReporter,
    .finish .background, .timeout, .finish .main, .look, .timeout]

def leftBehind : List Act := oneRefused ++ [.timeout, .finish .main, .look]

theorem reported_in_time :
    ∃ s, run (step id) (start Str foo noMsg) reportedInTime = some s ∧ s.failed = 1 ∧
      AllReported s := by
  have hsome : ((run (step id) (start Str foo noMsg) reportedInTime).map fun s =>
      (s.failed, s.main.isReturned)) = some (1, true) := by decide +kernel
  obtain ⟨s, hs, he⟩ := Option.map_eq_some_iff.mp hsome
  simp only [Prod.mk.injEq] at he
  refine ⟨s, hs, he.1, ?_⟩
  exact (drops_reported_iff id foo noMsg reportedInTime s hs he.2).mpr
    ⟨by decide +kernel, by decide +kernel⟩

theorem left_behind_unreported :
    ¬ ∀ acts s, run (step id) (start Str foo noMsg) acts = some s → s.main.isReturned = true →
      AllReported s := by
  intro h
  have hsome : ((run (step id) (start Str foo noMsg) leftBehind).map fun s =>
      (s.main.isReturned, total dropped s.handed, s.failed)) = some (true, 0, 1) := by
    decide +kernel
  obtain ⟨s, hs, he⟩ := Option.map_eq_some_iff.mp hsome
  simp only [Prod.mk.injEq] at he
  have hc := (h leftBehind s hs he.1).1
  omega

end Wissbi.DropReports
