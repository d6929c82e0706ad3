import Wissbi.ReportHands
import Wissbi.Runs

set_option autoImplicit false

namespace Wissbi.ConcurrentReports
open Buffers LengthPolicy MetricReporter ReportHands RunMachine RunSteps Runs StringPolicy Util

section
variable {Queue : Type}

def Hand.held : Hand → List Count
  | .empty => []
  | .before c => [c]
  | .after c => [c]

def inHand (s : State Queue) : List Count :=
  Hand.held (hand s .background) ++ Hand.held (hand s .main)

/-- Every value that an exchange gave and that is no longer in a thread's hand is the text
of exactly one message on the `Tee`, and these are all its messages. -/
def Reported (s : State Queue) : Prop :=
  ∃ reported : List Count, s.filter.delivered = reported.map Count.text ∧
    s.obtained.Perm (reported ++ inHand s)

def Hand.fits : Hand → Bool
  | .before c => decide (c.text.length ≤ maxMsgSize)
  | _ => true

def Hand.waits : Hand → Bool
  | .after _ => true
  | _ => false

def ends (s : State Queue) : Act → Bool
  | .look =>
    match s.main with
    | .lastWait _ false => s.filter.pending == 0
    | _ => false
  | .timeout =>
    match s.main with
    | .lastWait _ true => true
    | _ => false
  | _ => false

/-- The `Send` of a thread comes when the other one is not between its `Send` and its
`Filter()`, and the text fits a message; and `run()` does not return while the background thread
has a value in hand. -/
def Alone (s : State Queue) : Act → Prop
  | .send w _ => Hand.fits (hand s w) = true ∧ Hand.waits (hand s (Who.other w)) = false
  | .look => ends s .look = true → hand s .background = .empty
  | .timeout => ends s .timeout = true → hand s .background = .empty
  | _ => True

instance (s : State Queue) (a : Act) : Decidable (Alone s a) :=
  match a with
  | .send _ _ => inferInstanceAs (Decidable (_ ∧ _))
  | .look => inferInstanceAs (Decidable (_ → _))
  | .timeout => inferInstanceAs (Decidable (_ → _))
  | .pub _ | .addMetric _ | .lastProcessed _ | .totalProcessed _ | .addDrops | .wake
  | .exchange _ _ | .filter _ _ | .finish _ | .metricCountDown | .loopEnded | .sleep =>
    inferInstanceAs (Decidable True)

structure Intact (s : State Queue) : Prop where
  reported : Reported s
  good : s.filter.stream.good = true
  ready : ∀ w c, hand s w = .after c →
    (c.text.length ≤ maxMsgSize ∧ s.filter.stream = send s.filter.stream c.text) ∧
    ∀ c', hand s (Who.other w) ≠ .after c'

theorem filter_delivers (f : MetricFilter) (text : Str) (hg : f.stream.good = true)
    (hs : f.stream = send f.stream text) (hl : text.length ≤ maxMsgSize) :
    f.filter.delivered = f.delivered ++ [text] ∧ f.filter.stream.good = true := by
  have hlt : text.length < 2 ^ 31 := Nat.lt_of_le_of_lt hl (by decide)
  obtain ⟨hok, hdata, hgood⟩ := get_send f.stream f.msgBuf text hg hlt
  rw [← hs] at hok hdata hgood
  unfold MetricFilter.filter
  simp only [hok, ↓reduceIte, hdata]
  exact ⟨trivial, hgood⟩

theorem inHand_perm (s : State Queue) (w : Who) :
    (inHand s).Perm (Hand.held (hand s w) ++ Hand.held (hand s (Who.other w))) := by
  cases w with
  | background => exact .refl _
  | main => exact List.perm_append_comm

theorem other_other (w : Who) : Who.other (Who.other w) = w := by cases w <;> rfl

theorem reported_of_hand {s t : State Queue} (w : Who) (more out : List Count) (hs : Reported s)
    (ho : t.obtained = s.obtained ++ more)
    (hd : t.filter.delivered = s.filter.delivered ++ out.map Count.text)
    (hh : hand t (Who.other w) = hand s (Who.other w))
    (hw : (Hand.held (hand s w) ++ more).Perm (out ++ Hand.held (hand t w))) : Reported t := by
  obtain ⟨l, hl, hp⟩ := hs
  refine ⟨l ++ out, by rw [hd, hl, List.map_append], ?_⟩
  have hs' := inHand_perm s w
  have ht' := inHand_perm t w
  rw [List.perm_iff_count] at hp hs' ht' hw ⊢
  intro c
  have h₁ := hp c
  have h₂ := hs' c
  have h₃ := ht' c
  have h₄ := hw c
  rw [ho]
  simp only [List.count_append, hh] at h₁ h₂ h₃ h₄ ⊢
  omega

variable [DecidableEq Queue]

theorem step_intact {queueOf : Str → Queue} (s : State Queue) (a : Act) (t : State Queue)
    (hs : Intact s) (alone : Alone s a) (h : step queueOf s a = some t) : Intact t := by
  cases hand_moves h with
  | quiet _ _ hh hf ho hd =>
    refine ⟨?_, by rw [hf]; exact hs.good, ?_⟩
    · obtain ⟨l, hl, hp⟩ := hs.reported
      refine ⟨l, by rw [hf]; exact hl, ?_⟩
      rw [ho, inHand, hh, hh]
      exact hp
    · intro w c hw
      rw [hf, hh]
      exact hs.ready w c (hh w ▸ hw)
  | took w c _ hb ha hh hf ho hd =>
    refine ⟨?_, by rw [hf]; exact hs.good, forall_who w ?_ ?_⟩
    · apply reported_of_hand w [c] [] hs.reported ho (by simp [hf]) hh
      simp [hb, ha, Hand.held]
    · intro c' hw
      rw [ha] at hw
      cases hw
    · -- the other thread goes on with its own text in the buffer
      intro c' hw
      rw [hf, other_other, ha]
      exact ⟨(hs.ready _ c' (hh ▸ hw)).1, fun c'' => by simp⟩
  | gave w c _ hb ha hh hf ho hd =>
    obtain ⟨hfits, hwaits⟩ := alone
    have hother (c' : Count) : hand s (Who.other w) ≠ .after c' := by
      intro hw
      rw [hw] at hwaits
      cases hwaits
    rw [hb] at hfits
    refine ⟨?_, by rw [hf]; exact hs.good, forall_who w ?_ ?_⟩
    · apply reported_of_hand w [] [] hs.reported (by simp [ho]) (by simp [hf]) hh
      simp [hb, ha, Hand.held]
    · intro c' hw
      rw [ha] at hw
      cases hw
      rw [hh, hf]
      exact ⟨⟨of_decide_eq_true hfits, rfl⟩, hother⟩
    · intro c' hw
      exact absurd (hh ▸ hw) (hother c')
  | put w c _ hb ha hh hf ho hd =>
    obtain ⟨⟨hl, hsend⟩, hother⟩ := hs.ready w c hb
    obtain ⟨hdel, hgood⟩ := filter_delivers s.filter c.text hs.good hsend hl
    refine ⟨?_, by rw [hf]; exact hgood, forall_who w ?_ ?_⟩
    · apply reported_of_hand w [] [c] hs.reported (by simp [ho]) (by simp [hf, hdel]) hh
      simp [hb, ha, Hand.held]
    · intro c' hw
      rw [ha] at hw
      cases hw
    · intro c' hw
      exact absurd (hh ▸ hw) (hother c')

omit [DecidableEq Queue] in
theorem setCall_isReturned (s : State Queue) (c : Report) (w : Who) :
    (s.setCall c w).main.isReturned = s.main.isReturned := by
  cases w with
  | background => rfl
  | main =>
    change (s.main.setCall c).isReturned = s.main.isReturned
    cases s.main with
    | _ => rfl

theorem ends_of_returned {queueOf : Str → Queue} {s t : State Queue} {a : Act}
    (h : step queueOf s a = some t) (hr : t.main.isReturned = true) :
    ends s a = true ∧ (a = .look ∨ a = .timeout) ∧ t.background = s.background := by
  have hs : s.main.isReturned = false := by
    rw [Bool.eq_false_iff]
    intro hs
    simp [step, hs] at h
  cases step_moves h with
  | returned a z b ha hm =>
    refine ⟨?_, ha, rfl⟩
    rcases ha with rfl | rfl
    · cases b with
      | true => simp [step, State.look, hm, Main.isReturned] at h
      | false =>
        by_cases hp : s.filter.pending = 0
        · simp [ends, hm, hp]
        · have hpos : s.filter.pending > 0 := UInt32.pos_iff_ne_zero.mpr hp
          simp [step, State.look, hm, hpos, Main.isReturned] at h
    · cases b with
      | true => simp [ends, hm]
      | false => simp [step, State.timeout, hm, Main.isReturned] at h
  | skipped | sent | filtered =>
    rw [setCall_isReturned] at hr
    cases hs.symm.trans hr
  | exchanged w r n rest m =>
    have hset := setCall_isReturned (s.setList r (update n FilterMetric.drain (s.lists r)))
      (.sending n m.lastProcessed rest) w
    cases (hset.trans hs).symm.trans hr
  | posted | dropsAdded | reported | loopEnded | found | left | rested | expired | waited => cases hr
  | _ => cases hs.symm.trans hr

theorem step_left {queueOf : Str → Queue} {s t : State Queue} {a : Act} (alone : Alone s a)
    (h : step queueOf s a = some t) (hr : t.main.isReturned = true) : inHand t = [] := by
  obtain ⟨hends, ha, hback⟩ := ends_of_returned h hr
  have hhand : hand s .background = .empty := by
    rcases ha with rfl | rfl
    · exact alone hends
    · exact alone hends
  have hbackground : hand t .background = .empty := by
    rw [← hhand]
    simp only [hand, State.call, hback]
  have hmain : hand t .main = .empty := by
    cases hm : t.main with
    | returned z => simp [hand, State.call, hm, Hand.of]
    | _ => rw [hm] at hr; cases hr
  rw [inHand, hbackground, hmain]
  rfl

def Delivers (queueOf : Str → Queue) (s : State Queue) : Prop :=
  ∀ w c, hand s w = .after c → s.main.isReturned = false →
    ∃ t, step queueOf s (.filter w c.reporter) = some t ∧
      t.filter.delivered = s.filter.delivered ++ [c.text]

omit [DecidableEq Queue] in
theorem call_of_after {s : State Queue} {w : Who} {c : Count} (h : hand s w = .after c) :
    ∃ rest, s.call w = some (c.reporter, .filtering c.name c.v rest) := by
  unfold hand Hand.of at h
  split at h
  next => cases h
  next r n v rest hc => cases h; exact ⟨rest, hc⟩
  next => cases h

theorem delivers_of_intact (queueOf : Str → Queue) {s : State Queue} (hs : Intact s) :
    Delivers queueOf s := by
  intro w c hw hr
  obtain ⟨rest, hc⟩ := call_of_after hw
  obtain ⟨⟨hl, hsend⟩, -⟩ := hs.ready w c hw
  refine ⟨_, by simp [step, hr, hc]; rfl, ?_⟩
  exact (filter_delivers s.filter c.text hs.good hsend hl).1

omit [DecidableEq Queue] in
theorem start_intact (dest : Str) (msgBuf : MsgBuf) : Intact (start Queue dest msgBuf) := by
  refine ⟨⟨[], rfl, .nil⟩, rfl, ?_⟩
  intro w c hw
  cases w <;> cases hw

/-- In every run in which no `Send` comes between the other thread's `Send` and its
`Filter()`, and at whose end the background thread has nothing in hand, every value is reported
once, every report still goes through, and nothing is left in a hand when `run()` returns. -/
theorem reports_lose_nothing (queueOf : Str → Queue) (dest : Str) (msgBuf : MsgBuf)
    (acts : List Act) (s : State Queue)
    (h : run (step queueOf) (start Queue dest msgBuf) acts = some s)
    (alone : Along (step queueOf) Alone (start Queue dest msgBuf) acts) :
    Reported s ∧ Delivers queueOf s ∧ (s.main.isReturned = true → inHand s = []) := by
  have hs := run_invariant_along Alone Intact step_intact h alone (start_intact dest msgBuf)
  have hleft := run_invariant_along Alone (fun t => t.main.isReturned = true → inHand t = [])
    (fun _ _ _ _ ha hst => step_left ha hst) h alone nofun
  exact ⟨hs.reported, delivers_of_intact queueOf hs, hleft⟩

end

/-- A message that the branch refuses and one that is forwarded. The background thread takes
the drop, and the main thread comes to its own `Report` and takes the enqueued message. -/
def bothInHand : List Act :=
  [.wake, .finish .background, .pub (.addBranch foo), .addMetric foo, .pub (.connect foo),
    .pub (.caller 0 (.getTrue [7] [foo])), .pub (.caller 0 .putFail), .pub (.caller 0 .post),
    .addDrops, .exchange .background .dropMetricReporter,
    .pub (.caller 0 (.getTrue [7] [foo])), .pub (.caller 0 .putOk), .pub (.caller 0 .post),
    .addDrops, .pub (.producer 0 .msgrcv), .pub (.producer 0 (.write 4)),
    .pub (.producer 0 (.write 1)), .pub (.producer 0 .countDown), .lastProcessed 0,
    .totalProcessed 0, .pub (.caller 0 .getFalse), .loopEnded, .look, .timeout,
    .exchange .main .metricReporter]

def takingTurns : List Act :=
  bothInHand ++ [.send .background .dropMetricReporter, .filter .background .dropMetricReporter,
    .send .main .metricReporter, .filter .main .metricReporter, .finish .main, .look, .timeout]

def overwritten : List Act :=
  bothInHand ++ [.send .background .dropMetricReporter, .send .main .metricReporter,
    .filter .main .metricReporter]

theorem turns_lose_nothing :
    ∃ s, run (step id) (start Str foo noMsg) takingTurns = some s ∧
      s.filter.delivered = [ascii "foo,drop,1", ascii "foo,enqueue,1"] ∧
      s.main.isReturned = true ∧ inHand s = [] ∧ Reported s ∧ Delivers id s := by
  have hsome : ((run (step id) (start Str foo noMsg) takingTurns).map fun s =>
      (s.filter.delivered, s.main.isReturned)) =
        some ([ascii "foo,drop,1", ascii "foo,enqueue,1"], true) := by decide +kernel
  obtain ⟨s, hs, he⟩ := Option.map_eq_some_iff.mp hsome
  obtain ⟨hdelivered, hreturned⟩ := Prod.mk.inj he
  obtain ⟨hreported, hdelivers, hleft⟩ :=
    reports_lose_nothing id foo noMsg takingTurns s hs (by decide +kernel)
  exact ⟨s, hs, hdelivered, hreturned, hleft hreturned, hreported, hdelivers⟩

theorem overwritten_text_lost :
    ¬ (∀ acts s, run (step id) (start Str foo noMsg) acts = some s → Reported s) ∧
    ¬ ∀ acts s, run (step id) (start Str foo noMsg) acts = some s → Delivers id s := by
  have hlast : ((run (step id) (start Str foo noMsg) overwritten).bind fun s =>
      (step id s (.filter .background .dropMetricReporter)).map fun t =>
        (hand s .background, s.main.isReturned, s.filter.delivered, t.filter.delivered)) =
      some (.after ⟨.dropMetricReporter, foo, 1⟩, false, [ascii "foo,enqueue,1"],
        [ascii "foo,enqueue,1"]) := by decide +kernel
  obtain ⟨s, hs, h⟩ := Option.bind_eq_some_iff.mp hlast
  obtain ⟨t, ht, he⟩ := Option.map_eq_some_iff.mp h
  simp only [Prod.mk.injEq] at he
  constructor
  · intro hrep
    have hend : ((run (step id) (start Str foo noMsg)
        (overwritten ++ [.filter .background .dropMetricReporter])).map fun s =>
        (s.obtained.length, (inHand s).length)) = some (2, 0) := by decide +kernel
    obtain ⟨u, hu, hc⟩ := Option.map_eq_some_iff.mp hend
    simp only [Prod.mk.injEq] at hc
    obtain ⟨l, hl, hp⟩ := hrep _ u hu
    have hut : u = t := by
      rw [run_append, hs, Option.bind_some, run, ht] at hu
      exact (Option.some.inj hu).symm
    have h₁ := congrArg List.length hl
    have h₂ := hp.length_eq
    rw [hut, he.2.2.2] at h₁
    rw [List.length_append] at h₂
    simp only [List.length_map, List.length_singleton] at h₁
    omega
  · intro hdel
    obtain ⟨u, hu, hd⟩ := hdel overwritten s hs .background _ he.1 he.2.1
    rw [ht] at hu
    cases hu
    rw [he.2.2.2, he.2.2.1] at hd
    exact absurd hd (by decide)

end Wissbi.ConcurrentReports
