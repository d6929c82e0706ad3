import Wissbi.PublisherSteps

set_option autoImplicit false

namespace Wissbi.PublisherWait
open Buffers PublisherMachine PublisherSteps Runs ThreadPool

inductive Wait where
  | entering
  | looking (start : ℤ)
  | busy (start : ℤ)
  | asleep (start : ℤ)
  | over
  deriving DecidableEq, Repr

/-- `clock` is that of the system, in microseconds; `unheard` are the messages whose `Tee::Put`
met no branch. -/
structure Waiting (Name Queue : Type) where
  pub : State Name Queue
  clock : ℤ
  wait : Wait
  unheard : List Msg

inductive WaitAct (Name : Type) where
  | pub (a : Act Name)
  | enter
  | look
  | check
  | wake
  | pass (n : ℕ)
  deriving DecidableEq, Repr

/-- The condition of the loop's `break`; `duration_cast` cuts the elapsed time to seconds. -/
def timedOut (second : ℤ) (elapsed : ℤ) : Prop := second ≤ elapsed.tdiv 1000000

instance (second elapsed : ℤ) : Decidable (timedOut second elapsed) :=
  inferInstanceAs (Decidable (second ≤ elapsed.tdiv 1000000))

section
variable {Name Queue : Type} [DecidableEq Name] [DecidableEq Queue]

def unheardBy (s : State Name Queue) (i : ℕ) : List Msg :=
  match s.callers[i]? with
  | some (.teeing m _ _ 0 _) => [m]
  | _ => []

/-- The input loop gets to its `Get` when the wait is over, and waits again for the next
message. -/
def pubStep (queueOf : Name → Queue) (s : Waiting Name Queue) (a : Act Name) :
    Option (Waiting Name Queue) :=
  (step ⟨.loop, queueOf⟩ s.pub a).bind fun p =>
    match a with
    | .caller i b =>
      if s.wait = .over then
        if b = .post then
          some { s with pub := p, wait := .entering, unheard := s.unheard ++ unheardBy s.pub i }
        else some { s with pub := p }
      else none
    | _ => some { s with pub := p }

def waitStep (queueOf : Name → Queue) (second : ℤ) (s : Waiting Name Queue) :
    WaitAct Name → Option (Waiting Name Queue)
  | .pub a => pubStep queueOf s a
  | .enter => if s.wait = .entering then some { s with wait := .looking s.clock } else none
  | .look =>
    match s.wait with
    | .looking start =>
      if s.pub.branches.length = 0 then some { s with wait := .busy start }
      else some { s with wait := .over }
    | _ => none
  | .check =>
    match s.wait with
    | .busy start =>
      if timedOut second (s.clock - start) then some { s with wait := .over }
      else some { s with wait := .asleep start }
    | _ => none
  | .wake =>
    match s.wait with
    | .asleep start => some { s with wait := .looking start }
    | _ => none
  | .pass n => some { s with clock := s.clock + n }

def startAt (Name Queue : Type) (clock : ℤ) : Waiting Name Queue :=
  ⟨start Name Queue 1, clock, .entering, []⟩

def FoundBy (time : ℤ) (s : Waiting Name Queue) : WaitAct Name → Prop
  | .pass n => s.pub.branches = [] → s.clock + n ≤ time
  | _ => True

/-- Whenever a subscriber is found within so many microseconds, every message is put on a
branch. -/
def AllHeard (queueOf : Name → Queue) (second : ℤ) (micros : ℕ) : Prop :=
  ∀ (clock : ℤ) (acts : List (WaitAct Name)) (s : Waiting Name Queue),
    run (waitStep queueOf second) (startAt Name Queue clock) acts = some s →
    Along (waitStep queueOf second) (FoundBy (clock + micros)) (startAt Name Queue clock) acts →
    s.unheard = []

def Wait.start? : Wait → Option ℤ
  | .looking start | .busy start | .asleep start => some start
  | .entering | .over => none

def Meets : Caller Name → Prop
  | .teeing _ todo _ tee _ => 0 < tee + todo.length
  | .idle | .returned => True

omit [DecidableEq Queue] in
theorem caller_meets {queueOf : Name → Queue} {branches : List Name} {w w' : Shared Queue}
    {a : CallerAct Name} {c c' : Caller Name}
    (h : CallerMoves ⟨.loop, queueOf⟩ branches w a c c' w') (hb : branches ≠ []) : Meets c' := by
  cases h with
  | ended => trivial
  | began m order ho hm =>
    have hlen := (List.isPerm_iff.mp ho).length_eq
    have hpos := List.length_pos_of_ne_nil hb
    simp only [Meets]
    omega
  | visited m todo seen tee failed n hn hs =>
    simp only [Meets, List.length_cons]
    omega
  | put | dropped =>
    simp only [Meets]
    omega
  | posted => trivial

structure Heard (start : ℤ) (micros : ℕ) (s : Waiting Name Queue) : Prop where
  clock : start ≤ s.clock
  started : ∀ x ∈ s.wait.start?, start ≤ x
  early : s.pub.branches = [] → s.clock ≤ start + micros
  found : s.wait = .over → s.pub.branches ≠ []
  meets : ∀ c ∈ s.pub.callers, Meets c
  unheard : s.unheard = []

section
variable {queueOf : Name → Queue} {second start : ℤ} {micros : ℕ} {s t : Waiting Name Queue}

omit [DecidableEq Queue] in
theorem posted_heard {p : State Name Queue} (hp : ∀ c ∈ p.callers, Meets c) {i : ℕ}
    {w w' : Shared Queue} {c c' : Caller Name} (hc : p.callers[i]? = some c)
    (h : CallerMoves ⟨.loop, queueOf⟩ p.branches w .post c c' w') : unheardBy p i = [] := by
  cases h with
  | posted m seen tee failed =>
    have hmeets : 0 < tee + 0 := hp _ (List.mem_of_getElem? hc)
    obtain ⟨n, rfl⟩ := Nat.exists_eq_succ_of_ne_zero (Nat.ne_of_gt hmeets)
    simp [unheardBy, hc]

theorem pub_heard (hs : Heard start micros s) {a : Act Name}
    (h : pubStep queueOf s a = some t) : Heard start micros t := by
  obtain ⟨p, hp, h⟩ := Option.bind_eq_some_iff.mp h
  rcases step_cases hp with ⟨n, rfl, rfl⟩ | ⟨n, rfl, rfl⟩ | ⟨i, b, c, c', w, rfl, hc, hmoves, rfl⟩ |
    ⟨i, b, q, q', w, rfl, hq, hmoves, rfl⟩
  · cases h
    have hne : s.pub.branches ++ [n] ≠ [] := by simp
    exact ⟨hs.clock, hs.started, fun he => absurd he hne, fun _ => hne, hs.meets, hs.unheard⟩
  · cases h
    exact ⟨hs.clock, hs.started, hs.early, hs.found, hs.meets, hs.unheard⟩
  · obtain ⟨hover, h⟩ := Option.ite_none_right_eq_some.mp h
    have hmeets := forall_set (i := i) hs.meets (caller_meets hmoves (hs.found hover))
    split_ifs at h with hb
    · cases h
      subst hb
      refine ⟨hs.clock, by simp [Wait.start?], hs.early, by simp, hmeets, ?_⟩
      simp [hs.unheard, posted_heard hs.meets hc hmoves]
    · cases h
      exact ⟨hs.clock, hs.started, hs.early, hs.found, hmeets, hs.unheard⟩
  · cases h
    exact ⟨hs.clock, hs.started, hs.early, hs.found, hs.meets, hs.unheard⟩

theorem not_timedOut {elapsed : ℤ} (hpos : 0 < second) (h : elapsed < second * 1000000) :
    ¬ timedOut second elapsed := by
  unfold timedOut
  rcases Int.le_total 0 elapsed with hle | hle
  · rw [Int.tdiv_eq_ediv_of_nonneg hle]
    omega
  · have hdiv : elapsed.tdiv 1000000 ≤ (0 : ℤ).tdiv 1000000 := Int.tdiv_le_tdiv (by decide) hle
    rw [Int.zero_tdiv] at hdiv
    omega

omit [DecidableEq Name] [DecidableEq Queue] in
theorem Heard.moved (hs : Heard start micros s) {w : Wait} (hw : ∀ x ∈ w.start?, start ≤ x)
    (hfound : w = .over → s.pub.branches ≠ []) : Heard start micros { s with wait := w } :=
  ⟨hs.clock, hw, hs.early, hfound, hs.meets, hs.unheard⟩

theorem step_heard (henough : (micros : ℤ) < second * 1000000) (hs : Heard start micros s)
    {a : WaitAct Name} (hfound : FoundBy (start + micros) s a)
    (h : waitStep queueOf second s a = some t) : Heard start micros t := by
  have hstarted : ∀ (x : ℤ) (w : Wait), s.wait.start? = some x → w.start? = some x →
      ∀ y ∈ w.start?, start ≤ y := by
    intro x w hx hw y hy
    rw [hw] at hy
    cases hy
    exact hs.started x hx
  cases a with
  | pub a => exact pub_heard hs h
  | enter =>
    obtain ⟨hw, h⟩ := Option.ite_none_right_eq_some.mp h
    cases h
    refine hs.moved ?_ (by simp)
    rintro x ⟨⟩
    exact hs.clock
  | look =>
    simp only [waitStep] at h
    split at h
    next x hw =>
      split_ifs at h with hb
      · cases h
        exact hs.moved (hstarted x _ (by rw [hw]; rfl) rfl) (by simp)
      · cases h
        refine hs.moved (by simp [Wait.start?]) fun _ he => hb ?_
        rw [he, List.length_nil]
    next => cases h
  | check =>
    simp only [waitStep] at h
    split at h
    next x hw =>
      have hx : s.wait.start? = some x := by rw [hw]; rfl
      split_ifs at h with hout
      · cases h
        refine hs.moved (by simp [Wait.start?]) fun _ he => ?_
        -- Without a branch the clock has not got as far as the timeout.
        have hclock := hs.early he
        have hbegun := hs.started x hx
        exact not_timedOut (by omega) (by omega) hout
      · cases h
        exact hs.moved (hstarted x _ hx rfl) (by simp)
    next => cases h
  | wake =>
    simp only [waitStep] at h
    split at h
    next x hw =>
      cases h
      exact hs.moved (hstarted x _ (by rw [hw]; rfl) rfl) (by simp)
    next => cases h
  | pass n =>
    cases h
    refine ⟨?_, hs.started, hfound, hs.found, hs.meets, hs.unheard⟩
    have := hs.clock
    simp only
    omega

end

theorem timed_out_unheard (queueOf : Name → Queue) {second : ℤ} {micros : ℕ}
    (hlate : second * 1000000 ≤ micros) :
    ∃ s, ReachesAlong (waitStep queueOf second) (FoundBy (0 + micros)) (startAt Name Queue 0) s ∧
      s.unheard = [[104]] := by
  have hout : timedOut second ((0 : ℤ) + micros - 0) := by
    unfold timedOut
    rw [Int.tdiv_eq_ediv_of_nonneg (by omega)]
    omega
  let p := start Name Queue 1
  let q := { p with callers := [Caller.teeing [104] [] [] 0 0] }
  have henter : waitStep queueOf second ⟨p, 0, .entering, []⟩ .enter =
      some ⟨p, 0, .looking 0, []⟩ := rfl
  have hlook : waitStep queueOf second ⟨p, 0, .looking 0, []⟩ .look =
      some ⟨p, 0, .busy 0, []⟩ := rfl
  have hpass : waitStep queueOf second ⟨p, 0, .busy 0, []⟩ (.pass micros) =
      some ⟨p, 0 + micros, .busy 0, []⟩ := rfl
  have hcheck : waitStep queueOf second ⟨p, 0 + micros, .busy 0, []⟩ .check =
      some ⟨p, 0 + micros, .over, []⟩ := if_pos hout
  have hget : waitStep queueOf second ⟨p, 0 + micros, .over, []⟩
      (.pub (.caller 0 (.getTrue [104] []))) = some ⟨q, 0 + micros, .over, []⟩ := by
    simp [waitStep, pubStep, step, Caller.step, p, q, PublisherMachine.start, List.isPerm]
  have hpost : waitStep queueOf second ⟨q, 0 + micros, .over, []⟩ (.pub (.caller 0 .post)) =
      some ⟨p, 0 + micros, .entering, [[104]]⟩ := by
    simp [waitStep, pubStep, step, Caller.step, unheardBy, p, q, PublisherMachine.start,
      Mode.credit]
  refine ⟨⟨p, 0 + micros, .entering, [[104]]⟩, ?_, rfl⟩
  exact (ReachesAlong.single henter trivial).trans <| (ReachesAlong.single hlook trivial).trans <|
    (ReachesAlong.single hpass fun _ => Int.le_refl _).trans <|
    (ReachesAlong.single hcheck trivial).trans <| (ReachesAlong.single hget trivial).trans <|
    .single hpost trivial

/-- The timeout saves every message from being put on no branch exactly when a subscriber is
found before it has passed since the start. -/
theorem all_heard_iff (queueOf : Name → Queue) (second : ℤ) (micros : ℕ) :
    AllHeard queueOf second micros ↔ (micros : ℤ) < second * 1000000 := by
  constructor
  · intro h
    by_contra hlate
    obtain ⟨s, ⟨acts, hrun, halong⟩, hs⟩ := timed_out_unheard queueOf (Int.not_lt.mp hlate)
    rw [h 0 acts s hrun halong] at hs
    cases hs
  · intro henough clock acts s hrun halong
    have hstart : Heard clock micros (startAt Name Queue clock) := by
      refine ⟨Int.le_refl _, by simp [startAt, Wait.start?], fun _ => ?_, by simp [startAt],
        by simp [startAt, PublisherMachine.start, Meets], rfl⟩
      simp only [startAt]
      omega
    exact (run_invariant_along (FoundBy (clock + micros)) (Heard clock micros)
      (fun s a t hs hfound h => step_heard henough hs hfound h) hrun halong hstart).unheard

end

end Wissbi.PublisherWait
