import Wissbi.RunSteps
import Wissbi.Runs

set_option autoImplicit false

namespace Wissbi.ReportHands
open MetricReporter RunMachine RunSteps Runs ThreadPool Util

variable {Queue : Type}

inductive Hand where
  | empty
  | before (c : Count)
  | after (c : Count)
  deriving DecidableEq, Repr

def Hand.of : Option (Reporter × Report) → Hand
  | some (r, .sending n v _) => .before ⟨r, n, v⟩
  | some (r, .filtering n v _) => .after ⟨r, n, v⟩
  | _ => .empty

def hand (s : State Queue) (w : Who) : Hand := Hand.of (s.call w)

/-- What a step does to the values in hand and to the buffer they go through. Everything
but the three steps of a `Report` leaves them as they are. -/
inductive HandMoves (s : State Queue) : Act → State Queue → Prop where
  | quiet (a : Act) (t : State Queue) (hh : ∀ w, hand t w = hand s w)
      (hf : t.filter = { s.filter with pending := t.filter.pending })
      (ho : t.obtained = s.obtained) (hd : t.handed = s.handed) : HandMoves s a t
  | took (w : Who) (c : Count) (t : State Queue) (h : hand s w = .empty)
      (h' : hand t w = .before c) (hh : hand t (Who.other w) = hand s (Who.other w))
      (hf : t.filter = s.filter) (ho : t.obtained = s.obtained ++ [c])
      (hd : t.handed = s.handed) : HandMoves s (.exchange w c.reporter) t
  | gave (w : Who) (c : Count) (t : State Queue) (h : hand s w = .before c)
      (h' : hand t w = .after c) (hh : hand t (Who.other w) = hand s (Who.other w))
      (hf : t.filter = { s.filter with stream := StringPolicy.send s.filter.stream c.text })
      (ho : t.obtained = s.obtained) (hd : t.handed = s.handed ++ [c]) :
      HandMoves s (.send w c.reporter) t
  | put (w : Who) (c : Count) (t : State Queue) (h : hand s w = .after c)
      (h' : hand t w = .empty) (hh : hand t (Who.other w) = hand s (Who.other w))
      (hf : t.filter = s.filter.filter) (ho : t.obtained = s.obtained)
      (hd : t.handed = s.handed) : HandMoves s (.filter w c.reporter) t

theorem hand_call {s : State Queue} {w : Who} {r : Reporter} {c : Report}
    (h : s.call w = some (r, c)) : hand s w = Hand.of (some (r, c)) := by
  rw [hand, h]

theorem hand_setCall {s : State Queue} {w : Who} {r : Reporter} {c : Report}
    (h : s.call w = some (r, c)) (c' : Report) :
    hand (s.setCall c' w) w = Hand.of (some (r, c')) ∧
    hand (s.setCall c' w) (Who.other w) = hand s (Who.other w) := by
  obtain ⟨h₁, h₂⟩ := call_setCall h c'
  exact ⟨hand_call h₁, by rw [hand, hand, h₂]⟩

theorem forall_who {P : Who → Prop} (w : Who) (h : P w) (h' : P (Who.other w)) : ∀ w, P w := by
  intro u
  cases w <;> cases u <;> assumption

theorem hand_congr {s t : State Queue} (hb : t.background = s.background) (hm : t.main = s.main)
    (w : Who) : hand t w = hand s w := by
  cases w <;> simp only [hand, State.call, hb, hm]

theorem call_main {s : State Queue} {r : Reporter} {c : Report} (h : s.call .main = some (r, c)) :
    r = .metricReporter ∧ ∃ z, s.main = .reporting z c := by
  unfold State.call at h
  simp only at h
  split at h
  next z c' hm =>
    cases h
    exact ⟨rfl, z, hm⟩
  next => cases h

variable [DecidableEq Queue]

theorem hand_moves {queueOf : Str → Queue} {s t : State Queue} {a : Act}
    (h : step queueOf s a = some t) : HandMoves s a t := by
  cases step_moves h with
  | skipped w r n rest m hc hm hz =>
    have hc' : (s.setList r (update n FilterMetric.drain (s.lists r))).call w =
        some (r, .visiting (n :: rest)) := hc
    obtain ⟨h₁, h₂⟩ := hand_setCall hc' (.visiting rest)
    refine .quiet _ _ (forall_who w ?_ ?_) ?_ ?_ ?_
    · rw [h₁, hand_call hc]
      rfl
    · exact h₂
    all_goals simp [State.setList]
  | exchanged w r n rest m hc hm hz =>
    have hc' : (s.setList r (update n FilterMetric.drain (s.lists r))).call w =
        some (r, .visiting (n :: rest)) := hc
    obtain ⟨h₁, h₂⟩ := hand_setCall hc' (.sending n m.lastProcessed rest)
    refine .took w ⟨r, n, m.lastProcessed⟩ _ (hand_call hc) h₁ h₂ ?_ rfl ?_
    all_goals simp [State.setList]
  | sent w r n v rest hc =>
    obtain ⟨h₁, h₂⟩ := hand_setCall hc (.filtering n v rest)
    refine .gave w ⟨r, n, v⟩ _ (hand_call hc) h₁ h₂ rfl ?_ rfl
    simp
  | filtered w r n v rest hc =>
    obtain ⟨h₁, h₂⟩ := hand_setCall hc (.visiting rest)
    refine .put w ⟨r, n, v⟩ _ (hand_call hc) h₁ h₂ rfl ?_ ?_
    all_goals simp
  | woke hb | turned hb | slept hb =>
    refine .quiet _ _ (forall_who .background ?_ rfl) rfl rfl rfl
    simp [hand, State.call, hb, Hand.of, Report.start]
  | posted _ _ _ hm | dropsAdded _ _ _ hm | reported _ hm | loopEnded hm | found hm | left hm
  | rested hm | expired hm | waited _ _ _ _ _ hm | returned _ _ _ _ hm =>
    -- the main thread goes on outside its call of `Report`
    refine .quiet _ _ (forall_who .main ?_ rfl) rfl rfl rfl
    simp [hand, State.call, hm, Hand.of, Report.start]
  | _ => exact .quiet _ _ (hand_congr rfl rfl) rfl rfl rfl

/-- What a value counts for while it was taken but not yet passed to `Send`. -/
def Hand.kept (f : Count → ℕ) : Hand → ℕ
  | .before c => f c
  | _ => 0

def kept (f : Count → ℕ) (s : State Queue) : ℕ :=
  Hand.kept f (hand s .background) + Hand.kept f (hand s .main)

omit [DecidableEq Queue] in
theorem kept_split (f : Count → ℕ) (s : State Queue) (w : Who) :
    kept f s = Hand.kept f (hand s w) + Hand.kept f (hand s (Who.other w)) := by
  cases w with
  | background => rfl
  | main => exact Nat.add_comm _ _

omit [DecidableEq Queue] in
theorem kept_setCall (f : Count → ℕ) {s : State Queue} {w : Who} {r : Reporter} {c : Report}
    (h : s.call w = some (r, c)) (c' : Report) :
    kept f (s.setCall c' w) + Hand.kept f (Hand.of (some (r, c))) =
      kept f s + Hand.kept f (Hand.of (some (r, c'))) := by
  obtain ⟨h₁, h₂⟩ := hand_setCall h c'
  rw [kept_split f s w, kept_split f (s.setCall c' w) w, h₁, h₂, hand_call h]
  omega

def reports : Act → Bool
  | .exchange _ _ => true
  | .send _ _ => true
  | .filter _ _ => true
  | _ => false

theorem kept_quiet (f : Count → ℕ) {queueOf : Str → Queue} {s t : State Queue} {a : Act}
    (h : step queueOf s a = some t) (ha : reports a = false) :
    kept f t = kept f s ∧ t.handed = s.handed := by
  cases hand_moves h with
  | quiet _ _ hh hf ho hd => exact ⟨by rw [kept, hh, hh]; rfl, hd⟩
  | took | gave | put => cases ha

/-- Every value that was taken was handed over or is in a hand. -/
theorem run_handed (f : Count → ℕ) {queueOf : Str → Queue} {s u : State Queue} {acts : List Act}
    (h : run (step queueOf) s acts = some u)
    (hs : total f s.obtained = total f s.handed + kept f s) :
    total f u.obtained = total f u.handed + kept f u := by
  refine run_invariant (fun s => total f s.obtained = total f s.handed + kept f s) ?_ h hs
  intro s a t hs h
  cases hand_moves h with
  | quiet _ _ hh hf ho hd =>
    rw [ho, hd, kept, hh, hh]
    exact hs
  | took w c _ hb ha hh hf ho hd | gave w c _ hb ha hh hf ho hd =>
    rw [kept_split f s w, hb] at hs
    rw [kept_split f t w, ha, hh, ho, hd, total_append, total_cons, total_nil, hs]
    simp only [Hand.kept]
    omega
  | put w c _ hb ha hh hf ho hd =>
    rw [kept_split f s w, hb] at hs
    rw [kept_split f t w, ha, hh, ho, hd, hs]
    rfl

end Wissbi.ReportHands
